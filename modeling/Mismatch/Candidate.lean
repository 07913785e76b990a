import Mismatch.DerefPath

/-!
# Fixes

The ways to reconcile an expression with the type that is expected of it. A candidate is described
in a line of text and, unless it edits a signature, gives a replacement for the expression.
-/

namespace Mismatch

/-- The traits that conversions go through. -/
inductive ConversionTrait where
  | fromValue | tryFrom | fromStr | toOwned | toText | borrow | borrowMut | asRef | asMut
deriving DecidableEq

namespace ConversionTrait

def all : List ConversionTrait :=
  [.fromValue, .tryFrom, .fromStr, .toOwned, .toText, .borrow, .borrowMut, .asRef, .asMut]

def name : ConversionTrait → Text
  | .fromValue => "From"
  | .tryFrom => "TryFrom"
  | .fromStr => "FromStr"
  | .toOwned => "ToOwned"
  | .toText => "ToString"
  | .borrow => "Borrow"
  | .borrowMut => "BorrowMut"
  | .asRef => "AsRef"
  | .asMut => "AsMut"

end ConversionTrait

/-- A way to mend a mismatch. The type `target` is the one that the fix produces; `error` is the
error type of a conversion that may fail and missing for the others. Unpacking conversions leave
their result as it is, because a result is what is expected. -/
inductive Candidate where
  | asCast (target : Ty)
  | convertVia (via : ConversionTrait) (target error : Ty)
  | convertAndUnpackVia (via : ConversionTrait) (target error : Ty)
  | changeRefToMutable
  | toImmutableStr
  | toMutableStr
  | derefRefBridge (target : Ty) (path : DerefPath)
  | changeReturnType (function : Text) (target : Ty)
  | changeLetType (binding : Text) (target : Ty)

namespace Candidate

def kindName : Candidate → Text
  | asCast _ => "AsCast"
  | convertVia .. => "ConvertVia"
  | convertAndUnpackVia .. => "ConvertAndUnpackVia"
  | changeRefToMutable => "ChangeRefToMutable"
  | toImmutableStr => "ToImmutableStr"
  | toMutableStr => "ToMutableStr"
  | derefRefBridge .. => "DerefRefBridge"
  | changeReturnType .. => "ChangeReturnType"
  | changeLetType .. => "ChangeLetType"

def via? : Candidate → Option ConversionTrait
  | convertVia via _ _ => some via
  | convertAndUnpackVia via _ _ => some via
  | _ => none

/-- The type that the fix produces, missing where it is not said. -/
def target : Candidate → Ty
  | asCast t => t
  | convertVia _ t _ => t
  | convertAndUnpackVia _ t _ => t
  | changeRefToMutable => .missing
  | toImmutableStr => .shared .str
  | toMutableStr => .ref .mutable .str
  | derefRefBridge t _ => t
  | changeReturnType _ t => t
  | changeLetType _ t => t

def error : Candidate → Ty
  | convertVia _ _ e => e
  | convertAndUnpackVia _ _ e => e
  | _ => .missing

def path? : Candidate → Option DerefPath
  | derefRefBridge _ p => some p
  | _ => none

/-- The name of the function or binding whose signature is edited. -/
def name : Candidate → Text
  | changeReturnType f _ => f
  | changeLetType b _ => b
  | _ => []

/-- One line that says what the fix does. -/
def describe : Candidate → Text
  | asCast t => Text.join ["Add safe cast to `", t.text, "`"]
  | convertVia via t _ => Text.join ["Convert to `", t.text, "` using `", via.name, "` trait"]
  | convertAndUnpackVia via t _ =>
    Text.join ["Convert to `", t.text, "` using `", via.name, "` trait"]
  | changeRefToMutable => "Change reference to mutable"
  | toImmutableStr => "Convert to `&str` using `as_str` method"
  | toMutableStr => "Convert to `&mut str` using `as_mut_str` method"
  | derefRefBridge t _ =>
    Text.join ["Convert to `", t.text, "` using dereferences and/or references"]
  | changeReturnType f t =>
    Text.join ["Change return type of function `", f, "` to `", t.text, "`"]
  | changeLetType b t => Text.join ["Change type of `", b, "` to `", t.text, "`"]

/-! ## Replacements -/

/-- The bytes that may belong to an operator outside of any call. -/
def operatorBytes : List UInt8 :=
  [Text.byte ' ', Text.byte '&', Text.byte '*', Text.byte '-', Text.byte '!']

/-- The text as the receiver of a method or a cast: in parentheses if it may hold operators. -/
def asReceiver (text : Text) : Text :=
  if !text.isEmpty && !text.any operatorBytes.contains then text else "(" ++ text ++ ")"

/-- A type in front of an associated function: plain names stand for themselves. -/
def qualifier (t : Ty) : Text :=
  if t.text.all fun b => Text.isIdentByte b || b == Text.byte ':' then t.text ++ "::"
  else "<" ++ t.text ++ ">::"

/-- The call that converts the text of an expression to the type `target`. -/
def call (via : ConversionTrait) (target : Ty) (text : Text) : Text :=
  match via with
  | .fromValue => Text.join [qualifier target, "from(", text, ")"]
  | .tryFrom => Text.join [qualifier target, "try_from(", text, ")"]
  | .fromStr => Text.join [asReceiver text, ".parse::<", target.text, ">()"]
  | .toOwned => asReceiver text ++ ".to_owned()"
  | .toText => asReceiver text ++ ".to_string()"
  | .borrow => asReceiver text ++ ".borrow()"
  | .borrowMut => asReceiver text ++ ".borrow_mut()"
  | .asRef => asReceiver text ++ ".as_ref()"
  | .asMut => asReceiver text ++ ".as_mut()"

/-- Whether a conversion may fail, so that its value has to be taken out of a result. -/
def fallible (via : ConversionTrait) : Bool := via == .tryFrom || via == .fromStr

/-- A text that borrows something, but not mutably, with its borrow made mutable. -/
def borrowMutably? (text : Text) : Option Text :=
  match text with
  | b :: c :: t =>
    if b == Text.byte '&' && !(Text.ofString "&mut ").isPrefixOf text then
      some ("&mut " ++ c :: t)
    else none
  | _ => none

/-- What to write in place of the expression, for fixes that leave signatures alone. -/
def edit? (c : Candidate) (text : Text) : Option Text :=
  match c with
  | asCast t => some (Text.join [asReceiver text, " as ", t.text])
  | convertVia via t _ =>
    some (if fallible via then call via t text ++ ".unwrap()" else call via t text)
  | convertAndUnpackVia via t _ => some (call via t text)
  | changeRefToMutable => borrowMutably? text
  | toImmutableStr => some (asReceiver text ++ ".as_str()")
  | toMutableStr => some (asReceiver text ++ ".as_mut_str()")
  | derefRefBridge _ p => some (p.render text)
  | changeReturnType .. => none
  | changeLetType .. => none

end Candidate
end Mismatch
