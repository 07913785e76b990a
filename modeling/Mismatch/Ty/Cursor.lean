import Mismatch.Ty.Names

/-!
# Places in a written type

A cursor stands at a place in a text that is being read. Its operations take tokens: white space
before a token is passed over, and what cannot be read is refused with a cause and the offset of
the byte that comes next.
-/

namespace Mismatch

/-- Why a text is no type. -/
inductive ParseCause where
  | expectedType
  | expectedBraced
  | unclosedSlice
  | unclosedTuple
  | unclosedArguments
  | expectedSegment
  | unexpectedByte (b : UInt8)
  | trailingByte (b : UInt8)
  | name (e : NameError)
  | arity (path : Text) (expected found : Nat)

def ParseCause.message : ParseCause → Text
  | .expectedType => "expected a type"
  | .expectedBraced => "expected `\x7binteger\x7d`, `\x7bfloat\x7d` or `\x7bunknown\x7d`"
  | .unclosedSlice => "expected `]` after slice element type"
  | .unclosedTuple => "expected `,` or `)` in tuple type"
  | .unclosedArguments => "expected `,` or `>` in type arguments"
  | .expectedSegment => "expected identifier after `::`"
  | .unexpectedByte b => Text.join ["unexpected `", [b], "` in type"]
  | .trailingByte b => Text.join ["unexpected `", [b], "` after type"]
  | .name e => e.message
  | .arity path expected found =>
    Text.join ["`", path, "` expects ", Text.ofNat expected, " type argument",
      if expected = 1 then "" else "s", ", found ", Text.ofNat found]

structure ParseError where
  cause : ParseCause
  offset : Nat

/-- A place in a text that is being read: what is left, how many bytes are gone, and the number of
the next inference variable. -/
structure Cursor where
  rest : Text
  offset : Nat
  nextId : UInt32

namespace Cursor

/-- The cursor `n` bytes further on. -/
def drop (c : Cursor) (n : Nat) : Cursor := ⟨c.rest.drop n, c.offset + n, c.nextId⟩

def skipSpace (c : Cursor) : Cursor := c.drop (c.rest.takeWhile Text.isSpace).length

/-- The cursor behind the token `t`, if that comes next after white space. -/
def eat (c : Cursor) (t : Text) : Option Cursor :=
  let c := c.skipSpace
  if t.isPrefixOf c.rest then some (c.drop t.length) else none

/-- The cursor behind the word `w`, if that comes next and is not the start of a longer word. -/
def eatWord (c : Cursor) (w : Text) : Option Cursor :=
  match c.eat w with
  | none => none
  | some c =>
    match c.rest with
    | [] => some c
    | b :: _ => if Text.isIdentByte b then none else some c

/-- The identifier that comes next after white space, empty if there is none, and what follows. -/
def ident (c : Cursor) : Text × Cursor :=
  let c := c.skipSpace
  match c.rest with
  | [] => ([], c)
  | b :: t =>
    if Text.isIdentStart b then
      let name := b :: t.takeWhile Text.isIdentByte
      (name, c.drop name.length)
    else ([], c)

/-- A new inference variable. -/
def fresh (c : Cursor) (kind : InferKind) : Ty × Cursor :=
  (.fresh kind c.nextId, ⟨c.rest, c.offset, c.nextId + 1⟩)

/-- Refuses at the byte that comes next after white space. -/
def fail {α : Type} (c : Cursor) (cause : ParseCause) : Except ParseError α :=
  .error ⟨cause, c.skipSpace.offset⟩

/-- The further segments of a path, each with the `::` before it. There are at most as many as the
first argument has bytes. -/
def segments : Text → Cursor → Except ParseError (Text × Cursor)
  | [], c => .ok ([], c)
  | _ :: bound, c =>
    match c.eat "::" with
    | none => .ok ([], c)
    | some c =>
      match c.ident with
      | ([], c) => c.fail .expectedSegment
      | (name, c) => do
        let (more, c) ← segments bound c
        return ("::" ++ name ++ more, c)

/-- A path: identifiers joined by `::`, as many as there are. -/
def path (c : Cursor) : Except ParseError (Text × Cursor) := do
  let (first, c) := c.ident
  let (more, c) ← c.segments c.rest
  return (first ++ more, c)

/-- The mutability of a reference: the word `mut`, or nothing. -/
def mutability (c : Cursor) : Mutability × Cursor :=
  match c.eatWord "mut" with
  | some c => (.mutable, c)
  | none => (.immutable, c)

/-- The type in braces that comes next: a numeric inference variable or the unknown type. -/
def braced? (c : Cursor) : Option (Ty × Cursor) :=
  match c.eat "\x7binteger\x7d", c.eat "\x7bfloat\x7d", c.eat "\x7bunknown\x7d" with
  | some c, _, _ => some (c.fresh .int)
  | none, some c, _ => some (c.fresh .float)
  | none, none, some c => some (.unknown, c)
  | none, none, none => none

end Cursor
end Mismatch
