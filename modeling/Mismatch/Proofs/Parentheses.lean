import Mismatch.Candidate
import Mismatch.Proofs.Reading

/-!
# Parentheses around operands

A replacement has to bind to the whole of the expression that it stands for, also where this has an
operator between two operands. An argument of a call is in parentheses anyhow. A receiver is put
into them only if it has a blank or one of the bytes `&`, `*`, `-` and `!`, which most operators do
not have when they are written without blanks, and dereferences and borrows go in front of the
expression as it is. So a replacement encloses the expression only in some of the cases
(`Candidate.enclosed_edit_iff`).
-/

namespace Mismatch

open Text

/-- The operators between two operands. -/
inductive BinaryOp where
  | add | sub | mul | div | rem
  | bitAnd | bitOr | bitXor | shiftLeft | shiftRight
  | eq | ne | lt | gt | le | ge
  | and | or
deriving DecidableEq

def BinaryOp.text : BinaryOp → Text
  | .add => "+"
  | .sub => "-"
  | .mul => "*"
  | .div => "/"
  | .rem => "%"
  | .bitAnd => "&"
  | .bitOr => "|"
  | .bitXor => "^"
  | .shiftLeft => "<<"
  | .shiftRight => ">>"
  | .eq => "=="
  | .ne => "!="
  | .lt => "<"
  | .gt => ">"
  | .le => "<="
  | .ge => ">="
  | .and => "&&"
  | .or => "||"

/-- Two identifiers with an operator between them and any number of blanks on its sides. -/
structure BinaryExpr where
  left : Text
  op : BinaryOp
  right : Text
  blanksBefore : Nat
  blanksAfter : Nat
  left_ident : isIdent left = true
  right_ident : isIdent right = true

namespace BinaryExpr

def text (x : BinaryExpr) : Text :=
  x.left ++ (List.replicate x.blanksBefore (byte ' ') ++ (x.op.text ++
    (List.replicate x.blanksAfter (byte ' ') ++ x.right)))

/-- The operator is seen to be one: it has blanks around it or one of the bytes that tell. -/
def Seen (x : BinaryExpr) : Prop :=
  0 < x.blanksBefore ∨ 0 < x.blanksAfter ∨ x.op ∈ [.sub, .mul, .bitAnd, .ne, .and]

end BinaryExpr

/-- The text in parentheses. -/
def Text.enclosed (t : Text) : Text := byte '(' :: (t ++ [byte ')'])

/-! ## Texts in parentheses within others -/

namespace Text
variable {t u v : Text}

theorem not_enclosed_infix_nil : ¬ enclosed t <:+: [] := fun h => nomatch List.infix_nil.1 h

theorem open_mem_enclosed : byte '(' ∈ enclosed t := List.mem_cons_self

theorem close_mem_enclosed : byte ')' ∈ enclosed t := by simp [enclosed]

/-- Where a text in parentheses is cut, the parentheses go to different sides. -/
theorem enclosed_eq_append (h : enclosed t = u ++ v) (hu : u ≠ []) (hv : v ≠ []) :
    ∃ u' v', u = byte '(' :: u' ∧ v = v' ++ [byte ')'] ∧ t = u' ++ v' := by
  obtain ⟨b, u', rfl⟩ := List.exists_cons_of_ne_nil hu
  obtain ⟨v', c, rfl⟩ := (List.eq_nil_or_concat' v).resolve_left hv
  rw [enclosed, List.cons_append, List.cons.injEq, ← List.append_assoc] at h
  obtain ⟨rfl, h⟩ := h
  obtain ⟨htext, hclose⟩ := List.append_inj' h rfl
  exact ⟨u', v', rfl, by rw [hclose], htext⟩

theorem enclosed_infix_append : enclosed t <:+: u ++ v ↔
    enclosed t <:+: u ∨ enclosed t <:+: v ∨
      ∃ u' v', t = u' ++ v' ∧ byte '(' :: u' <:+ u ∧ v' ++ [byte ')'] <+: v := by
  rw [List.infix_append_iff_ne_nil]
  constructor
  · rintro (h | h | ⟨u₁, v₁, hu, hv, heq, hback, hfront⟩)
    · exact .inl h
    · exact .inr (.inl h)
    · obtain ⟨u', v', rfl, rfl, htext⟩ := enclosed_eq_append heq hu hv
      exact .inr (.inr ⟨u', v', htext, hback, hfront⟩)
  · rintro (h | h | ⟨u', v', rfl, hback, hfront⟩)
    · exact .inl h
    · exact .inr (.inl h)
    · exact .inr (.inr ⟨_, _, List.cons_ne_nil _ _, by simp, by simp [enclosed], hback, hfront⟩)

theorem enclosed_infix_append_left (hu : byte '(' ∉ u) :
    enclosed t <:+: u ++ v ↔ enclosed t <:+: v := by
  rw [enclosed_infix_append]
  constructor
  · rintro (h | h | ⟨u', v', -, hback, -⟩)
    · exact absurd (h.subset open_mem_enclosed) hu
    · exact h
    · exact absurd (hback.subset List.mem_cons_self) hu
  · exact fun h => .inr (.inl h)

theorem enclosed_infix_append_right (hv : byte ')' ∉ v) :
    enclosed t <:+: u ++ v ↔ enclosed t <:+: u := by
  rw [enclosed_infix_append]
  constructor
  · rintro (h | h | ⟨u', v', -, -, hfront⟩)
    · exact h
    · exact absurd (h.subset close_mem_enclosed) hv
    · exact absurd (hfront.subset (by simp)) hv
  · exact .inl

/-- A text without parentheses that is put into some does not reach over an opening one. -/
theorem enclosed_infix_append_open (ht : byte '(' ∉ t) :
    enclosed t <:+: u ++ byte '(' :: v ↔
      enclosed t <:+: u ∨ enclosed t <:+: byte '(' :: v := by
  rw [enclosed_infix_append]
  refine ⟨?_, fun h => h.elim .inl fun h => .inr (.inl h)⟩
  rintro (h | h | ⟨u', v', rfl, -, hfront⟩)
  · exact .inl h
  · exact .inr h
  · cases v' with
    | nil => exact absurd (List.cons_prefix_cons.1 hfront).1 (by decide)
    | cons b v' =>
      obtain ⟨rfl, -⟩ := List.cons_prefix_cons.1 hfront
      simp at ht

theorem not_enclosed_infix_empty (ht : t ≠ []) : ¬ enclosed t <:+: "()" := by
  intro h
  have hlength := h.length_le
  have hpos := List.length_pos_iff.2 ht
  have htwo : ("()" : Text).length = 2 := rfl
  rw [htwo, enclosed, List.length_cons, List.length_append, List.length_singleton] at hlength
  omega

end Text

/-! ## Expressions -/

namespace BinaryExpr
variable (x : BinaryExpr)

theorem text_ne_nil : x.text ≠ [] := by
  intro h
  have hleft : x.left = [] := (List.append_eq_nil_iff.1 h).1
  have hident := x.left_ident
  rw [hleft] at hident
  cases hident

theorem not_mem_text {b : UInt8} (hident : isIdentByte b = false) (hblank : b ≠ byte ' ')
    (hop : ∀ op : BinaryOp, b ∉ op.text) : b ∉ x.text := by
  simp [text, List.mem_append, List.mem_replicate, hblank, hop x.op,
    not_mem_of_isIdent hident x.left_ident, not_mem_of_isIdent hident x.right_ident]

theorem open_not_mem_text : byte '(' ∉ x.text :=
  x.not_mem_text rfl (by decide) fun op => by cases op <;> decide

theorem any_operatorBytes_ident {w : Text} (hw : isIdent w = true) :
    w.any Candidate.operatorBytes.contains = false := by
  have hbytes : ∀ b ∈ Candidate.operatorBytes, (!isIdentByte b) = true := List.all_eq_true.1 rfl
  rw [List.any_eq_false]
  intro b hb hmem
  have hident : isIdentByte b = false := by simpa using hbytes b (List.contains_iff_mem.1 hmem)
  exact not_mem_of_isIdent hident hw hb

theorem any_operatorBytes_op (op : BinaryOp) :
    op.text.any Candidate.operatorBytes.contains = true ↔
      op ∈ [.sub, .mul, .bitAnd, .ne, .and] := by
  cases op <;> decide

theorem any_operatorBytes_blanks (n : Nat) :
    (List.replicate n (byte ' ')).any Candidate.operatorBytes.contains = true ↔ 0 < n := by
  cases n with
  | zero => decide
  | succ n => exact ⟨fun _ => Nat.succ_pos n, fun _ => rfl⟩

theorem any_operatorBytes_iff :
    x.text.any Candidate.operatorBytes.contains = true ↔ x.Seen := by
  simp only [text, List.any_append, Bool.or_eq_true, any_operatorBytes_ident x.left_ident,
    any_operatorBytes_ident x.right_ident, any_operatorBytes_blanks, any_operatorBytes_op,
    Bool.false_eq_true, false_or, or_false, Seen]
  exact or_congr_right or_comm

end BinaryExpr

/-! ## Replacements -/

namespace Candidate
variable {x : BinaryExpr}

theorem asReceiver_of_seen (h : x.Seen) : asReceiver x.text = enclosed x.text := by
  rw [asReceiver, x.any_operatorBytes_iff.2 h, Bool.not_true, Bool.and_false]
  rfl

theorem asReceiver_of_not_seen (h : ¬ x.Seen) : asReceiver x.text = x.text := by
  have hbytes : x.text.any operatorBytes.contains = false := by
    rw [Bool.eq_false_iff]
    exact mt x.any_operatorBytes_iff.1 h
  have hempty : x.text.isEmpty = false := by simpa using x.text_ne_nil
  rw [asReceiver, hbytes, hempty]
  rfl

/-- What stands behind a receiver has parentheses around the expression only if the receiver has
them. -/
theorem enclosed_infix_asReceiver (v : Text) : enclosed x.text <:+: asReceiver x.text ++ v ↔
    x.Seen ∨ enclosed x.text <:+: v := by
  by_cases h : x.Seen
  · rw [asReceiver_of_seen h]
    exact iff_of_true List.infix_append_left (.inl h)
  · rw [asReceiver_of_not_seen h, enclosed_infix_append_left x.open_not_mem_text]
    exact ⟨.inr, fun hor => hor.resolve_left h⟩

/-- The replacement puts something in front of the expression or behind it. -/
def Operates : Candidate → Prop
  | asCast _ | convertVia .. | convertAndUnpackVia .. | toImmutableStr | toMutableStr => True
  | derefRefBridge _ p => 0 < p.derefs ∨ p.refs ≠ []
  | changeRefToMutable | changeReturnType .. | changeLetType .. => False

/-- The replacement has the expression in parentheses: as the argument of a call, or as a receiver
whose operator is seen. -/
def Encloses (x : BinaryExpr) : Candidate → Prop
  | asCast _ | toImmutableStr | toMutableStr => x.Seen
  | convertVia via _ _ | convertAndUnpackVia via _ _ =>
    via = .fromValue ∨ via = .tryFrom ∨ x.Seen
  | derefRefBridge .. | changeRefToMutable | changeReturnType .. | changeLetType .. => False

/-- The type that a conversion writes behind the expression. -/
def typeBehindCall (via : ConversionTrait) (t : Ty) : Text :=
  match via with
  | .fromStr => t.text
  | _ => []

/-- The type that is written behind the expression. -/
def typeBehind : Candidate → Text
  | asCast t => t.text
  | convertVia via t _ | convertAndUnpackVia via t _ => typeBehindCall via t
  | _ => []

section
variable {v : Text}

/-- The parentheses of a call without arguments enclose nothing, and no more do those of a call on
its result. -/
theorem not_enclosed_infix_calls (hv : v = [] ∨ v = ".unwrap()") :
    ¬ enclosed x.text <:+: "()" ++ v := by
  have hempty := not_enclosed_infix_empty x.text_ne_nil
  rcases hv with rfl | rfl
  · exact hempty
  · have hsplit : ("()" : Text) ++ ".unwrap()" = ("()" ++ ".unwrap") ++ byte '(' :: ")" := rfl
    rw [hsplit, enclosed_infix_append_open x.open_not_mem_text,
      enclosed_infix_append_right (by decide)]
    exact not_or_intro hempty hempty

/-- The argument of a call is in parentheses. -/
theorem enclosed_infix_argument (q f : Text) :
    enclosed x.text <:+: Text.join [q, f ++ "(", x.text, ")"] ++ v := by
  refine ⟨q ++ f, v, ?_⟩
  simp only [Text.join, enclosed, List.flatten_cons, List.flatten_nil, List.append_nil,
    List.append_assoc, List.cons_append]
  rfl

/-- The other conversions are calls of methods without arguments. -/
theorem exists_method {via : ConversionTrait} (h : via ∉ [.fromValue, .tryFrom, .fromStr])
    (t : Ty) (text : Text) : typeBehindCall via t = [] ∧
      ∃ m, byte '(' ∉ m ∧ call via t text = asReceiver text ++ (m ++ "()") := by
  cases via with
  | fromValue | tryFrom | fromStr => simp at h
  | toOwned => exact ⟨rfl, ".to_owned", by decide, rfl⟩
  | toText => exact ⟨rfl, ".to_string", by decide, rfl⟩
  | borrow => exact ⟨rfl, ".borrow", by decide, rfl⟩
  | borrowMut => exact ⟨rfl, ".borrow_mut", by decide, rfl⟩
  | asRef => exact ⟨rfl, ".as_ref", by decide, rfl⟩
  | asMut => exact ⟨rfl, ".as_mut", by decide, rfl⟩

theorem enclosed_infix_method {m : Text} (hm : byte '(' ∉ m) (hv : v = [] ∨ v = ".unwrap()") :
    enclosed x.text <:+: (asReceiver x.text ++ (m ++ "()")) ++ v ↔ x.Seen := by
  rw [List.append_assoc, List.append_assoc, enclosed_infix_asReceiver,
    enclosed_infix_append_left hm]
  exact or_iff_left (not_enclosed_infix_calls hv)

theorem enclosed_infix_unit_method {m : Text} (hm : byte '(' ∉ m) :
    enclosed x.text <:+: asReceiver x.text ++ (m ++ "()") ↔
      x.Seen ∨ enclosed x.text <:+: [] := by
  have h := enclosed_infix_method (x := x) hm (.inl rfl)
  rw [List.append_nil] at h
  exact h.trans (or_iff_left not_enclosed_infix_nil).symm

theorem enclosed_infix_parse (t : Text) (hv : v = [] ∨ v = ".unwrap()") :
    enclosed x.text <:+: Text.join [asReceiver x.text, ".parse::<", t, ">()"] ++ v ↔
      x.Seen ∨ enclosed x.text <:+: t := by
  have hsplit : Text.join [asReceiver x.text, ".parse::<", t, ">()"] ++ v =
      asReceiver x.text ++ (".parse::<" ++ ((t ++ ">") ++ byte '(' :: (")" ++ v))) := by
    simp only [Text.join, List.flatten_cons, List.flatten_nil, List.append_nil, List.append_assoc]
    rfl
  rw [hsplit, enclosed_infix_asReceiver, enclosed_infix_append_left (by decide),
    enclosed_infix_append_open x.open_not_mem_text, enclosed_infix_append_right (by decide)]
  exact or_congr_right (or_iff_left (not_enclosed_infix_calls hv))

theorem enclosed_infix_call (via : ConversionTrait) (t : Ty) (hv : v = [] ∨ v = ".unwrap()") :
    enclosed x.text <:+: call via t x.text ++ v ↔
      (via = .fromValue ∨ via = .tryFrom ∨ x.Seen) ∨ enclosed x.text <:+: typeBehindCall via t := by
  by_cases hvia : via ∈ [.fromValue, .tryFrom, .fromStr]
  · simp only [List.mem_cons, List.not_mem_nil, or_false] at hvia
    rcases hvia with rfl | rfl | rfl
    · exact iff_of_true (enclosed_infix_argument _ "from") (.inl (.inl rfl))
    · exact iff_of_true (enclosed_infix_argument _ "try_from") (.inl (.inr (.inl rfl)))
    · have h := enclosed_infix_parse (x := x) t.text hv
      simpa [call, typeBehindCall] using h
  · obtain ⟨hbehind, m, hm, hcall⟩ := exists_method hvia t x.text
    simp only [List.mem_cons, not_or] at hvia
    rw [hcall, enclosed_infix_method hm hv, hbehind, or_iff_left not_enclosed_infix_nil,
      or_iff_right hvia.1, or_iff_right hvia.2.1]

theorem enclosed_infix_call_self (via : ConversionTrait) (t : Ty) :
    enclosed x.text <:+: call via t x.text ↔
      (via = .fromValue ∨ via = .tryFrom ∨ x.Seen) ∨ enclosed x.text <:+: typeBehindCall via t := by
  have h := enclosed_infix_call (x := x) via t (.inl rfl)
  rwa [List.append_nil] at h

end

/-- Dereferences and borrows bring no parentheses. -/
theorem not_enclosed_infix_render (p : DerefPath) : ¬ enclosed x.text <:+: p.render x.text := by
  intro h
  have hopen := h.subset open_mem_enclosed
  rw [DerefPath.render, List.mem_append, List.mem_append, List.mem_flatMap] at hopen
  rcases hopen with (⟨m, -, hm⟩ | hstar) | htext
  · cases m <;> revert hm <;> decide
  · exact absurd (List.eq_of_mem_replicate hstar) (by decide)
  · exact x.open_not_mem_text htext

/-- Every replacement that puts something before or behind an expression of two operands has the
expression in parentheses exactly if it is the argument of `from` or `try_from`, or the receiver of
a cast or of a method with an operator that is seen, unless the type that is written behind it
happens to spell the same. -/
theorem enclosed_edit_iff (c : Candidate) (x : BinaryExpr) (hc : c.Operates) :
    ∃ e, c.edit? x.text = some e ∧
      (enclosed x.text <:+: e ↔ c.Encloses x ∨ enclosed x.text <:+: c.typeBehind) := by
  cases c with
  | asCast t =>
    refine ⟨_, rfl, ?_⟩
    have hsplit : Text.join [asReceiver x.text, " as ", t.text] =
        asReceiver x.text ++ (" as " ++ t.text) := by simp [Text.join]
    rw [hsplit, enclosed_infix_asReceiver, enclosed_infix_append_left (by decide)]
    rfl
  | convertVia via t e =>
    refine ⟨_, rfl, ?_⟩
    split
    · exact enclosed_infix_call via t (.inr rfl)
    · exact enclosed_infix_call_self via t
  | convertAndUnpackVia via t e => exact ⟨_, rfl, enclosed_infix_call_self via t⟩
  | toImmutableStr => exact ⟨_, rfl, enclosed_infix_unit_method (m := ".as_str") (by decide)⟩
  | toMutableStr => exact ⟨_, rfl, enclosed_infix_unit_method (m := ".as_mut_str") (by decide)⟩
  | derefRefBridge t p =>
    exact ⟨_, rfl, iff_of_false (not_enclosed_infix_render p)
      (not_or_intro not_false not_enclosed_infix_nil)⟩
  | changeRefToMutable | changeReturnType | changeLetType => exact hc.elim

theorem enclosed_edit_difference : (convertVia .fromStr (.num .u8) .missing).Operates ∧
    ∃ e, (convertVia .fromStr (.num .u8) .missing).edit? "a-b" = some e ∧
      enclosed "a-b" <:+: e := by
  obtain ⟨e, hedit, hiff⟩ := enclosed_edit_iff (convertVia .fromStr (.num .u8) .missing)
    ⟨"a", .sub, "b", 0, 0, rfl, rfl⟩ trivial
  have hseen : BinaryExpr.Seen ⟨"a", .sub, "b", 0, 0, rfl, rfl⟩ := .inr (.inr (by decide))
  exact ⟨trivial, e, hedit, hiff.2 (.inl (.inr (.inr hseen)))⟩

/-- A cast of a sum without blanks binds to its second operand only, and a borrow of a sum binds to
the first one. -/
theorem not_enclosed_edit_sum :
    (asCast (.num .u8)).Operates ∧
    (derefRefBridge (.shared (.num .i32)) ⟨0, [.immutable]⟩).Operates ∧
    BinaryExpr.text ⟨"a", .add, "b", 0, 0, rfl, rfl⟩ = "a+b" ∧
    (asCast (.num .u8)).edit? "a+b" = some "a+b as u8" ∧ ¬ enclosed "a+b" <:+: "a+b as u8" ∧
    BinaryExpr.text ⟨"a", .add, "b", 1, 1, rfl, rfl⟩ = "a + b" ∧
    (derefRefBridge (.shared (.num .i32)) ⟨0, [.immutable]⟩).edit? "a + b" = some "&a + b" ∧
    ¬ enclosed "a + b" <:+: "&a + b" := by
  have hcast : byte '(' ∉ ("a+b as u8" : Text) := by decide
  have hborrow : byte '(' ∉ ("&a + b" : Text) := by decide
  exact ⟨trivial, .inr (List.cons_ne_nil _ _),
    rfl, rfl, fun h => hcast (h.subset open_mem_enclosed),
    rfl, rfl, fun h => hborrow (h.subset open_mem_enclosed)⟩

end Candidate
end Mismatch
