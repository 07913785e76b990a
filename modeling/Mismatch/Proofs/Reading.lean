import Mismatch.Ty.Cursor
import Mathlib.Algebra.BigOperators.Group.List.Basic
import Mathlib.Data.List.DropRight

/-!
# What a reader makes of a token

`c.At u n` says where a reader stands: before `u`, white space aside, with `n` as the number of the
next inference variable. From there an operation of the cursor takes the token that `u` starts with,
and what is left behind the token is `c.Left`: white space counts there, because the next operation
passes over it. A path ends where neither an identifier nor a further `::` can go on
(`Text.endsPath`).
-/

namespace Mismatch

namespace Text

/-- A letter or an underscore, then letters, digits and underscores. -/
def isIdent : Text → Bool
  | [] => false
  | b :: t => isIdentStart b && t.all isIdentByte

/-- A path cannot go on here. -/
def endsPath : Text → Bool
  | [] => true
  | b :: _ => !isIdentByte b && !isSpace b && b != byte ':'

/-- Identifiers joined by `::`, the first of which is not the word `mut`. -/
def IsPath (p : Text) : Prop :=
  ∃ w ws, p = joinWith "::" (w :: ws) ∧ (∀ v ∈ w :: ws, isIdent v = true) ∧ w ≠ "mut"

/-- There is no white space to pass over. -/
def tight (u : Text) : Prop := u.dropWhile isSpace = u

variable {w u : Text} {b : UInt8}

theorem tight_nil : tight [] := rfl

theorem tight_cons (h : isSpace b = false) : tight (b :: u) := by
  simp [tight, h]

theorem isIdentByte_of_isIdentStart (h : isIdentStart b = true) : isIdentByte b = true := by
  simp [isIdentByte, h]

theorem isSpace_of_isIdentByte (h : isIdentByte b = true) : isSpace b = false := by
  simp only [isIdentByte, isIdentStart, isLower, isUpper, isDigit, isSpace, byte, Bool.or_eq_true,
    Bool.and_eq_true, decide_eq_true_eq, beq_iff_eq, Bool.or_eq_false_iff, Bool.and_eq_false_iff,
    decide_eq_false_iff_not, beq_eq_false_iff_ne, UInt8.le_iff_toNat_le, ne_eq,
    ← UInt8.toNat_inj] at h ⊢
  simp at h ⊢
  omega

theorem isIdent_cons : isIdent (b :: u) = true ↔
    isIdentStart b = true ∧ ∀ c ∈ u, isIdentByte c = true := by
  simp [isIdent]

theorem isIdent_bytes (h : isIdent w = true) : ∀ b ∈ w, isIdentByte b = true := by
  cases w with
  | nil => cases h
  | cons b w =>
    obtain ⟨hb, hw⟩ := isIdent_cons.1 h
    intro c hc
    rcases List.mem_cons.1 hc with rfl | hc
    · exact isIdentByte_of_isIdentStart hb
    · exact hw c hc

theorem not_mem_of_isIdent (hb : isIdentByte b = false) (h : isIdent w = true) : b ∉ w := by
  intro hmem
  rw [isIdent_bytes h b hmem] at hb
  cases hb

theorem colon_not_mem_of_isIdent (h : isIdent w = true) : byte ':' ∉ w := not_mem_of_isIdent rfl h

theorem tight_of_isIdent (h : isIdent w = true) : tight (w ++ u) := by
  cases w with
  | nil => cases h
  | cons b w =>
    exact tight_cons (isSpace_of_isIdentByte (isIdentByte_of_isIdentStart (isIdent_cons.1 h).1))

theorem tight_of_endsPath (h : endsPath u = true) : tight u := by
  cases u with
  | nil => exact tight_nil
  | cons b u =>
    simp only [endsPath, Bool.and_eq_true, Bool.not_eq_true'] at h
    exact tight_cons h.1.2

theorem takeWhile_of_endsPath (h : endsPath u = true) : u.takeWhile isIdentByte = [] := by
  cases u with
  | nil => rfl
  | cons b u =>
    simp only [endsPath, Bool.and_eq_true, Bool.not_eq_true'] at h
    simp [h.1.1]

theorem isPath_of_isIdent (hw : isIdent w = true) (hm : w ≠ "mut") : IsPath w :=
  ⟨w, [], rfl, by simpa using hw, hm⟩

/-- The segments joined by `::` are the first and then each of the others with `::` before it. -/
theorem joinWith_cons (sep : Text) (w : Text) : ∀ ws : List Text,
    joinWith sep (w :: ws) = w ++ ws.flatMap (sep ++ ·)
  | [] => by simp [joinWith]
  | v :: ws => by simp [joinWith, joinWith_cons sep v ws]

theorem joinWith_concat {sep w : Text} : ∀ {ws : List Text}, ws ≠ [] →
    joinWith sep (ws ++ [w]) = joinWith sep ws ++ sep ++ w
  | [], h => absurd rfl h
  | [v], _ => rfl
  | v :: x :: ws, _ => by
    have h : joinWith sep (x :: ws ++ [w]) = joinWith sep (x :: ws) ++ sep ++ w :=
      joinWith_concat (List.cons_ne_nil x ws)
    simpa [joinWith] using h

/-- What comes after the last `::` is determined. -/
theorem append_colons_inj {p q v w : Text} (hv : byte ':' ∉ v) (hw : byte ':' ∉ w)
    (e : p ++ "::" ++ v = q ++ "::" ++ w) : p = q ∧ v = w := by
  have hlast : ∀ {p v : Text}, byte ':' ∉ v →
      (p ++ "::" ++ v).reverse.takeWhile (· != byte ':') = v.reverse := fun {p v} hv => by
    rw [List.reverse_append, List.takeWhile_append_of_pos fun b hb => ?_, List.reverse_append]
    · exact List.append_nil _
    · rw [bne_iff_ne]
      rintro rfl
      exact hv (List.mem_reverse.1 hb)
  have hvw : v = w := by
    rw [← List.reverse_inj, ← hlast hv, e, hlast hw]
  subst hvw
  exact ⟨List.append_cancel_right (List.append_cancel_right e), rfl⟩

/-- Behind a segment come either further segments or the end of the path. -/
theorem takeWhile_segments (ws : List Text) (hu : endsPath u = true) :
    (ws.flatMap (("::" : Text) ++ ·) ++ u).takeWhile isIdentByte = [] := by
  cases ws with
  | nil => exact takeWhile_of_endsPath hu
  | cons w ws => rfl

/-! ### How a text starts -/

/-- The text starts with the word `mut`, not merely with a longer identifier. -/
def StartsWithMut (u : Text) : Prop :=
  ∃ v : Text, u = ("mut" : Text) ++ v ∧ v.takeWhile isIdentByte = []

/-- Behind `&` and behind `(` the text is read as a type. -/
structure StartsType (u : Text) : Prop where
  tight : tight u
  notMut : ¬ StartsWithMut u
  notClosing : List.isPrefixOf (")" : Text) u = false
  ne_nil : u ≠ []

theorem startsType_cons (hb : isSpace b = false) (hm : b ≠ byte 'm') (hc : b ≠ byte ')') :
    StartsType (b :: u) := by
  refine ⟨tight_cons hb, ?_, ?_, List.cons_ne_nil b u⟩
  · rintro ⟨v, e, -⟩
    exact hm (List.cons.inj e).1
  · have hbc : (byte ')' == b) = false := beq_eq_false_iff_ne.2 (Ne.symm hc)
    exact congrArg (· && _) hbc

theorem startsType_ident (hw : isIdent w = true) (hm : w ≠ "mut")
    (hu : u.takeWhile isIdentByte = []) : StartsType (w ++ u) := by
  refine ⟨tight_of_isIdent hw, ?_, ?_, ?_⟩
  · rintro ⟨v, e, hv⟩
    have hword : ∀ {x y : Text}, isIdent x = true → y.takeWhile isIdentByte = [] →
        (x ++ y).takeWhile isIdentByte = x := fun hx hy => by
      rw [List.takeWhile_append_of_pos (isIdent_bytes hx), hy, List.append_nil]
    exact hm ((hword hw hu).symm.trans ((congrArg _ e).trans (hword rfl hv)))
  all_goals cases w with
    | nil => cases hw
    | cons b w => ?_
  · have hb := (isIdent_cons.1 hw).1
    have hbc : (byte ')' == b) = false := beq_eq_false_iff_ne.2 fun e => by
      rw [← e] at hb
      cases hb
    exact congrArg (· && _) hbc
  · exact List.cons_ne_nil b _

theorem IsPath.startsType {p : Text} (h : IsPath p) (hu : endsPath u = true) :
    StartsType (p ++ u) := by
  obtain ⟨w, ws, rfl, hws, hm⟩ := h
  rw [joinWith_cons, List.append_assoc]
  exact startsType_ident (hws w List.mem_cons_self) hm (takeWhile_segments ws hu)

theorem IsPath.eq_cons {p : Text} (h : IsPath p) : ∃ b v, p = b :: v ∧ isIdentStart b = true := by
  obtain ⟨w, ws, rfl, hws, -⟩ := h
  cases w with
  | nil => cases hws [] List.mem_cons_self
  | cons b w =>
    exact ⟨b, _, by rw [joinWith_cons, List.cons_append],
      (isIdent_cons.1 (hws _ List.mem_cons_self)).1⟩

end Text

open Text

namespace Cursor
variable {c c' : Cursor} {t u w : Text} {n : UInt32}

/-- What is left to be read and the number of the next inference variable. -/
def Left (c : Cursor) (u : Text) (n : UInt32) : Prop := c.rest = u ∧ c.nextId = n

/-- What is left after white space. -/
def At (c : Cursor) (u : Text) (n : UInt32) : Prop := c.skipSpace.Left u n

theorem skipSpace_rest (c : Cursor) : c.skipSpace.rest = c.rest.dropWhile isSpace := by
  simp only [skipSpace, drop]
  induction c.rest with
  | nil => rfl
  | cons b t ih =>
    cases h : isSpace b with
    | true => simpa [h] using ih
    | false => simp [h]

theorem skipSpace_of_tight (h : tight c.rest) : c.skipSpace = c := by
  have hnil : c.rest.takeWhile isSpace = [] := by
    have hl := congrArg List.length (List.takeWhile_append_dropWhile (p := isSpace) (l := c.rest))
    rw [h, List.length_append] at hl
    exact List.length_eq_zero_iff.1 (by omega)
  simp only [skipSpace, hnil]
  rfl

theorem Left.at (h : c.Left u n) (hu : tight u) : c.At u n := by
  rw [At, skipSpace_of_tight (by rw [h.1]; exact hu)]
  exact h

/-- One blank before what is read next. -/
theorem Left.at_blank (h : c.Left (32 :: u) n) (hu : tight u) : c.At u n :=
  ⟨by rw [skipSpace_rest, h.1]; exact hu, h.2⟩

theorem At.tight (h : c.At u n) : tight u := by
  rw [← h.1, skipSpace_rest, Text.tight, List.dropWhile_idempotent]

theorem At.skip (h : c.At u n) : c.skipSpace.At u n := by
  rw [At, skipSpace_of_tight (by rw [h.1]; exact h.tight)]
  exact h

theorem At.drop (h : c.At (t ++ u) n) : (c.skipSpace.drop t.length).Left u n :=
  ⟨by simp [Cursor.drop, h.1], h.2⟩

theorem At.eat (h : c.At (t ++ u) n) : ∃ c', c.eat t = some c' ∧ c'.Left u n := by
  refine ⟨_, ?_, h.drop⟩
  simp [Cursor.eat, h.1]

theorem At.eat_eq_none (h : c.At u n) (ht : t.isPrefixOf u = false) : c.eat t = none := by
  simp [Cursor.eat, h.1, ht]

/-! ## Paths -/

theorem At.ident (h : c.At (w ++ u) n) (hw : isIdent w = true)
    (hu : u.takeWhile isIdentByte = []) : ∃ c', c.ident = (w, c') ∧ c'.Left u n := by
  cases w with
  | nil => cases hw
  | cons b w =>
    obtain ⟨hb, hw⟩ := isIdent_cons.1 hw
    have htake : (w ++ u).takeWhile isIdentByte = w := by
      rw [List.takeWhile_append_of_pos hw, hu, List.append_nil]
    refine ⟨_, ?_, h.drop⟩
    rw [Cursor.ident]
    simp only [h.1, List.cons_append, hb, if_true, htake]

theorem Left.segments : ∀ {ws : List Text} {bound : Text} {c : Cursor},
    c.Left (ws.flatMap (("::" : Text) ++ ·) ++ u) n → (∀ w ∈ ws, isIdent w = true) →
    endsPath u = true → ws.length ≤ bound.length →
    ∃ c', segments bound c = .ok (ws.flatMap (("::" : Text) ++ ·), c') ∧ c'.Left u n
  | [], [], c, h, _, _, _ => ⟨c, rfl, h⟩
  | [], _ :: bound, c, h, _, hu, _ => by
    refine ⟨c, ?_, h⟩
    have heat : c.eat "::" = none := by
      refine (h.at (tight_of_endsPath hu)).eat_eq_none ?_
      cases u with
      | nil => rfl
      | cons b u =>
        simp only [endsPath, Bool.and_eq_true, bne_iff_ne] at hu
        have hb : (byte ':' == b) = false := beq_eq_false_iff_ne.2 (Ne.symm hu.2)
        exact congrArg (· && _) hb
    simp only [Cursor.segments, heat]
    rfl
  | w :: ws, [], _, _, _, _, hl => nomatch hl
  | w :: ws, _ :: bound, c, h, hws, hu, hl => by
    have hat : c.At (("::" : Text) ++ (w ++ (ws.flatMap (("::" : Text) ++ ·) ++ u))) n := by
      simpa using h.at rfl
    have hw := hws w List.mem_cons_self
    obtain ⟨c₁, he, h₁⟩ := hat.eat
    obtain ⟨c₂, hi, h₂⟩ := (h₁.at (tight_of_isIdent hw)).ident hw (takeWhile_segments ws hu)
    obtain ⟨c₃, hs, h₃⟩ := h₂.segments
      (fun v hv => hws v (List.mem_cons_of_mem w hv)) hu (Nat.le_of_succ_le_succ hl)
    obtain ⟨b, w, rfl⟩ : ∃ b v, w = b :: v := by
      cases w with
      | nil => cases hw
      | cons b v => exact ⟨b, v, rfl⟩
    refine ⟨c₃, ?_, h₃⟩
    simp only [Cursor.segments, he, hi, hs]
    simp [bind, Except.bind, pure, Except.pure]

/-- A path is read as far as it goes. -/
theorem At.path {p : Text} (h : c.At (p ++ u) n) (hp : IsPath p) (hu : endsPath u = true) :
    ∃ c', c.path = .ok (p, c') ∧ c'.Left u n := by
  obtain ⟨w, ws, rfl, hws, -⟩ := hp
  rw [joinWith_cons, List.append_assoc] at h
  obtain ⟨c₁, hi, h₁⟩ := h.ident (hws w List.mem_cons_self) (takeWhile_segments ws hu)
  have hlen : ws.length ≤ c₁.rest.length := by
    rw [h₁.1, List.length_append, List.length_flatMap]
    have hsum : (ws.map fun v => (("::" : Text) ++ v).length).length ≤
        (ws.map fun v => (("::" : Text) ++ v).length).sum :=
      List.length_le_sum_of_one_le _ fun k hk => by
        obtain ⟨v, -, rfl⟩ := List.mem_map.1 hk
        exact Nat.succ_le_succ (Nat.zero_le _)
    rw [List.length_map] at hsum
    omega
  obtain ⟨c₂, hs, h₂⟩ := h₁.segments (fun v hv => hws v (List.mem_cons_of_mem w hv)) hu hlen
  refine ⟨c₂, ?_, h₂⟩
  simp only [Cursor.path, hi, hs, joinWith_cons]
  rfl

/-! ## Other tokens -/

theorem At.mutability_immutable (h : c.At u n) (hu : ¬ StartsWithMut u) :
    c.mutability = (.immutable, c) := by
  have hnone : c.eatWord "mut" = none := by
    cases hp : List.isPrefixOf ("mut" : Text) u with
    | false => simp only [eatWord, h.eat_eq_none hp]
    | true =>
      obtain ⟨v, rfl⟩ := List.isPrefixOf_iff_prefix.1 hp
      obtain ⟨c', he, h'⟩ := h.eat
      simp only [eatWord, he, h'.1]
      cases v with
      | nil => exact absurd ⟨[], rfl, rfl⟩ hu
      | cons b v =>
        cases hb : isIdentByte b with
        | true => simp only [hb, if_true]
        | false => exact absurd ⟨b :: v, rfl, by simp [hb]⟩ hu
  simp only [Cursor.mutability, hnone]

theorem At.mutability_mutable (h : c.At (("mut " : Text) ++ u) n) :
    ∃ c', c.mutability = (.mutable, c') ∧ c'.Left (32 :: u) n := by
  obtain ⟨c', he, h'⟩ := At.eat (t := "mut") (u := 32 :: u) h
  refine ⟨c', ?_, h'⟩
  simp only [Cursor.mutability, eatWord, he, h'.1]
  rfl

theorem At.braced_int (h : c.At (("\x7binteger\x7d" : Text) ++ u) n) :
    ∃ c' : Cursor, c.braced? = some (c'.fresh .int) ∧ c'.Left u n := by
  obtain ⟨c', he, h'⟩ := h.eat
  exact ⟨c', by simp only [braced?, he], h'⟩

theorem At.braced_float (h : c.At (("\x7bfloat\x7d" : Text) ++ u) n) :
    ∃ c' : Cursor, c.braced? = some (c'.fresh .float) ∧ c'.Left u n := by
  obtain ⟨c', he, h'⟩ := h.eat
  exact ⟨c', by simp only [braced?, he, h.eat_eq_none (t := "\x7binteger\x7d") rfl], h'⟩

theorem At.braced_unknown (h : c.At (("\x7bunknown\x7d" : Text) ++ u) n) :
    ∃ c', c.braced? = some (.unknown, c') ∧ c'.Left u n := by
  obtain ⟨c', he, h'⟩ := h.eat
  exact ⟨c', by simp only [braced?, he, h.eat_eq_none (t := "\x7binteger\x7d") rfl,
    h.eat_eq_none (t := "\x7bfloat\x7d") rfl], h'⟩

end Cursor
end Mismatch
