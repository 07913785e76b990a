import Mismatch.Fixes
import Mismatch.Proofs.Session

/-!
# Conversions come in order

Candidates are told apart by their kinds. The conversions of an expression are asked for one after
the other, and some of them only where others do not apply or where the expected type has a certain
form. So their kinds are part of one of a few lists (`Kind.line`), one for each conversion that
makes the expected type and each form of that type. That they are in order and which of them exclude
each other is read off these lists (`Kind.inOrder_line`). None of this depends on what the queries
answer.
-/

namespace Mismatch

namespace Candidate

/-- A candidate but for its types: its form and the trait it goes through. -/
inductive Kind where
  | cast
  | via (trait : ConversionTrait)
  | unpack (trait : ConversionTrait)
  | refToMutable | asStr | asMutStr | bridge | changeReturn | changeLet
deriving DecidableEq

def kind : Candidate → Kind
  | asCast _ => .cast
  | convertVia via .. => .via via
  | convertAndUnpackVia via .. => .unpack via
  | changeRefToMutable => .refToMutable
  | toImmutableStr => .asStr
  | toMutableStr => .asMutStr
  | derefRefBridge .. => .bridge
  | changeReturnType .. => .changeReturn
  | changeLetType .. => .changeLet

namespace Kind

/-- All conversions but the cast, in their order. -/
def order : List Kind :=
  [.via .fromValue, .via .tryFrom, .via .fromStr, .via .toOwned, .via .toText, .via .borrow,
    .via .asRef, .refToMutable, .via .borrowMut, .via .asMut, .unpack .tryFrom, .unpack .fromStr,
    .asStr, .asMutStr, .bridge]

/-- The conversions that are asked for because a reference is expected. -/
def borrowing : Mutability → List Kind
  | .immutable => [.via .borrow, .via .asRef]
  | .mutable => [.refToMutable, .via .borrowMut, .via .asMut]

def references : List Kind := borrowing .immutable ++ borrowing .mutable

/-- The conversions that are asked for because a result is expected. -/
def unpacking : List Kind := [.unpack .tryFrom] ++ [.unpack .fromStr]

/-- The conversion that views an owned string as a slice. -/
def slicing : Mutability → Kind
  | .immutable => .asStr
  | .mutable => .asMutStr

/-- All conversions that are particular to references of one mutability. -/
def giving (m : Mutability) : List Kind := borrowing m ++ [slicing m]

/-- The kinds are those of conversions that may be offered together, in their order. -/
structure InOrder (ks : List Kind) : Prop where
  known : ∀ k ∈ ks, k ∈ order
  increasing : ks.Pairwise fun k l => order.idxOf k < order.idxOf l
  made_once : .via .fromValue ∈ ks → .via .tryFrom ∉ ks
  text_alone : .via .toText ∈ ks → ∀ k ∈ ks, k ∉ references ∧ k ∉ unpacking
  no_result : ∀ k ∈ ks, k ∈ references → ∀ l ∈ ks, l ∉ unpacking
  one_mutability : ∀ k ∈ ks, k ∈ giving .immutable → ∀ l ∈ ks, l ∉ giving .mutable

theorem InOrder.sublist {ks ls : List Kind} (h : InOrder ls) (hs : ks.Sublist ls) : InOrder ks where
  known k hk := h.known k (hs.mem hk)
  increasing := h.increasing.sublist hs
  made_once hk hl := h.made_once (hs.mem hk) (hs.mem hl)
  text_alone hk l hl := h.text_alone (hs.mem hk) l (hs.mem hl)
  no_result k hk hr l hl := h.no_result k (hs.mem hk) hr l (hs.mem hl)
  one_mutability k hk hr l hl := h.one_mutability k (hs.mem hk) hr l (hs.mem hl)

instance (ks : List Kind) : Decidable (InOrder ks) :=
  decidable_of_iff
    ((∀ k ∈ ks, k ∈ order) ∧ (ks.Pairwise fun k l => order.idxOf k < order.idxOf l) ∧
      (.via .fromValue ∈ ks → .via .tryFrom ∉ ks) ∧
      (.via .toText ∈ ks → ∀ k ∈ ks, k ∉ references ∧ k ∉ unpacking) ∧
      (∀ k ∈ ks, k ∈ references → ∀ l ∈ ks, l ∉ unpacking) ∧
      ∀ k ∈ ks, k ∈ giving .immutable → ∀ l ∈ ks, l ∉ giving .mutable)
    ⟨fun ⟨h₁, h₂, h₃, h₄, h₅, h₆⟩ => ⟨h₁, h₂, h₃, h₄, h₅, h₆⟩,
      fun ⟨h₁, h₂, h₃, h₄, h₅, h₆⟩ => ⟨h₁, h₂, h₃, h₄, h₅, h₆⟩⟩

/-- The conversions that make the expected type, of which there is one at most. -/
def making : List Kind := [.via .fromValue, .via .tryFrom]

/-- The conversions that may be asked for together because of the form of the expected type. -/
def forms : List (List Kind) := [[.via .toText], giving .immutable, giving .mutable, unpacking]

/-- All that may be offered together. -/
def line (made : Kind) (form : List Kind) : List Kind :=
  [made] ++ [.via .fromStr] ++ [.via .toOwned] ++ form ++ [.bridge]

theorem inOrder_line : ∀ made ∈ making, ∀ form ∈ forms, InOrder (line made form) := by decide

end Kind
end Candidate

/-! ## Kinds of answers -/

/-- The answers of the query satisfy `R`, whatever the memory. -/
abbrev Query.Always {α : Type} (q : Query α) (R : α → Prop) : Prop :=
  Query.Keeps (fun _ => True) q R

theorem Query.always_true {α : Type} (q : Query α) : q.Always fun _ => True :=
  fun _ _ _ _ _ => ⟨trivial, trivial⟩

namespace Conversion

open Candidate Query

variable {S : Solver} {expected actual : Ty} {e : Expr}

theorem kinds_offer (b : Bool) (c : Candidate) : ((offer b c).map kind).Sublist [c.kind] := by
  cases b with
  | false => exact List.nil_sublist _
  | true => exact .refl _

theorem kinds_makers : (makers S expected actual).Always fun cs =>
    ∃ made ∈ Kind.making, (cs.map kind).Sublist [made] := by
  refine (always_true _).bind fun b _ => ?_
  cases b with
  | true => exact .pure ⟨.via .fromValue, by decide, .refl _⟩
  | false =>
    refine (always_true _).bind fun r _ => ?_
    cases r with
    | none => exact .pure ⟨.via .tryFrom, by decide, List.nil_sublist _⟩
    | some e => exact .pure ⟨.via .tryFrom, by decide, .refl _⟩

theorem kinds_parsers : (parsers S expected actual).Always fun cs =>
    (cs.map kind).Sublist [.via .fromStr] := by
  refine (always_true _).bind fun r _ => ?_
  cases r with
  | none => exact .pure (List.nil_sublist _)
  | some e => exact .pure (.refl _)

theorem kinds_toReference (m : Mutability) (inner : Ty) :
    (toReference S expected m inner actual e).Always fun cs =>
      (cs.map kind).Sublist (Kind.borrowing m) := by
  cases m with
  | immutable =>
    refine (always_true _).bind fun b _ => (always_true _).bind fun b' _ => .pure ?_
    rw [List.map_append]
    exact (kinds_offer b _).append (kinds_offer b' _)
  | mutable =>
    have hchange := (kinds_offer actual.isSharedRef .changeRefToMutable).trans
      (List.sublist_append_left _ [.via .borrowMut, .via .asMut])
    simp only [toReference]
    split
    · exact .pure hchange
    · refine (always_true _).bind fun chain _ => ?_
      split
      · exact .pure hchange
      · refine (always_true _).bind fun b _ => (always_true _).bind fun b' _ => .pure ?_
        rw [List.map_append, List.map_append]
        exact ((kinds_offer _ _).append (kinds_offer b _)).append (kinds_offer b' _)

theorem kinds_toResult (ok err : Ty) : (toResult S ok err actual).Always fun cs =>
    (cs.map kind).Sublist Kind.unpacking := by
  refine (always_true _).bind fun r _ => (always_true _).bind fun r' _ => .pure ?_
  rw [List.map_append, Kind.unpacking]
  refine List.Sublist.append ?_ ?_
  · cases r with
    | none => exact List.nil_sublist _
    | some e => exact kinds_offer _ _
  · cases r' with
    | none => exact List.nil_sublist _
    | some e => exact kinds_offer _ _

/-- A slice is only offered where a reference is expected. -/
theorem asSlice_eq_nil (h : ∀ m inner, expected ≠ .ref m inner) :
    asSlice S expected actual = [] := by
  unfold asSlice
  split
  · rfl
  · split
    · split
      · exact absurd rfl (h _ _)
      · exact absurd rfl (h _ _)
      · rfl
    · rfl

theorem kinds_asSlice (m : Mutability) (inner : Ty) :
    ((asSlice S (.ref m inner) actual).map kind).Sublist [Kind.slicing m] := by
  unfold asSlice
  split
  · exact List.nil_sublist _
  · split
    · split
      · obtain ⟨rfl, -⟩ := Ty.ref.inj ‹Ty.ref m inner = _›
        exact .refl _
      · obtain ⟨rfl, -⟩ := Ty.ref.inj ‹Ty.ref m inner = _›
        exact .refl _
      · exact List.nil_sublist _
    · exact List.nil_sublist _

/-- Whether the conversion to an owned string is offered, and what comes after. -/
theorem always_asString {α : Type} {R : α → Prop} {k : Bool → Query α}
    (hk : ∀ b, (b = true → ∀ m inner, expected ≠ .ref m inner) → (k b).Always R) :
    Query.Always
      (if (match S.table.known.stringTy? with
          | some string => expected.equiv string
          | none => false) then do
        if ← reaches S S.table.known.toStringTrait actual [] then pure true >>= k
        else pure actual.isNumericLike >>= k
      else pure false >>= k) R := by
  cases hs : S.table.known.stringTy? with
  | none => exact hk false fun h => nomatch h
  | some string =>
    dsimp only
    split
    · have hno : ∀ m inner, expected ≠ .ref m inner := by
        rintro m inner rfl
        obtain ⟨i, -, rfl⟩ := Option.map_eq_some_iff.1 hs
        nomatch ‹(Ty.ref m inner).equiv (.adt i []) = true›
      refine (always_true _).bind fun b _ => ?_
      cases b with
      | true => exact hk true fun _ => hno
      | false => exact hk _ fun _ => hno
    · exact hk false fun h => nomatch h

/-- What depends on the form of the expected type: one form excludes the others. -/
theorem kinds_byForm : (byForm S expected actual e).Always fun cs =>
    ∃ form ∈ Kind.forms, ((cs ++ asSlice S expected actual).map kind).Sublist form := by
  unfold byForm
  dsimp only
  refine always_asString fun b hb => ?_
  cases b with
  | true =>
    -- An owned string is expected, which is no reference.
    rw [asSlice_eq_nil (hb rfl)]
    exact .pure ⟨[.via .toText], by decide, .refl _⟩
  | false =>
    have hnone : (pure [] : Query (List Candidate)).Always fun cs =>
        ∃ form ∈ Kind.forms, (cs.map kind).Sublist form :=
      .pure ⟨Kind.unpacking, by decide, List.nil_sublist _⟩
    simp only [Bool.false_eq_true, if_false]
    cases expected with
    | ref m inner =>
      refine (kinds_toReference m inner).mono fun cs hcs => ⟨Kind.giving m, ?_, ?_⟩
      · cases m <;> decide
      · rw [List.map_append]
        exact hcs.append (kinds_asSlice m inner)
    | adt item args =>
      have hno : ∀ m inner, Ty.adt item args ≠ .ref m inner := fun _ _ h => nomatch h
      simp only [asSlice_eq_nil hno, List.append_nil]
      split
      · contradiction
      · split
        · exact (kinds_toResult _ _).mono fun cs hcs => ⟨Kind.unpacking, by decide, hcs⟩
        · exact hnone
      · exact hnone
    | _ =>
      rw [asSlice_eq_nil fun m inner => by simp]
      simpa only [List.append_nil] using hnone

theorem kinds_bridge : (bridge S expected actual e).Always fun cs =>
    (cs.map kind).Sublist [.bridge] := by
  refine (always_true _).bind fun r _ => ?_
  cases r with
  | none => exact .pure (List.nil_sublist _)
  | some p => exact .pure (.refl _)

/-- Between numeric types a cast is the only conversion. -/
theorem always_cast (h : (expected.isNumeric && actual.isNumericLike) = true) :
    (candidates S expected actual e).Always (· = [.asCast expected]) := by
  unfold candidates
  rw [h]
  exact .report (.pure rfl)

/-- Between other types the conversions are in order. -/
theorem kinds_candidates (h : (expected.isNumeric && actual.isNumericLike) = false) :
    (candidates S expected actual e).Always fun cs => Kind.InOrder (cs.map kind) := by
  unfold candidates
  rw [h]
  refine kinds_makers.bind fun made ⟨k, hk, hmade⟩ => ?_
  refine kinds_parsers.bind fun parsed hparsed => ?_
  refine (always_true _).bind fun b _ => ?_
  refine kinds_byForm.bind fun formed ⟨form, hform, hformed⟩ => ?_
  refine kinds_bridge.bind fun bridged hbridged => .report (.pure ?_)
  refine (Kind.inOrder_line k hk form hform).sublist ?_
  have hall := (((hmade.append hparsed).append (kinds_offer b
    (.convertVia .toOwned expected .missing))).append hformed).append hbridged
  simpa only [List.map_append, List.append_assoc, Kind.line, kind] using hall

end Conversion

/-! ## Fixes -/

namespace Fixes

open Candidate Query

variable {S : Solver} {expected actual : Ty} {e : Expr}

theorem kinds_changeReturn : ((changeReturn actual e).map kind).Sublist [.changeReturn] := by
  unfold changeReturn
  cases e.returnSite with
  | none => exact List.nil_sublist _
  | some site =>
    dsimp only
    split
    · exact List.nil_sublist _
    · exact .refl _

theorem kinds_changeLet : ((changeLet actual e).map kind).Sublist [.changeLet] := by
  unfold changeLet
  cases e.letBinding with
  | none => exact List.nil_sublist _
  | some name => exact .refl _

theorem kinds_changes : ((if actual.containsUnknownOrAnon then []
    else changeReturn actual e ++ changeLet actual e).map kind).Sublist
      [.changeReturn, .changeLet] := by
  split
  · exact List.nil_sublist _
  · rw [List.map_append]
    exact kinds_changeReturn.append kinds_changeLet

/-- What the lists of the conversions and of the changes of signatures are like. -/
structure Arranged (expected actual : Ty) (e : Expr) (conversions changes : List Candidate) :
    Prop where
  of_no_expression : e.isExpression = false → conversions = []
  of_numeric : e.isExpression = true → expected.isNumeric = true → actual.isNumericLike = true →
    conversions = [.asCast expected]
  of_others : e.isExpression = true → (expected.isNumeric = true → actual.isNumericLike = false) →
    Kind.InOrder (conversions.map kind)
  of_changes : (changes.map kind).Sublist [.changeReturn, .changeLet]

theorem always_arranged : (candidates S expected actual e).Always fun cs =>
    ∃ conversions changes, cs = conversions ++ changes ∧
      Arranged expected actual e conversions changes := by
  rw [candidates]
  cases he : e.isExpression with
  | false =>
    have hno : e.isExpression ≠ true := by simp [he]
    refine .report (.pure ⟨[], _, rfl, fun _ => rfl, ?_, ?_, kinds_changes⟩)
    · exact fun h => absurd h hno
    · exact fun h => absurd h hno
  | true =>
    have hno : e.isExpression ≠ false := by simp [he]
    cases hn : expected.isNumeric && actual.isNumericLike with
    | true =>
      obtain ⟨hexp, hact⟩ := Bool.and_eq_true_iff.1 hn
      refine (Conversion.always_cast hn).bind fun conversions hcast => .report (.pure ?_)
      refine ⟨conversions, _, rfl, fun h => absurd h hno, fun _ _ _ => hcast, ?_, kinds_changes⟩
      intro _ hother
      rw [hother hexp] at hact
      cases hact
    | false =>
      refine (Conversion.kinds_candidates hn).bind fun conversions horder => .report (.pure ?_)
      refine ⟨conversions, _, rfl, fun h => absurd h hno, ?_, fun _ _ => horder, kinds_changes⟩
      intro _ hexp hact
      rw [hexp, hact] at hn
      cases hn

/-- The fixes are the conversions and then the changes of signatures, of the return type before that
of the binding. Without an expression there are no conversions. Between numeric types a cast is the
only one, and between others there is no cast and the conversions are in order. -/
theorem candidates_arranged {m m' : Memo} {cs : List Candidate}
    (hr : (candidates S expected actual e).run m = some (cs, m')) :
    ∃ conversions changes, cs = conversions ++ changes ∧
      Arranged expected actual e conversions changes :=
  (always_arranged trivial hr).2

/-- The content of a box is boxed, or the signatures around it take its type. -/
theorem candidates_arranged_box : ∃ cs m',
    (candidates Sample.solver (Sample.box .bool) .bool
      ⟨[120], true, false, some [121], some ⟨[102], .missing⟩⟩).run ⟨[], []⟩ = some (cs, m') ∧
    cs.map kind = [.via .fromValue, .changeReturn, .changeLet] ∧
    ∃ conversions changes, cs = conversions ++ changes ∧
      Arranged (Sample.box .bool) .bool
        ⟨[120], true, false, some [121], some ⟨[102], .missing⟩⟩ conversions changes := by
  have hkinds : ((candidates Sample.solver (Sample.box .bool) .bool
      ⟨[120], true, false, some [121], some ⟨[102], .missing⟩⟩).run ⟨[], []⟩).map
        (·.1.map kind) = some [.via .fromValue, .changeReturn, .changeLet] := by decide +kernel
  obtain ⟨⟨cs, m'⟩, hr, hcs⟩ := Option.map_eq_some_iff.1 hkinds
  exact ⟨cs, m', hr, hcs, candidates_arranged hr⟩

end Fixes
end Mismatch
