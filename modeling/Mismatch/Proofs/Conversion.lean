import Mismatch.Conversion
import Mismatch.Proofs.DerefPath

/-!
# Conversions are well typed and backed

What a conversion that is offered promises: the type that it gives is the expected one
(`Candidate.Fits`), and the queries that speak for it still do so afterwards
(`ConversionTrait.Backed`, `DerefPath.Rebuilds`). The lemmas follow the order in which the
conversions are asked for, from single queries to all candidates (`Conversion.ensures_candidates`).
-/

namespace Mismatch

open Select

theorem Ty.eq_str_of_isStr {t : Ty} (h : t.isStr = true) : t = .str := by
  cases t with
  | prim k => cases k <;> simp_all [Ty.isStr]
  | _ => cases h

/-! ## What a conversion promises -/

/-- The trait behind a conversion, if it is known. -/
def ConversionTrait.item? (k : KnownItems) : ConversionTrait → Option Item
  | .fromValue => k.fromTrait
  | .tryFrom => k.tryFromTrait
  | .fromStr => k.fromStrTrait
  | .toOwned => k.toOwnedTrait
  | .toText => k.toStringTrait
  | .borrow => k.borrowTrait
  | .borrowMut => k.borrowMutTrait
  | .asRef => k.asRefTrait
  | .asMut => k.asMutTrait

/-- The mutability of the reference that a conversion to a reference gives. -/
def ConversionTrait.refers : ConversionTrait → Option Mutability
  | .borrow | .asRef => some .immutable
  | .borrowMut | .asMut => some .mutable
  | _ => none

section
variable (S : Solver) (l : Memo)

/-- The projection gives a type equivalent to `t`. -/
def Gives (g : Goal) (name : Text) (t : Ty) : Prop :=
  Yields l (fun d => (S.deepen d).project g name) fun r => ∃ u, r = .ok u ∧ u.equiv t = true

/-- The chain of the actual type, or one of its types, has the trait. -/
def Reachable (via : ConversionTrait) (actual : Ty) (args : List Ty) : Prop :=
  ∃ trait, via.item? S.table.known = some trait ∧
    Yields l (fun d => (S.deepen d).canSelectDeref ⟨actual, trait, args⟩) (· = true)

/-- What the queries say that speak for making `target` from the actual type. -/
def ConversionTrait.Backed (actual target error : Ty) : ConversionTrait → Prop
  | .fromValue => ∃ trait, S.table.known.fromTrait = some trait ∧
    Yields l (fun d => (S.deepen d).canSelect ⟨target, trait, [actual]⟩) (· = true)
  | .tryFrom => ∃ trait, S.table.known.tryFromTrait = some trait ∧
    Gives S l ⟨target, trait, [actual]⟩ "Error" error
  | .fromStr =>
    Yields l (fun d => (S.deepen d).coercions actual) (fun chain => chain.getLast? = some .str) ∧
    ∃ trait, S.table.known.fromStrTrait = some trait ∧ Gives S l ⟨target, trait, []⟩ "Err" error
  | .toOwned => ∃ trait, S.table.known.toOwnedTrait = some trait ∧
    ProjectsFirst S l ⟨actual, trait, []⟩ "Owned" target
  | .toText => (∃ string, S.table.known.stringTy? = some string ∧ target.equiv string = true) ∧
    (actual.isNumericLike = true ∨ Reachable S l .toText actual [])
  | .borrow => ∃ inner, target = .ref .immutable inner ∧ Reachable S l .borrow actual [inner]
  | .borrowMut => ∃ inner, target = .ref .mutable inner ∧ Reachable S l .borrowMut actual [inner]
  | .asRef => ∃ inner, target = .ref .immutable inner ∧ Reachable S l .asRef actual [inner]
  | .asMut => ∃ inner, target = .ref .mutable inner ∧ Reachable S l .asMut actual [inner]

/-- A fix gives the expected type, is spoken for by the queries behind it, and changes a signature
only to a type that can be written down. -/
def Candidate.Justified (expected actual : Ty) (c : Candidate) : Prop :=
  match c with
  | asCast t => t.equiv expected = true
  | convertVia via t e => t.equiv expected = true ∧ via.Backed S l actual expected e
  | convertAndUnpackVia via t e =>
    (∃ item, S.table.known.resultType = some item ∧
      (Ty.adt item [t, e]).equiv expected = true) ∧
    (via = .tryFrom ∨ via = .fromStr) ∧ via.Backed S l actual t e
  | changeRefToMutable => actual.isSharedRef = true ∧ ∃ inner, expected = .ref .mutable inner
  | toImmutableStr | toMutableStr => c.target.equiv expected = true
  | derefRefBridge t p => t.equiv expected = true ∧
    Yields l (fun d => (S.deepen d).coercions actual) (p.Rebuilds expected)
  | changeReturnType _ t | changeLetType _ t =>
    t = actual ∧ ∀ u ∈ actual.nodes, u.isUnknownOrAnon = false

end

/-- The types that a conversion may make: the expected one and, if that is a result, the type of its
value. -/
inductive Makes (k : KnownItems) (expected : Ty) : Ty → Prop
  | whole : Makes k expected expected
  | value {item : Item} {ok err : Ty} (known : k.resultType = some item)
      (result : expected = .adt item [ok, err]) : Makes k expected ok

namespace Conversion
variable {S : Solver} {expected actual : Ty}

/-- The queries that are put for the conversions. -/
inductive Puts (S : Solver) (expected actual : Ty) : Ask → Prop
  | chain : Puts S expected actual (.coercions actual)
  | fromValue {trait : Item} (known : S.table.known.fromTrait = some trait) :
      Puts S expected actual (.canSelect ⟨expected, trait, [actual]⟩)
  | tryFrom {trait : Item} {target : Ty} (known : S.table.known.tryFromTrait = some trait)
      (makes : Makes S.table.known expected target) :
      Puts S expected actual (.project ⟨target, trait, [actual]⟩ "Error")
  | fromStr {trait : Item} {target : Ty} (known : S.table.known.fromStrTrait = some trait)
      (makes : Makes S.table.known expected target) :
      Puts S expected actual (.project ⟨target, trait, []⟩ "Err")
  | toOwned {trait : Item} (known : S.table.known.toOwnedTrait = some trait) :
      Puts S expected actual (.projectDeref ⟨actual, trait, []⟩ "Owned")
  | toText {trait : Item} (known : S.table.known.toStringTrait = some trait) :
      Puts S expected actual (.canSelectDeref ⟨actual, trait, []⟩)
  | refer {via : ConversionTrait} {trait : Item} {m : Mutability} {inner : Ty}
      (known : via.item? S.table.known = some trait) (refers : via.refers = some m)
      (expects : expected = .ref m inner) :
      Puts S expected actual (.canSelectDeref ⟨actual, trait, [inner]⟩)

/-! ## Single queries -/

section
variable {given : Cache} {A : Goal → Prop} {l : Memo}

/-- A projection for a known trait, whichever way it goes, is one of the trait. -/
theorem ensures_project {trait? : Option Item} {self : Ty} {args : List Ty} {name : Text}
    {deref : Bool} {R : Goal → Ty → Prop} (h : ∀ trait, trait? = some trait →
      Ensures S given A (if deref then S.projectDeref ⟨self, trait, args⟩ name
        else S.project ⟨self, trait, args⟩ name)
      fun r => ∀ t, r = .ok t → R ⟨self, trait, args⟩ t) :
    Ensures S given A (project S trait? self args name deref) fun r =>
      ∀ t, r = some t → ∃ trait, trait? = some trait ∧ R ⟨self, trait, args⟩ t := by
  cases trait? with
  | none => exact .pure fun t ht => nomatch ht
  | some trait =>
    simp only [project]
    cases S.table.trait? trait with
    | none => exact .pure fun t ht => nomatch ht
    | some d =>
      dsimp only
      split
      · have h := h trait rfl
        cases deref <;> refine h.bind fun r hr => ?_
        all_goals cases r with
        | error x => exact .report (.pure fun t ht => nomatch ht)
        | ok u =>
          refine .pure fun t ht => ?_
          obtain rfl := Option.some.inj ht
          exact ⟨trait, rfl, hr u rfl⟩
      · exact .pure fun t ht => nomatch ht

variable (hA : Faithful A) (hl : Sound S.table given (UpTo A) l.cache)
  (hw : ∀ q, Puts S expected actual q → q.Within S given A)
include hA hl hw

omit hw in
theorem ensures_gives {g : Goal} {name : Text} (hw : (Ask.project g name).Within S given A) :
    Ensures S given A (S.project g name) fun r => ∀ t, r = .ok t → Gives S l g name t := by
  refine (Solver.ensures_project hA hl hw).mono fun r hr t hrt => ?_
  refine hr.mono fun r' e => ?_
  rw [hrt] at e
  cases r' with
  | error x => cases e
  | ok u => exact ⟨u, rfl, (Ty.equiv_iff u t).2 (Except.ok.inj e)⟩

theorem ensures_fromApplies : Ensures S given A (fromApplies S expected actual) fun b =>
    b = true → ConversionTrait.fromValue.Backed S l actual expected .missing := by
  unfold fromApplies
  cases hk : S.table.known.fromTrait with
  | none => exact .pure fun h => nomatch h
  | some trait =>
    refine (Solver.ensures_canSelect hA hl (hw _ (.fromValue hk))).mono fun b hb h => ?_
    exact ⟨trait, hk, h ▸ hb⟩

theorem ensures_tryFromError {target : Ty} (ht : Makes S.table.known expected target) :
    Ensures S given A (tryFromError S target actual) fun r =>
      ∀ e, r = some e → ConversionTrait.tryFrom.Backed S l actual target e := by
  refine ensures_project (R := fun g e => Gives S l g "Error" e) fun trait hk => ?_
  exact ensures_gives hA hl (hw _ (.tryFrom hk ht))

theorem ensures_fromStrError {target : Ty} (ht : Makes S.table.known expected target) :
    Ensures S given A (fromStrError S target actual) fun r =>
      ∀ e, r = some e → ConversionTrait.fromStr.Backed S l actual target e := by
  unfold fromStrError
  refine (Solver.ensures_coercions hA hl (hw _ .chain)).bind fun chain hchain => ?_
  cases hlast : chain.getLast? with
  | none => exact .pure fun e he => nomatch he
  | some last =>
    dsimp only
    split
    · obtain rfl := Ty.eq_str_of_isStr ‹_›
      refine (ensures_project (R := fun g e => Gives S l g "Err" e) fun trait hk =>
        ensures_gives hA hl (hw _ (.fromStr hk ht))).mono fun r hr e he => ?_
      refine ⟨hchain.mono fun c hc => ?_, hr e he⟩
      have hb := congrArg List.getLast? hc
      rw [List.getLast?_map, List.getLast?_map, hlast] at hb
      obtain ⟨u, hu, hb⟩ := Option.map_eq_some_iff.1 hb
      rw [hu, (Ty.bare_eq_str u).1 hb]
    · exact .pure fun e he => nomatch he

theorem ensures_toOwnedMatches : Ensures S given A (toOwnedMatches S expected actual) fun b =>
    b = true → ConversionTrait.toOwned.Backed S l actual expected .missing := by
  unfold toOwnedMatches
  refine (ensures_project
    (R := fun g t => ∀ u : Ty, t.bare = u.bare → ProjectsFirst S l g "Owned" u)
    fun trait hk => ?_).bind fun r hr => ?_
  · exact (Solver.ensures_projectDeref hA hl (hw _ (.toOwned hk))).mono
      fun r hr t ht u e => hr t u ht e
  · cases r with
    | none => exact .pure fun h => nomatch h
    | some owned =>
      refine .pure fun h => ?_
      obtain ⟨trait, hk, howned⟩ := hr owned rfl
      exact ⟨trait, hk, howned expected ((Ty.equiv_iff expected owned).1 h).symm⟩

theorem ensures_reaches (via : ConversionTrait) {args : List Ty}
    (hput : ∀ trait, via.item? S.table.known = some trait →
      Puts S expected actual (.canSelectDeref ⟨actual, trait, args⟩)) :
    Ensures S given A (reaches S (via.item? S.table.known) actual args) fun b =>
      b = true → Reachable S l via actual args := by
  unfold reaches
  cases hk : via.item? S.table.known with
  | none => exact .pure fun h => nomatch h
  | some trait =>
    refine (Solver.ensures_canSelectDeref hA hl (hw _ (hput trait hk))).mono fun b hb h => ?_
    exact ⟨trait, hk, h ▸ hb⟩

/-! ## Groups of conversions -/

omit hA hl hw in
theorem forall_mem_offer {P : Candidate → Prop} {b : Bool} {c : Candidate} (h : b = true → P c) :
    ∀ c' ∈ offer b c, P c' := by
  cases b with
  | false => exact fun c' hc => nomatch hc
  | true => simpa [offer] using h

theorem ensures_makers : Ensures S given A (makers S expected actual) fun cs =>
    ∀ c ∈ cs, c.Justified S l expected actual := by
  unfold makers
  refine (ensures_fromApplies hA hl hw).bind fun b hb => ?_
  cases b with
  | true =>
    refine .pure fun c hc => ?_
    obtain rfl := List.mem_singleton.1 hc
    exact ⟨Ty.equiv_refl expected, hb rfl⟩
  | false =>
    refine (ensures_tryFromError hA hl hw .whole).bind fun r hr => ?_
    cases r with
    | none => exact .pure fun c hc => nomatch hc
    | some e =>
      refine .pure fun c hc => ?_
      obtain rfl := List.mem_singleton.1 hc
      exact ⟨Ty.equiv_refl expected, hr e rfl⟩

theorem ensures_parsers : Ensures S given A (parsers S expected actual) fun cs =>
    ∀ c ∈ cs, c.Justified S l expected actual := by
  unfold parsers
  refine (ensures_fromStrError hA hl hw .whole).bind fun r hr => ?_
  cases r with
  | none => exact .pure fun c hc => nomatch hc
  | some e =>
    refine .pure fun c hc => ?_
    obtain rfl := List.mem_singleton.1 hc
    exact ⟨Ty.equiv_refl expected, hr e rfl⟩

theorem ensures_toReference {m : Mutability} {inner : Ty} {e : Expr}
    (he : expected = .ref m inner) :
    Ensures S given A (toReference S expected m inner actual e) fun cs =>
      ∀ c ∈ cs, c.Justified S l expected actual := by
  have hreach : ∀ via : ConversionTrait, via.refers = some m →
      Ensures S given A (reaches S (via.item? S.table.known) actual [inner]) fun b =>
        b = true → Reachable S l via actual [inner] :=
    fun via hv => ensures_reaches hA hl hw via fun trait hk => .refer hk hv he
  cases m with
  | immutable =>
    refine (hreach .borrow rfl).bind fun b hb => (hreach .asRef rfl).bind fun b' hb' => .pure ?_
    refine List.forall_mem_append.2 ⟨forall_mem_offer fun h => ?_, forall_mem_offer fun h => ?_⟩
    · exact ⟨Ty.equiv_refl expected, inner, he, hb h⟩
    · exact ⟨Ty.equiv_refl expected, inner, he, hb' h⟩
  | mutable =>
    have hchange : ∀ c ∈ offer actual.isSharedRef .changeRefToMutable,
        c.Justified S l expected actual := forall_mem_offer fun h => ⟨h, inner, he⟩
    simp only [toReference]
    split
    · exact .pure hchange
    · refine (Solver.ensures_coercions hA hl (hw _ .chain)).bind fun chain _ => ?_
      split
      · exact .pure hchange
      · refine (hreach .borrowMut rfl).bind fun b hb =>
          (hreach .asMut rfl).bind fun b' hb' => .pure ?_
        refine List.forall_mem_append.2 ⟨List.forall_mem_append.2 ⟨hchange, ?_⟩, ?_⟩
        · exact forall_mem_offer fun h => ⟨Ty.equiv_refl expected, inner, he, hb h⟩
        · exact forall_mem_offer fun h => ⟨Ty.equiv_refl expected, inner, he, hb' h⟩

theorem ensures_toResult {item : Item} {ok err : Ty} (hk : S.table.known.resultType = some item)
    (he : expected = .adt item [ok, err]) :
    Ensures S given A (toResult S ok err actual) fun cs =>
      ∀ c ∈ cs, c.Justified S l expected actual := by
  have hresult : ∀ e : Ty, err.equiv e = true → (Ty.adt item [ok, e]).equiv expected = true := by
    intro e h
    rw [Ty.equiv_iff] at h
    rw [he, Ty.equiv_iff]
    simp only [Ty.bare, Ty.bareAll, h]
  have hmakes : Makes S.table.known expected ok := .value hk he
  unfold toResult
  refine (ensures_tryFromError hA hl hw hmakes).bind fun r hr => ?_
  refine (ensures_fromStrError hA hl hw hmakes).bind fun r' hr' => .pure ?_
  refine List.forall_mem_append.2 ⟨?_, ?_⟩
  · cases r with
    | none => exact fun c hc => nomatch hc
    | some e => exact forall_mem_offer fun h => ⟨⟨item, hk, hresult e h⟩, .inl rfl, hr e rfl⟩
  · cases r' with
    | none => exact fun c hc => nomatch hc
    | some e => exact forall_mem_offer fun h => ⟨⟨item, hk, hresult e h⟩, .inr rfl, hr' e rfl⟩

/-- Whether the conversion to an owned string is offered, and what comes after. -/
theorem ensures_asString {α : Type} {R : α → Prop} {k : Bool → Query α}
    (hk : ∀ b, (b = true → ConversionTrait.toText.Backed S l actual expected .missing) →
      Ensures S given A (k b) R) :
    Ensures S given A
      (if (match S.table.known.stringTy? with
          | some string => expected.equiv string
          | none => false) then do
        if ← reaches S S.table.known.toStringTrait actual [] then pure true >>= k
        else pure actual.isNumericLike >>= k
      else pure false >>= k) R := by
  cases hs : S.table.known.stringTy? with
  | none => exact hk false fun h => nomatch h
  | some string =>
    dsimp only
    split
    · refine (ensures_reaches hA hl hw .toText fun trait hk => .toText hk).bind fun b hb => ?_
      cases b with
      | true => exact hk true fun _ => ⟨⟨string, hs, ‹_›⟩, .inr (hb rfl)⟩
      | false => exact hk _ fun h => ⟨⟨string, hs, ‹_›⟩, .inl h⟩
    · exact hk false fun h => nomatch h

theorem ensures_byForm {e : Expr} : Ensures S given A (byForm S expected actual e) fun cs =>
    ∀ c ∈ cs, c.Justified S l expected actual := by
  unfold byForm
  dsimp only
  refine ensures_asString hA hl hw fun b hb => ?_
  cases b with
  | true =>
    refine .pure fun c hc => ?_
    obtain rfl := List.mem_singleton.1 hc
    exact ⟨Ty.equiv_refl expected, hb rfl⟩
  | false =>
    simp only [Bool.false_eq_true, if_false]
    split
    · exact ensures_toReference hA hl hw rfl
    · split
      · exact ensures_toResult hA hl hw (eq_of_beq ‹_›) rfl
      · exact .pure fun c hc => nomatch hc
    · exact .pure fun c hc => nomatch hc

theorem ensures_bridge {e : Expr} : Ensures S given A (bridge S expected actual e) fun cs =>
    ∀ c ∈ cs, c.Justified S l expected actual := by
  unfold bridge
  refine (DerefPath.ensures_find hA hl (hw _ .chain)).bind fun r hr => ?_
  cases r with
  | none => exact .pure fun c hc => nomatch hc
  | some p =>
    refine .pure fun c hc => ?_
    obtain rfl := List.mem_singleton.1 hc
    exact ⟨Ty.equiv_refl expected, hr p rfl⟩

omit hA hl hw in
theorem justified_asSlice : ∀ c ∈ asSlice S expected actual, c.Justified S l expected actual := by
  intro c hc
  unfold asSlice at hc
  split at hc
  · cases hc
  · split at hc
    · split at hc <;> simp only [List.mem_singleton, List.not_mem_nil] at hc <;> subst hc
      · exact Ty.equiv_refl _
      · exact Ty.equiv_refl _
    · cases hc

/-- All conversions are well typed and backed. -/
theorem ensures_candidates {e : Expr} : Ensures S given A (candidates S expected actual e) fun cs =>
    ∀ c ∈ cs, c.Justified S l expected actual := by
  unfold candidates
  split
  · refine .report (.pure fun c hc => ?_)
    obtain rfl := List.mem_singleton.1 hc
    exact Ty.equiv_refl expected
  · refine (ensures_makers hA hl hw).bind fun made hmade => ?_
    refine (ensures_parsers hA hl hw).bind fun parsed hparsed => ?_
    refine (ensures_toOwnedMatches hA hl hw).bind fun b hb => ?_
    refine (ensures_byForm hA hl hw).bind fun formed hformed => ?_
    refine (ensures_bridge hA hl hw).bind fun bridged hbridged => .report (.pure ?_)
    have howned : ∀ c ∈ offer b (.convertVia .toOwned expected .missing),
        c.Justified S l expected actual :=
      forall_mem_offer fun h => ⟨Ty.equiv_refl expected, hb h⟩
    simp only [List.forall_mem_append]
    exact ⟨⟨⟨⟨⟨hmade, hparsed⟩, howned⟩, hformed⟩, justified_asSlice⟩, hbridged⟩

end
end Conversion
end Mismatch
