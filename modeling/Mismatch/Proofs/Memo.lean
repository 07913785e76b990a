import Mismatch.Proofs.Lookup
import Mismatch.Proofs.Search

/-!
# The memory of a search is sound

`Sound T given A C` relates the memory `C` to the search without one: each remembered answer is that
of a goal of `A` whose search meets no cycle under any stack of goals that are not remembered
(`Settled`). Three facts carry the invariant through a run. A goal on the stack is never remembered,
because it would have been found before it was put there. The obligations that a goal without a
cycle depends on are remembered before the goal itself. And a stack that lacks all of them makes no
difference to the search for it.

`Faithful A` says that keys tell the goals of `A` apart up to equivalence. The run of a goal then
gives the answer of the search without a memory (`run_solve_sound`), and it comes to an end whenever
that search does (`run_solve_complete`).
-/

namespace Mismatch

/-! ## Runs of queries -/

namespace Query
variable {α β : Type} {m m' : Memo}

theorem run_bind_eq_some {x : Query α} {f : α → Query β} {r : β × Memo} :
    (x >>= f).run m = some r ↔ ∃ a m', x.run m = some (a, m') ∧ (f a).run m' = some r := by
  simp [StateT.run_bind, Option.bind_eq_some_iff]

theorem run_map_eq_some {x : Query α} {f : α → β} {b : β} :
    (f <$> x).run m = some (b, m') ↔ ∃ a, x.run m = some (a, m') ∧ f a = b := by
  simp [StateT.run_map]

theorem run_lookup (k : Key) (m : Memo) : (lookup k).run m = some (m.cache.lookup k, m) := rfl

/-- On a memory that satisfies `I`, the answers of the query satisfy `R` and leave a memory that
satisfies `I`. -/
def Keeps (I : Cache → Prop) (q : Query α) (R : α → Prop) : Prop :=
  ∀ ⦃m m' : Memo⦄ ⦃a : α⦄, I m.cache → q.run m = some (a, m') → I m'.cache ∧ R a

namespace Keeps
variable {I : Cache → Prop} {q : Query α} {k : α → Query β} {R : α → Prop} {R' : β → Prop}

theorem mono (h : Keeps I q R) {R' : α → Prop} (hR : ∀ a, R a → R' a) : Keeps I q R' := by
  intro m m' a hm hr
  obtain ⟨hm', ha⟩ := h hm hr
  exact ⟨hm', hR a ha⟩

theorem pure {a : α} (ha : R a) : Keeps I (Pure.pure a) R := by
  intro m m' b hm hr
  obtain ⟨rfl, rfl⟩ := Prod.mk.inj (Option.some.inj hr)
  exact ⟨hm, ha⟩

theorem bind (h : Keeps I q R) (hk : ∀ a, R a → Keeps I (k a) R') : Keeps I (q >>= k) R' := by
  intro m m' b hm hr
  obtain ⟨a, m₁, ha, hr⟩ := run_bind_eq_some.1 hr
  obtain ⟨hm₁, hR⟩ := h hm ha
  exact hk a hR hm₁ hr

theorem map (h : Keeps I q R) {f : α → β} (hf : ∀ a, R a → R' (f a)) : Keeps I (f <$> q) R' := by
  simpa only [map_eq_pure_bind] using h.bind fun a ha => pure (hf a ha)

/-- A report in front of a query makes no difference. -/
theorem report {level : Log.Level} {module : Text} {message : Thunk Text} (h : Keeps I q R) :
    Keeps I (Query.report level module message >>= fun _ => q) R := by
  intro m m' a hm hr
  obtain ⟨_, m₁, hm₁, hr⟩ := run_bind_eq_some.1 hr
  have hcache : m₁.cache = m.cache := by
    obtain ⟨-, rfl⟩ := Prod.mk.inj (Option.some.inj hm₁)
    rfl
  exact h (hcache ▸ hm) hr

end Keeps
end Query

namespace Cache

/-- What is remembered in the first is remembered in the second. -/
def Le (C C' : Cache) : Prop := ∀ k o, C.lookup k = some o → C'.lookup k = some o

/-- None of the keys has an answer. -/
def Lacks (C : Cache) (keys : List Key) : Prop := ∀ k ∈ keys, C.lookup k = none

variable {C C' C'' : Cache} {keys : List Key} {k : Key}

theorem Le.refl (C : Cache) : C.Le C := fun _ _ h => h

theorem Le.trans (h : C.Le C') (h' : C'.Le C'') : C.Le C'' := fun k o hk => h' k o (h k o hk)

theorem Le.lookup_eq_none (h : C.Le C') (hk : C'.lookup k = none) : C.lookup k = none := by
  cases hC : C.lookup k with
  | none => rfl
  | some o => rw [h k o hC] at hk; cases hk

theorem Le.lacks (h : C.Le C') (hl : C'.Lacks keys) : C.Lacks keys :=
  fun k hk => h.lookup_eq_none (hl k hk)

theorem Lacks.cons (h : C.Lacks keys) (hk : C.lookup k = none) : C.Lacks (k :: keys) := by
  intro j hj
  rcases List.mem_cons.1 hj with rfl | hj
  · exact hk
  · exact h j hj

theorem Lacks.head (h : C.Lacks (k :: keys)) : C.lookup k = none := h k List.mem_cons_self

theorem Lacks.tail (h : C.Lacks (k :: keys)) : C.Lacks keys :=
  fun j hj => h j (List.mem_cons_of_mem k hj)

theorem lookup_cons_self (k : Key) (o : Outcome) (C : Cache) :
    List.lookup k ((k, o) :: C) = some o := by
  simp

theorem le_cons (h : C.lookup k = none) (o : Outcome) : C.Le ((k, o) :: C) := by
  intro j p hj
  have hne : j ≠ k := by
    rintro rfl
    rw [h] at hj
    cases hj
  rw [lookup_cons_ne hne]
  exact hj

theorem Lacks.cons_entry (h : C.Lacks keys) (hk : k ∉ keys) (o : Outcome) :
    Lacks ((k, o) :: C) keys := by
  intro j hj
  have hne : j ≠ k := fun e => hk (e ▸ hj)
  rw [lookup_cons_ne hne]
  exact h j hj

end Cache

/-- Keys tell the goals of the set apart, up to equivalence. -/
def Faithful (A : Goal → Prop) : Prop :=
  ∀ g h, A g → A h → g.key = h.key → g.equiv h = true

namespace Select

/-! ## The invariant -/

section
variable (T : TraitTable) (given : Cache) (A : Goal → Prop)

/-- Under every stack of goals that are not remembered, the search for the goal meets no cycle and
has the outcome `o`. -/
def Settled (C : Cache) (g : Goal) (o : Outcome) : Prop :=
  ∃ depth, ∀ stack, C.Lacks stack →
    ∃ a, searchFrom T given depth stack g = some a ∧ a.bare = ⟨o.bare, false⟩

/-- The memory extends what was given, and every further answer in it is settled. -/
structure Sound (C : Cache) : Prop where
  given_le : given.Le C
  settled : ∀ k o, C.lookup k = some o → given.lookup k = none →
    ∃ g, A g ∧ g.key = k ∧ Settled T given C g o

/-- The stacks under which a search goes as it went under `stack`: that stack itself and, if no
cycle was met, every stack of goals that are not remembered afterwards. -/
def Alike (C : Cache) (stack : List Key) (met : Bool) (S : List Key) : Prop :=
  S = stack ∨ met = false ∧ C.Lacks S

/-- A run under `stack` kept the invariant. -/
structure Kept (stack : List Key) (C C' : Cache) : Prop where
  sound : Sound T given A C'
  le : C.Le C'
  lacks : C'.Lacks stack

/-- All goals that come up in the search for `g` are in the set. -/
def Within (stack : List Key) (g : Goal) : Prop := ∀ x, Asks T given stack g x → A x

/-- The goals of a list stay in the set when they are asked in turn up to the first that fails. -/
def WithinAll (stack : List Key) (gs : List Goal) : Prop :=
  ∀ before g after, gs = before ++ g :: after →
    (∀ p ∈ before, ∃ sel, Answers T given stack p (.ok sel)) → Within T given A stack g

end

variable {T : TraitTable} {given : Cache} {A : Goal → Prop} {stack S : List Key} {C C' C'' : Cache}
  {g : Goal} {o : Outcome} {met met' : Bool}

theorem Settled.of_le (h : Settled T given C g o) (hle : C.Le C') : Settled T given C' g o := by
  obtain ⟨depth, hs⟩ := h
  exact ⟨depth, fun stack hl => hs stack (hle.lacks hl)⟩

theorem sound_given : Sound T given A given where
  given_le := .refl given
  settled k o hk hn := by rw [hk] at hn; cases hn

theorem Alike.self : Alike C stack met stack := .inl rfl

theorem Alike.of_le (h : Alike C' stack met' S) (hle : C.Le C')
    (hm : met' = false → met = false) : Alike C stack met S := by
  rcases h with h | ⟨h, hl⟩
  · exact .inl h
  · exact .inr ⟨hm h, hle.lacks hl⟩

theorem Alike.lacks (h : Alike C stack met S) (hl : C.Lacks stack) : C.Lacks S := by
  rcases h with rfl | ⟨-, h⟩
  · exact hl
  · exact h

theorem Alike.eq_of_met (h : Alike C stack true S) : S = stack := by
  rcases h with rfl | ⟨h, -⟩
  · rfl
  · cases h

theorem Kept.refl (h : Sound T given A C) (hl : C.Lacks stack) : Kept T given A stack C C :=
  ⟨h, .refl C, hl⟩

theorem Kept.trans (h : Kept T given A stack C C') (h' : Kept T given A stack C' C'') :
    Kept T given A stack C C'' :=
  ⟨h'.sound, h.le.trans h'.le, h'.lacks⟩

theorem WithinAll.head {gs : List Goal} (h : WithinAll T given A stack (g :: gs)) :
    Within T given A stack g :=
  h [] g gs rfl fun _ hp => nomatch hp

theorem WithinAll.tail {gs : List Goal} (h : WithinAll T given A stack (g :: gs)) {sel : Selection}
    (hg : Answers T given stack g (.ok sel)) : WithinAll T given A stack gs := by
  rintro before g' after rfl hb
  refine h (g :: before) g' after rfl fun p hp => ?_
  rcases List.mem_cons.1 hp with rfl | hp
  · exact ⟨sel, hg⟩
  · exact hb p hp

/-- The obligations of an implementation that is tried come up in the search. -/
theorem Within.obligations (h : Within T given A stack g) (opens : atOnce? T given stack g = none)
    {i : Impl} (mem : i ∈ T.impls) {s : Subst} (applies : i.under? g = some s) :
    WithinAll T given A (g.key :: stack) (i.obligations.map (·.subst s)) := by
  intro before o after hsplit hb x hx
  obtain ⟨b, r, hi, rfl, hr⟩ := List.map_eq_append_iff.1 hsplit
  obtain ⟨c, a, rfl, rfl, rfl⟩ := List.map_eq_cons_iff.1 hr
  exact h x (.obligation opens mem applies hi
    (fun p hp => hb _ (List.mem_map_of_mem hp)) hx)

/-! ## One step of the search -/

theorem run_solve_of_atOnce {m : Memo} {a : Answer} (depth : Nat)
    (h : atOnce? T m.cache stack g = some a) :
    ∃ m', (solve T (depth + 1) stack g).run m = some (a, m') ∧ m'.cache = m.cache := by
  simp only [atOnce?] at h
  simp only [solve]
  cases ht : T.trait? g.trait with
  | none =>
    simp only [ht, Option.some.injEq] at h
    exact ⟨m, h ▸ rfl, rfl⟩
  | some _ =>
    simp only [ht, StateT.run_bind, Query.run_lookup, Option.bind_eq_bind,
      Option.bind_some] at h ⊢
    cases hc : m.cache.lookup g.key with
    | some o =>
      simp only [hc, Option.some.injEq] at h
      exact ⟨m, h ▸ rfl, rfl⟩
    | none =>
      simp only [hc] at h ⊢
      split
      · rw [if_pos ‹_›, Option.some.injEq] at h
        subst h
        exact ⟨_, rfl, rfl⟩
      · rw [if_neg ‹_›] at h
        cases h

/-- What is remembered after the implementations have been tried. -/
def afterTrying (g : Goal) (found : List Selection) (met : Bool) (C : Cache) : Cache :=
  if met then C else (g.key, unique found) :: C

theorem run_solve_of_opens {m : Memo} {r : Answer × Memo} (depth : Nat)
    (h : atOnce? T m.cache stack g = none) :
    (solve T (depth + 1) stack g).run m = some r ↔ ∃ found met m₁,
      (survivors (solve T depth (g.key :: stack)) g T.impls).run m = some ((found, met), m₁) ∧
      r.1 = ⟨unique found, met⟩ ∧ r.2 = ⟨afterTrying g found met m₁.cache,
        ⟨.trace, "traits", Text.join [g.key.text.get, " => ", (unique found).message]⟩ ::
          m₁.reports⟩ := by
  obtain ⟨known, hc, hk⟩ := atOnce?_eq_none_iff.1 h
  obtain ⟨d, hd⟩ := Option.ne_none_iff_exists'.1 known
  have hk' : ¬ stack.contains g.key = true := by simpa using hk
  simp only [solve, hd, StateT.run_bind, Query.run_lookup, Option.bind_eq_bind, Option.bind_some,
    hc, if_neg hk']
  rw [Option.bind_eq_some_iff]
  constructor
  · rintro ⟨⟨⟨found, met⟩, m₁⟩, hs, hr⟩
    refine ⟨found, met, m₁, hs, ?_⟩
    cases met <;> (obtain rfl := Option.some.inj hr; exact ⟨rfl, rfl⟩)
  · rintro ⟨found, met, m₁, hs, hr⟩
    refine ⟨⟨⟨found, met⟩, m₁⟩, hs, ?_⟩
    obtain ⟨a, m'⟩ := r
    obtain ⟨rfl, rfl⟩ := hr
    cases met <;> rfl

/-! ## The loops -/

section
variable (T given A) (stack)

/-- Goals are asked under `stack` as the search without a memory answers them. -/
def Mirrors (ask : Goal → Query Answer) : Prop :=
  ∀ {g m a m'}, Sound T given A m.cache → m.cache.Lacks stack → Within T given A stack g →
    (ask g).run m = some (a, m') → Kept T given A stack m.cache m'.cache ∧
      ∃ depth, ∀ S, Alike m'.cache stack a.metCycle S →
        ∃ b, searchFrom T given depth S g = some b ∧ b.bare = a.bare

/-- Goals that the search without a memory answers within the depth are answered. -/
def Covers (depth : Nat) (ask : Goal → Query Answer) : Prop :=
  ∀ {g m b}, Sound T given A m.cache → m.cache.Lacks stack → Within T given A stack g →
    searchFrom T given depth stack g = some b →
      ∃ a m', (ask g).run m = some (a, m') ∧ a.bare = b.bare

end

section
variable {ask : Goal → Query Answer}

theorem holdAll_run_sound (hask : Mirrors T given A stack ask) : ∀ {gs : List Goal} {m m' : Memo}
    {b met : Bool}, Sound T given A m.cache → m.cache.Lacks stack → WithinAll T given A stack gs →
    (holdAll ask gs).run m = some ((b, met), m') → Kept T given A stack m.cache m'.cache ∧
      ∃ depth, ∀ S, Alike m'.cache stack met S →
        holdAll (searchFrom T given depth S) gs = some (b, met)
  | [], m, m', b, met, hs, hl, _, hr => by
    obtain ⟨⟨rfl, rfl⟩, rfl⟩ : (true = b ∧ false = met) ∧ m = m' := by simpa [holdAll] using hr
    exact ⟨.refl hs hl, 0, fun _ _ => rfl⟩
  | g :: gs, m, m', b, met, hs, hl, hw, hr => by
    rw [holdAll_cons, Query.run_bind_eq_some] at hr
    obtain ⟨a, m₁, ha, hr⟩ := hr
    obtain ⟨k₁, d₁, h₁⟩ := hask hs hl hw.head ha
    cases hok : a.outcome.isOk with
    | false =>
      simp only [hok, Bool.false_eq_true, if_false] at hr
      obtain ⟨⟨rfl, rfl⟩, rfl⟩ : (false = b ∧ a.metCycle = met) ∧ m₁ = m' := by simpa using hr
      refine ⟨k₁, d₁, fun S hS => ?_⟩
      obtain ⟨c, hc, hca⟩ := h₁ S hS
      have hok' := (Answer.isOk_eq_of_bare_eq hca).trans hok
      exact holdAll_cons_eq_some.2
        ⟨c, hc, .inl ⟨hok', rfl, (Answer.bare_eq_iff.1 hca).2.symm⟩⟩
    | true =>
      simp only [hok, if_true, Query.run_map_eq_some] at hr
      obtain ⟨⟨b', met'⟩, hr, he⟩ := hr
      obtain ⟨rfl, rfl⟩ : b' = b ∧ (a.metCycle || met') = met := by simpa using he
      obtain ⟨c, hc, hca⟩ := h₁ stack .self
      obtain ⟨sel, hsel⟩ := exists_ok_iff.2 ((Answer.isOk_eq_of_bare_eq hca).trans hok)
      obtain ⟨k₂, d₂, h₂⟩ :=
        holdAll_run_sound hask k₁.sound k₁.lacks (hw.tail ⟨d₁, c, hc, hsel⟩) hr
      refine ⟨k₁.trans k₂, max d₁ d₂, fun S hS => ?_⟩
      obtain ⟨c', hc', hca'⟩ := h₁ S (hS.of_le k₂.le fun h => (Bool.or_eq_false_iff.1 h).1)
      have hgs := h₂ S (hS.of_le (.refl _) fun h => (Bool.or_eq_false_iff.1 h).2)
      have hgs' := holdAll_mono (fun _ _ => searchFrom_mono (Nat.le_max_right d₁ d₂)) hgs
      have hok' := (Answer.isOk_eq_of_bare_eq hca').trans hok
      exact holdAll_cons_eq_some.2 ⟨c', searchFrom_mono (Nat.le_max_left d₁ d₂) hc',
        .inr ⟨hok', met', hgs', by rw [(Answer.bare_eq_iff.1 hca').2]⟩⟩

theorem survivors_run_sound (hask : Mirrors T given A stack ask) {g : Goal} : ∀ {is : List Impl}
    {m m' : Memo} {found : List Selection} {met : Bool}, Sound T given A m.cache →
    m.cache.Lacks stack →
    (∀ i ∈ is, ∀ s, i.under? g = some s →
      WithinAll T given A stack (i.obligations.map (·.subst s))) →
    (survivors ask g is).run m = some ((found, met), m') →
    Kept T given A stack m.cache m'.cache ∧ ∃ depth, ∀ S, Alike m'.cache stack met S →
      survivors (searchFrom T given depth S) g is = some (found, met)
  | [], m, m', found, met, hs, hl, _, hr => by
    obtain ⟨⟨rfl, rfl⟩, rfl⟩ : (found = [] ∧ false = met) ∧ m = m' := by
      simpa [survivors] using hr
    exact ⟨.refl hs hl, 0, fun _ _ => rfl⟩
  | i :: is, m, m', found, met, hs, hl, hw, hr => by
    have hw' : ∀ j ∈ is, ∀ s, j.under? g = some s →
        WithinAll T given A stack (j.obligations.map (·.subst s)) :=
      fun j hj => hw j (List.mem_cons_of_mem i hj)
    cases hi : i.under? g with
    | none =>
      rw [survivors_cons_of_none hi] at hr
      obtain ⟨k, d, h⟩ := survivors_run_sound hask hs hl hw' hr
      exact ⟨k, d, fun S hS => by rw [survivors_cons_of_none hi, h S hS]⟩
    | some s =>
      rw [survivors_cons_of_some hi, Query.run_bind_eq_some] at hr
      obtain ⟨⟨b, met₁⟩, m₁, ho, hr⟩ := hr
      rw [Query.run_map_eq_some] at hr
      obtain ⟨⟨found₂, met₂⟩, hr, he⟩ := hr
      obtain ⟨rfl, rfl⟩ := Prod.mk.inj he
      obtain ⟨k₁, d₁, h₁⟩ :=
        holdAll_run_sound hask hs hl (hw i List.mem_cons_self s hi) ho
      obtain ⟨k₂, d₂, h₂⟩ := survivors_run_sound hask k₁.sound k₁.lacks hw' hr
      refine ⟨k₁.trans k₂, max d₁ d₂, fun S hS => ?_⟩
      have ho' := holdAll_mono (fun _ _ => searchFrom_mono (Nat.le_max_left d₁ d₂))
        (h₁ S (hS.of_le k₂.le fun h => (Bool.or_eq_false_iff.1 h).1))
      have his' := survivors_mono (fun _ _ => searchFrom_mono (Nat.le_max_right d₁ d₂)) g
        (h₂ S (hS.of_le (.refl _) fun h => (Bool.or_eq_false_iff.1 h).2))
      exact (survivors_cons_eq_some hi).2 ⟨b, met₁, (found₂, met₂), ho', his', rfl⟩

theorem holdAll_run_complete {depth : Nat} (hask : Mirrors T given A stack ask)
    (hcov : Covers T given A stack depth ask) : ∀ {gs : List Goal} {m : Memo} {b met : Bool},
    Sound T given A m.cache → m.cache.Lacks stack → WithinAll T given A stack gs →
    holdAll (searchFrom T given depth stack) gs = some (b, met) →
    ∃ m', (holdAll ask gs).run m = some ((b, met), m')
  | [], m, b, met, _, _, _, hr => by
    obtain ⟨rfl, rfl⟩ : true = b ∧ false = met := by simpa [holdAll] using hr
    exact ⟨m, rfl⟩
  | g :: gs, m, b, met, hs, hl, hw, hr => by
    obtain ⟨c, hc, hr⟩ := holdAll_cons_eq_some.1 hr
    obtain ⟨a, m₁, ha, hac⟩ := hcov hs hl hw.head hc
    have hok := Answer.isOk_eq_of_bare_eq hac
    have hmet := (Answer.bare_eq_iff.1 hac).2
    rcases hr with ⟨h, rfl, rfl⟩ | ⟨h, later, hgs, rfl⟩
    · refine ⟨m₁, ?_⟩
      rw [holdAll_cons, Query.run_bind_eq_some]
      exact ⟨a, m₁, ha, by simp [hok, h, hmet]⟩
    · obtain ⟨sel, hsel⟩ := exists_ok_iff.2 h
      obtain ⟨k, -⟩ := hask hs hl hw.head ha
      obtain ⟨m', hm'⟩ := holdAll_run_complete hask hcov k.sound k.lacks
        (hw.tail ⟨depth, c, hc, hsel⟩) hgs
      refine ⟨m', ?_⟩
      rw [holdAll_cons, Query.run_bind_eq_some]
      refine ⟨a, m₁, ha, ?_⟩
      rw [hok, h, if_pos rfl, Query.run_map_eq_some]
      exact ⟨(b, later), hm', by rw [hmet]⟩

theorem survivors_run_complete {depth : Nat} (hask : Mirrors T given A stack ask)
    (hcov : Covers T given A stack depth ask) {g : Goal} : ∀ {is : List Impl} {m : Memo}
    {r : List Selection × Bool}, Sound T given A m.cache → m.cache.Lacks stack →
    (∀ i ∈ is, ∀ s, i.under? g = some s →
      WithinAll T given A stack (i.obligations.map (·.subst s))) →
    survivors (searchFrom T given depth stack) g is = some r →
    ∃ m', (survivors ask g is).run m = some (r, m')
  | [], m, r, _, _, _, hr => by
    obtain rfl : ([], false) = r := by simpa [survivors] using hr
    exact ⟨m, rfl⟩
  | i :: is, m, r, hs, hl, hw, hr => by
    have hw' : ∀ j ∈ is, ∀ s, j.under? g = some s →
        WithinAll T given A stack (j.obligations.map (·.subst s)) :=
      fun j hj => hw j (List.mem_cons_of_mem i hj)
    cases hi : i.under? g with
    | none =>
      rw [survivors_cons_of_none hi] at hr ⊢
      exact survivors_run_complete hask hcov hs hl hw' hr
    | some s =>
      obtain ⟨b, met, q, ho, hq, rfl⟩ := (survivors_cons_eq_some hi).1 hr
      have hwi := hw i List.mem_cons_self s hi
      obtain ⟨m₁, hm₁⟩ := holdAll_run_complete hask hcov hs hl hwi ho
      obtain ⟨k, -⟩ := holdAll_run_sound hask hs hl hwi hm₁
      obtain ⟨m', hm'⟩ := survivors_run_complete hask hcov k.sound k.lacks hw' hq
      refine ⟨m', ?_⟩
      rw [survivors_cons_of_some hi, Query.run_bind_eq_some]
      exact ⟨(b, met), m₁, hm₁, Query.run_map_eq_some.2 ⟨q, hm', rfl⟩⟩

end

/-! ## The search -/

/-- A remembered answer is the one that the search without a memory gives, under every stack of
goals that are not remembered. -/
theorem Sound.settled_of_lookup (hA : Faithful A) (hs : Sound T given A C) (hg : A g)
    (known : T.trait? g.trait ≠ none) (ho : C.lookup g.key = some o) : Settled T given C g o := by
  obtain ⟨d, hd⟩ := Option.ne_none_iff_exists'.1 known
  cases hgiven : given.lookup g.key with
  | some p =>
    obtain rfl : p = o := Option.some.inj ((hs.given_le _ _ hgiven).symm.trans ho)
    refine ⟨1, fun S _ => ⟨⟨p, false⟩, searchFrom_of_atOnce 0 ?_, rfl⟩⟩
    simp only [atOnce?, hd, hgiven]
  | none =>
    obtain ⟨h, hh, hkey, depth, hset⟩ := hs.settled _ _ ho hgiven
    have e := (Goal.equiv_iff h g).1 (hA h g hh hg hkey)
    refine ⟨depth, fun S hl => ?_⟩
    obtain ⟨a, ha, hab⟩ := hset S hl
    obtain ⟨b, hb, hba⟩ := searchFrom_of_bare_eq e ha
    exact ⟨b, hb, hba.trans hab⟩

theorem atOnce?_sound (hA : Faithful A) (hs : Sound T given A C) (hl : C.Lacks stack) (hg : A g)
    {a : Answer} (ha : atOnce? T C stack g = some a) :
    ∃ depth, ∀ S, Alike C stack a.metCycle S →
      ∃ b, searchFrom T given depth S g = some b ∧ b.bare = a.bare := by
  cases ht : T.trait? g.trait with
  | none =>
    refine ⟨1, fun S _ => ⟨a, searchFrom_of_atOnce 0 ?_, rfl⟩⟩
    simpa only [atOnce?, ht] using ha
  | some d =>
    have known : T.trait? g.trait ≠ none := by simp [ht]
    cases ho : C.lookup g.key with
    | some o =>
      obtain rfl : ⟨o, false⟩ = a := by simpa [atOnce?, ht, ho] using ha
      obtain ⟨depth, hset⟩ := hs.settled_of_lookup hA hg known ho
      exact ⟨depth, fun S hS => hset S (hS.lacks hl)⟩
    | none =>
      obtain ⟨hmem, rfl⟩ : g.key ∈ stack ∧ (⟨.error .cycle, true⟩ : Answer) = a := by
        simpa [atOnce?, ht, ho] using ha
      refine ⟨1, fun S hS => ⟨_, searchFrom_of_atOnce 0 ?_, rfl⟩⟩
      obtain rfl := hS.eq_of_met
      simp [atOnce?, ht, hs.given_le.lookup_eq_none ho, hmem]

/-- The answer to a goal that was solved without meeting a cycle is settled once it is remembered:
until then the goal was not, and the goals that it depends on were remembered before it. -/
theorem settled_remember {found : List Selection} (known : T.trait? g.trait ≠ none)
    (hgiven : given.lookup g.key = none) (hnew : C.lookup g.key = none)
    (hsearch : ∃ depth, ∀ S, Alike C (g.key :: stack) false S →
      survivors (searchFrom T given depth S) g T.impls = some (found, false)) :
    Settled T given ((g.key, unique found) :: C) g (unique found) := by
  obtain ⟨depth, hs⟩ := hsearch
  refine ⟨depth + 1, fun S hS => ?_⟩
  have hmem : g.key ∉ S := fun hmem => by
    have h := hS _ hmem
    rw [Cache.lookup_cons_self] at h
    cases h
  have hl := ((Cache.le_cons hnew (unique found)).lacks hS).cons hnew
  have opens := atOnce?_eq_none_iff.2 ⟨known, hgiven, hmem⟩
  exact ⟨_, searchFrom_of_opens opens (hs (g.key :: S) (.inr ⟨rfl, hl⟩)), rfl⟩

theorem Kept.remember (k : Kept T given A (g.key :: stack) C C') (hg : A g) (hk : g.key ∉ stack)
    (hset : Settled T given ((g.key, o) :: C') g o) :
    Kept T given A stack C ((g.key, o) :: C') := by
  have hle := Cache.le_cons k.lacks.head o
  refine ⟨⟨k.sound.given_le.trans hle, fun j p hj hgiven => ?_⟩, k.le.trans hle,
    k.lacks.tail.cons_entry hk o⟩
  by_cases hjk : j = g.key
  · subst hjk
    obtain rfl := Option.some.inj ((Cache.lookup_cons_self _ o C').symm.trans hj)
    exact ⟨g, hg, rfl, hset⟩
  · rw [lookup_cons_ne hjk] at hj
    obtain ⟨h, hh, hkey, hset⟩ := k.sound.settled j p hj hgiven
    exact ⟨h, hh, hkey, hset.of_le hle⟩

/-- The search with a memory answers as the one without. -/
theorem run_solve_sound (hA : Faithful A) : ∀ (depth : Nat) (stack : List Key),
    Mirrors T given A stack (solve T depth stack)
  | 0, _, _, _, _, _, _, _, _, hr => nomatch hr
  | depth + 1, stack, g, m, a, m', hs, hl, hw, hr => by
    have hg : A g := hw g .self
    cases h : atOnce? T m.cache stack g with
    | some c =>
      obtain ⟨m'', hr', hcache⟩ := run_solve_of_atOnce depth h
      obtain ⟨rfl, rfl⟩ := Prod.mk.inj (Option.some.inj (hr'.symm.trans hr))
      rw [hcache]
      exact ⟨.refl hs hl, atOnce?_sound hA hs hl hg h⟩
    | none =>
      obtain ⟨known, hnew, hk⟩ := atOnce?_eq_none_iff.1 h
      have hgiven := hs.given_le.lookup_eq_none hnew
      have opens : atOnce? T given stack g = none :=
        atOnce?_eq_none_iff.2 ⟨known, hgiven, hk⟩
      obtain ⟨found, met, m₁, hr₁, rfl, rfl⟩ := (run_solve_of_opens depth h).1 hr
      obtain ⟨k, d, hd⟩ := survivors_run_sound (run_solve_sound hA depth (g.key :: stack)) hs
        (hl.cons hnew) (fun i hi s his => hw.obligations opens hi his) hr₁
      cases met with
      | true =>
        -- Nothing is remembered, so the outcome counts under this stack only.
        refine ⟨⟨k.sound, k.le, k.lacks.tail⟩, d + 1, fun S hS => ?_⟩
        obtain rfl := hS.eq_of_met
        exact ⟨_, searchFrom_of_opens opens (hd _ .self), rfl⟩
      | false =>
        -- The goal was on the stack while the obligations were searched, so that no outcome of it
        -- is remembered yet.
        have hset := settled_remember known hgiven k.lacks.head ⟨d, hd⟩
        have k' := k.remember hg hk hset
        obtain ⟨d', hd'⟩ := hset
        exact ⟨k', d', fun S hS => hd' S (hS.lacks k'.lacks)⟩

/-- The search with a memory comes to an end where the one without does. -/
theorem run_solve_complete (hA : Faithful A) : ∀ (depth : Nat) (stack : List Key),
    Covers T given A stack depth (solve T depth stack)
  | 0, _, _, _, _, _, _, _, hb => nomatch hb
  | depth + 1, stack, g, m, b, hs, hl, hw, hb => by
    have hrun : ∃ r, (solve T (depth + 1) stack g).run m = some r := by
      cases h : atOnce? T m.cache stack g with
      | some a =>
        obtain ⟨m', hr, -⟩ := run_solve_of_atOnce depth h
        exact ⟨_, hr⟩
      | none =>
        obtain ⟨known, hnew, hk⟩ := atOnce?_eq_none_iff.1 h
        have opens : atOnce? T given stack g = none :=
          atOnce?_eq_none_iff.2 ⟨known, hs.given_le.lookup_eq_none hnew, hk⟩
        simp only [searchFrom, opens] at hb
        obtain ⟨⟨found, met⟩, hsur, -⟩ := Option.map_eq_some_iff.1 hb
        obtain ⟨m₁, hm₁⟩ := survivors_run_complete (run_solve_sound hA depth (g.key :: stack))
          (run_solve_complete hA depth (g.key :: stack)) hs (hl.cons hnew)
          (fun i hi s his => hw.obligations opens hi his) hsur
        exact ⟨(_, _), (run_solve_of_opens depth h).2 ⟨found, met, m₁, hm₁, rfl, rfl⟩⟩
    obtain ⟨⟨a, m'⟩, hr⟩ := hrun
    obtain ⟨-, d, hd⟩ := run_solve_sound hA (depth + 1) stack hs hl hw hr
    obtain ⟨c, hc, hca⟩ := hd stack .self
    exact ⟨a, m', hr, by rw [← hca, searchFrom_det hb hc]⟩

end Select
end Mismatch
