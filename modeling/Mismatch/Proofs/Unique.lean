import Mismatch.Proofs.Agree
import Mismatch.Proofs.Session

/-!
# Exactly one implementation applies

A goal is selected if exactly one of the declared implementations applies to it
(`Select.isOk_iff_oneApplies`). Whether one applies depends on its obligations, and these are asked
while the goal is being solved: an obligation that leads back to the goal fails there as a cycle.
As an obligation that fails may remove a rival, a goal can be selected because of a cycle, or be
ambiguous because another one is, and the obligation may have a different answer when it is asked by
itself (`Sample.rivals_differ`). It has the same answer if the goal does not come up in its search
(`Select.searchFrom_push`), and then what is said of the goal can be said with answers to queries
alone (`Session.selects_iff`).
-/

namespace Mismatch

/-- The implementation is one of the goal's trait, its header is the goal, and its obligations
hold. -/
def Impl.AppliesTo (i : Impl) (g : Goal) (holds : Goal → Prop) : Prop :=
  ∃ s, i.under? g = some s ∧ ∀ o ∈ i.obligations, holds (o.subst s)

/-- Exactly one of the declared implementations applies to the goal. One that is declared twice
counts as two. -/
def TraitTable.OneApplies (T : TraitTable) (g : Goal) (holds : Goal → Prop) : Prop :=
  ∃ before i after, T.impls = before ++ i :: after ∧ i.AppliesTo g holds ∧
    ∀ j ∈ before ++ after, ¬ j.AppliesTo g holds

theorem Impl.appliesTo_congr {i : Impl} {g : Goal} {H H' : Goal → Prop}
    (h : ∀ s, i.under? g = some s → ∀ o ∈ i.obligations, (H (o.subst s) ↔ H' (o.subst s))) :
    i.AppliesTo g H ↔ i.AppliesTo g H' :=
  exists_congr fun s => and_congr_right fun hs => forall₂_congr fun o ho => h s hs o ho

theorem TraitTable.oneApplies_congr {T : TraitTable} {g : Goal} {H H' : Goal → Prop}
    (h : ∀ i ∈ T.impls, ∀ s, i.under? g = some s → ∀ o ∈ i.obligations,
      (H (o.subst s) ↔ H' (o.subst s))) : T.OneApplies g H ↔ T.OneApplies g H' := by
  refine exists_congr fun before => exists_congr fun i => exists_congr fun after =>
    and_congr_right fun hsplit => ?_
  have hmem : ∀ j ∈ before ++ after, j ∈ T.impls := fun j hj => by
    rw [hsplit]
    rcases List.mem_append.1 hj with hj | hj
    · exact List.mem_append_left _ hj
    · exact List.mem_append_right _ (List.mem_cons_of_mem i hj)
  have hi : i ∈ T.impls := hsplit ▸ List.mem_append_right _ List.mem_cons_self
  exact and_congr (Impl.appliesTo_congr (h i hi)) (forall₂_congr fun j hj =>
    not_congr (Impl.appliesTo_congr (h j (hmem j hj))))

theorem Goal.equiv_eq_of_bare_eq {g h k : Goal} (e : g.bare = h.bare) : g.equiv k = h.equiv k := by
  rw [Bool.eq_iff_iff, Goal.equiv_iff, Goal.equiv_iff, e]

namespace Select

/-! ## Survivors are the implementations that apply -/

section
variable {ask : Goal → Option Answer} {H : Goal → Prop}
  (hH : ∀ o a, ask o = some a → (a.outcome.isOk = true ↔ H o))
include hH

theorem holdAll_iff : ∀ {gs : List Goal} {b met : Bool}, holdAll ask gs = some (b, met) →
    (b = true ↔ ∀ o ∈ gs, H o)
  | [], b, met, hr => by
    obtain ⟨rfl, rfl⟩ : true = b ∧ false = met := by simpa [holdAll] using hr
    simp
  | g :: gs, b, met, hr => by
    obtain ⟨a, ha, hr⟩ := holdAll_cons_eq_some.1 hr
    have hg := hH g a ha
    rcases hr with ⟨hok, rfl, -⟩ | ⟨hok, later, hgs, -⟩
    · have hno : ¬ H g := fun h => by
        rw [hg.2 h] at hok
        cases hok
      exact iff_of_false Bool.false_ne_true fun h => hno (h g List.mem_cons_self)
    · rw [List.forall_mem_cons, ← holdAll_iff hgs, iff_true_intro (hg.1 hok), true_and]

open Classical in
theorem survivors_impls {g : Goal} : ∀ {is : List Impl} {r : List Selection × Bool},
    survivors ask g is = some r → r.1.map (·.impl) = is.filter (·.AppliesTo g H)
  | [], r, hr => by
    obtain rfl : ([], false) = r := by simpa [survivors] using hr
    rfl
  | i :: is, r, hr => by
    cases hi : i.under? g with
    | none =>
      have hno : ¬ i.AppliesTo g H := by
        rintro ⟨s, hs, -⟩
        rw [hi] at hs
        cases hs
      rw [survivors_cons_of_none hi] at hr
      rw [survivors_impls hr, List.filter_cons_of_neg (by simpa using hno)]
    | some s =>
      obtain ⟨b, met, q, ho, hq, rfl⟩ := (survivors_cons_eq_some hi).1 hr
      have happ : i.AppliesTo g H ↔ b = true := by
        rw [holdAll_iff hH ho, List.forall_mem_map]
        constructor
        · rintro ⟨s', hs', h⟩
          obtain rfl := Option.some.inj (hi.symm.trans hs')
          exact h
        · exact fun h => ⟨s, hi, h⟩
      cases b with
      | true =>
        rw [List.filter_cons_of_pos (by simpa using happ.2 rfl), ← survivors_impls hq]
        rfl
      | false =>
        rw [List.filter_cons_of_neg (by simpa using mt happ.1 Bool.false_ne_true),
          ← survivors_impls hq]
        rfl

end

theorem unique_isOk_iff : ∀ found : List Selection,
    (unique found).isOk = true ↔ ∃ i, found.map (·.impl) = [i]
  | [] | [_] | _ :: _ :: _ => by simp [unique, Except.isOk, Except.toBool]

section
variable {T : TraitTable} {given : Cache} {stack stack' : List Key} {g : Goal} {depth : Nat}
  {a : Answer} {k : Key}

/-- The goal is selected when it is searched for under `stack`. -/
def Holds (T : TraitTable) (given : Cache) (stack : List Key) (g : Goal) : Prop :=
  ∃ sel, Answers T given stack g (.ok sel)

theorem holds_iff (ha : searchFrom T given depth stack g = some a) :
    a.outcome.isOk = true ↔ Holds T given stack g := by
  rw [← exists_ok_iff]
  refine exists_congr fun sel => ⟨fun h => ⟨depth, a, ha, h⟩, fun h => ?_⟩
  exact Answers.det ⟨depth, a, ha, rfl⟩ h

/-- A goal that has no answer at once is selected exactly if one implementation applies to it, its
obligations being searched for under the goal. -/
theorem isOk_iff_oneApplies (opens : atOnce? T given stack g = none)
    (ha : searchFrom T given depth stack g = some a) :
    a.outcome.isOk = true ↔ T.OneApplies g (Holds T given (g.key :: stack)) := by
  classical
  obtain ⟨d, r, rfl, hr, rfl⟩ := searchFrom_opens_inv opens ha
  have himpls := survivors_impls (fun _ _ => holds_iff) hr
  simp only [unique_isOk_iff, himpls]
  constructor
  · rintro ⟨i, hi⟩
    obtain ⟨before, after, hsplit, hbefore, happ, hafter⟩ := List.filter_eq_cons_iff.1 hi
    refine ⟨before, i, after, hsplit, by simpa using happ, List.forall_mem_append.2 ⟨?_, ?_⟩⟩
    · simpa using hbefore
    · simpa [List.filter_eq_nil_iff] using hafter
  · rintro ⟨before, i, after, hsplit, happ, hno⟩
    obtain ⟨hbefore, hafter⟩ := List.forall_mem_append.1 hno
    refine ⟨i, List.filter_eq_cons_iff.2 ⟨before, after, hsplit, ?_, by simpa using happ, ?_⟩⟩
    · simpa using hbefore
    · simpa [List.filter_eq_nil_iff] using hafter

/-! ## Goals that do not come up -/

theorem atOnce?_push (hsub : stack ⊆ stack') (hk : ∀ j ∈ stack', j = k ∨ j ∈ stack)
    (hne : g.key ≠ k) : atOnce? T given stack' g = atOnce? T given stack g := by
  have hmem : stack'.contains g.key = stack.contains g.key := by
    rw [Bool.eq_iff_iff, List.contains_iff_mem, List.contains_iff_mem]
    exact ⟨fun h => (hk _ h).resolve_left hne, fun h => hsub h⟩
  simp only [atOnce?, hmem]

/-- A key may be put on the stack without effect on a search in which no goal has it. -/
theorem searchFrom_push : ∀ {depth : Nat} {stack stack' : List Key} {g : Goal} {a : Answer},
    stack ⊆ stack' → (∀ j ∈ stack', j = k ∨ j ∈ stack) →
    (∀ x, Asks T given stack g x → x.key ≠ k) → searchFrom T given depth stack g = some a →
    searchFrom T given depth stack' g = some a
  | 0, _, _, _, _, _, _, _, ha => nomatch ha
  | depth + 1, stack, stack', g, a, hsub, hk, hne, ha => by
    have hat : atOnce? T given stack' g = atOnce? T given stack g :=
      atOnce?_push hsub hk (hne g .self)
    cases ho : atOnce? T given stack g with
    | some c =>
      rw [searchFrom_of_atOnce depth ho] at ha
      exact searchFrom_of_atOnce depth (hat.trans (ho.trans ha))
    | none =>
      obtain ⟨d, r, hd, hr, rfl⟩ := searchFrom_opens_inv ho ha
      obtain rfl := Nat.succ.inj hd
      refine searchFrom_of_opens (hat.trans ho) (survivors_transfer hr fun x c hx hc _ => ?_)
      refine searchFrom_push (List.cons_subset_cons g.key hsub) (fun j hj => ?_)
        (fun y hy => hne y (.of_tried ho hx hy)) hc
      rcases List.mem_cons.1 hj with rfl | hj
      · exact .inr List.mem_cons_self
      · exact (hk j hj).imp_right (List.mem_cons_of_mem g.key)

/-- A goal that comes to an end by itself holds in the search for another one exactly if it holds by
itself, unless that other one comes up. -/
theorem holds_push_iff (hne : ∀ x, Asks T given [] g x → x.key ≠ k)
    (ha : searchFrom T given depth [] g = some a) : Holds T given [k] g ↔ Holds T given [] g := by
  have ha' : searchFrom T given depth [k] g = some a :=
    searchFrom_push (List.nil_subset _) (fun j hj => .inl (List.mem_singleton.1 hj)) hne ha
  exact (holds_iff ha').symm.trans (holds_iff ha)

end
end Select

open Select

/-! ## Queries -/

/-- Asked by itself the goal is selected: the query comes to an end if it may go deep enough, and
all its answers are yes. -/
def Solver.Selects (S : Solver) (m : Memo) (g : Goal) : Prop :=
  Yields m (fun d => (S.deepen d).canSelect g) (· = true)

/-- Asked by itself the goal `o` has an answer, and `g` does not come up in its search. -/
structure Solver.Apart (S : Solver) (A : Goal → Prop) (m : Memo) (g o : Goal) : Prop where
  within : (Ask.canSelect o).Within S [] A
  ends : ∃ d r, ((S.deepen d).canSelect o).run m = some r
  apart : ∀ x, Asks S.table [] [] o x → x.equiv g = false

section
variable {S : Solver} {A : Goal → Prop} {m : Memo} {g o : Goal}

/-- A query with a fixed answer has no other. -/
theorem Yields.eq_iff {α : Type} {q : Nat → Query α} {a b : α} (h : Yields m q (· = a)) :
    Yields m q (· = b) ↔ a = b := by
  refine ⟨fun h' => ?_, fun e => e ▸ h⟩
  obtain ⟨depth, hd⟩ := h.answered
  obtain ⟨⟨c, m'⟩, hr⟩ := hd depth (Nat.le_refl depth)
  exact (h.holds hr).symm.trans (h'.holds hr)

section
variable (hA : Faithful A) (hs : Sound S.table [] (UpTo A) m.cache)
include hA hs

/-- Asked by itself a goal is selected if the search without a memory selects it. -/
theorem Solver.selects_iff_isOk (hw : (Ask.canSelect g).Within S [] A) {depth : Nat} {a : Answer}
    (ha : search S.table depth [] g = some a) : S.Selects m g ↔ a.outcome.isOk = true := by
  obtain ⟨depth, hset⟩ :=
    Solver.canSelect_settles hA.upTo closed_upTo (hw.start rfl) ⟨depth, a, ha, rfl⟩
  exact ((hset g rfl).yields hs).eq_iff

/-- Where a query comes to an end, so does the search without a memory. -/
theorem Solver.search_of_run (hw : (Ask.canSelect g).Within S [] A)
    (ends : ∃ d r, ((S.deepen d).canSelect g).run m = some r) :
    ∃ depth a, search S.table depth [] g = some a := by
  obtain ⟨d, ⟨b, m'⟩, hr⟩ := ends
  obtain ⟨-, p, ⟨depth, a, ha, -⟩, -⟩ :=
    (S.deepen d).run_canSelect_sound hA.upTo (hw.start rfl) hs hr
  exact ⟨depth, a, ha⟩

theorem Solver.Apart.holds_iff (hg : A g) (h : S.Apart A m g o) :
    Holds S.table [] [g.key] o ↔ S.Selects m o := by
  obtain ⟨depth, a, ha⟩ := S.search_of_run hA hs h.within h.ends
  have hne : ∀ x, Asks S.table [] [] o x → x.key ≠ g.key := fun x hx hkey => by
    have he := hA x g (h.within x ⟨o, rfl, hx⟩) hg hkey
    rw [h.apart x hx] at he
    cases he
  rw [holds_push_iff hne ha, S.selects_iff_isOk hA hs h.within ha, Select.holds_iff ha]

end
end

/-- After any history of queries, a goal of a declared trait is selected exactly if one declared
implementation applies to it, where an obligation has to hold while the goal is being solved. For
an obligation in whose search the goal does not come up that is the same as to hold by itself. -/
theorem Session.selects_iff {S : Solver} {A : Goal → Prop} {reports : List Log.Event} {m : Memo}
    {g : Goal} (hA : Faithful A) (h : Session S.table [] A ⟨[], reports⟩ m)
    (known : S.table.trait? g.trait ≠ none) (hw : (Ask.canSelect g).Within S [] A)
    (ends : ∃ d r, ((S.deepen d).canSelect g).run m = some r) :
    (S.Selects m g ↔ S.table.OneApplies g (Holds S.table [] [g.key])) ∧
    (∀ o, S.Apart A m g o → (Holds S.table [] [g.key] o ↔ S.Selects m o)) ∧
    ((∀ i ∈ S.table.impls, ∀ s, i.under? g = some s → ∀ o ∈ i.obligations,
        S.Apart A m g (o.subst s)) →
      (S.Selects m g ↔ S.table.OneApplies g (S.Selects m))) := by
  have hs : Sound S.table [] (UpTo A) m.cache := h.sound hA sound_given
  have hg : A g := hw g ⟨g, rfl, .self⟩
  obtain ⟨depth, a, ha⟩ := S.search_of_run hA hs hw ends
  have opens : atOnce? S.table [] [] g = none :=
    atOnce?_eq_none_iff.2 ⟨known, rfl, List.not_mem_nil⟩
  have hone := (S.selects_iff_isOk hA hs hw ha).trans (isOk_iff_oneApplies opens ha)
  have hapart : ∀ o, S.Apart A m g o → (Holds S.table [] [g.key] o ↔ S.Selects m o) :=
    fun o ho => ho.holds_iff hA hs hg
  refine ⟨hone, hapart, fun hall => hone.trans (TraitTable.oneApplies_congr ?_)⟩
  exact fun i hi s his o ho => hapart _ (hall i hi s his o ho)

/-- After queries of which one met a cycle, a goal is selected because the one implementation that
applies to it has an obligation that is selected by itself. -/
theorem Session.selects_iff_box_box : ∃ m,
    Session Sample.table [] (Listed Sample.goals) ⟨[], []⟩ m ∧ m.cache.length = 2 ∧
    Sample.solver.Selects m ⟨Sample.box (Sample.box .bool), Sample.marker, []⟩ ∧
    Sample.table.OneApplies ⟨Sample.box (Sample.box .bool), Sample.marker, []⟩
      (Sample.solver.Selects m) := by
  have hw : ∀ g ∈ Sample.goals, (Ask.canSelect g).Within Sample.solver [] (Listed Sample.goals) :=
    fun g hg => .listed Sample.closes_goals fun _ h => h ▸ Sample.listed hg
  have h₁ : Session Sample.table [] (Listed Sample.goals) ⟨[], []⟩ _ :=
    .ask (.canSelect ⟨.slice .bool, Sample.marker, []⟩) Sample.solver.bounds .refl
      (hw _ (by simp [Sample.goals])) rfl
  have h₂ : Session Sample.table [] (Listed Sample.goals) ⟨[], []⟩ _ :=
    .ask (.canSelect ⟨Sample.box .bool, Sample.marker, []⟩) Sample.solver.bounds h₁
      (hw _ (by simp [Sample.goals])) rfl
  have hgoal := hw ⟨Sample.box (Sample.box .bool), Sample.marker, []⟩ (by simp [Sample.goals])
  have hsel := Solver.selects_iff_isOk (S := Sample.solver) Sample.faithful_goals
    (h₂.sound Sample.faithful_goals sound_given) hgoal
    (show search Sample.table 4 [] ⟨Sample.box (Sample.box .bool), Sample.marker, []⟩ = some _ from
      rfl)
  have hone := (Session.selects_iff (S := Sample.solver) Sample.faithful_goals h₂
    (by decide) hgoal ⟨9, _, rfl⟩).2.2 ?_
  · exact ⟨_, h₂, rfl, hsel.2 rfl, hone.1 (hsel.2 rfl)⟩
  · intro i hi s his o ho
    simp only [Sample.solver, Sample.table, List.mem_cons, List.not_mem_nil, or_false] at hi
    -- The second implementation is the only one whose header is the goal.
    rcases hi with rfl | rfl | rfl | rfl | rfl <;> cases his
    obtain rfl := List.mem_singleton.1 ho
    refine ⟨hw ⟨Sample.box .bool, Sample.marker, []⟩ (by simp [Sample.goals]), ⟨9, _, rfl⟩,
      fun x hx => ?_⟩
    obtain ⟨y, hy, e⟩ :
        Listed [⟨Sample.box .bool, Sample.marker, []⟩, ⟨.bool, Sample.marker, []⟩] x :=
      hx.listed (by decide) (upTo_self List.mem_cons_self)
    rw [← Goal.equiv_eq_of_bare_eq e]
    simp only [List.mem_cons, List.not_mem_nil, or_false] at hy
    rcases hy with rfl | rfl
    · decide
    · decide

namespace Sample

/-! ## Rivals -/

def left : Item := ⟨[76], []⟩

def right : Item := ⟨[82], []⟩

def either : Item := ⟨[69], []⟩

/-- Two traits that hold for the truth values unless a rival applies, and one that follows from
each of them. The rival on the left asks for the third trait, the one on the right for the trait on
the left. -/
def rivals : TraitTable where
  traits := [⟨left, [], []⟩, ⟨right, [], []⟩, ⟨either, [], []⟩]
  impls := [
    ⟨[], ⟨.bool, left, []⟩, [], []⟩,
    ⟨[], ⟨.bool, left, []⟩, [], [⟨.bool, either, []⟩]⟩,
    ⟨[], ⟨.bool, either, []⟩, [], [⟨.bool, left, []⟩]⟩,
    ⟨[], ⟨.bool, either, []⟩, [], [⟨.bool, right, []⟩]⟩,
    ⟨[], ⟨.bool, right, []⟩, [], []⟩,
    ⟨[], ⟨.bool, right, []⟩, [], [⟨.bool, left, []⟩]⟩]
  known := .none

def rivalGoals : List Goal := [⟨.bool, left, []⟩, ⟨.bool, right, []⟩, ⟨.bool, either, []⟩]

def rivalSolver : Solver := ⟨rivals, ⟨9, 9⟩⟩

/-- The trait on the right is not selected, although only one implementation of it applies: the
obligation of the rival is not selected when it is asked by itself, but is while the trait on the
right is being solved, because there the third trait fails in a cycle. -/
theorem rivals_differ : Faithful (Listed rivalGoals) ∧
    (∀ g ∈ rivalGoals, rivals.trait? g.trait ≠ none ∧
      (Ask.canSelect g).Within rivalSolver [] (Listed rivalGoals) ∧
      ∃ r, (rivalSolver.canSelect g).run ⟨[], []⟩ = some r) ∧
    ¬ (rivalSolver.Selects ⟨[], []⟩ ⟨.bool, right, []⟩ ↔
      rivals.OneApplies ⟨.bool, right, []⟩ (rivalSolver.Selects ⟨[], []⟩)) := by
  have hA : Faithful (Listed rivalGoals) := faithful_listed (by decide)
  have hw : ∀ g ∈ rivalGoals, (Ask.canSelect g).Within rivalSolver [] (Listed rivalGoals) :=
    fun g hg => .listed (by decide) fun _ h => h ▸ upTo_self hg
  have hsel : ∀ g ∈ rivalGoals, ∀ a, search rivals 6 [] g = some a →
      (rivalSolver.Selects ⟨[], []⟩ g ↔ a.outcome.isOk = true) :=
    fun g hg a ha => Solver.selects_iff_isOk (S := rivalSolver) hA sound_given (hw g hg) ha
  have hleft : ¬ rivalSolver.Selects ⟨[], []⟩ ⟨.bool, left, []⟩ := fun h =>
    nomatch (hsel _ (by simp [rivalGoals]) _ rfl).1 h
  have hright : ¬ rivalSolver.Selects ⟨[], []⟩ ⟨.bool, right, []⟩ := fun h =>
    nomatch (hsel _ (by simp [rivalGoals]) _ rfl).1 h
  refine ⟨hA, fun g hg => ⟨?_, hw g hg, ?_⟩, fun hiff => hright (hiff.2 ?_)⟩
  · simp only [rivalGoals, List.mem_cons, List.not_mem_nil, or_false] at hg
    rcases hg with rfl | rfl | rfl <;> decide
  · simp only [rivalGoals, List.mem_cons, List.not_mem_nil, or_false] at hg
    rcases hg with rfl | rfl | rfl <;> exact ⟨_, rfl⟩
  · refine ⟨rivals.impls.take 4, _, _, rfl, ⟨_, rfl, fun o ho => nomatch ho⟩, ?_⟩
    intro j hj ⟨s, hs, ho⟩
    simp only [rivals, List.take, List.mem_append, List.mem_cons, List.not_mem_nil, or_false] at hj
    rcases hj with (rfl | rfl | rfl | rfl) | rfl <;> cases hs
    exact hleft (ho _ List.mem_cons_self)

end Sample

end Mismatch
