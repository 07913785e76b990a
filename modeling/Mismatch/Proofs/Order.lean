import Mismatch.Proofs.ChainShape
import Mismatch.Proofs.Unique

/-!
# The order of declaration

Implementations are tried in the order of their declaration, and the obligations of each are asked
in turn up to the first that fails. In another order other goals come up first, other obligations
are never asked, other cycles are met, and other answers are remembered in the meantime.

Whether an obligation holds depends on the goals under which it is asked alone. So where both orders
come to an end the same implementations apply, and one of them is selected in both
(`Select.searchFrom_reordered`). As queries answer what the search without a memory does, they do
not depend on the order, either (`Session.reordered`).
-/

namespace Mismatch

open Select

/-! ## Other orders -/

/-- The implementations differ at most in the order of their obligations. -/
structure Impl.Reordered (i j : Impl) : Prop where
  generics : j.generics = i.generics
  header : j.header = i.header
  assoc : j.assoc = i.assoc
  obligations : j.obligations.Perm i.obligations

/-- The tables differ at most in the order of their implementations and in that of the obligations
of each. The implementation of the one table that an implementation of the other has become stands
beside it in `pairs`. -/
structure TraitTable.Reordered (pairs : List (Impl × Impl)) (T T' : TraitTable) : Prop where
  traits : T'.traits = T.traits
  known : T'.known = T.known
  left : (pairs.map Prod.fst).Perm T.impls
  right : (pairs.map Prod.snd).Perm T'.impls
  same : ∀ p ∈ pairs, p.1.Reordered p.2

/-- The same failure, or results that are related. -/
def SameResult {α : Type} (R : α → α → Prop) :
    Except SelectionError α → Except SelectionError α → Prop
  | .ok a, .ok b => R a b
  | .error e, .error f => e = f
  | _, _ => False

/-- The selected implementations stand beside each other, and the bindings are equivalent. -/
def Selection.Beside (pairs : List (Impl × Impl)) (s s' : Selection) : Prop :=
  (s.impl, s'.impl) ∈ pairs ∧ s.subst.bare = s'.subst.bare

namespace SameResult
variable {α β : Type} {R : α → α → Prop} {R' : β → β → Prop} {r r' : Except SelectionError α}

theorem mono (h : SameResult R r r') {R' : α → α → Prop} (hR : ∀ a b, R a b → R' a b) :
    SameResult R' r r' := by
  cases r <;> cases r' <;> first | exact hR _ _ h | exact h

theorem bind (h : SameResult R r r') {f f' : α → Except SelectionError β}
    (hf : ∀ a b, R a b → SameResult R' (f a) (f' b)) : SameResult R' (r.bind f) (r'.bind f') := by
  cases r <;> cases r' <;> first | exact hf _ _ h | exact h | exact h.elim

theorem isOk_eq (h : SameResult R r r') : r.isOk = r'.isOk := by
  cases r <;> cases r' <;> first | rfl | exact h.elim

theorem map_toOption {f : α → β} (h : SameResult (fun a b => f a = f b) r r') :
    r.toOption.map f = r'.toOption.map f := by
  cases r <;> cases r' <;> first | rfl | exact congrArg some h | exact h.elim

/-- Equivalent outcomes are related alike. -/
theorem of_bare_eq {pairs : List (Impl × Impl)} {o o' p p' : Outcome}
    (h : SameResult (Selection.Beside pairs) o o') (e : p.bare = o.bare) (e' : p'.bare = o'.bare) :
    SameResult (Selection.Beside pairs) p p' := by
  cases o with
  | error x =>
    cases o' with
    | ok s' => exact h.elim
    | error y =>
      cases p with
      | ok s => cases e
      | error z =>
        cases p' with
        | ok s' => cases e'
        | error w => exact (Except.error.inj e).trans (Eq.trans h (Except.error.inj e').symm)
  | ok s =>
    cases o' with
    | error y => exact h.elim
    | ok s' =>
      obtain ⟨t, rfl, ht⟩ := Outcome.ok_of_bare_eq e
      obtain ⟨t', rfl, ht'⟩ := Outcome.ok_of_bare_eq e'
      obtain ⟨hi, hb⟩ := Selection.mk.inj ht
      obtain ⟨hi', hb'⟩ := Selection.mk.inj ht'
      obtain ⟨hpair, hs⟩ := h
      exact ⟨by rw [hi, hi']; exact hpair, hb.trans (hs.trans hb'.symm)⟩

end SameResult

theorem Impl.Reordered.under?_eq {i j : Impl} (h : i.Reordered j) (g : Goal) :
    j.under? g = i.under? g := by
  simp only [Impl.under?, Impl.match?, h.header]

/-- Implementations that stand beside each other have the same associated types, up to
equivalence. -/
theorem Selection.Beside.assoc {pairs : List (Impl × Impl)}
    (hpairs : ∀ p ∈ pairs, p.1.Reordered p.2) {s s' : Selection} (h : s.Beside pairs s')
    (name : Text) :
    SameResult (fun t u => t.bare = u.bare) (s.assoc name) (s'.assoc name) := by
  obtain ⟨hpair, hs⟩ := h
  have hassoc : s'.impl.assoc = s.impl.assoc := (hpairs _ hpair).assoc
  simp only [Selection.assoc, hassoc]
  cases s.impl.assoc.lookup name with
  | none => rfl
  | some t =>
    show (t.subst s.subst).bare = (t.subst s'.subst).bare
    rw [Ty.subst_bare, Ty.subst_bare, hs]

namespace TraitTable.Reordered
variable {pairs : List (Impl × Impl)} {T T' : TraitTable}

theorem trait?_eq (h : T.Reordered pairs T') (id : Item) : T'.trait? id = T.trait? id := by
  simp only [TraitTable.trait?, h.traits]

theorem declares_iff (h : T.Reordered pairs T') {trait : Item} {name : Text} :
    T'.Declares trait name ↔ T.Declares trait name := by
  simp only [TraitTable.Declares, h.trait?_eq]

theorem undeclared_eq (h : T.Reordered pairs T') (trait : Item) :
    T'.undeclared trait = T.undeclared trait := by
  simp only [TraitTable.undeclared, h.trait?_eq]

theorem derefGoal?_eq (h : T.Reordered pairs T') (t : Ty) : T'.derefGoal? t = T.derefGoal? t := by
  cases t <;> simp only [TraitTable.derefGoal?, h.known]

end TraitTable.Reordered

/-! ## The search without a memory -/

namespace Select

section
variable {ask ask' : Goal → Option Answer}

/-- The goal is asked and holds. -/
def AskedOk (ask : Goal → Option Answer) (g : Goal) : Prop :=
  ∃ a, ask g = some a ∧ a.outcome.isOk = true

theorem askedOk_iff {g : Goal} {a : Answer} (ha : ask g = some a) :
    a.outcome.isOk = true ↔ AskedOk ask g := by
  refine ⟨fun h => ⟨a, ha, h⟩, ?_⟩
  rintro ⟨b, hb, h⟩
  obtain rfl := Option.some.inj (ha.symm.trans hb)
  exact h

/-- Goals that do not all hold were asked up to one that fails. -/
theorem holdAll_false : ∀ {gs : List Goal} {met : Bool}, holdAll ask gs = some (false, met) →
    ∃ g ∈ gs, ∃ a, ask g = some a ∧ a.outcome.isOk = false
  | [], _, hr => by cases hr
  | g :: gs, met, hr => by
    obtain ⟨a, ha, ⟨hok, -, -⟩ | ⟨-, later, hgs, -⟩⟩ := holdAll_cons_eq_some.1 hr
    · exact ⟨g, List.mem_cons_self, a, ha, hok⟩
    · obtain ⟨x, hx, hfail⟩ := holdAll_false hgs
      exact ⟨x, List.mem_cons_of_mem g hx, hfail⟩

variable (hask : ∀ o a a', ask o = some a → ask' o = some a' → a.outcome.isOk = a'.outcome.isOk)
include hask

/-- Goals that all hold when they are asked in one order do not fail in another. -/
theorem holdAll_perm {gs gs' : List Goal} (hp : gs'.Perm gs) {b b' met met' : Bool}
    (hr : holdAll ask gs = some (b, met)) (hr' : holdAll ask' gs' = some (b', met')) : b = b' := by
  have hall := holdAll_iff (fun _ _ => askedOk_iff) hr
  have hall' := holdAll_iff (fun _ _ => askedOk_iff) hr'
  -- The goal that fails in the one order was asked in the other as well, where all of them hold.
  cases b with
  | true =>
    cases b' with
    | true => rfl
    | false =>
      obtain ⟨g, hg, a', ha', hfail⟩ := holdAll_false hr'
      obtain ⟨a, ha, hok⟩ := hall.1 rfl g (hp.mem_iff.1 hg)
      rw [hask g a a' ha ha', hfail] at hok
      cases hok
  | false =>
    cases b' with
    | false => rfl
    | true =>
      obtain ⟨g, hg, a, ha, hfail⟩ := holdAll_false hr
      obtain ⟨a', ha', hok⟩ := hall'.1 rfl g (hp.mem_iff.2 hg)
      rw [← hask g a a' ha ha', hfail] at hok
      cases hok

/-- An implementation applies exactly if the one that it has become does. -/
theorem appliesTo_reordered {goal : Goal} {i j : Impl} (h : i.Reordered j) {is js : List Impl}
    (hi : i ∈ is) (hj : j ∈ js) {r r' : List Selection × Bool}
    (hr : survivors ask goal is = some r) (hr' : survivors ask' goal js = some r') :
    i.AppliesTo goal (AskedOk ask) ↔ j.AppliesTo goal (AskedOk ask') := by
  simp only [Impl.AppliesTo, h.under?_eq]
  refine exists_congr fun s => and_congr_right fun hs => ?_
  obtain ⟨b, met, hq, -⟩ := survivors_answered hs hr hi
  obtain ⟨b', met', hq', -⟩ := survivors_answered ((h.under?_eq goal).trans hs) hr' hj
  obtain rfl : b = b' := holdAll_perm hask (h.obligations.map (·.subst s)) hq hq'
  have hall := holdAll_iff (fun _ _ => askedOk_iff) hq
  have hall' := holdAll_iff (fun _ _ => askedOk_iff) hq'
  rw [List.forall_mem_map] at hall hall'
  exact hall.symm.trans hall'

end

/-- Survivors come with the bindings under which their header is the goal. -/
theorem survivors_under {ask : Goal → Option Answer} {goal : Goal} : ∀ {is : List Impl}
    {r : List Selection × Bool}, survivors ask goal is = some r →
    ∀ s ∈ r.1, s.impl.under? goal = some s.subst
  | [], r, hr, s, hs => by
    obtain rfl : ([], false) = r := by simpa [survivors] using hr
    cases hs
  | i :: is, r, hr, s, hs => by
    cases hi : i.under? goal with
    | none =>
      rw [survivors_cons_of_none hi] at hr
      exact survivors_under hr s hs
    | some s' =>
      obtain ⟨b, met, q, -, hq, rfl⟩ := (survivors_cons_eq_some hi).1 hr
      cases b with
      | false => exact survivors_under hq s hs
      | true =>
        rcases List.mem_cons.1 hs with rfl | hs
        · exact hi
        · exact survivors_under hq s hs

theorem unique_eq_ambiguous : ∀ {found : List Selection}, 2 ≤ found.length →
    unique found = .error .ambiguous
  | [], h | [_], h => by simp at h
  | _ :: _ :: _, _ => rfl

/-- If the survivors are, in any order, the two sides of the same pairs, then the ones that are
selected stand beside each other. -/
theorem unique_beside {pairs kept : List (Impl × Impl)} (hkept : kept ⊆ pairs)
    {found found' : List Selection} (hfst : (found.map (·.impl)).Perm (kept.map Prod.fst))
    (hsnd : (found'.map (·.impl)).Perm (kept.map Prod.snd))
    (hsubst : ∀ s ∈ found, ∀ s' ∈ found', (s.impl, s'.impl) ∈ pairs → s.subst = s'.subst) :
    SameResult (Selection.Beside pairs) (unique found) (unique found') := by
  match kept with
  | [] =>
    obtain rfl := List.map_eq_nil_iff.1 (List.perm_nil.1 hfst)
    obtain rfl := List.map_eq_nil_iff.1 (List.perm_nil.1 hsnd)
    rfl
  | [p] =>
    obtain ⟨s, rfl, hs⟩ := List.map_eq_singleton_iff.1 (List.perm_singleton.1 hfst)
    obtain ⟨s', rfl, hs'⟩ := List.map_eq_singleton_iff.1 (List.perm_singleton.1 hsnd)
    have hpair : (s.impl, s'.impl) ∈ pairs := by
      rw [hs, hs']
      exact hkept List.mem_cons_self
    refine ⟨hpair, congrArg Subst.bare ?_⟩
    exact hsubst s List.mem_cons_self s' List.mem_cons_self hpair
  | p :: q :: ps =>
    have hlen := hfst.length_eq
    have hlen' := hsnd.length_eq
    simp only [List.length_map, List.length_cons] at hlen hlen'
    rw [unique_eq_ambiguous (by omega), unique_eq_ambiguous (by omega)]
    rfl

section
variable {pairs : List (Impl × Impl)} {T T' : TraitTable} (h : T.Reordered pairs T')
include h

/-- The same implementations survive in both orders, if the obligations have the same answers. -/
theorem survivors_reordered {ask ask' : Goal → Option Answer} {goal : Goal}
    {r r' : List Selection × Bool}
    (hask : ∀ o a a', ask o = some a → ask' o = some a' → a.outcome.isOk = a'.outcome.isOk)
    (hr : survivors ask goal T.impls = some r) (hr' : survivors ask' goal T'.impls = some r') :
    SameResult (Selection.Beside pairs) (unique r.1) (unique r'.1) := by
  classical
  have hfst := (h.left.filter fun i => i.AppliesTo goal (AskedOk ask)).symm
  have hsnd := (h.right.filter fun j => j.AppliesTo goal (AskedOk ask')).symm
  rw [← survivors_impls (fun _ _ => askedOk_iff) hr, List.filter_map] at hfst
  rw [← survivors_impls (fun _ _ => askedOk_iff) hr', List.filter_map] at hsnd
  -- The pairs of which the one side applies are those of which the other does.
  have hsame : pairs.filter ((fun j => decide (j.AppliesTo goal (AskedOk ask'))) ∘ Prod.snd) =
      pairs.filter ((fun i => decide (i.AppliesTo goal (AskedOk ask))) ∘ Prod.fst) := by
    refine List.filter_congr fun p hp => ?_
    have hi : p.1 ∈ T.impls := h.left.mem_iff.1 (List.mem_map_of_mem hp)
    have hj : p.2 ∈ T'.impls := h.right.mem_iff.1 (List.mem_map_of_mem hp)
    exact decide_eq_decide.2 (appliesTo_reordered hask (h.same p hp) hi hj hr hr').symm
  rw [hsame] at hsnd
  refine unique_beside (List.filter_subset_self _) hfst hsnd fun s hs s' hs' hpair => ?_
  have hunder := (h.same _ hpair).under?_eq goal
  rw [survivors_under hr s hs, survivors_under hr' s' hs'] at hunder
  exact (Option.some.inj hunder).symm

/-- Where the search comes to an end in both tables it has the same outcome under the same goals. -/
theorem searchFrom_reordered : ∀ {d d' : Nat} {stack : List Key} {g : Goal} {a a' : Answer},
    searchFrom T [] d stack g = some a → searchFrom T' [] d' stack g = some a' →
    SameResult (Selection.Beside pairs) a.outcome a'.outcome
  | 0, _, _, _, _, _, ha, _ => nomatch ha
  | _ + 1, 0, _, _, _, _, _, ha' => nomatch ha'
  | d + 1, d' + 1, stack, g, a, a', ha, ha' => by
    have hat : atOnce? T' [] stack g = atOnce? T [] stack g := by
      simp only [atOnce?, h.trait?_eq]
    cases ho : atOnce? T [] stack g with
    | some c =>
      rw [searchFrom_of_atOnce d ho] at ha
      rw [searchFrom_of_atOnce d' (hat.trans ho)] at ha'
      obtain rfl := Option.some.inj ha
      obtain rfl := Option.some.inj ha'
      obtain rfl | ⟨o, hgiven, -⟩ | ⟨-, rfl⟩ := atOnce?_cases ho
      · rfl
      · cases hgiven
      · rfl
    | none =>
      obtain ⟨e, r, he, hr, rfl⟩ := searchFrom_opens_inv ho ha
      obtain ⟨e', r', he', hr', rfl⟩ := searchFrom_opens_inv (hat.trans ho) ha'
      obtain rfl := Nat.succ.inj he
      obtain rfl := Nat.succ.inj he'
      have hask : ∀ o b b', searchFrom T [] d (g.key :: stack) o = some b →
          searchFrom T' [] d' (g.key :: stack) o = some b' → b.outcome.isOk = b'.outcome.isOk :=
        fun o b b' hb hb' => (searchFrom_reordered hb hb').isOk_eq
      exact survivors_reordered h hask hr hr'

theorem answers_reordered {stack : List Key} {g g' : Goal} {o o' : Outcome} (e : g.bare = g'.bare)
    (ho : Answers T [] stack g o) (ho' : Answers T' [] stack g' o') :
    SameResult (Selection.Beside pairs) o o' := by
  obtain ⟨p, ⟨d', a', ha', rfl⟩, hp⟩ := ho'.congr e.symm
  obtain ⟨d, a, ha, rfl⟩ := ho
  exact (searchFrom_reordered h ha ha').of_bare_eq rfl hp.symm

end
end Select

/-! ## Queries -/

/-- Where both queries are answered their answers are related. -/
def Concur {α : Type} (m m' : Memo) (q q' : Query α) (R : α → α → Prop) : Prop :=
  ∀ ⦃a b : α⦄ ⦃n n' : Memo⦄, q.run m = some (a, n) → q'.run m' = some (b, n') → R a b

/-- On some sound memory a dereference of the type gives `r`, and what it asks is in the set. -/
structure Solver.Dereferences (S : Solver) (A : Goal → Prop) (t : Ty) (r : Option Ty) : Prop where
  within : ∀ g, S.table.derefGoal? t = some g → S.table.Declares g.trait "Target" →
    Select.Within S.table [] A [] g
  gives : ∃ m m', Sound S.table [] A m.cache ∧ (S.derefTarget t).run m = some (r, m')

/-- Walks along dereferences that agree are the same, up to equivalence. -/
theorem Walk.map_bare_eq {D D' : Ty → Option Ty → Prop}
    (hD : ∀ {t t' : Ty} {r r' : Option Ty}, t.bare = t'.bare → D t r → D' t' r' →
      r.map Ty.bare = r'.map Ty.bare)
    {room : Nat} {seen chain : List Ty} {last : Ty} (h : Walk D room seen last chain) :
    ∀ {seen' chain' : List Ty} {last' : Ty}, Walk D' room seen' last' chain' →
      seen.map Ty.bare = seen'.map Ty.bare → last.bare = last'.bare →
      chain.map Ty.bare = chain'.map Ty.bare := by
  have goesOn : ∀ {room : Nat} {seen : List Ty} {next : Ty}, seen.any (·.equiv next) = false →
      Solver.chainEnds seen (room + 1) (some next) = false := by
    intro room seen next new
    simp [Solver.chainEnds, new]
  induction h with
  | ends target stops =>
    intro seen' chain' last' h' es el
    cases h' with
    | ends => rfl
    | step target' new' =>
      rw [Solver.chainEnds_congr es _ (hD el target target'), goesOn new'] at stops
      cases stops
  | step target new _ ih =>
    intro seen' chain' last' h' es el
    cases h' with
    | ends target' stops' =>
      rw [Solver.chainEnds_congr es.symm _ (hD el target target').symm, goesOn new] at stops'
      cases stops'
    | step target' _ goes' =>
      have en := Option.some.inj (hD el target target')
      have hrest := ih goes' (by rw [List.map_cons, List.map_cons, en, es]) en
      rw [List.map_cons, List.map_cons, en, hrest]

namespace Solver
variable {S S' : Solver} {pairs : List (Impl × Impl)} {A A' : Goal → Prop} {m m' : Memo}
  {g g' : Goal} {t t' : Ty}

/-- The loop of a chain is a walk along dereferences on sound memories. -/
theorem run_coercions_walk (hA : Faithful A) (hw : (Ask.coercions t).Within S [] A)
    (hs : Sound S.table [] (UpTo A) m.cache) {chain : List Ty} {n : Memo}
    (hr : (S.coercions t).run m = some (chain, n)) :
    ∃ rest, chain = t :: rest ∧ Walk (S.Dereferences (UpTo A)) (S.chainBound - 1) [t] t rest := by
  obtain ⟨rest, m₁, hrest, rfl⟩ := run_coercions_inv hr
  have hbound := one_le_chainBound (S := S)
  refine ⟨rest, rfl, run_derefsAfter_walk hA.upTo closed_upTo (fun g hg => hw.start hg) ?_ .start
    rfl (by omega) hs hrest⟩
  intro n u last m m' r hn hu e hs hr
  refine ⟨fun g hg hd => ?_, m, m', hs, hr⟩
  obtain ⟨g', hg', eg⟩ := derefGoal?_of_bare_eq e.symm hg
  have hd' : S.table.Declares g'.trait "Target" := Goal.trait_eq_of_bare_eq eg ▸ hd
  exact (hw.start ⟨n, hn, u, hu, hg', hd'⟩).congr closed_upTo eg.symm

variable (h : S.table.Reordered pairs S'.table) (hA : Faithful A) (hA' : Faithful A')
include h hA hA'

section
variable (hs : Sound S.table [] A m.cache) (hs' : Sound S'.table [] A' m'.cache)
include hs hs'

theorem concur_select (e : g.bare = g'.bare) (hw : Within S.table [] A [] g)
    (hw' : Within S'.table [] A' [] g') :
    Concur m m' (S.select g) (S'.select g') (SameResult (Selection.Beside pairs)) := by
  intro o o' n n' hr hr'
  obtain ⟨-, p, hp, hpo⟩ := run_select_sound hA hw hs hr
  obtain ⟨-, p', hp', hpo'⟩ := run_select_sound hA' hw' hs' hr'
  exact (answers_reordered h e hp hp').of_bare_eq hpo.symm hpo'.symm

theorem concur_project {name : Text} (e : g.bare = g'.bare)
    (hw : S.table.Declares g.trait name → Within S.table [] A [] g)
    (hw' : S'.table.Declares g'.trait name → Within S'.table [] A' [] g') :
    Concur m m' (S.project g name) (S'.project g' name)
      (SameResult fun t u => t.bare = u.bare) := by
  intro r r' n n' hr hr'
  have et := Goal.trait_eq_of_bare_eq e
  by_cases hd : S.table.Declares g.trait name
  · have hd' : S'.table.Declares g'.trait name := et ▸ h.declares_iff.2 hd
    rw [project_of_declares hd, Query.run_map_eq_some] at hr
    rw [project_of_declares hd', Query.run_map_eq_some] at hr'
    obtain ⟨o, ho, rfl⟩ := hr
    obtain ⟨o', ho', rfl⟩ := hr'
    exact (concur_select h hA hA' hs hs' e (hw hd) (hw' hd') ho ho').bind
      fun s s' hss => hss.assoc h.same name
  · have hd' : ¬ S'.table.Declares g'.trait name := et ▸ mt h.declares_iff.1 hd
    rw [project_of_not_declares hd] at hr
    rw [project_of_not_declares hd', ← et, h.undeclared_eq] at hr'
    obtain ⟨rfl, -⟩ := Prod.mk.inj (Option.some.inj hr)
    obtain ⟨rfl, -⟩ := Prod.mk.inj (Option.some.inj hr')
    rfl

end

theorem dereferences_agree {r r' : Option Ty} (e : t.bare = t'.bare) (hr : S.Dereferences A t r)
    (hr' : S'.Dereferences A' t' r') : r.map Ty.bare = r'.map Ty.bare := by
  obtain ⟨hw, m, n, hs, hr⟩ := hr
  obtain ⟨hw', m', n', hs', hr'⟩ := hr'
  cases hg : S.table.derefGoal? t with
  | some g =>
    obtain ⟨g', hg', eg⟩ := derefGoal?_of_bare_eq e hg
    rw [← h.derefGoal?_eq] at hg'
    rw [derefTarget_of_goal hg, Query.run_map_eq_some] at hr
    rw [derefTarget_of_goal hg', Query.run_map_eq_some] at hr'
    obtain ⟨p, hp, rfl⟩ := hr
    obtain ⟨p', hp', rfl⟩ := hr'
    exact (concur_project h hA hA' hs hs' eg (hw g hg) (hw' g' hg') hp hp').map_toOption
  | none =>
    by_cases href : ∃ k v, t = .ref k v
    · obtain ⟨k, v, rfl⟩ := href
      obtain ⟨v', rfl, ev⟩ := Ty.eq_ref_of_bare_eq e.symm
      obtain ⟨rfl, -⟩ := Prod.mk.inj (Option.some.inj hr)
      obtain ⟨rfl, -⟩ := Prod.mk.inj (Option.some.inj hr')
      exact congrArg some ev.symm
    · have hn : ∀ k v, t ≠ .ref k v := fun k v ht => href ⟨k, v, ht⟩
      rw [derefTarget_eq_none hg hn rfl] at hr
      rw [derefTarget_eq_none ((h.derefGoal?_eq t).trans hg) hn e] at hr'
      obtain ⟨rfl, -⟩ := Prod.mk.inj (Option.some.inj hr)
      obtain ⟨rfl, -⟩ := Prod.mk.inj (Option.some.inj hr')
      rfl

theorem concur_coercions (hbound : S.bounds.maxDeref = S'.bounds.maxDeref)
    (hs : Sound S.table [] (UpTo A) m.cache) (hs' : Sound S'.table [] (UpTo A') m'.cache)
    (hw : (Ask.coercions t).Within S [] A) (hw' : (Ask.coercions t).Within S' [] A') :
    Concur m m' (S.coercions t) (S'.coercions t) (List.Forall₂ fun u v => u.equiv v = true) := by
  intro chain chain' n n' hr hr'
  obtain ⟨rest, rfl, hwalk⟩ := run_coercions_walk hA hw hs hr
  obtain ⟨rest', rfl, hwalk'⟩ := run_coercions_walk hA' hw' hs' hr'
  have hroom : S'.chainBound = S.chainBound := by rw [chainBound, chainBound, hbound]
  rw [hroom] at hwalk'
  have hrest := hwalk.map_bare_eq (dereferences_agree h hA.upTo hA'.upTo) hwalk' rfl rfl
  exact equiv_of_map_bare_eq (by rw [List.map_cons, List.map_cons, hrest])

end Solver

/-- Whatever was asked before, selections, projections and chains do not depend on the order of the
implementations and on that of their obligations, where both orders come to an end. -/
theorem Session.reordered {S S' : Solver} {pairs : List (Impl × Impl)} {A A' : Goal → Prop}
    {reports reports' : List Log.Event} {m m' : Memo} (h : S.table.Reordered pairs S'.table)
    (hA : Faithful A) (hA' : Faithful A') (hm : Session S.table [] A ⟨[], reports⟩ m)
    (hm' : Session S'.table [] A' ⟨[], reports'⟩ m') :
    (∀ g, (Ask.select g).Within S [] A → (Ask.select g).Within S' [] A' →
      Concur m m' (S.select g) (S'.select g)
        (SameResult fun s s' => (s.impl, s'.impl) ∈ pairs ∧ s.subst.Equiv s'.subst) ∧
      Concur m m' (S.canSelect g) (S'.canSelect g) Eq) ∧
    (∀ g name, (Ask.project g name).Within S [] A → (Ask.project g name).Within S' [] A' →
      Concur m m' (S.project g name) (S'.project g name)
        (SameResult fun t u => t.equiv u = true)) ∧
    (∀ t, S.bounds.maxDeref = S'.bounds.maxDeref →
      (Ask.coercions t).Within S [] A → (Ask.coercions t).Within S' [] A' →
      Concur m m' (S.coercions t) (S'.coercions t)
        (List.Forall₂ fun u v => u.equiv v = true)) := by
  have hs : Sound S.table [] (UpTo A) m.cache := hm.sound hA sound_given
  have hs' : Sound S'.table [] (UpTo A') m'.cache := hm'.sound hA' sound_given
  refine ⟨fun g hw hw' => ?_, fun g name hw hw' => ?_, fun t hbound hw hw' => ?_⟩
  · have hsel : Concur m m' (S.select g) (S'.select g) (SameResult (Selection.Beside pairs)) :=
      Solver.concur_select h hA.upTo hA'.upTo hs hs' rfl (hw.start rfl) (hw'.start rfl)
    constructor
    · intro o o' n n' hr hr'
      exact (hsel hr hr').mono fun s s' hss => ⟨hss.1, Subst.equiv_of_bare_eq hss.2⟩
    · intro b b' n n' hr hr'
      rw [Solver.canSelect_eq, Query.run_map_eq_some] at hr hr'
      obtain ⟨o, ho, rfl⟩ := hr
      obtain ⟨o', ho', rfl⟩ := hr'
      exact (hsel ho ho').isOk_eq
  · intro r r' n n' hr hr'
    exact (Solver.concur_project h hA.upTo hA'.upTo hs hs' rfl (fun hd => hw.start ⟨rfl, hd⟩)
      (fun hd => hw'.start ⟨rfl, hd⟩) hr hr').mono fun t u => (Ty.equiv_iff t u).2
  · exact Solver.concur_coercions h hA hA' hbound hs hs' hw hw'

namespace Sample

/-- The marker holds for a pair if it holds for both of its types, which are asked in turn. -/
def pair : Impl where
  generics := [[84], [85]]
  header := ⟨.tuple [.param [84], .param [85]], marker, []⟩
  assoc := []
  obligations := [⟨.param [84], marker, []⟩, ⟨.param [85], marker, []⟩]

def flipped : Impl := { pair with obligations := pair.obligations.reverse }

def beside : List (Impl × Impl) := (pair, flipped) :: table.impls.map fun i => (i, i)

def forward : Solver := ⟨{ table with impls := beside.map Prod.fst }, ⟨9, 9⟩⟩

def backward : Solver := ⟨{ table with impls := (beside.map Prod.snd).reverse }, ⟨9, 9⟩⟩

theorem reordered_backward : forward.table.Reordered beside backward.table where
  traits := rfl
  known := rfl
  left := .refl _
  right := (List.reverse_perm _).symm
  same := by
    intro p hp
    rcases List.mem_cons.1 hp with rfl | hp
    · exact ⟨rfl, rfl, rfl, List.reverse_perm _⟩
    · obtain ⟨i, -, rfl⟩ := List.mem_map.1 hp
      exact ⟨rfl, rfl, rfl, .refl _⟩

def pairGoals : List Goal :=
  ⟨.tuple [.slice .bool, box .bool], marker, []⟩ :: ⟨.tuple [.bool, box .bool], marker, []⟩ :: goals

theorem faithful_pairGoals : Faithful (Listed pairGoals) := faithful_listed (by decide)

theorem within_pairGoals {S : Solver} (h : S.table.closes pairGoals = true) {g : Goal}
    (hg : g ∈ pairGoals) : (Ask.select g).Within S [] (Listed pairGoals) :=
  .listed h fun _ e => e ▸ upTo_self hg

end Sample

/-- A pair is asked about of which the one type fails in a cycle. In one order nothing is remembered
of that, in the other one the answers for the other type. Another pair is selected in both. -/
theorem Session.reordered_pair : ∃ m m' s s' n n',
    Session Sample.forward.table [] (Listed Sample.pairGoals) ⟨[], []⟩ m ∧ m.cache.length = 0 ∧
    Session Sample.backward.table [] (Listed Sample.pairGoals) ⟨[], []⟩ m' ∧ m'.cache.length = 2 ∧
    (Sample.forward.select ⟨.tuple [.bool, Sample.box .bool], Sample.marker, []⟩).run m =
      some (.ok s, n) ∧
    (Sample.backward.select ⟨.tuple [.bool, Sample.box .bool], Sample.marker, []⟩).run m' =
      some (.ok s', n') ∧
    (s.impl, s'.impl) ∈ Sample.beside ∧ s.subst.Equiv s'.subst := by
  have hw : ∀ g ∈ Sample.pairGoals,
      (Ask.select g).Within Sample.forward [] (Listed Sample.pairGoals) :=
    fun g => Sample.within_pairGoals (by decide)
  have hw' : ∀ g ∈ Sample.pairGoals,
      (Ask.select g).Within Sample.backward [] (Listed Sample.pairGoals) :=
    fun g => Sample.within_pairGoals (by decide)
  have h : Session Sample.forward.table [] (Listed Sample.pairGoals) ⟨[], []⟩ _ :=
    .ask (.select ⟨.tuple [.slice .bool, Sample.box .bool], Sample.marker, []⟩)
      Sample.forward.bounds .refl (hw _ (by simp [Sample.pairGoals])) rfl
  have h' : Session Sample.backward.table [] (Listed Sample.pairGoals) ⟨[], []⟩ _ :=
    .ask (.select ⟨.tuple [.slice .bool, Sample.box .bool], Sample.marker, []⟩)
      Sample.backward.bounds .refl (hw' _ (by simp [Sample.pairGoals])) rfl
  obtain ⟨hsel, -⟩ := (Session.reordered Sample.reordered_backward Sample.faithful_pairGoals
    Sample.faithful_pairGoals h h').1 ⟨.tuple [.bool, Sample.box .bool], Sample.marker, []⟩
    (hw _ (by simp [Sample.pairGoals])) (hw' _ (by simp [Sample.pairGoals]))
  have hpair := @hsel (.ok _) (.ok _) _ _ rfl rfl
  exact ⟨_, _, _, _, _, _, h, rfl, h', rfl, rfl, rfl, hpair⟩

end Mismatch
