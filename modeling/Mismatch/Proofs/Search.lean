import Mismatch.Proofs.Bare
import Mismatch.Trait.Select

/-!
# The search without a memory

`Select.search` answers a goal as `Select.solve` does, but remembers nothing. It is the case of
`Select.searchFrom` in which no answers are given beforehand; given answers stand for what a table
has in its memory when a history of queries starts.

A search that comes to an end gives the same answer at every greater depth (`searchFrom_mono`), and
equivalent goals have equivalent answers (`searchFrom_congr`). `Asks` says which goals come up in
the course of a search.
-/

namespace Mismatch

/-- The bindings under which the implementation is one of the goal's trait and its header is the
goal. -/
def Impl.under? (i : Impl) (g : Goal) : Option Subst :=
  if i.header.trait == g.trait then i.match? g else none

theorem Impl.under?_congr (i : Impl) {g h : Goal} (e : g.bare = h.bare) :
    (i.under? g).map Subst.bare = (i.under? h).map Subst.bare := by
  have hm : (i.match? g).map Subst.bare = (i.match? h).map Subst.bare := by
    rw [← match?_bare, ← match?_bare, e]
  simp only [under?, Goal.trait_eq_of_bare_eq e]
  split
  · exact hm
  · rfl

/-- The answer with the bare form of its outcome. -/
def Answer.bare (a : Answer) : Answer := ⟨a.outcome.bare, a.metCycle⟩

theorem Answer.bare_eq_iff {a b : Answer} :
    a.bare = b.bare ↔ a.outcome.bare = b.outcome.bare ∧ a.metCycle = b.metCycle := by
  simp [bare]

theorem Answer.isOk_eq_of_bare_eq {a b : Answer} (e : a.bare = b.bare) :
    a.outcome.isOk = b.outcome.isOk :=
  Outcome.isOk_eq_of_bare_eq (Answer.bare_eq_iff.1 e).1

namespace Select

/-- The answer to a goal that has one before any implementation is tried: its trait is unknown, or
its answer is given, or it is on the stack. -/
def atOnce? (T : TraitTable) (given : Cache) (stack : List Key) (goal : Goal) : Option Answer :=
  match T.trait? goal.trait with
  | none => some ⟨.error .unknownTrait, false⟩
  | some _ =>
    match given.lookup goal.key with
    | some outcome => some ⟨outcome, false⟩
    | none => if stack.contains goal.key then some ⟨.error .cycle, true⟩ else none

/-- Answers a goal from the given answers, at most `depth` goals deep and under the goals whose keys
are on `stack`. Nothing that is found out on the way is remembered. -/
def searchFrom (T : TraitTable) (given : Cache) :
    (depth : Nat) → (stack : List Key) → Goal → Option Answer
  | 0, _, _ => none
  | depth + 1, stack, goal =>
    match atOnce? T given stack goal with
    | some a => some a
    | none =>
      (survivors (searchFrom T given depth (goal.key :: stack)) goal T.impls).map
        fun r => ⟨unique r.1, r.2⟩

/-- Answers a goal without any memory. -/
def search (T : TraitTable) : (depth : Nat) → (stack : List Key) → Goal → Option Answer :=
  searchFrom T []

theorem atOnce?_eq_none_iff {T : TraitTable} {given : Cache} {stack : List Key} {goal : Goal} :
    atOnce? T given stack goal = none ↔
      T.trait? goal.trait ≠ none ∧ given.lookup goal.key = none ∧ goal.key ∉ stack := by
  simp only [atOnce?]
  cases T.trait? goal.trait with
  | none => simp
  | some d => cases given.lookup goal.key <;> simp

theorem atOnce?_cases {T : TraitTable} {given : Cache} {stack : List Key} {goal : Goal} {a : Answer}
    (h : atOnce? T given stack goal = some a) :
    a = ⟨.error .unknownTrait, false⟩ ∨
      (∃ o, given.lookup goal.key = some o ∧ a = ⟨o, false⟩) ∨
      (goal.key ∈ stack ∧ a = ⟨.error .cycle, true⟩) := by
  simp only [atOnce?] at h
  cases ht : T.trait? goal.trait with
  | none =>
    rw [ht] at h
    exact .inl (Option.some.inj h).symm
  | some d =>
    simp only [ht] at h
    cases hk : given.lookup goal.key with
    | some o =>
      rw [hk] at h
      exact .inr (.inl ⟨o, rfl, (Option.some.inj h).symm⟩)
    | none =>
      simp only [hk, List.contains_iff_mem] at h
      split at h
      · exact .inr (.inr ⟨‹_›, (Option.some.inj h).symm⟩)
      · cases h

theorem searchFrom_of_opens {T : TraitTable} {given : Cache} {depth : Nat} {stack : List Key}
    {goal : Goal} {r : List Selection × Bool} (opens : atOnce? T given stack goal = none)
    (hr : survivors (searchFrom T given depth (goal.key :: stack)) goal T.impls = some r) :
    searchFrom T given (depth + 1) stack goal = some ⟨unique r.1, r.2⟩ := by
  simp only [searchFrom, opens, hr, Option.map_some]

theorem searchFrom_of_atOnce {T : TraitTable} {given : Cache} (depth : Nat) {stack : List Key}
    {goal : Goal} {a : Answer} (h : atOnce? T given stack goal = some a) :
    searchFrom T given (depth + 1) stack goal = some a := by
  simp only [searchFrom, h]

/-- The search goes as `solve` does, but looks nothing up and remembers nothing. -/
theorem search_succ (T : TraitTable) (depth : Nat) (stack : List Key) (goal : Goal) :
    search T (depth + 1) stack goal =
      match T.trait? goal.trait with
      | none => some ⟨.error .unknownTrait, false⟩
      | some _ =>
        if stack.contains goal.key then some ⟨.error .cycle, true⟩
        else (survivors (search T depth (goal.key :: stack)) goal T.impls).map
          fun r => ⟨unique r.1, r.2⟩ := by
  simp only [search, searchFrom, atOnce?, List.lookup_nil]
  cases T.trait? goal.trait with
  | none => rfl
  | some d => cases stack.contains goal.key <;> rfl

/-! ## One step of the loops -/

section
variable {m : Type → Type} [Monad m] [LawfulMonad m] {ask : Goal → m Answer} {g : Goal}
  {gs : List Goal} {i : Impl} {is : List Impl}

theorem holdAll_cons :
    holdAll ask (g :: gs) = ask g >>= fun a =>
      if a.outcome.isOk then (fun r => (r.1, a.metCycle || r.2)) <$> holdAll ask gs
      else pure (false, a.metCycle) := by
  simp only [holdAll, map_eq_pure_bind]
  congr 1
  funext a
  cases a.outcome <;> rfl

omit [LawfulMonad m] in
theorem survivors_cons_of_none (h : i.under? g = none) :
    survivors ask g (i :: is) = survivors ask g is := by
  simp only [Impl.under?] at h
  simp only [survivors, h]

theorem survivors_cons_of_some {s : Subst} (h : i.under? g = some s) :
    survivors ask g (i :: is) =
      holdAll ask (i.obligations.map (·.subst s)) >>= fun r =>
        (fun q => (if r.1 then ⟨i, s⟩ :: q.1 else q.1, r.2 || q.2)) <$> survivors ask g is := by
  simp only [Impl.under?] at h
  simp only [survivors, h, map_eq_pure_bind]

end

section
variable {ask : Goal → Option Answer} {g : Goal} {gs : List Goal} {i : Impl} {is : List Impl}

/-- The first goal is asked, and the others are if it holds. -/
theorem holdAll_cons_eq_some {b met : Bool} : holdAll ask (g :: gs) = some (b, met) ↔
    ∃ a, ask g = some a ∧ (a.outcome.isOk = false ∧ b = false ∧ met = a.metCycle ∨
      a.outcome.isOk = true ∧ ∃ later, holdAll ask gs = some (b, later) ∧
        met = (a.metCycle || later)) := by
  simp only [holdAll_cons, Option.bind_eq_bind, Option.map_eq_map, Option.bind_eq_some_iff]
  refine exists_congr fun a => and_congr_right fun _ => ?_
  cases a.outcome.isOk with
  | false => simp [eq_comm]
  | true =>
    simp only [if_true, Option.map_eq_some_iff, Prod.exists, Prod.mk.injEq, reduceCtorEq,
      false_and, true_and, false_or]
    constructor
    · rintro ⟨b, later, hgs, rfl, rfl⟩
      exact ⟨later, hgs, rfl⟩
    · rintro ⟨later, hgs, rfl⟩
      exact ⟨b, later, hgs, rfl, rfl⟩

/-- The obligations of the first implementation are asked, and then the others are tried. -/
theorem survivors_cons_eq_some {s : Subst} (h : i.under? g = some s)
    {r : List Selection × Bool} : survivors ask g (i :: is) = some r ↔
    ∃ b met q, holdAll ask (i.obligations.map (·.subst s)) = some (b, met) ∧
      survivors ask g is = some q ∧
      r = (if b then ⟨i, s⟩ :: q.1 else q.1, met || q.2) := by
  simp only [survivors_cons_of_some h, Option.bind_eq_bind, Option.map_eq_map,
    Option.bind_eq_some_iff, Option.map_eq_some_iff]
  constructor
  · rintro ⟨⟨b, met⟩, ho, q, hq, rfl⟩
    exact ⟨b, met, q, ho, hq, rfl⟩
  · rintro ⟨b, met, q, ho, hq, rfl⟩
    exact ⟨(b, met), ho, q, hq, rfl⟩

end

/-! ## The goals that are asked -/

/-- The goals of a list that are asked: each of them if those before it hold. -/
def InTurn (ask : Goal → Option Answer) (gs : List Goal) (g : Goal) : Prop :=
  ∃ before after, gs = before ++ g :: after ∧
    ∀ p ∈ before, ∃ a, ask p = some a ∧ a.outcome.isOk = true

/-- The obligations that are asked when implementations are tried for a goal. -/
def Tried (ask : Goal → Option Answer) (goal : Goal) (is : List Impl) (g : Goal) : Prop :=
  ∃ i ∈ is, ∃ s, i.under? goal = some s ∧ InTurn ask (i.obligations.map (·.subst s)) g

section
variable {ask ask' : Goal → Option Answer} {g : Goal} {gs : List Goal}

theorem InTurn.head : InTurn ask (g :: gs) g := ⟨[], gs, rfl, fun _ hp => nomatch hp⟩

theorem InTurn.tail {a : Answer} (ha : ask g = some a) (hok : a.outcome.isOk = true) {x : Goal}
    (h : InTurn ask gs x) : InTurn ask (g :: gs) x := by
  obtain ⟨before, after, rfl, hb⟩ := h
  refine ⟨g :: before, after, rfl, fun p hp => ?_⟩
  rcases List.mem_cons.1 hp with rfl | hp
  · exact ⟨a, ha, hok⟩
  · exact hb p hp

/-- Goals may be asked in another way that has the same answers. If no cycle was met, only answers
without a cycle have to be the same. -/
theorem holdAll_transfer : ∀ {gs : List Goal} {b met : Bool}, holdAll ask gs = some (b, met) →
    (∀ g a, InTurn ask gs g → ask g = some a → (met = false → a.metCycle = false) →
      ask' g = some a) → holdAll ask' gs = some (b, met)
  | [], _, _, hr, _ => hr
  | g :: gs, b, met, hr, h => by
    obtain ⟨a, ha, ⟨hok, rfl, rfl⟩ | ⟨hok, later, hgs, rfl⟩⟩ := holdAll_cons_eq_some.1 hr
    · exact holdAll_cons_eq_some.2 ⟨a, h g a .head ha id, .inl ⟨hok, rfl, rfl⟩⟩
    · have hgs' := holdAll_transfer hgs fun x c hx hc hm => h x c (hx.tail ha hok) hc fun hmet =>
        hm (Bool.or_eq_false_iff.1 hmet).2
      have ha' := h g a .head ha fun hmet => (Bool.or_eq_false_iff.1 hmet).1
      exact holdAll_cons_eq_some.2 ⟨a, ha', .inr ⟨hok, later, hgs', rfl⟩⟩

theorem survivors_transfer {goal : Goal} : ∀ {is : List Impl} {r : List Selection × Bool},
    survivors ask goal is = some r →
    (∀ g a, Tried ask goal is g → ask g = some a → (r.2 = false → a.metCycle = false) →
      ask' g = some a) → survivors ask' goal is = some r
  | [], _, hr, _ => hr
  | i :: is, r, hr, h => by
    have hlater : ∀ x, Tried ask goal is x → Tried ask goal (i :: is) x := by
      rintro x ⟨j, hj, hx⟩
      exact ⟨j, List.mem_cons_of_mem i hj, hx⟩
    cases hi : i.under? goal with
    | none =>
      rw [survivors_cons_of_none hi] at hr ⊢
      exact survivors_transfer hr fun x c hx => h x c (hlater x hx)
    | some s =>
      obtain ⟨b, met, p, hq, hp, rfl⟩ := (survivors_cons_eq_some hi).1 hr
      have hq' := holdAll_transfer hq fun x c hx hc hm =>
        h x c ⟨i, List.mem_cons_self, s, hi, hx⟩ hc fun hmet => hm (Bool.or_eq_false_iff.1 hmet).1
      have hp' := survivors_transfer hp fun x c hx hc hm =>
        h x c (hlater x hx) hc fun hmet => hm (Bool.or_eq_false_iff.1 hmet).2
      exact (survivors_cons_eq_some hi).2 ⟨b, met, p, hq', hp', rfl⟩

theorem holdAll_mono (h : ∀ g a, ask g = some a → ask' g = some a) {b met : Bool}
    (hr : holdAll ask gs = some (b, met)) : holdAll ask' gs = some (b, met) :=
  holdAll_transfer hr fun g a _ ha _ => h g a ha

theorem survivors_mono (h : ∀ g a, ask g = some a → ask' g = some a) (goal : Goal)
    {is : List Impl} {r : List Selection × Bool} (hr : survivors ask goal is = some r) :
    survivors ask' goal is = some r :=
  survivors_transfer hr fun g a _ ha _ => h g a ha

end

/-! ## Greater depths -/

section
variable {T : TraitTable} {given : Cache}

/-- More depth does not change an answer. -/
theorem searchFrom_mono {d d' : Nat} (hd : d ≤ d') : ∀ {stack : List Key} {g : Goal} {a : Answer},
    searchFrom T given d stack g = some a → searchFrom T given d' stack g = some a := by
  induction d generalizing d' with
  | zero => intro _ _ _ h; simp [searchFrom] at h
  | succ d ih =>
    intro stack g a h
    obtain ⟨d', rfl⟩ : ∃ e, d' = e + 1 := ⟨d' - 1, by omega⟩
    cases ho : atOnce? T given stack g with
    | some c =>
      rw [searchFrom_of_atOnce d ho] at h
      rw [searchFrom_of_atOnce d' ho, h]
    | none =>
      simp only [searchFrom, ho] at h
      obtain ⟨r, hr, rfl⟩ := Option.map_eq_some_iff.1 h
      exact searchFrom_of_opens ho (survivors_mono (fun _ _ => ih (by omega)) g hr)

theorem searchFrom_det {d d' : Nat} {stack : List Key} {g : Goal} {a b : Answer}
    (ha : searchFrom T given d stack g = some a) (hb : searchFrom T given d' stack g = some b) :
    a = b := by
  have ha' := searchFrom_mono (Nat.le_max_left d d') ha
  have hb' := searchFrom_mono (Nat.le_max_right d d') hb
  exact Option.some.inj (ha'.symm.trans hb')

end

/-! ## Equivalent goals -/

section
variable {ask : Goal → Option Answer}

theorem unique_bare : ∀ found : List Selection,
    (unique found).bare = unique (found.map Selection.bare)
  | [] | [_] | _ :: _ :: _ => rfl

theorem holdAll_congr
    (h : ∀ g g' : Goal, g.bare = g'.bare → (ask g).map Answer.bare = (ask g').map Answer.bare) :
    ∀ {gs gs' : List Goal}, gs.map Goal.bare = gs'.map Goal.bare → holdAll ask gs = holdAll ask gs'
  | [], [], _ => rfl
  | [], _ :: _, e | _ :: _, [], e => by simp at e
  | g :: gs, g' :: gs', e => by
    simp only [List.map_cons, List.cons.injEq] at e
    have hg := h g g' e.1
    simp only [holdAll_cons, holdAll_congr h e.2, Option.bind_eq_bind, Option.map_eq_map]
    cases ha : ask g with
    | none =>
      rw [ha, Option.map_none, eq_comm, Option.map_eq_none_iff] at hg
      rw [hg]
    | some a =>
      rw [ha, Option.map_some, eq_comm, Option.map_eq_some_iff] at hg
      obtain ⟨a', ha', hb⟩ := hg
      rw [ha', Option.bind_some, Option.bind_some, Answer.isOk_eq_of_bare_eq hb,
        (Answer.bare_eq_iff.1 hb).2]

/-- The bare forms of the survivors. -/
def bareFound (r : List Selection × Bool) : List Selection × Bool := (r.1.map Selection.bare, r.2)

theorem bareFound_add (b met : Bool) (s : Selection) (q : List Selection × Bool) :
    bareFound (if b then s :: q.1 else q.1, met || q.2) =
      (if b then s.bare :: (bareFound q).1 else (bareFound q).1, met || (bareFound q).2) := by
  cases b <;> rfl

theorem survivors_congr
    (h : ∀ g g' : Goal, g.bare = g'.bare → (ask g).map Answer.bare = (ask g').map Answer.bare)
    {g g' : Goal} (e : g.bare = g'.bare) : ∀ is : List Impl,
    (survivors ask g is).map bareFound = (survivors ask g' is).map bareFound
  | [] => rfl
  | i :: is => by
    have ih := survivors_congr h e is
    have hi := i.under?_congr e
    cases hs : i.under? g with
    | none =>
      rw [hs, Option.map_none, eq_comm, Option.map_eq_none_iff] at hi
      rw [survivors_cons_of_none hs, survivors_cons_of_none hi, ih]
    | some s =>
      rw [hs, Option.map_some, eq_comm, Option.map_eq_some_iff] at hi
      obtain ⟨s', hs', hb⟩ := hi
      have ho : (i.obligations.map (·.subst s)).map Goal.bare =
          (i.obligations.map (·.subst s')).map Goal.bare := by
        simp only [List.map_map, List.map_inj_left, Function.comp]
        exact fun o _ => Goal.subst_bare_congr hb.symm o
      have hsel : Selection.bare ⟨i, s⟩ = Selection.bare ⟨i, s'⟩ := by
        simp only [Selection.bare, hb]
      simp only [survivors_cons_of_some hs, survivors_cons_of_some hs', holdAll_congr h ho,
        Option.bind_eq_bind, Option.map_eq_map]
      cases holdAll ask (i.obligations.map (·.subst s')) with
      | none => rfl
      | some r =>
        simp only [Option.bind_some, Option.map_map, Function.comp_def, bareFound_add, hsel]
        simpa only [Option.map_map, Function.comp_def] using congrArg (Option.map fun q =>
          (if r.1 then Selection.bare ⟨i, s'⟩ :: q.1 else q.1, r.2 || q.2)) ih

end

theorem atOnce?_congr (T : TraitTable) (given : Cache) (stack : List Key) {g h : Goal}
    (e : g.bare = h.bare) : atOnce? T given stack g = atOnce? T given stack h := by
  simp only [atOnce?, Goal.trait_eq_of_bare_eq e, Goal.key_eq_of_bare_eq e]

/-- Equivalent goals have equivalent answers. -/
theorem searchFrom_congr (T : TraitTable) (given : Cache) : ∀ (depth : Nat) (stack : List Key)
    {g h : Goal}, g.bare = h.bare →
    (searchFrom T given depth stack g).map Answer.bare =
      (searchFrom T given depth stack h).map Answer.bare
  | 0, _, _, _, _ => rfl
  | depth + 1, stack, g, h, e => by
    simp only [searchFrom, atOnce?_congr T given stack e]
    cases atOnce? T given stack h with
    | some a => rfl
    | none =>
      have hs := survivors_congr
        (fun _ _ => searchFrom_congr T given depth (h.key :: stack)) e T.impls
      have hbare : ∀ r : List Selection × Bool, Answer.bare ⟨unique r.1, r.2⟩ =
          ⟨unique (bareFound r).1, (bareFound r).2⟩ := fun r => by
        simp only [Answer.bare, unique_bare, bareFound]
      simp only [Goal.key_eq_of_bare_eq e, Option.map_map, Function.comp_def, hbare]
      simpa only [Option.map_map, Function.comp_def] using
        congrArg (Option.map fun r => Answer.mk (unique r.1) r.2) hs

theorem searchFrom_of_bare_eq {T : TraitTable} {given : Cache} {depth : Nat} {stack : List Key}
    {g h : Goal} {a : Answer} (e : g.bare = h.bare)
    (ha : searchFrom T given depth stack g = some a) :
    ∃ b, searchFrom T given depth stack h = some b ∧ b.bare = a.bare := by
  have hb := searchFrom_congr T given depth stack e
  rw [ha, Option.map_some, eq_comm, Option.map_eq_some_iff] at hb
  exact hb

/-! ## The goals that come up -/

/-- The goal has the outcome `o` when it is searched for under `stack`. -/
def Answers (T : TraitTable) (given : Cache) (stack : List Key) (g : Goal) (o : Outcome) : Prop :=
  ∃ depth a, searchFrom T given depth stack g = some a ∧ a.outcome = o

/-- The goals that are asked when a goal is searched for under `stack`: the goal itself and, unless
it has an answer at once, the obligations of the implementations whose header it is, each of them if
those before it hold. -/
inductive Asks (T : TraitTable) (given : Cache) : List Key → Goal → Goal → Prop
  | self {stack : List Key} {g : Goal} : Asks T given stack g g
  | obligation {stack : List Key} {g : Goal} {i : Impl} {s : Subst} {before after : List Goal}
      {o h : Goal} (opens : atOnce? T given stack g = none) (mem : i ∈ T.impls)
      (applies : i.under? g = some s) (split : i.obligations = before ++ o :: after)
      (holds : ∀ p ∈ before, ∃ sel, Answers T given (g.key :: stack) (p.subst s) (.ok sel))
      (asked : Asks T given (g.key :: stack) (o.subst s) h) : Asks T given stack g h

section
variable {T : TraitTable} {given : Cache} {stack : List Key} {g h : Goal}

theorem Answers.congr (e : g.bare = h.bare) {o : Outcome} (ha : Answers T given stack g o) :
    ∃ p, Answers T given stack h p ∧ p.bare = o.bare := by
  obtain ⟨depth, a, ha, rfl⟩ := ha
  obtain ⟨b, hb, hab⟩ := searchFrom_of_bare_eq e ha
  exact ⟨b.outcome, ⟨depth, b, hb, rfl⟩, (Answer.bare_eq_iff.1 hab).1⟩

theorem Answers.det {o p : Outcome} (ho : Answers T given stack g o)
    (hp : Answers T given stack g p) : o = p := by
  obtain ⟨_, a, ha, rfl⟩ := ho
  obtain ⟨_, b, hb, rfl⟩ := hp
  rw [searchFrom_det ha hb]

theorem exists_ok_iff {o : Outcome} : (∃ sel, o = .ok sel) ↔ o.isOk = true := by
  cases o <;> simp [Except.isOk, Except.toBool]

theorem Asks.congr {x : Goal} (hx : Asks T given stack g x) (e : g.bare = h.bare) :
    ∃ y, Asks T given stack h y ∧ y.bare = x.bare := by
  induction hx generalizing h with
  | @self stack g => exact ⟨h, .self, e.symm⟩
  | @obligation stack g i s before after o x opens mem applies split holds asked ih =>
    have hi := i.under?_congr e
    rw [applies, Option.map_some, eq_comm, Option.map_eq_some_iff] at hi
    obtain ⟨s', hs', hb⟩ := hi
    have hkey := Goal.key_eq_of_bare_eq e
    obtain ⟨y, hy, hyx⟩ := ih (h := o.subst s') (Goal.subst_bare_congr hb.symm o)
    refine ⟨y, .obligation ?_ mem hs' split ?_ (hkey ▸ hy), hyx⟩
    · rw [← atOnce?_congr T given stack e]
      exact opens
    · intro p hp
      obtain ⟨sel, hsel⟩ := holds p hp
      obtain ⟨o', ho', hbare⟩ := hsel.congr (Goal.subst_bare_congr hb.symm p)
      obtain ⟨sel', rfl⟩ := exists_ok_iff.2 (Outcome.isOk_eq_of_bare_eq hbare)
      exact ⟨sel', hkey ▸ ho'⟩

end

end Select
end Mismatch
