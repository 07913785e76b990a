import Mismatch.Proofs.Snapshots

/-!
# The shape of a chain

A chain of dereferences starts with its type, goes on with what each of its types dereferences to,
never comes back to an equivalent type, and ends where there is nowhere to go on to or no room left.
`Walk` says this of the part of a chain after a type, in terms of any relation between a type and
what its dereference gives; a run of the loop is such a walk (`Solver.run_derefsAfter_walk`).

With a smaller bound the loop does the same up to where it is cut off, so that it gives the first
types of the longer chain (`Solver.run_coercions_take`). As a path is found in the first types up to
the one that it dereferences to, it stays the same with a greater bound (`DerefPath.choose_take`).
`Solver.coercions_shape` puts these together.
-/

namespace Mismatch

open Select

/-! ## Walks -/

/-- The chain goes on after `last`, by at most `room` types and past those in `seen`. A dereference
of a type gives what `D` relates to it. -/
inductive Walk (D : Ty → Option Ty → Prop) : (room : Nat) → (seen : List Ty) → (last : Ty) →
    List Ty → Prop
  | ends {room : Nat} {seen : List Ty} {last : Ty} {r : Option Ty} (target : D last r)
      (stops : Solver.chainEnds seen room r = true) :
      Walk D room seen last []
  | step {room : Nat} {seen rest : List Ty} {last next : Ty} (target : D last (some next))
      (new : seen.any (·.equiv next) = false) (goes : Walk D room (next :: seen) next rest) :
      Walk D (room + 1) seen last (next :: rest)

/-- What is said of a chain as a whole: it has at most `bound` types, and if it has fewer, its last
type dereferences to nothing or to an equivalent of one in it. -/
structure IsChain (D : Ty → Option Ty → Prop) (bound : Nat) (t : Ty) (chain : List Ty) : Prop where
  start : chain.head? = some t
  target : ∀ (n : Nat) (u v : Ty), chain[n]? = some u → chain[n + 1]? = some v → D u (some v)
  distinct : chain.Pairwise fun u v => u.equiv v = false
  length_le : chain.length ≤ bound
  ends : chain.length < bound → ∀ u, chain.getLast? = some u →
    ∃ r, D u r ∧ ∀ next, r = some next → ∃ v ∈ chain, v.equiv next = true

namespace Walk
variable {D : Ty → Option Ty → Prop} {room : Nat} {seen chain : List Ty} {last t : Ty}

theorem length_le (h : Walk D room seen last chain) : chain.length ≤ room := by
  induction h with
  | ends => exact Nat.zero_le _
  | step _ _ _ ih => exact Nat.succ_le_succ ih

theorem target (h : Walk D room seen last chain) : ∀ {n : Nat} {u v : Ty},
    (last :: chain)[n]? = some u → (last :: chain)[n + 1]? = some v → D u (some v) := by
  induction h with
  | ends => intro n u v _ hv; cases hv
  | step target _ _ ih =>
    intro n u v hu hv
    cases n with
    | zero =>
      obtain rfl := Option.some.inj hu
      obtain rfl := Option.some.inj hv
      exact target
    | succ n => exact ih hu hv

theorem distinct (h : Walk D room seen last chain) :
    (∀ v ∈ seen, ∀ u ∈ chain, v.equiv u = false) ∧
      chain.Pairwise fun u v => u.equiv v = false := by
  induction h with
  | ends => exact ⟨fun _ _ _ hu => (nomatch hu), .nil⟩
  | @step _ seen rest _ next _ new _ ih =>
    obtain ⟨hseen, hrest⟩ := ih
    refine ⟨fun v hv u hu => ?_, .cons (hseen next List.mem_cons_self) hrest⟩
    rcases List.mem_cons.1 hu with rfl | hu
    · simpa using List.any_eq_false.1 new v hv
    · exact hseen v (List.mem_cons_of_mem next hv) u hu

theorem ends_early (h : Walk D room seen last chain) : chain.length < room → ∀ u,
    (last :: chain).getLast? = some u →
    ∃ r, D u r ∧ ∀ next, r = some next → ∃ v ∈ seen ++ chain, v.equiv next = true := by
  induction h with
  | @ends room seen last r target stops =>
    intro hl u hu
    obtain rfl := Option.some.inj hu
    refine ⟨r, target, fun next hr => ?_⟩
    subst hr
    have hroom : room ≠ 0 := Nat.ne_of_gt hl
    obtain ⟨v, hv, he⟩ : ∃ v ∈ seen, v.equiv next = true := by
      simpa [Solver.chainEnds, hroom] using stops
    exact ⟨v, List.mem_append_left _ hv, he⟩
  | @step room seen rest last next target new goes ih =>
    intro hl u hu
    rw [List.getLast?_cons_cons] at hu
    obtain ⟨r, hr, hback⟩ := ih (Nat.lt_of_succ_lt_succ hl) u hu
    refine ⟨r, hr, fun w hw => ?_⟩
    obtain ⟨v, hv, he⟩ := hback w hw
    refine ⟨v, ?_, he⟩
    simp only [List.mem_append, List.mem_cons] at hv ⊢
    tauto

/-- The chain that starts with a type and goes on after it. -/
theorem isChain (h : Walk D room [t] t chain) : IsChain D (room + 1) t (t :: chain) where
  start := rfl
  target _ _ _ := h.target
  distinct := .cons (h.distinct.1 t List.mem_cons_self) h.distinct.2
  length_le := Nat.succ_le_succ h.length_le
  ends hl := h.ends_early (Nat.lt_of_succ_lt_succ hl)

end Walk

/-! ## Runs -/

/-- The solver with another bound on the length of its chains. -/
def Solver.widen (S : Solver) (maxDeref : Nat) : Solver := ⟨S.table, ⟨S.bounds.depth, maxDeref⟩⟩

/-- Asked for on the memory `l`, a dereference of the type gives `r`, up to equivalence. -/
def Solver.Gives (S : Solver) (l : Memo) (t : Ty) (r : Option Ty) : Prop :=
  Yields l (fun d => (S.deepen d).derefTarget t)
    fun r' => Option.Rel (fun u v => u.equiv v = true) r' r

theorem Ty.rel_of_map_bare_eq {r r' : Option Ty} (e : r'.map Ty.bare = r.map Ty.bare) :
    Option.Rel (fun u v => u.equiv v = true) r' r := by
  cases r with
  | none => rw [Option.map_eq_none_iff.1 e]; exact .none
  | some v =>
    obtain ⟨u, rfl, hu⟩ := Option.map_eq_some_iff.1 e
    exact .some ((Ty.equiv_iff u v).2 hu)

namespace Solver
variable {S : Solver} {given : Cache} {A : Goal → Prop} {t : Ty} {m m' l : Memo}
  {chain : List Ty}

theorem derefTarget_widen (S : Solver) (D : Nat) (t : Ty) :
    (S.widen D).derefTarget t = S.derefTarget t := rfl

/-- The loop of a chain is a walk along what its dereferences give. -/
theorem run_derefsAfter_walk {D : Ty → Option Ty → Prop} (hA : Faithful A) (hc : Closed A)
    (hw : ∀ g, DerefAsks S.table given t S.chainBound g → Within S.table given A [] g)
    (hD : ∀ {n : Nat} {u last : Ty} {m m' : Memo} {r : Option Ty}, n < S.chainBound →
      Reaches S.table given t n u → u.bare = last.bare → Sound S.table given A m.cache →
      (S.derefTarget last).run m = some (r, m') → D last r) :
    ∀ {room n : Nat} {u start last : Ty} {seen : List Ty} {m m' : Memo} {chain : List Ty},
    Reaches S.table given t n u → u.bare = last.bare → n + room < S.chainBound →
    Sound S.table given A m.cache →
    (S.derefsAfter start room seen last).run m = some (chain, m') →
    Walk D room seen last chain := by
  intro room n u start last seen m m' chain hu e hn hs hr
  rw [derefsAfter_eq, Query.run_bind_eq_some] at hr
  obtain ⟨r, m₁, hr₁, hr⟩ := hr
  have htarget : D last r := hD (by omega) hu e hs hr₁
  obtain ⟨hleads, d₁, h₁⟩ := run_derefTarget_settles hA hc e
    (fun g hg hd => hw g ⟨n, by omega, u, hu, hg, hd⟩) hs hr₁
  have hs₁ : Sound S.table given A m₁.cache := (h₁ last e).sound (d := S.bounds.depth) hs hr₁
  cases hends : chainEnds seen room r with
  | true =>
    obtain ⟨reports, h⟩ := run_goOn_of_ends (S := S) start hends m₁
    obtain ⟨rfl, rfl⟩ := Prod.mk.inj (Option.some.inj (h.symm.trans hr))
    exact .ends htarget hends
  | false =>
    obtain ⟨next, room', rfl, rfl, hgo⟩ := goOn_of_not_ends (S := S) start hends
    rw [hgo, Query.run_map_eq_some] at hr
    obtain ⟨rest, hrest, rfl⟩ := hr
    obtain ⟨v, hv, hvn⟩ := hleads next rfl
    have new : seen.any (·.equiv next) = false := by simpa [chainEnds] using hends
    exact .step htarget new
      (run_derefsAfter_walk hA hc hw hD (hu.step hv) hvn (by omega) hs₁ hrest)
termination_by room => room

/-- A chain is its type and what the loop gives after it. -/
theorem run_coercions_inv (hr : (S.coercions t).run m = some (chain, m')) : ∃ rest m₁,
    (S.derefsAfter t (S.chainBound - 1) [t] t).run m = some (rest, m₁) ∧ chain = t :: rest := by
  by_cases ht : t = .missing
  · subst ht
    obtain ⟨rfl, rfl⟩ := Prod.mk.inj (Option.some.inj hr)
    refine ⟨[], m, ?_, rfl⟩
    rw [derefsAfter_eq]
    rfl
  · rw [coercions_of_ne_missing ht, Query.run_bind_eq_some] at hr
    obtain ⟨rest, m₁, hrest, hr⟩ := hr
    obtain ⟨rfl, -⟩ := Prod.mk.inj (Option.some.inj hr)
    exact ⟨rest, m₁, hrest, rfl⟩

theorem run_coercions_of_rest {rest : List Ty}
    (hr : (S.derefsAfter t (S.chainBound - 1) [t] t).run m = some (rest, m')) :
    ∃ m₁, (S.coercions t).run m = some (t :: rest, m₁) := by
  by_cases ht : t = .missing
  · subst ht
    rw [derefsAfter_eq] at hr
    obtain ⟨rfl, rfl⟩ := Prod.mk.inj (Option.some.inj hr)
    exact ⟨m, rfl⟩
  · rw [coercions_of_ne_missing ht]
    exact ⟨_, Query.run_bind_eq_some.2 ⟨rest, m', hr, rfl⟩⟩

theorem one_le_chainBound : 1 ≤ S.chainBound := Nat.le_max_right ..

/-- A chain has its shape with regard to what dereferences give on any sound memory. -/
theorem run_coercions_isChain (hA : Faithful A) (hw : (Ask.coercions t).Within S given A)
    (hs : Sound S.table given (UpTo A) m.cache) (hr : (S.coercions t).run m = some (chain, m'))
    (hl : Sound S.table given (UpTo A) l.cache) :
    IsChain (S.Gives l) S.chainBound t chain := by
  obtain ⟨rest, m₁, hrest, rfl⟩ := run_coercions_inv hr
  have hbound := one_le_chainBound (S := S)
  have hwalk : Walk (S.Gives l) (S.chainBound - 1) [t] t rest := by
    refine run_derefsAfter_walk hA.upTo closed_upTo (fun g hg => hw.start hg) ?_ .start rfl
      (by omega) hs hrest
    intro n u last m m' r hn hu e hs hr
    obtain ⟨-, depth, hset⟩ := run_derefTarget_settles hA.upTo closed_upTo e
      (fun g hg hd => hw.start ⟨n, hn, u, hu, hg, hd⟩) hs hr
    exact ((hset last e).yields hl).mono fun r' => Ty.rel_of_map_bare_eq
  simpa only [Nat.sub_add_cancel hbound] using hwalk.isChain

/-! ## Smaller bounds -/

theorem chainEnds_anti {seen : List Ty} {room room' : Nat} (hroom : room ≤ room') {r : Option Ty}
    (h : chainEnds seen room' r = true) : chainEnds seen room r = true := by
  cases r with
  | none => rfl
  | some next =>
    simp only [chainEnds, Bool.or_eq_true, beq_iff_eq] at h ⊢
    exact h.imp_right fun h => by omega

/-- With less room the loop gives the first types of what it gives with more. -/
theorem run_derefsAfter_take (D : Nat) {start : Ty} : ∀ {room room' : Nat} {seen : List Ty}
    {last : Ty} {m m' : Memo} {chain : List Ty}, room ≤ room' →
    (S.derefsAfter start room' seen last).run m = some (chain, m') →
    ∃ m₁, ((S.widen D).derefsAfter start room seen last).run m = some (chain.take room, m₁) := by
  intro room room' seen last m m' chain hroom hr
  rw [derefsAfter_eq, Query.run_bind_eq_some] at hr
  obtain ⟨r, m₁, hr₁, hr⟩ := hr
  have goesOn : ∀ {c : List Ty},
      (∃ m₂, ((S.widen D).goOn start room seen r).run m₁ = some (c, m₂)) →
      ∃ m₂, ((S.widen D).derefsAfter start room seen last).run m = some (c, m₂) := by
    rintro c ⟨m₂, h⟩
    rw [derefsAfter_eq, derefTarget_widen]
    exact ⟨m₂, Query.run_bind_eq_some.2 ⟨r, m₁, hr₁, h⟩⟩
  refine goesOn ?_
  cases hends : chainEnds seen room r with
  | true =>
    obtain ⟨reports, h⟩ := run_goOn_of_ends (S := S.widen D) start hends m₁
    suffices hnil : chain.take room = [] from ⟨_, hnil ▸ h⟩
    cases hends' : chainEnds seen room' r with
    | true =>
      obtain ⟨reports', h'⟩ := run_goOn_of_ends (S := S) start hends' m₁
      obtain ⟨rfl, -⟩ := Prod.mk.inj (Option.some.inj (h'.symm.trans hr))
      rw [List.take_nil]
    | false =>
      -- The longer chain goes on, so that this one ends for want of room.
      obtain ⟨next, k, rfl, -, -⟩ := goOn_of_not_ends (S := S) start hends'
      have hseen : seen.any (·.equiv next) = false := by
        simp only [chainEnds, Bool.or_eq_false_iff] at hends'
        exact hends'.1
      obtain rfl : room = 0 := by simpa [chainEnds, hseen] using hends
      rw [List.take_zero]
  | false =>
    have hends' : chainEnds seen room' r = false :=
      Bool.eq_false_iff.2 fun h => by rw [chainEnds_anti hroom h] at hends; cases hends
    obtain ⟨next, k, rfl, rfl, hgo⟩ := goOn_of_not_ends (S := S.widen D) start hends
    obtain ⟨next', k', hn, rfl, hgo'⟩ := goOn_of_not_ends (S := S) start hends'
    obtain rfl := Option.some.inj hn
    rw [hgo', Query.run_map_eq_some] at hr
    obtain ⟨rest, hrest, rfl⟩ := hr
    obtain ⟨m₂, h⟩ := run_derefsAfter_take D (Nat.le_of_succ_le_succ hroom) hrest
    rw [hgo]
    exact ⟨m₂, Query.run_map_eq_some.2 ⟨_, h, rfl⟩⟩
termination_by room => room

/-- With a smaller bound the chain of a type has the first of its types. -/
theorem run_coercions_take {D : Nat} (hD : D ≤ S.bounds.maxDeref)
    (hr : (S.coercions t).run m = some (chain, m')) :
    ∃ m₁, ((S.widen D).coercions t).run m = some (chain.take (max D 1), m₁) := by
  obtain ⟨rest, m₁, hrest, rfl⟩ := run_coercions_inv hr
  have hbound : (S.widen D).chainBound = max D 1 := rfl
  have hroom : (S.widen D).chainBound - 1 ≤ S.chainBound - 1 := by
    rw [hbound, chainBound]
    omega
  obtain ⟨m₂, h⟩ := run_derefsAfter_take D hroom hrest
  obtain ⟨m₃, h⟩ := run_coercions_of_rest h
  refine ⟨m₃, h.trans ?_⟩
  rw [hbound, ← List.take_succ_cons, Nat.sub_add_cancel (Nat.le_max_right ..)]

theorem within_widen {D : Nat} (hD : D ≤ S.bounds.maxDeref)
    (hw : (Ask.coercions t).Within S given A) :
    (Ask.coercions t).Within (S.widen D) given A := by
  rintro x ⟨g, ⟨n, hn, u, hu⟩, hx⟩
  have hbound : n < max D 1 := hn
  exact hw x ⟨g, ⟨n, by rw [chainBound]; omega, u, hu⟩, hx⟩

end Solver

/-! ## Paths -/

namespace DerefPath

theorem locate_take {layers : List (List Mutability × Ty)} {p : DerefPath} : ∀ {n k : Nat}
    {chain : List Ty}, locate layers n (chain.take k) = some p →
    locate layers n chain = some p ∧ p.derefs < n + k
  | n, 0, chain, h => by rw [List.take_zero] at h; cases h
  | n, k + 1, [], h => by cases h
  | n, k + 1, t :: ts, h => by
    rw [List.take_succ_cons, locate] at h
    rw [locate]
    cases hf : layers.find? fun l => t.equiv l.2 with
    | some l =>
      rw [hf] at h
      obtain rfl := Option.some.inj h
      exact ⟨rfl, by dsimp only; omega⟩
    | none =>
      rw [hf] at h
      obtain ⟨hl, hd⟩ := locate_take h
      exact ⟨hl, by omega⟩

/-- A path in the first types of a chain is the path in the chain. -/
theorem choose_take {expected : Ty} {e : Expr} {chain : List Ty} {k : Nat} {p : DerefPath}
    (h : choose expected e (chain.take k) = some p) : choose expected e chain = some p := by
  obtain ⟨hl, hp⟩ := Option.filter_eq_some_iff.1 h
  obtain ⟨hl, hd⟩ := locate_take hl
  refine Option.filter_eq_some_iff.2 ⟨hl, ?_⟩
  rw [mayBorrowMut, List.take_take, Nat.min_eq_left (by omega)] at hp
  exact hp

/-- A path is found where the chain is had, and it is the one in the chain. -/
theorem run_find {S : Solver} {expected actual : Ty} {e : Expr} {m m' : Memo} {chain : List Ty}
    (hr : (S.coercions actual).run m = some (chain, m')) :
    ∃ m₁, (find S expected actual e).run m = some (choose expected e chain, m₁) := by
  obtain ⟨tell, hfind, htell⟩ := exists_find_eq expected actual e
  obtain ⟨reports, h⟩ := htell chain m'
  exact ⟨_, by rw [hfind, Query.run_bind_eq_some]; exact ⟨chain, m', hr, h⟩⟩

theorem run_find_inv {S : Solver} {expected actual : Ty} {e : Expr} {m m' : Memo}
    {r : Option DerefPath} (hr : (find S expected actual e).run m = some (r, m')) :
    ∃ chain m₁, (S.coercions actual).run m = some (chain, m₁) ∧ r = choose expected e chain := by
  obtain ⟨tell, hfind, htell⟩ := exists_find_eq expected actual e
  rw [hfind, Query.run_bind_eq_some] at hr
  obtain ⟨chain, m₁, hchain, hr⟩ := hr
  obtain ⟨reports, h⟩ := htell chain m₁
  exact ⟨chain, m₁, hchain, (Prod.mk.inj (Option.some.inj (hr.symm.trans h))).1⟩

end DerefPath

namespace Sample

/-- A mutable reference to a box. -/
def mutBox : Ty := .ref .mutable (box .bool)

theorem reaches_mutBox {n : Nat} {u : Ty} (h : Reaches table [] mutBox n u) :
    n = 0 ∧ u = mutBox ∨ n = 1 ∧ u = box .bool ∨ n = 2 ∧ u = .bool := by
  induction h with
  | start => exact .inl ⟨rfl, rfl⟩
  | step _ hl ih =>
    rcases ih with ⟨rfl, rfl⟩ | ⟨rfl, rfl⟩ | ⟨rfl, rfl⟩
    · cases hl with
      | ref => exact .inr (.inl ⟨rfl, rfl⟩)
      | target asks => cases asks
    · exact .inr (.inr ⟨rfl, leads_box hl⟩)
    · exact absurd hl not_leads_bool

theorem within_mutBox : (Ask.coercions mutBox).Within solver [] (Listed goals) := by
  refine .listed closes_goals fun g hg => ?_
  obtain ⟨n, -, u, hu, hg, -⟩ := hg
  rcases reaches_mutBox hu with ⟨-, rfl⟩ | ⟨-, rfl⟩ | ⟨-, rfl⟩
  · cases hg
  · obtain rfl := Option.some.inj hg
    exact listed (by simp [goals])
  · obtain rfl := Option.some.inj hg
    exact listed (by simp [goals])

theorem run_coercions_mutBox : ∃ chain m, (solver.coercions mutBox).run ⟨[], []⟩ =
    some (chain, m) ∧ Ty.equivAll chain [mutBox, box .bool, .bool] = true := by
  have h : ((solver.coercions mutBox).run ⟨[], []⟩).map
      (fun r => Ty.equivAll r.1 [mutBox, box .bool, .bool]) = some true := by decide +kernel
  obtain ⟨⟨chain, m⟩, hr, he⟩ := Option.map_eq_some_iff.1 h
  exact ⟨chain, m, hr, he⟩

end Sample

/-- The chain of a type has its shape with regard to what dereferences give at any time. With a
smaller bound it has the first of its types, the very same on the same memory and equivalent ones at
any time, and a path that is found in it with the smaller bound is found with the greater one. -/
theorem Solver.coercions_shape {S : Solver} {A : Goal → Prop} {m m' l : Memo} {t : Ty}
    {chain : List Ty} (hA : Faithful A) (hw : (Ask.coercions t).Within S m.cache A)
    (hr : (S.coercions t).run m = some (chain, m')) (hl : Session S.table m.cache A m l) :
    IsChain (S.Gives l) (max S.bounds.maxDeref 1) t chain ∧
    ∀ D ≤ S.bounds.maxDeref,
      (∃ m₁, ((S.widen D).coercions t).run m = some (chain.take (max D 1), m₁)) ∧
      Yields l (fun d => ((S.widen D).deepen d).coercions t)
        (List.Forall₂ (fun u v => u.equiv v = true) (chain.take (max D 1))) ∧
      ∀ (expected : Ty) (e : Expr) (p : DerefPath) (m₁ : Memo),
        (DerefPath.find (S.widen D) expected t e).run m = some (some p, m₁) →
        Yields l (fun d => DerefPath.find (S.deepen d) expected t e) (· = some p) := by
  have hs : Sound S.table m.cache (UpTo A) m.cache := sound_given
  have hs' : Sound S.table m.cache (UpTo A) l.cache := hl.sound hA hs
  refine ⟨run_coercions_isChain hA hw hs hr hs', fun D hD => ?_⟩
  obtain ⟨m₁, htake⟩ := run_coercions_take hD hr
  have hrepeat := (ensures_coercions (S := S.widen D) hA hs' (within_widen hD hw) hs htake).2
  refine ⟨⟨m₁, htake⟩, hrepeat.mono fun c => equiv_of_map_bare_eq, ?_⟩
  intro expected e p m₂ hp
  obtain ⟨c, m₃, hc, hchoose⟩ := DerefPath.run_find_inv hp
  obtain ⟨rfl, -⟩ := Prod.mk.inj (Option.some.inj (htake.symm.trans hc))
  obtain ⟨m₄, hfind⟩ : ∃ m₄, (DerefPath.find S expected t e).run m =
      some (DerefPath.choose expected e chain, m₄) := DerefPath.run_find hr
  rw [DerefPath.choose_take hchoose.symm] at hfind
  have hechoes : Echoes S m.cache A (DerefPath.find S expected t e) (fun _ : Unit => True)
      (fun _ d => DerefPath.find (S.deepen d) expected t e) (fun p p' => p' = p) :=
    DerefPath.echoes_find hA rfl rfl rfl hw
  obtain ⟨-, depth, hset⟩ := hechoes hs hfind
  exact (hset () trivial).yields hs'

/-- With room for two types the chain of a mutable reference to a box is cut off, and the path that
is found there is found in the whole chain afterwards. -/
theorem Solver.coercions_shape_mutBox : ∃ chain p m,
    Ty.equivAll chain [Sample.mutBox, Sample.box .bool, .bool] = true ∧
    p.derefs = 1 ∧ p.refs = [.immutable] ∧
    Session Sample.table [] (Listed Sample.goals) ⟨[], []⟩ m ∧
    IsChain (Sample.solver.Gives m) 9 Sample.mutBox chain ∧
    (∃ m₁, ((Sample.solver.widen 2).coercions Sample.mutBox).run ⟨[], []⟩ =
      some (chain.take 2, m₁)) ∧
    Yields m (fun d => DerefPath.find (Sample.solver.deepen d) (.shared (Sample.box .bool))
      Sample.mutBox (.ofText [120])) (· = some p) := by
  obtain ⟨chain, m, hr, he⟩ := Sample.run_coercions_mutBox
  have hm : Session Sample.table [] (Listed Sample.goals) ⟨[], []⟩ m :=
    .ask (.coercions Sample.mutBox) Sample.solver.bounds .refl Sample.within_mutBox
      (Query.run_map_eq_some.2 ⟨_, hr, rfl⟩)
  have hp : ((DerefPath.find (Sample.solver.widen 2) (.shared (Sample.box .bool)) Sample.mutBox
      (.ofText [120])).run ⟨[], []⟩).map (·.1.map fun p => (p.derefs, p.refs)) =
        some (some (1, [.immutable])) := by decide +kernel
  obtain ⟨⟨r, m₁⟩, hfind, hp⟩ := Option.map_eq_some_iff.1 hp
  obtain ⟨p, rfl, hpath⟩ := Option.map_eq_some_iff.1 hp
  obtain ⟨hd, hrefs⟩ := Prod.mk.inj hpath
  obtain ⟨hchain, hprefix⟩ :=
    Solver.coercions_shape Sample.faithful_goals Sample.within_mutBox hr hm
  obtain ⟨htake, -, hfound⟩ := hprefix 2 (by decide)
  exact ⟨chain, p, m, he, hd, hrefs, hm, hchain, htake, hfound _ _ p m₁ hfind⟩

end Mismatch
