import Mismatch.Proofs.ChainShape

/-!
# The search for a path misses none

The search takes the first type of the chain that is a layer of the expected type, and asks only
then whether the references above that layer may be taken. A type further on could be a layer, too,
under references that may be taken where the first ones may not. But a layer further out means fewer
references, and if a later type were a layer further out, the chain would go on from it, reference
by reference, to the layer that was found first (`choose_isSome_iff`). So nothing is missed where
the dereferences of a type do not come back to an equivalent one (`DerefPath.find_isSome_iff`).
-/

namespace Mismatch

open Select

/-- However far the dereferences of the type go, they never lead back to an equivalent type. -/
def TraitTable.Acyclic (T : TraitTable) (given : Cache) (t : Ty) : Prop :=
  ∀ n k u v, n < k → Reaches T given t n u → Reaches T given t k v → u.equiv v = false

namespace Ty

/-! ## Layers -/

theorem self_mem_layers (t : Ty) : ([], t) ∈ t.layers := by
  cases t <;> exact List.mem_cons_self

/-- The layers of a type are what is left of it under some of its references. -/
theorem mem_layers {t u : Ty} {ms : List Mutability} :
    (ms, u) ∈ t.layers ↔ t = ms.foldr .ref u := by
  refine ⟨fun h => (layers_spec h).2.symm, ?_⟩
  rintro rfl
  induction ms with
  | nil => exact self_mem_layers u
  | cons m ms ih => exact List.mem_cons_of_mem _ (List.mem_map_of_mem ih)

/-- Of two layers of a type one lies under the other. -/
theorem foldr_ref_cases {u v : Ty} : ∀ {ms ns : List Mutability},
    ms.foldr .ref u = ns.foldr .ref v →
    (∃ r, ns = ms ++ r ∧ u = r.foldr .ref v) ∨ ∃ r, r ≠ [] ∧ ms = ns ++ r ∧ v = r.foldr .ref u
  | [], ns, h => .inl ⟨ns, rfl, h⟩
  | m :: ms, [], h => .inr ⟨m :: ms, List.cons_ne_nil m ms, rfl, h.symm⟩
  | m :: ms, n :: ns, h => by
    obtain ⟨rfl, h'⟩ := Ty.ref.inj h
    rcases foldr_ref_cases h' with ⟨r, rfl, hu⟩ | ⟨r, hr, rfl, hv⟩
    · exact .inl ⟨r, rfl, hu⟩
    · exact .inr ⟨r, hr, rfl, hv⟩

theorem isSharedRef_iff {t : Ty} : t.isSharedRef = true ↔ ∃ u, t = .ref .immutable u := by
  cases t with
  | ref m u => cases m <;> simp [isSharedRef]
  | _ => simp [isSharedRef]

theorem any_isSharedRef_eq_false {ts : List Ty} :
    ts.any (·.isSharedRef) = false ↔ ∀ m u, Ty.ref m u ∈ ts → m = .mutable := by
  simp only [List.any_eq_false, isSharedRef_iff]
  constructor
  · intro h m u hu
    cases m with
    | immutable => exact absurd ⟨u, rfl⟩ (h _ hu)
    | mutable => rfl
  · rintro h t ht ⟨u, rfl⟩
    nomatch h _ u ht

end Ty

/-- The dereferences of a reference lead under it. -/
theorem Reaches.through {T : TraitTable} {given : Cache} {t v : Ty} : ∀ {ms : List Mutability}
    {n : Nat} {u : Ty}, Reaches T given t n u → u.bare = (ms.foldr .ref v).bare →
    ∃ w, Reaches T given t (n + ms.length) w ∧ w.bare = v.bare
  | [], _, u, h, e => ⟨u, h, e⟩
  | m :: ms, n, u, h, e => by
    obtain ⟨u', rfl, e'⟩ := Ty.eq_ref_of_bare_eq e
    obtain ⟨w, hw, ew⟩ := (h.step (.ref m u')).through e'
    refine ⟨w, ?_, ew⟩
    rw [List.length_cons, Nat.add_comm ms.length, ← Nat.add_assoc]
    exact hw

namespace DerefPath

/-! ## Ways along a chain -/

/-- The references may be taken to the type of the chain at `d`: none is mutable, or the expression
is a mutable place and all references in the chain up to there are mutable. -/
def MayTake (e : Expr) (chain : List Ty) (d : Nat) (ms : List Mutability) : Prop :=
  Mutability.mutable ∉ ms ∨
    e.mutablePlace = true ∧ ∀ m u, Ty.ref m u ∈ chain.take (d + 1) → m = .mutable

/-- The type of the chain at `d` is what is left of the expected type under the references `ms`, and
these may be taken to it. -/
def Way (expected : Ty) (e : Expr) (chain : List Ty) (d : Nat) (ms : List Mutability) : Prop :=
  (∃ u v, chain[d]? = some u ∧ expected = ms.foldr .ref v ∧ u.equiv v = true) ∧
    MayTake e chain d ms

section
variable {e : Expr} {chain : List Ty} {expected : Ty}

theorem MayTake.mono {d d' : Nat} {ms ms' : List Mutability} (h : MayTake e chain d' ms')
    (hd : d ≤ d') (hms : ms ⊆ ms') : MayTake e chain d ms := by
  refine h.imp (fun hno hm => hno (hms hm)) fun ⟨hplace, hrefs⟩ => ⟨hplace, fun m u hu => ?_⟩
  exact hrefs m u (List.take_subset_take_left chain (Nat.succ_le_succ hd) hu)

theorem mayTake_iff (p : DerefPath) :
    (!(p.needsMut && !p.mayBorrowMut chain e)) = true ↔ MayTake e chain p.derefs p.refs := by
  rw [MayTake, ← Ty.any_isSharedRef_eq_false]
  cases hn : p.needsMut with
  | false =>
    have hno : Mutability.mutable ∉ p.refs := by simpa [needsMut] using hn
    simp [hno]
  | true =>
    have hmem : Mutability.mutable ∈ p.refs := by simpa [needsMut] using hn
    simp [hmem, mayBorrowMut]

/-- If a type of the chain is a layer, the search stops there or before. -/
theorem exists_locate {layers : List (List Mutability × Ty)} {l : List Mutability × Ty} {u : Ty}
    (hl : l ∈ layers) (hu : u.equiv l.2 = true) : ∀ {chain : List Ty} {d n : Nat},
    chain[d]? = some u → ∃ p, locate layers n chain = some p ∧ p.derefs ≤ n + d
  | [], _, _, h => by cases h
  | t :: ts, d, n, h => by
    rw [locate]
    cases hf : layers.find? fun l => t.equiv l.2 with
    | some k => exact ⟨_, rfl, Nat.le_add_right n d⟩
    | none =>
      cases d with
      | zero =>
        obtain rfl := Option.some.inj h
        exact absurd hu (List.find?_eq_none.1 hf l hl)
      | succ d =>
        obtain ⟨p, hp, hd⟩ := exists_locate hl hu (n := n + 1) (d := d) h
        exact ⟨p, hp, by omega⟩

/-- A path is chosen if there is any way along the chain. -/
theorem choose_isSome_iff {T : TraitTable} {given : Cache} {t : Ty}
    (along : Along T given t 0 chain) (acyclic : T.Acyclic given t) :
    (choose expected e chain).isSome = true ↔ ∃ d ms, Way expected e chain d ms := by
  rw [Option.isSome_iff_exists]
  constructor
  · rintro ⟨p, hp⟩
    obtain ⟨hp, htake⟩ := Option.filter_eq_some_iff.1 hp
    obtain ⟨before, u, after, l, hl, rfl, rfl, hul, -⟩ := locate_eq_some hp
    rw [mayTake_iff] at htake
    rw [Nat.zero_add] at htake
    exact ⟨before.length, l.1, ⟨u, l.2, by simp, Ty.mem_layers.1 hl, hul⟩, htake⟩
  · rintro ⟨d, ms, ⟨u, v, hu, hv, huv⟩, htake⟩
    obtain ⟨p, hp, hd⟩ := exists_locate (Ty.mem_layers.2 hv) huv (n := 0) hu
    rw [Nat.zero_add] at hd
    refine ⟨p, Option.filter_eq_some_iff.2 ⟨hp, (mayTake_iff p).2 ?_⟩⟩
    obtain ⟨before, w, after, l, hl, hchain, rfl, hwl, -⟩ := locate_eq_some hp
    simp only [Nat.zero_add] at hd ⊢
    rcases Ty.foldr_ref_cases ((Ty.mem_layers.1 hl).symm.trans hv) with
      ⟨r, rfl, -⟩ | ⟨r, hr, hms, rfl⟩
    · exact htake.mono hd (List.subset_append_left l.1 r)
    · -- The references `r` lead from the later type back to the one found first.
      have hw : chain[before.length]? = some w := by rw [hchain]; simp
      obtain ⟨x, hx, ex⟩ := along.reaches hw
      obtain ⟨y, hy, ey⟩ := along.reaches hu
      obtain ⟨z, hz, ez⟩ := hy.through (ey.trans ((Ty.equiv_iff _ _).1 huv))
      have hpos : 0 < r.length := List.length_pos_of_ne_nil hr
      have hne := acyclic _ _ x z (by omega) hx hz
      have exz : x.bare = z.bare := by rw [ex, (Ty.equiv_iff _ _).1 hwl, ez]
      rw [(Ty.equiv_iff x z).2 exz] at hne
      cases hne

/-- Nothing is to be done where the chain starts with the expected type. -/
theorem choose_of_head {t : Ty} (ht : chain.head? = some t) (h : expected.equiv t = true) :
    choose expected e chain = some ⟨0, []⟩ := by
  obtain ⟨ts, rfl⟩ := List.head?_eq_some_iff.1 ht
  have hself : t.equiv expected = true := by
    rw [Ty.equiv_iff] at h ⊢
    exact h.symm
  have hfind : expected.layers.find? (fun l => t.equiv l.2) = some ([], expected) := by
    cases expected <;> exact List.find?_cons_of_pos hself
  refine Option.filter_eq_some_iff.2 ⟨?_, rfl⟩
  rw [locate, hfind]

end

/-- A path is searched for wherever the chain of the actual type is had. If the dereferences of that
type do not come back to an equivalent one, a path is found exactly if there is a way along the
chain, whenever that is asked for. Between equivalent types it is the one without dereferences and
references. -/
theorem find_isSome_iff {S : Solver} {A : Goal → Prop} {m : Memo} {expected actual : Ty} {e : Expr}
    (hA : Faithful A) (hw : (Ask.coercions actual).Within S m.cache A)
    (acyclic : S.table.Acyclic m.cache actual) :
    ((∃ r, (find S expected actual e).run m = some r) ↔
      ∃ c, (S.coercions actual).run m = some c) ∧
    ∀ r m', (find S expected actual e).run m = some (r, m') →
      (∀ l, Session S.table m.cache A m l → Yields l (fun d => (S.deepen d).coercions actual)
        fun chain => r.isSome = true ↔ ∃ d ms, Way expected e chain d ms) ∧
      (expected.equiv actual = true → r = some ⟨0, []⟩) := by
  refine ⟨⟨?_, ?_⟩, fun r m' hr => ?_⟩
  · rintro ⟨⟨r, m'⟩, hr⟩
    obtain ⟨chain, m₁, hchain, -⟩ := run_find_inv hr
    exact ⟨_, hchain⟩
  · rintro ⟨⟨chain, m'⟩, hchain⟩
    obtain ⟨m₁, h⟩ := run_find hchain
    exact ⟨_, h⟩
  · obtain ⟨chain, m₁, hchain, rfl⟩ := run_find_inv hr
    have hs : Sound S.table m.cache (UpTo A) m.cache := sound_given
    obtain ⟨along, -, -⟩ := Solver.run_coercions_settles hA.upTo closed_upTo
      (fun g hg => hw.start hg) hs hchain
    refine ⟨fun l hl => ?_, fun heq => ?_⟩
    · have hyields := (Solver.ensures_coercions hA (hl.sound hA hs) hw hs hchain).2
      refine hyields.mono fun chain' hc => ?_
      have hsame : choose expected e chain' = choose expected e chain := by
        rw [← choose_bare, hc, choose_bare]
      rw [← hsame]
      exact choose_isSome_iff (along.congr hc) acyclic
    · obtain ⟨rest, m₂, -, rfl⟩ := Solver.run_coercions_inv hchain
      exact choose_of_head rfl heq

end DerefPath

namespace Sample

theorem acyclic_mutBox : table.Acyclic [] mutBox := by
  intro n k u v hlt hu hv
  rcases reaches_mutBox hu with ⟨rfl, rfl⟩ | ⟨rfl, rfl⟩ | ⟨rfl, rfl⟩ <;>
    rcases reaches_mutBox hv with ⟨rfl, rfl⟩ | ⟨rfl, rfl⟩ | ⟨rfl, rfl⟩ <;>
    first | omega | decide +kernel

/-- A mutable place of which only the text is known besides. -/
def place : Expr := { Expr.ofText [120] with mutablePlace := true }

end Sample

/-- From a mutable place that holds a mutable reference to a box the search finds the way to a
mutable reference to what is in the box, and so there is one. -/
theorem DerefPath.find_isSome_iff_mutBox : ∃ p m,
    (find Sample.solver (.ref .mutable .bool) Sample.mutBox Sample.place).run ⟨[], []⟩ =
      some (some p, m) ∧
    (∃ c, (Sample.solver.coercions Sample.mutBox).run ⟨[], []⟩ = some c) ∧
    Yields ⟨[], []⟩ (fun d => (Sample.solver.deepen d).coercions Sample.mutBox) fun chain =>
      ∃ d ms, Way (.ref .mutable .bool) Sample.place chain d ms := by
  have hp : ((find Sample.solver (.ref .mutable .bool) Sample.mutBox Sample.place).run
      ⟨[], []⟩).map (·.1.isSome) = some true := by decide +kernel
  obtain ⟨⟨r, m⟩, hfind, hsome⟩ := Option.map_eq_some_iff.1 hp
  obtain ⟨p, rfl⟩ := Option.isSome_iff_exists.1 hsome
  obtain ⟨hanswered, hways⟩ := find_isSome_iff Sample.faithful_goals
    (show (Ask.coercions Sample.mutBox).Within Sample.solver (Memo.mk [] []).cache _ from
      Sample.within_mutBox) Sample.acyclic_mutBox
  refine ⟨p, m, hfind, hanswered.1 ⟨_, hfind⟩, ?_⟩
  exact ((hways _ _ hfind).1 _ .refl).mono fun chain h => h.1 rfl

end Mismatch
