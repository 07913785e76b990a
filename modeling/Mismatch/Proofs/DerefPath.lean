import Mismatch.DerefPath
import Mismatch.Proofs.Oracle

/-!
# Paths rebuild the expected type

A path that is found for a chain names the first type of the chain that is a layer of the expected
type and the references above that layer, so that taking these references to that type gives the
expected type again (`DerefPath.locate_rebuilds`). Chains that are equal up to display text have the
same paths, and a chain that is asked for again is such a chain (`DerefPath.find_rebuilds`).
-/

namespace Mismatch

open Select

/-! ## Layers -/

namespace Ty

/-- The mutabilities of the outer references of a type, from the outermost one. -/
def outerRefs : Ty → List Mutability
  | .ref m t => m :: t.outerRefs
  | _ => []

/-- A layer lies under the first references of the type, and these lead back to the type. -/
theorem layers_spec : ∀ {t : Ty} {l : List Mutability × Ty}, l ∈ t.layers →
    l.1 <+: t.outerRefs ∧ l.1.foldr .ref l.2 = t
  | .ref m t, l, h => by
    rcases List.mem_cons.1 h with rfl | h
    · exact ⟨List.nil_prefix, rfl⟩
    · obtain ⟨k, hk, rfl⟩ := List.mem_map.1 h
      obtain ⟨hp, ht⟩ := layers_spec hk
      exact ⟨List.cons_prefix_cons.2 ⟨rfl, hp⟩, congrArg (Ty.ref m) ht⟩
  | .missing, l, h | .num _, l, h | .prim _, l, h | .adt .., l, h | .tuple _, l, h | .slice _, l, h
  | .param _, l, h | .infer .., l, h | .unknown, l, h | .anon _, l, h => by
    obtain rfl := List.mem_singleton.1 h
    exact ⟨List.nil_prefix, rfl⟩

theorem foldr_ref_bare (ms : List Mutability) (t : Ty) :
    (ms.foldr .ref t).bare = ms.foldr .ref t.bare := by
  induction ms with
  | nil => rfl
  | cons m ms ih => exact congrArg (Ty.ref m) ih

end Ty

namespace DerefPath

/-! ## The path along a chain -/

/-- The path leads to the first type of the chain that is equivalent to a layer of the expected type
and from there, by the references above the layer, to the expected type. -/
structure Rebuilds (p : DerefPath) (expected : Ty) (chain : List Ty) : Prop where
  inside : p.derefs < chain.length
  refs : p.refs <+: expected.outerRefs
  rebuilt : (p.apply chain).equiv expected = true
  layer : ∀ t, chain[p.derefs]? = some t → ∃ l ∈ expected.layers, t.equiv l.2 = true
  least : ∀ n < p.derefs, ∀ t, chain[n]? = some t → ∀ l ∈ expected.layers, t.equiv l.2 = false

theorem locate_eq_some {layers : List (List Mutability × Ty)} {n : Nat} {chain : List Ty}
    {p : DerefPath} (h : locate layers n chain = some p) : ∃ before t after, ∃ l ∈ layers,
      chain = before ++ t :: after ∧ p = ⟨n + before.length, l.1⟩ ∧ t.equiv l.2 = true ∧
      ∀ u ∈ before, ∀ k ∈ layers, u.equiv k.2 = false := by
  induction chain generalizing n with
  | nil => cases h
  | cons t ts ih =>
    unfold locate at h
    cases hf : layers.find? fun l => t.equiv l.2 with
    | some l =>
      rw [hf] at h
      obtain rfl := Option.some.inj h
      exact ⟨[], t, ts, l, List.mem_of_find?_eq_some hf, rfl, rfl,
        by simpa using List.find?_some hf, fun u hu => nomatch hu⟩
    | none =>
      rw [hf] at h
      obtain ⟨before, u, after, l, hl, rfl, rfl, hul, hb⟩ := ih h
      refine ⟨t :: before, u, after, l, hl, rfl, ?_, hul, fun v hv k hk => ?_⟩
      · rw [List.length_cons, Nat.add_assoc, Nat.add_comm 1]
      · rcases List.mem_cons.1 hv with rfl | hv
        · simpa using List.find?_eq_none.1 hf k hk
        · exact hb v hv k hk

theorem locate_rebuilds {expected : Ty} {chain : List Ty} {p : DerefPath}
    (h : locate expected.layers 0 chain = some p) : p.Rebuilds expected chain := by
  obtain ⟨before, t, after, l, hl, rfl, rfl, htl, hb⟩ := locate_eq_some h
  obtain ⟨hpre, hfold⟩ := Ty.layers_spec hl
  have hget : (before ++ t :: after)[0 + before.length]? = some t := by simp
  refine ⟨by simp, hpre, ?_, fun u hu => ?_, fun n hn u hu => ?_⟩
  · simp only [apply, hget]
    rw [Ty.equiv_iff, Ty.foldr_ref_bare, (Ty.equiv_iff t l.2).1 htl, ← Ty.foldr_ref_bare, hfold]
  · obtain rfl := Option.some.inj (hget.symm.trans hu)
    exact ⟨l, hl, htl⟩
  · rw [Nat.zero_add] at hn
    rw [List.getElem?_append_left hn] at hu
    exact hb u (List.mem_of_getElem? hu)

/-- A chain may be replaced by one that is equal up to display text. -/
theorem Rebuilds.congr {p : DerefPath} {expected : Ty} {chain chain' : List Ty}
    (h : p.Rebuilds expected chain) (e : chain'.map Ty.bare = chain.map Ty.bare) :
    p.Rebuilds expected chain' := by
  have hlen : chain'.length = chain.length := by
    simpa only [List.length_map] using congrArg List.length e
  have hget : ∀ (n : Nat) (t' : Ty), chain'[n]? = some t' →
      ∃ t, chain[n]? = some t ∧ t'.bare = t.bare := by
    intro n t' ht'
    have hn := congrArg (·[n]?) e
    simp only [List.getElem?_map, ht', Option.map_some] at hn
    obtain ⟨t, ht, hb⟩ := Option.map_eq_some_iff.1 hn.symm
    exact ⟨t, ht, hb.symm⟩
  refine ⟨hlen ▸ h.inside, h.refs, ?_, fun t' ht' => ?_, fun n hn t' ht' l hl => ?_⟩
  · obtain ⟨t', ht'⟩ : ∃ t', chain'[p.derefs]? = some t' :=
      ⟨_, List.getElem?_eq_getElem (hlen ▸ h.inside)⟩
    obtain ⟨t, ht, hb⟩ := hget _ t' ht'
    have hr := h.rebuilt
    simp only [apply, ht, ht', Ty.equiv_iff, Ty.foldr_ref_bare] at hr ⊢
    rw [hb, hr]
  · obtain ⟨t, ht, hb⟩ := hget _ t' ht'
    obtain ⟨l, hl, htl⟩ := h.layer t ht
    exact ⟨l, hl, by rw [Ty.equiv_iff, hb, ← Ty.equiv_iff, htl]⟩
  · obtain ⟨t, ht, hb⟩ := hget _ t' ht'
    have hf := h.least n hn t ht l hl
    rw [← Ty.bare_equiv, ← hb, Ty.bare_equiv] at hf
    exact hf

/-! ## The path between types -/

variable {S : Solver} {expected actual : Ty} {e : Expr} {m m' : Memo} {p : DerefPath}

theorem ensures_find {given : Cache} {A : Goal → Prop} {l : Memo} (hA : Faithful A)
    (hl : Sound S.table given (UpTo A) l.cache) (hw : (Ask.coercions actual).Within S given A) :
    Ensures S given A (find S expected actual e) fun r => ∀ p, r = some p →
      Yields l (fun d => (S.deepen d).coercions actual) (p.Rebuilds expected) := by
  refine (Solver.ensures_coercions hA hl hw).bind fun chain hchain => ?_
  cases hp : locate expected.layers 0 chain with
  | none => exact .report (.pure fun p hp => nomatch hp)
  | some q =>
    show Ensures S given A (if _ then _ else _) _
    split
    · exact .report (.pure fun p hp => nomatch hp)
    · refine .report (.pure fun p hq => ?_)
      obtain rfl := Option.some.inj hq
      exact hchain.mono fun c hc => (locate_rebuilds hp).congr hc

/-- A path that is found rebuilds the expected type from the chain of the actual one. The chain may
be asked for where the path was, or after it in any later session with the same table. -/
theorem find_rebuilds {A : Goal → Prop} (hA : Faithful A)
    (hw : (Ask.coercions actual).Within S m.cache A)
    (hr : (find S expected actual e).run m = some (some p, m')) {m'' : Memo}
    (hm : m'' = m ∨ Session S.table m.cache A m' m'') :
    Yields m'' (fun d => (S.deepen d).coercions actual) (p.Rebuilds expected) := by
  have hfind := Ensures.later hA (fun l hl => ensures_find hA hl hw) hr hm
  exact hfind p rfl

theorem find_rebuilds_box : ∃ p m', (find Sample.solver (.shared .bool) (Sample.box .bool)
      (.ofText [120])).run ⟨[], []⟩ = some (some p, m') ∧ p.derefs = 1 ∧ p.refs = [.immutable] ∧
    Yields m' (fun d => (Sample.solver.deepen d).coercions (Sample.box .bool))
      (p.Rebuilds (.shared .bool)) := by
  have hw : (Ask.coercions (Sample.box .bool)).Within Sample.solver [] (Listed Sample.goals) := by
    refine .listed Sample.closes_goals fun g hg => ?_
    obtain ⟨n, -, u, hu, hg, -⟩ := hg
    rcases Sample.reaches_box hu with rfl | rfl <;> obtain rfl := Option.some.inj hg
    · exact Sample.listed (by simp [Sample.goals])
    · exact Sample.listed (by simp [Sample.goals])
  have hp :
      ((find Sample.solver (.shared .bool) (Sample.box .bool) (.ofText [120])).run ⟨[], []⟩).map
        (·.1.map fun p => (p.derefs, p.refs)) = some (some (1, [.immutable])) := by decide +kernel
  obtain ⟨⟨r, m'⟩, hr, hp⟩ := Option.map_eq_some_iff.1 hp
  obtain ⟨p, rfl, hpath⟩ := Option.map_eq_some_iff.1 hp
  obtain ⟨hd, hrefs⟩ := Prod.mk.inj hpath
  exact ⟨p, m', hr, hd, hrefs, find_rebuilds Sample.faithful_goals hw hr (.inr .refl)⟩

end DerefPath
end Mismatch
