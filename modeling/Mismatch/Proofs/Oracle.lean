import Mismatch.Proofs.Session

/-!
# Answers that can be had again

A query that is a step of a longer one is run on a memory that nothing is known of but that it is
sound. `Ensures` says what then holds of its answer; its rules follow the structure of the queries.
For the queries to a table this is, each time, that they have the same answer on another sound
memory `l`, such as the one that the longer query leaves behind.
-/

namespace Mismatch

open Select

/-- On a sound memory the answers of the query satisfy `R` and leave a sound memory. -/
def Ensures (S : Solver) (given : Cache) (A : Goal → Prop) {α : Type} (q : Query α)
    (R : α → Prop) : Prop :=
  ∀ ⦃m m' : Memo⦄ ⦃a : α⦄, Sound S.table given (UpTo A) m.cache → q.run m = some (a, m') →
    Sound S.table given (UpTo A) m'.cache ∧ R a

namespace Ensures
variable {S : Solver} {given : Cache} {A : Goal → Prop} {α β : Type} {q : Query α}
  {k : α → Query β} {R : α → Prop} {R' : β → Prop}

theorem mono (h : Ensures S given A q R) {R' : α → Prop} (hR : ∀ a, R a → R' a) :
    Ensures S given A q R' :=
  Query.Keeps.mono h hR

theorem pure {a : α} (ha : R a) : Ensures S given A (Pure.pure a) R :=
  Query.Keeps.pure ha

theorem bind (h : Ensures S given A q R) (hk : ∀ a, R a → Ensures S given A (k a) R') :
    Ensures S given A (q >>= k) R' :=
  Query.Keeps.bind h hk

theorem report {level : Log.Level} {module : Text} {message : Thunk Text} {q : Query α}
    (h : Ensures S given A q R) :
    Ensures S given A (Query.report level module message >>= fun _ => q) R :=
  Query.Keeps.report h

/-- What holds of an answer relative to every sound memory holds relative to the one on which the
query was put and relative to those of later sessions. -/
theorem later {R : Memo → α → Prop} {m m' m'' : Memo} {a : α} (hA : Faithful A)
    (h : ∀ l : Memo, Sound S.table m.cache (UpTo A) l.cache → Ensures S m.cache A q (R l))
    (hr : q.run m = some (a, m')) (hm : m'' = m ∨ Session S.table m.cache A m' m'') : R m'' a := by
  have hs : Sound S.table m.cache (UpTo A) m.cache := sound_given
  rcases hm with rfl | hm
  · exact (h _ hs hs hr).2
  · have hs' : Sound S.table m.cache (UpTo A) m'.cache := (h m hs hs hr).1
    exact (h m'' (hm.sound hA hs') hs hr).2

end Ensures

/-- In the chain of the goal's type, the first type for which the goal is selected projects to a
type equivalent to `t`. -/
def ProjectsFirst (S : Solver) (l : Memo) (g : Goal) (name : Text) (t : Ty) : Prop :=
  Yields l (fun d => (S.deepen d).coercions g.self) fun chain =>
    ∃ before u after, chain = before ++ u :: after ∧
      (∀ x ∈ before, Yields l (fun d => (S.deepen d).canSelect (g.about x)) (· = false)) ∧
      Yields l (fun d => (S.deepen d).canSelect (g.about u)) (· = true) ∧
      Yields l (fun d => (S.deepen d).project (g.about u) name) fun r =>
        ∃ t', r = .ok t' ∧ t'.equiv t = true

namespace Solver
variable {S : Solver} {given : Cache} {A : Goal → Prop} {g : Goal} {t : Ty} {name : Text} {l : Memo}
  (hA : Faithful A) (hl : Sound S.table given (UpTo A) l.cache)
include hA hl

theorem ensures_canSelect (hw : (Ask.canSelect g).Within S given A) :
    Ensures S given A (S.canSelect g) fun b =>
      Yields l (fun d => (S.deepen d).canSelect g) (· = b) := by
  intro m m' b hs hr
  obtain ⟨hs', p, hp, rfl⟩ := run_canSelect_sound hA.upTo (hw.start rfl) hs hr
  obtain ⟨depth, hset⟩ := canSelect_settles hA.upTo closed_upTo (hw.start rfl) hp
  exact ⟨hs', (hset g rfl).yields hl⟩

theorem ensures_project (hw : (Ask.project g name).Within S given A) :
    Ensures S given A (S.project g name) fun r =>
      Yields l (fun d => (S.deepen d).project g name) fun r' => r'.map Ty.bare = r.map Ty.bare := by
  intro m m' r hs hr
  obtain ⟨-, depth, hset⟩ :=
    run_project_settles hA.upTo closed_upTo (fun hd => hw.start ⟨rfl, hd⟩) hs hr
  exact ⟨(hset g rfl).sound (d := S.bounds.depth) hs hr, (hset g rfl).yields hl⟩

theorem ensures_coercions (hw : (Ask.coercions t).Within S given A) :
    Ensures S given A (S.coercions t) fun chain =>
      Yields l (fun d => (S.deepen d).coercions t) fun c => c.map Ty.bare = chain.map Ty.bare := by
  intro m m' chain hs hr
  obtain ⟨-, -, depth, hset⟩ :=
    run_coercions_settles hA.upTo closed_upTo (fun g hg => hw.start hg) hs hr
  exact ⟨(hset t rfl).sound (d := S.bounds.depth) hs hr, (hset t rfl).yields hl⟩

theorem ensures_canSelectDeref (hw : (Ask.canSelectDeref g).Within S given A) :
    Ensures S given A (S.canSelectDeref g) fun b =>
      Yields l (fun d => (S.deepen d).canSelectDeref g) (· = b) := by
  intro m m' b hs hr
  obtain ⟨depth, hset⟩ := run_canSelectDeref_settles hA.upTo closed_upTo
    (fun h hh => hw.start (.inl hh)) (fun h hh => hw.start (.inr hh)) hs hr
  exact ⟨(hset g rfl).sound (d := S.bounds.depth) hs hr, (hset g rfl).yields hl⟩

/-- The first type of a chain for which the goal does not fail is found again, and projects again to
what it did. -/
theorem projectsFirst_of_firstAt (hw : (Ask.projectDeref g name).Within S given A)
    {chain : List Ty} {u v w : Ty} {s : Selection} (halong : Along S.table given g.self 0 chain)
    (hlen : chain.length ≤ S.chainBound) {depth : Nat}
    (hset : Settles S.table given (UpTo A) depth (fun d => (S.deepen d).coercions g.self)
      fun c => c.map Ty.bare = chain.map Ty.bare)
    (hfirst : FirstAt S.table given g chain u v)
    (hsel : Answers S.table given [] (g.about v) (.ok s))
    (hproj : Projects S.table given (g.about v) name w) (hwt : w.bare = t.bare) :
    ProjectsFirst S l g name t := by
  obtain ⟨before, after, rfl, hv, hvu, hf⟩ := hfirst
  have hlt : before.length < S.chainBound := by
    rw [List.length_append, List.length_cons] at hlen
    omega
  refine (hset.weaken fun chain' e => ?_).yields hl
  have halong' := halong.congr e
  rw [List.map_append, List.map_cons] at e
  obtain ⟨before', rest', rfl, eb, er⟩ := List.map_eq_append_iff.1 e
  obtain ⟨u', after', rfl, eu, -⟩ := List.map_eq_cons_iff.1 er
  have hlen' : before'.length = before.length := by
    simpa only [List.length_map] using congrArg List.length eb
  have eg : (g.about v).bare = (g.about u').bare := Goal.about_bare_congr (hvu.trans eu.symm) g
  have hwv := hw.start (.inr ⟨before.length, hlt, v, hv, hf, rfl⟩)
  refine ⟨before', u', after', rfl, fun x hx => ?_, ?_, ?_⟩
  · obtain ⟨k, hk, hkx⟩ := List.mem_iff_getElem.1 hx
    have hget : (before' ++ u' :: after')[k]? = some x := by
      rw [List.getElem?_append_left hk, List.getElem?_eq_getElem hk, hkx]
    obtain ⟨y, hy, hyx⟩ := halong'.reaches hget
    rw [Nat.zero_add] at hy
    obtain ⟨err, herr⟩ := hf k (hlen' ▸ hk) y hy
    have hwy := hw.start (.inr ⟨k, by omega, y, hy, fun j hj => hf j (by omega), rfl⟩)
    obtain ⟨depth, hset⟩ := canSelect_settles hA.upTo closed_upTo hwy herr
    exact (hset _ (Goal.about_bare_congr hyx g)).yields hl
  · obtain ⟨depth, hset⟩ := canSelect_settles hA.upTo closed_upTo hwv hsel
    exact (hset _ eg).yields hl
  · obtain ⟨depth, hset⟩ := project_settles hA.upTo closed_upTo hwv hproj
    refine ((hset _ eg).weaken fun r hr => ?_).yields hl
    obtain ⟨t', rfl, ht'⟩ := hr
    exact ⟨t', rfl, (Ty.equiv_iff t' t).2 (ht'.trans hwt)⟩

theorem ensures_projectDeref (hw : (Ask.projectDeref g name).Within S given A) :
    Ensures S given A (S.projectDeref g name) fun r =>
      ∀ t u : Ty, r = .ok t → t.bare = u.bare → ProjectsFirst S l g name u := by
  intro m m' r hs hr
  have hc : Closed (UpTo A) := closed_upTo
  have hderef : ∀ h, DerefAsks S.table given g.self S.chainBound h →
    Within S.table given (UpTo A) [] h := fun h hh => hw.start (.inl hh)
  obtain ⟨hsome, depth, hset⟩ := run_projectDeref_settles hA.upTo hc hderef
    (fun h hh => hw.start (.inr hh)) hs hr
  refine ⟨(hset g rfl).sound (d := S.bounds.depth) hs hr, fun t t' ht e => ?_⟩
  obtain ⟨chain, m₁, u, v, w, s, hchain, hfirst, hsel, hproj, hwt⟩ := hsome t ht
  obtain ⟨halong, hlen, depth', hset'⟩ := run_coercions_settles hA.upTo hc hderef hs hchain
  exact projectsFirst_of_firstAt hA hl hw halong hlen (hset' g.self rfl) hfirst hsel hproj
    (hwt.trans e)

end Solver
end Mismatch
