import Mismatch.Proofs.Oracle

/-!
# Queries that echo one another

Two queries about types that differ in display text only have answers that differ in display text
only, be they put on the same memory or one after the other (`Repeats`). `Echoes` says this of
queries that are steps of longer ones and are put on memories that nothing is known of but that they
are sound. Its rules follow the structure of the queries; the queries to a table are its leaves.
-/

namespace Mismatch

open Select

/-! ## Two queries -/

/-- What the query `q` answers is answered, as far as `R` says, by all queries `q' i`, and there is
one depth from which on they are answered. -/
def Echoes (S : Solver) (given : Cache) (A : Goal → Prop) {α β ι : Type} (q : Query α)
    (I : ι → Prop) (q' : ι → Nat → Query β) (R : α → β → Prop) : Prop :=
  Ensures S given A q fun a => ∃ depth, ∀ i, I i →
    Settles S.table given (UpTo A) depth (q' i) (R a)

/-- What the query `q` answers on a memory is answered there, as far as `R` says, by `q'` too, and
also afterwards, in any later session with the same table. -/
def Repeats (S : Solver) (A : Goal → Prop) (m : Memo) {α β : Type} (q : Query α)
    (q' : Nat → Query β) (R : α → β → Prop) : Prop :=
  ∀ a m' m'', q.run m = some (a, m') → (m'' = m ∨ Session S.table m.cache A m' m'') →
    Yields m'' q' (R a)

/-- The query changes nothing but the reports, and this is its answer. -/
def OnlyReports {α : Type} (q : Query α) (a : α) : Prop :=
  ∀ m, ∃ reports, q.run m = some (a, ⟨m.cache, reports⟩)

theorem OnlyReports.pure {α : Type} {a : α} : OnlyReports (Pure.pure a) a :=
  fun m => ⟨m.reports, rfl⟩

theorem OnlyReports.report {α : Type} {q : Query α} {a : α} {level : Log.Level} {module : Text}
    {message : Thunk Text} (h : OnlyReports q a) :
    OnlyReports (Query.report level module message >>= fun _ => q) a := fun _ => h _

namespace Echoes
variable {S : Solver} {given : Cache} {A : Goal → Prop} {m : Memo} {α β γ δ ι : Type}
  {I : ι → Prop} {q : Query α} {k : α → Query γ} {q' : ι → Nat → Query β}
  {k' : ι → Nat → β → Query δ} {R : α → β → Prop} {R' : γ → δ → Prop}

theorem mono (h : Echoes S given A q I q' R) {R' : α → β → Prop} (hR : ∀ a b, R a b → R' a b) :
    Echoes S given A q I q' R' :=
  Ensures.mono h fun a ⟨depth, hset⟩ => ⟨depth, fun i hi => (hset i hi).weaken (hR a)⟩

theorem congr {q'' : ι → Nat → Query β} (h : Echoes S given A q I q'' R)
    (hq : ∀ i, I i → q' i = q'' i) : Echoes S given A q I q' R :=
  Ensures.mono h fun _ ⟨depth, hset⟩ => ⟨depth, fun i hi => hq i hi ▸ hset i hi⟩

/-- Nothing is asked for on either side. -/
theorem answer {a : α} (hq : OnlyReports q a)
    (hq' : ∀ i, I i → ∃ b, R a b ∧ ∀ d, OnlyReports (q' i d) b) : Echoes S given A q I q' R := by
  intro m m' c hs hr
  obtain ⟨reports, h⟩ := hq m
  obtain ⟨rfl, rfl⟩ := Prod.mk.inj (Option.some.inj (h.symm.trans hr))
  refine ⟨hs, 0, fun i hi => ?_⟩
  obtain ⟨b, hb, h⟩ := hq' i hi
  exact .of_reports hb h

theorem pure {a : α} {b : ι → β} (h : ∀ i, I i → R a (b i)) :
    Echoes S given A (Pure.pure a) I (fun i _ => Pure.pure (b i)) R :=
  answer .pure fun i hi => ⟨b i, h i hi, fun _ => .pure⟩

theorem bind (h : Echoes S given A q I q' R) (hk : ∀ a, Echoes S given A (k a)
      (fun p : ι × β => I p.1 ∧ R a p.2) (fun p d => k' p.1 d p.2) R') :
    Echoes S given A (q >>= k) I (fun i d => q' i d >>= k' i d) R' := by
  refine Ensures.bind h fun a ⟨depth, hset⟩ => Ensures.mono (hk a) fun c ⟨depth', hset'⟩ => ?_
  refine ⟨max depth depth', fun i hi => ?_⟩
  refine ((hset i hi).deeper (Nat.le_max_left ..)).bind fun b hb => ?_
  exact (hset' (i, b) ⟨hi, hb⟩).deeper (Nat.le_max_right ..)

/-- Both sides go on with the same answer. -/
theorem bind_eq {k : β → Query γ} {q : Query β} (h : Echoes S given A q I q' fun a b => b = a)
    (hk : ∀ b, Echoes S given A (k b) I (fun i d => k' i d b) R') :
    Echoes S given A (q >>= k) I (fun i d => q' i d >>= k' i d) R' := by
  refine h.bind fun a => ?_
  have ha : Echoes S given A (k a) (fun p : ι × β => I p.1 ∧ p.2 = a) (fun p d => k' p.1 d a) R' :=
    Ensures.mono (hk a) fun c ⟨depth, hset⟩ => ⟨depth, fun p hp => hset p.1 hp.1⟩
  exact ha.congr fun p hp => funext fun d => by rw [hp.2]

/-- The last answer is turned into the answer of the whole query. -/
theorem conclude {f : α → γ} {g : ι → β → δ} (h : Echoes S given A q I q' R)
    (hk : ∀ a, OnlyReports (k a) (f a)) (hk' : ∀ i d b, OnlyReports (k' i d b) (g i b))
    (hR : ∀ a i b, I i → R a b → R' (f a) (g i b)) :
    Echoes S given A (q >>= k) I (fun i d => q' i d >>= k' i d) R' :=
  h.bind fun a => .answer (hk a) fun p hp => ⟨_, hR a p.1 p.2 hp.1 hp.2, fun d => hk' p.1 d p.2⟩

theorem ite {x y : Query α} {x' y' : ι → Nat → Query β} {c : Bool} {c' : ι → Bool}
    (hc : ∀ i, I i → c' i = c) (hx : c = true → Echoes S given A x I x' R)
    (hy : Echoes S given A y I y' R) :
    Echoes S given A (if c then x else y) I (fun i d => if c' i then x' i d else y' i d) R := by
  cases c with
  | true => exact congr (hx rfl) fun i hi => by rw [hc i hi]; rfl
  | false => exact congr hy fun i hi => by rw [hc i hi]; rfl

theorem repeats {q' : Nat → Query β} (hA : Faithful A)
    (h : Echoes S m.cache A q (fun _ : Unit => True) (fun _ => q') R) :
    Repeats S A m q q' R := by
  intro a m' m'' hr hm
  refine Ensures.later (R := fun l a => Yields l q' (R a)) hA (fun l hl => ?_) hr hm
  exact Ensures.mono h fun b ⟨depth, hset⟩ => (hset () trivial).yields hl

end Echoes

/-! ## Single queries -/

namespace Solver

theorem deepen_table (S : Solver) (d : Nat) : (S.deepen d).table = S.table := rfl

variable {S : Solver} {given : Cache} {A : Goal → Prop} {ι : Type} {I : ι → Prop} {g h : Goal}
  {t u : Ty} {name : Text} (hA : Faithful A)
include hA

theorem echoes_select (e : h.bare = g.bare) (hw : (Ask.select g).Within S given A) :
    Echoes S given A (S.select g) I (fun _ d => (S.deepen d).select h)
      fun o p => p.bare = o.bare := by
  intro m m' o hs hr
  obtain ⟨hs', p, hp, hpo⟩ := run_select_sound hA.upTo (hw.start rfl) hs hr
  obtain ⟨depth, hset⟩ := select_settles hA.upTo closed_upTo (hw.start rfl) hp
  exact ⟨hs', depth, fun _ _ => (hset h e.symm).weaken fun o' ho' => ho'.trans hpo⟩

theorem echoes_canSelect (e : h.bare = g.bare) (hw : (Ask.canSelect g).Within S given A) :
    Echoes S given A (S.canSelect g) I (fun _ d => (S.deepen d).canSelect h)
      fun b b' => b' = b := by
  intro m m' b hs hr
  obtain ⟨hs', p, hp, rfl⟩ := run_canSelect_sound hA.upTo (hw.start rfl) hs hr
  obtain ⟨depth, hset⟩ := canSelect_settles hA.upTo closed_upTo (hw.start rfl) hp
  exact ⟨hs', depth, fun _ _ => hset h e.symm⟩

theorem echoes_project (e : h.bare = g.bare) (hw : (Ask.project g name).Within S given A) :
    Echoes S given A (S.project g name) I (fun _ d => (S.deepen d).project h name)
      fun r r' => r'.map Ty.bare = r.map Ty.bare := by
  intro m m' r hs hr
  obtain ⟨-, depth, hset⟩ :=
    run_project_settles hA.upTo closed_upTo (fun hd => hw.start ⟨rfl, hd⟩) hs hr
  exact ⟨(hset g rfl).sound (d := S.bounds.depth) hs hr, depth, fun _ _ => hset h e.symm⟩

theorem echoes_coercions (e : u.bare = t.bare) (hw : (Ask.coercions t).Within S given A) :
    Echoes S given A (S.coercions t) I (fun _ d => (S.deepen d).coercions u)
      fun c c' => c'.map Ty.bare = c.map Ty.bare := by
  intro m m' chain hs hr
  obtain ⟨-, -, depth, hset⟩ :=
    run_coercions_settles hA.upTo closed_upTo (fun g hg => hw.start hg) hs hr
  exact ⟨(hset t rfl).sound (d := S.bounds.depth) hs hr, depth, fun _ _ => hset u e.symm⟩

theorem echoes_canSelectDeref (e : h.bare = g.bare)
    (hw : (Ask.canSelectDeref g).Within S given A) :
    Echoes S given A (S.canSelectDeref g) I (fun _ d => (S.deepen d).canSelectDeref h)
      fun b b' => b' = b := by
  intro m m' b hs hr
  obtain ⟨depth, hset⟩ := run_canSelectDeref_settles hA.upTo closed_upTo
    (fun x hx => hw.start (.inl hx)) (fun x hx => hw.start (.inr hx)) hs hr
  exact ⟨(hset g rfl).sound (d := S.bounds.depth) hs hr, depth, fun _ _ => hset h e.symm⟩

theorem echoes_projectDeref (e : h.bare = g.bare)
    (hw : (Ask.projectDeref g name).Within S given A) :
    Echoes S given A (S.projectDeref g name) I (fun _ d => (S.deepen d).projectDeref h name)
      fun r r' => r'.map Ty.bare = r.map Ty.bare := by
  intro m m' r hs hr
  obtain ⟨-, depth, hset⟩ := run_projectDeref_settles hA.upTo closed_upTo
    (fun x hx => hw.start (.inl hx)) (fun x hx => hw.start (.inr hx)) hs hr
  exact ⟨(hset g rfl).sound (d := S.bounds.depth) hs hr, depth, fun _ _ => hset h e.symm⟩

end Solver

end Mismatch
