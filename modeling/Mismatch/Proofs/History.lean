import Mismatch.Proofs.Agree
import Mismatch.Proofs.Session
import Mismatch.Trait.Resolver

/-!
# Histories of a resolver

A resolver starts empty and is changed by operations: declarations of traits, new implementations,
other known items, and queries. A new implementation empties the memory, and other known items make
no difference to a search. The declaration of a trait that was unknown keeps the memory but may
change answers in it, when a goal of that trait came up while it was unknown
(`Resolver.stale_declared`). These answers aside, whatever is remembered is what the search without
a memory gives in the present table (`Resolver.History.remembered`).
-/

namespace Mismatch

open Select

/-! ## Declarations -/

namespace TraitTable

theorem find?_declare (d : TraitDef) (id : Item) : ∀ es : List TraitDef,
    (declare d es).find? (·.id == id) =
      if d.id = id then some d else es.find? (·.id == id)
  | [] => by by_cases h : d.id = id <;> simp [declare, h]
  | e :: es => by
    have ih := find?_declare d id es
    by_cases he : e.id = d.id
    · by_cases h : d.id = id <;> simp [declare, he, h]
    · by_cases h : e.id = id
      · have hd : id ≠ d.id := h ▸ he
        simp [declare, h, hd, hd.symm]
      · simpa [declare, he, h] using ih

theorem trait?_addTrait (T : TraitTable) (d : TraitDef) (id : Item) :
    (T.addTrait d).trait? id = if d.id = id then some d else T.trait? id :=
  find?_declare d id T.traits

/-- Only goals of the trait see whether it is declared. -/
theorem agree_addTrait {T : TraitTable} {d : TraitDef} {g : Goal}
    (h : d.id = g.trait → T.trait? d.id ≠ none) : Agree T (T.addTrait d) g := by
  rw [Agree, trait?_addTrait]
  split
  · rename_i hid
    exact ⟨fun hn => (nomatch hn), fun hn => absurd (hid ▸ hn) (h hid)⟩
  · rfl

end TraitTable

namespace Resolver

/-! ## Operations -/

/-- What may be done with a resolver. -/
inductive Op where
  | addTrait (d : TraitDef)
  | addImpl (i : Impl)
  | setKnown (known : KnownItems)
  | clearCache
  | ask (q : Ask) (B : Bounds)

namespace Op

/-- The resolver after the operation. -/
def apply : Op → Resolver → Option Resolver
  | addTrait d, r => some (r.addTrait d)
  | addImpl i, r => some (r.addImpl i)
  | setKnown known, r => some (r.setKnown known)
  | clearCache, r => some r.clearCache
  | ask q B, r => (r.ask B fun S => q.put S).map (·.2.1)

/-- The goals that come up in the searches of the operation are in the set. -/
def Within (A : Goal → Prop) (r : Resolver) : Op → Prop
  | ask q B => q.Within ⟨r.table, B⟩ [] A
  | _ => True

end Op

/-- The answer to the goal is remembered. -/
def Remembers (r : Resolver) (g : Goal) (o : Outcome) : Prop := r.cache.lookup g.key = some o

/-- The search without a memory gives the outcome in the table as it is. -/
def Valid (r : Resolver) (g : Goal) (o : Outcome) : Prop :=
  ∃ depth a, search r.table depth [] g = some a ∧ o.Equiv a.outcome

/-- The operation declares a trait that was unknown, and the goal has another answer then. -/
def Op.Upsets (op : Op) (r : Resolver) (g : Goal) : Prop :=
  ∃ d, op = .addTrait d ∧ r.table.trait? d.id = none ∧
    ¬ ∃ depth a b, search r.table depth [] g = some a ∧
      search (r.table.addTrait d) depth [] g = some b ∧ a.outcome.Equiv b.outcome

/-- No goal of an unknown trait that the operation declares came up in the search for a remembered
goal. -/
def Op.Careful (A : Goal → Prop) (r : Resolver) (op : Op) : Prop :=
  ∀ d, op = .addTrait d → r.table.trait? d.id = none → ∀ g o, A g → r.Remembers g o →
    ∀ x, Asks r.table [] [] g x → x.trait ≠ d.id

/-- The resolver came about by careful operations. -/
inductive History (A : Goal → Prop) : Resolver → Prop
  | empty (known : KnownItems) : History A (.empty known)
  | step {r r' : Resolver} (op : Op) (h : History A r) (hw : op.Within A r) (hc : op.Careful A r)
      (hr : op.apply r = some r') : History A r'

variable {A : Goal → Prop} {r r' : Resolver} {g : Goal} {o : Outcome}

/-- The invariant moves to a table that agrees on what came up in the searches for the remembered
goals. -/
theorem sound_of_agree {T T' : TraitTable} {C : Cache} (himpls : T'.impls = T.impls)
    (hs : Sound T [] (UpTo A) C)
    (h : ∀ g o, A g → C.lookup g.key = some o → ∀ x, Asks T [] [] g x → Agree T T' x) :
    Sound T' [] (UpTo A) C := by
  refine ⟨hs.given_le, fun k o hk hgiven => ?_⟩
  obtain ⟨g, ⟨y, hy, e⟩, rfl, hset⟩ := hs.settled k o hk hgiven
  refine ⟨g, ⟨y, hy, e⟩, rfl, hset.agree himpls fun x hx => ?_⟩
  obtain ⟨z, hz, ez⟩ := hx.congr e.symm
  have hagree := h y o hy ((Goal.key_eq_of_bare_eq e).symm ▸ hk) z hz
  rwa [Agree, Goal.trait_eq_of_bare_eq ez] at hagree

theorem sound_nil (T : TraitTable) : Sound T [] (UpTo A) [] := sound_given

/-- After careful operations everything that is remembered is settled. -/
theorem History.sound (hA : Faithful A) (h : History A r) : Sound r.table [] (UpTo A) r.cache := by
  induction h with
  | empty known => exact sound_nil _
  | @step r r' op h hw hc hr ih =>
    cases op with
    | addTrait d =>
      obtain rfl := Option.some.inj hr
      refine sound_of_agree (T := r.table) rfl ih fun g o hg ho x hx =>
        TraitTable.agree_addTrait fun hid hn => ?_
      exact hc d rfl hn g o hg ho x hx hid.symm
    | addImpl i =>
      obtain rfl := Option.some.inj hr
      exact sound_nil _
    | setKnown known =>
      obtain rfl := Option.some.inj hr
      exact sound_of_agree (T := r.table) rfl ih fun g o hg ho x hx => Iff.rfl
    | clearCache =>
      obtain rfl := Option.some.inj hr
      exact sound_nil _
    | ask q B =>
      obtain ⟨⟨u, r₁, reports⟩, hask, rfl⟩ := Option.map_eq_some_iff.1 hr
      obtain ⟨⟨⟨⟩, memo⟩, hrun, he⟩ := Option.bind_eq_some_iff.1 hask
      obtain ⟨-, hr₁, -⟩ : u = () ∧ ⟨r.table, memo.cache⟩ = r₁ ∧ _ := by simpa using he
      subst hr₁
      exact Ask.sound (S := ⟨r.table, B⟩) hA hw ih hrun

/-! ## What is remembered -/

theorem valid_of_sound (hA : Faithful A) (hs : Sound r.table [] (UpTo A) r.cache) (hg : A g)
    (ho : r.Remembers g o) : r.Valid g o := by
  obtain ⟨y, hy, hkey, depth, hset⟩ := hs.settled _ _ ho rfl
  obtain ⟨a, ha, hao⟩ := hset [] (Solver.lacks_nil _)
  have e := (Goal.equiv_iff y g).1 (hA.upTo y g hy (upTo_self hg) hkey)
  obtain ⟨b, hb, hba⟩ := searchFrom_of_bare_eq e ha
  have hbo : b.outcome.bare = o.bare := (Answer.mk.inj (hba.trans hao)).1
  exact ⟨depth, b, hb, Outcome.equiv_of_bare_eq hbo.symm⟩

/-- A newly declared trait upsets a remembered answer exactly if that is not valid any more. -/
theorem valid_addTrait_iff {d : TraitDef} (hd : r.table.trait? d.id = none) (hv : r.Valid g o) :
    (r.addTrait d).Valid g o ↔ ¬ (Op.addTrait d).Upsets r g := by
  obtain ⟨depth, a, ha, hoa⟩ := hv
  constructor
  · rintro ⟨depth', b, hb, hob⟩ ⟨d', hd', -, hno⟩
    obtain rfl := Op.addTrait.inj hd'
    exact hno ⟨max depth depth', a, b, searchFrom_mono (Nat.le_max_left ..) ha,
      searchFrom_mono (Nat.le_max_right ..) hb, hoa.symm.trans hob⟩
  · intro hno
    refine Classical.byContradiction fun hv' => hno ⟨d, rfl, hd, ?_⟩
    rintro ⟨depth', a', b, ha', hb, hab⟩
    obtain rfl := searchFrom_det ha ha'
    exact hv' ⟨depth', b, hb, hoa.trans hab⟩

/-- Only a goal of the new trait that came up in a search can upset its answer. -/
theorem Op.Upsets.asks {op : Op} (hu : op.Upsets r g) (hv : r.Valid g o) :
    ∃ d x, op = .addTrait d ∧ r.table.trait? d.id = none ∧ Asks r.table [] [] g x ∧
      x.trait = d.id := by
  obtain ⟨d, rfl, hd, hno⟩ := hu
  obtain ⟨depth, a, ha, -⟩ := hv
  refine Classical.byContradiction fun hnone => ?_
  have hagree : ∀ x, Asks r.table [] [] g x → Agree r.table (r.table.addTrait d) x :=
    fun x hx => TraitTable.agree_addTrait fun hid => absurd ⟨d, x, rfl, hd, hx, hid.symm⟩ hnone
  have himpls : (r.table.addTrait d).impls = r.table.impls := rfl
  exact hno ⟨depth, a, a, ha, searchFrom_agree himpls hagree ha, Outcome.equiv_of_bare_eq rfl⟩

/-- After careful operations, an answer that is still remembered after one more operation is what
the search without a memory gives in the changed table, unless the operation upsets it by declaring
an unknown trait of which a goal came up in the search for it. Before that operation every selection
has the outcome of that search. -/
theorem History.remembered (hA : Faithful A) (h : History A r) :
    (∀ (op : Op) (r' : Resolver) (g : Goal) (o : Outcome),
      op.Within A r → op.apply r = some r' → A g → r'.Remembers g o →
      (r'.Valid g o ↔ ¬ op.Upsets r g) ∧
      (op.Upsets r g → ∃ d x, op = .addTrait d ∧ r.table.trait? d.id = none ∧
        Asks r.table [] [] g x ∧ x.trait = d.id)) ∧
    ∀ B g o r' reports, (∀ x, Asks r.table [] [] g x → A x) →
      (r.ask B fun S => S.select g) = some (o, r', reports) → r.Valid g o := by
  have hs := h.sound hA
  constructor
  · intro op r' g o hw hr hg ho
    -- Every operation that is not the declaration of an unknown trait is careful.
    by_cases hnew : ∃ d, op = .addTrait d ∧ r.table.trait? d.id = none
    · obtain ⟨d, rfl, hd⟩ := hnew
      obtain rfl := Option.some.inj hr
      have hv := valid_of_sound hA hs hg ho
      exact ⟨valid_addTrait_iff hd hv, fun hu => hu.asks hv⟩
    · have hc : op.Careful A r := fun d hop hd => absurd ⟨d, hop, hd⟩ hnew
      have hno : ¬ op.Upsets r g := fun ⟨d, hop, hd, _⟩ => hnew ⟨d, hop, hd⟩
      have hv := valid_of_sound hA ((h.step op hw hc hr).sound hA) hg ho
      exact ⟨iff_of_true hv hno, fun hu => absurd hu hno⟩
  · intro B g o r' reports hw hr
    obtain ⟨⟨o', memo⟩, hrun, he⟩ := Option.bind_eq_some_iff.1 hr
    obtain ⟨rfl, -⟩ : o' = o ∧ _ := by simpa using he
    obtain ⟨-, p, ⟨depth, a, ha, rfl⟩, hpo⟩ := (Solver.mk r.table B).run_select_sound hA.upTo
      (fun x hx => upTo_self (hw x hx)) hs hrun
    exact ⟨depth, a, ha, Outcome.equiv_of_bare_eq hpo.symm⟩

/-- The declaration of an unrelated trait leaves the answer to a goal with an obligation valid. -/
theorem History.remembered_box : ∃ r r' o, History (Listed Sample.goals) r ∧
    (Op.addTrait ⟨Sample.deref, [], []⟩).apply r = some r' ∧
    r'.Remembers ⟨Sample.box .bool, Sample.marker, []⟩ o ∧ o.isOk = true ∧
    r'.Valid ⟨Sample.box .bool, Sample.marker, []⟩ o := by
  have h₁ : History (Listed Sample.goals) _ :=
    .step (.addTrait ⟨Sample.marker, [], []⟩) (.empty .none) trivial
      (fun _ _ _ _ _ _ ho => nomatch ho) rfl
  have h₂ : History (Listed Sample.goals) _ :=
    .step (.addImpl ⟨[], ⟨.bool, Sample.marker, []⟩, [], []⟩) h₁ trivial
      (fun _ hop => nomatch hop) rfl
  have h₃ : History (Listed Sample.goals) _ :=
    .step (.addImpl ⟨[[84]], ⟨Sample.box Sample.param, Sample.marker, []⟩, [],
      [⟨Sample.param, Sample.marker, []⟩]⟩) h₂ trivial (fun _ hop => nomatch hop) rfl
  have h₄ : History (Listed Sample.goals) _ :=
    .step (.ask (.select ⟨Sample.box .bool, Sample.marker, []⟩) Sample.solver.bounds) h₃
      (.listed (by decide) fun g hg => Sample.listed (by simp [show g = _ from hg, Sample.goals]))
      (fun _ hop => nomatch hop) rfl
  have hg : Listed Sample.goals ⟨Sample.box .bool, Sample.marker, []⟩ :=
    Sample.listed (by simp [Sample.goals])
  obtain ⟨hiff, hasks⟩ := (h₄.remembered Sample.faithful_goals).1
    (.addTrait ⟨Sample.deref, [], []⟩) _ _ _ trivial rfl hg rfl
  refine ⟨_, _, _, h₄, rfl, rfl, rfl, hiff.2 fun hu => ?_⟩
  obtain ⟨d, x, hd, -, hx, hxd⟩ := hasks hu
  obtain rfl := Op.addTrait.inj hd
  obtain ⟨y, hy, e⟩ :
      Listed [⟨Sample.box .bool, Sample.marker, []⟩, ⟨.bool, Sample.marker, []⟩] x :=
    hx.listed (by decide) (upTo_self List.mem_cons_self)
  have ht : y.trait = Sample.deref := (Goal.trait_eq_of_bare_eq e).trans hxd
  simp only [List.mem_cons, List.not_mem_nil, or_false] at hy
  rcases hy with rfl | rfl
  · exact absurd ht (by decide)
  · exact absurd ht (by decide)

/-- An answer that fails for an obligation of an unknown trait is still remembered when the trait is
declared and the obligation holds. -/
theorem stale_declared : ∃ r r' o a,
    [Op.addTrait ⟨Sample.marker, [], []⟩,
      .addImpl ⟨[[84]], ⟨Sample.param, Sample.marker, []⟩, [], [⟨Sample.param, Sample.deref, []⟩]⟩,
      .addImpl ⟨[], ⟨.bool, Sample.deref, []⟩, [], []⟩,
      .ask (.select ⟨.bool, Sample.marker, []⟩) Sample.solver.bounds].foldlM
        (fun r op => op.apply r) (empty .none) = some r ∧
    (Op.addTrait ⟨Sample.deref, [], []⟩).apply r = some r' ∧
    r'.Remembers ⟨.bool, Sample.marker, []⟩ o ∧
    search r'.table 3 [] ⟨.bool, Sample.marker, []⟩ = some a ∧ ¬ o.Equiv a.outcome ∧
    ∃ goals, Faithful (Listed goals) ∧
      ∀ x, Asks r'.table [] [] ⟨.bool, Sample.marker, []⟩ x → Listed goals x := by
  refine ⟨_, _, _, _, rfl, rfl, rfl, rfl, fun h => h,
    [⟨.bool, Sample.marker, []⟩, ⟨.bool, Sample.deref, []⟩], faithful_listed (by decide), ?_⟩
  exact fun x hx => hx.listed (by decide) (upTo_self List.mem_cons_self)

end Resolver
end Mismatch
