import Mismatch.Proofs.Matching

/-!
# A match is the least instance

Matching a pattern against a type without inference variables decides whether some extension of the
bindings makes the pattern the type, and finds the least one (`Ty.matchTy_least`). The proof goes
along with three facts about the bindings as they are threaded through the pattern. Whatever comes
of the match, they only grow, and only by parameters of the pattern (`Subst.Grows`). If some
substitution makes the pattern the type, the match succeeds and stays below that substitution
(`Ty.matchTy_below`). And no parameter of the pattern is left over, since what it stands for is a
part of the type (`Ty.whole_subst`).
-/

namespace Mismatch

namespace Ty

/-! ## Parameters and missing parts -/

def param? : Ty → Option Text
  | .param a => some a
  | _ => none

/-- The parameters that occur in a type, in the order of the walk and with repetitions. -/
def params (t : Ty) : List Text := t.nodes.filterMap param?

def paramsAll (ts : List Ty) : List Text := (nodesAll ts).filterMap param?

@[simp]
theorem params_param (a : Text) : (param a).params = [a] := rfl

@[simp]
theorem params_ref (m : Mutability) (t : Ty) : (ref m t).params = t.params := rfl

@[simp]
theorem params_adt (i : Item) (ts : List Ty) : (adt i ts).params = paramsAll ts := rfl

@[simp]
theorem params_tuple (ts : List Ty) : (tuple ts).params = paramsAll ts := rfl

@[simp]
theorem params_slice (t : Ty) : (slice t).params = t.params := rfl

@[simp]
theorem paramsAll_cons (t : Ty) (ts : List Ty) :
    paramsAll (t :: ts) = t.params ++ paramsAll ts := by
  simp [paramsAll, params, nodesAll]

mutual

/-- No part of the type is missing. -/
def whole : Ty → Bool
  | .missing => false
  | .ref _ t | .slice t => whole t
  | .adt _ ts | .tuple ts => wholeAll ts
  | _ => true

def wholeAll : List Ty → Bool
  | [] => true
  | t :: ts => whole t && wholeAll ts

end

mutual

theorem whole_bare : ∀ t : Ty, t.bare.whole = t.whole
  | .ref _ t | .slice t => by simp [bare, whole, whole_bare t]
  | .adt _ ts | .tuple ts => by simp [bare, whole, wholeAll_bareAll ts]
  | .missing | .num _ | .prim _ | .param _ | .infer .. | .unknown | .anon _ => by
    simp [bare, whole]

theorem wholeAll_bareAll : ∀ ts : List Ty, wholeAll (bareAll ts) = wholeAll ts
  | [] => rfl
  | t :: ts => by simp [bareAll, wholeAll, whole_bare t, wholeAll_bareAll ts]

end

mutual

/-- A part is missing where a parameter stands for what is missing. -/
theorem whole_subst {s : Subst} {a : Text} (hs : s.get? a = some .missing) : ∀ t : Ty,
    a ∈ t.params → (t.subst s).whole = false
  | .param b, h => by
    obtain rfl : a = b := by simpa using h
    rw [subst, hs, Option.getD_some, whole]
  | .ref _ t, h | .slice t, h => by simpa [subst, whole] using whole_subst hs t (by simpa using h)
  | .adt _ ts, h | .tuple ts, h => by
    simpa [subst, whole] using wholeAll_substAll hs ts (by simpa using h)
  | .missing, h | .num _, h | .prim _, h | .infer .., h | .unknown, h | .anon _, h => by
    simp [params, nodes, param?] at h

theorem wholeAll_substAll {s : Subst} {a : Text} (hs : s.get? a = some .missing) :
    ∀ ts : List Ty, a ∈ paramsAll ts → wholeAll (substAll s ts) = false
  | [], h => by simp [paramsAll, nodesAll] at h
  | t :: ts, h => by
    rw [substAll, wholeAll, Bool.and_eq_false_iff]
    rw [paramsAll_cons, List.mem_append] at h
    exact h.imp (whole_subst hs t) (wholeAll_substAll hs ts)

end

end Ty

/-! ## Bindings that grow -/

namespace Subst
variable {s s' s'' t : Subst} {a : Text} {c : Ty} {names names' : List Text}

/-- The bindings are kept, and new ones are for some of the names. -/
structure Grows (names : List Text) (s s' : Subst) : Prop where
  le : s.Le s'
  only : ∀ a, s'.get? a ≠ none → s.get? a ≠ none ∨ a ∈ names

/-- The second substitution gives every parameter that the first one binds what this binds it to. A
parameter that it does not bind stands for itself. -/
def Below (s t : Subst) : Prop :=
  ∀ a u, s.get? a = some u → ((Ty.param a).subst t).equiv u = true

theorem Grows.refl (names : List Text) (s : Subst) : Grows names s s :=
  ⟨.refl s, fun _ h => .inl h⟩

theorem Grows.append (h : Grows names s s') (h' : Grows names' s' s'') :
    Grows (names ++ names') s s'' := by
  refine ⟨h.le.trans h'.le, fun a ha => ?_⟩
  rw [List.mem_append]
  rcases h'.only a ha with ha | ha
  · exact (h.only a ha).imp_right .inl
  · exact .inr (.inr ha)

theorem Grows.left (h : Grows names s s') (names' : List Text) : Grows (names ++ names') s s' :=
  h.append (.refl names' s')

theorem Le.below (h : s.Le t) : s.Below t := by
  intro a u hu
  rw [Ty.subst, h a u hu, Option.getD_some, Ty.equiv_refl]

theorem grows_agree (s : Subst) (a : Text) (c : Ty) : Grows [a] s (s.agree a c).2 := by
  simp only [agree]
  cases ha : s.get? a with
  | some u => exact .refl [a] s
  | none =>
    refine ⟨le_bind ha c, fun b hb => ?_⟩
    by_cases hba : b = a
    · exact .inr (List.mem_singleton.2 hba)
    · rw [get?_bind_ne hba] at hb
      exact .inl hb

/-- A parameter agrees with what a substitution above the bindings makes of it. -/
theorem Below.agree (h : s.Below t) (e : ((Ty.param a).subst t).bare = c.bare) :
    (s.agree a c).1 = true ∧ (s.agree a c).2.Below t := by
  simp only [Subst.agree]
  cases ha : s.get? a with
  | some u =>
    have hu := (Ty.equiv_iff _ _).1 (h a u ha)
    exact ⟨(Ty.equiv_iff u c).2 (hu.symm.trans e), h⟩
  | none =>
    refine ⟨rfl, fun b v hb => ?_⟩
    by_cases hba : b = a
    · subst hba
      rw [get?_bind_self] at hb
      obtain rfl := Option.some.inj hb
      exact (Ty.equiv_iff _ _).2 e
    · rw [get?_bind_ne hba] at hb
      exact h b v hb

end Subst

namespace Ty

/-! ## The match -/

mutual

/-- A match keeps the bindings, whether it succeeds or not, and binds parameters of the pattern
only. -/
theorem matchTy_grows : ∀ (p c : Ty) (s : Subst), Subst.Grows p.params s (matchTy p c s).2
  | .param a, c, s => by
    by_cases hc : c = .missing
    · subst hc
      exact .refl _ s
    · rw [matchTy_param a s hc]
      exact Subst.grows_agree s a c
  | .ref m p, c, s => by
    cases c with
    | ref n c =>
      rw [matchTy]
      split
      · exact matchTy_grows p c s
      · exact .refl _ s
    | _ => exact .refl _ s
  | .adt i ps, c, s => by
    cases c with
    | adt j cs =>
      rw [matchTy]
      split
      · exact matchEach_grows ps cs s
      · exact .refl _ s
    | _ => exact .refl _ s
  | .tuple ps, c, s => by
    cases c with
    | tuple cs =>
      rw [matchTy]
      split
      · exact matchEach_grows ps cs s
      · exact .refl _ s
    | _ => exact .refl _ s
  | .slice p, c, s => by
    cases c with
    | slice c => exact matchTy_grows p c s
    | _ => exact .refl _ s
  | .missing, c, s | .num _, c, s | .prim _, c, s | .infer .., c, s | .unknown, c, s
  | .anon _, c, s => by cases c <;> exact .refl _ s

theorem matchEach_grows : ∀ (ps cs : List Ty) (s : Subst),
    Subst.Grows (paramsAll ps) s (matchEach ps cs s).2
  | [], cs, s => by cases cs <;> exact .refl _ s
  | p :: ps, [], s => .refl _ s
  | p :: ps, c :: cs, s => by
    have hp := matchTy_grows p c s
    rw [paramsAll_cons, matchEach]
    generalize matchTy p c s = r at hp ⊢
    obtain ⟨b, s₁⟩ := r
    cases b with
    | true => exact hp.append (matchEach_grows ps cs s₁)
    | false => exact hp.left (paramsAll ps)

end

theorem length_eq_of_bareAll_eq {ts us : List Ty} (e : bareAll ts = bareAll us) :
    ts.length = us.length := by
  rw [← length_bareAll ts, e, length_bareAll]

theorem length_substAll (s : Subst) : ∀ ts : List Ty, (substAll s ts).length = ts.length
  | [] => rfl
  | _ :: ts => congrArg Nat.succ (length_substAll s ts)

mutual

/-- A match finds out what a substitution above the bindings has, if that makes the pattern the
type. -/
theorem matchTy_below {t : Subst} : ∀ (p c : Ty) {s : Subst}, c.whole = true →
    c.containsInfer = false → s.Below t → (p.subst t).bare = c.bare →
    (matchTy p c s).1 = true ∧ (matchTy p c s).2.Below t
  | .missing, c, s, hw, _, _, e => by
    obtain rfl := (bare_eq_missing c).1 e.symm
    cases hw
  | .param a, c, s, hw, _, hs, e => by
    have hc : c ≠ .missing := fun h => by rw [h, whole] at hw; cases hw
    rw [matchTy_param a s hc]
    exact hs.agree e
  | .infer k i d, c, s, _, hd, _, e => by
    cases c <;> simp [subst, bare, containsInfer, nodes, isInfer] at e hd
  | .ref m p, c, s, hw, hd, hs, e => by
    cases c with
    | ref n c =>
      obtain ⟨rfl, ep⟩ : m = n ∧ (p.subst t).bare = c.bare := by simpa [subst, bare] using e
      rw [matchTy, if_pos (beq_self_eq_true m)]
      exact matchTy_below p c hw (by simpa using hd) hs ep
    | _ => simp [subst, bare] at e
  | .adt i ps, c, s, hw, hd, hs, e => by
    cases c with
    | adt j cs =>
      obtain ⟨rfl, ep⟩ : i = j ∧ bareAll (substAll t ps) = bareAll cs := by
        simpa [subst, bare] using e
      have hl : ps.length = cs.length := by rw [← length_eq_of_bareAll_eq ep, length_substAll]
      rw [matchTy, if_pos (by simp [hl])]
      exact matchEach_below ps cs hw (by simpa using hd) hs ep
    | _ => simp [subst, bare] at e
  | .tuple ps, c, s, hw, hd, hs, e => by
    cases c with
    | tuple cs =>
      have ep : bareAll (substAll t ps) = bareAll cs := by simpa [subst, bare] using e
      have hl : ps.length = cs.length := by rw [← length_eq_of_bareAll_eq ep, length_substAll]
      rw [matchTy, if_pos (by simp [hl])]
      exact matchEach_below ps cs hw (by simpa using hd) hs ep
    | _ => simp [subst, bare] at e
  | .slice p, c, s, hw, hd, hs, e => by
    cases c with
    | slice c =>
      have ep : (p.subst t).bare = c.bare := by simpa [subst, bare] using e
      exact matchTy_below p c hw (by simpa using hd) hs ep
    | _ => simp [subst, bare] at e
  | .num k, c, s, _, _, hs, e | .prim k, c, s, _, _, hs, e | .unknown, c, s, _, _, hs, e
  | .anon d, c, s, _, _, hs, e => by
    cases c <;> simp [subst, bare] at e
    simp [matchTy, equiv, e, hs]

theorem matchEach_below {t : Subst} : ∀ (ps cs : List Ty) {s : Subst}, wholeAll cs = true →
    containsInferAny cs = false → s.Below t → bareAll (substAll t ps) = bareAll cs →
    (matchEach ps cs s).1 = true ∧ (matchEach ps cs s).2.Below t
  | [], [], s, _, _, hs, _ => ⟨rfl, hs⟩
  | [], _ :: _, _, _, _, _, e | _ :: _, [], _, _, _, _, e => by simp [substAll, bareAll] at e
  | p :: ps, c :: cs, s, hw, hd, hs, e => by
    obtain ⟨hwc, hwcs⟩ : c.whole = true ∧ wholeAll cs = true := by simpa [wholeAll] using hw
    rw [containsInferAny_cons, Bool.or_eq_false_iff] at hd
    obtain ⟨ec, ecs⟩ := List.cons.inj e
    have hp := matchTy_below p c hwc hd.1 hs ec
    rw [matchEach]
    generalize matchTy p c s = r at hp ⊢
    obtain ⟨b, s₁⟩ := r
    obtain ⟨rfl, hs₁⟩ : b = true ∧ s₁.Below t := hp
    exact matchEach_below ps cs hwcs hd.2 hs₁ ecs

end

/-- A successful match binds every parameter of the pattern. -/
theorem bound_of_matchTy {p c : Ty} {s s' : Subst} (hw : c.whole = true)
    (hd : c.containsInfer = false) (h : matchTy p c s = (true, s')) {a : Text}
    (ha : a ∈ p.params) : s'.get? a ≠ none := by
  intro hn
  -- Otherwise the parameter may stand for what is missing as well.
  have e := (matchTy_subst p c hd h).bare_eq (Subst.le_bind hn .missing)
  have hm := whole_subst (Subst.get?_bind_self s' a .missing) p ha
  rw [← whole_bare, e, whole_bare, hw] at hm
  cases hm

/-- The bindings `s'` are the least that extend `s` and make the pattern the type: they keep those
of `s`, bind the parameters of the pattern and no others besides, and every such extension gives a
parameter what they bind it to. -/
structure LeastMatch (p c : Ty) (s s' : Subst) : Prop where
  le : s.Le s'
  bound : ∀ a, s'.get? a ≠ none ↔ s.get? a ≠ none ∨ a ∈ p.params
  instantiates : (p.subst s').equiv c = true
  least : ∀ t : Subst, s.Le t → (p.subst t).equiv c = true → s'.Below t

/-- A pattern matches a type, in which nothing is missing and no inference variable occurs, exactly
if some extension of the bindings makes the pattern the type. The bindings of a match are the least
such extension; those from before are kept by a failure as well. -/
theorem matchTy_least (p : Ty) {c : Ty} (s : Subst) (hw : c.whole = true)
    (hd : c.containsInfer = false) :
    ((matchTy p c s).1 = true ↔ ∃ t : Subst, s.Le t ∧ (p.subst t).equiv c = true) ∧
    ((matchTy p c s).1 = true → LeastMatch p c s (matchTy p c s).2) ∧
    ((matchTy p c s).1 = false → s.Le (matchTy p c s).2) := by
  have hgrows := matchTy_grows p c s
  have hbelow : ∀ t : Subst, s.Le t → (p.subst t).equiv c = true →
      (matchTy p c s).1 = true ∧ (matchTy p c s).2.Below t :=
    fun t ht he => matchTy_below p c hw hd ht.below ((equiv_iff _ _).1 he)
  have hleast : (matchTy p c s).1 = true → LeastMatch p c s (matchTy p c s).2 := by
    intro h
    have hm : matchTy p c s = (true, (matchTy p c s).2) := Prod.ext h rfl
    refine ⟨hgrows.le, fun a => ⟨hgrows.only a, ?_⟩, ?_, fun t ht he => (hbelow t ht he).2⟩
    · rintro (ha | ha)
      · obtain ⟨u, hu⟩ := Option.ne_none_iff_exists'.1 ha
        rw [hgrows.le a u hu]
        exact Option.some_ne_none u
      · exact bound_of_matchTy hw hd hm ha
    · exact (equiv_iff _ _).2 ((matchTy_subst p c hd hm).bare_eq (.refl _))
  refine ⟨⟨fun h => ⟨_, hgrows.le, (hleast h).instantiates⟩, ?_⟩, hleast, fun _ => hgrows.le⟩
  rintro ⟨t, ht, he⟩
  exact (hbelow t ht he).1

end Ty

namespace Sample

/-- A parameter that comes up twice, and one between. -/
def twice : Ty := .tuple [.param [84], .shared (.param [85]), .slice (.param [84])]

def triple : Ty := .tuple [.bool, .shared .char, .slice .bool]

end Sample

/-- The pattern matches if its second parameter is bound to the right type already, and does not if
its first one is bound to another. -/
theorem Ty.matchTy_least_triple :
    Sample.triple.whole = true ∧ Sample.triple.containsInfer = false ∧
    LeastMatch Sample.twice Sample.triple [([85], .char)] [([84], .bool), ([85], .char)] ∧
    ¬ (∃ t : Subst, Subst.Le [([84], .str)] t ∧ (Sample.twice.subst t).equiv Sample.triple = true) ∧
    Subst.Le [([84], .str)] (matchTy Sample.twice Sample.triple [([84], .str)]).2 := by
  have hw : Sample.triple.whole = true := rfl
  have hd : Sample.triple.containsInfer = false := rfl
  have hmatch := matchTy_least Sample.twice [([85], .char)] hw hd
  have hfail := matchTy_least Sample.twice [([84], .str)] hw hd
  have hf : (matchTy Sample.twice Sample.triple [([84], .str)]).1 = false := rfl
  refine ⟨hw, hd, hmatch.2.1 rfl, fun h => ?_, hfail.2.2 hf⟩
  nomatch hf.symm.trans (hfail.1.2 h)

end Mismatch
