import Mathlib.Tactic.ByContra
import Mismatch.Proofs.Keys
import Mismatch.Proofs.Matching

/-!
# Headers that do not overlap

Two headers overlap if some goal without inference variables is an instance of both. They do not
when they differ at a place where neither has a parameter (`Ty.clash`), or when one of them has a
parameter twice that the other has different types for (`Ty.conflicts`). These types belong to one
header, so that they also differ when one of them is a proper part of the other (`Ty.surrounds`): no
type is a part of itself, as its key is longer than the keys of its parts.

Where goals are told apart by their keys, the ends of the keys are looked at (`Goal.keysDiffer`).
-/

namespace Mismatch

namespace Ty

/-! ## Types that differ under all substitutions -/

mutual

/-- The patterns differ at a place where neither has a parameter. -/
def clash : Ty → Ty → Bool
  | .param _, _ | _, .param _ => false
  | .num k, .num l => k != l
  | .prim k, .prim l => k != l
  | .ref m p, .ref n q => m != n || clash p q
  | .adt i ps, .adt j qs => i != j || clashAny ps qs
  | .tuple ps, .tuple qs => clashAny ps qs
  | .slice p, .slice q => clash p q
  | .missing, .missing | .infer .., .infer .. | .unknown, .unknown | .anon _, .anon _ => false
  | _, _ => true

/-- The patterns clash at some place, or the lists are of different length. -/
def clashAny : List Ty → List Ty → Bool
  | [], [] => false
  | p :: ps, q :: qs => clash p q || clashAny ps qs
  | _, _ => true

end

mutual

/-- Patterns that have a common instance do not clash. -/
theorem clash_eq_false : ∀ (p q : Ty) {s s' : Subst}, (p.subst s).bare = (q.subst s').bare →
    clash p q = false
  | .param _, q, _, _, _ => by cases q <;> rfl
  | .ref m p, q, s, s', e => by
    cases q with
    | param => rfl
    | ref n q =>
      obtain ⟨hm, he⟩ := ref.inj e
      simp [clash, hm, clash_eq_false p q he]
    | _ => cases e
  | .adt i ps, q, s, s', e => by
    cases q with
    | param => rfl
    | adt j qs =>
      obtain ⟨hi, he⟩ := adt.inj e
      simp [clash, hi, clashAny_eq_false ps qs he]
    | _ => cases e
  | .tuple ps, q, s, s', e => by
    cases q with
    | param => rfl
    | tuple qs => exact clashAny_eq_false ps qs (tuple.inj e)
    | _ => cases e
  | .slice p, q, s, s', e => by
    cases q with
    | param => rfl
    | slice q => exact clash_eq_false p q (slice.inj e)
    | _ => cases e
  | .num k, q, s, s', e => by
    cases q with
    | param => rfl
    | num l => simp [clash, num.inj e]
    | _ => cases e
  | .prim k, q, s, s', e => by
    cases q with
    | param => rfl
    | prim l => simp [clash, prim.inj e]
    | _ => cases e
  | .missing, q, _, _, e | .infer .., q, _, _, e | .unknown, q, _, _, e | .anon _, q, _, _, e => by
    cases q with
    | param => rfl
    | _ => first | rfl | cases e

theorem clashAny_eq_false : ∀ (ps qs : List Ty) {s s' : Subst},
    bareAll (substAll s ps) = bareAll (substAll s' qs) → clashAny ps qs = false
  | [], [], _, _, _ => rfl
  | [], _ :: _, _, _, e | _ :: _, [], _, _, e => nomatch e
  | p :: ps, q :: qs, s, s', e => by
    obtain ⟨hp, hps⟩ := List.cons.inj e
    rw [clashAny, clash_eq_false p q hp, clashAny_eq_false ps qs hps]
    rfl

end

/-! ## Types of which one is a part of the other -/

mutual

/-- The parameter occurs in the pattern. -/
def mentions (a : Text) : Ty → Bool
  | .param b => a == b
  | .ref _ t | .slice t => mentions a t
  | .adt _ ts | .tuple ts => mentionsAny a ts
  | _ => false

def mentionsAny (a : Text) : List Ty → Bool
  | [] => false
  | t :: ts => mentions a t || mentionsAny a ts

end

mutual

/-- What is put for a parameter is no longer than what it is put into. -/
theorem length_key_of_mentions {a : Text} (s : Subst) : ∀ {t : Ty}, mentions a t = true →
    ((Ty.param a).subst s).key.length ≤ (t.subst s).key.length
  | .param b, h => by
    obtain rfl := beq_iff_eq.1 h
    exact Nat.le_refl _
  | .ref m t, h =>
    Nat.le_trans (length_key_of_mentions s (t := t) h) (Nat.le_of_lt (length_key_ref m _))
  | .slice t, h =>
    Nat.le_trans (length_key_of_mentions s (t := t) h) (Nat.le_of_lt (length_key_slice _))
  | .adt i ts, h => by
    obtain ⟨t, ht, hle⟩ := length_key_of_mentionsAny s h
    exact Nat.le_trans hle (Nat.le_of_lt (length_key_adt i ht))
  | .tuple ts, h => by
    obtain ⟨t, ht, hle⟩ := length_key_of_mentionsAny s h
    exact Nat.le_trans hle (Nat.le_of_lt (length_key_tuple ht))

theorem length_key_of_mentionsAny {a : Text} (s : Subst) : ∀ {ts : List Ty},
    mentionsAny a ts = true → ∃ t ∈ substAll s ts, ((Ty.param a).subst s).key.length ≤ t.key.length
  | t :: ts, h => by
    rcases Bool.or_eq_true_iff.1 h with h | h
    · exact ⟨_, List.mem_cons_self, length_key_of_mentions s h⟩
    · obtain ⟨u, hu, hle⟩ := length_key_of_mentionsAny s h
      exact ⟨u, List.mem_cons_of_mem _ hu, hle⟩

end

/-- What is put for a parameter is shorter than a type of which the parameter is a proper part. -/
theorem length_key_lt_of_mentions {a : Text} (s : Subst) {t : Ty} (ht : ∀ b, t ≠ .param b)
    (h : mentions a t = true) : ((Ty.param a).subst s).key.length < (t.subst s).key.length := by
  cases t with
  | param b => exact absurd rfl (ht b)
  | ref m t => exact Nat.lt_of_le_of_lt (length_key_of_mentions s (t := t) h) (length_key_ref m _)
  | slice t => exact Nat.lt_of_le_of_lt (length_key_of_mentions s (t := t) h) (length_key_slice _)
  | adt i ts =>
    obtain ⟨t, ht, hle⟩ := length_key_of_mentionsAny s h
    exact Nat.lt_of_le_of_lt hle (length_key_adt i ht)
  | tuple ts =>
    obtain ⟨t, ht, hle⟩ := length_key_of_mentionsAny s h
    exact Nat.lt_of_le_of_lt hle (length_key_tuple ht)
  | _ => cases h

/-- The second pattern is a parameter that occurs in the first as a proper part. -/
def surrounds : Ty → Ty → Bool
  | .param _, _ => false
  | t, .param a => mentions a t
  | _, _ => false

theorem key_eq_of_bare_eq {t u : Ty} (e : t.bare = u.bare) : t.key = u.key := by
  rw [key, ← keyOnto_bare, e, keyOnto_bare, key]

theorem surrounds_eq_false {t u : Ty} {s : Subst} (e : (t.subst s).bare = (u.subst s).bare) :
    surrounds t u = false := by
  by_contra h
  rw [Bool.not_eq_false] at h
  cases u with
  | param a =>
    have ht : ∀ b, t ≠ .param b := by
      rintro b rfl
      cases h
    have hm : mentions a t = true := by
      cases t with
      | param b => cases h
      | _ => exact h
    have hlt := length_key_lt_of_mentions s ht hm
    rw [key_eq_of_bare_eq e] at hlt
    exact Nat.lt_irrefl _ hlt
  | _ => cases t <;> cases h

/-- The types are different under every substitution. -/
def distinct (t u : Ty) : Bool := clash t u || surrounds t u || surrounds u t

theorem distinct_eq_false {t u : Ty} {s : Subst} (e : (t.subst s).bare = (u.subst s).bare) :
    distinct t u = false := by
  rw [distinct, clash_eq_false t u e, surrounds_eq_false e, surrounds_eq_false e.symm]
  rfl

/-! ## What the one pattern has where the other has a parameter -/

mutual

/-- The parameters of the first pattern, and what the second has at their places. -/
def against : Ty → Ty → List (Text × Ty)
  | .param a, q => [(a, q)]
  | .ref _ p, .ref _ q => against p q
  | .adt _ ps, .adt _ qs => againstAll ps qs
  | .tuple ps, .tuple qs => againstAll ps qs
  | .slice p, .slice q => against p q
  | _, _ => []

def againstAll : List Ty → List Ty → List (Text × Ty)
  | p :: ps, q :: qs => against p q ++ againstAll ps qs
  | _, _ => []

end

mutual

/-- In a common instance, what is put for a parameter is what the other pattern becomes there. -/
theorem subst_against {s s' : Subst} {a : Text} {u : Ty} : ∀ (p q : Ty),
    (p.subst s).bare = (q.subst s').bare → (a, u) ∈ against p q →
    ((Ty.param a).subst s).bare = (u.subst s').bare
  | .param b, q, e, h => by
    obtain ⟨rfl, rfl⟩ := Prod.mk.inj (List.mem_singleton.1 h)
    exact e
  | .ref m p, q, e, h => by
    cases q with
    | ref n q => exact subst_against p q (ref.inj e).2 h
    | _ => cases h
  | .adt i ps, q, e, h => by
    cases q with
    | adt j qs => exact subst_againstAll ps qs (adt.inj e).2 h
    | _ => cases h
  | .tuple ps, q, e, h => by
    cases q with
    | tuple qs => exact subst_againstAll ps qs (tuple.inj e) h
    | _ => cases h
  | .slice p, q, e, h => by
    cases q with
    | slice q => exact subst_against p q (slice.inj e) h
    | _ => cases h
  | .num _, q, _, h | .prim _, q, _, h | .missing, q, _, h | .infer .., q, _, h
  | .unknown, q, _, h | .anon _, q, _, h => by cases q <;> cases h

theorem subst_againstAll {s s' : Subst} {a : Text} {u : Ty} : ∀ (ps qs : List Ty),
    bareAll (substAll s ps) = bareAll (substAll s' qs) → (a, u) ∈ againstAll ps qs →
    ((Ty.param a).subst s).bare = (u.subst s').bare
  | [], _, _, h => nomatch h
  | _ :: _, [], _, h => nomatch h
  | p :: ps, q :: qs, e, h => by
    obtain ⟨hp, hps⟩ := List.cons.inj e
    rcases List.mem_append.1 h with h | h
    · exact subst_against p q hp h
    · exact subst_againstAll ps qs hps h

end

/-- Two of the types that are to be put for one parameter are different. -/
def conflicts (bs : List (Text × Ty)) : Bool :=
  bs.any fun b => bs.any fun c => b.1 == c.1 && distinct b.2 c.2

theorem conflicts_eq_false {ps qs : List Ty} {s s' : Subst}
    (e : bareAll (substAll s ps) = bareAll (substAll s' qs)) :
    conflicts (againstAll ps qs) = false := by
  simp only [conflicts, List.any_eq_false, Bool.and_eq_true, beq_iff_eq, not_and,
    Bool.not_eq_true]
  rintro ⟨a, u⟩ hu ⟨b, v⟩ hv rfl
  exact distinct_eq_false
    ((subst_againstAll ps qs e hu).symm.trans (subst_againstAll ps qs e hv))

/-! ## The ends of keys -/

def isParam : Ty → Bool
  | .param _ => true
  | _ => false

theorem head?_keyOnto_subst (s : Subst) (rest : Text) : ∀ {t : Ty}, t.isParam = false →
    (keyOnto (t.subst s) rest).head? = (keyOnto t rest).head?
  | .adt i (t :: ts), _ => by
    simp only [subst, substAll, keyOnto, List.head?_append]
    rfl
  | .ref .immutable _, _ | .ref .mutable _, _ | .adt _ [], _ | .tuple _, _ | .slice _, _ => rfl
  | .missing, _ | .num _, _ | .prim _, _ | .infer .., _ | .unknown, _ | .anon _, _ => rfl

theorem getLast?_argsKey (rest : Text) (t : Ty) (ts : List Ty) :
    (rest ++ argsKey (t :: ts)).getLast? = (">" : Text).getLast? := by
  rw [argsKey, keyListOnto_eq, ← List.append_assoc, ← List.append_assoc, List.getLast?_append]
  rfl

end Ty

namespace Goal
variable {g h : Goal} {s s' : Subst}

theorem head?_keyText_subst (s : Subst) (hg : g.self.isParam = false) :
    (g.subst s).keyText.head? = g.keyText.head? := by
  rw [keyText_eq, keyText_eq, ← Ty.keyOnto_eq, ← Ty.keyOnto_eq]
  rw [subst, Ty.head?_keyOnto_subst s _ hg, Ty.keyOnto_eq, Ty.keyOnto_eq, List.head?_append,
    List.head?_append]
  rfl

theorem getLast?_keyText (g : Goal) : g.keyText.getLast? = (keyTail g.trait g.args).getLast? := by
  have htail : keyTail g.trait g.args ≠ [] := List.cons_ne_nil _ _
  rw [keyText_eq, List.getLast?_append, List.getLast?_eq_some_getLast htail, Option.some_or]

theorem getLast?_keyText_subst (g : Goal) (s : Subst) :
    (g.subst s).keyText.getLast? = g.keyText.getLast? := by
  rw [getLast?_keyText, getLast?_keyText, subst]
  cases g.args with
  | nil => rfl
  | cons t ts =>
    rw [Ty.substAll, keyTail, keyTail, ← List.append_assoc, ← List.append_assoc,
      Ty.getLast?_argsKey, Ty.getLast?_argsKey]

/-- The keys of the goals differ under all substitutions, as their ends show. -/
def keysDiffer (g h : Goal) : Bool :=
  g.keyText.getLast? != h.keyText.getLast? ||
    (!g.self.isParam && !h.self.isParam && g.keyText.head? != h.keyText.head?)

theorem keysDiffer_eq_false (e : (g.subst s).key = (h.subst s').key) : keysDiffer g h = false := by
  have htext : (g.subst s).keyText = (h.subst s').keyText := congrArg (fun k => k.text.get) e
  have hlast : g.keyText.getLast? = h.keyText.getLast? := by
    rw [← getLast?_keyText_subst g s, htext, getLast?_keyText_subst]
  have hhead : g.self.isParam = false → h.self.isParam = false →
      g.keyText.head? = h.keyText.head? := fun hg hh => by
    rw [← head?_keyText_subst s hg, htext, head?_keyText_subst s' hh]
  cases hg : g.self.isParam <;> cases hh : h.self.isParam <;> simp_all [keysDiffer]

end Goal
end Mismatch
