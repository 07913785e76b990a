import Mismatch.Proofs.Bare

/-!
# How long keys are

The key of a type is longer than the keys of its parts. A goal has its type at the front of its key
and the trait with its arguments behind it, so that goals are compared in length part by part.
-/

namespace Mismatch

namespace Ty
variable {t : Ty} {ts : List Ty} {s : Subst} {a : Text}

theorem length_keyOnto (t : Ty) (rest : Text) :
    (keyOnto t rest).length = t.key.length + rest.length := by
  rw [keyOnto_eq, List.length_append]

theorem keyList_cons_cons (t u : Ty) (ts : List Ty) :
    keyList (t :: u :: ts) = t.key ++ ("," ++ keyList (u :: ts)) := by
  rw [keyList, keyListOnto, keyOnto_eq]
  rfl

theorem keyEach_cons (t : Ty) (ts : List Ty) :
    keyEach (t :: ts) = t.key ++ ("," ++ keyEach ts) := by
  rw [keyEach, keyEachOnto, keyOnto_eq]
  rfl

theorem length_key_le_keyList : ∀ {ts : List Ty}, t ∈ ts → t.key.length ≤ (keyList ts).length
  | [u], h => by
    obtain rfl := List.mem_singleton.1 h
    exact Nat.le_refl _
  | u :: v :: ts, h => by
    rw [keyList_cons_cons, List.length_append, List.length_append]
    rcases List.mem_cons.1 h with rfl | h
    · omega
    · have := length_key_le_keyList h
      omega

theorem length_key_le_keyEach : ∀ {ts : List Ty}, t ∈ ts → t.key.length ≤ (keyEach ts).length
  | u :: ts, h => by
    rw [keyEach_cons, List.length_append, List.length_append]
    rcases List.mem_cons.1 h with rfl | h
    · omega
    · have := length_key_le_keyEach h
      omega

theorem length_key_ref (m : Mutability) (t : Ty) : t.key.length < (ref m t).key.length := by
  cases m with
  | immutable => exact Nat.lt_succ_self _
  | mutable => exact Nat.lt_add_of_pos_right (n := t.key.length) (k := 5) (by decide)

theorem length_key_slice (t : Ty) : t.key.length < (slice t).key.length := by
  have h : (slice t).key.length = (keyOnto t "]").length + 1 := rfl
  rw [h, length_keyOnto]
  omega

theorem length_key_adt (i : Item) (h : t ∈ ts) : t.key.length < (adt i ts).key.length := by
  cases ts with
  | nil => cases h
  | cons u ts =>
    have hle := length_key_le_keyList h
    have hkey : (adt i (u :: ts)).key = i.qualified ++ ("<" ++ keyListOnto (u :: ts) ">") := rfl
    have hopen : ("<" : Text).length = 1 := rfl
    rw [hkey, keyListOnto_eq, List.length_append, List.length_append, List.length_append]
    omega

theorem length_key_tuple (h : t ∈ ts) : t.key.length < (tuple ts).key.length := by
  have hle := length_key_le_keyEach h
  have hkey : (tuple ts).key = "(" ++ keyEachOnto ts ")" := rfl
  have hopen : ("(" : Text).length = 1 := rfl
  rw [hkey, keyEachOnto_eq, List.length_append, List.length_append]
  omega

end Ty

/-! ## Goals -/

/-- The arguments of a trait in a key. -/
def Ty.argsKey : List Ty → Text
  | [] => []
  | t :: ts => "<" ++ Ty.keyListOnto (t :: ts) ">"

/-- What follows the type in the key of a goal. -/
def Goal.keyTail (trait : Item) (args : List Ty) : Text :=
  ": " ++ (trait.qualified ++ Ty.argsKey args)

namespace Goal
variable {t u : Ty} {trait trait' : Item} {args : List Ty}

theorem keyText_eq (g : Goal) : g.keyText = g.self.key ++ keyTail g.trait g.args := by
  rw [keyText, Ty.keyOnto_eq, keyTail]
  cases g.args <;> rfl

theorem keySize_eq (g : Goal) : g.keySize =
    g.self.key.length + (g.trait.qualified.length + (Ty.argsKey g.args).length) + 2 := by
  have hcolon : (": " : Text).length = 2 := rfl
  rw [keySize, keyText_eq, List.length_append, keyTail, List.length_append, List.length_append,
    hcolon]
  omega

/-- Goals of which one has a shorter type or a shorter name of its trait, and neither is longer. -/
theorem keySize_lt (h : t.key.length + trait.qualified.length <
    u.key.length + trait'.qualified.length) (args : List Ty) :
    keySize ⟨t, trait, args⟩ < keySize ⟨u, trait', args⟩ := by
  simp only [keySize_eq]
  omega

end Goal
end Mismatch
