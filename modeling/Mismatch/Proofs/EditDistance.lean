import Mathlib.Order.Bounds.Basic
import Mathlib.Order.MinMax
import Mismatch.Text.Similar

/-!
# The distance counts edits

`Edits n s t` says that `n` insertions, deletions and substitutions of single bytes, one after the
other, lead from `s` to `t`. Rows that are built one under the other hold the numbers that
`leastEdits` computes from what becomes of the first bytes of two texts, here the last bytes of
their initial parts (`distance_eq_leastEdits`). There are that many edits between two texts
(`edits_leastEdits`), and one edit changes the number by at most one (`Edit.leastEdits_le`), so
there are not fewer. All else about the distance follows from its being the least number of edits
(`distance_metric`).
-/

namespace Mismatch.Text

variable {s t u : Text} {a b c : UInt8} {m n : Nat}

/-! ## Edits -/

/-- One byte is inserted, deleted or replaced. -/
inductive Edit : Text → Text → Prop
  | insert (u : Text) (b : UInt8) (v : Text) : Edit (u ++ v) (u ++ b :: v)
  | delete (u : Text) (b : UInt8) (v : Text) : Edit (u ++ b :: v) (u ++ v)
  | substitute (u : Text) (a b : UInt8) (v : Text) : Edit (u ++ a :: v) (u ++ b :: v)

/-- So many edits, one after the other, lead from the first text to the second. -/
inductive Edits : Nat → Text → Text → Prop
  | done (s : Text) : Edits 0 s s
  | step {n : Nat} {s t u : Text} : Edit s t → Edits n t u → Edits (n + 1) s u

namespace Edit

theorem symm (h : Edit s t) : Edit t s := by
  cases h with
  | insert u b v => exact delete u b v
  | delete u b v => exact insert u b v
  | substitute u a b v => exact substitute u b a v

theorem cons (h : Edit s t) (c : UInt8) : Edit (c :: s) (c :: t) := by
  cases h with
  | insert u b v => exact insert (c :: u) b v
  | delete u b v => exact delete (c :: u) b v
  | substitute u a b v => exact substitute (c :: u) a b v

theorem reverse (h : Edit s t) : Edit s.reverse t.reverse := by
  cases h with
  | insert u b v => simpa using insert v.reverse b u.reverse
  | delete u b v => simpa using delete v.reverse b u.reverse
  | substitute u a b v => simpa using substitute v.reverse a b u.reverse

theorem length_le (h : Edit s t) : t.length ≤ s.length + 1 := by
  cases h <;> simp only [List.length_append, List.length_cons] <;> omega

end Edit

namespace Edits

theorem trans (h : Edits m s t) (h' : Edits n t u) : Edits (m + n) s u := by
  induction h with
  | done s => simpa using h'
  | @step m s t u edit _ ih => simpa [Nat.add_right_comm] using step edit (ih h')

theorem symm (h : Edits n s t) : Edits n t s := by
  induction h with
  | done s => exact done s
  | step edit _ ih => exact ih.trans (step edit.symm (done _))

theorem cons (h : Edits n s t) (c : UInt8) : Edits n (c :: s) (c :: t) := by
  induction h with
  | done s => exact done (c :: s)
  | step edit _ ih => exact step (edit.cons c) ih

theorem reverse (h : Edits n s t) : Edits n s.reverse t.reverse := by
  induction h with
  | done s => exact done s.reverse
  | step edit _ ih => exact step edit.reverse ih

theorem reverse_iff : Edits n s.reverse t.reverse ↔ Edits n s t :=
  ⟨fun h => by simpa using h.reverse, reverse⟩

theorem delete_head (h : Edits n s t) (a : UInt8) : Edits (n + 1) (a :: s) t :=
  step (.delete [] a s) h

theorem insert_head (h : Edits n s t) (b : UInt8) : Edits (n + 1) s (b :: t) :=
  step (.insert [] b s) (h.cons b)

theorem replace_head (h : Edits n s t) (a b : UInt8) :
    Edits (n + if a == b then 0 else 1) (a :: s) (b :: t) := by
  split
  · next hab => exact eq_of_beq hab ▸ h.cons a
  · exact step (.substitute [] a b s) (h.cons b)

theorem length_le (h : Edits n s t) : t.length ≤ s.length + n := by
  induction h with
  | done s => exact Nat.le_refl _
  | step edit _ ih =>
    have hone := edit.length_le
    omega

theorem eq_of_zero (h : Edits 0 s t) : s = t := by
  cases h
  rfl

end Edits

/-! ## The least number of edits -/

/-- The number of edits between two texts by what becomes of their first bytes: the one is deleted,
the other is inserted, or the one is replaced by the other unless they are the same. -/
def leastEdits : Text → Text → Nat
  | [], t => t.length
  | a :: s, [] => (a :: s).length
  | a :: s, b :: t =>
    min (min (leastEdits s (b :: t) + 1) (leastEdits (a :: s) t + 1))
      (leastEdits s t + if a == b then 0 else 1)
termination_by s t => s.length + t.length

theorem leastEdits_nil_left (t : Text) : leastEdits [] t = t.length := by rw [leastEdits]

theorem leastEdits_nil_right (s : Text) : leastEdits s [] = s.length := by
  cases s <;> rw [leastEdits]

theorem leastEdits_cons_cons (a b : UInt8) (s t : Text) : leastEdits (a :: s) (b :: t) =
    min (min (leastEdits s (b :: t) + 1) (leastEdits (a :: s) t + 1))
      (leastEdits s t + if a == b then 0 else 1) := by
  rw [leastEdits]

theorem edits_leastEdits (s t : Text) : Edits (leastEdits s t) s t := by
  induction s, t using leastEdits.induct with
  | case1 t =>
    rw [leastEdits_nil_left]
    induction t with
    | nil => exact .done []
    | cons b t ih => exact ih.insert_head b
  | case2 a s =>
    rw [leastEdits_nil_right]
    induction a :: s with
    | nil => exact .done []
    | cons a s ih => exact ih.delete_head a
  | case3 a s b t hdelete hinsert hreplace =>
    rw [leastEdits_cons_cons]
    rcases min_choice (min (leastEdits s (b :: t) + 1) (leastEdits (a :: s) t + 1))
      (leastEdits s t + if a == b then 0 else 1) with h | h <;> rw [h]
    · rcases min_choice (leastEdits s (b :: t) + 1) (leastEdits (a :: s) t + 1) with h | h <;>
        rw [h]
      · exact hdelete.delete_head a
      · exact hinsert.insert_head b
    · exact hreplace.replace_head a b

/-! An edit of the first text changes the number by at most one. Where it takes place at the front,
the other text is taken off byte by byte; bytes in front of it make no difference. -/

theorem leastEdits_cons_le (a : UInt8) (s t : Text) :
    leastEdits (a :: s) t ≤ leastEdits s t + 1 := by
  cases t with
  | nil => simp [leastEdits_nil_right]
  | cons b t => rw [leastEdits_cons_cons]; omega

theorem leastEdits_insert_le (b : UInt8) (s t : Text) :
    leastEdits s (b :: t) ≤ leastEdits s t + 1 := by
  cases s with
  | nil => simp [leastEdits_nil_left]
  | cons a s => rw [leastEdits_cons_cons]; omega

theorem leastEdits_le_cons (a : UInt8) (s t : Text) :
    leastEdits s t ≤ leastEdits (a :: s) t + 1 := by
  induction t with
  | nil => simp only [leastEdits_nil_right, List.length_cons]; omega
  | cons b t ih =>
    have hinsert := leastEdits_insert_le b s t
    rw [leastEdits_cons_cons]
    omega

theorem leastEdits_cons_le_cons (a b : UInt8) (s t : Text) :
    leastEdits (a :: s) t ≤ leastEdits (b :: s) t + 1 := by
  induction t with
  | nil => simp [leastEdits_nil_right]
  | cons c t ih =>
    have hreplace : (if a == c then 0 else 1) ≤ 1 := by split <;> decide
    rw [leastEdits_cons_cons, leastEdits_cons_cons]
    omega

theorem leastEdits_le_under_cons (h : ∀ t, leastEdits s t ≤ leastEdits u t + 1) (c : UInt8)
    (t : Text) : leastEdits (c :: s) t ≤ leastEdits (c :: u) t + 1 := by
  induction t with
  | nil => simpa [leastEdits_nil_right] using h []
  | cons d t ih =>
    have hdelete := h (d :: t)
    have hreplace := h t
    rw [leastEdits_cons_cons, leastEdits_cons_cons]
    omega

theorem leastEdits_le_under_append (h : ∀ t, leastEdits s t ≤ leastEdits u t + 1) :
    ∀ w t : Text, leastEdits (w ++ s) t ≤ leastEdits (w ++ u) t + 1
  | [] => h
  | c :: w => leastEdits_le_under_cons (leastEdits_le_under_append h w) c

theorem Edit.leastEdits_le (h : Edit s u) (t : Text) : leastEdits s t ≤ leastEdits u t + 1 := by
  cases h with
  | insert w b v => exact leastEdits_le_under_append (leastEdits_le_cons b v) w t
  | delete w b v => exact leastEdits_le_under_append (leastEdits_cons_le b v) w t
  | substitute w a b v => exact leastEdits_le_under_append (leastEdits_cons_le_cons a b v) w t

theorem leastEdits_self (s : Text) : leastEdits s s = 0 := by
  induction s with
  | nil => exact leastEdits_nil_left []
  | cons a s ih => rw [leastEdits_cons_cons, ih]; simp

theorem Edits.leastEdits_le (h : Edits n s t) : leastEdits s t ≤ n := by
  induction h with
  | done s => exact (leastEdits_self s).le
  | @step n s t u edit _ ih => exact (edit.leastEdits_le u).trans (Nat.succ_le_succ ih)

theorem isLeast_leastEdits (s t : Text) : IsLeast {n | Edits n s t} (leastEdits s t) :=
  ⟨edits_leastEdits s t, fun _ h => Edits.leastEdits_le h⟩

theorem leastEdits_le_max (s t : Text) : leastEdits s t ≤ max s.length t.length := by
  induction s, t using leastEdits.induct with
  | case1 t => simp [leastEdits_nil_left]
  | case2 a s => simp [leastEdits_nil_right]
  | case3 a s b t _ _ hreplace =>
    have hone : (if a == b then 0 else 1) ≤ 1 := by split <;> decide
    rw [leastEdits_cons_cons, List.length_cons, List.length_cons]
    omega

/-! ## Rows -/

/-- The values of a function at a text that grows at its front by the given bytes. -/
def alongGrowth (f : Text → Nat) : (r bs : Text) → List Nat
  | r, [] => [f r]
  | r, b :: bs => f r :: alongGrowth f (b :: r) bs

theorem exists_alongGrowth_eq_cons (f : Text → Nat) (r bs : Text) :
    ∃ row, alongGrowth f r bs = f r :: row := by
  cases bs with
  | nil => exact ⟨[], rfl⟩
  | cons b bs => exact ⟨alongGrowth f (b :: r) bs, rfl⟩

theorem getLastD_alongGrowth (f : Text → Nat) (r bs : Text) :
    (alongGrowth f r bs).getLastD 0 = f (bs.reverse ++ r) := by
  induction bs generalizing r with
  | nil => rfl
  | cons b bs ih =>
    obtain ⟨row, hrow⟩ := exists_alongGrowth_eq_cons f (b :: r) bs
    have hlast : (alongGrowth f r (b :: bs)).getLastD 0 =
        (alongGrowth f (b :: r) bs).getLastD 0 := by
      rw [alongGrowth, hrow]
      rfl
    rw [hlast, ih, List.reverse_cons, List.append_assoc, List.singleton_append]

theorem alongGrowth_length (r bs : Text) :
    alongGrowth List.length r bs = List.range' r.length (bs.length + 1) := by
  induction bs generalizing r with
  | nil => rfl
  | cons b bs ih => rw [alongGrowth, ih, List.length_cons, List.length_cons, ← List.range'_succ]

/-- The cells under those for the bytes `p` are the ones for one more byte. -/
theorem distanceCells_alongGrowth (a : UInt8) (p r bs : Text) :
    leastEdits (a :: p) r ::
        distanceCells a (leastEdits (a :: p) r) bs (alongGrowth (leastEdits p) r bs) =
      alongGrowth (leastEdits (a :: p)) r bs := by
  induction bs generalizing r with
  | nil => rfl
  | cons b bs ih =>
    obtain ⟨above, habove⟩ := exists_alongGrowth_eq_cons (leastEdits p) (b :: r) bs
    have hcell := leastEdits_cons_cons a b p r
    rw [alongGrowth, alongGrowth, ← ih, habove, distanceCells, ← hcell]

theorem distanceRow_alongGrowth (a : UInt8) (p t : Text) :
    distanceRow t (alongGrowth (leastEdits p) [] t) a = alongGrowth (leastEdits (a :: p)) [] t := by
  obtain ⟨above, habove⟩ := exists_alongGrowth_eq_cons (leastEdits p) [] t
  have hleft : (alongGrowth (leastEdits p) [] t).headD 0 + 1 = leastEdits (a :: p) [] := by
    rw [habove, List.headD_cons, leastEdits_nil_right, leastEdits_nil_right, List.length_cons]
  rw [distanceRow, hleft, distanceCells_alongGrowth]

/-- After some bytes of the first text, the row holds the numbers of edits between these and the
initial parts of the second text. -/
theorem foldl_distanceRow (s p t : Text) :
    s.foldl (distanceRow t) (alongGrowth (leastEdits p) [] t) =
      alongGrowth (leastEdits (s.reverse ++ p)) [] t := by
  induction s generalizing p with
  | nil => rfl
  | cons a s ih =>
    rw [List.foldl_cons, distanceRow_alongGrowth, ih, List.reverse_cons, List.append_assoc,
      List.singleton_append]

theorem length_toLower (s : Text) : s.toLower.length = s.length := List.length_map ..

theorem distance_eq_leastEdits (s t : Text) :
    distance s t = leastEdits s.toLower.reverse t.toLower.reverse := by
  have hfirst : List.range (t.length + 1) = alongGrowth (leastEdits []) [] t.toLower := by
    rw [funext leastEdits_nil_left, alongGrowth_length, length_toLower, List.range_eq_range',
      List.length_nil]
  rw [distance, hfirst, foldl_distanceRow, getLastD_alongGrowth, List.append_nil, List.append_nil]

/-! ## Distances -/

theorem isLeast_distance (s t : Text) :
    IsLeast {n | Edits n s.toLower t.toLower} (distance s t) := by
  have h := isLeast_leastEdits s.toLower.reverse t.toLower.reverse
  simp only [Edits.reverse_iff] at h
  rwa [distance_eq_leastEdits]

theorem edits_distance (s t : Text) : Edits (distance s t) s.toLower t.toLower :=
  (isLeast_distance s t).1

theorem distance_le (h : Edits n s.toLower t.toLower) : distance s t ≤ n :=
  (isLeast_distance s t).2 h

theorem distance_comm (s t : Text) : distance s t = distance t s :=
  Nat.le_antisymm (distance_le (edits_distance t s).symm) (distance_le (edits_distance s t).symm)

theorem distance_eq_zero_iff : distance s t = 0 ↔ s.toLower = t.toLower := by
  constructor
  · intro h
    exact (h ▸ edits_distance s t : Edits 0 s.toLower t.toLower).eq_of_zero
  · intro h
    exact Nat.le_zero.1 (distance_le (h ▸ Edits.done s.toLower))

theorem distance_triangle (s t u : Text) : distance s u ≤ distance s t + distance t u :=
  distance_le ((edits_distance s t).trans (edits_distance t u))

theorem lengthGap_le_distance (s t : Text) : lengthGap s t ≤ distance s t := by
  have hright := (edits_distance s t).length_le
  have hleft := (edits_distance s t).symm.length_le
  rw [length_toLower, length_toLower] at hright hleft
  rw [lengthGap]
  omega

theorem distance_le_max (s t : Text) : distance s t ≤ max s.length t.length := by
  have h := leastEdits_le_max s.toLower.reverse t.toLower.reverse
  rwa [List.length_reverse, List.length_reverse, length_toLower, length_toLower,
    ← distance_eq_leastEdits] at h

/-- The distance of two texts is the least number of insertions, deletions and substitutions of
single bytes that lead from the one to the other in lower case. It is a metric on texts up to case,
between the difference and the greater one of the lengths. -/
theorem distance_metric (s t : Text) :
    IsLeast {n | Edits n s.toLower t.toLower} (distance s t) ∧
    distance s t = distance t s ∧
    (distance s t = 0 ↔ s.toLower = t.toLower) ∧
    (∀ u, distance s u ≤ distance s t + distance t u) ∧
    lengthGap s t ≤ distance s t ∧ distance s t ≤ max s.length t.length :=
  ⟨isLeast_distance s t, distance_comm s t, distance_eq_zero_iff, distance_triangle s t,
    lengthGap_le_distance s t, distance_le_max s t⟩

/-- Three edits are needed, and letters of either case are the same. -/
example : distance "kitten" "SITTING" = 3 := by decide

end Mismatch.Text
