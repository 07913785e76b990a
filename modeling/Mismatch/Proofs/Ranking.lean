import Mismatch.Proofs.EditDistance

/-!
# Ranking similar names

A name whose length alone puts it out of reach is not compared, and nothing is lost by that: the
distance of two texts is never below the difference of their lengths (`withinDistance_eq`). The
names within reach are put in order by their distance and then byte by byte. Two names come before
each other in this order only if they are the same, so there is one ranking of the candidates and it
does not depend on how they are listed (`IsRanking.eq_of_perm`). The similar names are those at its
front (`similar_front`).
-/

namespace Mismatch.Text

variable {input a b c : Text} {candidates candidates' ranked ranked' : List Text}
  {maxDistance maxResults : Nat}

/-- The nearer name comes first, and of two names at one distance the one with the lesser bytes. -/
def Precedes (input a b : Text) : Prop :=
  distance input a < distance input b ∨ distance input a = distance input b ∧ a ≤ b

instance (input a b : Text) : Decidable (Precedes input a b) :=
  inferInstanceAs (Decidable (_ ∨ _))

/-- All candidates within a distance, each as often as it is listed, in their order. -/
structure IsRanking (input : Text) (candidates : List Text) (maxDistance : Nat)
    (ranked : List Text) : Prop where
  perm : ranked.Perm (candidates.filter fun c => distance input c ≤ maxDistance)
  pairwise : ranked.Pairwise (Precedes input)

namespace Precedes

theorem antisymm (h : Precedes input a b) (h' : Precedes input b a) : a = b := by
  rcases h with h | ⟨he, h⟩ <;> rcases h' with h' | ⟨he', h'⟩
  · omega
  · omega
  · omega
  · exact List.le_antisymm h h'

theorem trans (h : Precedes input a b) (h' : Precedes input b c) : Precedes input a c := by
  rcases h with h | ⟨he, h⟩ <;> rcases h' with h' | ⟨he', h'⟩
  · exact .inl (h.trans h')
  · exact .inl (he' ▸ h)
  · exact .inl (he ▸ h')
  · exact .inr ⟨he.trans he', List.le_trans h h'⟩

theorem total (input a b : Text) : Precedes input a b ∨ Precedes input b a := by
  rcases Nat.lt_trichotomy (distance input a) (distance input b) with h | h | h
  · exact .inl (.inl h)
  · rcases List.le_total a b with hab | hba
    · exact .inl (.inr ⟨h, hab⟩)
    · exact .inr (.inr ⟨h.symm, hba⟩)
  · exact .inr (.inl h)

end Precedes

theorem IsRanking.eq_of_perm (h : IsRanking input candidates maxDistance ranked)
    (h' : IsRanking input candidates' maxDistance ranked') (hp : candidates.Perm candidates') :
    ranked = ranked' := by
  have hkept := hp.filter fun c => decide (distance input c ≤ maxDistance)
  refine List.Perm.eq_of_pairwise (fun a b _ _ => Precedes.antisymm) h.pairwise h'.pairwise ?_
  exact (h.perm.trans hkept).trans h'.perm.symm

def ranking (input : Text) (candidates : List Text) (maxDistance : Nat) : List Text :=
  (candidates.filter fun c => distance input c ≤ maxDistance).mergeSort
    fun a b => decide (Precedes input a b)

theorem isRanking_ranking (input : Text) (candidates : List Text) (maxDistance : Nat) :
    IsRanking input candidates maxDistance (ranking input candidates maxDistance) := by
  refine ⟨List.mergeSort_perm .., ?_⟩
  have hsorted : (ranking input candidates maxDistance).Pairwise
      fun a b => decide (Precedes input a b) = true := by
    refine List.pairwise_mergeSort (fun a b c hab hbc => ?_) (fun a b => ?_) _
    · exact decide_eq_true ((of_decide_eq_true hab).trans (of_decide_eq_true hbc))
    · simpa using Precedes.total input a b
  exact hsorted.imp of_decide_eq_true

/-! ## Scores -/

/-- No candidate within the distance is ruled out by its length. -/
theorem withinDistance_eq (input : Text) (candidates : List Text) (maxDistance : Nat) :
    withinDistance input candidates maxDistance =
      (candidates.filter fun c => distance input c ≤ maxDistance).map
        fun c => (distance input c, c) := by
  induction candidates with
  | nil => rfl
  | cons c candidates ih =>
    have hgap := lengthGap_le_distance input c
    rw [withinDistance, List.filterMap_cons, ← withinDistance, ih]
    by_cases h : distance input c ≤ maxDistance
    · rw [List.filter_cons_of_pos (by simpa using h), List.map_cons]
      simp only [hgap.trans h, h, if_true]
    · rw [List.filter_cons_of_neg (by simpa using h)]
      simp only [h, if_false, ite_self]

theorem nearerOrBefore_eq (input a b : Text) :
    nearerOrBefore (distance input a, a) (distance input b, b) = decide (Precedes input a b) := by
  simp only [nearerOrBefore, Precedes]
  split
  · next h => simp [h]
  · next h => simp [h]

theorem mergeSort_withinDistance (input : Text) (candidates : List Text) (maxDistance : Nat) :
    (withinDistance input candidates maxDistance).mergeSort nearerOrBefore =
      (ranking input candidates maxDistance).map fun c => (distance input c, c) := by
  rw [withinDistance_eq, ranking]
  exact (List.map_mergeSort fun a _ b _ => (nearerOrBefore_eq input a b).symm).symm

theorem similar_eq_take (hi : input ≠ []) : similar input candidates maxResults maxDistance =
    (ranking input candidates maxDistance).take maxResults := by
  rw [similar, if_neg (by simpa using hi), mergeSort_withinDistance, ← List.map_take, List.map_map]
  exact List.map_id _

/-- The candidates within a distance of a text have just one ranking by distance and name, and the
similar names are the first ones in it. So they are the same for every order of the candidates. -/
theorem similar_front (hi : input ≠ []) (candidates : List Text) (maxResults maxDistance : Nat) :
    (∃! ranked, IsRanking input candidates maxDistance ranked) ∧
    (∀ ranked, IsRanking input candidates maxDistance ranked →
      similar input candidates maxResults maxDistance = ranked.take maxResults) ∧
    ∀ candidates', candidates'.Perm candidates →
      similar input candidates' maxResults maxDistance =
        similar input candidates maxResults maxDistance := by
  have hranking := isRanking_ranking input candidates maxDistance
  refine ⟨⟨_, hranking, fun ranked h => h.eq_of_perm hranking (.refl _)⟩, fun ranked h => ?_,
    fun candidates' hp => ?_⟩
  · rw [similar_eq_take hi, hranking.eq_of_perm h (.refl _)]
  · rw [similar_eq_take hi, similar_eq_take hi,
      (isRanking_ranking input candidates' maxDistance).eq_of_perm hranking hp]

def lengths : List Text := ["tenth", "length", "len", "Length", "length"]

/-- The name that is listed twice is found twice, and a capital comes before a small letter. -/
theorem similar_front_lenth : ("lenth" : Text) ≠ [] ∧
    similar "lenth" lengths 3 1 = (["Length", "length", "length", "tenth"] : List Text).take 3 := by
  have hi : ("lenth" : Text) ≠ [] := by decide
  exact ⟨hi, (similar_front hi lengths 3 1).2.1 _ ⟨by decide, by decide⟩⟩

end Mismatch.Text
