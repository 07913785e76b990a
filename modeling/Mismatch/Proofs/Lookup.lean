/-!
# Association lists

The memory of a search, the modules of a filter and the tables of escapes are lists of pairs. What
is looked up in one is the value of its first entry with the key.
-/

namespace Mismatch

variable {α β : Type} [BEq α] [LawfulBEq α] {j k : α} {x : β} {es : List (α × β)}

theorem mem_of_lookup (h : es.lookup k = some x) : (k, x) ∈ es := by
  obtain ⟨before, after, rfl, -⟩ := List.lookup_eq_some_iff.1 h
  exact List.mem_append_right before List.mem_cons_self

theorem lookup_eq_none_iff_not_mem : es.lookup k = none ↔ k ∉ es.map Prod.fst := by
  rw [List.lookup_eq_none_iff]
  constructor
  · intro h hk
    obtain ⟨e, he, rfl⟩ := List.mem_map.1 hk
    exact bne_iff_ne.1 (h e he) rfl
  · exact fun h e he => bne_iff_ne.2 fun hk => h (hk ▸ List.mem_map_of_mem he)

/-- With a default for keys that are not listed, there is always an answer. -/
theorem lookup_getD_cases (es : List (α × β)) (k : α) (x : β) :
    (k, (es.lookup k).getD x) ∈ es ∨ k ∉ es.map Prod.fst ∧ (es.lookup k).getD x = x := by
  cases h : es.lookup k with
  | some y => exact .inl (mem_of_lookup h)
  | none => exact .inr ⟨lookup_eq_none_iff_not_mem.1 h, rfl⟩

theorem lookup_cons_ne (h : j ≠ k) (x : β) (es : List (α × β)) :
    List.lookup j ((k, x) :: es) = es.lookup j := by
  rw [List.lookup_cons, beq_false_of_ne h]

theorem lookup_filter_ne (h : j ≠ k) (es : List (α × β)) :
    (es.filter fun e => e.1 != k).lookup j = es.lookup j := by
  induction es with
  | nil => rfl
  | cons e es ih =>
    by_cases he : e.1 = k
    · rw [List.filter_cons_of_neg (by simpa using he), ih, lookup_cons_ne (he ▸ h)]
    · rw [List.filter_cons_of_pos (by simpa using he), List.lookup_cons, List.lookup_cons, ih]

end Mismatch
