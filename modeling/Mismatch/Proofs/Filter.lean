import Mathlib.Data.Fintype.EquivFin
import Mismatch.Log.Filter
import Mismatch.Proofs.Lookup

/-!
# The thresholds of a filter

A filter that was set up by specifications lists no module twice (`Filter.distinct_respec`). The
least of its thresholds is at most the threshold of every module and is that of some module
(`Filter.minLevel_le_threshold`, `Filter.exists_threshold_eq`).
-/

namespace Mismatch.Log

namespace Level
variable {a b c : Level}

theorem le_iff_rank : a ≤ b ↔ a.rank ≤ b.rank := Iff.rfl

theorem le_refl (a : Level) : a ≤ a := Nat.le_refl a.rank

theorem le_trans (h : a ≤ b) (h' : b ≤ c) : a ≤ c := Nat.le_trans h h'

theorem le_off (a : Level) : a ≤ .off := by cases a <;> decide

theorem rank_min (a b : Level) : (min a b).rank = min a.rank b.rank := by
  change (if a.rank ≤ b.rank then a else b).rank = _
  split <;> omega

theorem le_min_iff : a ≤ min b c ↔ a ≤ b ∧ a ≤ c := by
  rw [le_iff_rank, rank_min, Nat.le_min]
  rfl

theorem min_eq_or (a b : Level) : min a b = a ∨ min a b = b := by
  change (if a ≤ b then a else b) = a ∨ (if a ≤ b then a else b) = b
  split
  · exact .inl rfl
  · exact .inr rfl

end Level

namespace Filter
variable {f : Filter} {m : Text} {level : Level}

/-- No module is listed twice. -/
def Distinct (f : Filter) : Prop := (f.modules.map Prod.fst).Nodup

theorem distinct_uniform (base : Level) : (uniform base).Distinct := List.nodup_nil

theorem Distinct.setBase (h : f.Distinct) (level : Level) : (f.setBase level).Distinct := h

theorem Distinct.setModule (h : f.Distinct) (m : Text) (level : Level) :
    (f.setModule m level).Distinct := by
  refine List.nodup_cons.2 ⟨fun hm => ?_, h.sublist (List.filter_sublist.map Prod.fst)⟩
  obtain ⟨e, he, rfl⟩ := List.mem_map.1 hm
  simpa using (List.mem_filter.1 he).2

theorem Distinct.token (h : f.Distinct) (t : Text) : (f.token t).Distinct := by
  simp only [Filter.token]
  split
  · split
    · exact h
    · exact h.setModule _ _
  · split
    · exact h.setBase _
    · exact h.setModule _ _

/-- Whatever the filter was, the new one lists no module twice. -/
theorem distinct_respec (f : Filter) (spec : Text) : (f.respec spec).Distinct := by
  suffices h : ∀ (ts : List Text) (f : Filter), f.Distinct → (ts.foldl Filter.token f).Distinct from
    h _ _ List.nodup_nil
  intro ts
  induction ts with
  | nil => exact fun _ h => h
  | cons t ts ih => exact fun f h => ih (f.token t) (h.token t)

theorem foldl_min_spec (es : List (Text × Level)) (base : Level) :
    (∀ a, a ≤ es.foldl (fun m e => min m e.2) base ↔ a ≤ base ∧ ∀ e ∈ es, a ≤ e.2) ∧
    (es.foldl (fun m e => min m e.2) base = base ∨
      ∃ e ∈ es, es.foldl (fun m e => min m e.2) base = e.2) := by
  induction es generalizing base with
  | nil => exact ⟨fun a => by simp, .inl rfl⟩
  | cons x es ih =>
    obtain ⟨hle, heq⟩ := ih (min base x.2)
    refine ⟨fun a => ?_, ?_⟩
    · rw [List.foldl_cons, hle, Level.le_min_iff, List.forall_mem_cons, and_assoc]
    · rw [List.foldl_cons]
      rcases heq with h | ⟨e, he, h⟩
      · rcases Level.min_eq_or base x.2 with hb | hx
        · exact .inl (h.trans hb)
        · exact .inr ⟨x, List.mem_cons_self, h.trans hx⟩
      · exact .inr ⟨e, List.mem_cons_of_mem x he, h⟩

theorem le_minLevel_iff {a : Level} :
    a ≤ f.minLevel ↔ a ≤ f.base ∧ ∀ e ∈ f.modules, a ≤ e.2 :=
  (foldl_min_spec f.modules f.base).1 a

theorem threshold_of_mem (h : f.Distinct) (hm : (m, level) ∈ f.modules) :
    f.threshold m = level := by
  obtain ⟨before, after, hsplit⟩ := List.append_of_mem hm
  have hlookup : f.modules.lookup m = some level := by
    refine List.lookup_eq_some_iff.2 ⟨before, after, hsplit, fun e he => bne_iff_ne.2 ?_⟩
    rw [Distinct, hsplit, List.map_append, List.nodup_append] at h
    exact (h.2.2 e.1 (List.mem_map_of_mem he) m List.mem_cons_self).symm
  rw [threshold, hlookup, Option.getD_some]

theorem threshold_cases (f : Filter) (m : Text) :
    f.threshold m = f.base ∨ (m, f.threshold m) ∈ f.modules :=
  (lookup_getD_cases f.modules m f.base).symm.imp_left And.right

theorem minLevel_le_threshold (f : Filter) (m : Text) : f.minLevel ≤ f.threshold m := by
  obtain ⟨hbase, hmodules⟩ := le_minLevel_iff.1 (Level.le_refl f.minLevel)
  rcases f.threshold_cases m with h | h
  · rw [h]
    exact hbase
  · exact hmodules _ h

/-- The least threshold is that of some module, as there are modules that are not listed. -/
theorem exists_threshold_eq (h : f.Distinct) : ∃ m, f.threshold m = f.minLevel := by
  rcases (foldl_min_spec f.modules f.base).2 with hbase | ⟨⟨m, level⟩, hm, hlevel⟩
  · obtain ⟨m, hm⟩ := Infinite.exists_notMem_finset (f.modules.map Prod.fst).toFinset
    have hlookup : f.modules.lookup m = none :=
      lookup_eq_none_iff_not_mem.2 fun hmap => hm (List.mem_toFinset.2 hmap)
    exact ⟨m, by rw [threshold, hlookup, Option.getD_none, minLevel, hbase]⟩
  · exact ⟨m, (threshold_of_mem h hm).trans hlevel.symm⟩

theorem le_minLevel_iff_threshold (h : f.Distinct) {a : Level} :
    a ≤ f.minLevel ↔ ∀ m, a ≤ f.threshold m := by
  refine ⟨fun ha m => Level.le_trans ha (f.minLevel_le_threshold m), fun ha => ?_⟩
  obtain ⟨m, hm⟩ := exists_threshold_eq h
  exact hm ▸ ha m

end Filter

end Mismatch.Log
