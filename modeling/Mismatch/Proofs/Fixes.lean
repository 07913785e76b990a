import Mismatch.Fixes
import Mismatch.Proofs.Conversion

/-!
# Fixes are well typed and backed

The fixes of a mismatch are the conversions and the changes of signatures. All of them keep what
`Candidate.Justified` says, on the memory on which they were looked for and in every later session
with the same table.
-/

namespace Mismatch.Fixes

open Select

variable {S : Solver} {given : Cache} {A : Goal → Prop} {expected actual : Ty} {e : Expr}
  {l m m' : Memo}

theorem eq_of_mem_changeReturn {c : Candidate} (hc : c ∈ changeReturn actual e) :
    ∃ site, c = .changeReturnType site actual := by
  unfold changeReturn at hc
  split at hc
  · cases hc
  · split at hc
    · cases hc
    · exact ⟨_, List.mem_singleton.1 hc⟩

theorem eq_of_mem_changeLet {c : Candidate} (hc : c ∈ changeLet actual e) :
    ∃ name, c = .changeLetType name actual := by
  unfold changeLet at hc
  split at hc
  · cases hc
  · exact ⟨_, List.mem_singleton.1 hc⟩

/-- A signature is changed to the actual type, if that can be written down. -/
theorem justified_changes : ∀ c ∈ (if actual.containsUnknownOrAnon then []
    else changeReturn actual e ++ changeLet actual e), c.Justified S l expected actual := by
  intro c hc
  split at hc
  · cases hc
  · have hdef : ∀ u ∈ actual.nodes, u.isUnknownOrAnon = false := by
      simpa [Ty.containsUnknownOrAnon] using ‹¬ actual.containsUnknownOrAnon = true›
    rcases List.mem_append.1 hc with hc | hc
    · obtain ⟨site, rfl⟩ := eq_of_mem_changeReturn hc
      exact ⟨rfl, hdef⟩
    · obtain ⟨name, rfl⟩ := eq_of_mem_changeLet hc
      exact ⟨rfl, hdef⟩

theorem ensures_candidates (hA : Faithful A) (hl : Sound S.table given (UpTo A) l.cache)
    (hw : ∀ q, Conversion.Puts S expected actual q → q.Within S given A) :
    Ensures S given A (candidates S expected actual e) fun cs =>
      ∀ c ∈ cs, c.Justified S l expected actual := by
  rw [candidates]
  split
  · refine (Conversion.ensures_candidates hA hl hw).bind fun conversions hconv => .report (.pure ?_)
    exact List.forall_mem_append.2 ⟨hconv, justified_changes⟩
  · exact .report (.pure justified_changes)

/-- Every fix is well typed and backed by the queries behind it, on the memory on which it was found
and in every later session with the same table. -/
theorem candidates_justified (hA : Faithful A)
    (hw : ∀ q, Conversion.Puts S expected actual q → q.Within S m.cache A) {cs : List Candidate}
    (hr : (candidates S expected actual e).run m = some (cs, m')) {m'' : Memo}
    (hm : m'' = m ∨ Session S.table m.cache A m' m'') :
    ∀ c ∈ cs, c.Justified S m'' expected actual := by
  exact Ensures.later hA (fun l hl => ensures_candidates hA hl hw) hr hm

/-- A box is made from its content, or the binding takes the type of the content. -/
theorem candidates_justified_box : ∃ cs m',
    (candidates Sample.solver (Sample.box .bool) .bool ⟨[120], true, false, some [121], none⟩).run
      ⟨[], []⟩ = some (cs, m') ∧
    cs.map Candidate.kindName = [Text.ofString "ConvertVia", Text.ofString "ChangeLetType"] ∧
    ∀ c ∈ cs, c.Justified Sample.solver m' (Sample.box .bool) .bool := by
  have hw : ∀ q, Conversion.Puts Sample.solver (Sample.box .bool) .bool q →
      q.Within Sample.solver [] (Listed Sample.goals) := by
    intro q hq
    refine .listed Sample.closes_goals fun g hg => ?_
    cases hq with
    | chain =>
      obtain ⟨n, -, u, hu, hg, -⟩ := hg
      obtain rfl := Sample.reaches_bool hu
      obtain rfl := Option.some.inj hg
      exact Sample.listed (by simp [Sample.goals])
    | fromValue known =>
      obtain rfl := Option.some.inj known
      exact Sample.listed (by simp [show g = _ from hg, Sample.goals])
    | tryFrom known | fromStr known | toOwned known | toText known => cases known
    | @refer via trait m inner known refers expects => cases expects
  have hkinds : ((candidates Sample.solver (Sample.box .bool) .bool
      ⟨[120], true, false, some [121], none⟩).run ⟨[], []⟩).map (·.1.map Candidate.kindName) =
      some [Text.ofString "ConvertVia", Text.ofString "ChangeLetType"] := by decide +kernel
  obtain ⟨⟨cs, m'⟩, hr, hcs⟩ := Option.map_eq_some_iff.1 hkinds
  exact ⟨cs, m', hr, hcs, candidates_justified Sample.faithful_goals hw hr (.inr .refl)⟩

end Mismatch.Fixes
