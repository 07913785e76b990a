import Mismatch.Proofs.Filter

/-!
# Filters and the calls that made them

A token of a specification names a module, or sets the threshold of all modules that are not named,
or is empty (`Filter.token_cases`). Settings made later override earlier ones, so the threshold of a
module is the one given by the last token that names it. A new specification forgets the named
modules, but not the threshold for the others: that one is the latest that any call has set
(`Filter.threshold_run`).
-/

namespace Mismatch

theorem Text.splitOn_eq (sep : UInt8) (t : Text) : Text.splitOn sep t = List.splitOn sep t := by
  induction t with
  | nil => rfl
  | cons b t ih =>
    rw [Text.splitOn, ih, List.splitOn_cons_eq_if_modifyHead]
    split
    · rfl
    · cases h : List.splitOn sep t with
      | nil => exact absurd h (List.splitOn_ne_nil sep t)
      | cons p ps => rfl

namespace Log.Filter

open Text

variable {f : Filter} {t : Text}

/-! ## Tokens -/

/-- The pieces of a specification between its commas. -/
def tokens (spec : Text) : List Text := List.splitOn (byte ',') spec

/-- The module that a token names in front of its first equals sign. The empty token names none, nor
does a token for all modules. -/
def named? (t : Text) : Option Text :=
  if t = [] ∨ ofString "*=" <+: t then none else some (t.takeWhile (· != byte '='))

/-- The level behind the first equals sign of a token. A token without one asks for everything. -/
def levelOf (t : Text) : Level :=
  match t.dropWhile (· != byte '=') with
  | [] => .trace
  | _ :: level => .ofText level

def given? (m t : Text) : Option Level := if named? t = some m then some (levelOf t) else none

/-- The level that a token gives to all modules that are not named. -/
def base? (t : Text) : Option Level := if ofString "*=" <+: t then some (levelOf t) else none

/-! ## Calls -/

inductive Call where
  | respec (spec : Text)
  | setBase (level : Level)

def apply (f : Filter) : Call → Filter
  | .respec spec => f.respec spec
  | .setBase level => f.setBase level

/-- The filter after the calls, the first of the list first. -/
def run (f : Filter) (calls : List Call) : Filter := calls.foldl apply f

def Call.spec? : Call → Option Text
  | .respec spec => some spec
  | .setBase _ => none

/-- The levels that a call gives to all modules that are not named, the first one first. -/
def Call.bases : Call → List Level
  | .respec spec => (tokens spec).filterMap base?
  | .setBase level => [level]

def lastTokens (calls : List Call) : List Text :=
  (calls.filterMap Call.spec?).getLast?.elim [] tokens

/-- The level that the calls give to a module: by the last token of the last specification that
names it, or else by the latest setting for all modules. -/
def stated (calls : List Call) (m : Text) : Level :=
  ((lastTokens calls).filterMap (given? m)).getLast?.getD
    ((calls.flatMap Call.bases).getLast?.getD .info)

/-! ## What one token does -/

theorem lookup_setModule (f : Filter) (m m' : Text) (level : Level) :
    (f.setModule m' level).modules.lookup m =
      if m' = m then some level else f.modules.lookup m := by
  rw [setModule]
  by_cases h : m' = m
  · rw [if_pos h, h, List.lookup_cons_self]
  · rw [if_neg h, lookup_cons_ne (Ne.symm h), lookup_filter_ne (Ne.symm h)]

theorem token_of_named (f : Filter) (ht : t ≠ []) (hstar : ¬ ofString "*=" <+: t) :
    f.token t = f.setModule (t.takeWhile (· != byte '=')) (levelOf t) := by
  have hsplit : t.takeWhile (· != byte '=') ++ t.dropWhile (· != byte '=') = t :=
    List.takeWhile_append_dropWhile
  have hdrop : t.drop (t.takeWhile (· != byte '=')).length = t.dropWhile (· != byte '=') :=
    (congrArg _ hsplit.symm).trans List.drop_left
  rw [token, hdrop, levelOf]
  cases hrest : t.dropWhile (· != byte '=') with
  | nil =>
    have hname : (t.takeWhile (· != byte '=')).isEmpty = false := by
      rw [hrest, List.append_nil] at hsplit
      rwa [hsplit, List.isEmpty_eq_false_iff]
    simp only [hname]
    rfl
  | cons b level =>
    -- A token that names `*` in front of an equals sign would start with `*=`.
    have hb : b = byte '=' := by
      have hhead := List.head?_dropWhile_not (· != byte '=') t
      rw [hrest] at hhead
      simpa using hhead
    have hname : (t.takeWhile (· != byte '=') == ofString "*") = false := by
      refine beq_false_of_ne fun hm => hstar ⟨level, ?_⟩
      rw [← hsplit, hm, hrest, hb]
      rfl
    simp only [hname]
    rfl

/-- A token changes nothing, or the threshold of all modules that are not named, or that of the
module that it names. -/
theorem token_cases (f : Filter) (t : Text) :
    (named? t = none ∧ base? t = none ∧ f.token t = f) ∨
    (named? t = none ∧ base? t = some (levelOf t) ∧ f.token t = f.setBase (levelOf t)) ∨
    ∃ m, named? t = some m ∧ base? t = none ∧ f.token t = f.setModule m (levelOf t) := by
  by_cases ht : t = []
  · subst ht
    exact .inl ⟨rfl, rfl, rfl⟩
  by_cases hstar : ofString "*=" <+: t
  · refine .inr (.inl ⟨if_pos (.inr hstar), if_pos hstar, ?_⟩)
    obtain ⟨level, rfl⟩ := hstar
    rfl
  · exact .inr (.inr ⟨_, if_neg (not_or.2 ⟨ht, hstar⟩), if_neg hstar, f.token_of_named ht hstar⟩)

theorem lookup_token (f : Filter) (t m : Text) :
    (f.token t).modules.lookup m = (given? m t).or (f.modules.lookup m) := by
  rcases f.token_cases t with ⟨hname, -, h⟩ | ⟨hname, -, h⟩ | ⟨m', hname, -, h⟩ <;>
    rw [h, given?, hname]
  · rfl
  · rfl
  · rw [lookup_setModule]
    by_cases hm : m' = m
    · rw [if_pos hm, if_pos (congrArg some hm)]; rfl
    · rw [if_neg hm, if_neg (mt Option.some.inj hm)]; rfl

theorem base_token (f : Filter) (t : Text) : (f.token t).base = (base? t).getD f.base := by
  rcases f.token_cases t with ⟨-, hbase, h⟩ | ⟨-, hbase, h⟩ | ⟨m, -, hbase, h⟩ <;>
    rw [h, hbase] <;> rfl

/-! ## Last settings -/

theorem getLast?_filterMap_cons {α β : Type} (g : α → Option β) (x : α) (xs : List α) :
    ((x :: xs).filterMap g).getLast? = ((xs.filterMap g).getLast?).or (g x) := by
  cases h : g x with
  | none => rw [List.filterMap_cons_none h, Option.or_none]
  | some y =>
    rw [List.filterMap_cons_some h, List.getLast?_cons]
    cases (xs.filterMap g).getLast? <;> rfl

theorem lookup_foldl_token (ts : List Text) (f : Filter) (m : Text) :
    (ts.foldl token f).modules.lookup m =
      ((ts.filterMap (given? m)).getLast?).or (f.modules.lookup m) := by
  induction ts generalizing f with
  | nil => rfl
  | cons t ts ih =>
    rw [List.foldl_cons, ih, lookup_token, getLast?_filterMap_cons, Option.or_assoc]

theorem base_foldl_token (ts : List Text) (f : Filter) :
    (ts.foldl token f).base = (ts.filterMap base?).getLast?.getD f.base := by
  induction ts generalizing f with
  | nil => rfl
  | cons t ts ih =>
    rw [List.foldl_cons, ih, base_token, getLast?_filterMap_cons, Option.getD_or]

theorem lookup_respec (f : Filter) (spec m : Text) :
    (f.respec spec).modules.lookup m = ((tokens spec).filterMap (given? m)).getLast? := by
  rw [respec, splitOn_eq, lookup_foldl_token, List.lookup_nil, Option.or_none, tokens]

theorem base_respec (f : Filter) (spec : Text) :
    (f.respec spec).base = ((tokens spec).filterMap base?).getLast?.getD f.base := by
  rw [respec, splitOn_eq, base_foldl_token, tokens]

/-! ## What calls do -/

theorem base_apply (f : Filter) (c : Call) : (f.apply c).base = c.bases.getLast?.getD f.base := by
  cases c with
  | respec spec => exact f.base_respec spec
  | setBase level => rfl

theorem lookup_apply (f : Filter) (c : Call) (m : Text) : (f.apply c).modules.lookup m =
    c.spec?.elim (f.modules.lookup m) fun spec =>
      ((tokens spec).filterMap (given? m)).getLast? := by
  cases c with
  | respec spec => exact f.lookup_respec spec m
  | setBase level => rfl

theorem Distinct.apply (h : f.Distinct) (c : Call) : (f.apply c).Distinct := by
  cases c with
  | respec spec => exact distinct_respec f spec
  | setBase level => exact h.setBase level

theorem run_cons (f : Filter) (c : Call) (calls : List Call) :
    f.run (c :: calls) = (f.apply c).run calls := rfl

theorem base_run (f : Filter) (calls : List Call) :
    (f.run calls).base = (calls.flatMap Call.bases).getLast?.getD f.base := by
  induction calls generalizing f with
  | nil => rfl
  | cons c calls ih =>
    rw [run_cons, ih, base_apply, List.flatMap_cons, List.getLast?_append, Option.getD_or]

theorem lookup_run (f : Filter) (calls : List Call) (m : Text) :
    (f.run calls).modules.lookup m =
      (calls.filterMap Call.spec?).getLast?.elim (f.modules.lookup m) fun spec =>
        ((tokens spec).filterMap (given? m)).getLast? := by
  induction calls generalizing f with
  | nil => rfl
  | cons c calls ih =>
    rw [run_cons, ih, lookup_apply, getLast?_filterMap_cons]
    -- A later specification forgets what the first call has set, so only without one it counts.
    cases (calls.filterMap Call.spec?).getLast? <;> rfl

theorem Distinct.run (h : f.Distinct) (calls : List Call) : (f.run calls).Distinct := by
  induction calls generalizing f with
  | nil => exact h
  | cons c calls ih => exact ih (h.apply c)

theorem threshold_run (calls : List Call) (m : Text) :
    ((uniform .info).run calls).threshold m = stated calls m := by
  rw [threshold, lookup_run, base_run, stated, lastTokens]
  cases (calls.filterMap Call.spec?).getLast? <;> rfl

/-- After any calls to a new filter, a module is heard from the level on that the calls give to it.
The least threshold of the filter is the least level at which some module is heard. -/
theorem shouldLog_run_iff (calls : List Call) (level : Level) :
    (∀ m, ((uniform .info).run calls).shouldLog level m = true ↔ stated calls m ≤ level) ∧
    ((∃ m, ((uniform .info).run calls).shouldLog level m = true) ↔
      ((uniform .info).run calls).minLevel ≤ level) := by
  have hheard (m : Text) : ((uniform .info).run calls).shouldLog level m = true ↔
      ((uniform .info).run calls).threshold m ≤ level := decide_eq_true_iff
  refine ⟨fun m => by rw [hheard, threshold_run], fun ⟨m, hm⟩ => ?_, fun h => ?_⟩
  · exact Level.le_trans (minLevel_le_threshold _ m) ((hheard m).1 hm)
  · obtain ⟨m, hm⟩ := exists_threshold_eq ((distinct_uniform .info).run calls)
    exact ⟨m, (hheard m).2 (hm ▸ h)⟩

/-- The last token for a module counts, a level that is set does not undo it, and a new
specification does. -/
example :
    stated [.respec "a=warn,*=fatal,a", .setBase .error] "a" = .trace ∧
    stated [.respec "a=warn,*=fatal,a", .setBase .error] "b" = .error ∧
    stated [.respec "a=warn,*=fatal,a", .respec "b=a=debug,"] "a" = .fatal ∧
    stated [.respec "a=warn,*=fatal,a", .respec "b=a=debug,"] "b" = .info := by decide

end Log.Filter
end Mismatch
