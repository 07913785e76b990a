import Mismatch.Command.Run

/-!
# Two spellings of an option

An option of a check has its value in the next argument or behind an equals sign. The logger, the
settings and the check read the arguments one after the other, and only the last of them knows that
an argument is the value of an option (`AtOption`). The others take out what looks like a flag of
theirs first. So the spellings mean the same unless the value is such a flag, and then they do not
(`spellings_agree_iff`).
-/

namespace Mismatch.Command

open Log (LogOption)

variable {arg value : Text} {args before after : List Text} {s : Settings}

/-! ## Flags -/

/-- An argument that holds for every command: it is about logging or makes a setting, also one whose
value is refused. -/
def isFlag (arg : Text) : Bool :=
  (LogOption.ofArg? arg).isSome || (Settings.standard.ofArg? arg).isSome

/-- The arguments that are left for the command. -/
def words (args : List Text) : List Text := args.filter fun arg => !isFlag arg

theorem isSome_ofArg? (s s' : Settings) (arg : Text) :
    (s.ofArg? arg).isSome = (s'.ofArg? arg).isSome := by
  grind [Settings.ofArg?]

theorem ofArg?_eq_none (h : isFlag arg = false) (s : Settings) :
    LogOption.ofArg? arg = none ∧ s.ofArg? arg = none := by
  rw [isFlag, Bool.or_eq_false_iff, isSome_ofArg? _ s] at h
  simpa using h

namespace CommandLine

/-- The line with some more words in front. -/
def behind (line : CommandLine) (ws : List Text) : CommandLine :=
  ⟨line.settings, (ws ++ ·) <$> line.rest⟩

theorem behind_nil (line : CommandLine) : line.behind [] = line := by
  obtain ⟨s, rest⟩ := line
  cases rest <;> rfl

theorem behind_behind (line : CommandLine) (us ws : List Text) :
    (line.behind us).behind ws = line.behind (ws ++ us) := by
  obtain ⟨s, rest⟩ := line
  cases rest with
  | error value => rfl
  | ok shown => simp [behind]

/-- The line of further arguments after this one. -/
def goOn (line : CommandLine) (args : List Text) : CommandLine :=
  match line.rest with
  | .error _ => line
  | .ok ws => (ofArgs line.settings args).behind ws

theorem goOn_behind (line : CommandLine) (ws args : List Text) :
    (line.behind ws).goOn args = (line.goOn args).behind ws := by
  obtain ⟨s, rest⟩ := line
  cases rest with
  | error value => rfl
  | ok us => exact (behind_behind (ofArgs s args) us ws).symm

theorem ofArgs_cons_of_not_flag (h : isFlag arg = false) (s : Settings) (args : List Text) :
    ofArgs s (arg :: args) = (ofArgs s args).behind [arg] := by
  obtain ⟨hlog, hsetting⟩ := ofArg?_eq_none h s
  rw [ofArgs, hlog, hsetting]
  rfl

/-- A flag is left out, or refused whatever follows it. -/
theorem ofArgs_cons_of_flag (h : isFlag arg = true) (s : Settings) :
    (∃ s', ∀ args, ofArgs s (arg :: args) = ofArgs s' args) ∨
      ∃ value, ∀ args, ofArgs s (arg :: args) = ⟨s, .error value⟩ := by
  rw [isFlag, Bool.or_eq_true, isSome_ofArg? _ s] at h
  by_cases hlog : (LogOption.ofArg? arg).isSome = true
  · exact .inl ⟨s, fun args => by rw [ofArgs, if_pos hlog]⟩
  · obtain ⟨made, hmade⟩ := Option.isSome_iff_exists.1 (h.resolve_left hlog)
    cases made with
    | ok s' => exact .inl ⟨s', fun args => by rw [ofArgs, if_neg hlog, hmade]⟩
    | error value => exact .inr ⟨value, fun args => by rw [ofArgs, if_neg hlog, hmade]⟩

/-- A line is read from left to right: what follows it does not change what was read before. -/
theorem ofArgs_append (s : Settings) (before after : List Text) :
    ofArgs s (before ++ after) = (ofArgs s before).goOn after := by
  induction before generalizing s with
  | nil => exact (behind_nil (ofArgs s after)).symm
  | cons arg before ih =>
    rw [List.cons_append]
    cases hflag : isFlag arg with
    | false =>
      rw [ofArgs_cons_of_not_flag hflag, ofArgs_cons_of_not_flag hflag, ih, goOn_behind]
    | true =>
      rcases ofArgs_cons_of_flag hflag s with ⟨s', h⟩ | ⟨value, h⟩
      · rw [h, h, ih]
      · rw [h, h]
        rfl

/-- What is left of a line that is not refused are its words. -/
theorem rest_eq_words {ws : List Text} (h : (ofArgs s args).rest = .ok ws) : ws = words args := by
  induction args generalizing s ws with
  | nil => exact (Except.ok.inj h).symm
  | cons arg args ih =>
    cases hflag : isFlag arg with
    | false =>
      rw [ofArgs_cons_of_not_flag hflag, behind] at h
      cases hrest : (ofArgs s args).rest with
      | error value =>
        rw [hrest] at h
        cases h
      | ok us =>
        rw [hrest] at h
        obtain rfl := Except.ok.inj h
        simp [words, hflag, ih hrest]
    | true =>
      have hwords : words (arg :: args) = words args := by simp [words, hflag]
      rcases ofArgs_cons_of_flag hflag s with ⟨s', hs⟩ | ⟨value, hs⟩
      · rw [hs] at h
        exact hwords ▸ ih h
      · rw [hs] at h
        cases h

end CommandLine

/-! ## Options of a check -/

namespace ValueOption

/-- The option and its value in one argument. -/
def joined (o : ValueOption) (value : Text) : Text := o.name ++ "=" ++ value

theorem isFlag_name (o : ValueOption) : isFlag o.name = false := by cases o <;> rfl

theorem isFlag_joined (o : ValueOption) (value : Text) : isFlag (o.joined value) = false := by
  cases o <;> rfl

end ValueOption

namespace Given

theorem read_name (o : ValueOption) (value : Text) (args : List Text) (g : Given) :
    read (o.name :: value :: args) g = read args (g.set o value) := by
  cases o <;> rfl

theorem read_joined (o : ValueOption) (value : Text) (args : List Text) (g : Given) :
    read (o.joined value :: args) g = read args (g.set o value) := by
  cases o <;> rfl

/-- Whether the arguments end with the name of an option whose value is still to come. -/
def awaits : List Text → Bool
  | [] => false
  | arg :: args =>
    match ValueOption.all.find? (·.name == arg) with
    | some _ =>
      match args with
      | [] => true
      | _ :: args => awaits args
    | .none => awaits args

theorem read_append (h : awaits before = false) (after : List Text) (g : Given) :
    read (before ++ after) g = read before g >>= read after := by
  fun_induction awaits before generalizing g with
  | case1 => rfl
  | case2 arg o ho => cases h
  | case3 arg o ho value args ih =>
    obtain rfl : o.name = arg := by simpa using List.find?_some ho
    rw [List.cons_append, List.cons_append, read_name, read_name, ih h]
  | case4 arg args ho ih =>
    simp only [List.cons_append, read, ho]
    split
    · exact ih h _
    · split
      · exact ih h _
      · split
        · exact ih h _
        · rfl

/-- Where an option is read, its spellings are. -/
theorem read_spellings (h : awaits before = false) (o : ValueOption) (value : Text)
    (after : List Text) (g : Given) : read (before ++ o.name :: value :: after) g =
      read (before ++ o.joined value :: after) g := by
  rw [read_append h, read_append h]
  cases read before g with
  | error e => rfl
  | ok g => exact (read_name o value after g).trans (read_joined o value after g).symm

end Given

/-- The next argument is for a check, and is not the value of an option. -/
def AtOption (before : List Text) : Prop :=
  ∃ shown, words before = Text.ofString "check" :: shown ∧ Given.awaits shown = false

theorem logOptions_spellings (hv : isFlag value = false) (o : ValueOption)
    (before after : List Text) (spec : Option Text) :
    Log.Config.ofArgs (before ++ o.name :: value :: after) spec =
      Log.Config.ofArgs (before ++ o.joined value :: after) spec := by
  have hname := (ofArg?_eq_none o.isFlag_name .standard).1
  have hvalue := (ofArg?_eq_none hv .standard).1
  have hjoined := (ofArg?_eq_none (o.isFlag_joined value) .standard).1
  have hoptions : (before ++ o.name :: value :: after).filterMap LogOption.ofArg? =
      (before ++ o.joined value :: after).filterMap LogOption.ofArg? := by
    simp [hname, hvalue, hjoined]
  simp only [Log.Config.ofArgs, hoptions]

theorem dispatch_check (env : Environment) (s : Settings) (l : Log.Logger) (args : List Text) :
    dispatch env s l "check" args = match CheckOptions.parse args with
      | .error e => ⟨2, .err (Text.lines ["error: " ++ e.message, checkUsage])⟩
      | .ok o => check env s l o := rfl

theorem dispatch_spellings {shown : List Text} (h : Given.awaits shown = false)
    (env : Environment) (s : Settings) (l : Log.Logger) (o : ValueOption) (value : Text)
    (after : List Text) : dispatch env s l "check" (shown ++ o.name :: value :: after) =
      dispatch env s l "check" (shown ++ o.joined value :: after) := by
  have hparse : CheckOptions.parse (shown ++ o.name :: value :: after) =
      CheckOptions.parse (shown ++ o.joined value :: after) := by
    rw [CheckOptions.parse, CheckOptions.parse, Given.read_spellings h]
  rw [dispatch_check, dispatch_check, hparse]

theorem run_spellings (hv : isFlag value = false) (env : Environment) (h : AtOption before)
    (o : ValueOption) (after : List Text) :
    run env (before ++ o.name :: value :: after) = run env (before ++ o.joined value :: after) := by
  obtain ⟨shown, hwords, hshown⟩ := h
  rw [run, run, logOptions_spellings hv, CommandLine.ofArgs_append, CommandLine.ofArgs_append]
  cases hrest : (CommandLine.ofArgs .standard before).rest with
  | error value => simp only [CommandLine.goOn, hrest]
  | ok ws =>
    obtain rfl := (CommandLine.rest_eq_words hrest).trans hwords
    simp only [CommandLine.goOn, hrest, CommandLine.ofArgs_cons_of_not_flag o.isFlag_name,
      CommandLine.ofArgs_cons_of_not_flag hv,
      CommandLine.ofArgs_cons_of_not_flag (o.isFlag_joined value)]
    generalize CommandLine.ofArgs _ after = line
    obtain ⟨s, rest⟩ := line
    cases rest with
    | error value => rfl
    | ok us =>
      generalize Log.Logger.init _ _ = l
      exact congrArg (fun exit : Exit => Run.mk s ⟨exit.code, Output.logged l env
        [⟨.debug, "cli", Text.join ["command `", "check", "`"]⟩] ++ exit.output⟩)
        (dispatch_spellings hshown env s l o value us)

/-! ## Values that are flags -/

/-- Arguments that make a check succeed, whatever options stand before them. -/
def sameTypes : List Text := ["--expected", "u8", "--actual", "u8", "--return-of", "f"]

theorem code_joined (env : Environment) (o : ValueOption) (value : Text) :
    (run env ("check" :: o.joined value :: sameTypes)).exit.code = 0 := by
  cases o <;> rfl

/-- A value that is taken for a flag is missing where the option is read, so that the option takes
the next argument for its value, or the flag is refused. -/
theorem code_name (hv : isFlag value = true) (env : Environment) (o : ValueOption) :
    (run env ("check" :: o.name :: value :: sameTypes)).exit.code = 2 := by
  rw [run]
  cases hrest : (CommandLine.ofArgs .standard ("check" :: o.name :: value :: sameTypes)).rest with
  | error value => rfl
  | ok ws =>
    have hcheck : isFlag "check" = false := rfl
    have hsame : (sameTypes.filter fun arg => !isFlag arg) = sameTypes := rfl
    obtain rfl : ws = Text.ofString "check" :: o.name :: sameTypes := by
      simpa [words, hcheck, o.isFlag_name, hv, hsame] using CommandLine.rest_eq_words hrest
    cases o <;> rfl

/-- The two spellings of an option with a value give the same exit code and the same output in all
command lines, whatever stands before the option and after it, exactly if the value is no flag. -/
theorem spellings_agree_iff (o : ValueOption) (value : Text) :
    (∀ env before after, AtOption before →
      (run env (before ++ o.name :: value :: after)).exit =
        (run env (before ++ o.joined value :: after)).exit) ↔ isFlag value = false := by
  refine ⟨fun h => ?_, fun hv env before after hbefore => by rw [run_spellings hv env hbefore]⟩
  cases hv : isFlag value with
  | false => rfl
  | true =>
    let env : Environment := ⟨false, none, none, 0, .utc⟩
    have hcodes := congrArg Exit.code (h env ["check"] sameTypes ⟨[], rfl, rfl⟩)
    rw [List.singleton_append, List.singleton_append, code_name hv, code_joined] at hcodes
    cases hcodes

/-- A variable with a minus sign, which reads like a flag of the logger. -/
theorem spellings_differ_negation : AtOption ["check", "--expected", "i32", "--actual", "i32"] ∧
    (run ⟨false, none, none, 0, .utc⟩
      ["check", "--expected", "i32", "--actual", "i32", "--text", "-v"]).exit.code = 2 ∧
    (run ⟨false, none, none, 0, .utc⟩
      ["check", "--expected", "i32", "--actual", "i32", "--text=-v"]).exit.code = 0 :=
  ⟨⟨["--expected", "i32", "--actual", "i32"], rfl, rfl⟩, rfl, rfl⟩

end Mismatch.Command
