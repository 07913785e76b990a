import Mathlib.Data.List.Forall2
import Mismatch.Proofs.Echoes
import Mismatch.Proofs.Fixes

/-!
# Display text decides nothing

The display text of inference variables is for readers only. Types that differ from others in such
text only have the same layers and the same forms, the same paths lead to them, and the same fixes
are found for them, whichever of the two is asked about first (`Solver.decisions_up_to_text`). The
lemmas follow the order in which the conversions are asked for, from single queries to all fixes.
-/

namespace Mismatch

open Select

/-! ## What is seen of a type -/

namespace Ty

theorem isNumeric_bare (t : Ty) : t.bare.isNumeric = t.isNumeric := by cases t <;> rfl

theorem isNumericLike_bare (t : Ty) : t.bare.isNumericLike = t.isNumericLike := by
  cases t with
  | infer k i d => cases k <;> rfl
  | _ => rfl

theorem isSharedRef_bare (t : Ty) : t.bare.isSharedRef = t.isSharedRef := by
  cases t with
  | ref m t => cases m <;> rfl
  | _ => rfl

theorem isStr_bare (t : Ty) : t.bare.isStr = t.isStr := by cases t <;> rfl

theorem isMissing_bare (t : Ty) : t.bare.isMissing = t.isMissing := by cases t <;> rfl

theorem isUnknownOrAnon_bare (t : Ty) : t.bare.isUnknownOrAnon = t.isUnknownOrAnon := by
  cases t <;> rfl

mutual

theorem nodes_bare : ∀ t : Ty, t.bare.nodes = t.nodes.map bare
  | .ref _ t | .slice t => by simp [bare, nodes, nodes_bare t]
  | .adt _ ts | .tuple ts => by simp [bare, nodes, nodesAll_bareAll ts]
  | .missing | .num _ | .prim _ | .param _ | .infer .. | .unknown | .anon _ => by
    simp [bare, nodes]

theorem nodesAll_bareAll : ∀ ts : List Ty, nodesAll (bareAll ts) = (nodesAll ts).map bare
  | [] => rfl
  | t :: ts => by simp [bareAll, nodesAll, nodes_bare t, nodesAll_bareAll ts]

end

theorem containsUnknownOrAnon_bare (t : Ty) :
    t.bare.containsUnknownOrAnon = t.containsUnknownOrAnon := by
  simp only [containsUnknownOrAnon, nodes_bare, List.any_map, Function.comp_def,
    isUnknownOrAnon_bare]

/-- The same layers lie under the same references. -/
theorem layers_bare : ∀ t : Ty, t.bare.layers = t.layers.map fun l => (l.1, l.2.bare)
  | .ref m t => by simp [bare, layers, layers_bare t]
  | .missing | .num _ | .prim _ | .adt .. | .tuple _ | .slice _ | .param _ | .infer .. | .unknown
  | .anon _ => by simp [bare, layers]

mutual

/-- The display text of a pattern is not seen in matching. -/
theorem bare_matchTy : ∀ (p t : Ty) (s : Subst), matchTy p.bare t s = matchTy p t s
  | .ref _ p, t, s | .slice p, t, s => by
    cases t with
    | infer k => cases k <;> rfl
    | _ => simp [bare, matchTy, equiv, bare_matchTy p]
  | .adt _ ps, t, s | .tuple ps, t, s => by
    cases t with
    | infer k => cases k <;> rfl
    | _ => simp [bare, matchTy, equiv, bareAll_matchEach ps]
  | .infer k i d, t, s => by cases t <;> simp [bare, matchTy, equiv]
  | .missing, _, _ | .num _, _, _ | .prim _, _, _ | .param _, _, _ | .unknown, _, _
  | .anon _, _, _ => rfl

theorem bareAll_matchEach : ∀ (ps ts : List Ty) (s : Subst),
    matchEach (bareAll ps) ts s = matchEach ps ts s
  | [], _, _ => rfl
  | _ :: _, [], _ => rfl
  | p :: ps, t :: ts, s => by
    simp only [bareAll, matchEach, bare_matchTy p t s]
    rcases matchTy p t s with ⟨b, s'⟩
    cases b with
    | true => exact bareAll_matchEach ps ts s'
    | false => rfl

end

theorem eq_adt_of_bare_eq {t : Ty} {i : Item} {us : List Ty} (e : t.bare = (adt i us).bare) :
    ∃ vs, t = .adt i vs ∧ vs.map bare = us.map bare := by
  cases t <;> simp_all [bare, bareAll_eq_map]

theorem any_isSharedRef_congr {ts us : List Ty} (e : us.map bare = ts.map bare) :
    us.any (·.isSharedRef) = ts.any (·.isSharedRef) := by
  have h (ts : List Ty) : (ts.map bare).any (·.isSharedRef) = ts.any (·.isSharedRef) := by
    simp only [List.any_map, Function.comp_def, isSharedRef_bare]
  rw [← h us, e, h]

end Ty

/-- What is known of an expression, the declared type without display text. -/
def Expr.bare (e : Expr) : Expr :=
  { e with returnSite := e.returnSite.map fun site => ⟨site.function, site.declared.bare⟩ }

namespace Candidate

/-- The fix with the bare forms of its types. -/
def bare : Candidate → Candidate
  | asCast t => asCast t.bare
  | convertVia via t e => convertVia via t.bare e.bare
  | convertAndUnpackVia via t e => convertAndUnpackVia via t.bare e.bare
  | derefRefBridge t p => derefRefBridge t.bare p
  | changeReturnType f t => changeReturnType f t.bare
  | changeLetType b t => changeLetType b t.bare
  | c => c

/-- The lists are equal up to display text. -/
def UpToText (cs ds : List Candidate) : Prop := ds.map bare = cs.map bare

theorem UpToText.nil : UpToText [] [] := rfl

theorem UpToText.singleton {c d : Candidate} (e : d.bare = c.bare) : UpToText [c] [d] :=
  congrArg (· :: []) e

theorem UpToText.append {cs cs' ds ds' : List Candidate} (h : UpToText cs ds)
    (h' : UpToText cs' ds') : UpToText (cs ++ cs') (ds ++ ds') := by
  rw [UpToText, List.map_append, List.map_append, h, h']

/-- The same fix for equivalent types. -/
structure Alike (c d : Candidate) : Prop where
  kind : c.kindName = d.kindName
  via : c.via? = d.via?
  path : c.path? = d.path?
  name : c.name = d.name
  target : c.target.equiv d.target = true
  error : c.error.equiv d.error = true

theorem alike_of_bare_eq {c d : Candidate} (e : d.bare = c.bare) : c.Alike d := by
  have kind : ∀ c : Candidate, c.bare.kindName = c.kindName := fun c => by cases c <;> rfl
  have via : ∀ c : Candidate, c.bare.via? = c.via? := fun c => by cases c <;> rfl
  have path : ∀ c : Candidate, c.bare.path? = c.path? := fun c => by cases c <;> rfl
  have name : ∀ c : Candidate, c.bare.name = c.name := fun c => by cases c <;> rfl
  have target : ∀ c : Candidate, c.bare.target = c.target.bare := fun c => by cases c <;> rfl
  have error : ∀ c : Candidate, c.bare.error = c.error.bare := fun c => by cases c <;> rfl
  refine ⟨?_, ?_, ?_, ?_, ?_, ?_⟩
  · rw [← kind, ← e, kind]
  · rw [← via, ← e, via]
  · rw [← path, ← e, path]
  · rw [← name, ← e, name]
  · rw [Ty.equiv_iff, ← target, ← e, target]
  · rw [Ty.equiv_iff, ← error, ← e, error]

end Candidate

/-! ## Paths -/

namespace DerefPath

theorem locate_bare (layers : List (List Mutability × Ty)) (chain : List Ty) : ∀ n : Nat,
    locate (layers.map fun l => (l.1, l.2.bare)) n (chain.map Ty.bare) = locate layers n chain := by
  induction chain with
  | nil => exact fun n => rfl
  | cons t ts ih =>
    intro n
    have hfind : (layers.map fun l => (l.1, l.2.bare)).find? (fun l => t.bare.equiv l.2) =
        (layers.find? fun l => t.equiv l.2).map fun l => (l.1, l.2.bare) := by
      simp only [List.find?_map, Function.comp_def, Ty.bare_equiv, Ty.equiv_bare]
    simp only [List.map_cons, locate, hfind, ih]
    cases layers.find? fun l => t.equiv l.2 <;> rfl

theorem mayBorrowMut_bare (p : DerefPath) (chain : List Ty) (e : Expr) :
    p.mayBorrowMut (chain.map Ty.bare) e.bare = p.mayBorrowMut chain e := by
  simp only [mayBorrowMut, Expr.bare, ← List.map_take, List.any_map, Function.comp_def,
    Ty.isSharedRef_bare]

/-- The path in a chain, if it may be taken. -/
def choose (expected : Ty) (e : Expr) (chain : List Ty) : Option DerefPath :=
  (locate expected.layers 0 chain).filter fun p => !(p.needsMut && !p.mayBorrowMut chain e)

theorem choose_bare (expected : Ty) (e : Expr) (chain : List Ty) :
    choose expected.bare e.bare (chain.map Ty.bare) = choose expected e chain := by
  simp only [choose, Ty.layers_bare, locate_bare, mayBorrowMut_bare]

/-- Once the chain is known, nothing is asked for any more. -/
theorem exists_find_eq (expected actual : Ty) (e : Expr) :
    ∃ tell : List Ty → Query (Option DerefPath),
    (∀ S : Solver, find S expected actual e = S.coercions actual >>= tell) ∧
    ∀ chain, OnlyReports (tell chain) (choose expected e chain) := by
  refine ⟨_, fun S => rfl, fun chain => ?_⟩
  unfold choose
  cases locate expected.layers 0 chain with
  | none => exact .report .pure
  | some p =>
    show OnlyReports (if _ then _ else _) (if _ then some p else none)
    split
    · simpa [*] using OnlyReports.report .pure
    · simpa [*] using OnlyReports.report .pure

variable {S : Solver} {given : Cache} {A : Goal → Prop} {ι : Type} {I : ι → Prop}
  {expected expected' actual actual' : Ty} {e e' : Expr}

theorem echoes_find (hA : Faithful A) (hexp : expected'.bare = expected.bare)
    (hact : actual'.bare = actual.bare) (he : e'.bare = e.bare)
    (hw : (Ask.coercions actual).Within S given A) :
    Echoes S given A (find S expected actual e) I
      (fun _ d => find (S.deepen d) expected' actual' e') fun p p' => p' = p := by
  obtain ⟨tell, hfind, htell⟩ := exists_find_eq expected actual e
  obtain ⟨tell', hfind', htell'⟩ := exists_find_eq expected' actual' e'
  simp only [hfind, hfind']
  refine (Solver.echoes_coercions hA hact hw).conclude htell (fun _ _ => htell')
    fun chain _ chain' _ hc => ?_
  rw [← choose_bare, hexp, he, hc, choose_bare]

end DerefPath

/-! ## Conversions -/

namespace Conversion
variable {S : Solver} {given : Cache} {A : Goal → Prop} {ι : Type} {I : ι → Prop}
  {expected expected' actual actual' target target' : Ty} {e e' : Expr}

theorem toOption_congr {r r' : Except SelectionError Ty} (h : r'.map Ty.bare = r.map Ty.bare) :
    r'.toOption.map Ty.bare = r.toOption.map Ty.bare := by
  cases r <;> cases r' <;> simp_all [Except.map, Except.toOption]

theorem echoes_none {α β : Type} {f : α → β} : Echoes S given A (pure none) I
    (fun _ _ => pure none) fun r r' : Option α => r'.map f = r.map f :=
  .pure fun _ _ => rfl

theorem echoes_project {trait? : Option Item} {self self' : Ty} {args args' : List Ty} {name : Text}
    {deref : Bool} (h : ∀ trait, trait? = some trait →
      Echoes S given A (if deref then S.projectDeref ⟨self, trait, args⟩ name
        else S.project ⟨self, trait, args⟩ name) I
        (fun _ d => if deref then (S.deepen d).projectDeref ⟨self', trait, args'⟩ name
          else (S.deepen d).project ⟨self', trait, args'⟩ name)
        fun r r' => r'.map Ty.bare = r.map Ty.bare) :
    Echoes S given A (project S trait? self args name deref) I
      (fun _ d => project (S.deepen d) trait? self' args' name deref)
      fun r r' => r'.map Ty.bare = r.map Ty.bare := by
  cases trait? with
  | none => exact echoes_none
  | some trait =>
    simp only [project, Solver.deepen_table]
    cases S.table.trait? trait with
    | none => exact echoes_none
    | some d =>
      dsimp only
      split
      · have h := h trait rfl
        cases deref <;> refine h.conclude (f := Except.toOption) (g := fun _ => Except.toOption)
          (fun r => ?_) (fun _ d r => ?_) fun _ _ _ _ hr => toOption_congr hr
        all_goals cases r with
        | error x => exact .report .pure
        | ok t => exact .pure
      · exact echoes_none

/-- Of the chain, only whether it ends in a string slice matters. -/
theorem fromStrError_eq : fromStrError S target actual = S.coercions actual >>= fun chain =>
    if chain.getLast?.any (·.isStr) then
      project S S.table.known.fromStrTrait target [] "Err" false
    else pure none := by
  unfold fromStrError
  congr 1
  funext chain
  cases chain.getLast? <;> rfl

theorem endsInStr_congr {ts us : List Ty} (e : us.map Ty.bare = ts.map Ty.bare) :
    us.getLast?.any (·.isStr) = ts.getLast?.any (·.isStr) := by
  have h : ∀ ts : List Ty, (ts.map Ty.bare).getLast?.any (·.isStr) = ts.getLast?.any (·.isStr) := by
    intro ts
    rw [List.getLast?_map]
    cases ts.getLast? with
    | none => rfl
    | some t => exact t.isStr_bare
  rw [← h us, e, h]

theorem equiv_congr {s s' t t' : Ty} (es : s'.bare = s.bare) (et : t'.bare = t.bare) :
    s'.equiv t' = s.equiv t := by
  rw [← Ty.bare_equiv s', ← Ty.equiv_bare, es, et, Ty.equiv_bare, Ty.bare_equiv]

section
variable (hA : Faithful A) (hact : actual'.bare = actual.bare)
  (hw : ∀ q, Puts S expected actual q → q.Within S given A)
include hA hact hw

theorem echoes_fromApplies (hexp : expected'.bare = expected.bare) :
    Echoes S given A (fromApplies S expected actual) I
      (fun _ d => fromApplies (S.deepen d) expected' actual') fun b b' => b' = b := by
  simp only [fromApplies, Solver.deepen_table]
  cases hk : S.table.known.fromTrait with
  | none => exact .pure fun _ _ => rfl
  | some trait =>
    refine Solver.echoes_canSelect hA ?_ (hw _ (.fromValue hk))
    simp only [Goal.bare, Ty.bareAll, hexp, hact]

theorem echoes_tryFromError (ht : Makes S.table.known expected target)
    (htarget : target'.bare = target.bare) : Echoes S given A (tryFromError S target actual) I
      (fun _ d => tryFromError (S.deepen d) target' actual')
      fun r r' => r'.map Ty.bare = r.map Ty.bare := by
  refine echoes_project fun trait hk => ?_
  refine Solver.echoes_project hA ?_ (hw _ (.tryFrom hk ht))
  simp only [Goal.bare, Ty.bareAll, htarget, hact]

theorem echoes_fromStrError (ht : Makes S.table.known expected target)
    (htarget : target'.bare = target.bare) : Echoes S given A (fromStrError S target actual) I
      (fun _ d => fromStrError (S.deepen d) target' actual')
      fun r r' => r'.map Ty.bare = r.map Ty.bare := by
  simp only [fromStrError_eq]
  refine (Solver.echoes_coercions hA hact (hw _ .chain)).bind fun chain => ?_
  refine .ite (fun p hp => endsInStr_congr hp.2) (fun _ => echoes_project fun trait hk => ?_)
    echoes_none
  refine Solver.echoes_project hA ?_ (hw _ (.fromStr hk ht))
  simp only [Goal.bare, Ty.bareAll, htarget]

theorem echoes_toOwnedMatches (hexp : expected'.bare = expected.bare) :
    Echoes S given A (toOwnedMatches S expected actual) I
      (fun _ d => toOwnedMatches (S.deepen d) expected' actual') fun b b' => b' = b := by
  have hproject : Echoes S given A (project S S.table.known.toOwnedTrait actual [] "Owned" true) I
      (fun _ d => project (S.deepen d) S.table.known.toOwnedTrait actual' [] "Owned" true)
      fun r r' => r'.map Ty.bare = r.map Ty.bare := by
    refine echoes_project fun trait hk => ?_
    refine Solver.echoes_projectDeref hA ?_ (hw _ (.toOwned hk))
    simp only [Goal.bare, Ty.bareAll, hact]
  refine hproject.conclude (f := (·.any expected.equiv)) (g := fun _ => (·.any expected'.equiv))
    (fun r => ?_) (fun _ _ r => ?_) fun r _ r' _ hr => ?_
  · cases r <;> exact .pure
  · cases r <;> exact .pure
  · cases r with
    | none => rw [Option.map_eq_none_iff.1 hr]; rfl
    | some t =>
      obtain ⟨t', rfl, ht⟩ := Option.map_eq_some_iff.1 hr
      exact equiv_congr hexp ht

theorem echoes_reaches (via : ConversionTrait) {args args' : List Ty}
    (hargs : Ty.bareAll args' = Ty.bareAll args)
    (hput : ∀ trait, via.item? S.table.known = some trait →
      Puts S expected actual (.canSelectDeref ⟨actual, trait, args⟩)) :
    Echoes S given A (reaches S (via.item? S.table.known) actual args) I
      (fun _ d => reaches (S.deepen d) (via.item? S.table.known) actual' args')
      fun b b' => b' = b := by
  unfold reaches
  cases hk : via.item? S.table.known with
  | none => exact .pure fun _ _ => rfl
  | some trait =>
    refine Solver.echoes_canSelectDeref hA ?_ (hw _ (hput trait hk))
    simp only [Goal.bare, hargs, hact]

/-! ### Groups of conversions -/

omit hA hact hw in
theorem upToText_offer {b : Bool} {c d : Candidate} (e : d.bare = c.bare) :
    Candidate.UpToText (offer b c) (offer b d) := by
  cases b with
  | false => exact .nil
  | true => exact .singleton e

omit hA hact hw in
/-- An optional error gives at most one fix. -/
theorem upToText_elim {f g : Ty → List Candidate} {r r' : Option Ty}
    (hr : r'.map Ty.bare = r.map Ty.bare)
    (h : ∀ e e' : Ty, e'.bare = e.bare → Candidate.UpToText (f e) (g e')) :
    Candidate.UpToText (r.elim [] f) (r'.elim [] g) := by
  cases r with
  | none =>
    obtain rfl := Option.map_eq_none_iff.1 hr
    exact .nil
  | some e =>
    obtain ⟨e', rfl, he⟩ := Option.map_eq_some_iff.1 hr
    exact h e e' he

theorem echoes_makers (hexp : expected'.bare = expected.bare) :
    Echoes S given A (makers S expected actual) I
      (fun _ d => makers (S.deepen d) expected' actual') Candidate.UpToText := by
  refine (echoes_fromApplies hA hact hw hexp).bind_eq fun b => ?_
  cases b with
  | true =>
    exact .pure fun _ _ => .singleton (by simp only [Candidate.bare, hexp])
  | false =>
    refine (echoes_tryFromError hA hact hw .whole hexp).conclude
      (f := (·.elim [] fun e => [.convertVia .tryFrom expected e]))
      (g := fun _ => (·.elim [] fun e => [.convertVia .tryFrom expected' e]))
      (fun r => ?_) (fun _ _ r => ?_) fun r _ r' _ hr => ?_
    · cases r <;> exact .pure
    · cases r <;> exact .pure
    · exact upToText_elim hr fun e e' he => .singleton (by simp only [Candidate.bare, hexp, he])

theorem echoes_parsers (hexp : expected'.bare = expected.bare) :
    Echoes S given A (parsers S expected actual) I
      (fun _ d => parsers (S.deepen d) expected' actual') Candidate.UpToText := by
  refine (echoes_fromStrError hA hact hw .whole hexp).conclude
    (f := (·.elim [] fun e => [.convertVia .fromStr expected e]))
    (g := fun _ => (·.elim [] fun e => [.convertVia .fromStr expected' e]))
    (fun r => ?_) (fun _ _ r => ?_) fun r _ r' _ hr => ?_
  · cases r <;> exact .pure
  · cases r <;> exact .pure
  · exact upToText_elim hr fun e e' he => .singleton (by simp only [Candidate.bare, hexp, he])

theorem echoes_toReference {m : Mutability} {inner inner' : Ty} (he : expected = .ref m inner)
    (hinner : inner'.bare = inner.bare) (hexp : expected'.bare = expected.bare)
    (hplace : e'.mutablePlace = e.mutablePlace) :
    Echoes S given A (toReference S expected m inner actual e) I
      (fun _ d => toReference (S.deepen d) expected' m inner' actual' e') Candidate.UpToText := by
  have hreach : ∀ {κ : Type} {J : κ → Prop} (via : ConversionTrait), via.refers = some m →
      Echoes S given A (reaches S (via.item? S.table.known) actual [inner]) J
        (fun _ d => reaches (S.deepen d) (via.item? S.table.known) actual' [inner'])
        fun b b' => b' = b := fun via hv =>
    echoes_reaches hA hact hw via (by simp only [Ty.bareAll, hinner])
      fun trait hk => .refer hk hv he
  have hvia : ∀ via : ConversionTrait,
      (Candidate.convertVia via expected' .missing).bare =
        (Candidate.convertVia via expected .missing).bare := fun via => by
    simp only [Candidate.bare, hexp]
  cases m with
  | immutable =>
    refine (hreach .borrow rfl).bind_eq fun b => (hreach .asRef rfl).bind_eq fun b' => ?_
    exact .pure fun _ _ => (upToText_offer (hvia _)).append (upToText_offer (hvia _))
  | mutable =>
    have hchange : Candidate.UpToText (offer actual.isSharedRef .changeRefToMutable)
        (offer actual'.isSharedRef .changeRefToMutable) := by
      rw [← actual'.isSharedRef_bare, hact, actual.isSharedRef_bare]
      exact upToText_offer rfl
    refine .ite (fun _ _ => by rw [hplace])
      (fun _ => .pure fun _ _ => hchange) ?_
    refine (Solver.echoes_coercions hA hact (hw _ .chain)).bind fun chain => ?_
    refine .ite (fun p hp => Ty.any_isSharedRef_congr hp.2)
      (fun _ => .pure fun _ _ => hchange) ?_
    refine (hreach .borrowMut rfl).bind_eq fun b => (hreach .asMut rfl).bind_eq fun b' => ?_
    exact .pure fun _ _ =>
      (hchange.append (upToText_offer (hvia _))).append (upToText_offer (hvia _))

theorem echoes_toResult {item : Item} {ok ok' err err' : Ty}
    (hk : S.table.known.resultType = some item) (he : expected = .adt item [ok, err])
    (hok : ok'.bare = ok.bare) (herr : err'.bare = err.bare) :
    Echoes S given A (toResult S ok err actual) I
      (fun _ d => toResult (S.deepen d) ok' err' actual') Candidate.UpToText := by
  have hmakes : Makes S.table.known expected ok := .value hk he
  have hoffer : ∀ (via : ConversionTrait) (r r' : Option Ty), r'.map Ty.bare = r.map Ty.bare →
      Candidate.UpToText (r.elim [] fun e => offer (err.equiv e) (.convertAndUnpackVia via ok e))
        (r'.elim [] fun e => offer (err'.equiv e) (.convertAndUnpackVia via ok' e)) := by
    intro via r r' hr
    refine upToText_elim hr fun e e' he => ?_
    rw [equiv_congr herr he]
    exact upToText_offer (by simp only [Candidate.bare, hok, he])
  refine (echoes_tryFromError hA hact hw hmakes hok).bind fun r => ?_
  refine (echoes_fromStrError hA hact hw hmakes hok).conclude
    (f := fun s => r.elim [] (fun e => offer (err.equiv e) (.convertAndUnpackVia .tryFrom ok e)) ++
      s.elim [] fun e => offer (err.equiv e) (.convertAndUnpackVia .fromStr ok e))
    (g := fun p s =>
      p.2.elim [] (fun e => offer (err'.equiv e) (.convertAndUnpackVia .tryFrom ok' e)) ++
      s.elim [] fun e => offer (err'.equiv e) (.convertAndUnpackVia .fromStr ok' e))
    (fun s => ?_) (fun p _ s => ?_) fun s p s' hp hs => ?_
  · cases r <;> cases s <;> exact .pure
  · cases p.2 <;> cases s <;> exact .pure
  · exact (hoffer .tryFrom r p.2 hp.2).append (hoffer .fromStr s s' hs)

/-- Whether the conversion to an owned string is offered, and what comes after. -/
theorem echoes_asString {α β : Type} {R : α → β → Prop} {k : Bool → Query α}
    {k' : ι → Nat → Bool → Query β} (hexp : expected'.bare = expected.bare)
    (hk : ∀ b, Echoes S given A (k b) I (fun i d => k' i d b) R) :
    Echoes S given A
      (if (match S.table.known.stringTy? with
          | some string => expected.equiv string
          | none => false) then do
        if ← reaches S S.table.known.toStringTrait actual [] then pure true >>= k
        else pure actual.isNumericLike >>= k
      else pure false >>= k) I
      (fun i d => if (match S.table.known.stringTy? with
          | some string => expected'.equiv string
          | none => false) then do
        if ← reaches (S.deepen d) S.table.known.toStringTrait actual' [] then pure true >>= k' i d
        else pure actual'.isNumericLike >>= k' i d
      else pure false >>= k' i d) R := by
  refine .ite (fun _ _ => ?_) (fun _ => ?_) (hk false)
  · cases S.table.known.stringTy? with
    | none => rfl
    | some string => exact equiv_congr hexp rfl
  · refine (echoes_reaches hA hact hw .toText rfl fun trait hk => .toText hk).bind_eq fun b => ?_
    refine .ite (fun _ _ => rfl) (fun _ => hk true) ?_
    rw [← actual'.isNumericLike_bare, hact, actual.isNumericLike_bare]
    exact hk actual.isNumericLike

theorem echoes_byForm (hexp : expected'.bare = expected.bare)
    (hplace : e'.mutablePlace = e.mutablePlace) :
    Echoes S given A (byForm S expected actual e) I
      (fun _ d => byForm (S.deepen d) expected' actual' e') Candidate.UpToText := by
  have hnil : Echoes S given A (pure ([] : List Candidate)) I (fun _ _ => pure [])
      Candidate.UpToText := .pure fun _ _ => .nil
  refine echoes_asString hA hact hw hexp fun b => ?_
  have htext : (Candidate.convertVia .toText expected' .missing).bare =
      (Candidate.convertVia .toText expected .missing).bare := by
    simp only [Candidate.bare, hexp]
  refine .ite (fun _ _ => rfl) (fun _ => .pure fun _ _ => .singleton htext) ?_
  cases expected with
  | ref m inner =>
    obtain ⟨inner', rfl, hinner⟩ := Ty.eq_ref_of_bare_eq hexp
    exact echoes_toReference hA hact hw rfl hinner hexp hplace
  | adt item args =>
    obtain ⟨args', rfl, hargs⟩ := Ty.eq_adt_of_bare_eq hexp
    match args with
    | [ok, err] =>
      obtain ⟨ok', rest, rfl, hok, hrest⟩ := List.map_eq_cons_iff.1 hargs
      obtain ⟨err', rest, rfl, herr, hrest⟩ := List.map_eq_cons_iff.1 hrest
      obtain rfl := List.map_eq_nil_iff.1 hrest
      refine .ite (fun _ _ => rfl) (fun hk => ?_) hnil
      exact echoes_toResult hA hact hw (eq_of_beq hk) rfl hok herr
    | [] | [_] | _ :: _ :: _ :: _ =>
      rcases args' with _ | ⟨_, _ | ⟨_, _ | ⟨_, _⟩⟩⟩ <;> first | exact hnil | simp at hargs
  | _ => cases expected' <;> first | exact hnil | simp [Ty.bare] at hexp

theorem echoes_bridge (hexp : expected'.bare = expected.bare) (he : e'.bare = e.bare) :
    Echoes S given A (bridge S expected actual e) I
      (fun _ d => bridge (S.deepen d) expected' actual' e') Candidate.UpToText := by
  refine (DerefPath.echoes_find hA hexp hact he (hw _ .chain)).bind_eq fun r => ?_
  cases r with
  | none => exact .pure fun _ _ => .nil
  | some p =>
    exact .pure fun _ _ => .singleton (by simp only [Candidate.bare, hexp])

omit hA hact hw in
theorem asSlice_bare : asSlice S expected.bare actual.bare = asSlice S expected actual := by
  unfold asSlice
  cases S.table.known.stringTy? with
  | none => rfl
  | some string =>
    simp only [Ty.bare_equiv]
    cases expected with
    | ref m t => cases m <;> cases t <;> rfl
    | _ => rfl

theorem echoes_candidates (hexp : expected'.bare = expected.bare) (he : e'.bare = e.bare) :
    Echoes S given A (candidates S expected actual e) I
      (fun _ d => candidates (S.deepen d) expected' actual' e') Candidate.UpToText := by
  have hplace : e'.bare.mutablePlace = e.bare.mutablePlace := congrArg Expr.mutablePlace he
  have hnum : (expected'.isNumeric && actual'.isNumericLike) =
      (expected.isNumeric && actual.isNumericLike) := by
    rw [← expected'.isNumeric_bare, ← actual'.isNumericLike_bare, hexp, hact,
      expected.isNumeric_bare, actual.isNumericLike_bare]
  refine .ite (fun _ _ => hnum) (fun _ => .answer (.report .pure) fun _ _ =>
    ⟨_, .singleton (by simp only [Candidate.bare, hexp]), fun _ => .report .pure⟩) ?_
  refine (echoes_makers hA hact hw hexp).bind fun made => ?_
  refine (echoes_parsers hA hact hw hexp).bind fun parsed => ?_
  refine (echoes_toOwnedMatches hA hact hw hexp).bind_eq fun b => ?_
  refine (echoes_byForm hA hact hw hexp hplace).bind fun formed => ?_
  refine (echoes_bridge hA hact hw hexp he).bind fun bridged => ?_
  refine .answer (.report .pure) ?_
  rintro ⟨⟨⟨⟨i, made'⟩, parsed'⟩, formed'⟩, bridged'⟩ ⟨⟨⟨⟨-, hmade⟩, hparsed⟩, hformed⟩, hbridged⟩
  have howned : Candidate.UpToText (offer b (.convertVia .toOwned expected .missing))
      (offer b (.convertVia .toOwned expected' .missing)) :=
    upToText_offer (by simp only [Candidate.bare, hexp])
  have hsliced : asSlice S expected' actual' = asSlice S expected actual := by
    rw [← asSlice_bare, hexp, hact, asSlice_bare]
  refine ⟨made' ++ parsed' ++ offer b (.convertVia .toOwned expected' .missing) ++ formed' ++
    asSlice S expected' actual' ++ bridged', ?_, fun _ => .report .pure⟩
  refine ((((hmade.append hparsed).append howned).append hformed).append ?_).append hbridged
  exact congrArg (List.map Candidate.bare) hsliced

end
end Conversion

/-! ## Fixes -/

namespace Fixes
variable {S : Solver} {given : Cache} {A : Goal → Prop} {ι : Type} {I : ι → Prop}
  {expected expected' actual actual' : Ty} {e e' : Expr}

theorem changeReturn_bare (actual : Ty) (e : Expr) :
    changeReturn actual.bare e.bare = (changeReturn actual e).map Candidate.bare := by
  unfold changeReturn Expr.bare
  cases e.returnSite with
  | none => rfl
  | some site =>
    simp only [Option.map_some, Ty.isMissing_bare, Ty.bare_equiv, Ty.equiv_bare]
    split <;> rfl

theorem changeLet_bare (actual : Ty) (e : Expr) :
    changeLet actual.bare e.bare = (changeLet actual e).map Candidate.bare := by
  unfold changeLet Expr.bare
  cases e.letBinding <;> rfl

theorem echoes_candidates (hA : Faithful A) (hexp : expected'.bare = expected.bare)
    (hact : actual'.bare = actual.bare) (he : e'.bare = e.bare)
    (hw : ∀ q, Conversion.Puts S expected actual q → q.Within S given A) :
    Echoes S given A (candidates S expected actual e) I
      (fun _ d => candidates (S.deepen d) expected' actual' e') Candidate.UpToText := by
  have hexpr : e'.bare.isExpression = e.bare.isExpression := congrArg Expr.isExpression he
  have hchanges : Candidate.UpToText
      (if actual.containsUnknownOrAnon then [] else changeReturn actual e ++ changeLet actual e)
      (if actual'.containsUnknownOrAnon then []
        else changeReturn actual' e' ++ changeLet actual' e') := by
    rw [← actual'.containsUnknownOrAnon_bare, hact, actual.containsUnknownOrAnon_bare]
    split
    · exact .nil
    · simp only [Candidate.UpToText, List.map_append, ← changeReturn_bare, ← changeLet_bare, hact,
        he]
  refine .ite (fun _ _ => hexpr) (fun _ => ?_) ?_
  · refine (Conversion.echoes_candidates hA hact hw hexp he).bind fun conversions => ?_
    exact .answer (.report .pure) fun p hp => ⟨_, hp.2.append hchanges, fun _ => .report .pure⟩
  · exact .answer (.report .pure) fun _ _ => ⟨_, hchanges, fun _ => .report .pure⟩

end Fixes

/-! ## All decisions -/

theorem forall₂_of_map_eq {α β : Type} {f : α → β} {as bs : List α} (e : bs.map f = as.map f) :
    List.Forall₂ (fun a b => f a = f b) as bs := by
  have h : List.Forall₂ Eq (as.map f) (bs.map f) := e ▸ List.forall₂_refl _
  exact List.forall₂_map_left_iff.1 (List.forall₂_map_right_iff.1 h)

theorem equiv_of_map_bare_eq {ts us : List Ty} (e : us.map Ty.bare = ts.map Ty.bare) :
    List.Forall₂ (fun t u => t.equiv u = true) ts us :=
  (forall₂_of_map_eq e).imp fun t u => (Ty.equiv_iff t u).2

theorem Candidate.UpToText.alike {cs ds : List Candidate} (h : UpToText cs ds) :
    List.Forall₂ Alike cs ds :=
  (forall₂_of_map_eq h).imp fun _ _ e => alike_of_bare_eq e.symm

section
variable {S : Solver} {A : Goal → Prop} {m : Memo} {g g' : Goal}
  {expected expected' actual actual' : Ty} {e e' : Expr}

/-- Types, goals and declared types that differ in display text only are equivalent to the same
types, match the same headers and have the same selections, chains, paths and fixes, be they asked
about first or after the others. -/
theorem Solver.decisions_up_to_text (hA : Faithful A) (hg : g'.bare = g.bare)
    (hexp : expected'.bare = expected.bare) (hact : actual'.bare = actual.bare)
    (he : e'.bare = e.bare) (hwg : (Ask.select g).Within S m.cache A)
    (hw : ∀ q, Conversion.Puts S expected actual q → q.Within S m.cache A) :
    expected'.equiv actual' = expected.equiv actual ∧
    (∀ (p p' : Ty) (s s' : Subst), p'.bare = p.bare → s'.bare = s.bare →
      (p'.matchTy actual' s').1 = (p.matchTy actual s).1 ∧
        (p'.matchTy actual' s').2.Equiv (p.matchTy actual s).2) ∧
    Repeats S A m (S.select g) (fun d => (S.deepen d).select g') Outcome.Equiv ∧
    Repeats S A m (S.coercions actual) (fun d => (S.deepen d).coercions actual')
      (List.Forall₂ fun t t' => t.equiv t' = true) ∧
    Repeats S A m (DerefPath.find S expected actual e)
      (fun d => DerefPath.find (S.deepen d) expected' actual' e') Eq ∧
    Repeats S A m (Fixes.candidates S expected actual e)
      (fun d => Fixes.candidates (S.deepen d) expected' actual' e')
      (List.Forall₂ Candidate.Alike) := by
  refine ⟨Conversion.equiv_congr hexp hact, fun p p' s s' hp hs => ?_, ?_, ?_, ?_, ?_⟩
  · have h := p.matchTy_bare actual' s'
    rw [hact, hs, p.matchTy_bare actual s] at h
    obtain ⟨h₁, h₂⟩ := Prod.mk.inj h
    rw [← p'.bare_matchTy, hp, p.bare_matchTy]
    exact ⟨h₁.symm, Subst.equiv_of_bare_eq h₂.symm⟩
  · exact ((echoes_select hA hg hwg).mono fun o p hp => Outcome.equiv_of_bare_eq hp.symm).repeats hA
  · exact ((echoes_coercions hA hact (hw _ .chain)).mono
      fun ts us hus => equiv_of_map_bare_eq hus).repeats hA
  · exact ((DerefPath.echoes_find hA hexp hact he (hw _ .chain)).mono
      fun p p' hp => hp.symm).repeats hA
  · exact ((Fixes.echoes_candidates hA hexp hact he hw).mono
      fun cs ds hcs => hcs.alike).repeats hA

end

namespace Sample

/-- An integer variable that is shown in one way or another. -/
def numeral (shown : Text) : Ty := .infer .int 0 shown

/-- An expression in a function that returns a boxed number and initializes a binding. -/
def inReturn (shown : Text) : Expr :=
  ⟨[120], true, false, some [121], some ⟨[102], box (numeral shown)⟩⟩

def numeralGoals : List Goal :=
  [⟨numeral [], deref, []⟩, ⟨box (numeral []), fromValue, [numeral []]⟩]

theorem faithful_numeralGoals : Faithful (Listed numeralGoals) := faithful_listed (by decide)

theorem reaches_numeral {n : Nat} {shown : Text} {u : Ty}
    (h : Reaches table [] (numeral shown) n u) : u = numeral shown := by
  induction h with
  | start => rfl
  | step _ hl ih =>
    subst ih
    cases hl with
    | target asks projects =>
      obtain rfl := Option.some.inj asks
      obtain ⟨-, s, hs, -⟩ := projects
      have hno : Answers table [] [] ⟨numeral shown, deref, []⟩ (.error .noImpl) := ⟨2, _, rfl, rfl⟩
      nomatch hs.det hno

end Sample

/-- What is shown of a number makes no difference to how it is boxed. -/
theorem Solver.decisions_up_to_text_numeral : ∃ cs m',
    (Fixes.candidates Sample.solver (Sample.box (Sample.numeral [49])) (Sample.numeral [49])
      (Sample.inReturn [49])).run ⟨[], []⟩ = some (cs, m') ∧
    cs.map Candidate.kindName = [Text.ofString "ConvertVia", Text.ofString "ChangeReturnType",
      Text.ofString "ChangeLetType"] ∧
    Yields m' (fun d => Fixes.candidates (Sample.solver.deepen d) (Sample.box (Sample.numeral [50]))
      (Sample.numeral [50]) (Sample.inReturn [50])) (List.Forall₂ Candidate.Alike cs) := by
  have hclosed : Sample.table.closes Sample.numeralGoals = true := by decide
  have hgoal : ∀ g : Goal, g.bare ∈ Sample.numeralGoals.map Goal.bare →
      Listed Sample.numeralGoals g := by
    intro g hg
    obtain ⟨x, hx, e⟩ := List.mem_map.1 hg
    exact ⟨x, hx, e⟩
  have hw : ∀ q, Conversion.Puts Sample.solver (Sample.box (Sample.numeral [49]))
      (Sample.numeral [49]) q → q.Within Sample.solver [] (Listed Sample.numeralGoals) := by
    intro q hq
    refine .listed hclosed fun g hg => hgoal g ?_
    cases hq with
    | chain =>
      obtain ⟨n, -, u, hu, hg, -⟩ := hg
      obtain rfl := Sample.reaches_numeral hu
      obtain rfl := Option.some.inj hg
      simp [Sample.numeralGoals, Goal.bare, Sample.numeral, Ty.bare, Ty.bareAll, Sample.deref]
    | fromValue known =>
      obtain rfl := Option.some.inj known
      obtain rfl : g = _ := hg
      simp [Sample.numeralGoals, Goal.bare, Sample.numeral, Ty.bare, Ty.bareAll, Sample.box]
    | tryFrom known | fromStr known | toOwned known | toText known => cases known
    | @refer via trait m inner known refers expects => cases expects
  have hkinds : ((Fixes.candidates Sample.solver (Sample.box (Sample.numeral [49]))
      (Sample.numeral [49]) (Sample.inReturn [49])).run ⟨[], []⟩).map
        (·.1.map Candidate.kindName) = some [Text.ofString "ConvertVia",
          Text.ofString "ChangeReturnType", Text.ofString "ChangeLetType"] := by decide +kernel
  obtain ⟨⟨cs, m'⟩, hr, hcs⟩ := Option.map_eq_some_iff.1 hkinds
  have hbox : (Ask.select ⟨Sample.box (Sample.numeral [49]), Sample.fromValue,
      [Sample.numeral [49]]⟩).Within Sample.solver [] (Listed Sample.numeralGoals) := by
    refine .listed hclosed fun g hg => hgoal g ?_
    obtain rfl : g = _ := hg
    simp [Sample.numeralGoals, Goal.bare, Sample.numeral, Ty.bare, Ty.bareAll, Sample.box]
  have hg : Goal.bare ⟨Sample.box (Sample.numeral [50]), Sample.fromValue, [Sample.numeral [50]]⟩ =
      Goal.bare ⟨Sample.box (Sample.numeral [49]), Sample.fromValue, [Sample.numeral [49]]⟩ := rfl
  have hexp : (Sample.box (Sample.numeral [50])).bare =
      (Sample.box (Sample.numeral [49])).bare := rfl
  have hact : (Sample.numeral [50]).bare = (Sample.numeral [49]).bare := rfl
  have he : (Sample.inReturn [50]).bare = (Sample.inReturn [49]).bare := rfl
  obtain ⟨-, -, -, -, -, h⟩ := Solver.decisions_up_to_text (m := ⟨[], []⟩)
    Sample.faithful_numeralGoals hg hexp hact he hbox hw
  exact ⟨cs, m', hr, hcs, h cs m' m' hr (.inr .refl)⟩

end Mismatch
