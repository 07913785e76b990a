import Mismatch.Proofs.CandidateOrder
import Mismatch.Proofs.PathSearch
import Mismatch.Proofs.Snapshots

/-!
# Mutable places add mutable borrows only

Only two steps look at the place of an expression: the conversions to a mutable reference and the
bridge. For a place that is not mutable they leave out what borrows mutably, and ask for less. All
other steps are the same, and what was asked for in between makes no difference to their answers
(`Echoes`). So the fixes for the place that is not mutable are those for the mutable place without
the mutable borrows (`Candidate.Spared`). A mutable borrow goes through mutable references only, by
a trait through all of the chain and by a bridge through its beginning (`Candidate.Through`).
-/

namespace Mismatch

open Select

/-- The expression, known to be a mutable place or not to be one. -/
def Expr.inPlace (e : Expr) (mutable : Bool) : Expr := { e with mutablePlace := mutable }

/-! ## Mutable borrows -/

namespace Candidate
variable {c : Candidate} {cs cs' ds ds' : List Candidate} {ks : List Kind}

/-- A mutable borrow by a trait, or a bridge with a mutable reference. -/
def borrowsMutably : Candidate → Bool
  | convertVia via .. => via == .borrowMut || via == .asMut
  | derefRefBridge _ p => p.needsMut
  | _ => false

/-- None of the candidates borrows mutably. -/
def Calm (cs : List Candidate) : Prop := ∀ c ∈ cs, c.borrowsMutably = false

/-- The references of the chain that a mutable borrow goes through are mutable. A bridge leaves the
chain after its dereferences. -/
def Through (c : Candidate) (chain : List Ty) : Prop :=
  match c with
  | derefRefBridge _ p => ∀ m u, Ty.ref m u ∈ chain.take (p.derefs + 1) → m = .mutable
  | _ => ∀ m u, Ty.ref m u ∈ chain → m = .mutable

/-- The second list is the first one without its mutable borrows, up to display text. -/
def Spared (cs ds : List Candidate) : Prop := UpToText (cs.filter (!·.borrowsMutably)) ds

theorem Spared.append (h : Spared cs ds) (h' : Spared cs' ds') :
    Spared (cs ++ cs') (ds ++ ds') := by
  rw [Spared, List.filter_append]
  exact UpToText.append h h'

/-- The kinds among which the mutable borrows are. -/
def Kind.borrows : List Kind := [.via .borrowMut, .via .asMut, .bridge]

theorem borrowsMutably_of_kind (h : c.kind ∉ Kind.borrows) : c.borrowsMutably = false := by
  cases c with
  | convertVia via => cases via <;> first | rfl | exact absurd (by simp [kind, Kind.borrows]) h
  | derefRefBridge => exact absurd (by simp [kind, Kind.borrows]) h
  | _ => rfl

theorem calm_of_kinds (h : (cs.map kind).Sublist ks) (hks : ∀ k ∈ ks, k ∉ Kind.borrows) : Calm cs :=
  fun _ hc => borrowsMutably_of_kind (hks _ (h.mem (List.mem_map_of_mem hc)))

theorem UpToText.spared (h : UpToText cs ds) (hc : Calm cs) : Spared cs ds := by
  rw [Spared, List.filter_eq_self.2 fun c hcs => by rw [hc c hcs]; rfl]
  exact h

theorem Spared.nil : Spared [] [] := rfl

theorem Spared.of_calm (hc : Calm cs) : Spared cs cs := UpToText.spared rfl hc

theorem Spared.kept (hc : c.borrowsMutably = false) : Spared [c] [c] :=
  of_calm (List.forall_mem_singleton.2 hc)

/-- A mutable borrow that may be offered is left out. -/
theorem Spared.left_out (hc : c.borrowsMutably = true) (b : Bool) :
    Spared (Conversion.offer b c) [] := by
  cases b with
  | false => rfl
  | true => simp [Spared, UpToText, Conversion.offer, hc]

end Candidate

/-! ## Two places -/

/-- What is known of the answers of the first query beforehand. -/
theorem Echoes.always {S : Solver} {given : Cache} {A : Goal → Prop} {α β ι : Type} {q : Query α}
    {I : ι → Prop} {q' : ι → Nat → Query β} {R : α → β → Prop} {P : α → Prop}
    (h : Echoes S given A q I q' R) (hq : q.Always P) :
    Echoes S given A q I q' fun a b => R a b ∧ P a := by
  intro m m' a hs hr
  obtain ⟨hs', depth, hset⟩ := h hs hr
  exact ⟨hs', depth, fun i hi => (hset i hi).weaken fun b hb => ⟨hb, (hq trivial hr).2⟩⟩

/-- The second query gives an answer at once. -/
theorem Echoes.at_once {S : Solver} {given : Cache} {A : Goal → Prop} {α β γ ι : Type}
    {q : Query α} {I : ι → Prop} {q' : ι → Nat → Query β} {R : α → β → Prop} {R' : α → γ → Prop}
    {c : γ} (h : Echoes S given A q I q' R) (hq : q.Always fun a => R' a c) :
    Echoes S given A q I (fun _ _ => Pure.pure c) R' := by
  intro m m' a hs hr
  refine ⟨(h hs hr).1, 0, fun i hi => ?_⟩
  exact .of_reports (hq trivial hr).2 fun d => OnlyReports.pure

namespace DerefPath
variable {S : Solver} {given : Cache} {A : Goal → Prop} {ι : Type} {I : ι → Prop}
  {expected actual : Ty} {e : Expr}

/-- A path that is chosen for a mutable place is chosen for another if it needs none. -/
theorem choose_inPlace (expected : Ty) (e : Expr) (chain : List Ty) :
    choose expected (e.inPlace false) chain =
      (choose expected (e.inPlace true) chain).filter (!·.needsMut) := by
  rw [choose, choose, Option.filter_filter]
  congr 1
  funext p
  cases p.needsMut <;> simp [mayBorrowMut, Expr.inPlace]

theorem spared_find (hA : Faithful A) (hw : (Ask.coercions actual).Within S given A) :
    Echoes S given A (find S expected actual (e.inPlace true)) I
      (fun _ d => find (S.deepen d) expected actual (e.inPlace false))
      fun r r' => r' = r.filter (!·.needsMut) := by
  obtain ⟨tell, hfind, htell⟩ := exists_find_eq expected actual (e.inPlace true)
  obtain ⟨tell', hfind', htell'⟩ := exists_find_eq expected actual (e.inPlace false)
  simp only [hfind, hfind']
  refine (Solver.echoes_coercions hA rfl hw).conclude htell (fun _ _ => htell')
    fun chain _ chain' _ hc => ?_
  rw [← choose_inPlace, ← choose_bare, hc, choose_bare]

end DerefPath

namespace Conversion

open Candidate

variable {S : Solver} {given : Cache} {A : Goal → Prop} {ι : Type} {I : ι → Prop}
  {expected actual : Ty} {e : Expr}

/-- The conversions to a mutable reference without those that borrow mutably. -/
theorem always_spared (inner : Ty) : (toReference S expected .mutable inner actual e).Always
    fun cs => Spared cs (offer actual.isSharedRef .changeRefToMutable) := by
  have hchange : Spared (offer actual.isSharedRef .changeRefToMutable)
      (offer actual.isSharedRef .changeRefToMutable) := by
    cases actual.isSharedRef <;> rfl
  simp only [toReference]
  split
  · exact .pure hchange
  · refine (Query.always_true _).bind fun chain _ => ?_
    split
    · exact .pure hchange
    · refine (Query.always_true _).bind fun b _ => (Query.always_true _).bind fun b' _ => .pure ?_
      simpa only [List.append_nil] using
        (hchange.append (.left_out rfl b)).append (Spared.left_out rfl b')

/-- A view of an owned string borrows no more than the string does. -/
theorem calm_asSlice : Calm (asSlice S expected actual) := by
  cases expected with
  | ref m inner => exact calm_of_kinds (kinds_asSlice m inner) (by cases m <;> decide)
  | _ =>
    rw [asSlice_eq_nil fun m inner => by simp]
    exact fun c hc => nomatch hc

theorem calm_makers : (makers S expected actual).Always Calm := by
  have hmaking : ∀ made ∈ Kind.making, ∀ k ∈ [made], k ∉ Kind.borrows := by decide
  exact kinds_makers.mono fun cs ⟨made, hmade, hcs⟩ => calm_of_kinds hcs (hmaking made hmade)

theorem calm_parsers : (parsers S expected actual).Always Calm :=
  kinds_parsers.mono fun cs hcs => calm_of_kinds hcs (by decide)

theorem calm_toResult (ok err : Ty) : (toResult S ok err actual).Always Calm :=
  (kinds_toResult ok err).mono fun cs hcs => calm_of_kinds hcs (by decide)

theorem calm_toReference (inner : Ty) :
    (toReference S expected .immutable inner actual e).Always Calm :=
  (kinds_toReference .immutable inner).mono fun cs hcs => calm_of_kinds hcs (by decide)

section
variable (hA : Faithful A) (hw : ∀ q, Puts S expected actual q → q.Within S given A)
include hA hw

theorem spared_toReference {m : Mutability} {inner : Ty} (he : expected = .ref m inner) :
    Echoes S given A (toReference S expected m inner actual (e.inPlace true)) I
      (fun _ d => toReference (S.deepen d) expected m inner actual (e.inPlace false)) Spared := by
  have hsame : Echoes S given A (toReference S expected m inner actual (e.inPlace true)) I
      (fun _ d => toReference (S.deepen d) expected m inner actual (e.inPlace true)) UpToText :=
    echoes_toReference hA rfl hw he rfl rfl rfl
  cases m with
  | immutable =>
    exact (hsame.always (calm_toReference inner)).mono fun _ _ h => h.1.spared h.2
  | mutable =>
    -- For the other place nothing is asked for, so the answers of the first run need not be echoed.
    exact hsame.at_once (always_spared inner)

theorem spared_byForm : Echoes S given A (byForm S expected actual (e.inPlace true)) I
    (fun _ d => byForm (S.deepen d) expected actual (e.inPlace false)) Spared := by
  have hnil : Echoes S given A (pure ([] : List Candidate)) I (fun _ _ => pure []) Spared :=
    .pure fun _ _ => .nil
  refine echoes_asString hA rfl hw rfl fun b => ?_
  refine .ite (fun _ _ => rfl) (fun _ => .pure fun _ _ => .kept rfl) ?_
  cases expected with
  | ref m inner => exact spared_toReference hA hw rfl
  | adt item args =>
    match args with
    | [ok, err] =>
      refine .ite (fun _ _ => rfl) (fun hk => ?_) hnil
      exact ((echoes_toResult hA rfl hw (eq_of_beq hk) rfl rfl rfl).always
        (calm_toResult ok err)).mono fun _ _ h => h.1.spared h.2
    | [] | [_] | _ :: _ :: _ :: _ => exact hnil
  | _ => exact hnil

theorem spared_bridge : Echoes S given A (bridge S expected actual (e.inPlace true)) I
    (fun _ d => bridge (S.deepen d) expected actual (e.inPlace false)) Spared := by
  refine (DerefPath.spared_find hA (hw _ .chain)).conclude
    (f := (·.elim [] fun p => [.derefRefBridge expected p]))
    (g := fun _ => (·.elim [] fun p => [.derefRefBridge expected p]))
    (fun r => ?_) (fun _ _ r => ?_) fun r _ r' _ hr => ?_
  · cases r <;> exact .pure
  · cases r <;> exact .pure
  · subst hr
    cases r with
    | none => exact .nil
    | some p =>
      cases hp : p.needsMut with
      | false => simpa [Option.filter, hp] using Spared.kept (c := .derefRefBridge expected p) hp
      | true => simp [Option.filter, hp, Spared, UpToText, borrowsMutably]

/-- The conversions for a place that is not mutable are those for the mutable place without the
mutable borrows. -/
theorem spared_candidates : Echoes S given A (candidates S expected actual (e.inPlace true)) I
    (fun _ d => candidates (S.deepen d) expected actual (e.inPlace false)) Spared := by
  refine .ite (fun _ _ => rfl) (fun _ => .answer (.report .pure) fun _ _ =>
    ⟨_, .kept rfl, fun _ => .report .pure⟩) ?_
  refine ((echoes_makers hA rfl hw rfl).always calm_makers).bind fun made => ?_
  refine ((echoes_parsers hA rfl hw rfl).always calm_parsers).bind fun parsed => ?_
  refine (echoes_toOwnedMatches hA rfl hw rfl).bind_eq fun b => ?_
  refine (spared_byForm hA hw).bind fun formed => ?_
  refine (spared_bridge hA hw).bind fun bridged => ?_
  refine .answer (.report .pure) ?_
  rintro ⟨⟨⟨⟨i, made'⟩, parsed'⟩, formed'⟩, bridged'⟩ ⟨⟨⟨⟨-, hmade⟩, hparsed⟩, hformed⟩, hbridged⟩
  have howned : Spared (offer b (.convertVia .toOwned expected .missing))
      (offer b (.convertVia .toOwned expected .missing)) := by
    cases b with
    | false => exact .nil
    | true => exact .kept rfl
  have hsliced : Spared (asSlice S expected actual) (asSlice S expected actual) :=
    .of_calm calm_asSlice
  exact ⟨_, (((((hmade.1.spared hmade.2).append (hparsed.1.spared hparsed.2)).append howned).append
    hformed).append hsliced).append hbridged, fun _ => .report .pure⟩

end
end Conversion

/-! ## Where mutable borrows go -/

section
variable {S : Solver} {given : Cache} {A : Goal → Prop} {l : Memo} {expected actual : Ty} {e : Expr}

/-- A mutable borrow starts at a mutable place and goes through mutable references only. -/
def Candidate.Licensed (S : Solver) (l : Memo) (actual : Ty) (e : Expr) (c : Candidate) : Prop :=
  c.borrowsMutably = true → e.mutablePlace = true ∧
    Yields l (fun d => (S.deepen d).coercions actual) c.Through

theorem Candidate.Calm.licensed {cs : List Candidate} (h : Calm cs) :
    ∀ c ∈ cs, c.Licensed S l actual e :=
  fun c hc hb => absurd ((h c hc).symm.trans hb) Bool.false_ne_true

theorem Ensures.always {α : Type} {q : Query α} {R P : α → Prop} (h : Ensures S given A q R)
    (hq : q.Always P) : Ensures S given A q P :=
  fun _ _ _ hs hr => ⟨(h hs hr).1, (hq trivial hr).2⟩

theorem DerefPath.mayTake_of_choose {chain : List Ty} {p : DerefPath}
    (h : choose expected e chain = some p) (hp : p.needsMut = true) : e.mutablePlace = true ∧
      ∀ m u, Ty.ref m u ∈ chain.take (p.derefs + 1) → m = .mutable := by
  have htake := (mayTake_iff p).1 (Option.filter_eq_some_iff.1 h).2
  exact htake.resolve_left fun hno => hno (by simpa [needsMut] using hp)

variable (hA : Faithful A) (hl : Sound S.table given (UpTo A) l.cache)
include hA hl

theorem DerefPath.licensed_find (hw : (Ask.coercions actual).Within S given A) :
    Ensures S given A (find S expected actual e) fun r => ∀ p, r = some p →
      (Candidate.derefRefBridge expected p).Licensed S l actual e := by
  obtain ⟨tell, hfind, htell⟩ := exists_find_eq expected actual e
  rw [hfind]
  refine (Solver.ensures_coercions hA hl hw).bind fun chain hchain => ?_
  intro m m' r hs hr
  obtain ⟨reports, h⟩ := htell chain m
  obtain ⟨rfl, rfl⟩ := Prod.mk.inj (Option.some.inj (h.symm.trans hr))
  refine ⟨hs, fun p hp hneeds => ⟨(mayTake_of_choose hp hneeds).1, hchain.mono fun c hc => ?_⟩⟩
  have hc' : choose expected e c = some p := by rw [← choose_bare, hc, choose_bare, hp]
  exact (mayTake_of_choose hc' hneeds).2

namespace Conversion

variable (hw : ∀ q, Puts S expected actual q → q.Within S given A)
include hw

theorem licensed_toReference {m : Mutability} {inner : Ty} (he : expected = .ref m inner) :
    Ensures S given A (toReference S expected m inner actual e) fun cs =>
      ∀ c ∈ cs, c.Licensed S l actual e := by
  cases m with
  | immutable =>
    exact ((ensures_toReference hA hl hw he).always (calm_toReference inner)).mono fun _ =>
      Candidate.Calm.licensed
  | mutable =>
    have hreach : ∀ via : ConversionTrait, via.refers = some .mutable →
        Ensures S given A (reaches S (via.item? S.table.known) actual [inner]) fun b =>
          b = true → Reachable S l via actual [inner] :=
      fun via hv => ensures_reaches hA hl hw via fun trait hk => .refer hk hv he
    have hchange : ∀ c ∈ offer actual.isSharedRef .changeRefToMutable,
        c.Licensed S l actual e := forall_mem_offer fun _ hb => nomatch hb
    simp only [toReference]
    split
    · exact .pure hchange
    · have hplace : e.mutablePlace = true := by simpa using ‹¬ (!e.mutablePlace) = true›
      refine (Solver.ensures_coercions hA hl (hw _ .chain)).bind fun chain hchain => ?_
      split
      · exact .pure hchange
      · refine (hreach .borrowMut rfl).bind fun b _ =>
          (hreach .asMut rfl).bind fun b' _ => .pure ?_
        -- What a trait borrows may come from any type of the chain, so the gate is all of it.
        have hshared : chain.any (·.isSharedRef) = false := by
          simpa only [Bool.not_eq_true] using ‹¬ chain.any (·.isSharedRef) = true›
        have hthrough : ∀ via : ConversionTrait,
            (Candidate.convertVia via expected .missing).Licensed S l actual e :=
          fun via _ => ⟨hplace, hchain.mono fun c hc =>
            Ty.any_isSharedRef_eq_false.1 ((Ty.any_isSharedRef_congr hc).trans hshared)⟩
        refine List.forall_mem_append.2 ⟨List.forall_mem_append.2 ⟨hchange, ?_⟩, ?_⟩
        · exact forall_mem_offer fun _ => hthrough .borrowMut
        · exact forall_mem_offer fun _ => hthrough .asMut

theorem licensed_byForm : Ensures S given A (byForm S expected actual e) fun cs =>
    ∀ c ∈ cs, c.Licensed S l actual e := by
  unfold byForm
  dsimp only
  refine ensures_asString hA hl hw fun b hb => ?_
  cases b with
  | true =>
    refine .pure fun c hc hb => ?_
    obtain rfl := List.mem_singleton.1 hc
    cases hb
  | false =>
    simp only [Bool.false_eq_true, if_false]
    split
    · exact licensed_toReference hA hl hw rfl
    · split
      · exact ((ensures_toResult hA hl hw (eq_of_beq ‹_›) rfl).always (calm_toResult _ _)).mono
          fun _ => Candidate.Calm.licensed
      · exact .pure fun c hc => nomatch hc
    · exact .pure fun c hc => nomatch hc

theorem licensed_bridge : Ensures S given A (bridge S expected actual e) fun cs =>
    ∀ c ∈ cs, c.Licensed S l actual e := by
  refine (DerefPath.licensed_find hA hl (hw _ .chain)).bind fun r hr => ?_
  cases r with
  | none => exact .pure fun c hc => nomatch hc
  | some p =>
    refine .pure fun c hc => ?_
    obtain rfl := List.mem_singleton.1 hc
    exact hr p rfl

/-- Mutable borrows start at a mutable place and go through mutable references only. -/
theorem licensed_candidates : Ensures S given A (candidates S expected actual e) fun cs =>
    ∀ c ∈ cs, c.Licensed S l actual e := by
  unfold candidates
  split
  · refine .report (.pure fun c hc hb => ?_)
    obtain rfl := List.mem_singleton.1 hc
    cases hb
  · refine ((ensures_makers hA hl hw).always calm_makers).bind fun made hmade => ?_
    refine ((ensures_parsers hA hl hw).always calm_parsers).bind fun parsed hparsed => ?_
    refine (ensures_toOwnedMatches hA hl hw).bind fun b _ => ?_
    refine (licensed_byForm hA hl hw).bind fun formed hformed => ?_
    refine (licensed_bridge hA hl hw).bind fun bridged hbridged => .report (.pure ?_)
    have howned : ∀ c ∈ offer b (.convertVia .toOwned expected .missing),
        c.Licensed S l actual e := forall_mem_offer fun _ hb => nomatch hb
    simp only [List.forall_mem_append]
    exact ⟨⟨⟨⟨⟨hmade.licensed, hparsed.licensed⟩, howned⟩,
      hformed⟩, calm_asSlice.licensed⟩, hbridged⟩

end Conversion

end

namespace Fixes

open Candidate

variable {S : Solver} {given : Cache} {A : Goal → Prop} {ι : Type} {I : ι → Prop}
  {expected actual : Ty} {e : Expr}

theorem calm_changes (actual : Ty) (e : Expr) : Calm (if actual.containsUnknownOrAnon then []
    else changeReturn actual e ++ changeLet actual e) :=
  calm_of_kinds kinds_changes (by decide)

theorem spared_candidates (hA : Faithful A)
    (hw : ∀ q, Conversion.Puts S expected actual q → q.Within S given A) :
    Echoes S given A (candidates S expected actual (e.inPlace true)) I
      (fun _ d => candidates (S.deepen d) expected actual (e.inPlace false)) Spared := by
  have hchanges := Spared.of_calm (calm_changes actual e)
  refine .ite (fun _ _ => rfl) (fun _ => ?_) ?_
  · refine (Conversion.spared_candidates hA hw).bind fun conversions => ?_
    exact .answer (.report .pure) fun p hp => ⟨_, hp.2.append hchanges, fun _ => .report .pure⟩
  · exact .answer (.report .pure) fun _ _ => ⟨_, hchanges, fun _ => .report .pure⟩

theorem licensed_candidates {l : Memo} (hA : Faithful A)
    (hl : Sound S.table given (UpTo A) l.cache)
    (hw : ∀ q, Conversion.Puts S expected actual q → q.Within S given A) :
    Ensures S given A (candidates S expected actual e) fun cs =>
      ∀ c ∈ cs, c.Licensed S l actual e := by
  have hchanges : ∀ c ∈ (if actual.containsUnknownOrAnon then []
      else changeReturn actual e ++ changeLet actual e), c.Licensed S l actual e :=
    (calm_changes actual e).licensed
  rw [candidates]
  split
  · refine (Conversion.licensed_candidates hA hl hw).bind fun conversions hconv => ?_
    exact .report (.pure (List.forall_mem_append.2 ⟨hconv, hchanges⟩))
  · exact .report (.pure hchanges)

/-- A history of queries and of searches for fixes of the expression, in whatever place. -/
inductive History (S : Solver) (A : Goal → Prop) (expected actual : Ty) (e : Expr) (m : Memo) :
    Memo → Prop
  | refl : History S A expected actual e m m
  | session {l l' : Memo} (h : History S A expected actual e m l)
      (hs : Session S.table m.cache A l l') : History S A expected actual e m l'
  | search {l l' : Memo} {cs : List Candidate} (mutable : Bool)
      (h : History S A expected actual e m l)
      (hr : (candidates S expected actual (e.inPlace mutable)).run l = some (cs, l')) :
      History S A expected actual e m l'

variable {m l l' : Memo} (hA : Faithful A)
  (hw : ∀ q, Conversion.Puts S expected actual q → q.Within S m.cache A)
include hA hw

theorem History.sound (h : History S A expected actual e m l) :
    Sound S.table m.cache (UpTo A) l.cache := by
  induction h with
  | refl => exact sound_given
  | session _ hs ih => exact hs.sound hA ih
  | search mutable _ hr ih => exact (licensed_candidates hA ih hw ih hr).1

/-- The fixes of an expression that is no mutable place are, at any time, those that it has as one
but for the mutable borrows. A mutable borrow is only offered for a mutable place, and only if the
references that it goes through are mutable. -/
theorem candidates_spared (hl : History S A expected actual e m l)
    (hl' : History S A expected actual e m l') :
    (∀ cs k, (candidates S expected actual (e.inPlace true)).run l = some (cs, k) →
      Yields l' (fun d => candidates (S.deepen d) expected actual (e.inPlace false))
        (List.Forall₂ Alike (cs.filter (!·.borrowsMutably)))) ∧
    ∀ mutable cs k, (candidates S expected actual (e.inPlace mutable)).run l = some (cs, k) →
      ∀ c ∈ cs, c.borrowsMutably = true → mutable = true ∧
        Yields l' (fun d => (S.deepen d).coercions actual) c.Through := by
  have hs := hl.sound hA hw
  have hs' := hl'.sound hA hw
  refine ⟨fun cs k hr => ?_, fun mutable cs k hr => (licensed_candidates hA hs' hw hs hr).2⟩
  obtain ⟨-, depth, hset⟩ := spared_candidates hA hw hs hr (I := fun _ : Unit => True)
  exact ((hset () trivial).yields hs').mono fun ds hds => hds.alike

end Fixes

namespace Sample

/-- An expression that initializes a binding. -/
def inBinding : Expr := { Expr.ofText [120] with letBinding := some [121] }

/-- What is asked for to get a mutable reference to the content of a box behind one. -/
def placeGoals : List Goal := ⟨.ref .mutable .bool, fromValue, [mutBox]⟩ :: goals

theorem within_place (q : Ask) (hq : Conversion.Puts solver (.ref .mutable .bool) mutBox q) :
    q.Within solver [] (Listed placeGoals) := by
  refine .listed (by decide) fun g hg => ?_
  have hlisted : ∀ g ∈ placeGoals, Listed placeGoals g := fun g hg => upTo_self hg
  cases hq with
  | chain =>
    obtain ⟨n, -, u, hu, hg, -⟩ := hg
    rcases reaches_mutBox hu with ⟨-, rfl⟩ | ⟨-, rfl⟩ | ⟨-, rfl⟩
    · cases hg
    · obtain rfl := Option.some.inj hg
      exact hlisted _ (by simp [placeGoals, goals])
    · obtain rfl := Option.some.inj hg
      exact hlisted _ (by simp [placeGoals, goals])
  | fromValue known =>
    obtain rfl := Option.some.inj known
    exact hlisted _ (by simp [show g = _ from hg, placeGoals])
  | tryFrom known | fromStr known | toOwned known | toText known => cases known
  | @refer via trait m inner known refers => cases via <;> cases refers <;> cases known

end Sample

/-- A bridge that borrows mutably is offered for a mutable place. Once it has been, the other fix is
still offered for the expression in another place. -/
theorem Fixes.candidates_spared_box : ∃ cs m,
    (candidates Sample.solver (.ref .mutable .bool) Sample.mutBox
      (Sample.inBinding.inPlace true)).run ⟨[], []⟩ = some (cs, m) ∧
    cs.map (·.borrowsMutably) = [true, false] ∧
    Yields m (fun d => candidates (Sample.solver.deepen d) (.ref .mutable .bool) Sample.mutBox
      (Sample.inBinding.inPlace false))
      (List.Forall₂ Candidate.Alike (cs.filter (!·.borrowsMutably))) ∧
    ∀ c ∈ cs, c.borrowsMutably = true →
      Yields m (fun d => (Sample.solver.deepen d).coercions Sample.mutBox) c.Through := by
  have hborrows : ((candidates Sample.solver (.ref .mutable .bool) Sample.mutBox
      (Sample.inBinding.inPlace true)).run ⟨[], []⟩).map
        (·.1.map (·.borrowsMutably)) = some [true, false] := by decide +kernel
  obtain ⟨⟨cs, m⟩, hr, hcs⟩ := Option.map_eq_some_iff.1 hborrows
  have hA : Faithful (Listed Sample.placeGoals) := faithful_listed (by decide)
  have h := candidates_spared (m := ⟨[], []⟩) hA Sample.within_place .refl (.search true .refl hr)
  exact ⟨cs, m, hr, hcs, h.1 cs m hr, fun c hc hb => (h.2 true cs m hr c hc hb).2⟩

end Mismatch
