import Mismatch.Proofs.Grammar

/-!
# The reader accepts exactly the grammar

A text is read as a type if and only if that type stands in it, white space aside, and nothing else
does; a refusal names a place in the text (`Ty.parse_iff_derives`). `Meets` says both of a step of
the reader at once, so that one lemma for each token and each kind of type gives that what is read
is derived. Conversely the reader follows every derivation behind which a type may end.
-/

namespace Mismatch

open Text Grammar

/-! ## Answers and refusals -/

/-- An answer satisfies `P`, and a refusal is placed within the first `L` bytes. -/
def Meets {α : Type} (L : Nat) (x : Except ParseError α) (P : α → Prop) : Prop :=
  match x with
  | .ok a => P a
  | .error e => e.offset ≤ L

namespace Meets
variable {α β : Type} {L : Nat} {x : Except ParseError α} {P : α → Prop} {a : α}

theorem pure (h : P a) : Meets L (Pure.pure a) P := h

theorem bind {k : α → Except ParseError β} {Q : β → Prop} (h : Meets L x P)
    (hk : ∀ a, P a → Meets L (k a) Q) : Meets L (x >>= k) Q := by
  cases x with
  | error e => exact h
  | ok a => exact hk a h

theorem ite {y : Except ParseError α} {b : Bool} (hx : b = true → Meets L x P)
    (hy : b = false → Meets L y P) : Meets L (if b then x else y) P := by
  cases b with
  | true => exact hx rfl
  | false => exact hy rfl

end Meets

namespace Cursor
variable {c c' d : Cursor} {t u v w p : Text} {b : UInt8} {n : UInt32}

/-! ## What an operation takes -/

/-- The number of bytes in the text, those that are gone included. -/
def size (c : Cursor) : Nat := c.offset + c.rest.length

/-- What is read from `c` to `c'` is as `G` says, and no variable is numbered. -/
structure Passes (G : Text → Text → Prop) (c c' : Cursor) : Prop where
  reads : G c.rest c'.rest
  nextId : c'.nextId = c.nextId
  size : c'.size = c.size

theorem size_drop {n : Nat} (h : n ≤ c.rest.length) : (c.drop n).size = c.size := by
  simp only [size, drop, List.length_drop]
  omega

theorem size_skipSpace : c.skipSpace.size = c.size :=
  size_drop (List.takeWhile_prefix _).length_le

theorem offset_skipSpace_le : c.skipSpace.offset ≤ c.size :=
  (Nat.le_add_right ..).trans_eq size_skipSpace

theorem meets_fail {α : Type} {P : α → Prop} (cause : ParseCause) :
    Meets c.size (c.fail cause) P :=
  offset_skipSpace_le

theorem Left.token (hc : c.Left u n) (h : Token t u v) : c.At (t ++ v) n :=
  ⟨by rw [skipSpace_rest, hc.1]; exact h, hc.2⟩

theorem passes_drop (h : Token t c.rest v) : c.Passes (Token t) (c.skipSpace.drop t.length) := by
  have hrest : c.skipSpace.rest = t ++ v := (skipSpace_rest c).trans h
  refine ⟨?_, rfl, ?_⟩
  · rw [Token, ← skipSpace_rest, hrest, drop, hrest, List.drop_left]
  · rw [size_drop (by rw [hrest, List.length_append]; omega), size_skipSpace]

theorem passes_of_eat (h : c.eat t = some c') : c.Passes (Token t) c' := by
  simp only [eat] at h
  split at h
  · obtain rfl := Option.some.inj h
    obtain ⟨v, hv⟩ := List.isPrefixOf_iff_prefix.1 ‹_›
    exact passes_drop (v := v) (by rw [Token, ← skipSpace_rest, hv])
  · cases h

theorem not_token_of_eat (h : c.eat t = none) : ¬ Token t c.rest v := by
  intro ht
  obtain ⟨c', hc, -⟩ := (Left.token ⟨rfl, rfl⟩ ht).eat
  rw [h] at hc
  cases hc

theorem eat_eq_none (hc : c.Left u n) (h : ∀ v, ¬ Token t u v) : c.eat t = none := by
  cases he : c.eat t with
  | none => rfl
  | some c' => exact absurd (hc.1 ▸ (passes_of_eat he).reads) (h _)

/-- Only one word stands at the front. -/
theorem eq_of_token {v' : Text} (h : Token t u v) (h' : Token t u v') : v = v' :=
  List.append_cancel_left (h.append_eq h')

theorem ident_spec (c : Cursor) :
    (∃ w c', c.ident = (w, c') ∧ c.Passes (Word w) c') ∨
      c.ident = ([], c.skipSpace) ∧
        ∀ b v, c.skipSpace.rest = b :: v → isIdentStart b = false := by
  simp only [ident]
  cases hrest : c.skipSpace.rest with
  | nil => exact .inr ⟨rfl, fun b v h => by cases h⟩
  | cons b v =>
    cases hb : isIdentStart b with
    | false =>
      refine .inr ⟨by simp only [hb, Bool.false_eq_true, if_false], fun a x h => ?_⟩
      rw [← (List.cons.inj h).1, hb]
    | true =>
      have ht : Token (b :: v.takeWhile isIdentByte) c.rest (v.dropWhile isIdentByte) := by
        rw [Token, ← skipSpace_rest, hrest, List.cons_append, List.takeWhile_append_dropWhile]
      obtain ⟨hreads, hid, hsize⟩ := passes_drop ht
      refine .inl ⟨_, _, by simp only [hb, if_true], ⟨hreads, ?_, ?_⟩, hid, hsize⟩
      · exact isIdent_cons.2 ⟨hb, fun a ha => List.mem_takeWhile_imp ha⟩
      · rw [eq_of_token hreads ht]
        exact List.takeWhile_eq_nil_iff.2
          (List.dropWhile_eq_self_iff.1 (List.dropWhile_idempotent _ _))

theorem mutability_spec (c : Cursor) :
    (∃ c', c.mutability = (.mutable, c') ∧ c.Passes (Word "mut") c') ∨
      c.mutability = (.immutable, c) ∧ ∀ v, ¬ Word "mut" c.rest v := by
  simp only [mutability, eatWord]
  cases he : c.eat "mut" with
  | none => exact .inr ⟨rfl, fun v h => not_token_of_eat he h.token⟩
  | some c₁ =>
    obtain ⟨htoken, hid, hsize⟩ := passes_of_eat he
    cases hrest : c₁.rest with
    | nil =>
      refine .inl ⟨c₁, by simp only [hrest], ⟨htoken, rfl, ?_⟩, hid, hsize⟩
      rw [hrest]
      rfl
    | cons b v =>
      cases hb : isIdentByte b with
      | true =>
        refine .inr ⟨by simp only [hrest, hb, if_true], fun w h => ?_⟩
        have hw := h.whole
        rw [← eq_of_token htoken h.token, hrest, List.takeWhile_cons_of_pos hb] at hw
        cases hw
      | false =>
        refine .inl ⟨c₁, by simp [hrest, hb], ⟨htoken, rfl, ?_⟩, hid, hsize⟩
        rw [hrest, List.takeWhile_cons_of_neg (by simp [hb])]

theorem skipSpace_skipSpace (c : Cursor) : c.skipSpace.skipSpace = c.skipSpace :=
  skipSpace_of_tight (by rw [tight, skipSpace_rest, List.dropWhile_idempotent])

theorem braced?_skipSpace (c : Cursor) : c.skipSpace.braced? = c.braced? := by
  simp only [braced?, eat, skipSpace_skipSpace]

theorem path_skipSpace (c : Cursor) : c.skipSpace.path = c.path := by
  simp only [path, ident, skipSpace_skipSpace]

/-- The three types in braces. -/
theorem braced?_spec {N : NameTable} {t : Ty} (h : c.braced? = some (t, c')) :
    Derives N c.rest c.nextId t c'.rest c'.nextId ∧ c'.size = c.size := by
  simp only [braced?] at h
  cases hi : c.eat "\x7binteger\x7d" with
  | some d =>
    obtain ⟨htoken, hid, hsize⟩ := passes_of_eat hi
    simp only [hi] at h
    obtain ⟨rfl, rfl⟩ := Prod.mk.inj (Option.some.inj h)
    exact ⟨hid ▸ .integer htoken, hsize⟩
  | none =>
    cases hf : c.eat "\x7bfloat\x7d" with
    | some d =>
      obtain ⟨htoken, hid, hsize⟩ := passes_of_eat hf
      simp only [hi, hf] at h
      obtain ⟨rfl, rfl⟩ := Prod.mk.inj (Option.some.inj h)
      exact ⟨hid ▸ .float htoken, hsize⟩
    | none =>
      cases hu : c.eat "\x7bunknown\x7d" with
      | none =>
        simp only [hi, hf, hu] at h
        cases h
      | some d =>
        obtain ⟨htoken, hid, hsize⟩ := passes_of_eat hu
        simp only [hi, hf, hu] at h
        obtain ⟨rfl, rfl⟩ := Prod.mk.inj (Option.some.inj h)
        exact ⟨hid ▸ .unknown htoken, hsize⟩

/-! ## Paths -/

theorem meets_segments : ∀ {bound : Text} {c : Cursor}, c.rest.length ≤ bound.length →
    Meets c.size (segments bound c) fun r => c.Passes (fun u v => Segments u r.1 v) r.2
  | [], c, hl => by
    have hrest : c.rest = [] := List.length_eq_zero_iff.1 (Nat.le_zero.1 hl)
    refine ⟨.stop fun v h => ?_, rfl, rfl⟩
    rw [hrest] at h
    cases h
  | _ :: bound, c, hl => by
    rw [segments]
    cases he : c.eat "::" with
    | none => exact ⟨.stop fun v h => not_token_of_eat he h, rfl, rfl⟩
    | some c₁ =>
      obtain ⟨hcolons, hid₁, hsize₁⟩ := passes_of_eat he
      rcases ident_spec c₁ with ⟨w, c₂, hi, hword, hid₂, hsize₂⟩ | ⟨hi, -⟩
      · obtain ⟨b, x, rfl, -⟩ := hword.eq_cons
        have hlt := hword.length_lt.trans hcolons.length_lt
        have hl₂ : c₂.rest.length ≤ bound.length := by
          rw [List.length_cons] at hl
          omega
        simp only [hi]
        rw [← hsize₁, ← hsize₂]
        refine (meets_segments hl₂).bind fun r hr => ?_
        exact ⟨.more hcolons hword hr.reads, (hr.nextId.trans hid₂).trans hid₁,
          (hr.size.trans hsize₂).trans hsize₁⟩
      · simp only [hi]
        rw [← hsize₁, ← size_skipSpace]
        exact meets_fail _

theorem meets_path {v : Text} (hc : c.skipSpace.rest = b :: v) (hb : isIdentStart b = true) :
    Meets c.size c.path fun r => c.Passes (Path r.1) r.2 := by
  rw [path]
  rcases ident_spec c with ⟨w, c₁, hi, hword, hid, hsize⟩ | ⟨-, hno⟩
  · simp only [hi]
    rw [← hsize]
    refine (meets_segments (Nat.le_refl _)).bind fun r hr => ?_
    exact ⟨⟨w, r.1, c₁.rest, hword, hr.reads, rfl⟩, hr.nextId.trans hid, hr.size.trans hsize⟩
  · rw [hno b v hc] at hb
    cases hb

end Cursor

/-! ## What is read is derived -/

namespace Ty

open Cursor

variable {N : NameTable} {k : Nat} {c d c' : Cursor} {b : UInt8} {v p : Text} {t : Ty}
  {ts : List Ty}

/-- From `c` to `c'` the type is read, as it is derived. -/
def Spans (N : NameTable) (c : Cursor) (t : Ty) (c' : Cursor) : Prop :=
  Derives N c.rest c.nextId t c'.rest c'.nextId ∧ c'.size = c.size

/-- From `c` to `c'` types are read and then what `G` says. -/
def SpansList (N : NameTable) (c : Cursor) (ts : List Ty) (G : Text → Text → Prop) (c' : Cursor) :
    Prop :=
  ∃ u, DerivesList N c.rest c.nextId ts u c'.nextId ∧ G u c'.rest ∧ c'.size = c.size

/-- How the elements of a tuple end, with a comma or without one. -/
def Closes : (comma : Bool) → Text → Text → Prop
  | false, u, v => Token ")" u v
  | true, u, v => ∃ u', Token "," u u' ∧ Token ")" u' v

/-- Within the bound `k`, what is read is derived. -/
structure Sound (N : NameTable) (k : Nat) : Prop where
  read : ∀ c, Meets c.size (read N k c) fun r => Spans N c r.1 r.2
  elems : ∀ c, Meets c.size (readElems N k c) fun r => SpansList N c r.1 (Closes r.2.1) r.2.2
  args : ∀ c, Meets c.size (readArgs N k c) fun r => SpansList N c r.1 (Token ">") r.2

/-- A word of the language. -/
theorem derives_word {u : Text} {n : UInt32} (h : ofWord? p = some t) (hp : Path p u v) :
    Derives N u n t v n := by
  simp only [ofWord?] at h
  cases hnum : NumKind.all.find? (·.name == p) with
  | some k =>
    obtain rfl : k.name = p := by simpa using List.find?_some hnum
    rw [hnum] at h
    obtain rfl := Option.some.inj h
    exact .num k hp
  | none =>
    rw [hnum] at h
    obtain ⟨k, hk, rfl⟩ := Option.map_eq_some_iff.1 h
    obtain rfl : k.name = p := by simpa using List.find?_some hk
    exact .prim k hp

section
variable (h : Sound N k)
include h

theorem meets_readElems (c : Cursor) : Meets c.size (readElems N (k + 1) c) fun r =>
    SpansList N c r.1 (Closes r.2.1) r.2.2 := by
  rw [readElems]
  refine (h.read c).bind ?_
  rintro ⟨t, c₁⟩ ⟨ht, hsize⟩
  dsimp only
  cases hcomma : c₁.eat "," with
  | some c₂ =>
    obtain ⟨h₂, hid₂, hsize₂⟩ := passes_of_eat hcomma
    dsimp only
    cases hclose : c₂.eat ")" with
    | some c₃ =>
      obtain ⟨h₃, hid₃, hsize₃⟩ := passes_of_eat hclose
      refine .pure ⟨c₁.rest, .one ?_, ⟨c₂.rest, h₂, h₃⟩, (hsize₃.trans hsize₂).trans hsize⟩
      rw [hid₃, hid₂]
      exact ht
    | none =>
      rw [← hsize, ← hsize₂]
      refine (h.elems c₂).bind ?_
      rintro ⟨ts, comma, c'⟩ ⟨u, hts, hu, hsize'⟩
      refine .pure ⟨u, .more ht h₂ ?_, hu, (hsize'.trans hsize₂).trans hsize⟩
      rw [← hid₂]
      exact hts
  | none =>
    dsimp only
    cases hclose : c₁.eat ")" with
    | some c₂ =>
      obtain ⟨h₂, hid₂, hsize₂⟩ := passes_of_eat hclose
      refine .pure ⟨c₁.rest, .one ?_, h₂, hsize₂.trans hsize⟩
      rw [hid₂]
      exact ht
    | none => exact hsize ▸ meets_fail _

theorem meets_readArgs (c : Cursor) : Meets c.size (readArgs N (k + 1) c) fun r =>
    SpansList N c r.1 (Token ">") r.2 := by
  rw [readArgs]
  refine (h.read c).bind ?_
  rintro ⟨t, c₁⟩ ⟨ht, hsize⟩
  dsimp only
  cases hclose : c₁.eat ">" with
  | some c₂ =>
    obtain ⟨h₂, hid₂, hsize₂⟩ := passes_of_eat hclose
    refine .pure ⟨c₁.rest, .one ?_, h₂, hsize₂.trans hsize⟩
    rw [hid₂]
    exact ht
  | none =>
    dsimp only
    cases hcomma : c₁.eat "," with
    | none => exact hsize ▸ meets_fail _
    | some c₂ =>
      obtain ⟨h₂, hid₂, hsize₂⟩ := passes_of_eat hcomma
      rw [← hsize, ← hsize₂]
      refine (h.args c₂).bind ?_
      rintro ⟨ts, c'⟩ ⟨u, hts, hu, hsize'⟩
      refine .pure ⟨u, .more ht h₂ ?_, hu, (hsize'.trans hsize₂).trans hsize⟩
      rw [← hid₂]
      exact hts

/-- What comes behind an opening parenthesis. -/
theorem meets_parens (hp : c.Passes (Token "(") d) : Meets c.size
    (match d.eat ")" with
      | some c => return (.unit, c)
      | none => do
        let (ts, comma, c) ← readElems N k d
        match ts, comma with
        | [t], false => return (t, c)
        | ts, _ => return (.tuple ts, c) : Except ParseError (Ty × Cursor))
    fun r => Spans N c r.1 r.2 := by
  cases hclose : d.eat ")" with
  | some c₂ =>
    obtain ⟨h₂, hid₂, hsize₂⟩ := passes_of_eat hclose
    refine .pure ⟨?_, hsize₂.trans hp.size⟩
    rw [hid₂, hp.nextId]
    exact .unit hp.reads h₂
  | none =>
    rw [← hp.size]
    refine (h.elems d).bind ?_
    rintro ⟨ts, comma, c'⟩ ⟨u, hts, hu, hsize'⟩
    rw [hp.nextId] at hts
    match ts, comma with
    | [t], false =>
      cases hts with
      | one ht => exact ⟨.parens hp.reads ht hu, hsize'.trans hp.size⟩
      | more _ _ hrest => cases hrest
    | _ :: _ :: _, false =>
      exact ⟨.tuple hp.reads hts (by simp) hu, hsize'.trans hp.size⟩
    | [t], true | _ :: _ :: _, true =>
      obtain ⟨u', hcomma, hright⟩ := hu
      exact ⟨.tupleComma hp.reads hts hcomma hright, hsize'.trans hp.size⟩
    | [], _ => cases hts

/-- The type arguments of an item, if there are any. -/
theorem meets_args {e : Declared} (hp : c.Passes (Path p) d) (he : N.Denotes p e) : Meets c.size
    (do
      let (ts, c') ← match d.eat "<" with
        | some c => readArgs N k c
        | none => .ok ([], d)
      if ts.length = e.arity then return (.adt e.item ts, c')
      else .error ⟨.arity p e.arity ts.length, c.skipSpace.offset⟩ :
        Except ParseError (Ty × Cursor))
    fun r => Spans N c r.1 r.2 := by
  have hstart : c.skipSpace.offset ≤ c.size := offset_skipSpace_le
  cases hleft : d.eat "<" with
  | none =>
    show Meets c.size (if 0 = e.arity then _ else _) _
    split
    · refine .pure ⟨?_, hp.size⟩
      rw [hp.nextId]
      exact .bare hp.reads he (Eq.symm ‹_›)
    · exact hstart
  | some d' =>
    obtain ⟨h₂, hid₂, hsize₂⟩ := passes_of_eat hleft
    rw [← hp.size, ← hsize₂]
    refine (h.args d').bind ?_
    rintro ⟨ts, c'⟩ ⟨u, hts, hu, hsize'⟩
    dsimp only
    rw [hid₂, hp.nextId] at hts
    split
    · exact ⟨.applied hp.reads he h₂ hts hu (Eq.symm ‹_›),
        (hsize'.trans hsize₂).trans hp.size⟩
    · exact (hstart.trans_eq hp.size.symm).trans_eq hsize₂.symm

theorem meets_read (c : Cursor) : Meets c.size (read N (k + 1) c) fun r => Spans N c r.1 r.2 := by
  have hfail : ∀ cause : ParseCause, Meets c.size (c.skipSpace.fail cause : Except _ (Ty × Cursor))
      fun r => Spans N c r.1 r.2 := fun cause => size_skipSpace (c := c) ▸ meets_fail cause
  cases hrest : c.skipSpace.rest with
  | nil =>
    simp only [read, hrest]
    exact hfail _
  | cons b v =>
    have hfirst : ∀ x : UInt8, (b == x) = true → c.Passes (Token [x]) (c.skipSpace.drop 1) := by
      intro x hx
      obtain rfl := eq_of_beq hx
      exact passes_drop ((skipSpace_rest c).symm.trans hrest)
    simp only [read, hrest]
    refine .ite (fun _ => hfail _) fun _ => .ite (fun hb => ?ref) fun _ =>
      .ite (fun hb => ?never) fun _ => .ite (fun hb => ?braced) fun _ =>
      .ite (fun hb => ?slice) fun _ => .ite (fun hb => meets_parens h (hfirst _ hb)) fun _ =>
      .ite (fun hb => ?path) fun _ => hfail _
    case ref =>
      have hp := hfirst _ hb
      rcases mutability_spec (c.skipSpace.drop 1) with ⟨d, hm, hword, hid, hsize⟩ | ⟨hm, hno⟩
      · simp only [hm]
        rw [← hp.size, ← hsize]
        refine (h.read d).bind ?_
        rintro ⟨t, c'⟩ ⟨ht, hsize'⟩
        refine .pure ?_
        rw [hid] at ht
        exact ⟨.mutable hp.reads hword ht, (hsize'.trans hsize).trans hp.size⟩
      · simp only [hm]
        rw [← hp.size]
        refine (h.read (c.skipSpace.drop 1)).bind ?_
        rintro ⟨t, c'⟩ ⟨ht, hsize'⟩
        refine .pure ?_
        exact ⟨.shared hp.reads hno ht, hsize'.trans hp.size⟩
    case never => exact ⟨.never (hfirst _ hb).reads, (hfirst _ hb).size⟩
    case braced =>
      rw [braced?_skipSpace]
      cases hbraced : c.braced? with
      | none => exact hfail _
      | some r => exact braced?_spec hbraced
    case slice =>
      have hp := hfirst _ hb
      rw [← hp.size]
      refine (h.read (c.skipSpace.drop 1)).bind ?_
      rintro ⟨t, c₁⟩ ⟨ht, hsize⟩
      dsimp only
      cases hright : c₁.eat "]" with
      | none => exact hsize ▸ meets_fail _
      | some c₂ =>
        obtain ⟨h₂, hid₂, hsize₂⟩ := passes_of_eat hright
        rw [← hid₂] at ht
        exact ⟨.slice hp.reads ht h₂, (hsize₂.trans hsize).trans hp.size⟩
    case path =>
      rw [path_skipSpace]
      refine (meets_path hrest hb).bind ?_
      rintro ⟨p, d⟩ hp
      refine .ite (fun hu => ?_) fun hu => ?_
      · obtain rfl : p = "_" := eq_of_beq hu
        exact ⟨hp.nextId ▸ .general hp.reads, hp.size⟩
      · cases hword : ofWord? p with
        | some t => exact ⟨hp.nextId ▸ derives_word hword hp.reads, hp.size⟩
        | none =>
          cases hlookup : N.lookup p with
          | error x => exact offset_skipSpace_le
          | ok e => exact meets_args h hp ⟨ne_of_beq_false hu, hword, hlookup⟩

end

theorem sound (N : NameTable) : ∀ k, Sound N k
  | 0 => ⟨fun _ => meets_fail _, fun _ => meets_fail _, fun _ => meets_fail _⟩
  | k + 1 => ⟨meets_read (sound N k), meets_readElems (sound N k), meets_readArgs (sound N k)⟩

end Ty

/-! ## What is derived is read -/

namespace Cursor
variable {c : Cursor} {u v p : Text} {n : UInt32}

theorem Left.mutability (hc : c.Left u n) (hw : Word "mut" u v) :
    ∃ c', c.mutability = (.mutable, c') ∧ c'.Left v n := by
  rcases mutability_spec c with ⟨c', hm, hword, hid, -⟩ | ⟨-, hno⟩
  · rw [hc.1] at hword
    exact ⟨c', hm, eq_of_token hword.token hw.token, hid.trans hc.2⟩
  · exact absurd (hc.1 ▸ hw) (hno v)

theorem Left.mutability_immutable (hc : c.Left u n) (hw : ∀ v, ¬ Word "mut" u v) :
    c.mutability = (.immutable, c) := by
  rcases mutability_spec c with ⟨c', -, hword, -⟩ | ⟨hm, -⟩
  · rw [hc.1] at hword
    exact absurd hword (hw _)
  · exact hm

theorem segments_of_derives (hp : Segments u p v) : ∀ {bound : Text} {c : Cursor},
    c.Left u n → u.length ≤ bound.length →
    ∃ c', segments bound c = .ok (p, c') ∧ c'.Left v n := by
  induction hp with
  | stop noColons =>
    intro bound c hc _
    cases bound with
    | nil => exact ⟨c, rfl, hc⟩
    | cons b bound => exact ⟨c, by simp only [segments, eat_eq_none hc noColons], hc⟩
  | @more u u₁ u₂ v w p colons word _ ih =>
    intro bound c hc hl
    have hlt := word.length_lt.trans colons.length_lt
    cases bound with
    | nil => exact absurd (hlt.trans_le hl) (Nat.not_lt_zero _)
    | cons b bound =>
      obtain ⟨c₁, he, h₁⟩ := (hc.token colons).eat
      obtain ⟨c₂, hi, h₂⟩ := (h₁.token word.token).ident word.ident word.whole
      obtain ⟨c₃, hs, h₃⟩ := ih h₂ (Nat.le_of_lt_succ (hlt.trans_le hl))
      obtain ⟨a, x, rfl, -⟩ := word.eq_cons
      refine ⟨c₃, ?_, h₃⟩
      simp only [segments, he, hi, hs]
      rfl

theorem Left.path (hc : c.Left u n) (hp : Path p u v) :
    ∃ c', c.path = .ok (p, c') ∧ c'.Left v n := by
  obtain ⟨w, q, u', hw, hq, rfl⟩ := hp
  obtain ⟨c₁, hi, h₁⟩ := (hc.token hw.token).ident hw.ident hw.whole
  have hl : u'.length ≤ c₁.rest.length := (congrArg List.length h₁.1).ge
  obtain ⟨c₂, hs, h₂⟩ := segments_of_derives hq h₁ hl
  exact ⟨c₂, by simp only [Cursor.path, hi, hs]; rfl, h₂⟩

end Cursor

namespace Ty

open Cursor

variable {N : NameTable} {k : Nat} {c c' : Cursor} {u u₁ u₂ v p : Text} {n m : UInt32} {t : Ty}
  {ts : List Ty}

theorem read_parens (h : c.At (Text.byte '(' :: v) n) (hc : (c.skipSpace.drop 1).eat ")" = none)
    (ht : readElems N k (c.skipSpace.drop 1) = .ok ([t], false, c')) :
    read N (k + 1) c = .ok (t, c') := by
  simp only [read, h.1, hc, ht]
  rfl

/-- The reader takes `t` off the front of `u` where no type arguments follow. -/
def ReadAs (N : NameTable) (u : Text) (n : UInt32) (t : Ty) (v : Text) (m : UInt32) : Prop :=
  ∀ ⦃k : Nat⦄ ⦃c : Cursor⦄, c.Left u n → 2 * u.length ≤ k → (∀ v', ¬ Token "<" v v') →
    ∃ c', read N k c = .ok (t, c') ∧ c'.Left v m

/-- The reader takes the types off the front of `u`, as elements of a tuple or as arguments. -/
structure ReadAll (N : NameTable) (u : Text) (n : UInt32) (ts : List Ty) (v : Text) (m : UInt32) :
    Prop where
  elems : ∀ ⦃k : Nat⦄ ⦃c : Cursor⦄ ⦃w : Text⦄ (comma : Bool), c.Left u n → 2 * u.length < k →
    Closes comma v w → ∃ c', readElems N k c = .ok (ts, comma, c') ∧ c'.Left w m
  args : ∀ ⦃k : Nat⦄ ⦃c : Cursor⦄ ⦃w : Text⦄, c.Left u n → 2 * u.length < k → Token ">" v w →
    ∃ c', readArgs N k c = .ok (ts, c') ∧ c'.Left w m

/-- A type takes at least one byte, so that the reader need not be without a bound. -/
theorem readAs_of_succ (hlt : v.length < u.length) (h : ∀ ⦃k : Nat⦄ ⦃c : Cursor⦄, c.Left u n →
      2 * u.length ≤ k + 1 → (∀ v', ¬ Token "<" v v') →
      ∃ c', read N (k + 1) c = .ok (t, c') ∧ c'.Left v m) : ReadAs N u n t v m := by
  intro k c hc hk hv
  obtain ⟨k, rfl⟩ : ∃ j, k = j + 1 := ⟨k - 1, by omega⟩
  exact h hc hk hv

theorem readAs_ref {i : Mutability} (amp : Token "&" u u₁) (hle : u₂.length ≤ u₁.length)
    (hm : ∀ ⦃c : Cursor⦄, c.Left u₁ n → ∃ d, c.mutability = (i, d) ∧ d.Left u₂ n)
    (hlt : v.length < u.length) (ih : ReadAs N u₂ n t v m) : ReadAs N u n (.ref i t) v m := by
  refine readAs_of_succ hlt fun k c hc hk hv => ?_
  have hlt₁ := amp.length_lt
  have hat := hc.token amp
  obtain ⟨d, hd, h₁⟩ := hm hat.drop
  obtain ⟨c', ht, h₂⟩ := ih h₁ (k := k) (by omega) hv
  exact ⟨c', read_ref hat hd ht, h₂⟩

theorem readAs_never (bang : Token "!" u v) : ReadAs N u n .never v n :=
  readAs_of_succ bang.length_lt fun _ _ hc _ _ =>
    ⟨_, read_never (hc.token bang), At.drop (t := [Text.byte '!']) (hc.token bang)⟩

theorem readAs_braced {w : Text} (h : Token w u v) (hw : w.head? = some 0x7b)
    (hb : ∀ ⦃c : Cursor⦄, c.At (w ++ v) n → ∃ c', c.braced? = some (t, c') ∧ c'.Left v m) :
    ReadAs N u n t v m := by
  obtain ⟨s, rfl⟩ := List.head?_eq_some_iff.1 hw
  refine readAs_of_succ h.length_lt fun k c hc _ _ => ?_
  obtain ⟨c', hb, h'⟩ := hb (hc.token h).skip
  exact ⟨c', read_braced (hc.token h) hb, h'⟩

theorem readAs_slice (left : Token "[" u u₁) (right : Token "]" u₂ v) (hlt : v.length < u.length)
    (ih : ReadAs N u₁ n t u₂ m) : ReadAs N u n (.slice t) v m := by
  refine readAs_of_succ hlt fun k c hc hk _ => ?_
  have hlt₁ := left.length_lt
  have hat := hc.token left
  obtain ⟨d, ht, h₁⟩ := ih hat.drop (k := k) (by omega) fun v' => right.not_token (by decide)
  obtain ⟨c', he, h₂⟩ := (h₁.token right).eat
  exact ⟨c', read_slice hat ht he, h₂⟩

theorem readAs_unit (left : Token "(" u u₁) (right : Token ")" u₁ v) :
    ReadAs N u n .unit v n := by
  refine readAs_of_succ (right.length_lt.trans left.length_lt) fun k c hc _ _ => ?_
  have hat := hc.token left
  have h₁ : (c.skipSpace.drop 1).Left u₁ n := hat.drop
  obtain ⟨c', he, h₂⟩ := (h₁.token right).eat
  exact ⟨c', read_unit hat he, h₂⟩

/-- What is in parentheses is read like the elements of a tuple. -/
theorem readAs_elems (comma : Bool) (left : Token "(" u u₁) (elems : DerivesList N u₁ n ts u₂ m)
    (right : Closes comma u₂ v) (hlt : v.length < u.length) (ih : ReadAll N u₁ n ts u₂ m)
    (hread : ∀ ⦃k : Nat⦄ ⦃c c' : Cursor⦄ ⦃w : Text⦄, c.At (Text.byte '(' :: w) n →
      (c.skipSpace.drop 1).eat ")" = none →
      readElems N k (c.skipSpace.drop 1) = .ok (ts, comma, c') →
      read N (k + 1) c = .ok (t, c')) : ReadAs N u n t v m := by
  refine readAs_of_succ hlt fun k c hc hk _ => ?_
  have hlt₁ := left.length_lt
  have hat := hc.token left
  have h₁ : (c.skipSpace.drop 1).Left u₁ n := hat.drop
  obtain ⟨c', hts, h₂⟩ := ih.elems comma h₁ (k := k) (by omega) right
  exact ⟨c', hread hat (eat_eq_none h₁ fun v' => elems.not_closing) hts, h₂⟩

/-- A path is read as the word or the item that it is. -/
theorem readAs_path (path : Path p u v) (hread : ∀ ⦃k : Nat⦄ ⦃c d : Cursor⦄ ⦃b : UInt8⦄ ⦃w : Text⦄,
      c.At (b :: w) n → isIdentStart b = true → c.skipSpace.path = .ok (p, d) → d.Left v n →
      (∀ v', ¬ Token "<" v v') → ∃ c', read N (k + 1) c = .ok (t, c') ∧ c'.Left v m) :
    ReadAs N u n t v m := by
  refine readAs_of_succ path.length_lt fun k c hc _ hv => ?_
  obtain ⟨b, x, v', htoken, hb⟩ := path.token
  obtain ⟨d, hd, h'⟩ := hc.path path
  exact hread (hc.token htoken) hb ((path_skipSpace c).trans hd) h' hv

theorem readAs_word (path : Path p u v) (hne : p ≠ "_") (hword : ofWord? p = some t) :
    ReadAs N u n t v n := by
  refine readAs_path path fun k c d b w hat hb hd h' _ => ⟨d, ?_, h'⟩
  rw [read_of_ident hat hb hd, if_neg (by simpa using hne), hword]
  rfl

theorem readAs_general (path : Path "_" u v) : ReadAs N u n (.fresh .general n) v (n + 1) := by
  refine readAs_path path fun k c d b w hat hb hd h' _ => ?_
  refine ⟨⟨d.rest, d.offset, n + 1⟩, ?_, h'.1, rfl⟩
  rw [read_of_ident hat hb hd, if_pos (beq_self_eq_true _), ← h'.2]
  rfl

theorem readAs_bare {e : Declared} (path : Path p u v) (denotes : N.Denotes p e)
    (arity : e.arity = 0) : ReadAs N u n (.adt e.item []) v n :=
  readAs_path path fun _ _ d _ _ hat hb hd h' hv =>
    ⟨d, read_adt_bare hat hb hd denotes (eat_eq_none h' hv) arity, h'⟩

theorem readAs_applied {e : Declared} {u₃ : Text} (path : Path p u u₁) (denotes : N.Denotes p e)
    (left : Token "<" u₁ u₂) (right : Token ">" u₃ v) (arity : e.arity = ts.length)
    (hlt : v.length < u.length) (ih : ReadAll N u₂ n ts u₃ m) :
    ReadAs N u n (.adt e.item ts) v m := by
  refine readAs_of_succ hlt fun k c hc hk _ => ?_
  obtain ⟨b, x, v', htoken, hb⟩ := path.token
  obtain ⟨d, hd, h₁⟩ := hc.path path
  obtain ⟨d', he, h₂⟩ := (h₁.token left).eat
  have hlt₁ := left.length_lt.trans path.length_lt
  obtain ⟨c', hts, h₃⟩ := ih.args h₂ (k := k) (by omega) right
  exact ⟨c', read_adt_args (hc.token htoken) hb ((path_skipSpace c).trans hd) denotes he hts
    arity.symm, h₃⟩

theorem readAll_one (hlt : v.length < u.length) (ih : ReadAs N u n t v m) :
    ReadAll N u n [t] v m := by
  constructor
  · intro k c w comma hc hk hclose
    obtain ⟨k, rfl⟩ : ∃ j, k = j + 1 := ⟨k - 1, by omega⟩
    cases comma with
    | false =>
      have hclose : Token ")" v w := hclose
      obtain ⟨d, ht, h₁⟩ := ih hc (k := k) (by omega) fun v' => hclose.not_token (by decide)
      obtain ⟨c', he, h₂⟩ := (h₁.token hclose).eat
      exact ⟨c', readElems_last ht (eat_eq_none h₁ fun v' => hclose.not_token (by decide)) he, h₂⟩
    | true =>
      obtain ⟨v₁, hcomma, hclose⟩ := hclose
      obtain ⟨d, ht, h₁⟩ := ih hc (k := k) (by omega) fun v' => hcomma.not_token (by decide)
      obtain ⟨d', he, h₂⟩ := (h₁.token hcomma).eat
      obtain ⟨c', he', h₃⟩ := (h₂.token hclose).eat
      exact ⟨c', readElems_trailing ht he he', h₃⟩
  · intro k c w hc hk hclose
    obtain ⟨k, rfl⟩ : ∃ j, k = j + 1 := ⟨k - 1, by omega⟩
    obtain ⟨d, ht, h₁⟩ := ih hc (k := k) (by omega) fun v' => hclose.not_token (by decide)
    obtain ⟨c', he, h₂⟩ := (h₁.token hclose).eat
    exact ⟨c', readArgs_last ht he, h₂⟩

theorem readAll_more {i : UInt32} (comma : Token "," u₁ u₂) (rest : DerivesList N u₂ i ts v m)
    (hlt : u₁.length < u.length) (ih : ReadAs N u n t u₁ i) (ihs : ReadAll N u₂ i ts v m) :
    ReadAll N u n (t :: ts) v m := by
  have hlt₂ := comma.length_lt
  constructor
  · intro k c w last hc hk hclose
    obtain ⟨k, rfl⟩ : ∃ j, k = j + 1 := ⟨k - 1, by omega⟩
    obtain ⟨d, ht, h₁⟩ := ih hc (k := k) (by omega) fun v' => comma.not_token (by decide)
    obtain ⟨d', he, h₂⟩ := (h₁.token comma).eat
    obtain ⟨c', hts, h₃⟩ := ihs.elems last h₂ (k := k) (by omega) hclose
    exact ⟨c', readElems_more ht he (eat_eq_none h₂ fun v' => rest.not_closing) hts, h₃⟩
  · intro k c w hc hk hclose
    obtain ⟨k, rfl⟩ : ∃ j, k = j + 1 := ⟨k - 1, by omega⟩
    obtain ⟨d, ht, h₁⟩ := ih hc (k := k) (by omega) fun v' => comma.not_token (by decide)
    obtain ⟨d', he, h₂⟩ := (h₁.token comma).eat
    obtain ⟨c', hts, h₃⟩ := ihs.args h₂ (k := k) (by omega) hclose
    exact ⟨c', readArgs_more ht (eat_eq_none h₁ fun v' => comma.not_token (by decide)) he hts, h₃⟩

mutual

/-- The reader follows every derivation. -/
theorem readAs_of_derives : ∀ {u v : Text} {n m : UInt32} {t : Ty}, Derives N u n t v m →
    ReadAs N u n t v m
  | _, _, _, _, _, .shared amp noMut inner =>
    readAs_ref amp (Nat.le_refl _) (fun c hc => ⟨c, hc.mutability_immutable noMut, hc⟩)
      (inner.length_lt.trans amp.length_lt) (readAs_of_derives inner)
  | _, _, _, _, _, .mutable amp word inner =>
    readAs_ref amp word.length_lt.le (fun _ hc => hc.mutability word)
      (inner.length_lt.trans (word.length_lt.trans amp.length_lt)) (readAs_of_derives inner)
  | _, _, _, _, _, .never bang => readAs_never bang
  | _, _, _, _, _, .integer word => readAs_braced word rfl fun c hc => by
    obtain ⟨c', hb, h'⟩ := hc.braced_int
    exact ⟨(c'.fresh .int).2, hb.trans (by rw [← h'.2]; rfl), h'.1, congrArg (· + 1) h'.2⟩
  | _, _, _, _, _, .float word => readAs_braced word rfl fun c hc => by
    obtain ⟨c', hb, h'⟩ := hc.braced_float
    exact ⟨(c'.fresh .float).2, hb.trans (by rw [← h'.2]; rfl), h'.1, congrArg (· + 1) h'.2⟩
  | _, _, _, _, _, .unknown word => readAs_braced word rfl fun _ hc => hc.braced_unknown
  | _, _, _, _, _, .slice left elem right =>
    readAs_slice left right (right.length_lt.trans (elem.length_lt.trans left.length_lt))
      (readAs_of_derives elem)
  | _, _, _, _, _, .unit left right => readAs_unit left right
  | _, _, _, _, _, .parens left inner right =>
    readAs_elems false left (.one inner) right
      (right.length_lt.trans (inner.length_lt.trans left.length_lt))
      (readAll_one inner.length_lt (readAs_of_derives inner)) fun _ _ _ _ => read_parens
  | _, _, _, _, _, .tuple left elems several right =>
    readAs_elems false left elems right
      (right.length_lt.trans (elems.length_lt.trans left.length_lt)) (readAll_of_derives elems)
      fun _ _ _ _ hat he hts => read_tuple hat he hts (.inr (by omega))
  | _, _, _, _, _, .tupleComma left elems comma right =>
    readAs_elems true left elems ⟨_, comma, right⟩
      (right.length_lt.trans (comma.length_lt.trans (elems.length_lt.trans left.length_lt)))
      (readAll_of_derives elems) fun _ _ _ _ hat he hts => read_tuple hat he hts (.inl rfl)
  | _, _, _, _, _, .general path => readAs_general path
  | _, _, _, _, _, .num k path =>
    readAs_word path (by cases k <;> decide) (by cases k <;> rfl)
  | _, _, _, _, _, .prim k path => by
    cases k with
    | bool | char | str => exact readAs_word path (by decide) rfl
    | unit | never =>
      obtain ⟨b, x, e, hb⟩ := path.eq_cons
      rw [← (List.cons.inj e).1] at hb
      cases hb
  | _, _, _, _, _, .bare path denotes arity => readAs_bare path denotes arity
  | _, _, _, _, _, .applied path denotes left args right arity =>
    readAs_applied path denotes left right arity
      (right.length_lt.trans (args.length_lt.trans (left.length_lt.trans path.length_lt)))
      (readAll_of_derives args)

theorem readAll_of_derives : ∀ {u v : Text} {n m : UInt32} {ts : List Ty},
    DerivesList N u n ts v m → ReadAll N u n ts v m
  | _, _, _, _, _, .one elem => readAll_one elem.length_lt (readAs_of_derives elem)
  | _, _, _, _, _, .more elem comma rest =>
    readAll_more comma rest elem.length_lt (readAs_of_derives elem) (readAll_of_derives rest)

end

/-! ## Whole texts -/

theorem meets_parse (N : NameTable) (text : Text) (n : UInt32) :
    Meets text.length (parse N text n) fun t =>
      ∃ v m, Derives N text n t v m ∧ v.dropWhile isSpace = [] := by
  have hread := (sound N (2 * text.length + 2)).read ⟨text, 0, n⟩
  have hsize : size ⟨text, 0, n⟩ = text.length := Nat.zero_add _
  rw [← hsize]
  refine hread.bind fun ⟨t, c⟩ ⟨ht, hc⟩ => ?_
  dsimp only
  cases hrest : c.skipSpace.rest with
  | nil => exact ⟨c.rest, c.nextId, ht, (skipSpace_rest c).symm.trans hrest⟩
  | cons b v => exact hc ▸ meets_fail _

theorem parse_of_derives {N : NameTable} {text v : Text} {n m : UInt32} {t : Ty}
    (h : Derives N text n t v m) (hv : v.dropWhile isSpace = []) : parse N text n = .ok t := by
  have hno : ∀ v', ¬ Token "<" v v' := fun v' ht => by
    have hnil := hv.symm.trans ht
    cases hnil
  have hc : Left ⟨text, 0, n⟩ text n := ⟨rfl, rfl⟩
  obtain ⟨c', hread, h'⟩ := readAs_of_derives h hc (Nat.le_add_right (2 * text.length) 2) hno
  have hrest : c'.skipSpace.rest = [] := by rw [skipSpace_rest, h'.1, hv]
  simp only [parse, hread, bind, Except.bind, hrest]
  rfl

/-- A text is read as a type if and only if it derives from the grammar as that type, white space
behind it aside, and a refusal names a place in it. -/
theorem parse_iff_derives (N : NameTable) (text : Text) (n : UInt32) :
    (∀ t, parse N text n = .ok t ↔
      ∃ v m, Derives N text n t v m ∧ v.dropWhile isSpace = []) ∧
    ∀ e, parse N text n = .error e → e.offset ≤ text.length := by
  have h := meets_parse N text n
  refine ⟨fun t => ⟨fun ht => ?_, fun ⟨v, m, ht, hv⟩ => parse_of_derives ht hv⟩, fun e he => ?_⟩
  · rwa [ht] at h
  · rwa [he] at h

end Ty
end Mismatch
