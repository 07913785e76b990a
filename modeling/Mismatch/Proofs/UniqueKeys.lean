import Mismatch.Proofs.Distinct
import Mismatch.Proofs.Memo

/-!
# Keys identify goals

The key of a goal is put together from names, numbers, signs and free text, and none of its parts
says how long it is. It can be read in one way only, as long as the names are identifiers and no
description has a closing brace: the first byte says what form a type has (`Ty.sign`), and what may
follow a type in a key cannot go on with a name or a number (`EndsKey`). Only the unit type and the
tuple without elements have one key. So two goals have one key exactly if they are equivalent but
for that (`Goal.key_eq_iff`).
-/

namespace Mismatch

open Text

namespace Ty

/-- The tuple with these elements, which is the unit type if there are none. -/
def tupleOf : List Ty → Ty
  | [] => .unit
  | t :: ts => .tuple (t :: ts)

mutual

/-- The type with the unit type in place of each tuple without elements. -/
def unified : Ty → Ty
  | .ref m t => .ref m (unified t)
  | .adt i ts => .adt i (unifiedAll ts)
  | .tuple ts => tupleOf (unifiedAll ts)
  | .slice t => .slice (unified t)
  | t => t

def unifiedAll : List Ty → List Ty
  | [] => []
  | t :: ts => unified t :: unifiedAll ts

end

theorem bare_tupleOf (ts : List Ty) : (tupleOf ts).bare = tupleOf (bareAll ts) := by
  cases ts <;> rfl

mutual

/-- The items are named as in a program, the parameters are identifiers, and no description of an
anonymous type has a closing brace. -/
def Legible : Ty → Prop
  | .ref _ t | .slice t => Legible t
  | .adt i ts => i.Named ∧ LegibleAll ts
  | .tuple ts => LegibleAll ts
  | .param a => isIdent a = true
  | .anon d => 0x7d ∉ d
  | _ => True

def LegibleAll : List Ty → Prop
  | [] => True
  | t :: ts => Legible t ∧ LegibleAll ts

end

end Ty

/-- The types of the goal and its trait are legible. -/
structure Goal.Legible (g : Goal) : Prop where
  self : g.self.Legible
  trait : g.trait.Named
  args : Ty.LegibleAll g.args

/-! ## Where names and numbers end -/

/-- What may follow a type in a key. -/
inductive EndsKey : Text → Prop
  | part {u : Text} (ends : Ty.endsType u = true) : EndsKey u
  | self (u : Text) : EndsKey (": " ++ u)

namespace Text
variable {w w' u v : Text}

/-- Two names that end with no colon are the same if what follows them goes on with a colon at
most. -/
theorem append_word_inj (hw : IsName w) (hw' : IsName w') (hl : w.getLast? ≠ some (byte ':'))
    (hl' : w'.getLast? ≠ some (byte ':'))
    (hu : u.takeWhile isPathByte = [] ∨ u.takeWhile isPathByte = [byte ':'])
    (hv : v.takeWhile isPathByte = [] ∨ v.takeWhile isPathByte = [byte ':'])
    (e : w ++ u = w' ++ v) : w = w' ∧ u = v := by
  have h := congrArg (List.takeWhile isPathByte) e
  rw [List.takeWhile_append_of_pos hw.bytes, List.takeWhile_append_of_pos hw'.bytes] at h
  suffices hww : w = w' by
    subst hww
    exact ⟨rfl, List.append_cancel_left e⟩
  rcases hu with hu | hu <;> rcases hv with hv | hv <;> rw [hu, hv] at h
  · simpa using h
  · rw [List.append_nil] at h
    exact absurd (by simp [h]) hl
  · rw [List.append_nil] at h
    exact absurd (by simp [← h]) hl'
  · exact List.append_cancel_right h

end Text

namespace EndsKey
variable {u : Text}

theorem takeWhile_eq_nil {p : UInt8 → Bool} (h : EndsKey u)
    (hp : [byte ',', byte '>', byte ']', byte ')', byte ':'].any p = false) :
    u.takeWhile p = [] := by
  have hstart : ∀ b ∈ [byte ',', byte '>', byte ']', byte ')', byte ':'], ∀ v,
      (b :: v).takeWhile p = [] :=
    fun b hb v => List.takeWhile_cons_of_neg (List.any_eq_false.1 hp b hb)
  cases h with
  | self v => exact hstart (byte ':') (by simp) _
  | part h =>
    cases u with
    | nil => rfl
    | cons b u =>
      simp only [Ty.endsType, Bool.or_eq_true, beq_iff_eq] at h
      refine hstart b ?_ u
      rcases h with ((rfl | rfl) | rfl) | rfl <;> simp

theorem takeWhile_isIdentByte (h : EndsKey u) : u.takeWhile isIdentByte = [] :=
  h.takeWhile_eq_nil rfl

theorem takeWhile_isDigit (h : EndsKey u) : u.takeWhile isDigit = [] :=
  h.takeWhile_eq_nil rfl

theorem takeWhile_isPathByte (h : EndsKey u) :
    u.takeWhile isPathByte = [] ∨ u.takeWhile isPathByte = [byte ':'] := by
  cases h with
  | self => exact .inr rfl
  | part h => exact .inl (Ty.takeWhile_of_endsType h)

/-- Neither a blank nor the bracket in front of arguments follows a type. -/
theorem head {b : UInt8} (h : EndsKey (b :: u)) : b ≠ byte ' ' ∧ b ≠ byte '<' := by
  refine ⟨?_, ?_⟩ <;> rintro rfl <;> cases h with
  | part h => cases h

end EndsKey

/-! ## How keys start -/

/-- A word in a key: a name that ends with no colon. -/
def Text.IsWord (w : Text) : Prop := IsName w ∧ w.getLast? ≠ some (byte ':')

theorem Text.isWord_of_isIdent {w : Text} (h : isIdent w = true) : IsWord w := by
  refine ⟨isName_of_isIdent h, fun hl => ?_⟩
  exact colon_not_mem_of_isIdent h (List.mem_of_getLast? hl)

theorem Item.Named.isWord {i : Item} (h : i.Named) : IsWord i.qualified := by
  refine ⟨h.isName_qualified, ?_⟩
  have hne : i.name ≠ [] := fun hn => by
    have := h.ident
    rw [hn] at this
    cases this
  have hl := (isWord_of_isIdent h.ident).2
  unfold Item.qualified
  split
  · exact hl
  · rwa [List.getLast?_append_of_ne_nil _ hne]

theorem Item.Named.ofWord?_qualified {i : Item} (h : i.Named) : Ty.ofWord? i.qualified = none := by
  simpa [Item.shown] using h.noWord [i]

namespace Ty
variable {s t : Ty} {ss ts : List Ty} {u v w : Text}

/-- The first byte of the key of a type, where that is not a word. -/
def sign : Ty → Option UInt8
  | .missing => some (byte '<')
  | .prim .unit | .tuple _ => some (byte '(')
  | .prim .never => some (byte '!')
  | .ref .. => some (byte '&')
  | .slice _ => some (byte '[')
  | .param _ => some (byte '$')
  | .infer .. => some (byte '?')
  | .unknown | .anon _ => some 0x7b
  | _ => none

/-- The byte, if it is none with which words start. -/
def signOf (b : UInt8) : Option UInt8 := if isIdentStart b then none else some b

theorem head?_of_isWord (hw : IsWord w) (u : Text) : (w ++ u).head?.map signOf = some none := by
  obtain ⟨⟨b, x, rfl, hb, -⟩, -⟩ := hw
  simp [signOf, hb]

theorem sign_spec (ht : t.Legible) (u : Text) : (t.keyOnto u).head?.map signOf = some t.sign := by
  cases t with
  | num k => exact head?_of_isWord (isWord_of_isIdent (by cases k <;> rfl)) u
  | prim k =>
    cases k with
    | bool | char | str => exact head?_of_isWord (isWord_of_isIdent rfl) u
    | unit | never => rfl
  | ref m t => cases m <;> rfl
  | adt i ts => cases ts <;> exact head?_of_isWord ht.1.isWord _
  | missing | tuple | slice | param | infer | unknown | anon => rfl

theorem sign_eq (hs : s.Legible) (ht : t.Legible) (e : s.keyOnto u = t.keyOnto v) :
    s.sign = t.sign := by
  have h := sign_spec hs u
  rw [e, sign_spec ht v] at h
  exact (Option.some.inj h).symm

/-- What follows the name of an item in a key. -/
def keyArgsOnto : List Ty → Text → Text
  | [], u => u
  | t :: ts, u => "<" ++ keyListOnto (t :: ts) (">" ++ u)

theorem keyOnto_adt (i : Item) (ts : List Ty) (u : Text) :
    keyOnto (.adt i ts) u = i.qualified ++ keyArgsOnto ts u := by
  cases ts <;> rfl

theorem takeWhile_keyArgsOnto (hu : EndsKey u) :
    (keyArgsOnto ts u).takeWhile isPathByte = [] ∨
      (keyArgsOnto ts u).takeWhile isPathByte = [byte ':'] := by
  cases ts with
  | nil => exact hu.takeWhile_isPathByte
  | cons t ts => exact .inl rfl

/-- A type whose key starts with a word is a word of the language or an item with its arguments. -/
theorem key_word_cases (ht : t.Legible) (h : t.sign = none) :
    (∃ w, IsWord w ∧ ofWord? w = some t ∧ ∀ u, t.keyOnto u = w ++ u) ∨
      ∃ i ts, i.Named ∧ LegibleAll ts ∧ t = .adt i ts := by
  cases t with
  | num k =>
    exact .inl ⟨k.name, isWord_of_isIdent (by cases k <;> rfl), by cases k <;> rfl, fun _ => rfl⟩
  | prim k =>
    cases k with
    | bool | char | str => exact .inl ⟨_, isWord_of_isIdent rfl, rfl, fun _ => rfl⟩
    | unit | never => cases h
  | adt i ts => exact .inr ⟨i, ts, ht.1, ht.2, rfl⟩
  | _ => cases h

/-! ## Unique reading -/

/-- Where a type may end, the key of `s` is that of no type but those that are equivalent to it, up
to the unit type. -/
def KeyTells (s : Ty) : Prop :=
  ∀ ⦃t : Ty⦄ ⦃u v : Text⦄, t.Legible → EndsKey u → EndsKey v → s.keyOnto u = t.keyOnto v →
    s.unified.bare = t.unified.bare ∧ u = v

/-- Types with commas between them, up to a closing byte. -/
def KeyTellsList (ss : List Ty) : Prop :=
  ∀ ⦃ts : List Ty⦄ ⦃u v : Text⦄, LegibleAll ts → ss ≠ [] → ts ≠ [] →
    keyListOnto ss (byte '>' :: u) = keyListOnto ts (byte '>' :: v) →
    bareAll (unifiedAll ss) = bareAll (unifiedAll ts) ∧ u = v

/-- Types with a comma after each, up to a closing byte. -/
def KeyTellsEach (ss : List Ty) : Prop :=
  ∀ ⦃ts : List Ty⦄ ⦃u v : Text⦄, LegibleAll ts →
    keyEachOnto ss (byte ')' :: u) = keyEachOnto ts (byte ')' :: v) →
    bareAll (unifiedAll ss) = bareAll (unifiedAll ts) ∧ u = v

theorem keyTells_word (hs : s.Legible) (h : s.sign = none) (hw : IsWord w)
    (hof : ofWord? w = some s) (hkey : ∀ u, s.keyOnto u = w ++ u) : KeyTells s := by
  intro t u v ht hu hv e
  rcases key_word_cases ht (sign_eq hs ht e ▸ h) with ⟨w', hw', hof', hkey'⟩ | ⟨i, ts, hi, -, rfl⟩
  · rw [hkey, hkey'] at e
    obtain ⟨rfl, rfl⟩ := append_word_inj hw.1 hw'.1 hw.2 hw'.2 hu.takeWhile_isPathByte
      hv.takeWhile_isPathByte e
    obtain rfl := Option.some.inj (hof.symm.trans hof')
    exact ⟨rfl, rfl⟩
  · rw [hkey, keyOnto_adt] at e
    obtain ⟨rfl, -⟩ := append_word_inj hw.1 hi.isWord.1 hw.2 hi.isWord.2 hu.takeWhile_isPathByte
      (takeWhile_keyArgsOnto hv) e
    rw [hi.ofWord?_qualified] at hof
    cases hof

theorem keyTells_adt {i : Item} (hs : (adt i ss).Legible) (ih : KeyTellsList ss) :
    KeyTells (.adt i ss) := by
  intro t u v ht hu hv e
  have hi := hs.1.isWord
  rcases key_word_cases ht (sign_eq hs ht e).symm with ⟨w, hw, hof, hkey⟩ | ⟨j, ts, hj, hts, rfl⟩
  · rw [hkey, keyOnto_adt] at e
    obtain ⟨rfl, -⟩ := append_word_inj hi.1 hw.1 hi.2 hw.2 (takeWhile_keyArgsOnto hu)
      hv.takeWhile_isPathByte e
    rw [hs.1.ofWord?_qualified] at hof
    cases hof
  · rw [keyOnto_adt, keyOnto_adt] at e
    obtain ⟨hij, h⟩ := append_word_inj hi.1 hj.isWord.1 hi.2 hj.isWord.2
      (takeWhile_keyArgsOnto hu) (takeWhile_keyArgsOnto hv) e
    obtain rfl := Item.qualified_inj hs.1.ident hj.ident hij
    -- What follows a type has no bracket, so that both have arguments or none has.
    match ss, ts, h with
    | [], [], h => exact ⟨rfl, h⟩
    | [], _ :: _, h =>
      obtain rfl : u = _ := h
      exact absurd rfl hu.head.2
    | _ :: _, [], h =>
      obtain rfl : _ = v := h
      exact absurd rfl hv.head.2
    | s :: ss, t :: ts, h =>
      obtain ⟨hargs, rfl⟩ := ih hts (List.cons_ne_nil s ss) (List.cons_ne_nil t ts)
        (List.cons.inj h).2
      exact ⟨congrArg (Ty.adt i) hargs, rfl⟩

/-- Behind a shared reference there is no keyword: a blank follows no word. -/
theorem key_ne_mut (hs : s.Legible) (hu : EndsKey u) (v : Text) : s.keyOnto u ≠ "mut " ++ v := by
  intro e
  have hmut : IsWord "mut" := isWord_of_isIdent rfl
  have hblank : (byte ' ' :: v).takeWhile isPathByte = [] := rfl
  have h := sign_spec hs u
  rw [e] at h
  rcases key_word_cases hs (Option.some.inj h).symm with ⟨w, hw, -, hkey⟩ | ⟨i, ss, hi, -, rfl⟩
  · rw [hkey] at e
    obtain ⟨-, rfl⟩ := append_word_inj hw.1 hmut.1 hw.2 hmut.2 hu.takeWhile_isPathByte
      (.inl hblank) e
    exact absurd rfl hu.head.1
  · rw [keyOnto_adt] at e
    obtain ⟨-, h⟩ := append_word_inj hi.isWord.1 hmut.1 hi.isWord.2 hmut.2
      (takeWhile_keyArgsOnto hu) (.inl hblank) e
    cases ss with
    | nil =>
      obtain rfl : u = byte ' ' :: v := h
      exact absurd rfl hu.head.1
    | cons s ss => cases h

theorem keyTells_ref (m : Mutability) (hs : s.Legible) (ih : KeyTells s) : KeyTells (.ref m s) := by
  intro t u v ht hu hv e
  have hsign := sign_eq (s := .ref m s) hs ht e
  cases t with
  | ref n t =>
    have ht' : t.Legible := ht
    have hsame : s.keyOnto u = t.keyOnto v →
        (ref m s).unified.bare = (ref m t).unified.bare ∧ u = v := fun e => by
      obtain ⟨h, huv⟩ := ih ht' hu hv e
      exact ⟨congrArg (Ty.ref m) h, huv⟩
    cases m <;> cases n
    · exact hsame (List.cons.inj e).2
    · exact absurd (List.cons.inj e).2 (key_ne_mut hs hu _)
    · exact absurd (List.cons.inj e).2.symm (key_ne_mut ht' hv _)
    · exact hsame (List.append_cancel_left e)
  | prim k => cases k <;> cases hsign
  | _ => cases hsign

theorem keyTells_slice (hs : s.Legible) (ih : KeyTells s) : KeyTells (.slice s) := by
  intro t u v ht hu hv e
  have hsign := sign_eq (s := .slice s) hs ht e
  cases t with
  | slice t =>
    have ht' : t.Legible := ht
    obtain ⟨h, huv⟩ := ih ht' (u := "]" ++ u) (v := "]" ++ v) (.part rfl) (.part rfl)
      (List.cons.inj e).2
    exact ⟨congrArg Ty.slice h, (List.cons.inj huv).2⟩
  | prim k => cases k <;> cases hsign
  | _ => cases hsign

theorem keyTells_param {a : Text} (hs : isIdent a = true) : KeyTells (.param a) := by
  intro t u v ht hu hv e
  have hsign := sign_eq (s := .param a) hs ht e
  cases t with
  | param b =>
    obtain ⟨rfl, rfl⟩ := append_inj_of_takeWhile (isIdent_bytes hs) (isIdent_bytes ht)
      hu.takeWhile_isIdentByte hv.takeWhile_isIdentByte (List.cons.inj e).2
    exact ⟨rfl, rfl⟩
  | prim k => cases k <;> cases hsign
  | _ => cases hsign

theorem keyTells_infer (k : InferKind) (i : UInt32) (d : Text) : KeyTells (.infer k i d) := by
  intro t u v ht hu hv e
  have hsign := sign_eq (s := .infer k i d) trivial ht e
  cases t with
  | infer l j d' =>
    have hdot : ∀ x : Text, ("." ++ x : Text).takeWhile isDigit = [] := fun _ => rfl
    obtain ⟨hk, h⟩ := append_inj_of_takeWhile isDigit_ofNat isDigit_ofNat (hdot _) (hdot _)
      (List.cons.inj e).2
    obtain ⟨hi, rfl⟩ := append_inj_of_takeWhile isDigit_ofNat isDigit_ofNat
      hu.takeWhile_isDigit hv.takeWhile_isDigit (List.cons.inj h).2
    obtain rfl := UInt32.toNat_inj.1 (ofNat_inj hi)
    have hkl := ofNat_inj hk
    obtain rfl : k = l := by cases k <;> cases l <;> first | rfl | cases hkl
    exact ⟨rfl, rfl⟩
  | prim k => cases k <;> cases hsign
  | _ => cases hsign

theorem keyTells_anon {d : Text} (hs : 0x7d ∉ d) : KeyTells (.anon d) := by
  intro t u v ht hu hv e
  have hsign := sign_eq (s := .anon d) hs ht e
  cases t with
  | anon d' =>
    have hbytes : ∀ {d : Text}, 0x7d ∉ d → ∀ b ∈ d, (b != 0x7d) = true := fun h b hb =>
      bne_iff_ne.2 fun hbd => h (hbd ▸ hb)
    have hclose : ∀ x : Text, ("\x7d" ++ x : Text).takeWhile (· != 0x7d) = [] := fun _ => rfl
    obtain ⟨rfl, h⟩ := append_inj_of_takeWhile (hbytes hs) (hbytes ht) (hclose u) (hclose v)
      (List.append_cancel_left e)
    exact ⟨rfl, (List.cons.inj h).2⟩
  | unknown => cases e
  | prim k => cases k <;> cases hsign
  | _ => cases hsign

theorem keyTells_missing : KeyTells .missing := by
  intro t u v ht _ _ e
  have hsign := sign_eq (s := .missing) trivial ht e
  cases t with
  | missing => exact ⟨rfl, List.append_cancel_left e⟩
  | prim k => cases k <;> cases hsign
  | _ => cases hsign

theorem keyTells_unknown : KeyTells .unknown := by
  intro t u v ht _ _ e
  have hsign := sign_eq (s := .unknown) trivial ht e
  cases t with
  | unknown => exact ⟨rfl, List.append_cancel_left e⟩
  | anon d => cases e
  | prim k => cases k <;> cases hsign
  | _ => cases hsign

theorem keyTells_never : KeyTells .never := by
  intro t u v ht _ _ e
  have hsign := sign_eq (s := .never) trivial ht e
  cases t with
  | prim k =>
    cases k with
    | never => exact ⟨rfl, List.append_cancel_left e⟩
    | _ => cases hsign
  | _ => cases hsign

/-! ### Several types -/

theorem bareAll_unifiedAll_cons (h : s.unified.bare = t.unified.bare)
    (hs : bareAll (unifiedAll ss) = bareAll (unifiedAll ts)) :
    bareAll (unifiedAll (s :: ss)) = bareAll (unifiedAll (t :: ts)) := by
  rw [unifiedAll, unifiedAll, bareAll, bareAll, h, hs]

theorem keyTells_list_cons (hs : KeyTells s) (hss : KeyTellsList ss) : KeyTellsList (s :: ss) := by
  intro ts u v hts _ hne e
  match ss, ts, hne with
  | [], [t], _ =>
    obtain ⟨h, huv⟩ := hs hts.1 (.part rfl) (.part rfl) e
    exact ⟨bareAll_unifiedAll_cons h rfl, (List.cons.inj huv).2⟩
  | [], t :: t' :: ts, _ =>
    obtain ⟨-, h⟩ := hs hts.1 (.part rfl) (.part rfl) e
    cases h
  | s' :: ss, [t], _ =>
    obtain ⟨-, h⟩ := hs hts.1 (.part rfl) (.part rfl) e
    cases h
  | s' :: ss, t :: t' :: ts, _ =>
    obtain ⟨h, huv⟩ := hs hts.1 (.part rfl) (.part rfl) e
    obtain ⟨hrest, rfl⟩ := hss hts.2 (List.cons_ne_nil s' ss) (List.cons_ne_nil t' ts)
      (List.cons.inj huv).2
    exact ⟨bareAll_unifiedAll_cons h hrest, rfl⟩

/-- No type starts with a closing parenthesis. -/
theorem key_ne_closing (ht : t.Legible) (u v : Text) : t.keyOnto u ≠ byte ')' :: v := by
  intro e
  have h := sign_spec ht u
  rw [e] at h
  have hsign : t.sign = some (byte ')') := (Option.some.inj h).symm
  cases t with
  | prim k => cases k <;> cases hsign
  | _ => cases hsign

theorem keyTells_each_nil : KeyTellsEach [] := by
  intro ts u v hts e
  cases ts with
  | nil => exact ⟨rfl, (List.cons.inj e).2⟩
  | cons t ts => exact absurd e.symm (key_ne_closing hts.1 _ _)

theorem keyTells_each_cons (hl : s.Legible) (hs : KeyTells s) (hss : KeyTellsEach ss) :
    KeyTellsEach (s :: ss) := by
  intro ts u v hts e
  cases ts with
  | nil => exact absurd e (key_ne_closing hl _ _)
  | cons t ts =>
    obtain ⟨h, huv⟩ := hs hts.1 (.part rfl) (.part rfl) e
    obtain ⟨hrest, rfl⟩ := hss hts.2 (List.cons.inj huv).2
    exact ⟨bareAll_unifiedAll_cons h hrest, rfl⟩

theorem keyTells_tuple (hs : LegibleAll ss) (ih : KeyTellsEach ss) : KeyTells (.tuple ss) := by
  intro t u v ht _ _ e
  have hsign := sign_eq (s := .tuple ss) hs ht e
  have htuple : ∀ ts : List Ty, LegibleAll ts → (tuple ss).keyOnto u = (tuple ts).keyOnto v →
      (tuple ss).unified.bare = (tuple ts).unified.bare ∧ u = v := fun ts ht e => by
    obtain ⟨h, huv⟩ := ih ht (List.cons.inj e).2
    rw [unified, unified, bare_tupleOf, bare_tupleOf, h]
    exact ⟨rfl, huv⟩
  cases t with
  | tuple ts => exact htuple ts ht e
  | prim k =>
    cases k with
    | unit => exact htuple [] trivial e
    | _ => cases hsign
  | _ => cases hsign

/-- The unit type is written like the tuple without elements. -/
theorem keyTells_unit : KeyTells .unit :=
  have h : KeyTells (.tuple []) := keyTells_tuple trivial keyTells_each_nil
  fun _ _ _ ht hu hv e => h ht hu hv e

mutual

theorem Legible.keyTells : ∀ s : Ty, s.Legible → KeyTells s
  | .missing, _ => keyTells_missing
  | .num k, _ =>
    keyTells_word trivial rfl (isWord_of_isIdent (by cases k <;> rfl)) (by cases k <;> rfl)
      fun _ => rfl
  | .prim .bool, _ | .prim .char, _ | .prim .str, _ =>
    keyTells_word trivial rfl (isWord_of_isIdent rfl) rfl fun _ => rfl
  | .prim .unit, _ => keyTells_unit
  | .prim .never, _ => keyTells_never
  | .ref m s, hs => keyTells_ref m hs (Legible.keyTells s hs)
  | .adt _ ss, hs => keyTells_adt hs (LegibleAll.keyTellsList ss hs.2)
  | .tuple ss, hs => keyTells_tuple hs (LegibleAll.keyTellsEach ss hs)
  | .slice s, hs => keyTells_slice hs (Legible.keyTells s hs)
  | .param _, hs => keyTells_param hs
  | .infer k i d, _ => keyTells_infer k i d
  | .unknown, _ => keyTells_unknown
  | .anon _, hs => keyTells_anon hs

theorem LegibleAll.keyTellsList : ∀ ss : List Ty, LegibleAll ss → KeyTellsList ss
  | [], _ => fun _ _ _ _ hne => absurd rfl hne
  | s :: ss, hs =>
    keyTells_list_cons (Legible.keyTells s hs.1) (LegibleAll.keyTellsList ss hs.2)

theorem LegibleAll.keyTellsEach : ∀ ss : List Ty, LegibleAll ss → KeyTellsEach ss
  | [], _ => keyTells_each_nil
  | s :: ss, hs =>
    keyTells_each_cons hs.1 (Legible.keyTells s hs.1) (LegibleAll.keyTellsEach ss hs.2)

end

/-! ## The unit type in keys -/

theorem keyOnto_tupleOf (ts : List Ty) (u : Text) :
    (tupleOf ts).keyOnto u = (tuple ts).keyOnto u := by
  cases ts <;> rfl

mutual

theorem keyOnto_unified : ∀ (t : Ty) (u : Text), t.unified.keyOnto u = t.keyOnto u
  | .ref .immutable t, u | .ref .mutable t, u => by
    simp [unified, keyOnto, keyOnto_unified t]
  | .adt i [], u => rfl
  | .adt i (t :: ts), u => by
    have h := keyListOnto_unified (t :: ts)
    rw [unifiedAll] at h
    rw [unified, unifiedAll, keyOnto_adt, keyOnto_adt, keyArgsOnto, keyArgsOnto, h]
  | .tuple ts, u => by
    rw [unified, keyOnto_tupleOf, keyOnto, keyOnto, keyEachOnto_unified ts]
  | .slice t, u => by simp [unified, keyOnto, keyOnto_unified t]
  | .missing, _ | .num _, _ | .prim _, _ | .param _, _ | .infer .., _ | .unknown, _
  | .anon _, _ => rfl

theorem keyListOnto_unified : ∀ (ts : List Ty) (u : Text),
    keyListOnto (unifiedAll ts) u = keyListOnto ts u
  | [], _ => rfl
  | [t], u => by simp [unifiedAll, keyListOnto, keyOnto_unified t]
  | t :: t' :: ts, u => by
    have h := keyListOnto_unified (t' :: ts) u
    rw [unifiedAll] at h
    rw [unifiedAll, unifiedAll, keyListOnto, keyListOnto, keyOnto_unified t, h]

theorem keyEachOnto_unified : ∀ (ts : List Ty) (u : Text),
    keyEachOnto (unifiedAll ts) u = keyEachOnto ts u
  | [], _ => rfl
  | t :: ts, u => by
    rw [unifiedAll, keyEachOnto, keyEachOnto, keyOnto_unified t, keyEachOnto_unified ts]

end

theorem unifiedAll_eq_map (ts : List Ty) : unifiedAll ts = ts.map unified := by
  induction ts with
  | nil => rfl
  | cons t ts ih => rw [unifiedAll, ih, List.map_cons]

theorem keyArgsOnto_unified (ts : List Ty) (u : Text) :
    keyArgsOnto (unifiedAll ts) u = keyArgsOnto ts u := by
  cases ts with
  | nil => rfl
  | cons t ts =>
    have h := keyListOnto_unified (t :: ts)
    rw [unifiedAll] at h
    rw [unifiedAll, keyArgsOnto, keyArgsOnto, h]

/-- The arguments of a trait are told apart by what follows its name in a key. -/
theorem keyArgsOnto_inj (hss : LegibleAll ss) (hts : LegibleAll ts)
    (e : keyArgsOnto ss [] = keyArgsOnto ts []) :
    bareAll (unifiedAll ss) = bareAll (unifiedAll ts) := by
  match ss, ts, e with
  | [], [], _ => rfl
  | s :: ss, t :: ts, e =>
    exact (LegibleAll.keyTellsList (s :: ss) hss hts (List.cons_ne_nil s ss)
      (List.cons_ne_nil t ts) (List.cons.inj e).2).1

end Ty

/-! ## Goals -/

namespace Goal
variable {g h : Goal}

/-- The goal with the unit type in place of each tuple without elements. -/
def unified (g : Goal) : Goal := ⟨g.self.unified, g.trait, Ty.unifiedAll g.args⟩

theorem keyText_eq_onto (g : Goal) : g.keyText =
    g.self.keyOnto (": " ++ (g.trait.qualified ++ Ty.keyArgsOnto g.args [])) := by
  rw [keyText]
  cases g.args <;> rfl

theorem keyText_unified (g : Goal) : g.unified.keyText = g.keyText := by
  rw [keyText_eq_onto, keyText_eq_onto, unified, Ty.keyOnto_unified, Ty.keyArgsOnto_unified]

theorem bare_unified_of_keyText (hg : g.Legible) (hh : h.Legible) (e : g.keyText = h.keyText) :
    g.unified.bare = h.unified.bare := by
  rw [keyText_eq_onto, keyText_eq_onto] at e
  obtain ⟨hself, htail⟩ := Ty.Legible.keyTells g.self hg.self hh.self (.self _) (.self _) e
  have hargs : ∀ ts : List Ty, (Ty.keyArgsOnto ts []).takeWhile Text.isPathByte = [] := fun ts => by
    cases ts <;> rfl
  obtain ⟨htrait, hrest⟩ := Text.append_name_inj hg.trait.isName_qualified
    hh.trait.isName_qualified (hargs g.args) (hargs h.args) (List.append_cancel_left htail)
  rw [bare, bare, mk.injEq]
  exact ⟨hself, Item.qualified_inj hg.trait.ident hh.trait.ident htrait,
    Ty.keyArgsOnto_inj hg.args hh.args hrest⟩

theorem keyText_eq_iff_bare (hg : g.Legible) (hh : h.Legible) :
    g.keyText = h.keyText ↔ g.unified.bare = h.unified.bare := by
  refine ⟨bare_unified_of_keyText hg hh, fun e => ?_⟩
  rw [← keyText_unified, ← keyText_bare, e, keyText_bare, keyText_unified]

theorem key_eq_iff_keyText : g.key = h.key ↔ g.keyText = h.keyText :=
  ⟨congrArg fun k : Key => k.text.get, fun e => Key.ext_get (congrArg List.length e) e⟩

theorem bare_unified_iff : g.unified.bare = h.unified.bare ↔
    g.trait = h.trait ∧ g.self.unified.equiv h.self.unified = true ∧
      List.Forall₂ (fun t u => t.unified.equiv u.unified = true) g.args h.args := by
  have hargs : Ty.bareAll (Ty.unifiedAll g.args) = Ty.bareAll (Ty.unifiedAll h.args) ↔
      List.Forall₂ (fun t u => t.unified.equiv u.unified = true) g.args h.args := by
    simp only [Ty.bareAll_eq_map, Ty.unifiedAll_eq_map, List.map_map, Ty.equiv_iff]
    rw [← List.forall₂_eq_eq_eq, List.forall₂_map_left_iff, List.forall₂_map_right_iff]
    rfl
  rw [bare, bare, mk.injEq, ← Ty.equiv_iff]
  exact and_left_comm.trans (and_congr_right fun _ => and_congr_right fun _ => hargs)

/-- Legible goals have one key exactly if they ask for one trait, with as many arguments, about
equivalent types, where the tuple without elements counts as the unit type. -/
theorem key_eq_iff (hg : g.Legible) (hh : h.Legible) :
    (g.keyText = h.keyText ↔
      g.trait = h.trait ∧ g.self.unified.equiv h.self.unified = true ∧
        List.Forall₂ (fun t u => t.unified.equiv u.unified = true) g.args h.args) ∧
    (g.key = h.key ↔
      g.trait = h.trait ∧ g.self.unified.equiv h.self.unified = true ∧
        List.Forall₂ (fun t u => t.unified.equiv u.unified = true) g.args h.args) := by
  rw [key_eq_iff_keyText, keyText_eq_iff_bare hg hh, bare_unified_iff]
  exact ⟨Iff.rfl, Iff.rfl⟩

end Goal

namespace Sample

/-- A trait with a path, asked of two types that are named alike. -/
def mutTrait : Item := ⟨"mut", Text.joinWith "::" ["m", "n"]⟩

def askOf (self arg : Ty) : Goal := ⟨self, mutTrait, [arg, .missing, .anon ": "]⟩

theorem legible_askOf {self arg : Ty} (hs : self.Legible) (ha : arg.Legible) :
    (askOf self arg).Legible where
  self := hs
  trait := named_mut ["m", "n"] (by decide)
  args := ⟨ha, trivial, (by decide : (0x7d : UInt8) ∉ (": " : Text)), trivial⟩

theorem legible_mutableMut : mutableMut.Legible := ⟨named_mut ["m"] (by decide), trivial⟩

theorem legible_sharedMut : sharedMut.Legible := ⟨named_mut [] (by decide), trivial⟩

end Sample

/-- The unit type has the key of the tuple without elements, and a shared reference to an item
named `mut` does not have that of a mutable one. -/
theorem Goal.key_eq_iff_mut :
    (Sample.askOf Sample.mutableMut (.tuple [])).key =
      (Sample.askOf Sample.mutableMut .unit).key ∧
    (Sample.askOf Sample.mutableMut .unit).key ≠ (Sample.askOf Sample.sharedMut .unit).key := by
  have hunit : (Sample.askOf Sample.mutableMut .unit).Legible :=
    Sample.legible_askOf Sample.legible_mutableMut trivial
  refine ⟨?_, fun h => ?_⟩
  · have htuple : (Sample.askOf Sample.mutableMut (.tuple [])).Legible :=
      Sample.legible_askOf Sample.legible_mutableMut trivial
    exact (Goal.key_eq_iff htuple hunit).2.2 ⟨rfl, rfl, .cons rfl (.cons rfl (.cons rfl .nil))⟩
  · have hshared : (Sample.askOf Sample.sharedMut .unit).Legible :=
      Sample.legible_askOf Sample.legible_sharedMut trivial
    have he := ((Goal.key_eq_iff hunit hshared).2.1 h).2.1
    cases he

/-- Keys tell legible goals apart that have no tuple without elements. -/
theorem faithful_of_legible {A : Goal → Prop} (hA : ∀ g, A g → g.Legible ∧ g.unified = g) :
    Faithful A := by
  intro g h hg hh e
  obtain ⟨hg, hug⟩ := hA g hg
  obtain ⟨hh, huh⟩ := hA h hh
  have hbare := Goal.bare_unified_of_keyText hg hh (Goal.key_eq_iff_keyText.1 e)
  rw [hug, huh] at hbare
  exact (Goal.equiv_iff g h).2 hbare

end Mismatch
