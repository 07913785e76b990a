import Mismatch.Proofs.Bare
import Mismatch.Proofs.RoundTrip
import Mismatch.Proofs.Words
import Mismatch.Ty.Collision

/-!
# Different types are shown differently

Items with one short name are written in full wherever two of them are shown together, so that the
words for the items of a message tell these apart (`Item.shown_inj`). A type that consists of such
words and of the syntax of types can then be read off its text in one way only
(`Ty.Plain.determined`), and a message names two types alike only if they are equivalent
(`Ty.expectedFound_texts_eq_iff`).
-/

namespace Mismatch

open Text

/-! ## Words for items -/

/-- The short name is an identifier that is not a word of the language, and the path consists of
identifiers, if it is not empty. -/
structure Item.Named (i : Item) : Prop where
  ident : isIdent i.name = true
  ne_num : ∀ k : NumKind, i.name ≠ k.name
  ne_prim : ∀ k : PrimKind, i.name ≠ k.name
  path : ∃ segs : List Text, (∀ w ∈ segs, isIdent w = true) ∧ i.path = joinWith "::" segs

/-- A byte of a name or of a path. -/
def Text.isPathByte (b : UInt8) : Bool := isIdentByte b || b == byte ':'

/-- The byte that stands on both sides of a type in a message. -/
def Text.quote : UInt8 := 0x60

/-- What may be written for an item: a word that starts like an identifier and has bytes of paths
only. -/
def Text.IsName (w : Text) : Prop :=
  ∃ b v, w = b :: v ∧ isIdentStart b = true ∧ ∀ c ∈ v, isPathByte c = true

namespace Text
variable {w w' u v : Text}

theorem isPathByte_of_isIdentByte {b : UInt8} (h : isIdentByte b = true) : isPathByte b = true := by
  simp [isPathByte, h]

theorem isName_of_isIdent (h : isIdent w = true) : IsName w := by
  cases w with
  | nil => cases h
  | cons b v =>
    obtain ⟨hb, hv⟩ := isIdent_cons.1 h
    exact ⟨b, v, rfl, hb, fun c hc => isPathByte_of_isIdentByte (hv c hc)⟩

theorem IsName.bytes (h : IsName w) : ∀ b ∈ w, isPathByte b = true := by
  obtain ⟨b, v, rfl, hb, hv⟩ := h
  intro c hc
  rcases List.mem_cons.1 hc with rfl | hc
  · exact isPathByte_of_isIdentByte (isIdentByte_of_isIdentStart hb)
  · exact hv c hc

theorem IsName.append (h : IsName w) (hu : ∀ b ∈ u, isPathByte b = true) : IsName (w ++ u) := by
  obtain ⟨b, v, rfl, hb, hv⟩ := h
  refine ⟨b, v ++ u, rfl, hb, fun c hc => ?_⟩
  rcases List.mem_append.1 hc with hc | hc
  · exact hv c hc
  · exact hu c hc

/-- A name goes on with `::` and another name. -/
theorem IsName.segment (h : IsName w) (hv : isIdent v = true) : IsName (w ++ "::" ++ v) := by
  have hcolons : ∀ b ∈ ("::" : Text), isPathByte b = true := List.all_eq_true.1 rfl
  exact (h.append hcolons).append fun b hb => isPathByte_of_isIdentByte (isIdent_bytes hv b hb)

theorem isName_joinWith : ∀ {ws : List Text} {w : Text}, IsName w →
    (∀ v ∈ ws, isIdent v = true) → IsName (w ++ ws.flatMap (("::" : Text) ++ ·))
  | [], w, h, _ => by rwa [List.flatMap_nil, List.append_nil]
  | v :: ws, w, h, hws => by
    rw [List.flatMap_cons, ← List.append_assoc, ← List.append_assoc]
    exact isName_joinWith (h.segment (hws v List.mem_cons_self))
      fun x hx => hws x (List.mem_cons_of_mem v hx)

/-- Two names are the same if what follows them cannot go on with either. -/
theorem append_name_inj (hw : IsName w) (hw' : IsName w') (hu : u.takeWhile isPathByte = [])
    (hv : v.takeWhile isPathByte = []) (e : w ++ u = w' ++ v) : w = w' ∧ u = v :=
  append_inj_of_takeWhile hw.bytes hw'.bytes hu hv e

end Text

namespace Item
variable {i j : Item} {q : List Item}

theorem Named.isName_qualified (h : i.Named) : IsName i.qualified := by
  obtain ⟨segs, hsegs, hpath⟩ := h.path
  cases segs with
  | nil =>
    have hp : i.path = [] := hpath
    simpa [qualified, hp] using isName_of_isIdent h.ident
  | cons w ws =>
    rw [joinWith_cons] at hpath
    have hname := isName_joinWith (isName_of_isIdent (hsegs w List.mem_cons_self))
      fun v hv => hsegs v (List.mem_cons_of_mem w hv)
    rw [← hpath] at hname
    unfold qualified
    split
    · exact isName_of_isIdent h.ident
    · exact hname.segment h.ident

theorem Named.isName_shown (h : i.Named) (q : List Item) : IsName (i.shown q) := by
  unfold shown
  split
  · exact h.isName_qualified
  · exact isName_of_isIdent h.ident

/-- What is written for an item is no word of the language. -/
theorem Named.noWord (h : i.Named) (q : List Item) : Ty.ofWord? (i.shown q) = none := by
  unfold shown
  split
  · exact Ty.ofWord?_eq_none (fun k => qualified_ne_word (by cases k <;> rfl) fun _ => h.ne_num k)
      fun k hk => qualified_ne_word hk fun _ => h.ne_prim k
  · exact Ty.ofWord?_eq_none h.ne_num fun k _ => h.ne_prim k

end Item

theorem Ty.mem_colliding {i : Item} {ts : List Ty} : i ∈ Ty.colliding ts ↔
    i ∈ ts.flatMap Ty.items ∧ ∃ j ∈ ts.flatMap Ty.items, j.name = i.name ∧ j ≠ i := by
  simp [Ty.colliding]

/-- In a message about some types, what is written for an item tells it apart from the others. -/
theorem Item.shown_inj {i j : Item} {ts : List Ty} (hi : i ∈ ts.flatMap Ty.items)
    (hj : j ∈ ts.flatMap Ty.items) (hni : i.Named) (hnj : j.Named)
    (e : i.shown (Ty.colliding ts) = j.shown (Ty.colliding ts)) : i = j := by
  by_contra hne
  have hname : i.name = j.name := by
    simp only [shown] at e
    split at e <;> split at e
    · exact congrArg Item.name (qualified_inj hni.ident hnj.ident e)
    · exact name_eq_of_qualified_eq hnj.ident e
    · exact (name_eq_of_qualified_eq hni.ident e.symm).symm
    · exact e
  -- Two different items with one short name are both written in full.
  have hi' : i ∈ Ty.colliding ts := Ty.mem_colliding.2 ⟨hi, j, hj, hname.symm, Ne.symm hne⟩
  have hj' : j ∈ Ty.colliding ts := Ty.mem_colliding.2 ⟨hj, i, hi, hname, hne⟩
  simp only [shown, List.contains_iff_mem.2 hi', List.contains_iff_mem.2 hj', if_true] at e
  exact hne (qualified_inj hni.ident hnj.ident e)

/-! ## Types that are shown as they are written -/

namespace Ty

/-- Types that consist of numeric and primitive types, references, slices, tuples of at least one
element, the unknown type and items with the property `P`. -/
inductive Plain (P : Item → Prop) : Ty → Prop
  | num (k : NumKind) : Plain P (.num k)
  | prim (k : PrimKind) : Plain P (.prim k)
  | ref (m : Mutability) {t : Ty} (inner : Plain P t) : Plain P (.ref m t)
  | adt {i : Item} {ts : List Ty} (item : P i) (args : ∀ t ∈ ts, Plain P t) : Plain P (.adt i ts)
  | tuple {ts : List Ty} (nonempty : ts ≠ []) (elems : ∀ t ∈ ts, Plain P t) : Plain P (.tuple ts)
  | slice {t : Ty} (elem : Plain P t) : Plain P (.slice t)
  | unknown : Plain P .unknown

/-- What is written for the items tells them apart, from one another and from the words of the
language. -/
structure Distinct (q : List Item) (P : Item → Prop) : Prop where
  isName : ∀ i, P i → IsName (i.shown q)
  noWord : ∀ i, P i → ofWord? (i.shown q) = none
  inj : ∀ i j, P i → P j → i.shown q = j.shown q → i = j

/-! ### How the text of a type starts -/

/-- How a text starts. -/
inductive Lead where
  | word | amp | bang | paren | bracket | brace | other

/-- How a text with this first byte starts. -/
def Lead.of (b : UInt8) : Lead :=
  if isIdentStart b then .word
  else if b == byte '&' then .amp
  else if b == byte '!' then .bang
  else if b == byte '(' then .paren
  else if b == byte '[' then .bracket
  else if b == 0x7b then .brace
  else .other

/-- How the text of the type starts, if it consists of the nodes above. -/
def lead : Ty → Lead
  | .ref .. => .amp
  | .prim .never => .bang
  | .prim .unit | .tuple _ => .paren
  | .slice _ => .bracket
  | .unknown => .brace
  | _ => .word

variable {q : List Item} {P : Item → Prop} {s t : Ty} {ss ts : List Ty} {u v w : Text}

theorem lead_of_isName (hw : IsName w) : (w ++ u).head?.map Lead.of = some .word := by
  obtain ⟨b, x, rfl, hb, -⟩ := hw
  simp [Lead.of, hb]

theorem isName_num (k : NumKind) : IsName k.name := isName_of_isIdent (by cases k <;> rfl)

theorem Plain.lead_spec (hq : Distinct q P) (ht : t.Plain P) (u : Text) :
    (t.renderOnto q u).head?.map Lead.of = some t.lead := by
  cases ht with
  | num k => exact lead_of_isName (isName_num k)
  | prim k =>
    cases k with
    | bool | char | str => exact lead_of_isName (isName_of_isIdent rfl)
    | unit | never => rfl
  | ref m => cases m <;> rfl
  | @adt i ts item => cases ts <;> exact lead_of_isName (hq.isName i item)
  | @tuple ts =>
    match ts with
    | [] | [_] | _ :: _ :: _ => rfl
  | slice => rfl
  | unknown => rfl

theorem Plain.lead_eq (hq : Distinct q P) (hs : s.Plain P) (ht : t.Plain P)
    (e : s.renderOnto q u = t.renderOnto q v) : s.lead = t.lead := by
  have h := hs.lead_spec hq u
  rw [e, ht.lead_spec hq v] at h
  exact (Option.some.inj h).symm

/-- No type starts with a closing parenthesis. -/
theorem Plain.ne_closing (hq : Distinct q P) (ht : t.Plain P) (u v : Text) :
    t.renderOnto q u ≠ byte ')' :: v := by
  intro e
  have h := ht.lead_spec hq u
  rw [e] at h
  have hother : t.lead = .other := (Option.some.inj h).symm
  cases t with
  | prim k => cases k <;> cases hother
  | _ => cases hother

theorem takeWhile_of_endsType (h : endsType u = true) : u.takeWhile isPathByte = [] := by
  cases u with
  | nil => rfl
  | cons b u =>
    simp only [endsType, Bool.or_eq_true, beq_iff_eq] at h
    rcases h with ((rfl | rfl) | rfl) | rfl <;> rfl

/-! ### Unique reading -/

/-- Where a type may end, the text of `s` is that of no other type of the kind. -/
def Determined (q : List Item) (P : Item → Prop) (s : Ty) : Prop :=
  ∀ ⦃t : Ty⦄ ⦃u v : Text⦄, t.Plain P → endsType u = true → endsType v = true →
    s.renderOnto q u = t.renderOnto q v → s = t ∧ u = v

/-- What follows the word for an item. -/
def argsOnto (q : List Item) : List Ty → Text → Text
  | [], u => u
  | t :: ts, u => "<" ++ renderListOnto q (t :: ts) (">" ++ u)

theorem renderOnto_adt (i : Item) (ts : List Ty) (u : Text) :
    renderOnto q (.adt i ts) u = i.shown q ++ argsOnto q ts u := by
  cases ts <;> rfl

theorem takeWhile_argsOnto (hu : endsType u = true) :
    (argsOnto q ts u).takeWhile isPathByte = [] := by
  cases ts with
  | nil => exact takeWhile_of_endsType hu
  | cons t ts => rfl

/-- A type that starts with a word is a word of the language or an item with its arguments. -/
theorem Plain.word_cases (ht : t.Plain P) (hl : t.lead = .word) :
    (∃ w, IsName w ∧ ofWord? w = some t ∧ ∀ u, t.renderOnto q u = w ++ u) ∨
      ∃ i ts, P i ∧ (∀ t ∈ ts, t.Plain P) ∧ t = .adt i ts := by
  cases ht with
  | num k => exact .inl ⟨k.name, isName_num k, by cases k <;> rfl, fun _ => rfl⟩
  | prim k =>
    cases k with
    | bool | char | str => exact .inl ⟨_, isName_of_isIdent rfl, rfl, fun _ => rfl⟩
    | unit | never => cases hl
  | @adt i ts item args => exact .inr ⟨i, ts, item, args, rfl⟩
  | ref | tuple | slice | unknown => cases hl

theorem determined_word (hq : Distinct q P) (hs : s.Plain P) (hl : s.lead = .word) (hw : IsName w)
    (hof : ofWord? w = some s) (hrender : ∀ u, s.renderOnto q u = w ++ u) : Determined q P s := by
  intro t u v ht hu hv e
  rcases ht.word_cases (hs.lead_eq hq ht e ▸ hl) with
    ⟨w', hw', hof', hrender'⟩ | ⟨i, ts, hi, -, rfl⟩
  · rw [hrender, hrender'] at e
    obtain ⟨rfl, rfl⟩ :=
      append_name_inj hw hw' (takeWhile_of_endsType hu) (takeWhile_of_endsType hv) e
    exact ⟨Option.some.inj (hof.symm.trans hof'), rfl⟩
  · rw [hrender, renderOnto_adt] at e
    obtain ⟨rfl, -⟩ :=
      append_name_inj hw (hq.isName i hi) (takeWhile_of_endsType hu) (takeWhile_argsOnto hv) e
    rw [hq.noWord i hi] at hof
    cases hof

/-- Types with commas between them, up to a closing byte. -/
theorem determined_list {c : UInt8} (hc : ∀ x, endsType (c :: x) = true) (hcomma : c ≠ byte ',') :
    ∀ {ss ts : List Ty} {u v : Text}, (∀ s ∈ ss, Determined q P s) → (∀ t ∈ ts, t.Plain P) →
      ss ≠ [] → ts ≠ [] → renderListOnto q ss (c :: u) = renderListOnto q ts (c :: v) →
      ss = ts ∧ u = v
  | [], _, _, _, _, _, hss, _, _ => absurd rfl hss
  | _ :: _, [], _, _, _, _, _, hts, _ => absurd rfl hts
  | [s], [t], u, v, hs, ht, _, _, e => by
    obtain ⟨rfl, h⟩ := hs s List.mem_cons_self (ht t List.mem_cons_self) (hc u) (hc v) e
    exact ⟨rfl, (List.cons.inj h).2⟩
  | [s], t :: t' :: ts, u, v, hs, ht, _, _, e => by
    have hv : endsType (", " ++ renderListOnto q (t' :: ts) (c :: v)) = true := rfl
    obtain ⟨-, h⟩ := hs s List.mem_cons_self (ht t List.mem_cons_self) (hc u) hv e
    exact absurd (List.cons.inj h).1 hcomma
  | s :: s' :: ss, [t], u, v, hs, ht, _, _, e => by
    have hu : endsType (", " ++ renderListOnto q (s' :: ss) (c :: u)) = true := rfl
    obtain ⟨-, h⟩ := hs s List.mem_cons_self (ht t List.mem_cons_self) hu (hc v) e
    exact absurd (List.cons.inj h).1.symm hcomma
  | s :: s' :: ss, t :: t' :: ts, u, v, hs, ht, _, _, e => by
    have hu : endsType (", " ++ renderListOnto q (s' :: ss) (c :: u)) = true := rfl
    have hv : endsType (", " ++ renderListOnto q (t' :: ts) (c :: v)) = true := rfl
    obtain ⟨rfl, h⟩ := hs s List.mem_cons_self (ht t List.mem_cons_self) hu hv e
    obtain ⟨hrest, rfl⟩ := determined_list hc hcomma
      (fun x hx => hs x (List.mem_cons_of_mem s hx)) (fun x hx => ht x (List.mem_cons_of_mem s hx))
      (List.cons_ne_nil s' ss) (List.cons_ne_nil t' ts) (List.append_cancel_left h)
    exact ⟨congrArg (s :: ·) hrest, rfl⟩

theorem determined_adt (hq : Distinct q P) {i : Item} (hi : P i) (hss : ∀ s ∈ ss, s.Plain P)
    (ih : ∀ s ∈ ss, Determined q P s) : Determined q P (.adt i ss) := by
  intro t u v ht hu hv e
  have hs : (Ty.adt i ss).Plain P := .adt hi hss
  rcases ht.word_cases (hs.lead_eq hq ht e).symm with
    ⟨w, hw, hof, hrender⟩ | ⟨j, ts, hj, hts, rfl⟩
  · rw [hrender, renderOnto_adt] at e
    obtain ⟨rfl, -⟩ :=
      append_name_inj (hq.isName i hi) hw (takeWhile_argsOnto hu) (takeWhile_of_endsType hv) e
    rw [hq.noWord i hi] at hof
    cases hof
  · rw [renderOnto_adt, renderOnto_adt] at e
    obtain ⟨hij, h⟩ := append_name_inj (hq.isName i hi) (hq.isName j hj) (takeWhile_argsOnto hu)
      (takeWhile_argsOnto hv) e
    obtain rfl := hq.inj i j hi hj hij
    match ss, ts, h with
    | [], [], h => exact ⟨rfl, h⟩
    | [], _ :: _, h => rw [show u = _ from h] at hu; cases hu
    | _ :: _, [], h => rw [← show _ = v from h] at hv; cases hv
    | s :: ss, t :: ts, h =>
      obtain ⟨hargs, rfl⟩ := determined_list (c := byte '>') (fun _ => rfl) (by decide) ih hts
        (List.cons_ne_nil s ss) (List.cons_ne_nil t ts) (List.cons.inj h).2
      exact ⟨congrArg (Ty.adt i) hargs, rfl⟩

/-- Behind a shared reference there is no keyword: a blank follows no word. -/
theorem Plain.ne_mut (hq : Distinct q P) (hs : s.Plain P) (hu : endsType u = true) (v : Text) :
    s.renderOnto q u ≠ "mut " ++ v := by
  intro e
  have hmut : IsName "mut" := isName_of_isIdent rfl
  have hblank : ((32 : UInt8) :: v).takeWhile isPathByte = [] := rfl
  have h := hs.lead_spec hq u
  rw [e] at h
  rcases hs.word_cases (Option.some.inj h).symm with ⟨w, hw, -, hrender⟩ | ⟨i, ss, hi, -, rfl⟩
  · rw [hrender] at e
    obtain ⟨-, rfl⟩ := append_name_inj hw hmut (takeWhile_of_endsType hu) hblank e
    cases hu
  · rw [renderOnto_adt] at e
    obtain ⟨-, h⟩ := append_name_inj (hq.isName i hi) hmut (takeWhile_argsOnto hu) hblank e
    cases ss with
    | nil =>
      obtain rfl : u = 32 :: v := h
      cases hu
    | cons s ss => cases h

theorem determined_ref (hq : Distinct q P) (m : Mutability) (hs : s.Plain P)
    (ih : Determined q P s) : Determined q P (.ref m s) := by
  intro t u v ht hu hv e
  have hl := (Plain.ref m hs).lead_eq hq ht e
  cases ht with
  | @ref m' t ht =>
    cases m <;> cases m'
    · obtain ⟨rfl, rfl⟩ := ih ht hu hv (List.cons.inj e).2
      exact ⟨rfl, rfl⟩
    · exact absurd (List.cons.inj e).2 (hs.ne_mut hq hu _)
    · exact absurd (List.cons.inj e).2.symm (ht.ne_mut hq hv _)
    · obtain ⟨rfl, rfl⟩ := ih ht hu hv (List.append_cancel_left e)
      exact ⟨rfl, rfl⟩
  | prim k => cases k <;> cases hl
  | _ => cases hl

theorem determined_slice (hq : Distinct q P) (hs : s.Plain P) (ih : Determined q P s) :
    Determined q P (.slice s) := by
  intro t u v ht hu hv e
  have hl := hs.slice.lead_eq hq ht e
  cases ht with
  | @slice t ht =>
    obtain ⟨rfl, h⟩ := ih ht rfl rfl (List.cons.inj e).2
    exact ⟨rfl, (List.cons.inj h).2⟩
  | prim k => cases k <;> cases hl
  | _ => cases hl

/-- A tuple with elements is not shown like the unit type. -/
theorem tuple_ne_unit (hq : Distinct q P) (hne : ts ≠ []) (hts : ∀ t ∈ ts, t.Plain P)
    (u v : Text) : (Ty.tuple ts).renderOnto q u ≠ "()" ++ v := by
  intro e
  match ts, hne, hts, e with
  | [t], _, hts, e =>
    exact (hts t List.mem_cons_self).ne_closing hq _ _ (List.cons.inj e).2
  | t :: t' :: ts, _, hts, e =>
    exact (hts t List.mem_cons_self).ne_closing hq _ _ (List.cons.inj e).2

theorem determined_tuple (hq : Distinct q P) (hne : ss ≠ []) (hss : ∀ s ∈ ss, s.Plain P)
    (ih : ∀ s ∈ ss, Determined q P s) : Determined q P (.tuple ss) := by
  intro t u v ht hu hv e
  have hl := (Plain.tuple hne hss).lead_eq hq ht e
  cases ht with
  | prim k =>
    cases k with
    | unit => exact absurd e (tuple_ne_unit hq hne hss u v)
    | _ => cases hl
  | @tuple ts hne' hts =>
    match ss, ts, hne, hne', e with
    | [s], [t], _, _, e =>
      obtain ⟨rfl, h⟩ := ih s List.mem_cons_self (hts t List.mem_cons_self) (u := ",)" ++ u)
        (v := ",)" ++ v) rfl rfl (List.cons.inj e).2
      exact ⟨rfl, List.append_cancel_left h⟩
    | [s], t :: t' :: ts, _, _, e =>
      obtain ⟨-, h⟩ := ih s List.mem_cons_self (hts t List.mem_cons_self) (u := ",)" ++ u)
        (v := ", " ++ renderListOnto q (t' :: ts) (")" ++ v)) rfl rfl (List.cons.inj e).2
      cases h
    | s :: s' :: ss, [t], _, _, e =>
      obtain ⟨-, h⟩ := ih s List.mem_cons_self (hts t List.mem_cons_self)
        (u := ", " ++ renderListOnto q (s' :: ss) (")" ++ u)) (v := ",)" ++ v) rfl rfl
        (List.cons.inj e).2
      cases h
    | s :: s' :: ss, t :: t' :: ts, _, _, e =>
      obtain ⟨h, rfl⟩ := determined_list (c := byte ')') (fun _ => rfl) (by decide) ih hts
        (List.cons_ne_nil s _) (List.cons_ne_nil t _) (List.cons.inj e).2
      exact ⟨congrArg Ty.tuple h, rfl⟩
  | _ => cases hl

/-- The words and signs without parts. -/
theorem determined_prim (hq : Distinct q P) (k : PrimKind) : Determined q P (.prim k) := by
  cases k with
  | bool | char | str =>
    exact determined_word hq (.prim _) rfl (isName_of_isIdent rfl) rfl fun _ => rfl
  | unit =>
    intro t u v ht _ _ e
    have hl := (Plain.prim .unit).lead_eq hq ht e
    cases ht with
    | tuple hne hts => exact absurd e.symm (tuple_ne_unit hq hne hts v u)
    | prim k =>
      cases k with
      | unit => exact ⟨rfl, List.append_cancel_left e⟩
      | _ => cases hl
    | _ => cases hl
  | never =>
    intro t u v ht _ _ e
    have hl := (Plain.prim .never).lead_eq hq ht e
    cases ht with
    | prim k =>
      cases k with
      | never => exact ⟨rfl, List.append_cancel_left e⟩
      | _ => cases hl
    | _ => cases hl

theorem determined_unknown (hq : Distinct q P) : Determined q P .unknown := by
  intro t u v ht _ _ e
  have hl := Plain.unknown.lead_eq hq ht e
  cases ht with
  | unknown => exact ⟨rfl, List.append_cancel_left e⟩
  | prim k => cases k <;> cases hl
  | _ => cases hl

theorem Plain.determined (hq : Distinct q P) (hs : s.Plain P) : Determined q P s := by
  induction hs with
  | num k => exact determined_word hq (.num k) rfl (isName_num k) (by cases k <;> rfl) fun _ => rfl
  | prim k => exact determined_prim hq k
  | ref m inner ih => exact determined_ref hq m inner ih
  | adt item args ih => exact determined_adt hq item args ih
  | tuple nonempty elems ih => exact determined_tuple hq nonempty elems ih
  | slice elem ih => exact determined_slice hq elem ih
  | unknown => exact determined_unknown hq

/-! ## The texts of a mismatch -/

theorem nodesAll_eq_flatMap (ts : List Ty) : nodesAll ts = ts.flatMap nodes := by
  induction ts with
  | nil => rfl
  | cons t ts ih => rw [nodesAll, ih, List.flatMap_cons]

theorem items_ref {m : Mutability} : (Ty.ref m t).items = t.items := List.filterMap_cons_none rfl

theorem items_slice : t.slice.items = t.items := List.filterMap_cons_none rfl

theorem items_tuple : (Ty.tuple ts).items = ts.flatMap items := by
  rw [items, nodes, List.filterMap_cons_none rfl, nodesAll_eq_flatMap, List.filterMap_flatMap]
  rfl

theorem items_adt {i : Item} : (Ty.adt i ts).items = i :: ts.flatMap items := by
  have hi : item? (.adt i ts) = some i := rfl
  rw [items, nodes, List.filterMap_cons_some hi, nodesAll_eq_flatMap, List.filterMap_flatMap]
  rfl

/-- What holds of all items that occur in a type may be said of the type. -/
theorem Plain.and {Q : Item → Prop} (ht : t.Plain P) (h : ∀ i ∈ t.items, Q i) :
    t.Plain fun i => P i ∧ Q i := by
  induction ht with
  | num k => exact .num k
  | prim k => exact .prim k
  | ref m _ ih => exact .ref m (ih (items_ref ▸ h))
  | @adt i ts item _ ih =>
    rw [items_adt, List.forall_mem_cons] at h
    exact .adt ⟨item, h.1⟩ fun t ht =>
      ih t ht fun j hj => h.2 j (List.mem_flatMap.2 ⟨t, ht, hj⟩)
  | tuple nonempty _ ih =>
    rw [items_tuple] at h
    exact .tuple nonempty fun t ht => ih t ht fun j hj => h j (List.mem_flatMap.2 ⟨t, ht, hj⟩)
  | slice _ ih => exact .slice (ih (items_slice ▸ h))
  | unknown => exact .unknown

/-- Such a type has no inference variables. -/
theorem Plain.bare (ht : t.Plain P) : t.bare = t := by
  have hall : ∀ ts : List Ty, (∀ t ∈ ts, t.bare = t) → bareAll ts = ts := fun ts h => by
    rw [bareAll_eq_map, List.map_congr_left h, List.map_id']
  induction ht with
  | ref m _ ih => exact congrArg (Ty.ref m) ih
  | @adt i ts _ _ ih => exact congrArg (Ty.adt i) (hall ts ih)
  | @tuple ts _ _ ih => exact congrArg Ty.tuple (hall ts ih)
  | slice _ ih => exact congrArg Ty.slice ih
  | num | prim | unknown => rfl

theorem quote_not_mem_of_isName (hw : IsName w) : quote ∉ w := fun h => by
  cases hw.bytes quote h

theorem quote_not_mem_list (h : ∀ t ∈ ts, ∀ u : Text, quote ∉ u → quote ∉ t.renderOnto q u)
    (hu : quote ∉ u) : quote ∉ renderListOnto q ts u := by
  induction ts using List.twoStepInduction with
  | nil => exact hu
  | singleton t => exact h t List.mem_cons_self u hu
  | cons_cons t t' ts _ ih =>
    have hrest := ih t' fun x hx => h x (List.mem_cons_of_mem t hx)
    exact h t List.mem_cons_self _ (List.not_mem_append (by decide) hrest)

/-- No quotes are written for such a type. -/
theorem Plain.quote_not_mem (hq : Distinct q P) (ht : t.Plain P) :
    ∀ u : Text, quote ∉ u → quote ∉ t.renderOnto q u := by
  induction ht with
  | num k => exact fun u hu => List.not_mem_append (quote_not_mem_of_isName (isName_num k)) hu
  | prim k =>
    have hk : quote ∉ k.name := by cases k <;> decide
    exact fun u hu => List.not_mem_append hk hu
  | ref m _ ih =>
    intro u hu
    cases m
    · exact List.not_mem_append (by decide) (ih u hu)
    · exact List.not_mem_append (by decide) (ih u hu)
  | @adt i ts item _ ih =>
    intro u hu
    have hname := quote_not_mem_of_isName (hq.isName i item)
    cases ts with
    | nil => exact List.not_mem_append hname hu
    | cons t ts =>
      have hclose : quote ∉ ">" ++ u := List.not_mem_append (by decide) hu
      have hargs := quote_not_mem_list ih hclose
      exact List.not_mem_append hname (List.not_mem_append (by decide) hargs)
  | @tuple ts nonempty _ ih =>
    intro u hu
    match ts, nonempty, ih with
    | [t], _, ih =>
      have hclose : quote ∉ ",)" ++ u := List.not_mem_append (by decide) hu
      exact List.not_mem_append (by decide) (ih t List.mem_cons_self _ hclose)
    | t :: t' :: ts, _, ih =>
      have hclose : quote ∉ ")" ++ u := List.not_mem_append (by decide) hu
      exact List.not_mem_append (by decide) (quote_not_mem_list ih hclose)
  | slice _ ih =>
    intro u hu
    have hclose : quote ∉ "]" ++ u := List.not_mem_append (by decide) hu
    exact List.not_mem_append (by decide) (ih _ hclose)
  | unknown => exact fun u hu => List.not_mem_append (by decide) hu

/-! ### Messages -/

/-- The items in the types of a message are told apart by what is written for them. -/
theorem distinct_colliding (ts : List Ty) :
    Distinct (colliding ts) fun i => i.Named ∧ i ∈ ts.flatMap items where
  isName _ hi := hi.1.isName_shown (colliding ts)
  noWord _ hi := hi.1.noWord (colliding ts)
  inj _ _ hi hj h := Item.shown_inj hi.2 hj.2 hi.1 hj.1 h

theorem Plain.occurs {ts : List Ty} (hts : ∀ t ∈ ts, t.Plain Item.Named) (ht : t ∈ ts) :
    t.Plain fun i => i.Named ∧ i ∈ ts.flatMap items :=
  (hts t ht).and fun _ hi => List.mem_flatMap.2 ⟨t, ht, hi⟩

/-- In a message about some types, two of them have one text only if they are one type. -/
theorem Plain.render_inj {ts : List Ty} (hts : ∀ t ∈ ts, t.Plain Item.Named) (hs : s ∈ ts)
    (ht : t ∈ ts) (h : s.render (colliding ts) = t.render (colliding ts)) : s = t :=
  ((occurs hts hs).determined (distinct_colliding ts) (occurs hts ht) rfl rfl h).1

theorem Plain.quote_not_mem_render {ts : List Ty} (hts : ∀ t ∈ ts, t.Plain Item.Named)
    (ht : t ∈ ts) : quote ∉ t.render (colliding ts) :=
  (occurs hts ht).quote_not_mem (distinct_colliding ts) [] List.not_mem_nil

/-- What is said of a mismatch has the texts of the two types between quotes, and these are the same
only if the types are equivalent. -/
theorem expectedFound_texts_eq_iff {e a : Ty} (he : e.Plain Item.Named)
    (ha : a.Plain Item.Named) :
    ∃ x y : Text, expectedFound e a = Text.join ["expected `", x, "`, found `", y, "`"] ∧
      quote ∉ x ∧ quote ∉ y ∧ (x = y ↔ e.equiv a = true) := by
  have hts : ∀ t ∈ [e, a], t.Plain Item.Named := by simp [he, ha]
  have hmem : e ∈ [e, a] ∧ a ∈ [e, a] := by simp
  refine ⟨e.render (colliding [e, a]), a.render (colliding [e, a]), rfl,
    Plain.quote_not_mem_render hts hmem.1, Plain.quote_not_mem_render hts hmem.2, ?_⟩
  rw [equiv_iff, he.bare, ha.bare]
  exact ⟨Plain.render_inj hts hmem.1 hmem.2, fun h => by rw [h]⟩

end Ty

namespace Sample

theorem named_mut (segs : List Text) (h : ∀ w ∈ segs, isIdent w = true) :
    Item.Named ⟨"mut", joinWith "::" segs⟩ where
  ident := rfl
  ne_num := fun k h => by cases k <;> cases h
  ne_prim := fun k h => by cases k <;> cases h
  path := ⟨segs, h, rfl⟩

/-- A mutable reference to an item named `mut` of a module. -/
def mutableMut : Ty := .ref .mutable (.adt ⟨"mut", "m"⟩ [])

/-- A shared reference to an item named `mut` without a path, of which the text is `&mut`. -/
def sharedMut : Ty := .ref .immutable (.adt ⟨"mut", []⟩ [])

theorem plain_mutableMut : mutableMut.Plain Item.Named :=
  .ref _ (.adt (named_mut ["m"] (by decide)) (by simp))

theorem plain_sharedMut : sharedMut.Plain Item.Named :=
  .ref _ (.adt (named_mut [] (by decide)) (by simp))

end Sample

/-- Two references that differ, although one text starts with the other. -/
theorem Ty.expectedFound_texts_mut :
    ∃ x y : Text, expectedFound Sample.mutableMut Sample.sharedMut =
        Text.join ["expected `", x, "`, found `", y, "`"] ∧
      quote ∉ x ∧ quote ∉ y ∧ (x = y ↔ Sample.mutableMut.equiv Sample.sharedMut = true) :=
  expectedFound_texts_eq_iff Sample.plain_mutableMut Sample.plain_sharedMut

end Mismatch
