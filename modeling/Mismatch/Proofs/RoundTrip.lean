import Mathlib.Data.List.Nodup
import Mismatch.Proofs.Reading
import Mismatch.Ty.Parse
import Mismatch.Ty.Render

/-!
# Reading undoes writing

A type that is written out with its items in full is read back as that type (`Ty.parse_render`), if
the names of the items can be told apart (`NameTable.Legible`) and nothing in the type is lost in
writing (`Ty.Writable`). The inference variables must be numbered as the reader numbers them.

`Reads N t` says that the reader takes `t` off the front of every text in which it is written out
and followed by the end of a type. The types are built up by constructors that keep it.
-/

namespace Mismatch

open Text Cursor

/-! ## Legible names -/

/-- The name of the item and the segments of its path are identifiers, of which the first is not the
word `mut`. -/
def Item.Spelled (i : Item) (segs : List Text) : Prop :=
  i.path = joinWith "::" segs ∧ (∀ w ∈ segs ++ [i.name], isIdent w = true) ∧
    (segs ++ [i.name]).head? ≠ some "mut"

instance (i : Item) (segs : List Text) : Decidable (i.Spelled segs) :=
  inferInstanceAs (Decidable (_ ∧ _ ∧ _))

/-- The declared items. -/
def NameTable.items (N : NameTable) : List Item := N.entries.map (·.item)

/-- The items are distinct and spelled with identifiers. One without a path has a short name of its
own, which is not a word of the language. -/
structure NameTable.Legible (N : NameTable) : Prop where
  distinct : N.items.Nodup
  spelled : ∀ e ∈ N.entries, ∃ segs, e.item.Spelled segs
  alone : ∀ e ∈ N.entries, e.item.path = [] →
    ∀ f ∈ N.entries, f.item.name = e.item.name → f.item = e.item
  noWord : ∀ e ∈ N.entries, e.item.path = [] → e.item.name ≠ "_" ∧
    (∀ k : NumKind, e.item.name ≠ k.name) ∧ ∀ k : PrimKind, e.item.name ≠ k.name

namespace Item
variable {i j : Item} {segs segs' : List Text}

theorem Spelled.name (h : i.Spelled segs) : isIdent i.name = true := h.2.1 _ (by simp)

theorem Spelled.path_eq_nil (h : i.Spelled segs) : i.path = [] ↔ segs = [] := by
  refine ⟨fun hp => ?_, fun hs => by rw [h.1, hs]; rfl⟩
  cases segs with
  | nil => rfl
  | cons w ws =>
    obtain ⟨hpath, hident, -⟩ := h
    rw [hp, joinWith_cons, eq_comm, List.append_eq_nil_iff] at hpath
    have hw := hident w (by simp)
    rw [hpath.1] at hw
    cases hw

/-- The full path consists of the segments and the name. -/
theorem Spelled.qualified (h : i.Spelled segs) :
    i.qualified = joinWith "::" (segs ++ [i.name]) := by
  by_cases hp : i.path = []
  · rw [h.path_eq_nil.1 hp]
    simp [Item.qualified, hp, joinWith]
  · rw [joinWith_concat (fun hs => hp (h.path_eq_nil.2 hs)), ← h.1]
    simp [Item.qualified, hp]

theorem Spelled.isPath (h : i.Spelled segs) : IsPath i.qualified := by
  obtain ⟨-, hident, hmut⟩ := id h
  rw [h.qualified]
  cases segs with
  | nil => exact ⟨i.name, [], rfl, hident, fun e => hmut (congrArg some e)⟩
  | cons w ws => exact ⟨w, ws ++ [i.name], rfl, hident, fun e => hmut (congrArg some e)⟩

/-- A full path with several segments has a colon, no identifier has one. -/
theorem Spelled.qualified_ne (hp : i.path ≠ []) {w : Text} (hw : isIdent w = true) :
    w ≠ i.qualified := by
  rintro rfl
  refine colon_not_mem_of_isIdent hw ?_
  simp only [Item.qualified, List.isEmpty_iff, hp, if_false, List.mem_append]
  exact .inl (.inr (by decide))

theorem qualified_ne_word {w : Text} (hw : isIdent w = true)
    (halone : i.path = [] → i.name ≠ w) : i.qualified ≠ w := by
  by_cases hp : i.path = []
  · have hq : i.qualified = i.name := by simp [Item.qualified, hp]
    rw [hq]
    exact halone hp
  · exact fun e => Spelled.qualified_ne hp hw e.symm

/-- The full path determines the item, since names have no colons. -/
theorem qualified_inj (hi : isIdent i.name = true) (hj : isIdent j.name = true)
    (e : i.qualified = j.qualified) : i = j := by
  have hmk : i.name = j.name → i.path = j.path → i = j := fun hn hp => by
    cases i
    cases j
    exact Item.mk.injEq .. ▸ ⟨hn, hp⟩
  by_cases hp : i.path = [] <;> by_cases hq : j.path = []
  · exact hmk (by simpa [qualified, hp, hq] using e) (hp.trans hq.symm)
  · have hname : i.name = j.qualified := by simpa [qualified, hp] using e
    exact absurd hname (Spelled.qualified_ne hq hi)
  · have hname : j.name = i.qualified := by simpa [qualified, hq] using e.symm
    exact absurd hname (Spelled.qualified_ne hp hj)
  · simp only [qualified, List.isEmpty_iff, hp, hq, if_false] at e
    obtain ⟨hpath, hname⟩ := append_colons_inj (colon_not_mem_of_isIdent hi)
      (colon_not_mem_of_isIdent hj) e
    exact hmk hname hpath

/-- A short name is not a full path, unless the path is empty. -/
theorem name_eq_of_qualified_eq (hj : isIdent j.name = true) (e : i.qualified = j.name) :
    i.name = j.name := by
  by_cases hp : i.path = []
  · simpa [qualified, hp] using e
  · exact absurd e.symm (Spelled.qualified_ne hp hj)

/-- A full path stands for its item and, if it is a short name only, for all items of that name. -/
theorem answersTo_qualified_iff (hi : isIdent i.name = true) (hj : isIdent j.name = true) :
    j.answersTo i.qualified = true ↔ j = i ∨ i.path = [] ∧ j.name = i.name := by
  rw [answersTo, Bool.or_eq_true, beq_iff_eq, beq_iff_eq]
  by_cases hp : i.path = []
  · have hq : i.qualified = i.name := by simp [qualified, hp]
    rw [hq]
    constructor
    · rintro (hname | hname)
      · exact .inr ⟨hp, hname⟩
      · exact .inr ⟨hp, name_eq_of_qualified_eq hi hname⟩
    · rintro (rfl | ⟨-, hname⟩)
      · exact .inl rfl
      · exact .inl hname
  · constructor
    · rintro (hname | hq)
      · exact absurd hname (Spelled.qualified_ne hp hj)
      · exact .inl (qualified_inj hj hi hq)
    · rintro (rfl | ⟨hnil, -⟩)
      · exact .inr rfl
      · exact absurd hnil hp

end Item

/-- The path denotes a declared item, and is not a word of the language. -/
structure NameTable.Denotes (N : NameTable) (p : Text) (e : Declared) : Prop where
  ne_underscore : p ≠ "_"
  noWord : Ty.ofWord? p = none
  lookup : N.lookup p = .ok e

theorem Ty.ofWord?_eq_none {p : Text} (hn : ∀ k : NumKind, p ≠ k.name)
    (hp : ∀ k : PrimKind, isIdent k.name = true → p ≠ k.name) : Ty.ofWord? p = none := by
  have hnum : NumKind.all.find? (·.name == p) = none :=
    List.find?_eq_none.2 fun k _ => by simpa using (hn k).symm
  have hprim : [PrimKind.bool, .char, .str].find? (·.name == p) = none := by
    refine List.find?_eq_none.2 fun k hk => ?_
    have hk : isIdent k.name = true := by
      simp only [List.mem_cons, List.not_mem_nil, or_false] at hk
      rcases hk with rfl | rfl | rfl <;> rfl
    simpa using (hp k hk).symm
  rw [Ty.ofWord?, hnum, hprim]
  rfl

namespace NameTable
variable {N : NameTable} {e : Declared} {name : Text}

/-- A name that only one of the declared items answers to denotes it. -/
theorem lookup_eq_ok (hd : N.items.Nodup) (he : e ∈ N.entries)
    (ha : e.item.answersTo name = true)
    (honly : ∀ f ∈ N.entries, f.item.answersTo name = true → f = e) : N.lookup name = .ok e := by
  have hmem : e ∈ N.entries.filter (·.item.answersTo name) := List.mem_filter.2 ⟨he, ha⟩
  have hnodup : (N.entries.filter (·.item.answersTo name)).Nodup :=
    (List.Nodup.of_map _ hd).filter _
  have hone : N.entries.filter (·.item.answersTo name) = [e] := by
    by_contra hne
    rcases (hnodup.ne_singleton_iff e).1 hne with hnil | ⟨f, hf, hfe⟩
    · rw [hnil] at hmem
      cases hmem
    · exact hfe (honly f (List.mem_filter.1 hf).1 (List.mem_filter.1 hf).2)
  rw [lookup, hone]

/-- Items whose names are identifiers are found under their full paths. One without a path has to
have a short name of its own. -/
theorem lookup_qualified_of_alone (hd : N.items.Nodup)
    (hn : ∀ f ∈ N.entries, isIdent f.item.name = true) (he : e ∈ N.entries)
    (halone : e.item.path = [] → ∀ f ∈ N.entries, f.item.name = e.item.name → f.item = e.item) :
    N.lookup e.item.qualified = .ok e := by
  refine lookup_eq_ok hd he ((Item.answersTo_qualified_iff (hn e he) (hn e he)).2 (.inl rfl)) ?_
  intro f hf ha
  refine List.inj_on_of_nodup_map hd hf he ?_
  rcases (Item.answersTo_qualified_iff (hn e he) (hn f hf)).1 ha with hitem | ⟨hp, hname⟩
  · exact hitem
  · exact halone hp f hf hname

end NameTable

namespace NameTable.Legible
variable {N : NameTable} {e : Declared}

/-- The full path of a declared item denotes it. -/
theorem lookup (h : N.Legible) (he : e ∈ N.entries) : N.lookup e.item.qualified = .ok e := by
  refine lookup_qualified_of_alone h.distinct (fun f hf => ?_) he (h.alone e he)
  obtain ⟨segs, hs⟩ := h.spelled f hf
  exact hs.name

theorem denotes (h : N.Legible) (he : e ∈ N.entries) : N.Denotes e.item.qualified e where
  ne_underscore := Item.qualified_ne_word rfl fun hp => (h.noWord e he hp).1
  noWord := Ty.ofWord?_eq_none
    (fun k => Item.qualified_ne_word (by cases k <;> rfl) fun hp => (h.noWord e he hp).2.1 k)
    fun k hk => Item.qualified_ne_word hk fun hp => (h.noWord e he hp).2.2 k
  lookup := h.lookup he

end NameTable.Legible

/-! ## Writable types -/

namespace Ty

/-- The number of an inference variable. -/
def id? : Ty → Option UInt32
  | .infer _ i _ => some i
  | _ => none

/-- The numbers of the inference variables in a type, from left to right. -/
def ids (t : Ty) : List UInt32 := t.nodes.filterMap id?

def idsAll (ts : List Ty) : List UInt32 := (nodesAll ts).filterMap id?

/-- The inference variables are numbered `n`, `n + 1`, ... modulo 2^32 from left to right. -/
def NumberedFrom (n : UInt32) (t : Ty) : Prop :=
  t.ids = (List.range t.ids.length).map (n + UInt32.ofNat ·)

/-- Nothing of the type is lost in writing: it has no parameter and no opaque part, all its items
are declared and applied to as many types as they are declared for, and its inference variables are
shown as their kinds say. The tuple of no elements is shown as the unit type. -/
inductive Writable (N : NameTable) : Ty → Prop
  | num (k : NumKind) : Writable N (.num k)
  | prim (k : PrimKind) : Writable N (.prim k)
  | ref (m : Mutability) {t : Ty} (inner : Writable N t) : Writable N (.ref m t)
  | adt {e : Declared} {ts : List Ty} (declared : e ∈ N.entries) (arity : ts.length = e.arity)
      (args : ∀ t ∈ ts, Writable N t) : Writable N (.adt e.item ts)
  | tuple {ts : List Ty} (nonempty : ts ≠ []) (elems : ∀ t ∈ ts, Writable N t) :
      Writable N (.tuple ts)
  | slice {t : Ty} (elem : Writable N t) : Writable N (.slice t)
  | fresh (k : InferKind) (i : UInt32) : Writable N (.fresh k i)
  | unknown : Writable N .unknown

/-- The numbers count up from `n` to the one before `m`. -/
def CountUp : (n : UInt32) → List UInt32 → (m : UInt32) → Prop
  | n, [], m => n = m
  | n, i :: is, m => i = n ∧ CountUp (n + 1) is m

theorem countUp_append {is js : List UInt32} : ∀ {n m : UInt32},
    CountUp n (is ++ js) m ↔ ∃ k, CountUp n is k ∧ CountUp k js m := by
  induction is with
  | nil => simp [CountUp]
  | cons i is ih => simp [CountUp, ih, and_assoc]

theorem NumberedFrom.countUp {n : UInt32} {t : Ty} (h : t.NumberedFrom n) :
    ∃ m, CountUp n t.ids m := by
  rw [NumberedFrom] at h
  generalize t.ids = is at h
  induction is generalizing n with
  | nil => exact ⟨n, rfl⟩
  | cons i is ih =>
    rw [List.length_cons, List.range_succ_eq_map, List.map_cons, List.map_map, List.cons.injEq] at h
    obtain ⟨m, hm⟩ := ih (n := n + 1) (h.2.trans (List.map_congr_left fun k _ => by
      simp [UInt32.add_assoc, UInt32.add_comm 1]))
    exact ⟨m, by simpa using h.1, hm⟩

end Ty

/-! ## Steps of the reader -/

namespace Ty
variable {N : NameTable} {c d d' c' : Cursor} {b : UInt8} {u v p : Text} {n : UInt32} {k : Nat}
  {t : Ty} {ts : List Ty}

theorem read_ref {m : Mutability} (h : c.At (byte '&' :: v) n)
    (hm : (c.skipSpace.drop 1).mutability = (m, d)) (ht : read N k d = .ok (t, c')) :
    read N (k + 1) c = .ok (.ref m t, c') := by
  simp only [read, h.1, hm, ht]
  rfl

theorem read_never (h : c.At (byte '!' :: v) n) :
    read N (k + 1) c = .ok (.never, c.skipSpace.drop 1) := by
  simp only [read, h.1]
  rfl

theorem read_braced (h : c.At (0x7b :: v) n) (hb : c.skipSpace.braced? = some (t, c')) :
    read N (k + 1) c = .ok (t, c') := by
  simp only [read, h.1, hb]
  rfl

theorem read_slice (h : c.At (byte '[' :: v) n) (ht : read N k (c.skipSpace.drop 1) = .ok (t, d))
    (hc : d.eat "]" = some c') : read N (k + 1) c = .ok (.slice t, c') := by
  simp only [read, h.1, ht, bind, Except.bind, hc]
  rfl

theorem read_unit (h : c.At (byte '(' :: v) n) (hc : (c.skipSpace.drop 1).eat ")" = some c') :
    read N (k + 1) c = .ok (.unit, c') := by
  simp only [read, h.1, hc]
  rfl

theorem read_tuple {comma : Bool} (h : c.At (byte '(' :: v) n)
    (hc : (c.skipSpace.drop 1).eat ")" = none)
    (ht : readElems N k (c.skipSpace.drop 1) = .ok (ts, comma, c'))
    (hone : comma = true ∨ ts.length ≠ 1) : read N (k + 1) c = .ok (.tuple ts, c') := by
  simp only [read, h.1, hc, ht, bind, Except.bind]
  match ts, comma, hone with
  | [], _, _ | _ :: _ :: _, _, _ => rfl
  | [_], true, _ => rfl
  | [_], false, hone => simp at hone

/-- A type that starts with a letter is read as a path. -/
theorem read_of_ident (h : c.At (b :: v) n) (hb : isIdentStart b = true)
    (hp : c.skipSpace.path = .ok (p, d)) : read N (k + 1) c =
      if p == "_" then pure (d.fresh .general)
      else match ofWord? p with
        | some t => pure (t, d)
        | none =>
          match N.lookup p with
          | .error x => .error ⟨.name x, c.skipSpace.offset⟩
          | .ok e => (do
            let (ts, c') ← match d.eat "<" with
              | some c => readArgs N k c
              | none => .ok ([], d)
            if ts.length = e.arity then return (.adt e.item ts, c')
            else .error ⟨.arity p e.arity ts.length, c.skipSpace.offset⟩) := by
  have hne : ∀ x : UInt8, isIdentStart x = false → (b == x) = false := fun x hx =>
    beq_eq_false_iff_ne.2 fun e => by rw [e, hx] at hb; cases hb
  -- simplified on its own, since the right side of the statement is meant to stay as it is
  have hread := read.eq_def N (k + 1) c
  simp only [h.1, hne 0 rfl, hne (byte '&') rfl, hne (byte '!') rfl, hne 0x7b rfl,
    hne (byte '[') rfl, hne (byte '(') rfl, hb, hp, Bool.false_eq_true, if_false, if_true] at hread
  exact hread

theorem read_adt_bare {e : Declared} (h : c.At (b :: v) n) (hb : isIdentStart b = true)
    (hp : c.skipSpace.path = .ok (p, d)) (he : N.Denotes p e) (hc : d.eat "<" = none)
    (harity : e.arity = 0) : read N (k + 1) c = .ok (.adt e.item [], d) := by
  rw [read_of_ident h hb hp, if_neg (by simpa using he.ne_underscore), he.noWord, he.lookup]
  simp only [hc, bind, Except.bind, List.length_nil, harity, if_true]
  rfl

theorem read_adt_args {e : Declared} (h : c.At (b :: v) n) (hb : isIdentStart b = true)
    (hp : c.skipSpace.path = .ok (p, d)) (he : N.Denotes p e) (hc : d.eat "<" = some d')
    (hts : readArgs N k d' = .ok (ts, c')) (harity : ts.length = e.arity) :
    read N (k + 1) c = .ok (.adt e.item ts, c') := by
  rw [read_of_ident h hb hp, if_neg (by simpa using he.ne_underscore), he.noWord, he.lookup]
  simp only [hc, bind, Except.bind, hts, harity, if_true]
  rfl

theorem readElems_trailing (ht : read N k c = .ok (t, d)) (hc : d.eat "," = some d')
    (hp : d'.eat ")" = some c') : readElems N (k + 1) c = .ok ([t], true, c') := by
  simp only [readElems, ht, bind, Except.bind, hc, hp]
  rfl

theorem readElems_last (ht : read N k c = .ok (t, d)) (hc : d.eat "," = none)
    (hp : d.eat ")" = some c') : readElems N (k + 1) c = .ok ([t], false, c') := by
  simp only [readElems, ht, bind, Except.bind, hc, hp]
  rfl

theorem readElems_more {comma : Bool} (ht : read N k c = .ok (t, d)) (hc : d.eat "," = some d')
    (hp : d'.eat ")" = none) (hts : readElems N k d' = .ok (ts, comma, c')) :
    readElems N (k + 1) c = .ok (t :: ts, comma, c') := by
  simp only [readElems, ht, bind, Except.bind, hc, hp, hts]
  rfl

theorem readArgs_last (ht : read N k c = .ok (t, d)) (hc : d.eat ">" = some c') :
    readArgs N (k + 1) c = .ok ([t], c') := by
  simp only [readArgs, ht, bind, Except.bind, hc]
  rfl

theorem readArgs_more (ht : read N k c = .ok (t, d)) (hc : d.eat ">" = none)
    (hd : d.eat "," = some d') (hts : readArgs N k d' = .ok (ts, c')) :
    readArgs N (k + 1) c = .ok (t :: ts, c') := by
  simp only [readArgs, ht, bind, Except.bind, hc, hd, hts]
  rfl

end Ty

/-! ## How a written type starts -/

namespace Ty
variable {N : NameTable} {t : Ty} {ts : List Ty} {u : Text}

/-- A type cannot go on here. -/
def endsType : Text → Bool
  | [] => true
  | b :: _ => b == byte ',' || b == byte '>' || b == byte ']' || b == byte ')'

theorem endsPath_of_endsType (h : endsType u = true) : endsPath u = true := by
  cases u with
  | nil => rfl
  | cons b u =>
    simp only [endsType, Bool.or_eq_true, beq_iff_eq] at h
    rcases h with ((rfl | rfl) | rfl) | rfl <;> rfl

theorem eat_bracket_of_endsType {c : Cursor} {n : UInt32} (hc : c.Left u n)
    (h : endsType u = true) : c.eat "<" = none := by
  refine (hc.at (tight_of_endsPath (endsPath_of_endsType h))).eat_eq_none ?_
  cases u with
  | nil => rfl
  | cons b u =>
    simp only [endsType, Bool.or_eq_true, beq_iff_eq] at h
    rcases h with ((rfl | rfl) | rfl) | rfl <;> rfl

theorem isPath_numKind (k : NumKind) : IsPath k.name :=
  isPath_of_isIdent (by cases k <;> rfl) (by cases k <;> decide)

/-- A declared item is written in full. -/
theorem shown_items {e : Declared} (he : e ∈ N.entries) :
    e.item.shown N.items = e.item.qualified := by
  have hmem : N.items.contains e.item = true :=
    List.contains_iff_mem.2 (List.mem_map_of_mem he)
  rw [Item.shown, hmem, if_pos rfl]

theorem Writable.startsType (hN : N.Legible) (h : t.Writable N) (hu : endsType u = true) :
    StartsType (t.renderOnto N.items u) := by
  have hpath := endsPath_of_endsType hu
  cases h with
  | num k => exact (isPath_numKind k).startsType hpath
  | prim k =>
    cases k with
    | bool | char | str => exact (isPath_of_isIdent rfl (by decide)).startsType hpath
    | unit | never => exact startsType_cons rfl (by decide) (by decide)
  | ref m => cases m <;> exact startsType_cons rfl (by decide) (by decide)
  | @adt e ts declared =>
    obtain ⟨segs, hs⟩ := hN.spelled e declared
    cases ts with
    | nil =>
      rw [renderOnto, shown_items declared]
      exact hs.isPath.startsType hpath
    | cons t ts =>
      rw [renderOnto, shown_items declared]
      exact hs.isPath.startsType rfl
  | @tuple ts =>
    match ts with
    | [] | [_] | _ :: _ :: _ => exact startsType_cons rfl (by decide) (by decide)
  | slice => exact startsType_cons rfl (by decide) (by decide)
  | fresh k i =>
    cases k with
    | int | float => exact startsType_cons rfl (by decide) (by decide)
    | general => exact (isPath_of_isIdent (w := "_") rfl (by decide)).startsType hpath
  | unknown => exact startsType_cons rfl (by decide) (by decide)

theorem startsType_list (hN : N.Legible) (h : t.Writable N) (hu : endsType u = true) :
    StartsType (renderListOnto N.items (t :: ts) u) := by
  cases ts with
  | nil => exact h.startsType hN hu
  | cons v ts => exact h.startsType hN rfl

theorem Writable.length_lt (hN : N.Legible) (h : t.Writable N) (u : Text) :
    u.length < (t.renderOnto N.items u).length := by
  have hne : (t.render N.items).length ≠ 0 := fun he =>
    (h.startsType hN (u := []) rfl).ne_nil (List.length_eq_zero_iff.1 he)
  rw [renderOnto_eq, List.length_append]
  omega

end Ty

/-! ## Reading what was written -/

/-- Where `t` is written out and followed by the end of a type, the reader takes it off. -/
def Reads (N : NameTable) (t : Ty) : Prop :=
  ∀ ⦃k : Nat⦄ ⦃c : Cursor⦄ ⦃u : Text⦄ ⦃n m : UInt32⦄, c.At (t.renderOnto N.items u) n →
    Ty.endsType u = true → Ty.CountUp n t.ids m → 2 * (t.renderOnto N.items u).length ≤ k →
    ∃ c', Ty.read N k c = .ok (t, c') ∧ c'.Left u m

namespace Ty
variable {N : NameTable} {t : Ty} {ts : List Ty} {u : Text} {c : Cursor} {n m : UInt32} {k : Nat}

theorem idsAll_cons : idsAll (t :: ts) = t.ids ++ idsAll ts := by
  simp [idsAll, nodesAll, ids]

theorem ids_ref {i : Mutability} : (Ty.ref i t).ids = t.ids := List.filterMap_cons_none rfl

theorem ids_slice : t.slice.ids = t.ids := List.filterMap_cons_none rfl

theorem ids_tuple : (Ty.tuple ts).ids = idsAll ts := List.filterMap_cons_none rfl

theorem ids_adt {i : Item} : (Ty.adt i ts).ids = idsAll ts := List.filterMap_cons_none rfl

/-- A written type is not empty, so that the reader need not be without a bound. -/
theorem reads_of_succ (hN : N.Legible) (ht : t.Writable N)
    (h : ∀ {k : Nat} {c : Cursor} {u : Text} {n m : UInt32}, c.At (t.renderOnto N.items u) n →
      endsType u = true → CountUp n t.ids m → 2 * (t.renderOnto N.items u).length ≤ k + 1 →
      ∃ c', read N (k + 1) c = .ok (t, c') ∧ c'.Left u m) : Reads N t := by
  intro k c u n m hc hu hid hk
  have hlt := ht.length_lt hN u
  obtain ⟨k, rfl⟩ : ∃ j, k = j + 1 := ⟨k - 1, by omega⟩
  exact h hc hu hid hk

section
variable (hN : N.Legible)
include hN

/-! ### Types without parts -/

/-- A type that is written as a word of the language. -/
theorem reads_of_word {w : Text} (ht : t.Writable N) (hw : isIdent w = true) (hm : w ≠ "mut")
    (hne : w ≠ "_") (hof : ofWord? w = some t) (hrender : ∀ u, t.renderOnto N.items u = w ++ u)
    (hids : t.ids = []) : Reads N t := by
  refine reads_of_succ hN ht fun {k c u n m} h hu hid _ => ?_
  rw [hrender] at h
  rw [hids] at hid
  obtain rfl : n = m := hid
  obtain ⟨c', hp, h'⟩ := h.skip.path (isPath_of_isIdent hw hm) (endsPath_of_endsType hu)
  obtain ⟨b, v, rfl, hb⟩ := (isPath_of_isIdent hw hm).eq_cons
  refine ⟨c', ?_, h'⟩
  rw [read_of_ident h hb hp, if_neg (by simpa using hne), hof]
  rfl

theorem reads_num (k : NumKind) : Reads N (.num k) :=
  reads_of_word hN (.num k) (by cases k <;> rfl) (by cases k <;> decide) (by cases k <;> decide)
    (by cases k <;> rfl) (fun _ => rfl) rfl

theorem reads_prim (p : PrimKind) : Reads N (.prim p) := by
  cases p with
  | bool | char | str =>
    exact reads_of_word hN (.prim _) rfl (by decide) (by decide) rfl (fun _ => rfl) rfl
  | unit =>
    refine reads_of_succ hN (.prim _) fun h _ hid _ => ?_
    obtain rfl := hid
    obtain ⟨c', hc, h'⟩ := ((At.drop (t := [byte '(']) h).at rfl).eat (t := ")")
    exact ⟨c', read_unit h hc, h'⟩
  | never =>
    refine reads_of_succ hN (.prim _) fun h _ hid _ => ?_
    obtain rfl := hid
    exact ⟨_, read_never h, At.drop (t := [byte '!']) h⟩

theorem reads_unknown : Reads N .unknown := by
  refine reads_of_succ hN .unknown fun h _ hid _ => ?_
  obtain rfl := hid
  obtain ⟨c', hb, h'⟩ := h.skip.braced_unknown
  exact ⟨c', read_braced h hb, h'⟩

theorem reads_fresh (i : InferKind) (j : UInt32) : Reads N (.fresh i j) := by
  refine reads_of_succ hN (.fresh i j) fun {k c u n m} h hu hid _ => ?_
  obtain ⟨rfl, rfl⟩ : j = n ∧ n + 1 = m := hid
  -- The reader gives the variable the number that comes next.
  have hfresh : ∀ {c' : Cursor}, c'.Left u j →
      c'.fresh i = (.fresh i j, (c'.fresh i).2) ∧ (c'.fresh i).2.Left u (j + 1) := fun h' =>
    ⟨by rw [← h'.2]; rfl, h'.1, by rw [← h'.2]; rfl⟩
  cases i with
  | int =>
    obtain ⟨c', hb, h'⟩ := h.skip.braced_int
    exact ⟨_, read_braced h (hb.trans (congrArg some (hfresh h').1)), (hfresh h').2⟩
  | float =>
    obtain ⟨c', hb, h'⟩ := h.skip.braced_float
    exact ⟨_, read_braced h (hb.trans (congrArg some (hfresh h').1)), (hfresh h').2⟩
  | general =>
    obtain ⟨c', hp, h'⟩ := At.path (p := "_") h.skip (isPath_of_isIdent rfl (by decide))
      (endsPath_of_endsType hu)
    refine ⟨_, ?_, (hfresh h').2⟩
    rw [read_of_ident h rfl hp, if_pos (beq_self_eq_true _), (hfresh h').1]
    rfl

/-! ### Types with one part -/

theorem reads_ref (i : Mutability) (ht : t.Writable N) (ih : Reads N t) : Reads N (.ref i t) := by
  refine reads_of_succ hN (.ref i ht) fun {k c u n m} h hu hid hk => ?_
  rw [ids_ref] at hid
  have hstart := ht.startsType hN hu
  cases i with
  | immutable =>
    have hk : 2 * ((t.renderOnto N.items u).length + 1) ≤ k + 1 := hk
    have hat := (At.drop (t := [byte '&']) h).at hstart.tight
    obtain ⟨c', hc, h'⟩ := ih hat hu hid (k := k) (by omega)
    exact ⟨c', read_ref h (hat.mutability_immutable hstart.notMut) hc, h'⟩
  | mutable =>
    have hk : 2 * ((t.renderOnto N.items u).length + 5) ≤ k + 1 := hk
    obtain ⟨d, hm, hd⟩ := ((At.drop (t := [byte '&']) h).at rfl).mutability_mutable
    obtain ⟨c', hc, h'⟩ := ih (hd.at_blank hstart.tight) hu hid (k := k) (by omega)
    exact ⟨c', read_ref h hm hc, h'⟩

theorem reads_slice (ht : t.Writable N) (ih : Reads N t) : Reads N (.slice t) := by
  refine reads_of_succ hN (.slice ht) fun {k c u n m} h hu hid hk => ?_
  rw [ids_slice] at hid
  have hk : 2 * ((t.renderOnto N.items ("]" ++ u)).length + 1) ≤ k + 1 := hk
  have hat := (At.drop (t := [byte '[']) h).at (ht.startsType hN (u := "]" ++ u) rfl).tight
  obtain ⟨d, hd, h'⟩ := ih hat rfl hid (k := k) (by omega)
  obtain ⟨c', hc, h'⟩ := (h'.at (tight_cons rfl)).eat
  exact ⟨c', read_slice h hd hc, h'⟩

theorem reads_tuple_one (ht : t.Writable N) (ih : Reads N t) : Reads N (.tuple [t]) := by
  refine reads_of_succ hN (.tuple (List.cons_ne_nil t []) (by simpa using ht))
    fun {k c u n m} h hu hid hk => ?_
  rw [ids_tuple, idsAll_cons, idsAll, nodesAll, List.filterMap_nil, List.append_nil] at hid
  have hk : 2 * ((t.renderOnto N.items (",)" ++ u)).length + 1) ≤ k + 1 := hk
  have hstart := ht.startsType hN (u := ",)" ++ u) rfl
  have hat := (At.drop (t := [byte '(']) h).at hstart.tight
  have hlt := ht.length_lt hN (",)" ++ u)
  obtain ⟨k, rfl⟩ : ∃ j, k = j + 1 := ⟨k - 1, by omega⟩
  obtain ⟨d, hd, h₁⟩ := ih hat rfl hid (k := k) (by omega)
  obtain ⟨d', hc, h₂⟩ := At.eat (t := ",") (u := ")" ++ u) (h₁.at rfl)
  obtain ⟨c', hp, h₃⟩ := (h₂.at rfl).eat
  exact ⟨c', read_tuple h (hat.eat_eq_none hstart.notClosing) (readElems_trailing hd hc hp)
    (.inl rfl), h₃⟩

/-! ### Types with several parts -/

/-- Elements of a tuple are read up to the closing parenthesis. -/
theorem reads_elems : ∀ {ts : List Ty} {k : Nat} {c : Cursor} {n m : UInt32} {u : Text},
    ts ≠ [] → (∀ t ∈ ts, t.Writable N ∧ Reads N t) →
    c.At (renderListOnto N.items ts (")" ++ u)) n → CountUp n (idsAll ts) m →
    2 * (renderListOnto N.items ts (")" ++ u)).length + 1 ≤ k →
    ∃ c', readElems N k c = .ok (ts, false, c') ∧ c'.Left u m
  | [], _, _, _, _, _, hne, _, _, _, _ => absurd rfl hne
  | _ :: _, 0, _, _, _, _, _, _, _, _, hk => nomatch hk
  | [t], k + 1, c, n, m, u, _, hts, h, hid, hk => by
    rw [idsAll_cons, idsAll, nodesAll, List.filterMap_nil, List.append_nil] at hid
    rw [renderListOnto] at h hk
    obtain ⟨d, hd, h₁⟩ := (hts t List.mem_cons_self).2 h rfl hid (k := k) (by omega)
    have hat := h₁.at (tight_cons rfl)
    obtain ⟨c', hp, h₂⟩ := hat.eat
    exact ⟨c', readElems_last hd (hat.eat_eq_none rfl) hp, h₂⟩
  | t :: v :: ts, k + 1, c, n, m, u, _, hts, h, hid, hk => by
    rw [idsAll_cons] at hid
    obtain ⟨i, hi, hid⟩ := countUp_append.1 hid
    rw [renderListOnto] at h hk
    obtain ⟨ht, ih⟩ := hts t List.mem_cons_self
    obtain ⟨d, hd, h₁⟩ := ih h rfl hi (k := k) (by omega)
    have hstart : StartsType (renderListOnto N.items (v :: ts) (")" ++ u)) :=
      startsType_list hN (hts v (by simp)).1 rfl
    obtain ⟨d', hc, h₂⟩ := At.eat (t := ",")
      (u := 32 :: renderListOnto N.items (v :: ts) (")" ++ u)) (h₁.at rfl)
    have hat := h₂.at_blank hstart.tight
    have hlt := ht.length_lt hN (", " ++ renderListOnto N.items (v :: ts) (")" ++ u))
    have hcomma : (", " ++ renderListOnto N.items (v :: ts) (")" ++ u)).length =
      (renderListOnto N.items (v :: ts) (")" ++ u)).length + 2 := rfl
    obtain ⟨c', hm, h₃⟩ := reads_elems (List.cons_ne_nil v ts)
      (fun t ht => hts t (List.mem_cons_of_mem _ ht)) hat hid (k := k) (by omega)
    exact ⟨c', readElems_more hd hc (hat.eat_eq_none hstart.notClosing) hm, h₃⟩

/-- Type arguments are read up to the closing bracket. -/
theorem reads_args : ∀ {ts : List Ty} {k : Nat} {c : Cursor} {n m : UInt32} {u : Text},
    ts ≠ [] → (∀ t ∈ ts, t.Writable N ∧ Reads N t) →
    c.At (renderListOnto N.items ts (">" ++ u)) n → CountUp n (idsAll ts) m →
    2 * (renderListOnto N.items ts (">" ++ u)).length + 1 ≤ k →
    ∃ c', readArgs N k c = .ok (ts, c') ∧ c'.Left u m
  | [], _, _, _, _, _, hne, _, _, _, _ => absurd rfl hne
  | _ :: _, 0, _, _, _, _, _, _, _, _, hk => nomatch hk
  | [t], k + 1, c, n, m, u, _, hts, h, hid, hk => by
    rw [idsAll_cons, idsAll, nodesAll, List.filterMap_nil, List.append_nil] at hid
    rw [renderListOnto] at h hk
    obtain ⟨d, hd, h₁⟩ := (hts t List.mem_cons_self).2 h rfl hid (k := k) (by omega)
    obtain ⟨c', hc, h₂⟩ := (h₁.at (tight_cons rfl)).eat
    exact ⟨c', readArgs_last hd hc, h₂⟩
  | t :: v :: ts, k + 1, c, n, m, u, _, hts, h, hid, hk => by
    rw [idsAll_cons] at hid
    obtain ⟨i, hi, hid⟩ := countUp_append.1 hid
    rw [renderListOnto] at h hk
    obtain ⟨ht, ih⟩ := hts t List.mem_cons_self
    obtain ⟨d, hd, h₁⟩ := ih h rfl hi (k := k) (by omega)
    have hstart : StartsType (renderListOnto N.items (v :: ts) (">" ++ u)) :=
      startsType_list hN (hts v (by simp)).1 rfl
    have hat := h₁.at (tight_cons rfl)
    obtain ⟨d', hc, h₂⟩ := At.eat (t := ",")
      (u := 32 :: renderListOnto N.items (v :: ts) (">" ++ u)) hat
    have hlt := ht.length_lt hN (", " ++ renderListOnto N.items (v :: ts) (">" ++ u))
    have hcomma : (", " ++ renderListOnto N.items (v :: ts) (">" ++ u)).length =
      (renderListOnto N.items (v :: ts) (">" ++ u)).length + 2 := rfl
    obtain ⟨c', hm, h₃⟩ := reads_args (List.cons_ne_nil v ts)
      (fun t ht => hts t (List.mem_cons_of_mem _ ht)) (h₂.at_blank hstart.tight) hid (k := k)
      (by omega)
    exact ⟨c', readArgs_more hd (hat.eat_eq_none rfl) hc hm, h₃⟩

theorem reads_tuple (hne : ts ≠ []) (hts : ∀ t ∈ ts, t.Writable N ∧ Reads N t) :
    Reads N (.tuple ts) := by
  match ts, hne, hts with
  | [t], _, hts =>
    obtain ⟨ht, ih⟩ := hts t List.mem_cons_self
    exact reads_tuple_one hN ht ih
  | t :: v :: ts, hne, hts =>
    refine reads_of_succ hN (.tuple hne fun t ht => (hts t ht).1) fun {k c u n m} h hu hid hk => ?_
    rw [ids_tuple] at hid
    have hk : 2 * ((renderListOnto N.items (t :: v :: ts) (")" ++ u)).length + 1) ≤ k + 1 := hk
    have hstart : StartsType (renderListOnto N.items (t :: v :: ts) (")" ++ u)) :=
      startsType_list hN (hts t List.mem_cons_self).1 rfl
    have hat := (At.drop (t := [byte '(']) h).at hstart.tight
    obtain ⟨c', hc, h'⟩ := reads_elems hN hne hts hat hid (k := k) (by omega)
    exact ⟨c', read_tuple h (hat.eat_eq_none hstart.notClosing) hc (.inr (by simp)), h'⟩

theorem reads_adt {e : Declared} (declared : e ∈ N.entries) (arity : ts.length = e.arity)
    (hts : ∀ t ∈ ts, t.Writable N ∧ Reads N t) : Reads N (.adt e.item ts) := by
  refine reads_of_succ hN (.adt declared arity fun t ht => (hts t ht).1)
    fun {k c u n m} h hu hid hk => ?_
  rw [ids_adt] at hid
  obtain ⟨segs, hs⟩ := hN.spelled e declared
  obtain ⟨b, v, hbv, hb⟩ := hs.isPath.eq_cons
  have he := hN.denotes declared
  cases ts with
  | nil =>
    obtain rfl : n = m := hid
    rw [renderOnto, shown_items declared] at h
    obtain ⟨d, hp, h'⟩ := h.skip.path hs.isPath (endsPath_of_endsType hu)
    rw [hbv] at h
    exact ⟨d, read_adt_bare h hb hp he (eat_bracket_of_endsType h' hu) arity.symm, h'⟩
  | cons t ts =>
    rw [renderOnto, shown_items declared, List.length_append] at hk
    rw [renderOnto, shown_items declared] at h
    obtain ⟨d, hp, h₁⟩ := h.skip.path hs.isPath rfl
    obtain ⟨d', hc, h₂⟩ := (h₁.at (tight_cons rfl)).eat
    have hstart : StartsType (renderListOnto N.items (t :: ts) (">" ++ u)) :=
      startsType_list hN (hts t List.mem_cons_self).1 rfl
    have hbracket : ("<" ++ renderListOnto N.items (t :: ts) (">" ++ u)).length =
      (renderListOnto N.items (t :: ts) (">" ++ u)).length + 1 := rfl
    have hpos : 0 < e.item.qualified.length := by rw [hbv]; exact Nat.succ_pos _
    obtain ⟨c', hm, h'⟩ := reads_args hN (List.cons_ne_nil t ts) hts (h₂.at hstart.tight) hid
      (k := k) (by omega)
    rw [hbv] at h
    exact ⟨c', read_adt_args h hb hp he hc hm arity, h'⟩

end

/-! ### All types -/

theorem Writable.reads (hN : N.Legible) (h : t.Writable N) : Reads N t := by
  induction h with
  | num k => exact reads_num hN k
  | prim k => exact reads_prim hN k
  | ref i inner ih => exact reads_ref hN i inner ih
  | adt declared arity args ih =>
    exact reads_adt hN declared arity fun t ht => ⟨args t ht, ih t ht⟩
  | tuple nonempty elems ih => exact reads_tuple hN nonempty fun t ht => ⟨elems t ht, ih t ht⟩
  | slice elem ih => exact reads_slice hN elem ih
  | fresh i j => exact reads_fresh hN i j
  | unknown => exact reads_unknown hN

/-- A type that is written out with all items in full is read back, if its inference variables are
numbered from the first number that the reader gives. -/
theorem parse_render (hN : N.Legible) (ht : t.Writable N) (hid : t.NumberedFrom n) :
    parse N (t.render N.items) n = .ok t := by
  obtain ⟨m, hm⟩ := hid.countUp
  have hstart := ht.startsType hN (u := []) rfl
  have hat : At ⟨t.render N.items, 0, n⟩ (t.render N.items) n := Left.at ⟨rfl, rfl⟩ hstart.tight
  obtain ⟨c', hc, h'⟩ : ∃ c', read N (2 * (t.render N.items).length + 2)
      ⟨t.render N.items, 0, n⟩ = .ok (t, c') ∧ c'.Left [] m :=
    ht.reads hN hat rfl hm (Nat.le_add_right _ 2)
  have hrest : c'.skipSpace.rest = [] := (h'.at tight_nil).1
  simp only [parse, hc, bind, Except.bind, hrest]
  rfl

end Ty

namespace Sample

/-- An item with a path and two arguments, and one without either. -/
def names : NameTable := ⟨[⟨⟨[87], [109]⟩, 2⟩, ⟨⟨[86], []⟩, 0⟩]⟩

theorem legible_names : names.Legible where
  distinct := by decide
  spelled e he := by
    simp only [names, List.mem_cons, List.not_mem_nil, or_false] at he
    rcases he with rfl | rfl
    · exact ⟨[[109]], by decide⟩
    · exact ⟨[], by decide⟩
  alone := by decide
  noWord e he _ := by
    simp only [names, List.mem_cons, List.not_mem_nil, or_false] at he
    rcases he with rfl | rfl <;>
      exact ⟨by decide, fun k => by cases k <;> decide, fun k => by cases k <;> decide⟩

/-- Its second inference variable has the number after the greatest one. -/
def written : Ty :=
  .ref .mutable (.tuple [.adt ⟨[87], [109]⟩ [.fresh .int 0xffffffff, .fresh .general 0],
    .slice (.adt ⟨[86], []⟩ [])])

theorem writable_written : written.Writable names := by
  have hV : Ty.Writable names (.adt ⟨[86], []⟩ []) :=
    .adt (e := ⟨⟨[86], []⟩, 0⟩) (by simp [names]) rfl (by simp)
  have hW : Ty.Writable names (.adt ⟨[87], [109]⟩ [.fresh .int 0xffffffff, .fresh .general 0]) :=
    .adt (e := ⟨⟨[87], [109]⟩, 2⟩) (by simp [names]) rfl (by simp [Ty.Writable.fresh])
  exact .ref _ (.tuple (List.cons_ne_nil _ _) (by simp [hW, hV, Ty.Writable.slice]))

end Sample

/-- Items with and without arguments are read back, as are numbers that start again. -/
theorem Ty.parse_render_written :
    parse Sample.names (Sample.written.render Sample.names.items) 0xffffffff =
      .ok Sample.written :=
  parse_render Sample.legible_names Sample.writable_written (by rfl)

end Mismatch
