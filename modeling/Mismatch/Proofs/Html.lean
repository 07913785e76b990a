import Mismatch.Annotation
import Mismatch.Proofs.Lookup
import Mismatch.Proofs.Words

/-!
# What a description can show as HTML

Escaped text is read back by putting the characters in the place of their entities
(`Html.unescape_escape`), and nothing in it can be taken for markup (`Html.escaped_escape`). So the
first `<` behind the header is that of the line break or, if there is a code, that of its link, and
header, code and description can be told from the whole (`Annotation.html_unforgeable`).
-/

namespace Mismatch

namespace Text.Html

variable {t u v w e : Text} {b c : UInt8}

/-! ## Escaped text -/

/-- The text behind its first `skip` bytes, with the characters in the place of their entities. -/
def unescapeFrom : (skip : Nat) → Text → Text
  | _, [] => []
  | skip + 1, _ :: t => unescapeFrom skip t
  | 0, b :: t =>
    match entities.find? fun e => e.2.isPrefixOf (b :: t) with
    | some (c, e) => c :: unescapeFrom (e.length - 1) t
    | none => b :: unescapeFrom 0 t

/-- The text with the characters in the place of their entities, read from left to right. -/
def unescape (t : Text) : Text := unescapeFrom 0 t

/-- The characters of markup but for the ampersand. The one with the code 0x27 is the apostrophe. -/
def markup : Text := [byte '<', byte '>', byte '"', 0x27]

/-- The text has none of these characters, and its ampersands begin entities. -/
structure Escaped (t : Text) : Prop where
  noMarkup : ∀ b ∈ markup, b ∉ t
  entity : ∀ v, byte '&' :: v <:+ t → ∃ p ∈ entities, p.2 <+: byte '&' :: v

theorem exists_eq_cons_of_mem (h : (c, e) ∈ entities) :
    ∃ w, e = byte '&' :: w ∧ byte '&' ∉ w := by
  have hall : ∀ p ∈ entities, p.2 = byte '&' :: p.2.tail ∧ byte '&' ∉ p.2.tail := by decide
  exact ⟨_, hall _ h⟩

theorem escapeByte_cases (b : UInt8) :
    (b, escapeByte b) ∈ entities ∨ b ∉ entities.map Prod.fst ∧ escapeByte b = [b] :=
  lookup_getD_cases entities b [b]

theorem escape_cons (b : UInt8) (t : Text) : escape (b :: t) = escapeByte b ++ escape t :=
  List.flatMap_cons

theorem unescape_entity (h : (c, e) ∈ entities) (t : Text) :
    unescape (e ++ t) = c :: unescape t := by
  simp only [entities, List.mem_cons, Prod.mk.injEq, List.not_mem_nil, or_false] at h
  rcases h with ⟨rfl, rfl⟩ | ⟨rfl, rfl⟩ | ⟨rfl, rfl⟩ | ⟨rfl, rfl⟩ | ⟨rfl, rfl⟩ <;> rfl

theorem unescape_cons (h : b ≠ byte '&') (t : Text) : unescape (b :: t) = b :: unescape t := by
  have hnone : (entities.find? fun e => e.2.isPrefixOf (b :: t)) = none := by
    refine List.find?_eq_none.2 fun p hp hprefix => ?_
    obtain ⟨w, hw, -⟩ := exists_eq_cons_of_mem (c := p.1) (e := p.2) hp
    rw [hw, List.isPrefixOf_cons_cons, Bool.and_eq_true, beq_iff_eq] at hprefix
    exact h hprefix.1.symm
  rw [unescape, unescapeFrom, hnone]
  rfl

theorem unescape_escape (t : Text) : unescape (escape t) = t := by
  induction t with
  | nil => rfl
  | cons b t ih =>
    rw [escape_cons]
    rcases escapeByte_cases b with h | ⟨h, he⟩
    · rw [unescape_entity h, ih]
    · have hb : b ≠ byte '&' := fun hb => h (hb ▸ List.mem_cons_self)
      rw [he, List.singleton_append, unescape_cons hb, ih]

theorem escape_injective (h : escape t = escape u) : t = u := by
  rw [← unescape_escape t, h, unescape_escape]

theorem not_mem_escape (h : b ∈ markup) (t : Text) : b ∉ escape t := by
  intro hb
  obtain ⟨a, -, hb⟩ := List.mem_flatMap.1 hb
  have hspecial : markup ⊆ entities.map Prod.fst := by decide
  have hclean : (entities.flatMap Prod.snd).filter (· ∈ markup) = [] := by decide
  rcases escapeByte_cases a with ha | ⟨ha, he⟩
  · exact List.filter_eq_nil_iff.1 hclean b (List.mem_flatMap.2 ⟨_, ha, hb⟩) (decide_eq_true h)
  · rw [he, List.mem_singleton] at hb
    exact ha (hb ▸ hspecial h)

theorem open_not_mem_escape (t : Text) : byte '<' ∉ escape t := not_mem_escape (by decide) t

theorem entity_of_escapeByte_eq (h : escapeByte b = u ++ byte '&' :: v) :
    u = [] ∧ (b, escapeByte b) ∈ entities := by
  rcases escapeByte_cases b with hb | ⟨hb, he⟩
  · -- The first byte of an entity is its only ampersand, so nothing stands in front of it.
    obtain ⟨w, hw, hno⟩ := exists_eq_cons_of_mem hb
    refine ⟨?_, hb⟩
    rw [hw] at h
    cases u with
    | nil => rfl
    | cons a u =>
      rw [List.cons_append, List.cons_eq_cons] at h
      exact absurd (h.2 ▸ List.mem_append_right u List.mem_cons_self) hno
  · rw [he, List.singleton_eq_append_iff] at h
    rcases h with ⟨-, h⟩ | ⟨-, h⟩
    · exact absurd ((List.cons_eq_cons.1 h).1 ▸ List.mem_cons_self) hb
    · cases h

theorem entity_of_suffix_escape (h : byte '&' :: v <:+ escape t) :
    ∃ p ∈ entities, p.2 <+: byte '&' :: v := by
  induction t with
  | nil => cases List.suffix_nil.1 h
  | cons b t ih =>
    obtain ⟨u, h⟩ := h
    rw [escape_cons] at h
    -- The ampersand belongs to what is written for `b`, or it stands behind that.
    rcases List.append_eq_append_iff.1 h with ⟨w, hb, h⟩ | ⟨w, -, h⟩
    · cases w with
      | nil => exact ih ⟨[], h⟩
      | cons a w =>
        rw [List.cons_append, List.cons_eq_cons] at h
        obtain ⟨rfl, rfl⟩ := h
        obtain ⟨rfl, he⟩ := entity_of_escapeByte_eq hb
        exact ⟨_, he, escape t, by rw [hb]; rfl⟩
    · exact ih ⟨w, h.symm⟩

theorem escaped_escape (t : Text) : Escaped (escape t) :=
  ⟨fun _ h => not_mem_escape h t, fun _ => entity_of_suffix_escape⟩

/-! ## Tags -/

/-- The tag with this between its angle brackets. -/
def tag (w : Text) : Text := byte '<' :: (w ++ [byte '>'])

/-- The tags of a text, of which `open?` has been read if it begins within a tag. A tag that is not
closed goes to the end of the text. -/
def tagsFrom : (open? : Option Text) → Text → List Text
  | none, [] => []
  | some w, [] => [w]
  | none, b :: t => if b == byte '<' then tagsFrom (some [b]) t else tagsFrom none t
  | some w, b :: t =>
    if b == byte '>' then (w ++ [b]) :: tagsFrom none t else tagsFrom (some (w ++ [b])) t

/-- The tags of a text: each goes from a `<` to the next `>`. -/
def tags (t : Text) : List Text := tagsFrom none t

theorem tags_append (h : byte '<' ∉ t) (u : Text) : tags (t ++ u) = tags u := by
  induction t with
  | nil => rfl
  | cons b t ih =>
    have hb : ¬ (b == byte '<') = true := fun hb => h (eq_of_beq hb ▸ List.mem_cons_self)
    rw [List.cons_append, tags, tagsFrom, if_neg hb, ← tags, ih (List.not_mem_of_not_mem_cons h)]

theorem tagsFrom_append (h : byte '>' ∉ t) (w u : Text) :
    tagsFrom (some w) (t ++ byte '>' :: u) = (w ++ t ++ [byte '>']) :: tags u := by
  induction t generalizing w with
  | nil => rw [List.append_nil]; rfl
  | cons b t ih =>
    have hb : ¬ (b == byte '>') = true := fun hb => h (eq_of_beq hb ▸ List.mem_cons_self)
    rw [List.cons_append, tagsFrom, if_neg hb, ih (List.not_mem_of_not_mem_cons h),
      List.append_assoc w, List.singleton_append]

theorem tag_inj (h : tag u = tag v) : u = v :=
  List.append_cancel_right (List.cons_eq_cons.1 h).2

theorem tags_tag_append (h : byte '>' ∉ w) (u : Text) : tags (tag w ++ u) = tag w :: tags u := by
  have hfrom := tagsFrom_append h [byte '<'] u
  rw [tag, List.cons_append, List.append_assoc, List.singleton_append]
  exact hfrom

end Text.Html

namespace ErrorCode

theorem ofText?_name (c : ErrorCode) : ofText? c.name = some c := by cases c <;> decide

theorem url_inj {c d : ErrorCode} (h : c.url = d.url) : c = d := by
  have hname : c.name = d.name := List.append_cancel_left h
  exact Option.some.inj (by rw [← ofText?_name c, hname, ofText?_name])

theorem not_mem_name (c : ErrorCode) : Text.byte '<' ∉ c.name := by cases c <;> decide

end ErrorCode

namespace Annotation

open Text Text.Html

variable {a b : Annotation} {c d : ErrorCode}

/-- What the tag says that opens the link for a code. -/
def linkTo (c : ErrorCode) : Text := join ["a href=", [0x27], c.url, [0x27]]

/-- The tags that an annotation is shown with. -/
def tagsFor (code : Option ErrorCode) : List Text :=
  tag "html" :: (code.elim [] (fun c => [tag (linkTo c), tag "/a"]) ++ [tag "br", tag "/html"])

def separator (code : Option ErrorCode) : Text := code.elim [] htmlLink ++ tag "br"

theorem html_eq (a : Annotation) : a.html = tag "html" ++
    (escape a.header ++ (separator a.code ++ (escape a.description ++ tag "/html"))) := by
  rw [html, separator]
  cases a.code <;>
    simp only [join, List.flatten_cons, List.flatten_nil, List.append_nil, List.append_assoc,
      Option.elim] <;> rfl

theorem htmlLink_eq (c : ErrorCode) :
    htmlLink c = ofString " [" ++ (tag (linkTo c) ++ (c.name ++ (tag "/a" ++ [byte ']']))) := by
  simp only [htmlLink, linkTo, tag, join, List.flatten_cons, List.flatten_nil, List.append_nil,
    List.cons_append, List.append_assoc]
  rfl

theorem not_mem_linkTo (c : ErrorCode) : byte '>' ∉ linkTo c := by cases c <;> decide

theorem linkTo_inj (h : linkTo c = linkTo d) : c = d := by
  simp only [linkTo, join, List.flatten_cons, List.flatten_nil, List.append_nil] at h
  have hurl := List.append_cancel_left (List.append_cancel_left h)
  exact ErrorCode.url_inj (List.append_cancel_right hurl)

theorem tags_separator_append (code : Option ErrorCode) (u : Text) :
    tags (separator code ++ u) =
      code.elim [] (fun c => [tag (linkTo c), tag "/a"]) ++ tag "br" :: tags u := by
  cases code with
  | none => exact tags_tag_append (by decide) u
  | some c =>
    simp only [separator, Option.elim, htmlLink_eq, List.append_assoc]
    rw [tags_append (by decide), tags_tag_append (not_mem_linkTo c), tags_append c.not_mem_name,
      tags_tag_append (by decide), tags_append (by decide), tags_tag_append (by decide)]
    rfl

theorem tags_html (a : Annotation) : tags a.html = tagsFor a.code := by
  rw [html_eq, tags_tag_append (by decide), tags_append (open_not_mem_escape a.header),
    tags_separator_append, tags_append (open_not_mem_escape a.description)]
  rfl

theorem tagsFor_inj {code code' : Option ErrorCode} (h : tagsFor code = tagsFor code') :
    code = code' := by
  cases code with
  | none =>
    cases code' with
    | none => rfl
    | some d => cases congrArg List.length h
  | some c =>
    cases code' with
    | none => cases congrArg List.length h
    | some d =>
      have htag : tag (linkTo c) = tag (linkTo d) :=
        (List.cons_eq_cons.1 (List.cons_eq_cons.1 h).2).1
      rw [linkTo_inj (tag_inj htag)]

theorem escape_separator_inj {code : Option ErrorCode} {s t u v : Text}
    (h : escape s ++ (separator code ++ u) = escape t ++ (separator code ++ v)) :
    s = t ∧ u = v := by
  have hmem : byte '<' ∈ separator code := List.mem_append_right _ List.mem_cons_self
  -- The separator is cut at its first `<`, which is then the first one of the whole text.
  obtain ⟨w, rest, hseparator, hw⟩ := List.eq_append_cons_of_mem hmem
  have hclean (t : Text) : ∀ b ∈ escape t ++ w, (b != byte '<') = true := by
    intro b hb
    refine bne_iff_ne.2 fun he => ?_
    subst he
    exact (List.mem_append.1 hb).elim (open_not_mem_escape t) hw
  simp only [hseparator, List.append_assoc, List.cons_append] at h
  rw [← List.append_assoc, ← List.append_assoc] at h
  obtain ⟨hfront, htail⟩ := append_inj_of_takeWhile (hclean s) (hclean t) rfl rfl h
  exact ⟨escape_injective (List.append_cancel_right hfront),
    List.append_cancel_left (List.cons_eq_cons.1 htail).2⟩

theorem html_inj (h : a.html = b.html) :
    a.header = b.header ∧ a.code = b.code ∧ a.description = b.description := by
  -- The tags tell the code. With one code, header and description have the same separator.
  have hcode : a.code = b.code := tagsFor_inj (by rw [← tags_html, h, tags_html])
  rw [html_eq, html_eq, hcode] at h
  obtain ⟨hheader, htail⟩ := escape_separator_inj (List.append_cancel_left h)
  exact ⟨hheader, hcode, escape_injective (List.append_cancel_right htail)⟩

/-- Annotations that look the same as HTML have the same header, code and description. Escaped text
is read back by putting the characters in the place of their entities, has no other character of
markup than the ampersands of entities, and so adds no tag to those around it. -/
theorem html_unforgeable (a b : Annotation) (t : Text) :
    (a.html = b.html ↔
      a.header = b.header ∧ a.code = b.code ∧ a.description = b.description) ∧
    unescape (escape t) = t ∧ Escaped (escape t) ∧ tags a.html = tagsFor a.code := by
  refine ⟨⟨html_inj, fun ⟨hheader, hcode, hdescription⟩ => ?_⟩, unescape_escape t,
    escaped_escape t, tags_html a⟩
  rw [html_eq, html_eq, hheader, hcode, hdescription]

/-- A header that spells a tag and an entity is shown as it is. -/
example : html ⟨.error, none, "<b>&amp;", [], []⟩ =
    ofString "<html>&lt;b&gt;&amp;amp;<br></html>" := by decide

end Annotation
end Mismatch
