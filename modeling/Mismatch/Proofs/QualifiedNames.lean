import Mismatch.Proofs.RoundTrip

/-!
# Naming an item by its full path

Items may share a short name, and then only their full paths tell them apart. The full path of an
item with a path holds a colon, which no short name does, so no other item answers to it. The full
path of an item without a path is its short name, and all items of that name answer to it
(`Item.answersTo_qualified_iff`). So every declared item is found under its full path but those
without a path that have a namesake (`NameTable.lookup_qualified`).
-/

namespace Mismatch

open Text

namespace NameTable
variable {N : NameTable} {es : List Declared} {e f : Declared} {name : Text}

/-- The table after further declarations, the first of the list first. -/
def addAll (N : NameTable) (es : List Declared) : NameTable :=
  es.foldl (fun N e => N.add e.item e.arity) N

theorem entries_addAll (N : NameTable) (es : List Declared) :
    (N.addAll es).entries = N.entries ++ es := by
  induction es generalizing N with
  | nil => exact (List.append_nil _).symm
  | cons e es ih =>
    have hstep : N.addAll (e :: es) = (N.add e.item e.arity).addAll es := rfl
    rw [hstep, ih, add, List.append_assoc, List.singleton_append]

theorem entries_empty_addAll (es : List Declared) : (empty.addAll es).entries = es :=
  entries_addAll empty es

/-- The items with a short name, in the order of their declaration. -/
def namesakes (N : NameTable) (name : Text) : List Item := N.items.filter (·.name == name)

/-- A name that several of the declared items answer to is refused. -/
theorem lookup_eq_ambiguous (he : e ∈ N.entries.filter (·.item.answersTo name))
    (hf : f ∈ N.entries.filter (·.item.answersTo name)) (hne : f ≠ e) :
    N.lookup name =
      .error (.ambiguous name ((N.entries.filter (·.item.answersTo name)).map (·.item))) := by
  rw [lookup]
  split
  · next hnil => rw [hnil] at he; cases he
  · next g hone =>
    rw [hone, List.mem_singleton] at he hf
    exact absurd (hf.trans he.symm) hne
  · rfl

/-- The full path of an item without a path is refused if another item has its short name. -/
theorem lookup_qualified_of_namesake (hn : ∀ f ∈ N.entries, isIdent f.item.name = true)
    (he : e ∈ N.entries) (hp : e.item.path = []) (hf : f ∈ N.entries)
    (hname : f.item.name = e.item.name) (hne : f ≠ e) : N.lookup e.item.qualified =
      .error (.ambiguous e.item.qualified (N.namesakes e.item.name)) := by
  have hanswers : ∀ g ∈ N.entries,
      g.item.answersTo e.item.qualified = (g.item.name == e.item.name) := by
    intro g hg
    rw [Bool.eq_iff_iff, Item.answersTo_qualified_iff (hn e he) (hn g hg), beq_iff_eq]
    exact ⟨fun ha => ha.elim (congrArg Item.name) And.right, fun hname => .inr ⟨hp, hname⟩⟩
  have hnamesakes : (N.entries.filter (·.item.answersTo e.item.qualified)).map (·.item) =
      N.namesakes e.item.name := by
    rw [List.filter_congr hanswers, namesakes, items, List.filter_map]
    rfl
  rw [← hnamesakes]
  refine lookup_eq_ambiguous (List.mem_filter.2 ⟨he, ?_⟩) (List.mem_filter.2 ⟨hf, ?_⟩) hne
  · exact (hanswers e he).trans (beq_self_eq_true _)
  · exact (hanswers f hf).trans (beq_iff_eq.2 hname)

/-- The item has a path, or no other item has its short name. -/
def Unmistakable (es : List Declared) (e : Declared) : Prop :=
  e.item.path = [] → ∀ f ∈ es, f.item.name = e.item.name → f.item = e.item

/-- After any declarations of different items with identifiers as names, the full path of each of
them denotes it, with the number of its arguments, whatever other items share its short name. The
only exception is an item without a path that has a namesake: its full path is that short name, and
the refusal lists all items of the name. -/
theorem lookup_qualified (hd : (es.map (·.item)).Nodup)
    (hn : ∀ f ∈ es, isIdent f.item.name = true) (he : e ∈ es) :
    ((empty.addAll es).lookup e.item.qualified = .ok e ↔ Unmistakable es e) ∧
    (¬ Unmistakable es e → (empty.addAll es).lookup e.item.qualified =
      .error (.ambiguous e.item.qualified ((es.map (·.item)).filter (·.name == e.item.name)))) := by
  have hentries := entries_empty_addAll es
  have hrefused : ¬ Unmistakable es e → (empty.addAll es).lookup e.item.qualified =
      .error (.ambiguous e.item.qualified ((es.map (·.item)).filter (·.name == e.item.name))) := by
    intro h
    obtain ⟨hp, f, hf, hname, hne⟩ : e.item.path = [] ∧
        ∃ f ∈ es, f.item.name = e.item.name ∧ f.item ≠ e.item := by simpa [Unmistakable] using h
    have hlookup := lookup_qualified_of_namesake (N := empty.addAll es) (e := e) (f := f)
    rw [namesakes, items, hentries] at hlookup
    exact hlookup hn he hp hf hname fun hfe => hne (congrArg Declared.item hfe)
  have hfound : Unmistakable es e → (empty.addAll es).lookup e.item.qualified = .ok e := by
    have hlookup := lookup_qualified_of_alone (N := empty.addAll es) (e := e)
    rw [items, hentries] at hlookup
    exact hlookup hd hn he
  refine ⟨⟨fun hok => ?_, hfound⟩, hrefused⟩
  by_contra h
  cases hok.symm.trans (hrefused h)

/-- Three items with one short name, of which one has no path. -/
def threeErrors : List Declared :=
  [⟨⟨"Error", "std::io"⟩, 0⟩, ⟨⟨"Error", "core::fmt"⟩, 0⟩, ⟨⟨"Error", []⟩, 1⟩]

theorem lookup_qualified_errors : (threeErrors.map (·.item)).Nodup ∧
    (∀ f ∈ threeErrors, isIdent f.item.name = true) ∧
    (empty.addAll threeErrors).lookup "std::io::Error" = .ok ⟨⟨"Error", "std::io"⟩, 0⟩ := by
  have hd : (threeErrors.map (·.item)).Nodup := by decide
  have hn : ∀ f ∈ threeErrors, isIdent f.item.name = true := by decide
  exact ⟨hd, hn, (lookup_qualified hd hn List.mem_cons_self).1.2 fun hp => nomatch hp⟩

/-- An item without a path is not found once another item has its name. -/
theorem lookup_qualified_refused : (threeErrors.map (·.item)).Nodup ∧
    (∀ f ∈ threeErrors, isIdent f.item.name = true) ∧ ⟨⟨"Error", []⟩, 1⟩ ∈ threeErrors ∧
    (empty.addAll threeErrors).lookup (Item.qualified ⟨"Error", []⟩) =
      .error (.ambiguous "Error" (threeErrors.map (·.item))) :=
  ⟨by decide, by decide, by simp [threeErrors], rfl⟩

end NameTable
end Mismatch
