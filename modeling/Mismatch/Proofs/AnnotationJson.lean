import Mismatch.Proofs.CandidateOrder
import Mismatch.Proofs.JsonWriting
import Mismatch.Annotation.Print

/-!
# Annotations as JSON

What is printed for an annotation in JSON is one line, and a reader of JSON gets back what the
annotation says (`Annotation.print_json`), whatever bytes its texts and the expression consist of.
What is said of a fix tells its kind and the trait it goes through (`Candidate.value_inj`).
-/

namespace Mismatch

open Text Text.Json

/-- What a fix of an expression with the given text says. A replacement is there if the fix edits
the expression and the text of the expression is known. -/
def Candidate.value (exprText : Text) (c : Candidate) : Value :=
  let replacement := if exprText.isEmpty then none else c.edit? exprText
  .object <|
    entry "kind" c.kindName :: c.via?.toList.map (entry "trait" ·.name) ++
      entry "description" c.describe :: replacement.toList.map (entry "replacement")

namespace Annotation

/-- What an annotation of an expression with the given text says. -/
def value (a : Annotation) (exprText : Text) : Value :=
  let code : List (Text × Value) := match a.code with
    | none => [("code", .null)]
    | some c => [entry "code" c.name, entry "url" c.url]
  .object <|
    entry "severity" a.severity.name :: code ++
      [entry "header" a.header, entry "description" a.description,
        ("fixes", .array (a.fixes.map (Candidate.value exprText)))]

theorem writes_fixJson (exprText : Text) (c : Candidate) :
    Writes (fixJson exprText c) (c.value exprText) := by
  refine writes_object (.cons (writes_stringMember (by decide)) ?_)
  refine List.rel_append ?_ (.cons (writes_stringMember (by decide)) ?_)
  · cases c.via? with
    | none => exact .nil
    | some via => exact .cons (writes_stringMember (by decide)) .nil
  · cases c.edit? exprText with
    | none => rw [ite_self]; exact .nil
    | some edit =>
      cases exprText.isEmpty with
      | true => exact .nil
      | false => exact .cons (writes_stringMember (by decide)) .nil

theorem writes_json (a : Annotation) (exprText : Text) :
    Writes (a.json exprText) (a.value exprText) := by
  refine writes_object (.cons (writes_stringMember (by decide)) ?_)
  refine List.rel_append ?_ (.cons (writes_stringMember (by decide))
    (.cons (writes_stringMember (by decide)) (.cons (writes_member (by decide) ?_) .nil)))
  · cases a.code with
    | none => exact .cons (writes_member (by decide) writes_null) .nil
    | some c =>
      exact .cons (writes_stringMember (by decide)) (.cons (writes_stringMember (by decide)) .nil)
  · refine writes_array ?_
    rw [List.forall₂_map_left_iff, List.forall₂_map_right_iff, List.forall₂_same]
    exact fun c _ => writes_fixJson exprText c

/-- One line is printed for an annotation, without control characters in it, and what the line says
in JSON is what the annotation says. -/
theorem print_json (a : Annotation) (colors : Bool) (exprText : Text) :
    ∃ line, a.print .json colors exprText = line ++ [10] ∧ (∀ b ∈ line, 0x20 ≤ b) ∧
      ∀ x, IsText line x ↔ x = a.value exprText := by
  have h := a.writes_json exprText
  exact ⟨a.json exprText, List.append_nil _, fun b hb => of_decide_eq_true (h.printable b hb),
    fun _ => h.isText_iff⟩

end Annotation

/-! ## What can be told from the value of a fix -/

namespace Text.Json
variable {α : Type} {f : α → Text × Value} {o o' : Option α}

theorem optional_inj (hf : Function.Injective f) : o.toList.map f = o'.toList.map f ↔ o = o' := by
  cases o <;> cases o' <;> simp [hf.eq_iff]

/-- An optional member can be told from one that stands behind it and has another name. -/
theorem optional_append_inj (hf : Function.Injective f) {m m' : Text × Value}
    (hm : ∀ a, f a ≠ m) (hm' : ∀ a, f a ≠ m') {ms ms' : List (Text × Value)} :
    o.toList.map f ++ m :: ms = o'.toList.map f ++ m' :: ms' ↔ o = o' ∧ m = m' ∧ ms = ms' := by
  cases o <;> cases o' <;> simp [hf.eq_iff, hm', (hm _).symm]

end Text.Json

namespace ConversionTrait

theorem find?_name (t : ConversionTrait) : all.find? (·.name == t.name) = some t := by
  cases t <;> rfl

/-- No two traits have the same name. -/
theorem name_injective : Function.Injective name := fun s t h => by
  rw [← Option.some_inj, ← s.find?_name, h, t.find?_name]

end ConversionTrait

namespace Candidate

/-- The kind with a name, given the trait that fixes of this kind go through, if they do. -/
def Kind.named? (name : Text) : Option ConversionTrait → Option Kind
  | none =>
    List.lookup name
      [("AsCast", cast), ("ChangeRefToMutable", refToMutable), ("ToImmutableStr", asStr),
        ("ToMutableStr", asMutStr), ("DerefRefBridge", bridge), ("ChangeReturnType", changeReturn),
        ("ChangeLetType", changeLet)]
  | some t => List.lookup name [("ConvertVia", via t), ("ConvertAndUnpackVia", unpack t)]

theorem named?_kindName (c : Candidate) : Kind.named? c.kindName c.via? = some c.kind := by
  cases c <;> rfl

variable {c d : Candidate}

theorem kind_eq_iff : c.kind = d.kind ↔ c.kindName = d.kindName ∧ c.via? = d.via? := by
  constructor
  · intro h
    cases c <;> cases d <;> cases h <;> exact ⟨rfl, rfl⟩
  · rintro ⟨hname, hvia⟩
    rw [← Option.some_inj, ← named?_kindName c, hname, hvia, named?_kindName d]

/-- Two fixes of an expression say the same exactly if they are of one kind, trait included, and do
not differ in their description or, where the text of the expression is known, in what they write in
its place. -/
theorem value_inj {exprText : Text} : c.value exprText = d.value exprText ↔
    c.kind = d.kind ∧ c.describe = d.describe ∧
      (exprText.isEmpty = false → c.edit? exprText = d.edit? exprText) := by
  have htrait : Function.Injective fun via : ConversionTrait => entry "trait" via.name :=
    (entry_injective _).comp ConversionTrait.name_injective
  have hne : ∀ (t : Text) (via : ConversionTrait), entry "trait" via.name ≠ entry "description" t :=
    fun t via h => nomatch (Prod.mk.inj h).1
  simp only [value]
  rw [Value.object.injEq]
  simp only [List.cons_append, List.cons.injEq, (entry_injective _).eq_iff,
    optional_append_inj htrait (hne _) (hne _), optional_inj (entry_injective _), kind_eq_iff,
    and_assoc]
  cases exprText.isEmpty <;> simp

end Candidate
end Mismatch
