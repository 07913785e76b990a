import Mismatch.Proofs.JsonWriting
import Mismatch.Log.Record

/-!
# Log records as JSON

A record escapes the quotation mark, the reverse solidus, line feeds and tabs, and no other control
character. So a record is a JSON object on one line as long as its message has no others, and then a
reader of JSON gets the record back; with any other control character it is no JSON text
(`Log.Record.isText_json_iff`).
-/

namespace Mismatch

open Text Text.Json

namespace Text.Json
variable {u v : Text}

/-- A string is read to its end only if each of its bytes is read back from what is written for
it. -/
theorem forall_escapes_of_chars {f : UInt8 → Text} : ∀ {s s' : Text},
    (∀ b ∈ s, Escapes f b ∨ ∀ u s v, ¬ Chars (f b ++ u) s v) → Chars (s.flatMap f ++ u) s' v →
    ∀ b ∈ s, Escapes f b
  | [], _, _, _ => List.forall_mem_nil _
  | b :: s, s', hf, h => by
    obtain ⟨hb, hs⟩ := List.forall_mem_cons.1 hf
    rw [List.flatMap_cons, List.append_assoc] at h
    rcases hb with hb | hb
    · refine List.forall_mem_cons.2 ⟨hb, ?_⟩
      have hchar := hb.2 (s.flatMap f ++ u)
      generalize hu : f b ++ (s.flatMap f ++ u) = u' at h hchar
      cases h with
      | done => cases hchar
      | more char rest =>
        obtain ⟨rfl, rfl⟩ := Prod.mk.inj (Option.some.inj (char.symm.trans hchar))
        exact forall_escapes_of_chars hs rest
    · exact absurd h (hb _ _ _)

/-- The members behind a written one. -/
theorem ReadsMembers.skip {t : Text} {m : Text × Value} {ms : List (Text × Value)}
    (ht : WritesAs ReadsMember t m) (h : ReadsMembers (t ++ ("," ++ u)) ms v) (hv : NoComma v) :
    ∃ ms', ReadsMembers u ms' v := by
  have hread := ht.reads ("," ++ u) rfl
  have hcomma : Token "," ("," ++ u) u := rfl
  cases h with
  | one member =>
    obtain ⟨-, rfl⟩ := member.det hread
    exact absurd hcomma (hv u)
  | more member comma rest =>
    obtain ⟨-, rfl⟩ := member.det hread
    obtain rfl := comma.rest_eq hcomma
    exact ⟨_, rest⟩

/-- A member whose value starts like a string has a string that is read to its end. -/
theorem ReadsMembers.chars {name t : Text} {ms : List (Text × Value)}
    (hname : name.all isPlain = true) (h : ReadsMembers (member name (quote t) ++ u) ms v) :
    ∃ s v', Chars (t ++ byte '"' :: u) s v' := by
  obtain ⟨m, v', hm⟩ : ∃ m v', ReadsMember (member name (quote t) ++ u) m v' := by
    cases h with
    | one hm | more hm => exact ⟨_, _, hm⟩
  rw [member, List.append_assoc, List.cons_append] at hm
  obtain @⟨_, _, _, _, s, x, hname', hcolon, hvalue⟩ := hm
  obtain ⟨-, rfl⟩ := hname'.det (quoted_plain hname)
  obtain rfl : _ = quote t ++ u := hcolon.rest_eq rfl
  rw [quote_append] at hvalue
  have hform : x.form = .string := Option.some.inj (hvalue.form.symm.trans rfl)
  cases hvalue with
  | string hs =>
    obtain ⟨u₁, hleft, hchars⟩ := hs
    obtain rfl : _ = t ++ byte '"' :: u := hleft.rest_eq rfl
    exact ⟨_, _, hchars⟩
  | _ => cases hform

end Text.Json

namespace Log.Record

/-- What a record says. -/
def value (r : Record) : Value :=
  .object [("ts", .number r.time), entry "level" r.event.level.name,
    entry "module" r.event.module, entry "msg" r.event.message.get]

/-- A control character that records do not escape. -/
def isUnescaped (b : UInt8) : Bool := b < 0x20 && b != 10 && b != 9

theorem isUnescaped_iff {b : UInt8} : isUnescaped b = true ↔ b < 0x20 ∧ b ≠ 10 ∧ b ≠ 9 := by
  simp [isUnescaped, and_assoc]

theorem escapeByte_cases (b : UInt8) : (b, escapeByte b) ∈ escapes ∨
    (b ≠ byte '"' ∧ b ≠ byte '\\' ∧ b ≠ 10 ∧ b ≠ 9) ∧ escapeByte b = [b] := by
  rcases lookup_getD_cases escapes b [b] with h | ⟨hb, h⟩
  · exact .inl h
  · simp only [escapes, List.map_cons, List.map_nil, List.mem_cons, List.not_mem_nil, or_false,
      not_or] at hb
    exact .inr ⟨hb, h⟩

theorem character?_escapes (u : Text) :
    ∀ p ∈ escapes, character? (p.2 ++ u) = some ([p.1], u) := by
  simp only [escapes, List.forall_mem_cons]
  exact ⟨rfl, rfl, rfl, rfl, List.forall_mem_nil _⟩

theorem escapes_escapeByte {b : UInt8} (hb : ¬ isUnescaped b = true) : Escapes escapeByte b := by
  rcases escapeByte_cases b with h | ⟨⟨hq, hs, hn, ht⟩, h⟩
  · have hprintable : (escapes.all fun p => p.2.all isPrintable) = true := rfl
    exact ⟨List.all_eq_true.1 (List.all_eq_true.1 hprintable _ h),
      fun u => character?_escapes u _ h⟩
  · have hp : isPrintable b = true := decide_eq_true <| UInt8.not_lt.1 fun hc =>
      hb (isUnescaped_iff.2 ⟨hc, hn, ht⟩)
    rw [Escapes, h]
    exact escapes_of_isPlain (isPlain_iff.2 ⟨hp, hq, hs⟩)

theorem escapeByte_of_isUnescaped {b : UInt8} (hb : isUnescaped b = true) :
    escapeByte b = [b] := by
  rcases escapeByte_cases b with h | ⟨-, h⟩
  · have hescapes : (escapes.any fun p => isUnescaped p.1) = false := rfl
    exact absurd hb (List.any_eq_false.1 hescapes _ h)
  · exact h

theorem not_chars {b : UInt8} (hb : isUnescaped b = true) (u s v : Text) :
    ¬ Chars (escapeByte b ++ u) s v := by
  have hc := (isUnescaped_iff.1 hb).1
  rw [escapeByte_of_isUnescaped hb]
  intro h
  cases h with
  | done => exact absurd hc (by decide)
  | more char => simp [character?, hc] at char

theorem escapes_escapeByte_iff {b : UInt8} : Escapes escapeByte b ↔ ¬ isUnescaped b = true := by
  refine ⟨fun h hb => ?_, escapes_escapeByte⟩
  have hp := h.1 b (by rw [escapeByte_of_isUnescaped hb]; exact List.mem_cons_self)
  exact UInt8.not_lt.2 (of_decide_eq_true hp) (isUnescaped_iff.1 hb).1

variable {r : Record}

theorem writes_time (n : Int) : WritesAs ReadsMember (member "ts" (ofInt n)) ("ts", .number n) :=
  writes_member (by decide) (writes_ofInt n)

theorem writes_level (l : Level) :
    WritesAs ReadsMember (member "level" (quote l.name)) (entry "level" l.name) :=
  writes_member (by decide) (writes_plain (by cases l <;> rfl))

theorem writes_module {m : Text} (hm : isIdent m = true) :
    WritesAs ReadsMember (member "module" (quote m)) (entry "module" m) :=
  writes_member (by decide) (writes_plain (plain_of_isIdent hm))

theorem writes_message {m : Text} (h : m.any isUnescaped = false) :
    WritesAs ReadsMember (member "msg" (quote (m.flatMap escapeByte))) (entry "msg" m) :=
  writes_member (by decide) <| writes_flatMap fun b hb =>
    escapes_escapeByte (List.any_eq_false.1 h b hb)

theorem writes_json (hm : isIdent r.event.module = true)
    (h : r.event.message.get.any isUnescaped = false) : Writes r.json r.value :=
  writes_object (.cons (writes_time r.time) (.cons (writes_level r.event.level)
    (.cons (writes_module hm) (.cons (writes_message h) .nil))))

theorem any_isUnescaped_of_isText (hm : isIdent r.event.module = true) {x : Value}
    (h : IsText r.json x) : r.event.message.get.any isUnescaped = false := by
  obtain ⟨v, h, -⟩ := h
  have hlayout : r.json = "\x7b" ++ (member "ts" (ofInt r.time) ++ ("," ++
      (member "level" (quote r.event.level.name) ++ ("," ++
        (member "module" (quote r.event.module) ++ ("," ++
          (member "msg" (quote (r.event.message.get.flatMap escapeByte)) ++ "\x7d"))))))) := by
    simp [json, object, joinWith]
  rw [hlayout] at h
  have hform : x.form = .object := Option.some.inj (h.form.symm.trans rfl)
  cases h with
  | noMembers left right =>
    cases left
    exact absurd (List.cons.inj right).1 (by decide)
  | object left members right =>
    cases left
    have hend := right.noComma (by decide)
    obtain ⟨ms, members⟩ := members.skip (writes_time r.time) hend
    obtain ⟨ms, members⟩ := members.skip (writes_level r.event.level) hend
    obtain ⟨ms, members⟩ := members.skip (writes_module hm) hend
    obtain ⟨s, v', hchars⟩ := members.chars (by decide)
    have hread : ∀ b ∈ r.event.message.get, Escapes escapeByte b := by
      refine forall_escapes_of_chars (fun b _ => ?_) hchars
      by_cases hb : isUnescaped b = true
      · exact .inr (not_chars hb)
      · exact .inl (escapes_escapeByte hb)
    exact List.any_eq_false.2 fun b hb => escapes_escapeByte_iff.1 (hread b hb)
  | _ => cases hform

/-- A record whose module is an identifier is written on one line, and is a JSON text, exactly if
its message has no control character but line feeds and tabs. What the text says is then what the
record says. -/
theorem isText_json_iff (r : Record) (hm : isIdent r.event.module = true) :
    ((∀ b ∈ r.json, 0x20 ≤ b) ↔ r.event.message.get.any isUnescaped = false) ∧
      ∀ x, IsText r.json x ↔ x = r.value ∧ r.event.message.get.any isUnescaped = false := by
  refine ⟨⟨fun h => List.any_eq_false.2 fun b hb hu => ?_, fun h b hb =>
    of_decide_eq_true ((writes_json hm h).printable b hb)⟩,
    fun x => ⟨fun hx => ?_, fun ⟨hx, h⟩ => (writes_json hm h).isText_iff.2 hx⟩⟩
  · have hself : b ∈ escapeByte b := by rw [escapeByte_of_isUnescaped hu]; exact List.mem_cons_self
    have hmessage := List.mem_flatMap.2 ⟨b, hb, hself⟩
    have hjson : b ∈ r.json := by simp [json, object, joinWith, member, quote, hmessage]
    exact UInt8.not_lt.2 (h b hjson) (isUnescaped_iff.1 hu).1
  · have h := any_isUnescaped_of_isText hm hx
    exact ⟨(writes_json hm h).isText_iff.1 hx, h⟩

/-- A record of the command line at the epoch. -/
def atEpoch (message : Text) : Record where
  event := { level := .info, module := "cli", message := message }
  time := 0

theorem isText_json_quotation :
    IsText (atEpoch "say \"hi\"\n").json (atEpoch "say \"hi\"\n").value ∧
    ∀ b ∈ (atEpoch "say \"hi\"\n").json, 0x20 ≤ b := by
  have hm : isIdent (atEpoch "say \"hi\"\n").event.module = true := rfl
  have hmessage : (atEpoch "say \"hi\"\n").event.message.get.any isUnescaped = false := rfl
  have h := isText_json_iff (atEpoch "say \"hi\"\n") hm
  exact ⟨(h.2 _).2 ⟨rfl, hmessage⟩, h.1.2 hmessage⟩

/-- The byte 1 stands in a record as it is, which is no JSON text then. -/
theorem not_isText_json_control : isIdent (atEpoch [1]).event.module = true ∧
    1 ∈ (atEpoch [1]).json ∧ ¬ ∃ x, IsText (atEpoch [1]).json x := by
  refine ⟨rfl, by decide, fun ⟨x, hx⟩ => ?_⟩
  have hmessage := any_isUnescaped_of_isText (r := atEpoch [1]) rfl hx
  cases hmessage

end Log.Record
end Mismatch
