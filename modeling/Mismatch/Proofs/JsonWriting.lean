import Mismatch.Proofs.JsonGrammar
import Mismatch.Proofs.Lookup
import Mismatch.Proofs.Reading

/-!
# What written JSON is read as

A text writes a value (`Writes`) if it has no control characters and is read as that value wherever
it stands. Strings write themselves if what is written for each byte is read back as the byte;
arrays and objects are written element by element.
-/

namespace Mismatch.Text

theorem forall_mem_joinWith {sep : Text} {p : UInt8 → Prop} (hsep : ∀ b ∈ sep, p b) :
    ∀ {ts : List Text}, (∀ t ∈ ts, ∀ b ∈ t, p b) → ∀ b ∈ joinWith sep ts, p b
  | [], _ => List.forall_mem_nil p
  | t :: ts, h => by
    obtain ⟨ht, hts⟩ := List.forall_mem_cons.1 h
    rw [joinWith_cons]
    refine List.forall_mem_append.2 ⟨ht, fun b hb => ?_⟩
    obtain ⟨u, hu, hb⟩ := List.mem_flatMap.1 hb
    exact (List.mem_append.1 hb).elim (hsep b) (hts u hu b)

theorem joinWith_cons_cons (sep t u : Text) (ts : List Text) :
    joinWith sep (t :: u :: ts) = t ++ (sep ++ joinWith sep (u :: ts)) :=
  List.append_assoc ..

namespace Json
variable {s t u v : Text} {x : Value}

/-- The byte is no control character. -/
def isPrintable (b : UInt8) : Bool := 0x20 ≤ b

/-- No number can go on here. -/
def EndsNumber (u : Text) : Prop := u.takeWhile isNumberByte = []

/-- The text writes `x` on one line, where `R` says how it is read: it has no control characters,
and wherever no number can go on behind it, it is read as `x`. -/
structure WritesAs {α : Type} (R : Text → α → Text → Prop) (t : Text) (x : α) : Prop where
  printable : ∀ b ∈ t, isPrintable b = true
  reads : ∀ v, EndsNumber v → R (t ++ v) x v

/-- The text writes the value. -/
abbrev Writes : Text → Value → Prop := WritesAs Reads

theorem WritesAs.isText_iff (h : Writes t x) {y : Value} : IsText t y ↔ y = x := by
  have hx : IsText t x := ⟨[], by simpa using h.reads [] rfl, rfl⟩
  constructor
  · exact fun hy => hy.unique hx
  · rintro rfl
    exact hx

/-! ## Strings -/

/-- What is written for the byte is no control character and is read back as the byte. -/
def Escapes (f : UInt8 → Text) (b : UInt8) : Prop :=
  (∀ c ∈ f b, isPrintable c = true) ∧ ∀ u, character? (f b ++ u) = some ([b], u)

variable {f : UInt8 → Text}

theorem chars_flatMap (h : ∀ b ∈ s, Escapes f b) : Chars (s.flatMap f ++ byte '"' :: v) s v := by
  induction s with
  | nil => exact .done
  | cons b s ih =>
    obtain ⟨hb, hs⟩ := List.forall_mem_cons.1 h
    rw [List.flatMap_cons, List.append_assoc]
    exact .more (hb.2 _) (ih hs)

theorem quote_append (t v : Text) : quote t ++ v = "\"" ++ (t ++ byte '"' :: v) := by
  rw [quote, List.cons_append, List.append_assoc]
  rfl

theorem token_quote (t v : Text) : Token "\"" (quote t ++ v) (t ++ byte '"' :: v) := by
  rw [quote_append]
  rfl

theorem quoted_flatMap (h : ∀ b ∈ s, Escapes f b) : Quoted s (quote (s.flatMap f) ++ v) v :=
  ⟨_, token_quote _ v, chars_flatMap h⟩

theorem printable_quote (h : ∀ b ∈ t, isPrintable b = true) :
    ∀ b ∈ quote t, isPrintable b = true :=
  List.forall_mem_cons.2 ⟨rfl, List.forall_mem_append.2 ⟨h, List.forall_mem_singleton.2 rfl⟩⟩

theorem writes_flatMap (h : ∀ b ∈ s, Escapes f b) : Writes (quote (s.flatMap f)) (.string s) where
  printable := printable_quote fun c hc => by
    obtain ⟨b, hb, hc⟩ := List.mem_flatMap.1 hc
    exact (h b hb).1 c hc
  reads v _ := .string (quoted_flatMap h)

/-! ### Bytes that stand for themselves -/

/-- The byte may stand in a string as it is. -/
def isPlain (b : UInt8) : Bool := isPrintable b && b != byte '"' && b != byte '\\'

theorem isPlain_iff {b : UInt8} :
    isPlain b = true ↔ isPrintable b = true ∧ b ≠ byte '"' ∧ b ≠ byte '\\' := by
  simp [isPlain, and_assoc]

theorem escapes_of_isPlain {b : UInt8} (hb : isPlain b = true) : Escapes (fun b => [b]) b := by
  obtain ⟨hp, hq, hs⟩ := isPlain_iff.1 hb
  refine ⟨List.forall_mem_singleton.2 hp, fun u => ?_⟩
  have hcontrol : ¬ b < 0x20 := UInt8.not_lt.2 (of_decide_eq_true hp)
  simp [character?, hq, hs, hcontrol]

theorem escapes_plain (h : s.all isPlain = true) : ∀ b ∈ s, Escapes (fun b => [b]) b :=
  fun b hb => escapes_of_isPlain (List.all_eq_true.1 h b hb)

theorem quoted_plain (h : s.all isPlain = true) : Quoted s (quote s ++ v) v := by
  have hs := quoted_flatMap (v := v) (escapes_plain h)
  rwa [List.flatMap_singleton'] at hs

theorem writes_plain (h : s.all isPlain = true) : Writes (quote s) (.string s) := by
  have hs := writes_flatMap (escapes_plain h)
  rwa [List.flatMap_singleton'] at hs

theorem isPlain_of_isIdentByte {b : UInt8} (h : isIdentByte b = true) : isPlain b = true := by
  refine isPlain_iff.2 ⟨?_, ?_, ?_⟩
  · simp only [isIdentByte, isIdentStart, isLower, isUpper, isDigit, byte, Bool.or_eq_true,
      Bool.and_eq_true, decide_eq_true_eq, beq_iff_eq, UInt8.le_iff_toNat_le, ← UInt8.toNat_inj,
      isPrintable] at h ⊢
    simp at h ⊢
    omega
  all_goals
    rintro rfl
    cases h

theorem plain_of_isIdent (h : isIdent s = true) : s.all isPlain = true :=
  List.all_eq_true.2 fun b hb => isPlain_of_isIdentByte (isIdent_bytes h b hb)

/-! ### Escaped bytes -/

theorem escapeByte_cases (b : UInt8) : (b, escapeByte b) ∈ shortEscapes ∨
    (b < 0x20 ∧ escapeByte b = "\\u00" ++ [hexDigit (b / 16), hexDigit (b % 16)]) ∨
    (isPlain b = true ∧ escapeByte b = [b]) := by
  cases h : shortEscapes.lookup b with
  | some e =>
    have he : escapeByte b = e := by rw [escapeByte, h]
    exact .inl (he ▸ mem_of_lookup h)
  | none =>
    have hnone := List.lookup_eq_none_iff.1 h
    simp only [shortEscapes, List.forall_mem_cons, bne_iff_ne] at hnone
    by_cases hb : b < 0x20
    · exact .inr (.inl ⟨hb, by rw [escapeByte, h, if_pos hb]⟩)
    · have hp : isPrintable b = true := decide_eq_true (UInt8.not_lt.1 hb)
      exact .inr (.inr ⟨isPlain_iff.2 ⟨hp, hnone.1, hnone.2.1⟩, by rw [escapeByte, h, if_neg hb]⟩)

theorem character?_short (u : Text) :
    ∀ p ∈ shortEscapes, character? (p.2 ++ u) = some ([p.1], u) := by
  simp only [shortEscapes, List.forall_mem_cons]
  exact ⟨rfl, rfl, rfl, rfl, rfl, rfl, rfl, List.forall_mem_nil _⟩

theorem exists_control {b : UInt8} (hb : b < 0x20) : ∃ n : Fin 32, b = UInt8.ofNat n :=
  ⟨⟨b.toNat, UInt8.lt_iff_toNat_lt.1 hb⟩, UInt8.ofNat_toNat.symm⟩

theorem hexValue?_hexDigit : ∀ n : Fin 32,
    hexValue? (hexDigit (UInt8.ofNat n / 16)) = some (n.val / 16) ∧
      hexValue? (hexDigit (UInt8.ofNat n % 16)) = some (n.val % 16) := by
  decide

theorem printable_control : ∀ n : Fin 32, (("\\u00" : Text) ++
    [hexDigit (UInt8.ofNat n / 16), hexDigit (UInt8.ofNat n % 16)]).all isPrintable = true := by
  decide

theorem utf8_control : ∀ n : Fin 32, utf8 n = [UInt8.ofNat n] := by decide

theorem character?_control (n : Fin 32) (u : Text) :
    character? ("\\u00" ++ [hexDigit (UInt8.ofNat n / 16), hexDigit (UInt8.ofNat n % 16)] ++ u) =
      some ([UInt8.ofNat n], u) := by
  obtain ⟨hhigh, hlow⟩ := hexValue?_hexDigit n
  have hzero : hexValue? (byte '0') = some 0 := rfl
  have hunit : unit? (byte '0' :: byte '0' :: hexDigit (UInt8.ofNat n / 16) ::
      hexDigit (UInt8.ofNat n % 16) :: u) = some (n.val, u) := by
    simp [unit?, hhigh, hlow, hzero]
    omega
  have hpoint : codePoint? (byte '0' :: byte '0' :: hexDigit (UInt8.ofNat n / 16) ::
      hexDigit (UInt8.ofNat n % 16) :: u) = some ([UInt8.ofNat n], u) := by
    have hn : n.val < 0xd800 := n.isLt.trans (by decide)
    simp [codePoint?, hunit, hn, utf8_control]
  exact hpoint

theorem escapes_escapeByte (b : UInt8) : Escapes escapeByte b := by
  rcases escapeByte_cases b with h | ⟨hb, h⟩ | ⟨hb, h⟩
  · have hprintable : (shortEscapes.all fun p => p.2.all isPrintable) = true := rfl
    exact ⟨List.all_eq_true.1 (List.all_eq_true.1 hprintable _ h), fun u => character?_short u _ h⟩
  · obtain ⟨n, rfl⟩ := exists_control hb
    rw [Escapes, h]
    exact ⟨List.all_eq_true.1 (printable_control n), character?_control n⟩
  · rw [Escapes, h]
    exact escapes_of_isPlain hb

/-! ## Literals and numbers -/

theorem writes_null : Writes "null" .null where
  printable := List.all_eq_true.1 rfl
  reads _ _ := .null rfl

theorem isNumberByte_of_isDigit {b : UInt8} (h : isDigit b = true) : isNumberByte b = true := by
  simp [isNumberByte, h]

theorem int?_ofNat (n : Nat) : int? (ofNat n) = some ((n : Rat), []) := by
  have htake : (ofNat n).takeWhile isDigit = ofNat n := List.takeWhile_eq_self_iff.2 isDigit_ofNat
  have hdrop : (ofNat n).dropWhile isDigit = [] := List.dropWhile_eq_nil_iff.2 isDigit_ofNat
  have hdigits := digits_ofNat n
  obtain ⟨d, ds, he, hd⟩ := exists_ofNat_eq_cons n
  rw [he] at htake hdrop hdigits
  have hzero : (d == byte '0' && !ds.isEmpty) = false := by
    rcases Nat.eq_zero_or_pos n with rfl | hn
    · have h0 : ofNat 0 = [byte '0'] := ofNat_of_lt (by decide)
      rw [h0] at he
      cases he
      rfl
    · simp [hd hn]
  rw [he, int?, htake]
  simp only [hzero, hdrop, hdigits, Bool.false_eq_true, if_false]

theorem magnitude?_ofNat (n : Nat) : magnitude? (ofNat n) = some (n : Rat) := by
  have hfrac : frac? [] = some (0, []) := rfl
  have hexp : exp? [] = some 0 := rfl
  simp [magnitude?, int?_ofNat, hfrac, hexp]

theorem number?_ofInt : ∀ n : Int, number? (ofInt n) = some (n : Rat)
  | .ofNat n => by
    have hsign : dropStart? "-" (ofNat n) = none := by
      obtain ⟨d, ds, he, -⟩ := exists_ofNat_eq_cons n
      have hd : isDigit d = true := isDigit_ofNat d (he ▸ List.mem_cons_self)
      have hne : ¬ (byte '-' == d) = true := by
        rw [beq_iff_eq]
        rintro rfl
        cases hd
      rw [he]
      exact if_neg hne
    rw [ofInt, number?, hsign]
    exact magnitude?_ofNat n
  | .negSucc n => by
    have hsign : dropStart? "-" (byte '-' :: ofNat (n + 1)) = some (ofNat (n + 1)) := rfl
    rw [ofInt, number?, hsign]
    simp [magnitude?_ofNat, Int.cast_negSucc]

theorem isNumberByte_ofInt : ∀ n : Int, ∀ b ∈ ofInt n, isNumberByte b = true
  | .ofNat _ => fun b hb => isNumberByte_of_isDigit (isDigit_ofNat b hb)
  | .negSucc _ => List.forall_mem_cons.2
    ⟨rfl, fun b hb => isNumberByte_of_isDigit (isDigit_ofNat b hb)⟩

theorem printable_of_isNumberByte {b : UInt8} (h : isNumberByte b = true) :
    isPrintable b = true ∧ isBlank b = false := by
  simp only [isNumberByte, isDigit, byte, isBlank, Bool.or_eq_true, Bool.and_eq_true,
    decide_eq_true_eq, beq_iff_eq, UInt8.le_iff_toNat_le, ← UInt8.toNat_inj, isPrintable,
    Bool.or_eq_false_iff, beq_eq_false_iff_ne, ne_eq] at h ⊢
  simp at h ⊢
  omega

theorem writes_ofInt (n : Int) : Writes (ofInt n) (.number n) where
  printable b hb := (printable_of_isNumberByte (isNumberByte_ofInt n b hb)).1
  reads v hv := by
    refine .number (w := ofInt n) ?_ (number?_ofInt n) (isNumberByte_ofInt n) hv
    cases h : ofInt n with
    | nil =>
      have hnil := number?_ofInt n
      rw [h] at hnil
      cases hnil
    | cons b t =>
      have hb := (printable_of_isNumberByte (isNumberByte_ofInt n b (h ▸ List.mem_cons_self))).2
      simp [Token, hb]

/-! ## Arrays and objects -/

section
variable {α : Type} {R : Text → α → Text → Prop} {S : Text → List α → Text → Prop} {ts : List Text}
  {xs : List α}

theorem printable_joinWith (h : List.Forall₂ (WritesAs R) ts xs) :
    ∀ b ∈ joinWith "," ts, isPrintable b = true := by
  refine forall_mem_joinWith (List.all_eq_true.1 rfl) ?_
  induction h with
  | nil => exact List.forall_mem_nil _
  | cons ht _ ih => exact List.forall_mem_cons.2 ⟨ht.printable, ih⟩

/-- Elements with commas between them are read one by one. -/
theorem WritesAs.joinWith (one : ∀ {u x v}, R u x v → S u [x] v)
    (more : ∀ {u x u₁ u₂ xs v}, R u x u₁ → Token "," u₁ u₂ → S u₂ xs v → S u (x :: xs) v)
    (h : List.Forall₂ (WritesAs R) ts xs) (hts : ts ≠ []) :
    WritesAs S (Text.joinWith "," ts) xs where
  printable := printable_joinWith h
  reads := by
    induction h with
    | nil => exact absurd rfl hts
    | @cons t x ts xs ht hrest ih =>
      intro v hv
      cases hrest with
      | nil => exact one (ht.reads v hv)
      | @cons t' x' ts xs =>
        rw [joinWith_cons_cons, List.append_assoc, List.append_assoc]
        exact more (ht.reads _ rfl) rfl (ih (List.cons_ne_nil t' ts) v hv)

end

variable {ts : List Text}

theorem writes_array {xs : List Value} (h : List.Forall₂ Writes ts xs) :
    Writes (array ts) (.array xs) where
  printable := List.forall_mem_append.2
    ⟨List.forall_mem_append.2 ⟨List.all_eq_true.1 rfl, printable_joinWith h⟩,
      List.all_eq_true.1 rfl⟩
  reads v hv := by
    rw [Json.array, List.append_assoc, List.append_assoc]
    cases h with
    | nil => exact .noElements rfl rfl
    | cons ht hts =>
      have helems : WritesAs ReadsAll (joinWith "," _) _ :=
        WritesAs.joinWith (R := Reads) .one .more (.cons ht hts) (List.cons_ne_nil _ _)
      exact .array rfl (helems.reads _ rfl) rfl

theorem writes_object {ms : List (Text × Value)} (h : List.Forall₂ (WritesAs ReadsMember) ts ms) :
    Writes (object ts) (.object ms) where
  printable := List.forall_mem_append.2
    ⟨List.forall_mem_append.2 ⟨List.all_eq_true.1 rfl, printable_joinWith h⟩,
      List.all_eq_true.1 rfl⟩
  reads v hv := by
    rw [Json.object, List.append_assoc, List.append_assoc]
    cases h with
    | nil => exact .noMembers rfl rfl
    | cons ht hts =>
      have hms : WritesAs ReadsMembers (joinWith "," _) _ :=
        WritesAs.joinWith (R := ReadsMember) .one .more (.cons ht hts) (List.cons_ne_nil _ _)
      exact .object rfl (hms.reads _ rfl) rfl

theorem writes_member {name : Text} (hname : name.all isPlain = true) (h : Writes t x) :
    WritesAs ReadsMember (member name t) (name, x) where
  printable := List.forall_mem_append.2 ⟨printable_quote fun b hb =>
    (isPlain_iff.1 (List.all_eq_true.1 hname b hb)).1, List.forall_mem_cons.2 ⟨rfl, h.printable⟩⟩
  reads v hv := by
    rw [member, List.append_assoc, List.cons_append]
    exact .mk (quoted_plain hname) rfl (h.reads v hv)

theorem writes_stringMember {name : Text} (hname : name.all isPlain = true) :
    WritesAs ReadsMember (stringMember name t) (entry name t) :=
  writes_member hname (writes_flatMap fun b _ => escapes_escapeByte b)

end Json
end Mismatch.Text
