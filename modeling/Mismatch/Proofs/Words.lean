import Mismatch.Text.Basic

/-!
# Words and numbers

A word of bytes of some class ends where another byte comes. A number is written with digits only,
without leading zeros, and can be read back from them.
-/

namespace Mismatch.Text

/-- Two texts of some bytes are the same if what follows them starts with other bytes. -/
theorem append_inj_of_takeWhile {p : UInt8 → Bool} {w w' u v : Text} (hw : ∀ b ∈ w, p b = true)
    (hw' : ∀ b ∈ w', p b = true) (hu : u.takeWhile p = []) (hv : v.takeWhile p = [])
    (e : w ++ u = w' ++ v) : w = w' ∧ u = v := by
  have h := congrArg (List.takeWhile p) e
  rw [List.takeWhile_append_of_pos hw, List.takeWhile_append_of_pos hw', hu, hv,
    List.append_nil, List.append_nil] at h
  subst h
  exact ⟨rfl, List.append_cancel_left e⟩

/-! ## Decimal numbers -/

theorem byte_toNat {c : Char} (h : c.isDigit = true) :
    (byte c).toNat = c.toNat ∧ 48 ≤ c.toNat ∧ c.toNat ≤ 57 := by
  obtain ⟨hl, hr⟩ := Bool.and_eq_true_iff.1 h
  have hl' : 48 ≤ c.toNat := UInt32.le_iff_toNat_le.1 (of_decide_eq_true hl)
  have hr' : c.toNat ≤ 57 := UInt32.le_iff_toNat_le.1 (of_decide_eq_true hr)
  have hb : (byte c).toNat = c.toNat % 256 := UInt32.toNat_toUInt8 c.val
  omega

theorem isDigit_ofNat {n : Nat} : ∀ b ∈ ofNat n, isDigit b = true := by
  intro b hb
  obtain ⟨c, hc, rfl⟩ := List.mem_map.1 hb
  obtain ⟨e, hl, hr⟩ := byte_toNat (Nat.isDigit_of_mem_toDigits (by decide) (by decide) hc)
  refine Bool.and_eq_true_iff.2 ⟨decide_eq_true ?_, decide_eq_true ?_⟩
  · exact UInt8.le_iff_toNat_le.2 (e ▸ hl)
  · exact UInt8.le_iff_toNat_le.2 (e ▸ hr)

/-- The number that decimal digits stand for. -/
def digits (w : Text) : Nat := Nat.ofDigitChars 10 (w.map fun b => Char.ofNat b.toNat) 0

theorem digits_ofNat (n : Nat) : digits (ofNat n) = n := by
  have hchars : ((ofNat n).map fun b => Char.ofNat b.toNat) = Nat.toDigits 10 n := by
    rw [ofNat, List.map_map]
    refine (List.map_congr_left fun c hc => ?_).trans (List.map_id _)
    have hdigit := Nat.isDigit_of_mem_toDigits (by decide) (by decide) hc
    rw [Function.comp_apply, (byte_toNat hdigit).1, Char.ofNat_toNat, id]
  rw [digits, hchars, Nat.ofDigitChars_ten_toDigits]

theorem ofNat_inj {m n : Nat} (h : ofNat m = ofNat n) : m = n := by
  rw [← digits_ofNat m, h, digits_ofNat]

theorem ofNat_of_lt {n : Nat} (h : n < 10) : ofNat n = [byte n.digitChar] := by
  rw [ofNat, Nat.toDigits_of_lt_base h]
  rfl

theorem ofNat_of_le {n : Nat} (h : 10 ≤ n) :
    ofNat n = ofNat (n / 10) ++ [byte (n % 10).digitChar] := by
  rw [ofNat, Nat.toDigits_of_base_le (by decide) h, List.map_append]
  rfl

/-- The digits of a positive number do not start with a zero. -/
theorem exists_ofNat_eq_cons (n : Nat) :
    ∃ d ds, ofNat n = d :: ds ∧ (0 < n → d ≠ byte '0') := by
  induction n using Nat.strongRecOn with
  | ind n ih =>
    by_cases h : n < 10
    · have hdigit : ∀ k < 10, 0 < k → byte k.digitChar ≠ byte '0' := by decide
      exact ⟨_, [], ofNat_of_lt h, hdigit n h⟩
    · obtain ⟨d, ds, he, hd⟩ := ih (n / 10) (by omega)
      refine ⟨d, ds ++ [byte (n % 10).digitChar], ?_, fun _ => hd (by omega)⟩
      rw [ofNat_of_le (by omega), he]
      rfl

end Mismatch.Text
