import Cbor.Text.Numeral

namespace Cbor.Numeral

theorem toDigits_digit {c : Char} (h : c.isDigit) : Nat.toDigits 10 (c.toNat - 48) = [c] := by
  obtain ⟨hl, hh⟩ := Char.isDigit_iff_toNat.1 h
  have hl : 48 ≤ c.toNat := hl
  have hh : c.toNat ≤ 57 := hh
  rw [Nat.toDigits_of_lt_base (by omega)]
  congr 1
  apply Char.toNat_inj.1
  rw [Nat.toNat_digitChar_of_lt_ten (by omega)]
  omega

theorem toDigits_ofDigitChars_of_pos {n : Nat} (hn : 0 < n) {s : List Char}
    (h : s.all Char.isDigit) :
    Nat.toDigits 10 (Nat.ofDigitChars 10 s n) = Nat.toDigits 10 n ++ s := by
  induction s generalizing n with
  | nil => simp
  | cons c s ih =>
    obtain ⟨hc, hs⟩ : c.isDigit ∧ s.all Char.isDigit := by simpa using h
    have hlt : c.toNat - 48 < 10 := by
      have := (Char.isDigit_iff_toNat.1 hc).2
      have : c.toNat ≤ 57 := this
      omega
    have hzero : '0'.toNat = 48 := rfl
    rw [Nat.ofDigitChars_cons, hzero, ih (by omega) hs,
      ← Nat.toDigits_append_toDigits (by decide) hn hlt, toDigits_digit hc]
    simp

theorem ofNat_of_nat? {c : Char} {s : List Char} {n : Nat} (hc : c ≠ '0')
    (h : nat? (c :: s) = some n) : ofNat n = c :: s := by
  unfold nat? at h
  split at h
  · rename_i hd
    obtain ⟨hdc, hds⟩ : c.isDigit ∧ s.all Char.isDigit := by simpa using hd.2
    cases h
    have hpos : 0 < c.toNat - '0'.toNat := by
      have hl : 48 ≤ c.toNat := (Char.isDigit_iff_toNat.1 hdc).1
      have hne : c.toNat ≠ 48 := fun he ↦ hc (Char.toNat_inj.1 he)
      have hzero : '0'.toNat = 48 := rfl
      omega
    rw [ofNat, Nat.ofDigitChars_cons, Nat.mul_zero, Nat.zero_add,
      toDigits_ofDigitChars_of_pos hpos hds]
    exact congrArg (· ++ s) (toDigits_digit hdc)
  · cases h

theorem ofNat_of_canonicalNat? {s : List Char} {n : Nat} (h : canonicalNat? s = some n) :
    ofNat n = s := by
  unfold canonicalNat? at h
  split at h
  · cases h
    rfl
  · cases h
  · rename_i hz
    cases s with
    | nil => cases h
    | cons c s => exact ofNat_of_nat? (fun hc ↦ hz s (hc ▸ rfl)) h

theorem ofInt_of_canonicalInt? {s : List Char} {n : Int} (h : canonicalInt? s = some n) :
    ofInt n = s := by
  unfold canonicalInt? at h
  split at h
  · split at h
    · rename_i hm
      cases h
      rw [ofInt, ofNat_of_canonicalNat? hm]
    · cases h
  · obtain ⟨m, hm, rfl⟩ := Option.map_eq_some_iff.1 h
    exact ofNat_of_canonicalNat? hm

theorem length_padded {width n : Nat} (hw : 0 < width) (hn : n < Nat.pow 10 width) :
    (padded width n).length = width := by
  have hl := (Nat.length_toDigits_le_iff (by decide) hw).2 hn
  rw [padded, ofNat, List.length_leftpad, Nat.max_eq_left hl]

theorem isDigit_of_mem_ofNat {n : Nat} : ∀ c ∈ ofNat n, c.isDigit = true :=
  fun _ hc ↦ Nat.isDigit_of_mem_toDigits (by decide) (by decide) hc

theorem ofDigitChars_ofNat (n : Nat) : Nat.ofDigitChars 10 (ofNat n) 0 = n :=
  Nat.ofDigitChars_toDigits (by decide) (by decide)

theorem isDigit_of_mem_padded {width n : Nat} : ∀ c ∈ padded width n, c.isDigit = true := by
  intro c hc
  rcases List.mem_append.1 hc with hc | hc
  · rw [List.eq_of_mem_replicate hc]
    rfl
  · exact isDigit_of_mem_ofNat c hc

theorem ofDigitChars_padded (width n : Nat) : Nat.ofDigitChars 10 (padded width n) 0 = n := by
  rw [padded, List.leftpad, Nat.ofDigitChars_append, Nat.ofDigitChars_replicate_zero, Nat.mul_zero,
    ofDigitChars_ofNat]

end Cbor.Numeral
