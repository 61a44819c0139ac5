import Mathlib.Algebra.Group.Int.Defs
import Cbor.Proofs.Text.Numeral
import Cbor.Proofs.Text.Utf8

namespace Cbor.Numeral

theorem ascii_of_isDigit {c : Char} (h : c.isDigit = true) : c.toNat < 0x80 := by
  have hh : c.toNat ≤ 57 := (Char.isDigit_iff_toNat.1 h).2
  omega

theorem digit_octet {c : Char} (h : c.isDigit = true) :
    (48 ≤ UInt8.ofNat c.toNat ∧ UInt8.ofNat c.toNat ≤ 57) ∧
      (UInt8.ofNat c.toNat).toNat = c.toNat := by
  obtain ⟨hl, hh⟩ := Char.isDigit_iff_toNat.1 h
  have hl : 48 ≤ c.toNat := hl
  have hh : c.toNat ≤ 57 := hh
  have hn : (UInt8.ofNat c.toNat).toNat = c.toNat :=
    UInt8.toNat_ofNat_of_lt' (Nat.lt_of_le_of_lt hh (by decide))
  refine ⟨⟨?_, ?_⟩, hn⟩
  · rw [UInt8.le_iff_toNat_le, hn]
    exact hl
  · rw [UInt8.le_iff_toNat_le, hn]
    exact hh

theorem foldl_encode {s : List Char} (h : ∀ c ∈ s, c.isDigit = true) (init : Nat) :
    (Utf8.encode s).foldl (fun n x ↦ n * 10 + (x.toNat - 48)) init = Nat.ofDigitChars 10 s init := by
  induction s generalizing init with
  | nil => rfl
  | cons c s ih =>
    have hc := h c List.mem_cons_self
    rw [Utf8.encode_cons_of_ascii (ascii_of_isDigit hc), List.foldl_cons,
      ih fun c hc ↦ h c (List.mem_cons_of_mem _ hc), Nat.ofDigitChars_cons, (digit_octet hc).2,
      Nat.mul_comm]
    rfl

theorem length_encode {s : List Char} (h : ∀ c ∈ s, c.isDigit = true) :
    (Utf8.encode s).length = s.length := by
  rw [Utf8.encode_of_ascii fun c hc ↦ ascii_of_isDigit (h c hc), List.length_map]

theorem all_encode {s : List Char} (h : ∀ c ∈ s, c.isDigit = true) :
    (Utf8.encode s).all (fun x ↦ 48 ≤ x && x ≤ 57) = true := by
  rw [Utf8.encode_of_ascii fun c hc ↦ ascii_of_isDigit (h c hc), List.all_map, List.all_eq_true]
  intro c hc
  simpa using (digit_octet (h c hc)).1

/-- The octets are decimal digits of `n`, with a zero in front only as the number zero itself. -/
structure Digits (b : Octets) (n : Nat) : Prop where
  digit : ∀ x ∈ b, 48 ≤ x ∧ x ≤ 57
  nonempty : b ≠ []
  short : b.head? = some 48 → b = [48]
  value : b.foldl (fun n x ↦ n * 10 + (x.toNat - 48)) 0 = n

/-- There is no plus sign and no minus zero. -/
inductive Canonical : Octets → Int → Prop where
  | nonneg {b : Octets} {n : Nat} (h : Digits b n) : Canonical b n
  | neg {b : Octets} {n : Nat} (h : Digits b n) (hn : n ≠ 0) : Canonical (45 :: b) (-n)

theorem exists_ofNat_eq_cons {n : Nat} (h : n ≠ 0) : ∃ c s, ofNat n = c :: s ∧ c ≠ '0' := by
  induction n using Nat.strongRecOn with
  | ind n ih =>
    by_cases hlt : n < 10
    · refine ⟨n.digitChar, [], Nat.toDigits_of_lt_base hlt, fun hc ↦ h ?_⟩
      have hd := congrArg Char.toNat hc
      rw [Nat.toNat_digitChar_of_lt_ten hlt] at hd
      exact Nat.add_left_cancel hd
    · obtain ⟨c, s, hs, hc⟩ := ih (n / 10) (by omega) (by omega)
      have hn : 10 * (n / 10) + n % 10 = n := Nat.div_add_mod n 10
      have happ := Nat.toDigits_append_toDigits (b := 10) (by decide)
        (show 0 < n / 10 by omega) (Nat.mod_lt n (by decide))
      rw [hn] at happ
      exact ⟨c, s ++ Nat.toDigits 10 (n % 10), by rw [ofNat, ← happ, ← ofNat, hs]; rfl, hc⟩

theorem nat?_ofNat (n : Nat) : nat? (ofNat n) = some n := by
  have hne : ofNat n ≠ [] := Nat.toDigits_ne_nil
  rw [nat?, if_pos ⟨hne, List.all_eq_true.2 isDigit_of_mem_ofNat⟩, ofDigitChars_ofNat]

theorem canonicalNat?_ofNat (n : Nat) : canonicalNat? (ofNat n) = some n := by
  by_cases hn : n = 0
  · rw [hn]
    rfl
  · obtain ⟨c, s, hs, hc⟩ := exists_ofNat_eq_cons hn
    have hnat := nat?_ofNat n
    rw [hs] at hnat ⊢
    rw [canonicalNat?]
    · exact hnat
    · exact fun h ↦ hc (List.cons.inj h).1
    · exact fun _ h ↦ hc (List.cons.inj h).1

theorem canonicalInt?_ofInt (n : Int) : canonicalInt? (ofInt n) = some n := by
  cases n with
  | ofNat n =>
    have hminus : ∀ s, ofNat n ≠ '-' :: s := by
      intro s hs
      have hd := isDigit_of_mem_ofNat '-' (hs ▸ List.mem_cons_self)
      exact absurd hd (by decide)
    rw [ofInt, canonicalInt?, canonicalNat?_ofNat]
    · rfl
    · exact hminus
  | negSucc n => rw [ofInt, canonicalInt?, canonicalNat?_ofNat]

theorem digits_ofNat (n : Nat) : Digits (Utf8.encode (ofNat n)) n where
  digit x hx := by simpa using List.all_eq_true.1 (all_encode isDigit_of_mem_ofNat) x hx
  nonempty h := by
    have hl := length_encode (s := ofNat n) isDigit_of_mem_ofNat
    rw [h] at hl
    exact Nat.toDigits_ne_nil (List.length_eq_zero_iff.1 hl.symm)
  short h := by
    by_cases hn : n = 0
    · rw [hn]
      rfl
    · obtain ⟨c, s, hs, hc⟩ := exists_ofNat_eq_cons hn
      have hd := isDigit_of_mem_ofNat c (hs ▸ List.mem_cons_self)
      rw [hs, Utf8.encode_cons_of_ascii (ascii_of_isDigit hd), List.head?_cons] at h
      have hx := congrArg UInt8.toNat (Option.some.inj h)
      rw [(digit_octet hd).2] at hx
      exact absurd (Char.toNat_inj.1 hx) hc
  value := by rw [foldl_encode isDigit_of_mem_ofNat, ofDigitChars_ofNat]

theorem Digits.eq {b : Octets} {n : Nat} (h : Digits b n) : b = Utf8.encode (ofNat n) := by
  let s := b.map fun x ↦ Char.ofNat x.toNat
  have hc : ∀ x ∈ b, (Char.ofNat x.toNat).toNat = x.toNat := fun x hx ↦
    Utf8.toNat_ofNat (.inl (Nat.lt_trans x.toNat_lt (by decide)))
  have hd : ∀ c ∈ s, c.isDigit = true := by
    intro c hcs
    obtain ⟨x, hx, rfl⟩ := List.mem_map.1 hcs
    have hr := h.digit x hx
    simp only [UInt8.le_iff_toNat_le] at hr
    exact Char.isDigit_iff_toNat.2 ((hc x hx).symm ▸ hr)
  have hb : Utf8.encode s = b := by
    rw [Utf8.encode_of_ascii fun c hc ↦ ascii_of_isDigit (hd c hc), List.map_map]
    refine (List.map_congr_left fun x hx ↦ ?_).trans (List.map_id b)
    rw [Function.comp_apply, hc x hx, UInt8.ofNat_toNat, id]
  have hv : Nat.ofDigitChars 10 s 0 = n := by
    rw [← foldl_encode hd, hb]
    exact h.value
  rw [← hb]
  refine congrArg _ (ofNat_of_canonicalNat? ?_).symm
  by_cases hz : b.head? = some 48
  · have hzero : s = ['0'] := congrArg (List.map _) (h.short hz)
    rw [hzero] at hv ⊢
    exact congrArg some hv
  · have hhead : ∀ t, s ≠ '0' :: t := by
      intro t ht
      refine hz ?_
      rw [← hb, ht]
      rfl
    have hne : s ≠ [] := mt List.map_eq_nil_iff.1 h.nonempty
    rw [canonicalNat?, nat?, if_pos ⟨hne, List.all_eq_true.2 hd⟩, hv]
    · exact hhead []
    · exact hhead

/-- The canonical numeral of an integer is what the integer is printed as. -/
theorem canonical_iff {b : Octets} {n : Int} : Canonical b n ↔ b = Utf8.encode (ofInt n) := by
  have hminus (s : List Char) : Utf8.encode ('-' :: s) = 45 :: Utf8.encode s := rfl
  constructor
  · rintro (h | ⟨h, hn⟩)
    · exact h.eq
    · rename_i b n
      obtain ⟨m, rfl⟩ := Nat.exists_eq_succ_of_ne_zero hn
      exact (congrArg (45 :: ·) h.eq).trans (hminus _).symm
  · rintro rfl
    cases n with
    | ofNat n => exact .nonneg (digits_ofNat n)
    | negSucc n => exact .neg (digits_ofNat (n + 1)) n.succ_ne_zero

/-- The integer that digits spell, with a sign of either kind or none and zeros in front. -/
def int? : List Char → Option Int
  | '-' :: digits => (nat? digits).map fun n ↦ -Int.ofNat n
  | '+' :: digits => (nat? digits).map Int.ofNat
  | digits => (nat? digits).map Int.ofNat

def int128? (s : List Char) : Option Int :=
  (int? s).filter fun n ↦ -2 ^ 127 ≤ n ∧ n < 2 ^ 127

theorem int?_ofInt (n : Int) : int? (ofInt n) = some n := by
  have hsign {c : Char} {n : Nat} {s : List Char} (hs : ofNat n = c :: s) : c.isDigit = true :=
    isDigit_of_mem_ofNat c (hs ▸ List.mem_cons_self)
  cases n with
  | ofNat n =>
    rw [ofInt, int?, nat?_ofNat, Option.map_some]
    · exact fun _ hs ↦ absurd (hsign hs) (by decide)
    · exact fun _ hs ↦ absurd (hsign hs) (by decide)
  | negSucc n =>
    rw [ofInt, int?, nat?_ofNat, Option.map_some]
    rfl

theorem int128?_ofInt {n : Int} (hl : -2 ^ 127 ≤ n) (hh : n < 2 ^ 127) :
    int128? (ofInt n) = some n := by
  rw [int128?, int?_ofInt, Option.filter_some, if_pos (by simp only [hl, hh]; decide)]

end Cbor.Numeral
