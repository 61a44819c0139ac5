import Mathlib
import Cbor.Json.Conversion
import Cbor.Proofs.Bignum.Value
import Cbor.Proofs.Text.Decimal

namespace Cbor

namespace Numeral

theorem ofInt_inj {m n : Int} : ofInt m = ofInt n ↔ m = n := by
  refine ⟨fun h ↦ Option.some.inj ?_, congrArg ofInt⟩
  rw [← canonicalInt?_ofInt m, h, canonicalInt?_ofInt]

theorem isDigit_of_mem_ofInt {n : Int} {c : Char} (h : c ∈ ofInt n) :
    c.isDigit = true ∨ c = '-' := by
  cases n with
  | ofNat n => exact .inl (isDigit_of_mem_ofNat c h)
  | negSucc n =>
    rcases List.mem_cons.1 h with hc | hc
    · exact .inr hc
    · exact .inl (isDigit_of_mem_ofNat c hc)

theorem not_mem_ofInt (n : Int) {c : Char} (h : c ∈ ['e', 'p', 'x']) : c ∉ ofInt n := by
  intro hc
  simp only [List.mem_cons, List.not_mem_nil, or_false] at h
  rcases h with rfl | rfl | rfl
  all_goals exact absurd (isDigit_of_mem_ofInt hc) (by decide)

end Numeral

namespace Bignum

theorem toInt128?_eq_none {b : Bignum} : b.toInt128? = none ↔ 2 ^ 127 ≤ b.magnitude.toNat := by
  rw [toInt128?, Option.map_eq_none_iff]
  refine ⟨fun h ↦ Nat.not_lt.1 fun hlt ↦ ?_, signed?_eq_none⟩
  obtain ⟨n, hn, -⟩ := exists_signed? hlt
  cases hn.symm.trans h

theorem eq_of_toInt128? {b c : Bignum} {n : Int} (hb : b.toInt128? = some n)
    (hc : c.toInt128? = some n) : b = c := by
  obtain ⟨-, -, hb⟩ := toInt128?_eq_some.1 hb
  obtain ⟨-, -, hc⟩ := toInt128?_eq_some.1 hc
  exact toInt_inj.1 (hb.symm.trans hc)

theorem eq_of_parts {b c : Bignum} (hs : b.negative = c.negative)
    (hm : b.magnitude = c.magnitude) : b = c := by
  obtain ⟨s, m, hb⟩ := b
  obtain ⟨t, n, hc⟩ := c
  obtain rfl : s = t := hs
  obtain rfl : m = n := hm
  rfl

/-- No difference but in the sign, of numbers that no word of 128 bits can hold. -/
structure Mirrored (b c : Bignum) : Prop where
  magnitude : b.magnitude = c.magnitude
  wide : 2 ^ 127 ≤ b.magnitude.toNat

end Bignum

namespace Json

theorem ofChars_inj {s t : List Char} : ofChars s = ofChars t ↔ s = t := by
  rw [ofChars, ofChars, string.injEq, String.ofList_inj]

theorem hexNumeral_inj {b c : Octets} : hexNumeral b = hexNumeral c ↔ b = c := by
  rw [hexNumeral, hexNumeral, List.cons.injEq, List.cons.injEq, Octets.hex_inj]
  exact ⟨fun h ↦ h.2.2, fun h ↦ ⟨rfl, rfl, h⟩⟩

theorem mem_hexNumeral (b : Octets) : 'x' ∈ hexNumeral b :=
  List.mem_cons_of_mem _ List.mem_cons_self

theorem ofInt_inj {m n : Int} : ofInt m = ofInt n ↔ m = n := by
  refine ⟨fun h ↦ ?_, congrArg ofInt⟩
  unfold ofInt at h
  split at h <;> split at h
  · rwa [int, int, number.injEq, Number.int.injEq] at h
  · cases h
  · cases h
  · exact Numeral.ofInt_inj.1 (ofChars_inj.1 h)

theorem ofInt_ne_ofChars (n : Int) {s : List Char} (hs : 'x' ∈ s) : ofInt n ≠ ofChars s := by
  unfold ofInt
  split
  · exact nofun
  · rw [ne_eq, ofChars_inj]
    rintro rfl
    exact Numeral.not_mem_ofInt n (by decide) hs

theorem ofBignum_inj {b c : Bignum} : ofBignum b = ofBignum c ↔ b = c := by
  refine ⟨fun h ↦ ?_, congrArg ofBignum⟩
  have hmem (s : Bool) (m : Octets) : 'x' ∈ (if s then ['~'] else []) ++ hexNumeral m :=
    List.mem_append_right _ (mem_hexNumeral m)
  unfold ofBignum at h
  cases hb : b.toInt128? with
  | some m =>
    cases hc : c.toInt128? with
    | some n =>
      simp only [hb, hc] at h
      obtain rfl := ofInt_inj.1 h
      exact Bignum.eq_of_toInt128? hb hc
    | none =>
      simp only [hb, hc] at h
      exact absurd h (ofInt_ne_ofChars m (hmem _ _))
  | none =>
    cases hc : c.toInt128? with
    | some n =>
      simp only [hb, hc] at h
      exact absurd h.symm (ofInt_ne_ofChars n (hmem _ _))
    | none =>
      simp only [hb, hc, ofChars_inj] at h
      -- the tilde tells the signs apart
      cases hs : b.negative <;> cases ht : c.negative <;> rw [hs, ht] at h
      · exact Bignum.eq_of_parts (hs.trans ht.symm) (hexNumeral_inj.1 h)
      · cases h
      · cases h
      · exact Bignum.eq_of_parts (hs.trans ht.symm) (hexNumeral_inj.1 (List.cons.inj h).2)

theorem mantissa_eq_iff {b c : Bignum} : mantissa b = mantissa c ↔ b = c ∨ b.Mirrored c := by
  constructor
  · intro h
    unfold mantissa at h
    cases hb : b.toInt128? with
    | some m =>
      cases hc : c.toInt128? with
      | some n =>
        simp only [hb, hc] at h
        obtain rfl := Numeral.ofInt_inj.1 h
        exact .inl (Bignum.eq_of_toInt128? hb hc)
      | none =>
        simp only [hb, hc] at h
        exact absurd (h ▸ mem_hexNumeral c.magnitude) (Numeral.not_mem_ofInt m (by decide))
    | none =>
      cases hc : c.toInt128? with
      | some n =>
        simp only [hb, hc] at h
        exact absurd (h ▸ mem_hexNumeral b.magnitude) (Numeral.not_mem_ofInt n (by decide))
      | none =>
        simp only [hb, hc] at h
        exact .inr ⟨hexNumeral_inj.1 h, Bignum.toInt128?_eq_none.1 hb⟩
  · rintro (rfl | ⟨hm, hw⟩)
    · rfl
    · have hb := Bignum.toInt128?_eq_none.2 hw
      have hc := Bignum.toInt128?_eq_none.2 (hm ▸ hw)
      simp only [mantissa, hb, hc, hm]

theorem eq_of_append_cons {c : Char} {s t u v : List Char} (hu : c ∉ u) (hv : c ∉ v)
    (h : s ++ c :: u = t ++ c :: v) : s = t ∧ u = v := by
  rcases List.append_eq_append_iff.1 h with ⟨w, rfl, hw⟩ | ⟨w, rfl, hw⟩
  · cases w with
    | nil => exact ⟨(List.append_nil s).symm, (List.cons.inj hw).2⟩
    | cons d w =>
      refine absurd ?_ hu
      rw [(List.cons.inj hw).2]
      exact List.mem_append_right _ List.mem_cons_self
  · cases w with
    | nil => exact ⟨List.append_nil t, (List.cons.inj hw).2.symm⟩
    | cons d w =>
      refine absurd ?_ hv
      rw [(List.cons.inj hw).2]
      exact List.mem_append_right _ List.mem_cons_self

theorem ofFraction_eq_iff {base : Char} (hb : base ∈ ['e', 'p', 'x']) {f g : Fraction} :
    ofFraction base f = ofFraction base g ↔
      f.exponent = g.exponent ∧ (f.mantissa = g.mantissa ∨ f.mantissa.Mirrored g.mantissa) := by
  have hexp (n : Int) : base ∉ Numeral.ofInt n := Numeral.not_mem_ofInt n hb
  rw [ofFraction, ofFraction, ofChars_inj]
  constructor
  · intro h
    obtain ⟨hm, he⟩ := eq_of_append_cons (hexp _) (hexp _) h
    exact ⟨Int64.toInt_inj.1 (Numeral.ofInt_inj.1 he), mantissa_eq_iff.1 hm⟩
  · rintro ⟨he, hm⟩
    rw [he, mantissa_eq_iff.2 hm]

end Json

/-- Bignums are shown alike only if they are the same, and fractions only if their exponents are the
same and their mantissas too, up to the sign of a mantissa beyond 128 bits. -/
theorem toJson_number_eq_iff (b c : Bignum) (f g : Fraction) :
    ((Item.bignum b).toJson = (Item.bignum c).toJson ↔ b = c) ∧
    ((Item.decimal f).toJson = (Item.decimal g).toJson ↔ f.exponent = g.exponent ∧
      (f.mantissa = g.mantissa ∨ f.mantissa.Mirrored g.mantissa)) ∧
    ((Item.bigFloat f).toJson = (Item.bigFloat g).toJson ↔ f.exponent = g.exponent ∧
      (f.mantissa = g.mantissa ∨ f.mantissa.Mirrored g.mantissa)) :=
  ⟨Json.ofBignum_inj, Json.ofFraction_eq_iff (by decide), Json.ofFraction_eq_iff (by decide)⟩

/-- The sign of a wide mantissa is not shown: that of 2 ^ 128 and that of -1 - 2 ^ 128 look the
same. -/
theorem toJson_fraction_mirrored :
    ¬ ∀ f g : Fraction, f.exponent ≠ g.exponent ∨ f.mantissa ≠ g.mantissa →
      (Item.decimal f).toJson ≠ (Item.decimal g).toJson ∧
        (Item.bigFloat f).toJson ≠ (Item.bigFloat g).toJson := by
  intro h
  let wide : Octets := 1 :: List.replicate 16 0
  let f : Fraction := ⟨1, .ofOctets false wide⟩
  let g : Fraction := ⟨1, .ofOctets true wide⟩
  have hne : f.mantissa ≠ g.mantissa := by decide
  have hm : f.mantissa.Mirrored g.mantissa := ⟨rfl, by decide⟩
  exact (h f g (.inr hne)).1 ((Json.ofFraction_eq_iff (by decide)).2 ⟨rfl, .inr hm⟩)

end Cbor
