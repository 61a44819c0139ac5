import Cbor.Proofs.Bignum
import Cbor.Proofs.Tag.Meaning
import Cbor.Proofs.Wire.Tree

namespace Cbor

namespace Octets

theorem length_trimZeros_le (b : Octets) : b.trimZeros.length ≤ b.length :=
  (List.dropWhile_sublist _).length_le

theorem length_trimZeros_ofNat_le {width n k : Nat} (h : n < Nat.pow 256 k) :
    (ofNat width n).trimZeros.length ≤ k := by
  rcases Nat.le_total width k with hle | hle
  · have hl := length_trimZeros_le (ofNat width n)
    rw [length_ofNat] at hl
    omega
  · have hpad : (List.replicate (width - k) 0 ++ ofNat k n).length = width := by
      rw [List.length_append, List.length_replicate, length_ofNat]
      omega
    have heq := ofNat_toNat hpad
    rw [toNat_zeros_append, toNat_ofNat h] at heq
    rw [heq, trimZeros_zeros_append]
    exact Nat.le_trans (length_trimZeros_le _) (Nat.le_of_eq (length_ofNat k n))

end Octets

namespace Item

theorem one_le_footprint (i : Item) : 1 ≤ i.footprint := by
  cases i <;> simp [footprint]

theorem footprint_ofString (isText : Bool) (b : Octets) :
    (Item.ofString isText b).footprint = 1 + b.length := by
  cases isText <;> rfl

theorem footprint_native (f : Flags) (i : Item) : (i.native f).footprint = i.footprint := by
  cases i <;> simp only [native] <;> split <;> rfl

/-- Only integers become longer when they are made keys. -/
theorem footprint_mapKey_le {f : Flags}
    (hf : f.contains .intKey = false ∨ f.contains .mapAsArray = true) {raw key : Item}
    (h : raw.mapKey f = .ok key) : key.footprint ≤ raw.footprint := by
  unfold mapKey at h
  split at h
  · cases h
    exact Nat.le_of_eq (footprint_native f raw)
  · have hint : f.contains .intKey = false := hf.resolve_right ‹_›
    obtain ⟨b, hb, h⟩ := bind_eq_ok.1 h
    split at h <;> cases h
    cases raw with
    | bytes c | text c =>
      simp only [keyOctets] at hb
      split at hb <;> cases hb
      exact Nat.le_refl _
    | unsigned n | negative n =>
      simp only [keyOctets, hint, Bool.false_eq_true, if_false] at hb
      cases hb
    | _ => cases hb

theorem footprintEntries_append (es fs : List (Item × Item)) :
    footprintEntries (es ++ fs) = footprintEntries es + footprintEntries fs := by
  induction es with
  | nil => simp [footprintEntries]
  | cons e es ih =>
    simp only [List.cons_append, footprintEntries, ih]
    omega

theorem footprintEntries_modify_le (es : List (Item × Item)) (i : Nat) (value : Item) :
    footprintEntries (es.modify i fun e ↦ (e.1, value)) ≤
      footprintEntries es + value.footprint := by
  induction es generalizing i with
  | nil => cases i <;> exact Nat.zero_le _
  | cons e es ih =>
    cases i with
    | zero =>
      simp only [List.modify_zero_cons, footprintEntries]
      omega
    | succ i =>
      have := ih i
      simp only [List.modify_succ_cons, footprintEntries]
      omega

theorem footprint_insertEntry_le (f : Flags) (entries : Array (Item × Item)) (key value : Item) :
    footprintEntries (Assembly.insertEntry f entries key value).toList ≤
      footprintEntries entries.toList + (key.footprint + value.footprint) := by
  have hpush : footprintEntries (entries.push (key, value)).toList =
      footprintEntries entries.toList + (key.footprint + value.footprint) := by
    rw [Array.toList_push, footprintEntries_append]
    rfl
  unfold Assembly.insertEntry
  split
  · exact Nat.le_of_eq hpush
  · split
    · have := footprintEntries_modify_le entries.toList ‹Nat› value
      rw [Array.toList_modify]
      omega
    · exact Nat.le_of_eq hpush

def mantissaWidth : Item → Nat
  | unsigned n | negative n => (Octets.ofNat 8 n.toNat).trimZeros.length
  | _ => 0

theorem mantissaWidth_le (i : Item) : i.mantissaWidth ≤ 8 := by
  cases i with
  | unsigned n | negative n =>
    exact Nat.le_trans (Octets.length_trimZeros_le _) (Nat.le_of_eq (Octets.length_ofNat 8 _))
  | _ => exact Nat.zero_le _

theorem mantissaWidth_le_write {n : UInt64} (major : Nat) :
    (Octets.ofNat 8 n.toNat).trimZeros.length ≤ (Head.write major n).length := by
  have hn := n.toNat_lt
  have h (k : Nat) (hk : n.toNat < Nat.pow 256 k) : (Octets.ofNat 8 n.toNat).trimZeros.length ≤ k :=
    Octets.length_trimZeros_ofNat_le hk
  simp only [Head.write]
  split
  · exact h 1 (by simp only [Nat.pow_eq]; omega)
  split
  · exact Nat.le_trans (h 1 (by simp only [Nat.pow_eq]; omega)) (by simp)
  split
  · exact Nat.le_trans (h 2 (by simp only [Nat.pow_eq]; omega)) (by simp)
  split
  · exact Nat.le_trans (h 4 (by simp only [Nat.pow_eq]; omega)) (by simp)
  · exact Nat.le_trans (h 8 (by simp only [Nat.pow_eq]; omega)) (by simp)

end Item

namespace Tag

open Item

theorem length_mantissa {tag : UInt64} {i : Item} {b : Bignum}
    (h : mantissaMeaning tag i = .ok b) :
    b.magnitude.length = i.mantissaWidth ∨ i.footprint = 1 + b.magnitude.length := by
  cases i with
  | unsigned n | negative n =>
    cases h
    exact .inl rfl
  | bignum b' =>
    cases h
    exact .inr rfl
  | _ => cases h

/-- The fraction is no larger than its array, or its mantissa has been an integer. -/
theorem length_fraction {tag : UInt64} {content : Item} {f : Fraction}
    (h : fractionMeaning tag content = .ok f) :
    1 + f.mantissa.magnitude.length ≤ content.footprint ∨
      ∃ e m, content = .array [e, m] ∧ f.mantissa.magnitude.length = m.mantissaWidth := by
  unfold fractionMeaning at h
  split at h
  · rename_i e m
    simp only [bind_eq_ok] at h
    obtain ⟨_, _, b, hb, h⟩ := h
    cases h
    rcases length_mantissa hb with hw | hf
    · exact .inr ⟨e, m, rfl, hw⟩
    · left
      simp only [footprint, footprintAll, hf]
      omega
  all_goals cases h

theorem length_bignum {tag : UInt64} {content : Item} {b : Bignum}
    (h : bignumMeaning tag content = .ok b) : 1 + b.magnitude.length ≤ content.footprint := by
  unfold bignumMeaning at h
  split at h <;> cases h
  exact Nat.add_le_add_left (Octets.length_trimZeros_le _) 1

theorem length_uri {content : Item} {u : Uri} (h : uriMeaning content = .ok u) :
    1 + u.octets.length = content.footprint := by
  obtain ⟨b, hb, hu⟩ := bind_eq_ok.1 h
  have hu := orValueFault_eq_ok.1 hu
  unfold textContent at hb
  split at hb <;> cases hb
  unfold Uri.ofOctets? at hu
  split at hu <;> cases hu
  rfl

/-- What a tag makes of its content is no larger, unless it is a fraction. -/
theorem footprint_of_interpret {groups : Groups} {tag : UInt64} {content item : Item}
    (h : interpret groups tag content = .ok (some item)) :
    item.footprint ≤ content.footprint ∨
      groups.decimal = true ∧ ∃ e m, content = .array [e, m] ∧
        item.footprint = 1 + m.mantissaWidth := by
  obtain ⟨t, -, -, rfl⟩ | ⟨b, hb, -, rfl⟩ | ⟨f, hf, hg, hi⟩ | ⟨u, hu, -, rfl⟩ :=
    cases_of_interpret h
  · exact .inl content.one_le_footprint
  · exact .inl (length_bignum hb)
  · have hitem : item.footprint = 1 + f.mantissa.magnitude.length := by
      rcases hi with rfl | rfl <;> rfl
    rw [hitem]
    exact (length_fraction hf).imp_right fun ⟨e, m, hc, hw⟩ ↦ ⟨hg, e, m, hc, congrArg (1 + ·) hw⟩
  · exact .inl (Nat.le_of_eq (length_uri hu))

end Tag
end Cbor
