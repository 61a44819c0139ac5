import Cbor.Proofs.Encoder.Tree
import Cbor.Proofs.Flags
import Cbor.Proofs.Tag.Meaning
import Cbor.Proofs.Text.Numeral
import Cbor.Proofs.Text.Utf8
import Cbor.Proofs.Wire.Number

namespace Cbor

open Encoder (tree)
open Assembly
open Wire (Reads)

/-- Options of writing and of reading that understand each other, whatever they do about
references. -/
structure Matched (o : Encoder.Options) (p : Decoder.Options) : Prop where
  flags : p.flags = o.flags
  twoWay : o.flags.TwoWay
  maxDepth : p.maxDepth = o.maxDepth
  groups' : p.groups = {}
  maxSize : p.maxSize < UInt64.size

namespace Matched

variable {o : Encoder.Options} {p : Decoder.Options} (hp : Matched o p)

include hp

theorem depthLe : o.maxDepth ≤ p.maxDepth := Nat.le_of_eq hp.maxDepth.symm

theorem reading (b : Bignum) : b.reading p = .ofBignum b :=
  Bignum.reading_of_group (by rw [hp.groups']) b

/-- What may be written may be read, if there is room for anything at all. -/
theorem check (hd : o.check = .ok ()) (hs : p.maxSize ≠ 0) : p.check = .ok () := by
  have hc := hp.twoWay.checkReading
  have he := hp.twoWay.lacks .edn
  rw [← hp.flags] at hc he
  have hd : p.maxDepth ≤ maxDepthLimit := hp.maxDepth ▸ o.maxDepth_le_of_check hd
  rw [Decoder.Options.check, hc, ok_bind, if_neg (by omega), if_neg hs, he]
  rfl

end Matched

/-- The stamp of the moment, if it has one, says all about it. -/
def Moment.Stamped (t : Moment) : Prop :=
  ∀ s, Rfc3339.format? t = some s → Rfc3339.parse? (Utf8.encode s) = some t

namespace Encoder

open Emit

theorem integerKey?_eq_some {b : Octets} {n : Int} (h : integerKey? b = some n) :
    Utf8.encode (Numeral.ofInt n) = b ∧ -18446744073709551616 ≤ n ∧ n < 18446744073709551616 := by
  simp only [integerKey?, Option.bind_eq_bind, Option.bind_eq_some_iff] at h
  obtain ⟨s, hs, n', hn, h⟩ := h
  split at h
  · rename_i hr
    cases h
    exact ⟨by rw [Numeral.ofInt_of_canonicalInt? hn, Utf8.encode_decode? hs], hr⟩
  · cases h

theorem keyOctets_integer {f : Flags} (hf : f.contains .intKey = true) {n : Int}
    (hl : -18446744073709551616 ≤ n) (hh : n < 18446744073709551616) :
    (Scalar.integer n).item.keyOctets f = .ok (Utf8.encode (Numeral.ofInt n)) := by
  cases n with
  | ofNat n =>
    have hn : (UInt64.ofNat n).toNat = n := UInt64.toNat_ofNat_of_lt' (Int.ofNat_lt.1 hh)
    simp [Scalar.integer, Scalar.item, Item.keyOctets, hf, hn]
  | negSucc n =>
    have hn : (UInt64.ofNat n).toNat = n := UInt64.toNat_ofNat_of_lt' (by simp [UInt64.size]; omega)
    have hi : (-1 - n : Int) = .negSucc n := by omega
    simp [Scalar.integer, Scalar.item, Item.keyOctets, hf, hn, hi]

variable {o : Options} {p : Decoder.Options} (hp : Matched o p) {depth : Nat} {w : Wire}

include hp

theorem textTree_eq_ok {b : Octets} (h : textTree o b = .ok w) :
    w = .string true b ∧ checkText p b = .ok () := by
  unfold textTree at h
  split at h
  · cases h
  · rename_i hc
    cases h
    refine ⟨rfl, if_pos ?_⟩
    rw [hp.flags]
    simpa [Decidable.or_iff_not_imp_left] using hc

theorem reads_textTree {b : Octets} (h : textTree o b = .ok w) : Reads p depth w (.text b) := by
  obtain ⟨rfl, hc⟩ := textTree_eq_ok hp h
  exact Wire.reads_string fun _ ↦ hc

theorem reads_nativeTree {b : Octets} (h : nativeTree o b = .ok w) :
    ∃ raw, Reads p depth w raw ∧ raw.native p.flags = .string b := by
  unfold nativeTree at h
  split at h
  · rename_i ht
    exact ⟨_, reads_textTree hp h, by rw [Item.native, hp.flags, if_pos ht]⟩
  split at h
  · rename_i hb
    cases h
    exact ⟨_, Wire.reads_string nofun, by rw [Item.ofString, Item.native, hp.flags, if_pos hb]⟩
  · cases h

theorem mapKey_eq_ok {raw : Item} {b : Octets} (hb : b.head? ≠ some 0)
    (h : raw.keyOctets o.flags = .ok b) : raw.mapKey p.flags = .ok (.string b) := by
  rw [Item.mapKey, hp.flags, hp.twoWay.lacks .mapAsArray, h]
  simp [hb]

theorem reads_keyTree {b : Octets} (hb : b.head? ≠ some 0) (h : keyTree o b = .ok w) :
    ∃ raw, Reads p depth w raw ∧ raw.mapKey p.flags = .ok (.string b) := by
  rcases keyTree_cases h with ⟨n, rfl, hf, hn⟩ | ⟨rfl, ht, hc⟩ | ⟨rfl, hk⟩
  · obtain ⟨rfl, hl, hh⟩ := integerKey?_eq_some hn
    exact ⟨_, Wire.reads_scalar _, mapKey_eq_ok hp hb (keyOctets_integer hf hl hh)⟩
  · exact ⟨_, Wire.reads_string fun _ ↦ if_pos (hp.flags.symm ▸ hc),
      mapKey_eq_ok hp hb (by rw [Item.ofString, Item.keyOctets, if_pos ht])⟩
  · exact ⟨_, Wire.reads_string (absurd · Bool.false_ne_true),
      mapKey_eq_ok hp hb (by rw [Item.ofString, Item.keyOctets, if_pos hk])⟩

theorem reads_stampTree {t : Moment} (ht : t.Stamped) (h : stampTree o t depth = .ok w) :
    Reads p depth w (.dateTime t) := by
  unfold stampTree at h
  split at h
  · rename_i s hs
    obtain ⟨_, hd, h⟩ := bind_eq_ok.1 h
    cases h
    exact Wire.reads_interpreted hp.depthLe (by decide) (checkDepth_eq_ok.1 hd)
      (Wire.reads_string fun _ ↦ if_pos (.inr (Utf8.isValid_encode s)))
      (Tag.interpret_stamp (by rw [hp.groups']) (ht s hs))
  · cases h

theorem reads_ofBignum {b : Bignum} (h : bignumTree o b depth = .ok w) :
    Reads p depth w (.ofBignum b) := by
  exact hp.reading b ▸ Wire.reads_bignumTree hp.depthLe h

theorem reads_decimalTree {q : Fraction} (h : decimalTree o q depth = .ok w) :
    Reads p depth w (Item.decimal q).normal := by
  unfold decimalTree at h
  rw [Item.normal]
  split at h
  · rename_i hq
    rw [if_pos hq]
    exact reads_ofBignum hp h
  · rename_i hq
    rw [if_neg hq]
    exact Wire.reads_fractionTree hp.depthLe (by decide)
      (Wire.tagged_fraction (Tag.interpret_decimal (by rw [hp.groups'])) (hp.reading _)) h

/-- An atom is read back as its normal form. -/
theorem reads_atom {leaf : Item → Prop} (hl : ∀ t, leaf (.dateTime t) → t.Stamped) {v : Item}
    (ha : v.IsAtom) (hv : v.Formed o.flags leaf) {cells : CellTable}
    {r : Wire × CellTable} (h : tree o false v depth cells = .ok r) :
    ∃ raw, Reads p depth r.1 raw ∧ raw.native p.flags = v.normal := by
  cases v with
  | array | map | tag | shareable | custom | params => exact ha.elim
  | unsigned | negative | bool | null | undefined =>
    rw [tree] at h
    cases h
    exact ⟨_, Wire.reads_scalar _, rfl⟩
  | float16 bits =>
    rw [tree] at h
    cases h
    refine ⟨_, Wire.reads_scalar _, ?_⟩
    rw [hp.flags, Scalar.item, Item.native, hp.twoWay.lacks .float16]
    rfl
  | float32 bits =>
    rw [tree, hp.twoWay.lacks .cde] at h
    cases h
    refine ⟨_, Wire.reads_scalar _, ?_⟩
    rw [hp.flags, if_neg Bool.false_ne_true, Scalar.item, Item.native, hp.twoWay.lacks .float32]
    rfl
  | float64 bits =>
    rw [tree, Scalar.nativeFloat, hp.twoWay.lacks .cde, hp.twoWay.lacks .float16,
      hp.twoWay.lacks .float32] at h
    cases h
    exact ⟨_, Wire.reads_scalar _, rfl⟩
  | bytes b =>
    rw [tree] at h
    cases h
    have hb : o.flags.contains .byte = false := hv
    refine ⟨_, Wire.reads_string fun h ↦ absurd h Bool.false_ne_true, ?_⟩
    rw [hp.flags, Item.ofString, Item.native, hb]
    rfl
  | text b =>
    simp only [tree, bind_eq_ok] at h
    obtain ⟨w, hw, h⟩ := h
    cases h
    have hb : o.flags.contains .text = false := hv
    refine ⟨_, reads_textTree hp hw, ?_⟩
    rw [hp.flags, Item.native, hb]
    rfl
  | string b =>
    simp only [tree, Bool.false_eq_true, if_false, bind_eq_ok] at h
    obtain ⟨w, hw, h⟩ := h
    cases h
    exact reads_nativeTree hp hw
  | dateTime t =>
    simp only [tree, bind_eq_ok] at h
    obtain ⟨_, _, w, hw, h⟩ := h
    cases h
    exact ⟨_, reads_stampTree hp (hl t hv) hw, rfl⟩
  | bignum b =>
    simp only [tree, bind_eq_ok] at h
    obtain ⟨_, _, w, hw, h⟩ := h
    cases h
    exact ⟨_, reads_ofBignum hp hw, Item.native_ofBignum _ _⟩
  | decimal q =>
    simp only [tree, bind_eq_ok] at h
    obtain ⟨_, _, w, hw, h⟩ := h
    cases h
    refine ⟨_, reads_decimalTree hp hw, ?_⟩
    rw [Item.normal]
    split
    · exact Item.native_ofBignum _ _
    · rfl
  | bigFloat q =>
    simp only [tree, bind_eq_ok] at h
    obtain ⟨_, _, w, hw, h⟩ := h
    cases h
    exact ⟨_, Wire.reads_fractionTree hp.depthLe (by decide)
      (Wire.tagged_fraction (Tag.interpret_bigFloat (by rw [hp.groups'])) (hp.reading _)) hw,
      rfl⟩
  | uri u =>
    simp only [tree, bind_eq_ok, checkDepth_eq_ok] at h
    obtain ⟨_, _, _, hd, h⟩ := h
    cases h
    exact ⟨_, Wire.reads_interpreted hp.depthLe (by decide) hd
      (Wire.reads_string fun _ ↦ if_pos (.inr u.valid))
      (Tag.interpret_uri (by rw [hp.groups']) u), rfl⟩

end Encoder
end Cbor
