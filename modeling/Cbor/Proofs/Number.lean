import Mathlib
import Cbor.Proofs.References
import Cbor.Proofs.Wire.Number

namespace Cbor

open Assembly
open Encoder (tree bignumTree fractionTree)

namespace Bignum

theorem length_le_iff (b : Bignum) :
    b.magnitude.length ≤ 8 ↔ b.magnitude.toNat < UInt64.size :=
  Octets.length_le_iff b.canonical

theorem isSome_word?_iff (b : Bignum) :
    b.word?.isSome = true ↔ b.magnitude.toNat < UInt64.size := by
  rw [← length_le_iff, word?]
  split <;> simp_all

theorem ofBignum_eq (b : Bignum) :
    Item.ofBignum b = if b.magnitude.toNat < UInt64.size then .ofInt b.toInt else .bignum b := by
  by_cases h : b.magnitude.toNat < UInt64.size
  · obtain ⟨n, hn⟩ := Option.isSome_iff_exists.1 (b.isSome_word?_iff.2 h)
    have hv : UInt64.ofNat b.magnitude.toNat = n := by
      rw [← toNat_word hn, UInt64.ofNat_toNat]
    rw [if_pos h, Item.ofBignum, Item.ofBignum?, hn, toInt, Option.map_some, Option.getD_some, ← hv]
    cases b.negative with
    | false => rfl
    | true =>
      have hi : (-1 - b.magnitude.toNat : Int) = .negSucc b.magnitude.toNat := by omega
      simp only [if_true, hi, Item.ofInt]
  · rw [if_neg h, Item.ofBignum, Item.ofBignum?,
      Option.not_isSome_iff_eq_none.1 (mt b.isSome_word?_iff.1 h)]
    rfl

end Bignum

/-- Options of reading that have the groups of tags that other options of writing have, and room for
all that these write without references. -/
structure ReadsNumbers (o : Encoder.Options) (p : Decoder.Options) : Prop where
  check : p.check = .ok ()
  items : p.flags.contains .edn = false
  groups : p.groups = o.groups
  stringRef : o.stringRef = .off
  unannounced : o.flags.contains .selfDescribe = true → p.flags.contains .selfDescribe = false
  room : o.maxDepth ≤ p.maxDepth
  maxSize : p.maxSize < UInt64.size

theorem readsNumbers_groups (groups : Tag.Groups) : ReadsNumbers { groups } { groups } where
  check := show ({} : Decoder.Options).check = .ok () from rfl
  items := show Flags.standard.contains .edn = false by decide
  groups := rfl
  stringRef := rfl
  unannounced _ := show Flags.standard.contains .selfDescribe = false by decide
  room := Nat.le_refl defaultMaxDepth
  maxSize := show ({} : Decoder.Options).maxSize < UInt64.size by decide

variable {o : Encoder.Options} {p : Decoder.Options}

theorem unprefixed_bignumTree {b : Bignum} {depth : Nat} {w : Wire}
    (h : bignumTree o b depth = .ok w) : w.unprefixed p = w := by
  unfold bignumTree at h
  split at h
  · cases h
    rfl
  · obtain ⟨_, _, h⟩ := bind_eq_ok.1 h
    cases h
    exact Wire.unprefixed_tag (by cases b.negative <;> decide) _

theorem unprefixed_fractionTree {number : UInt64} (hn : number ≠ Tag.selfDescribe) {q : Fraction}
    {depth : Nat} {w : Wire} (h : fractionTree o number q depth = .ok w) : w.unprefixed p = w := by
  simp only [fractionTree, bind_eq_ok] at h
  obtain ⟨_, _, _, _, m, _, h⟩ := h
  cases h
  exact Wire.unprefixed_tag hn _

namespace ReadsNumbers

variable (h : ReadsNumbers o p) {v : Item} {b data : Octets}

include h

theorem exists_tree (he : encode v o = .ok b) (hi : data.window p.offset p.length = b)
    (hs : b.length ≤ p.maxSize) : ∃ r, tree o false v 0 #[] = .ok r ∧
      (r.1.unprefixed p = r.1 →
        decode data p = (fun r ↦ r.1.native p.flags) <$> r.1.meaning p false {}) := by
  obtain ⟨-, r, hr, hd⟩ :=
    exists_tree_of_recalls (.inl h.stringRef) h.unannounced h.maxSize h.items he hi hs
  refine ⟨r, hr, fun hu ↦ ?_⟩
  rw [hd hu, h.check, ok_bind, Functor.map_map]

theorem decode_bignumTree {n : Bignum} {w : Wire} (hw : bignumTree o n 0 = .ok w)
    (hn : n.magnitude.toNat < UInt64.size ∨ o.groups.bignum = true)
    (hd : w.unprefixed p = w →
      decode data p = (fun r ↦ r.1.native p.flags) <$> w.meaning p false {}) :
    decode data p = .ok (if n.magnitude.toNat < UInt64.size then .ofInt n.toInt else .bignum n) := by
  have hreading : n.reading p = .ofBignum n := by
    rcases hn with hn | hg
    · exact Bignum.reading_of_word (n.isSome_word?_iff.2 hn)
    · exact Bignum.reading_of_group (h.groups ▸ hg) n
  rw [hd (unprefixed_bignumTree hw),
    Wire.reads_bignumTree h.room hw false {} (Nat.zero_le _) rfl, map_ok, hreading,
    Item.native_ofBignum, Bignum.ofBignum_eq]

/-- A fraction is read back, unless its mantissa is a bignum and bignums are off. -/
theorem decode_fractionTree {number : UInt64} (hn : number ∉ Tag.references)
    (hself : number ≠ Tag.selfDescribe) {make : Fraction → Item}
    (hmake : ∀ q, (make q).native p.flags = make q)
    (hi : ∀ content, Tag.interpret p.groups number content =
      some <$> make <$> Tag.fractionMeaning number content) {q : Fraction} {w : Wire}
    (hw : fractionTree o number q 0 = .ok w)
    (hd : w.unprefixed p = w →
      decode data p = (fun r ↦ r.1.native p.flags) <$> w.meaning p false {}) :
    decode data p =
      if q.mantissa.magnitude.toNat < UInt64.size ∨ o.groups.bignum = true then .ok (make q)
      else .error (.tagType number) := by
  rw [hd (unprefixed_fractionTree hself hw),
    Wire.meaning_fractionTree h.room hn hw false (Nat.zero_le _) rfl]
  split
  case isTrue hm =>
    have hq : q.mantissa.reading p = .ofBignum q.mantissa := by
      rcases hm with hm | hg
      · exact Bignum.reading_of_word (q.mantissa.isSome_word?_iff.2 hm)
      · exact Bignum.reading_of_group (h.groups ▸ hg) _
    rw [Wire.tagged_fraction hi hq, map_ok, map_ok, hmake]
  case isFalse hm =>
    simp only [not_or, Bool.not_eq_true] at hm
    have hw := Option.not_isSome_iff_eq_none.1 (mt q.mantissa.isSome_word?_iff.1 hm.1)
    rw [Wire.tagged_fraction_of_wide hi (h.groups ▸ hm.2) hw]
    rfl

end ReadsNumbers

/-- With the same groups of tags on both sides, what a bignum or a fraction is written as is read as
the plain integer of the same value, where 64 bits can hold it, or as the bignum or fraction that it
was. A mantissa that 64 bits cannot hold is refused if fractions are on and bignums are off. -/
theorem decode_encode_number (h : ReadsNumbers o p) {b data : Octets}
    (hi : data.window p.offset p.length = b) (hs : b.length ≤ p.maxSize) :
    (∀ n : Bignum, encode (.bignum n) o = .ok b → decode data p =
      .ok (if n.magnitude.toNat < UInt64.size then .ofInt n.toInt else .bignum n)) ∧
    (∀ q : Fraction, encode (.decimal q) o = .ok b → decode data p =
      if q.exponent = 0 ∧ q.mantissa.magnitude.toNat < UInt64.size then
        .ok (.ofInt q.mantissa.toInt)
      else if q.mantissa.magnitude.toNat < UInt64.size ∨ o.groups.bignum = true then
        .ok (.decimal q)
      else .error (.tagType Tag.decimal)) ∧
    ∀ q : Fraction, encode (.bigFloat q) o = .ok b → decode data p =
      if q.mantissa.magnitude.toNat < UInt64.size ∨ o.groups.bignum = true then .ok (.bigFloat q)
      else .error (.tagType Tag.bigFloat) := by
  refine ⟨fun n he ↦ ?_, fun q he ↦ ?_, fun q he ↦ ?_⟩
  · obtain ⟨r, hr, hd⟩ := h.exists_tree he hi hs
    simp only [tree, bind_eq_ok] at hr
    obtain ⟨_, hg, w, hw, hr⟩ := hr
    cases hr
    exact h.decode_bignumTree hw (.inr (Encoder.checkGroup_eq_ok.1 hg)) hd
  · obtain ⟨r, hr, hd⟩ := h.exists_tree he hi hs
    simp only [tree, bind_eq_ok] at hr
    obtain ⟨_, hg, w, hw, hr⟩ := hr
    cases hr
    rw [Encoder.decimalTree] at hw
    simp only [Bignum.isSome_word?_iff] at hw
    split at hw
    case isTrue hq =>
      rw [h.decode_bignumTree hw (.inl hq.2) hd, if_pos hq, if_pos hq.2]
    case isFalse hq =>
      rw [if_neg hq]
      have hg : p.groups.decimal = true := h.groups ▸ Encoder.checkGroup_eq_ok.1 hg
      exact h.decode_fractionTree (by decide) (by decide) (fun _ ↦ rfl)
        (Tag.interpret_decimal hg) hw hd
  · obtain ⟨r, hr, hd⟩ := h.exists_tree he hi hs
    simp only [tree, bind_eq_ok] at hr
    obtain ⟨_, hg, w, hw, hr⟩ := hr
    cases hr
    have hg : p.groups.decimal = true := h.groups ▸ Encoder.checkGroup_eq_ok.1 hg
    exact h.decode_fractionTree (by decide) (by decide) (fun _ ↦ rfl)
      (Tag.interpret_bigFloat hg) hw hd

/-- The bigfloat `(-1 - 2 ^ 64) * 2 ^ -3`, with bignums and fractions on and nothing else. -/
theorem decode_encode_number_negative :
    let groups : Tag.Groups := { dateTime := false, uri := false }
    let q : Fraction :=
      { exponent := -3
        mantissa := { negative := true, magnitude := [1, 0, 0, 0, 0, 0, 0, 0, 0] } }
    let b : Octets := [0xC5, 0x82, 0x22, 0xC3, 0x49, 1, 0, 0, 0, 0, 0, 0, 0, 0]
    encode (.bigFloat q) { groups } = .ok b ∧ decode b { groups } = .ok (.bigFloat q) := by
  intro groups q b
  have he : encode (.bigFloat q) { groups } = .ok b := by cbv
  have h := decode_encode_number (readsNumbers_groups groups) (show b.window 0 none = b from rfl)
    (by decide)
  exact ⟨he, (h.2.2 q he).trans (if_pos (.inr rfl))⟩

/-- With fractions on and bignums off, the decimal fraction `2 ^ 64 * 10` is written and not read. -/
theorem decode_encode_number_unread :
    ¬ ∀ (groups : Tag.Groups) (q : Fraction) (b : Octets),
      encode (.decimal q) { groups } = .ok b → decode b { groups } = .ok (.decimal q) := by
  intro h
  let groups : Tag.Groups := { bignum := false }
  let q : Fraction := { exponent := 1, mantissa := { magnitude := [1, 0, 0, 0, 0, 0, 0, 0, 0] } }
  let b : Octets := [0xC4, 0x82, 0x01, 0xC2, 0x49, 1, 0, 0, 0, 0, 0, 0, 0, 0]
  have he : encode (.decimal q) { groups } = .ok b := by cbv
  have hd : decode b { groups := { bignum := false } } = .error (.tagType Tag.decimal) :=
    (Wire.decode_octets (w := .tag Tag.decimal (.array false [.scalar (.unsigned 1),
      .tag Tag.positiveBignum (.string false [1, 0, 0, 0, 0, 0, 0, 0, 0])])) rfl (by decide)
      (by decide) (by decide)).trans rfl
  have hback := h groups q b he
  rw [hd] at hback
  cases hback

end Cbor
