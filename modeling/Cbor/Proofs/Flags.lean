import Cbor.Flags

namespace Cbor.Flags

/-- The flags that say which strings are native, and how text is checked. -/
def strings : Flags := byte ||| text ||| intKey ||| keyByte ||| keyText ||| uncheckedText

theorem contains_eq_of_strings {f g : Flags} (h : f &&& strings = g &&& strings) {b : Flags}
    (hb : strings.contains b = true) : f.contains b = g.contains b := by
  have hb : strings.bits &&& b.bits = b.bits := of_decide_eq_true hb
  have hbits : f.bits &&& strings.bits = g.bits &&& strings.bits := congrArg Flags.bits h
  rw [contains, contains, ← hb, ← UInt32.and_assoc, hbits, UInt32.and_assoc]

/-- Native strings are at most one of the types on the wire, and native keys just one. There are no
flags but those of strings. -/
structure TwoWay (f : Flags) : Prop where
  onlyStrings : strings.contains f = true
  oneString : ¬ (f.contains byte = true ∧ f.contains text = true)
  oneKey : f.contains keyByte = !f.contains keyText

theorem and_eq_zero {a f : Flags} (h : a.contains f = true) {bits : UInt32}
    (hab : a.bits &&& bits = 0) : f.bits &&& bits = 0 := by
  have hf : a.bits &&& f.bits = f.bits := of_decide_eq_true h
  calc f.bits &&& bits = (a.bits &&& bits) &&& f.bits := by
        rw [UInt32.and_assoc, UInt32.and_comm bits, ← UInt32.and_assoc, hf]
    _ = 0 := by rw [hab, UInt32.zero_and]

namespace TwoWay

variable {f : Flags} (h : f.TwoWay)

include h

theorem lacks (b : Flags) (hb : strings.bits &&& b.bits = 0 ∧ b.bits ≠ 0 := by decide) :
    f.contains b = false :=
  decide_eq_false fun hf ↦ hb.2 (hf.symm.trans (and_eq_zero h.onlyStrings hb.1))

theorem checkReading : f.checkReading = .ok () := by
  have hknown : f.bits &&& ~~~all.bits = 0 := and_eq_zero h.onlyStrings (by decide)
  rw [Flags.checkReading, checkKnown, if_pos hknown, if_neg]
  · rfl
  · simp [h.lacks (.float16 ||| .float32)]

end TwoWay

section

variable {f g b : Flags}

theorem or_and_bits (f g : Flags) (bits : UInt32) :
    (f ||| g).bits &&& bits = f.bits &&& bits ||| g.bits &&& bits :=
  UInt32.toBitVec_inj.1 BitVec.and_or_distrib_right

theorem and_or_self (bits bits' : UInt32) : bits &&& bits' ||| bits' = bits' := by
  refine UInt32.toBitVec_inj.1 (BitVec.eq_of_getLsbD_eq fun i _ ↦ ?_)
  simp

theorem contains_or_right (f g : Flags) : (f ||| g).contains g = true := by
  refine decide_eq_true ?_
  rw [or_and_bits, UInt32.and_self, and_or_self]

theorem contains_or_left (g : Flags) (h : f.contains b = true) : (f ||| g).contains b = true := by
  have hf : f.bits &&& b.bits = b.bits := of_decide_eq_true h
  refine decide_eq_true ?_
  rw [or_and_bits, hf, UInt32.or_comm, and_or_self]

theorem contains_or_of_disjoint (h : g.bits &&& b.bits = 0) :
    (f ||| g).contains b = f.contains b := by
  rw [contains, contains, or_and_bits, h, UInt32.or_zero]

theorem checkReading_or (f : Flags) (hk : g.bits &&& ~~~all.bits = 0)
    (hg : g.bits &&& (float16 ||| float32).bits = 0) :
    (f ||| g).checkReading = f.checkReading := by
  rw [checkReading, checkReading, checkKnown, checkKnown, or_and_bits, hk, UInt32.or_zero,
    contains_or_of_disjoint hg]

end

theorem contains_cde_iff {f : Flags} :
    f.contains .cde = true ↔ f.bits.toBitVec.getLsbD 12 = true := by
  have hc : (cde.bits.toBitVec : BitVec 32) = BitVec.twoPow 32 12 := by decide
  rw [contains, decide_eq_true_iff, ← UInt32.toBitVec_inj, UInt32.toBitVec_and, hc,
    BitVec.and_twoPow]
  cases f.bits.toBitVec.getLsbD 12 <;> decide

theorem contains_cde_diff {f g : Flags} (h : f.contains .cde = true)
    (hg : g.contains .cde = false) : (f.diff g).contains .cde = true := by
  rw [← Bool.not_eq_true, contains_cde_iff, Bool.not_eq_true] at hg
  rw [contains_cde_iff] at h ⊢
  have hd : (f.diff g).bits.toBitVec =
      f.bits.toBitVec &&& (~~~ g.bits.toBitVec &&& all.bits.toBitVec) := rfl
  have hall : all.bits.toBitVec.getLsbD 12 = true := by decide
  rw [hd, BitVec.getLsbD_and, BitVec.getLsbD_and, BitVec.getLsbD_not, h, hg, hall]
  decide

theorem twoWay_standard : standard.TwoWay := ⟨by decide, by decide, by decide⟩

end Cbor.Flags
