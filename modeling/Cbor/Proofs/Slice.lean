import Mathlib.Algebra.Group.Int.Defs
import Mathlib.Algebra.Group.Nat.Defs
import Cbor.Proofs.Decoder.Run

namespace Cbor

namespace Octets

theorem toInt_max (m n : Int64) : (max m n).toInt = max m.toInt n.toInt := by
  change (if m ≤ n then n else m).toInt = _
  by_cases h : m ≤ n
  · rw [if_pos h, Int.max_eq_right (Int64.le_iff_toInt_le.1 h)]
  · have hle := mt Int64.le_iff_toInt_le.2 h
    rw [if_neg h, Int.max_eq_left (by omega)]

theorem toInt_min (m n : Int64) : (min m n).toInt = min m.toInt n.toInt := by
  change (if m ≤ n then m else n).toInt = _
  by_cases h : m ≤ n
  · rw [if_pos h, Int.min_eq_left (Int64.le_iff_toInt_le.1 h)]
  · have hle := mt Int64.le_iff_toInt_le.2 h
    rw [if_neg h, Int.min_eq_right (by omega)]

theorem toInt_add_of_neg {m n : Int64} (hm : 0 ≤ m.toInt) (hn : n.toInt < 0) :
    (m + n).toInt = m.toInt + n.toInt := by
  have hlt := m.toInt_lt
  have hle := n.le_toInt
  rw [Int64.toInt_add, Int.bmod_eq_of_le]
  · omega
  · omega

theorem toInt_saturatedSum {m n : Int64} (hm : 0 ≤ m.toInt) (hn : 0 ≤ n.toInt) :
    (saturatedSum m n).toInt = min (m.toInt + n.toInt) (2 ^ 63 - 1) := by
  have hmin : Int64.minValue.toInt = -2 ^ 63 := rfl
  have hmax : Int64.maxValue.toInt = 2 ^ 63 - 1 := rfl
  rw [saturatedSum, Int64.ofIntClamp, dif_pos (by omega)]
  split
  · rw [Int64.toInt_ofIntLE]
    omega
  · omega

theorem neg_iff (n : Int64) : n < 0 ↔ n.toInt < 0 := Int64.lt_iff_toInt_lt

/-- Where a part of `size` octets begins, by a position that has no bounds. -/
def startIndex (size : Nat) (offset : Int) : Nat :=
  if offset < 0 then (size + offset).toNat else min offset.toNat size

def stopIndex (size start : Nat) : Option Int → Nat
  | none => size
  | some n => if n < 0 then max (size + n).toNat start else min (start + n.toNat) size

theorem startIndex_natCast (size offset : Nat) : startIndex size offset = min offset size := by
  rw [startIndex, if_neg (by omega), Int.toNat_natCast]

theorem stopIndex_natCast (size start n : Nat) :
    stopIndex size start (some (n : Int)) = min (start + n) size := by
  rw [stopIndex, if_neg (by omega), Int.toNat_natCast]

theorem startIndex_le (size : Nat) (offset : Int) : startIndex size offset ≤ size := by
  unfold startIndex
  split <;> omega

theorem stopIndex_bounds {size start : Nat} (h : start ≤ size) (length : Option Int) :
    start ≤ stopIndex size start length ∧ stopIndex size start length ≤ size := by
  unfold stopIndex
  split
  · exact ⟨h, (Nat.le_refl _)⟩
  · split <;> omega

theorem toInt_sliceStart {size : Nat} (h : size < 2 ^ 63) (offset : Int64) :
    (sliceStart (.ofNat size) offset).toInt = startIndex size offset.toInt := by
  have hsize := Int64.toInt_ofNat_of_lt h
  have hzero : (0 : Int64).toInt = 0 := rfl
  unfold sliceStart startIndex
  by_cases hn : offset < 0
  · have hneg := (neg_iff offset).1 hn
    rw [if_pos hn, if_pos hneg, toInt_max, toInt_add_of_neg (by omega) hneg, hsize, hzero]
    omega
  · have hneg := mt (neg_iff offset).2 hn
    rw [if_neg hn, if_neg hneg, toInt_min, hsize]
    omega

theorem toInt_sliceStop {size first : Nat} (h : size < 2 ^ 63) {start : Int64}
    (hs : start.toInt = first) (length : Option Int64) :
    (sliceStop (.ofNat size) start length).toInt =
      stopIndex size first (length.map Int64.toInt) := by
  have hsize := Int64.toInt_ofNat_of_lt h
  cases length with
  | none => exact hsize
  | some n =>
    simp only [sliceStop, Option.map_some, stopIndex]
    by_cases hn : n < 0
    · have hneg := (neg_iff n).1 hn
      rw [if_pos hn, if_pos hneg, toInt_max, toInt_add_of_neg (by omega) hneg, hsize]
      omega
    · have hneg := mt (neg_iff n).2 hn
      rw [if_neg hn, if_neg hneg, toInt_min, toInt_saturatedSum (by omega) (by omega), hsize]
      omega

theorem slice_eq {data : Octets} (h : data.length < 2 ^ 63) (offset : Int64)
    (length : Option Int64) :
    data.slice offset length = data.extract (startIndex data.length offset.toInt)
      (stopIndex data.length (startIndex data.length offset.toInt)
        (length.map Int64.toInt)) := by
  have hstart := toInt_sliceStart h offset
  have hstop := toInt_sliceStop h hstart length
  simp only [slice, ← Int64.toNat_toInt, hstart, hstop, Int.toNat_natCast]

/-- A window is the part of the string by positions that are not negative. -/
theorem window_eq (data : Octets) (start : Nat) (length : Option Nat) :
    data.window start length = data.extract (startIndex data.length start)
      (stopIndex data.length (startIndex data.length start) (length.map Int.ofNat)) := by
  have hdrop : data.drop (min start data.length) = data.drop start := by
    rcases Nat.le_total start data.length with hle | hle
    · rw [Nat.min_eq_left hle]
    · rw [Nat.min_eq_right hle, List.drop_of_length_le hle, List.drop_of_length_le (Nat.le_refl _)]
  rw [startIndex_natCast, List.extract_eq_take_drop, hdrop]
  cases length with
  | none =>
    have hlen : (data.drop start).length ≤ data.length - min start data.length := by
      rw [List.length_drop]
      omega
    rw [Option.map_none, stopIndex, List.take_of_length_le hlen, window]
  | some n =>
    have hstop := stopIndex_natCast data.length (min start data.length) n
    rw [Option.map_some, Int.ofNat_eq_natCast, hstop, window, List.take_eq_take_iff,
      List.length_drop]
    omega

end Octets

namespace Decoder

open Octets (sliceStart sliceStop saturatedSum startIndex stopIndex)

theorem eq_start_of_new {o : Options} {d : Decoder} (h : new o = .ok d) : d = start o := by
  obtain ⟨-, -, hd⟩ := bind_eq_ok.1 h
  cases hd
  rfl

theorem buffer_add_start {o : Options} {data : Octets} (h : data.length ≤ o.maxSize) :
    ((start o).add data).2.buffer = data := by
  simp [add, start, Nat.not_lt.2 h]

/-- Whatever the positions are, the sums of them are exact or saturated, both borders lie within the
data, and what is added is what is between them. Positions that are not negative select what decoding
at once selects by them. -/
theorem addRange_clamped {data : Octets} (hdata : data.length < 2 ^ 63) (offset : Int64)
    (length : Option Int64) :
    let size := Int64.ofNat data.length
    let start := sliceStart size offset
    let stop := sliceStop size start length
    let first := startIndex data.length offset.toInt
    let last := stopIndex data.length first (length.map Int64.toInt)
    (size.toInt = data.length ∧
      (offset < 0 → (size + offset).toInt = size.toInt + offset.toInt) ∧
      ∀ n ∈ length, (n < 0 → (size + n).toInt = size.toInt + n.toInt) ∧
        (0 ≤ n → (saturatedSum start n).toInt = min (start.toInt + n.toInt) (2 ^ 63 - 1))) ∧
    (0 ≤ start ∧ start ≤ stop ∧ stop ≤ size) ∧
    (start.toInt = first ∧ stop.toInt = last) ∧
    (∀ d : Decoder, d.addRange data offset length = d.add (data.extract first last)) ∧
    ∀ o d, new o = .ok d → (o.offset : Int) = offset.toInt →
      o.length.map Int.ofNat = length.map Int64.toInt →
      d.addRange data offset length = d.add (data.window o.offset o.length) ∧
        ((data.window o.offset o.length).length ≤ o.maxSize →
          (d.addRange data offset length).2.buffer = data.window o.offset o.length) := by
  intro size start stop first last
  have hsize : size.toInt = data.length := Int64.toInt_ofNat_of_lt hdata
  have hstart : start.toInt = first := Octets.toInt_sliceStart hdata offset
  have hstop : stop.toInt = last := Octets.toInt_sliceStop hdata hstart length
  have hfirst : first ≤ data.length := Octets.startIndex_le ..
  obtain ⟨hle, hlast⟩ : first ≤ last ∧ last ≤ data.length := Octets.stopIndex_bounds hfirst _
  have hsum (n : Int64) (hn : n < 0) : (size + n).toInt = size.toInt + n.toInt :=
    Octets.toInt_add_of_neg (by omega) ((Octets.neg_iff n).1 hn)
  refine ⟨⟨hsize, hsum offset, fun n _ ↦ ⟨hsum n, fun hn ↦ ?_⟩⟩, ⟨?_, ?_, ?_⟩, ⟨hstart, hstop⟩,
    fun d ↦ ?_, fun o d hd ho hl ↦ ?_⟩
  · exact Octets.toInt_saturatedSum (by omega) (Int64.le_iff_toInt_le.1 hn)
  · exact Int64.le_iff_toInt_le.2 (hstart ▸ Int.natCast_nonneg first)
  · exact Int64.le_iff_toInt_le.2 (by omega)
  · exact Int64.le_iff_toInt_le.2 (by omega)
  · rw [addRange, Octets.slice_eq hdata]
  · have hslice : data.slice offset length = data.window o.offset o.length := by
      rw [Octets.slice_eq hdata, Octets.window_eq, ho, hl]
    rw [addRange, hslice, eq_start_of_new hd]
    exact ⟨rfl, buffer_add_start⟩

/-- From before the first octet to behind the last one, from behind the last one to before the first
one, and two octets in the middle. -/
theorem addRange_clamped_extremes :
    let data : Octets := [0, 1, 2, 3]
    data.length < 2 ^ 63 ∧
    (∀ d : Decoder, d.addRange data .minValue (some .maxValue) = d.add data) ∧
    (∀ d : Decoder, d.addRange data .maxValue (some .minValue) = d.add []) ∧
    ((start { offset := 1, length := some 2 }).addRange data 1 (some 2)).2.buffer = [1, 2] := by
  intro data
  have hdata : data.length < 2 ^ 63 := by decide
  obtain ⟨-, -, -, hall, -⟩ := addRange_clamped hdata .minValue (some .maxValue)
  obtain ⟨-, -, -, hnone, -⟩ := addRange_clamped hdata .maxValue (some .minValue)
  obtain ⟨-, -, -, -, hmiddle⟩ := addRange_clamped hdata 1 (some 2)
  have hwindow := hmiddle { offset := 1, length := some 2 } _ rfl rfl rfl
  exact ⟨hdata, hall, hnone, hwindow.2 (by decide)⟩

end Decoder
end Cbor
