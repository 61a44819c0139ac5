import Cbor.Proofs.Decoder.Trees

namespace Cbor

open Decoder (Options Product)
open Diagnostic (Transcript)

variable {o : Options}

theorem assemble_of_nesting {w : Wire} (hw : w.octets.length < UInt64.size)
    (hn : w.nesting ≤ o.maxDepth) :
    ∃ item p, (Product.diagnostic {}).assemble o w.lexemes = .ok (some (item, []), p) := by
  have ha := fst_assemble_diagnostic (o := o) {} w.lexemes
  rw [show Transcript.outline {} = {} from rfl, fst_pushAll_lexemes hw, if_pos hn] at ha
  obtain ⟨⟨_ | ⟨item, behind⟩, p⟩, hp, hr⟩ := map_eq_ok.1 ha
  · cases hr
  · cases hr
    exact ⟨item, p, hp⟩

/-- Data has a diagnostic notation just if it is one item, in any of its encodings, whose levels
find room. The levels do not count a self-describe tag in front that goes unseen. -/
theorem decode_diagnostic_iff {data : Octets} (hc : o.check = .ok ())
    (hv : o.flags.contains .edn = true) (hm : o.maxSize < UInt64.size)
    (hs : (data.window o.offset o.length).length ≤ o.maxSize) :
    (∃ v, decode data o = .ok v) ↔
      ∃ w : Wire, w.Spelled (data.window o.offset o.length) ∧
        (w.unprefixed o).nesting ≤ o.maxDepth := by
  have hstart : Product.start o = .diagnostic {} := if_pos hv
  constructor
  · rintro ⟨v, h⟩
    exact exists_of_decode hm h
  · rintro ⟨w, hw, hn⟩
    have hlen : (w.unprefixed o).octets.length < UInt64.size := by
      refine Nat.lt_of_le_of_lt ?_ (Nat.lt_of_le_of_lt hs hm)
      exact Nat.le_trans (Wire.length_unprefixed_le o w) hw.length_spell_le
    obtain ⟨item, p, ha⟩ := assemble_of_nesting hlen hn
    refine ⟨item, ?_⟩
    rw [Wire.decode_spelled hw hs hm, hc, hstart, ha]
    rfl

/-- An array of indefinite length holds 1, with a wide head, and an empty map: two levels. -/
theorem decode_diagnostic_iff_twoLevels :
    let o : Options := { flags := .standard ||| .edn, maxDepth := 2 }
    let data : Octets := [0x9F, 0x18, 0x01, 0xA0, 0xFF]
    o.check = .ok () ∧ o.flags.contains .edn = true ∧ o.maxSize < UInt64.size ∧
      (data.window o.offset o.length).length ≤ o.maxSize ∧ ∃ v, decode data o = .ok v := by
  refine ⟨rfl, rfl, by decide, by decide, ?_⟩
  refine (decode_diagnostic_iff rfl rfl (by decide) (by decide)).2
    ⟨.array true [.scalar (.unsigned 1), .map false []], ?_, by decide⟩
  refine .cons (b := [0x9F]) rfl (.cons (b := [0x18, 0x01]) ?_ ?_)
  · exact @Head.Form.wide 0 24 1 1 (by decide) (by decide)
  · exact .cons (b := [0xA0]) (@Head.Form.short 5 0 (by decide)) (.cons (b := [0xFF]) rfl .nil)

end Cbor
