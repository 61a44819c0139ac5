import Mathlib
import Cbor.Proofs.Decoder.Limits
import Cbor.Proofs.Encoder.Limits

namespace Cbor

/-- Under tighter limits reading and writing give what they give under wider ones, be it a result or
a fault, or fail at a limit. -/
theorem same_or_limit :
    (∀ (o : Decoder.Options) (maxDepth maxSize : Nat) (data : Octets), o.check = .ok () →
      (o.limited maxDepth maxSize).check = .ok () → maxDepth ≤ o.maxDepth → maxSize ≤ o.maxSize →
      decode data (o.limited maxDepth maxSize) = decode data o ∨
        decode data (o.limited maxDepth maxSize) = .error .depth ∨
        decode data (o.limited maxDepth maxSize) = .error .unsupportedSize) ∧
    ∀ (o : Encoder.Options) (maxDepth : Nat) (v : Item), o.check = .ok () → maxDepth ≤ o.maxDepth →
      encode v (o.limited maxDepth) = encode v o ∨
        encode v (o.limited maxDepth) = .error .depth := by
  constructor
  · intro o maxDepth maxSize data hc hl hd hs
    rcases cutOff_decode hd hs hc hl data with h | ⟨e, he, h⟩
    · exact .inl h
    · right
      rcases Fault.isLimit_iff.1 he with rfl | rfl
      · exact .inl h
      · exact .inr h
  · intro o maxDepth v hc hd
    rcases cutOff_encode hd hc v with h | ⟨_, rfl, h⟩
    · exact .inl h
    · exact .inr h

/-- An array in an array, where there is room for three octets and for one level. -/
theorem same_or_limit_nested :
    let v : Item := .array [.array [.unsigned 1]]
    let data : Octets := [0x81, 0x81, 0x01]
    let o : Decoder.Options := Decoder.Options.limited {} 1 3
    let p : Encoder.Options := Encoder.Options.limited {} 1
    (decode data o = .ok v ∨ decode data o = .error .depth ∨
        decode data o = .error .unsupportedSize) ∧
      (encode v p = .ok data ∨ encode v p = .error .depth) := by
  intro v data o p
  have hd : decode data {} = .ok v :=
    (Wire.decode_octets (w := .array false [.array false [.scalar (.unsigned 1)]]) rfl (by decide)
      (by decide) (by decide)).trans rfl
  have he : encode v {} = .ok data := by cbv
  have hread := same_or_limit.1 {} 1 3 data rfl rfl (by decide) (by decide)
  have hwrite := same_or_limit.2 {} 1 v rfl (by decide)
  rw [hd] at hread
  rw [he] at hwrite
  exact ⟨hread, hwrite⟩

end Cbor
