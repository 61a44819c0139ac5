import Cbor.Assembly
import Cbor.Proofs.Outcome
import Cbor.Proofs.Wire.Tree

namespace Cbor

open Decoder (Options)

namespace Flags

def nativeString (isText : Bool) : Flags := if isText then text else byte

def keyString (isText : Bool) : Flags := if isText then keyText else keyByte

end Flags

/-- The type of string that makes the content of a tag with a meaning. -/
def Tag.stringContent? (groups : Groups) (tag : UInt64) : Option Bool :=
  if tag = dateTime ∧ groups.dateTime ∨ tag = uri ∧ groups.uri then some true
  else if (tag = positiveBignum ∨ tag = negativeBignum) ∧ groups.bignum then some false
  else none

namespace Item

variable {f : Flags}

theorem native_cases (f : Flags) (i : Item) :
    i.native f = i ∨
      (∃ isText b, i = ofString isText b ∧ f.contains (.nativeString isText) = true ∧
        i.native f = string b) ∨
      (∃ bits, i = float16 bits ∧ i.native f = float64 (Binary.widenHalf bits)) ∨
      (∃ bits, i = float32 bits ∧ i.native f = float64 (Binary.widenSingle bits)) := by
  cases i with
  | bytes b =>
    by_cases h : f.contains .byte = true
    · exact .inr (.inl ⟨false, b, rfl, h, if_pos h⟩)
    · exact .inl (if_neg h)
  | text b =>
    by_cases h : f.contains .text = true
    · exact .inr (.inl ⟨true, b, rfl, h, if_pos h⟩)
    · exact .inl (if_neg h)
  | float16 bits =>
    by_cases h : f.contains .float16 = true
    · exact .inr (.inr (.inl ⟨bits, rfl, if_pos h⟩))
    · exact .inl (if_neg h)
  | float32 bits =>
    by_cases h : f.contains .float32 = true
    · exact .inr (.inr (.inr ⟨bits, rfl, if_pos h⟩))
    · exact .inl (if_neg h)
  | _ => exact .inl rfl

theorem native_native (f : Flags) (i : Item) : (i.native f).native f = i.native f := by
  rcases i.native_cases f with h | ⟨_, b, _, _, h⟩ | ⟨bits, _, h⟩ | ⟨bits, _, h⟩
  · rw [h, h]
  all_goals
    rw [h]
    rfl

/-- The flags leave strings alone that are wanted as they were read. -/
def Undisturbed (f : Flags) (wanted : Bool → Prop) (raw : Item) : Prop :=
  ∀ isText b, raw = ofString isText b → wanted isText → f.contains (.nativeString isText) = false

theorem keyOctets_ofString {isText : Bool} (h : f.contains (.keyString isText) = false)
    (b : Octets) : (ofString isText b).keyOctets f = .error .unsupportedKeyType := by
  have hn : ¬ f.contains (.keyString isText) = true := by simp [h]
  cases isText <;> exact if_neg hn

theorem mapKey_native {raw : Item}
    (h : raw.Undisturbed f fun isText ↦
      f.contains .mapAsArray = false ∧ f.contains (.keyString isText) = true) :
    (raw.native f).mapKey f = raw.mapKey f := by
  by_cases ha : f.contains .mapAsArray = true
  · simp only [mapKey, ha, if_true, native_native]
  · rcases raw.native_cases f with hn | ⟨isText, b, rfl, hf, hn⟩ | ⟨bits, rfl, hn⟩ | ⟨bits, rfl, hn⟩
    · rw [hn]
    · -- the flags take no such strings for keys, nor native strings
      have hk : f.contains (.keyString isText) = false := Bool.eq_false_iff.2 fun hk ↦ by
        have hn := h isText b rfl ⟨Bool.eq_false_iff.2 ha, hk⟩
        rw [hf] at hn
        cases hn
      rw [hn, mapKey, mapKey, if_neg ha, if_neg ha, keyOctets_ofString hk]
      rfl
    · rw [hn, mapKey, mapKey, if_neg ha, if_neg ha]
      rfl
    · rw [hn, mapKey, mapKey, if_neg ha, if_neg ha]
      rfl

/-- A native string has no meaning for a tag, nor has a string of a type that the tag does not
want. -/
theorem interpret_ofString {groups : Tag.Groups} {number : UInt64} {isText : Bool}
    (h : Tag.stringContent? groups number ≠ some isText) (b : Octets) :
    Tag.interpret groups number (ofString isText b) = Tag.interpret groups number (string b) := by
  unfold Tag.stringContent? at h
  unfold Tag.interpret
  split
  case isTrue hd =>
    rw [if_pos (.inl hd)] at h
    cases isText with
    | false => rfl
    | true => exact absurd rfl h
  split
  case isTrue => cases isText <;> rfl
  split
  case isTrue hb =>
    cases isText with
    | false =>
      rcases hb with ⟨rfl | rfl, hg⟩ <;>
        simp +decide [hg] at h
    | true => rfl
  split
  case isTrue => cases isText <;> rfl
  split
  case isTrue => cases isText <;> rfl
  split
  case isTrue hu =>
    rw [if_pos (.inr hu)] at h
    cases isText with
    | false => rfl
    | true => exact absurd rfl h
  rfl

theorem interpret_native {groups : Tag.Groups} {number : UInt64} {raw : Item}
    (h : raw.Undisturbed f fun isText ↦ Tag.stringContent? groups number = some isText) :
    Tag.interpret groups number (raw.native f) = Tag.interpret groups number raw := by
  rcases raw.native_cases f with hn | ⟨isText, b, rfl, hf, hn⟩ | ⟨bits, rfl, hn⟩ | ⟨bits, rfl, hn⟩
  · rw [hn]
  · rw [hn]
    refine (interpret_ofString (fun hw ↦ ?_) b).symm
    have hfalse := h isText b rfl hw
    rw [hf] at hfalse
    cases hfalse
  · rw [hn]
    rfl
  · rw [hn]
    rfl

end Item
end Cbor
