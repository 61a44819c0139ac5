import Mathlib
import Cbor.Proofs.Encoder.Verbatim
import Cbor.Proofs.Wire.Unique

namespace Cbor

open Wire (ShortSpelling)

/-- The octets that an item was read from are written again, if all heads in them are shortest ones
and all lengths are definite; other octets for the same item are written if not. -/
theorem encode_decode {p : Decoder.Options} (hp : p.Verbatim) {e : Encoder.Options}
    (hf : e.flags = .uncheckedText) (hm : e.maxDepth = p.maxDepth) (ho : e.stringRef = .off)
    (hr : e.sharedRef = false) {data : Octets} {v : Item} (h : decode data p = .ok v) :
    ∃ (b : Octets) (w : Wire), encode v e = .ok b ∧
      (b.length ≤ p.maxSize →
        ∀ data' : Octets, data'.window p.offset p.length = b → decode data' p = .ok v) ∧
      (∀ w' : Wire, w'.Spelled (data.window p.offset p.length) ↔ w' = w) ∧
      (b = data.window p.offset p.length ↔
        ShortSpelling w.lexemes (data.window p.offset p.length) ∧
          ∀ l ∈ w.lexemes, l.Definite) := by
  obtain ⟨w, hw, hd, hc, hv⟩ := hp.exists_of_decode h
  have hlen := Nat.lt_of_le_of_lt (length_le_of_decode h) hp.maxSize
  have he : e.Verbatim := ⟨by rw [hf]; decide, by rw [hf]; decide, by rw [hf]; decide, hr⟩
  have hcde : e.flags.contains .cde = false := by rw [hf]; decide
  have hec : e.check = .ok () := by
    have hmax := p.maxDepth_le_of_check hc
    rw [Encoder.Options.check, hf, if_neg (by omega)]
    rfl
  have hspelled (hb : w.definite.octets.length < UInt64.size) :
      w.definite.Spelled w.definite.octets :=
    .of_fits (Wire.fits_of_mem _ (Nat.le_refl _)) hb
  refine ⟨w.definite.octets, w, ?_, fun hs data' hi ↦ ?_, fun w' ↦ ?_, ?_⟩
  · refine encode_verbatim he hec ho (by rw [hf]; decide) hv (fun h ↦ ?_) (by omega)
    rw [hcde] at h
    cases h
  · have hb := hspelled (Nat.lt_of_le_of_lt hs hp.maxSize)
    rw [← hi] at hb hs
    rw [hp.decode_eq hb hs (by rw [w.nesting_definite]; exact hd), hc, ok_bind,
      w.verbatim_definite, hv]
  · exact ⟨fun hw' ↦ hw'.unique hw hlen, fun hw' ↦ hw' ▸ hw⟩
  · rw [Wire.shortSpelling_iff (hw.fits (Nat.le_refl _)) hlen, ← Wire.definite_eq_iff]
    constructor
    · intro hb
      have hspelled := hspelled (hb ▸ hlen)
      rw [hb] at hspelled
      have hw' := hspelled.unique hw hlen
      rw [hw'] at hb
      exact ⟨hb.symm, hw'⟩
    · rintro ⟨hb, hw'⟩
      rw [hw', hb]
      rfl

/-- Default limits, and nothing interpreted. -/
def Decoder.raw : Decoder.Options :=
  { flags := .mapAsArray ||| .uncheckedText ||| .selfDescribe
    stringRef := false
    groups := { dateTime := false, bignum := false, decimal := false, uri := false } }

theorem Decoder.verbatim_raw : Decoder.raw.Verbatim := ⟨rfl, rfl, rfl, rfl, by decide⟩

open Decoder (raw)

/-- An array of indefinite length holds 1, with a wide head, and a byte string in two chunks. -/
theorem encode_decode_chunks :
    let data : Octets := [0x9F, 0x18, 0x01, 0x5F, 0x41, 0x61, 0x41, 0x62, 0xFF, 0xFF]
    let v : Item := .array [.unsigned 1, .bytes [0x61, 0x62]]
    let b : Octets := [0x82, 0x01, 0x42, 0x61, 0x62]
    raw.Verbatim ∧ decode data raw = .ok v ∧
      encode v { flags := .uncheckedText } = .ok b ∧ decode b raw = .ok v ∧
      ∃ w : Wire, (∀ w' : Wire, w'.Spelled data ↔ w' = w) ∧
        ¬ (ShortSpelling w.lexemes data ∧ ∀ l ∈ w.lexemes, l.Definite) := by
  intro data v b
  let tree : Wire := .array true [.scalar (.unsigned 1), .chunks false [[0x61], [0x62]]]
  have hw : tree.Spelled data := by
    refine .cons (b := [0x9F]) rfl (.cons (b := [0x18, 0x01]) ?_ (.cons (b := [0x5F]) rfl ?_))
    · exact @Head.Form.wide 0 24 1 1 (by decide) (by decide)
    refine .cons (b := [0x41, 0x61]) ⟨[0x41], @Head.Form.short 2 1 (by decide), rfl⟩ ?_
    refine .cons (b := [0x41, 0x62]) ⟨[0x41], @Head.Form.short 2 1 (by decide), rfl⟩ ?_
    exact .cons (b := [0xFF]) rfl (.cons (b := [0xFF]) rfl .nil)
  have hd : decode data raw = .ok v := by
    have hread := Decoder.verbatim_raw.decode_eq (w := tree) (by exact hw) (by decide) (by decide)
    exact hread.trans rfl
  have he : encode v { flags := .uncheckedText } = .ok b := by cbv
  obtain ⟨b', w, hb', hback, hw, hiff⟩ := encode_decode Decoder.verbatim_raw
    (e := { flags := .uncheckedText }) rfl rfl rfl rfl hd
  cases he.symm.trans hb'
  refine ⟨Decoder.verbatim_raw, hd, he, hback (by decide) b rfl, w, hw, fun h ↦ ?_⟩
  exact absurd (hiff.2 h) (by decide)

end Cbor
