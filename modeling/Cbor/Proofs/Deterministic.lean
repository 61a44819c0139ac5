import Mathlib
import Cbor.Proofs.Encoder.Deterministic
import Cbor.Proofs.Verbatim

namespace Cbor

open Encoder

variable {o : Options}

/-- The keys of all maps are in order in the one tree that the octets spell, and reading the octets
and writing them again gives the same ones. -/
theorem encode_deterministic (hc : o.flags.contains .cde = true) (ho : o.stringRef = .off)
    (hm : o.flags.contains .selfDescribe = true → o.maxDepth < maxDepthLimit) {v : Item}
    {b : Octets} (h : encode v o = .ok b) :
    ∃ w : Wire, w.octets = b ∧ w.Deterministic ∧
      (b.length < UInt64.size → ∀ w' : Wire, w'.Spelled b ↔ w' = w) ∧
      ∀ p : Decoder.Options, p.Verbatim →
        p.maxDepth = o.maxDepth + (if o.flags.contains .selfDescribe then 1 else 0) →
        b.length ≤ p.maxSize → ∀ data : Octets, data.window p.offset p.length = b →
        ∃ v', decode data p = .ok v' ∧ ∀ e : Options, e.flags = .cde ||| .uncheckedText →
          e.maxDepth = p.maxDepth → e.stringRef = .off → e.sharedRef = false →
          encode v' e = .ok b := by
  rw [encode_eq_of_off ho] at h
  obtain ⟨_, hcheck, h⟩ := bind_eq_ok.1 h
  obtain ⟨r, hr, rfl⟩ := map_eq_ok.1 h
  have hlimit : o.maxDepth + (if o.flags.contains .selfDescribe then 1 else 0) ≤ maxDepthLimit := by
    split
    · exact hm ‹_›
    · exact o.maxDepth_le_of_check hcheck
  have hw : (r.1.announced o).Settled
      (o.maxDepth + if o.flags.contains .selfDescribe then 1 else 0) := by
    have hr := (settled_tree v hc hr).1
    unfold Wire.announced
    split
    · exact .tag (by omega) _ hr
    · exact hr
  generalize r.1.announced o = w at hw
  have hspelled (hb : w.octets.length < UInt64.size) : w.Spelled w.octets :=
    .of_fits (Wire.fits_of_mem w (Nat.le_refl _)) hb
  refine ⟨w, rfl, hw.deterministic, fun hb w' ↦ ⟨fun hw' ↦ hw'.unique (hspelled hb) hb, ?_⟩, ?_⟩
  · rintro rfl
    exact hspelled hb
  intro p hp hd hs data hi
  obtain ⟨v', hv'⟩ := hw.readable
  have hpos := w.length_octets_pos
  have hpc : p.check = .ok () := hp.check (by omega) (by omega)
  refine ⟨v', ?_, fun e hf he ho hr ↦ ?_⟩
  · have hsp := hspelled (Nat.lt_of_le_of_lt hs hp.maxSize)
    rw [← hi] at hsp hs
    rw [hp.decode_eq hsp hs (hd ▸ hw.nesting_le), hpc, ok_bind, hv']
  · have hev : e.Verbatim := ⟨by rw [hf]; decide, by rw [hf]; decide, by rw [hf]; decide, hr⟩
    have hec : e.check = .ok () := by
      rw [Options.check, hf, if_neg (by omega)]
      rfl
    have hdef := Wire.Deterministic.definite w hw.deterministic
    have hencode := encode_verbatim hev hec ho (by rw [hf]; decide) hv'
      (fun _ ↦ hdef.symm ▸ hw.deterministic) (by rw [he, hd]; exact hw.nesting_le)
    rwa [hdef] at hencode

open Decoder (raw)

/-- A map in the key of a map, both out of order, behind a self-describe tag. -/
theorem encode_deterministic_nested :
    let o : Options := { flags := .standard ||| .cde ||| .selfDescribe }
    let v : Item := .map [(.array [.map [(.unsigned 2, .null), (.unsigned 1, .null)]], .bool true),
      (.unsigned 10, .undefined)]
    let b : Octets := [0xD9, 0xD9, 0xF7, 0xA2, 0x0A, 0xF7, 0x81, 0xA2, 0x01, 0xF6, 0x02, 0xF6, 0xF5]
    o.flags.contains .cde = true ∧ o.maxDepth < maxDepthLimit ∧ encode v o = .ok b ∧
      (∃ w : Wire, w.Deterministic ∧ ∀ w' : Wire, w'.Spelled b ↔ w' = w) ∧
      ∃ v', decode b { raw with maxDepth := 65 } = .ok v' ∧
        encode v' { flags := .cde ||| .uncheckedText, maxDepth := 65 } = .ok b := by
  intro o v b
  have h : encode v o = .ok b := by
    rw [encode_eq_after]
    cbv
  have hm : o.maxDepth < maxDepthLimit := show 64 < 10000 by omega
  obtain ⟨w, -, hw, hb, hback⟩ := encode_deterministic (by decide) rfl (fun _ ↦ hm) h
  obtain ⟨v', hd, he⟩ := hback { raw with maxDepth := 65 } ⟨rfl, rfl, rfl, rfl, by decide⟩
    (by decide) (by decide) b rfl
  exact ⟨by decide, hm, h, ⟨w, hw, hb (by decide)⟩, v', hd, he _ rfl rfl rfl rfl⟩

/-- At the depth limit there is no deeper level for the self-describe tag to be read on. -/
theorem encode_deterministic_deepest :
    ¬ ∀ (o : Options) (v : Item) (b : Octets), o.flags.contains .cde = true → o.stringRef = .off →
      encode v o = .ok b → ∀ p : Decoder.Options, p.Verbatim →
      p.maxDepth = o.maxDepth + (if o.flags.contains .selfDescribe then 1 else 0) →
      b.length ≤ p.maxSize → ∀ data : Octets, data.window p.offset p.length = b →
      ∃ v', decode data p = .ok v' := by
  intro h
  let o : Options := { flags := .standard ||| .cde ||| .selfDescribe, maxDepth := maxDepthLimit }
  have he : encode .null o = .ok [0xD9, 0xD9, 0xF7, 0xF6] := by cbv
  obtain ⟨v', hv'⟩ := h o .null _ (by decide) rfl he { raw with maxDepth := maxDepthLimit + 1 }
    ⟨rfl, rfl, rfl, rfl, by decide⟩ (by decide) (by decide) [0xD9, 0xD9, 0xF7, 0xF6] rfl
  cases hv'

end Cbor
