import Cbor.Encoder.Basic
import Cbor.Proofs.Flags
import Cbor.Proofs.Outcome

namespace Cbor.Encoder

variable {o inner : Options} {p : Overrides}

theorem maxDepth_override (h : o.override p = .ok inner) : inner.maxDepth = o.maxDepth := by
  unfold Options.override at h
  split at h
  · cases h
  · obtain ⟨_, _, h⟩ := bind_eq_ok.1 h
    cases h
    rfl

theorem stringRef_override (h : o.override p = .ok inner) : inner.stringRef = o.stringRef := by
  unfold Options.override at h
  split at h
  · cases h
  · obtain ⟨_, _, h⟩ := bind_eq_ok.1 h
    cases h
    rfl

theorem sharedRef_override (h : o.override p = .ok inner) : inner.sharedRef = o.sharedRef := by
  unfold Options.override at h
  split at h
  · cases h
  · obtain ⟨_, _, h⟩ := bind_eq_ok.1 h
    cases h
    rfl

theorem withoutReferences_override (o : Options) (p : Overrides) :
    o.withoutReferences.override p = Options.withoutReferences <$> o.override p := by
  unfold Options.override
  split
  · rfl
  · simp only [map_bind, pure_eq_ok, map_ok]
    rfl

theorem contains_cde_exclude {a b set f : Flags} (ha : a.contains .cde = false)
    (hb : b.contains .cde = false) (hf : f.contains .cde = true) :
    (Options.exclude a b set f).contains .cde = true := by
  unfold Options.exclude
  dsimp only
  split <;> split <;> simp [Flags.contains_cde_diff, *]

theorem contains_cde_override (h : o.override p = .ok inner)
    (hc : o.flags.contains .cde = true) : inner.flags.contains .cde = true := by
  unfold Options.override at h
  split at h
  · cases h
  · rename_i hp
    obtain ⟨_, _, h⟩ := bind_eq_ok.1 h
    cases h
    have hclear := Flags.contains_cde_diff hc (Bool.eq_false_iff.2 hp)
    have hbyte : (Options.exclude .byte .text p.flags (o.flags.diff p.flagsClear)).contains .cde :=
      contains_cde_exclude (by decide) (by decide) hclear
    exact Flags.contains_or_left _ (contains_cde_exclude (by decide) (by decide) hbyte)

end Cbor.Encoder
