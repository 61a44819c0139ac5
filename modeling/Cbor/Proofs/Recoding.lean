import Mathlib
import Cbor.Proofs.Decoder.Hereditary
import Cbor.Proofs.Encoder.Encode
import Cbor.Proofs.Encoder.Faults
import Cbor.Proofs.Wire.Decode

namespace Cbor

section

variable {f : Flags} {g : Tag.Groups} {o : Decoder.Options}

theorem Flags.Admits.append {a b : Octets} (ha : f.Admits a) (hb : f.Admits b) :
    f.Admits (a ++ b) := by
  rcases ha with ha | ha
  · exact .inl ha
  rcases hb with hb | hb
  · exact .inl hb
  · exact .inr (Utf8.isValid_append ha hb)

theorem Assembly.admits_of_checkText {b : Octets} (h : checkText o b = .ok ()) :
    o.flags.Admits b := by
  unfold checkText at h
  split at h
  case isTrue hb => exact hb
  case isFalse => cases h

/-- Keys of whichever type come as native strings that are written as keys. -/
theorem Item.isName_of_mapKey (hm : f.contains .mapAsArray = false) (hf : f.Typed)
    {item key : Item} (hi : item.Writable f g) (h : item.mapKey f = .ok key) : key.IsName f := by
  rw [mapKey, hm, if_neg Bool.false_ne_true] at h
  obtain ⟨b, hb, h⟩ := bind_eq_ok.1 h
  split at h
  · cases h
  cases h
  refine ⟨b, rfl, fun hk ↦ ?_⟩
  unfold keyOctets at hb
  split at hb
  case h_1 | h_2 =>
    split at hb <;> cases hb
    exact .inr (Utf8.isValid_encode _)
  case h_3 =>
    split at hb <;> cases hb
    rename_i hbyte
    rw [hf.key, hk] at hbyte
    cases hbyte
  case h_4 =>
    rw [if_pos hk] at hb
    cases hb
    exact hi _ (self_mem_parts _)
  case h_5 => cases hb

/-- All that is read into maps with string keys is made of what writing takes. -/
theorem hereditary_writable (hm : o.flags.contains .mapAsArray = false) (hf : o.flags.Typed) :
    Hereditary o (·.Writable o.flags o.groups) (·.Writable o.flags o.groups)
      (∀ e ∈ ·, e.1.IsName o.flags ∧ e.2.Writable o.flags o.groups) (·.IsName o.flags) where
  scalar a := by cases a <;> exact Item.writable_of_allowed rfl trivial
  bytes _ := Item.writable_of_allowed rfl trivial
  text ht := Item.writable_of_allowed rfl (Assembly.admits_of_checkText ht)
  chunk ha hb := by
    have ha := ha _ (Item.self_mem_parts _)
    exact Item.writable_of_allowed rfl (Flags.Admits.append ha (Assembly.admits_of_checkText hb))
  native hi := hi.native hf
  array := Item.writable_array.2
  noEntries := nofun
  entry hes hk hi :=
    Assembly.forall_mem_insertEntry hm hes ⟨hk, hi⟩ fun _ he ↦ ⟨he.1, hi⟩
  map := Item.writable_map.2
  mapKey := Item.isName_of_mapKey hm hf
  interpreted hi := Item.writable_of_interpret hi _
  tag _ _ hc := Item.writable_tag.2 (hc.native hf)
  shareable cell _ hi := by
    split
    · exact Item.writable_shareable.2 (hi.native hf)
    · exact hi.native hf

end

/-- Options of reading items, and of writing them as they were read. It plays no part what becomes
of references. -/
structure Recoding (o : Decoder.Options) (e : Encoder.Options) : Prop where
  typed : o.flags.Typed
  mapAsArray : o.flags.contains .mapAsArray = false
  edn : o.flags.contains .edn = false
  strings : e.flags &&& .strings = o.flags &&& .strings
  cde : e.flags.contains .cde = false
  groups : e.groups = o.groups
  stringRef : e.stringRef = .off
  check : e.check = .ok ()

theorem Flags.Typed.congr {f g : Flags} (hf : f.Typed) (h : g &&& .strings = f &&& .strings) :
    g.Typed where
  string := by
    rw [contains_eq_of_strings h (by decide), contains_eq_of_strings h (by decide), hf.string]
  key := by
    rw [contains_eq_of_strings h (by decide), contains_eq_of_strings h (by decide), hf.key]

/-- An item that is decoded is encoded again, unless it is nested too deep, or has a shareable item
directly in another one. -/
theorem encode_of_decode {o : Decoder.Options} {e : Encoder.Options} (h : Recoding o e)
    {data : Octets} {v : Item} (hd : decode data o = .ok v) (hy : v.Dateable) :
    (∃ b, encode v e = .ok b) ∨ encode v e = .error .depth ∨
      encode v e = .error (.tagValue Tag.shareable) ∧ v.Reshared := by
  have hv := (hereditary_writable h.mapAsArray h.typed).of_decode h.edn hd
  rw [← h.groups, ← Item.writable_congr h.strings] at hv
  have hstops := Encoder.stops_tree (h.typed.congr h.strings) h.cde v hv hy 0 #[]
  rw [encode_eq_of_off h.stringRef, h.check, ok_bind]
  cases ht : Encoder.tree e false v 0 #[] with
  | ok r => exact .inl ⟨_, rfl⟩
  | error f =>
    rcases hstops f ht with rfl | ⟨rfl, hr⟩
    · exact .inr (.inl rfl)
    · exact .inr (.inr ⟨rfl, hr⟩)

def Decoder.weaving : Decoder.Options := { sharedRef := .shareable }

def Encoder.weaving : Encoder.Options := { maxDepth := maxDepthLimit, sharedRef := true }

theorem recoding_weaving : Recoding Decoder.weaving Encoder.weaving :=
  ⟨⟨by decide, by decide⟩, by decide, by decide, rfl, by decide, rfl, rfl, rfl⟩

/-- A shared item that an array holds twice. -/
theorem encode_of_decode_twice :
    let data : Octets := [0x82, 0xD8, 0x1C, 0x01, 0xD8, 0x1D, 0x00]
    let v : Item := .array [.shareable 0 (.unsigned 1), .shareable 0 (.unsigned 1)]
    Recoding Decoder.weaving Encoder.weaving ∧ decode data Decoder.weaving = .ok v ∧ v.Dateable ∧
      ((∃ b, encode v Encoder.weaving = .ok b) ∨ encode v Encoder.weaving = .error .depth ∨
        encode v Encoder.weaving = .error (.tagValue Tag.shareable) ∧ v.Reshared) := by
  intro data v
  let w : Wire := .array false [.tag Tag.shareable (.scalar (.unsigned 1)),
    .tag Tag.sharedRef (.scalar (.unsigned 0))]
  have hd : decode data Decoder.weaving = .ok v :=
    (Wire.decode_octets (w := w) rfl (by decide) (by decide) (by decide)).trans rfl
  have hy : v.Dateable := fun t ht ↦ by simp [v, Item.parts, Item.partsAll] at ht
  exact ⟨recoding_weaving, hd, hy, encode_of_decode recoding_weaving hd hy⟩

/-- The reference stands in a shared item of its own. -/
theorem encode_of_decode_reshared :
    ¬ ∀ (data : Octets) (v : Item), decode data Decoder.weaving = .ok v → v.Dateable →
      (∃ b, encode v Encoder.weaving = .ok b) ∨ encode v Encoder.weaving = .error .depth := by
  intro h
  let data : Octets := [0x82, 0xD8, 0x1C, 0x01, 0xD8, 0x1C, 0xD8, 0x1D, 0x00]
  let v : Item := .array [.shareable 0 (.unsigned 1), .shareable 1 (.shareable 0 (.unsigned 1))]
  let w : Wire := .array false [.tag Tag.shareable (.scalar (.unsigned 1)),
    .tag Tag.shareable (.tag Tag.sharedRef (.scalar (.unsigned 0)))]
  have hd : decode data Decoder.weaving = .ok v :=
    (Wire.decode_octets (w := w) rfl (by decide) (by decide) (by decide)).trans rfl
  have hy : v.Dateable := fun t ht ↦ by simp [v, Item.parts, Item.partsAll] at ht
  have he : encode v Encoder.weaving = .error (.tagValue Tag.shareable) := by cbv
  rcases h data v hd hy with ⟨b, hb⟩ | hb
  · cases he.symm.trans hb
  · cases he.symm.trans hb

end Cbor
