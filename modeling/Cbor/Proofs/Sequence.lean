import Cbor.Proofs.Decoder.Whole
import Cbor.Proofs.Wire.Decode

namespace Cbor

open Decoder

variable {o : Options} {data : Octets} {v : Item}

theorem Decoder.Options.whole_eq (ho : o.offset = 0) (hl : o.length = none) : o.whole = o := by
  cases o
  cases ho
  cases hl
  rfl

theorem Decoder.Options.window_eq (ho : o.offset = 0) (hl : o.length = none) (data : Octets) :
    data.window o.offset o.length = data := by
  rw [ho, hl]
  rfl

theorem decode_of_prefix {cut rest : Octets} (ho : o.offset = 0) (hl : o.length = none)
    (h : decode (cut ++ rest) o = .ok v) (hr : rest ≠ []) :
    decode cut o = .error .truncatedData := by
  have hc := check_of_decode h
  have hs := length_le_of_decode h
  obtain ⟨product, hrun⟩ := run_of_decode h
  rw [Options.window_eq ho hl] at hs hrun
  have hsize : cut.length ≤ o.maxSize := by
    rw [List.length_append] at hs
    omega
  rw [decode_eq (Options.window_eq ho hl cut) hsize, hc, ok_bind]
  -- the run over the whole goes on from where the run over the cut halts
  rw [run_append] at hrun
  cases hcut : run o (.start o) false cut with
  | waiting => rfl
  | ready item left product =>
    rw [hcut] at hrun
    simp [Halt.resume, hr] at hrun
  | failed e left =>
    rw [hcut] at hrun
    cases hrun

/-- Of what stands behind an item it only matters that it is there. -/
theorem decode_append {tail : Octets} (ho : o.offset = 0) (hl : o.length = none)
    (h : decode data o = .ok v) (ht : tail ≠ []) (hs : data.length + tail.length ≤ o.maxSize) :
    decode (data ++ tail) o = .error .extraneousData := by
  have hc := check_of_decode h
  obtain ⟨product, hrun⟩ := run_of_decode h
  rw [Options.window_eq ho hl] at hrun
  have hsize : (data ++ tail).length ≤ o.maxSize := by rwa [List.length_append]
  rw [decode_eq (Options.window_eq ho hl _) hsize, hc, ok_bind, run_append, hrun]
  simp [Halt.resume, Halt.outcome, single, ht]

/-- An item says where it ends: no octet of it can be spared, and none can be added. -/
theorem decode_self_delimiting (ho : o.offset = 0) (hl : o.length = none)
    (h : decode data o = .ok v) :
    (∀ cut, cut <+: data → cut ≠ data → decode cut o = .error .truncatedData) ∧
      ∀ tail, tail ≠ [] → data.length + tail.length ≤ o.maxSize →
        decode (data ++ tail) o = .error .extraneousData := by
  constructor
  · rintro cut ⟨rest, rfl⟩ hne
    apply decode_of_prefix ho hl h
    rintro rfl
    exact hne (List.append_nil cut).symm
  · intro tail ht hs
    exact decode_append ho hl h ht hs

/-- The array `[1, "é"]`, cut inside of a character, and with a break behind it. -/
theorem decode_self_delimiting_pair :
    let data : Octets := [0x82, 0x01, 0x62, 0xC3, 0xA9]
    decode data {} = .ok (.array [.unsigned 1, .text [0xC3, 0xA9]]) ∧
      decode [0x82, 0x01, 0x62, 0xC3] {} = .error .truncatedData ∧
      decode (data ++ [0xFF]) {} = .error .extraneousData := by
  have hpair : decode [0x82, 0x01, 0x62, 0xC3, 0xA9] {} =
      .ok (.array [.unsigned 1, .text [0xC3, 0xA9]]) :=
    (Wire.decode_octets (w := .array false [.scalar (.unsigned 1), .string true [0xC3, 0xA9]]) rfl
      (by decide) (by decide) (by decide)).trans rfl
  obtain ⟨hcut, htail⟩ := decode_self_delimiting rfl rfl hpair
  refine ⟨hpair, ?_, ?_⟩
  · exact hcut _ (by decide) (by decide)
  · exact htail [0xFF] (by decide) (by decide)

namespace Decoder

theorem drain_start (o : Options) (taken : Array Item) :
    (start o).drain taken = (taken, .ok (), start o) := by
  have hwait : run o (.start o) false [] = .waiting [] (.start o) false false :=
    run_of_needHeader rfl
  rw [drain_eq, process_of_ready ⟨rfl, rfl⟩]
  simp only [start, hwait]

/-- A sequence is read item by item, in items as in diagnostic notation, and nothing of it is left
behind: the decoder is the one that it was before the first item. -/
theorem feed_sequence {d : Decoder} (hd : new o = .ok d) (hr : o.sharedRef = .off)
    (ho : o.offset = 0) (hl : o.length = none) {pieces : List Octets} {items : List Item}
    (h : pieces.mapM (decode · o) = .ok items) (hs : pieces.flatten.length ≤ o.maxSize) :
    d.feed #[] pieces.flatten = (items.toArray, .ok (), d) ∧
      d.state = .idle ∧ d.isPartial = false := by
  obtain ⟨⟨⟩, hc, hd⟩ := bind_eq_ok.1 hd
  cases hd
  refine ⟨?_, ?_, ?_⟩
  · have hwhole : pieces.mapM (decode · o.whole) = .ok items := by rwa [Options.whole_eq ho hl]
    have hdrain := drain_flatten hc hr hwhole [] #[]
    rw [List.append_nil, append_nil, drain_start] at hdrain
    rw [feed_eq_drain ⟨rfl, rfl⟩ #[] (by simpa [start] using hs), hdrain]
    simp
  · simp [state, start, Product.isEmpty_start]
  · simp [isPartial, start, Product.isEmpty_start]

/-- A self-describe tag that is skipped, then an array that is left open until its break. -/
theorem feed_sequence_two :
    let one : Octets := [0xD9, 0xD9, 0xF7, 0x01]
    let two : Octets := [0x9F, 0x61, 0x61, 0xFF]
    decode one {} = .ok (.unsigned 1) ∧ decode two {} = .ok (.array [.text [0x61]]) ∧
      (start {}).feed #[] (one ++ two) = (#[.unsigned 1, .array [.text [0x61]]], .ok (), start {}) ∧
      (start {}).state = .idle ∧ (start {}).isPartial = false := by
  intro one two
  have hone : decode one {} = .ok (.unsigned 1) :=
    Wire.decode_octets (w := .tag Tag.selfDescribe (.scalar (.unsigned 1))) rfl (by decide)
      (by decide) (by decide)
  have htwo : decode two {} = .ok (.array [.text [0x61]]) :=
    (Wire.decode_octets (w := .array true [.string true [0x61]]) rfl (by decide)
      (by decide) (by decide)).trans rfl
  have hitems : [one, two].mapM (decode · {}) = .ok [.unsigned 1, .array [.text [0x61]]] := by
    simp [hone, htwo]
  have hfeed := feed_sequence (o := {}) rfl rfl rfl rfl hitems (by decide)
  exact ⟨hone, htwo, hfeed⟩

end Decoder
end Cbor
