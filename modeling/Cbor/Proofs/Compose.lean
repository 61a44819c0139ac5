import Cbor.Proofs.Encoder.Encode
import Cbor.Proofs.Json.Tree
import Cbor.Proofs.Sequence

namespace Cbor

open Command (Compose Inspect)
open Encoder (Options)

namespace Json

mutual

theorem noStringRef_toItem : (j : Json) → j.toItem.NoStringRef
  | null | bool _ | string _ | number (.double _) => trivial
  | number (.int n) => by cases n <;> trivial
  | array items => noStringRef_toItems items
  | object members => noStringRef_toEntries members

theorem noStringRef_toItems : (js : List Json) → Item.NoStringRefAll (toItems js)
  | [] => trivial
  | j :: js => ⟨noStringRef_toItem j, noStringRef_toItems js⟩

theorem noStringRef_toEntries : (ms : List (String × Json)) →
    Item.NoStringRefEntries (toEntries ms)
  | [] => trivial
  | (_, j) :: ms => ⟨trivial, noStringRef_toItem j, noStringRef_toEntries ms⟩

end

end Json

namespace Wire

theorem copies_announced (o : Options) (w : Wire) : (w.announced o).copies = w.copies := by
  unfold announced
  split
  · rw [copies, expand, if_neg (by decide), if_neg (by decide), copies]
    cases w.expand [] <;> rfl
  · rfl

theorem Literal.unprefixed_announced {w : Wire} (h : w.Literal) {mode : Encoder.StringRef}
    (hm : mode ≠ .explicit) (o : Options) {p : Decoder.Options}
    (hp : p.flags.contains .selfDescribe = false) :
    ((w.referring mode).announced o).unprefixed p = w.referring mode := by
  have hw : (w.referring mode).unprefixed p = w.referring mode := by
    cases mode with
    | off =>
      unfold unprefixed
      split
      · rename_i hw
        exact absurd hw (h.ne_tag _ _)
      · rfl
    | on => exact unprefixed_tag (by decide) _
    | explicit => exact absurd rfl hm
  unfold announced
  split
  · exact if_pos (show _ ∧ _ from ⟨rfl, hp⟩)
  · exact hw

end Wire

namespace Command

theorem textual_adjust (c : Compose) : (c.adjust Compose.defaults).Textual := by
  have h (selfDescribe deterministic : Bool) :
      (({ selfDescribe, deterministic } : Compose).adjust Compose.defaults).Textual := by
    cases selfDescribe <;> cases deterministic <;> constructor <;> decide
  exact { h c.selfDescribe c.deterministic with }

theorem check_adjust (c : Compose) : (c.adjust Compose.defaults).check = .ok () := by
  have h (selfDescribe deterministic : Bool) :
      (({ selfDescribe, deterministic } : Compose).adjust Compose.defaults).check = .ok () := by
    cases selfDescribe <;> cases deterministic <;> rfl
  exact h c.selfDescribe c.deterministic

theorem stringRef_adjust (c : Compose) :
    (c.adjust Compose.defaults).stringRef ≠ .explicit := by
  obtain ⟨_, stringRef, _, _, _, _⟩ := c
  cases stringRef <;> nofun

/-- What is composed of a document within the limits, with any switches and no options file, shows
as that document when it is inspected. -/
theorem inspect_compose {j : Json} (hj : j.Valid) (hn : j.nesting ≤ 62) (c : Compose) :
    ∃ b, encode j.toItem (c.adjust Compose.defaults) = .ok b ∧
      (b.length ≤ Inspect.defaults.maxSize → ∃ t : Wire, t.Spelled b ∧
        (t.copies ≤ Inspect.defaults.maxSize →
          ∃ v, decode b Inspect.defaults = .ok v ∧ v.toJson = j)) := by
  have htextual := textual_adjust c
  have hcheck := check_adjust c
  have hmode := stringRef_adjust c
  have hdepth : 0 + j.nesting ≤ (c.adjust Compose.defaults).maxDepth := by
    show 0 + j.nesting ≤ 64
    omega
  generalize c.adjust Compose.defaults = o at *
  obtain ⟨w, hw, hcarries⟩ := Encoder.exists_tree_toItem htextual j hj hdepth
  have hencode : encode j.toItem (o.referring o.stringRef) = _ :=
    encode_eq (.inr (Json.noStringRef_toItem j)) o
  rw [hcheck, hw] at hencode
  refine ⟨((w.referring o.stringRef).announced o).octets, hencode, fun hb ↦ ?_⟩
  have hsize : Inspect.defaults.maxSize < UInt64.size := by decide
  refine ⟨(w.referring o.stringRef).announced o, .of_fits (Wire.fits_of_mem _ hb) hsize,
    fun hc ↦ ?_⟩
  rw [Wire.copies_announced] at hc
  obtain ⟨raw, hread, hraw⟩ := hcarries.readFrom
  have hlevels : w.nesting + 2 ≤ Inspect.defaults.maxDepth :=
    Nat.add_le_add_right (Nat.le_trans hcarries.nesting_le hn) 2
  have hmeaning := hcarries.literal.fst_meaning_referring rfl rfl hsize hlevels
    (Nat.le_trans (length_le_announced o _) hb) hc
  obtain ⟨r, hr, rfl⟩ := map_eq_ok.1 (hmeaning.trans hread)
  refine ⟨r.1.native Inspect.defaults.flags, ?_, hraw⟩
  rw [Wire.decode_octets (Decoder.Options.window_eq rfl rfl _) hb hsize rfl,
    hcarries.literal.unprefixed_announced hmode o rfl, hr]
  rfl

/-- Repeated texts, one of them as a key, a key of digits, the least integer and a negative zero,
with all switches. -/
theorem inspect_compose_repeated :
    let ping : Octets := [0x70, 0x69, 0x6E, 0x67]
    let j : Json := .object
      [("10", .array [.string "ping", .number (.int (-9223372036854775808)),
        .number (.double 0x8000000000000000)]), ("ping", .string "ping")]
    let c : Compose := { selfDescribe := true, stringRef := true, deterministic := true }
    let b : Octets := [0xD9, 0xD9, 0xF7, 0xD9, 0x01, 0x00, 0xA2, 0x62, 0x31, 0x30, 0x83, 0x64] ++
      ping ++ [0x3B, 0x7F, 0xFF, 0xFF, 0xFF, 0xFF, 0xFF, 0xFF, 0xFF, 0xF9, 0x80, 0x00,
        0xD8, 0x19, 0x00, 0xD8, 0x19, 0x00]
    j.Valid ∧ j.nesting ≤ 62 ∧ encode j.toItem (c.adjust Compose.defaults) = .ok b ∧
      ∃ v, decode b Inspect.defaults = .ok v ∧ v.toJson = j := by
  intro ping j c b
  have hkeys : "10" < "ping" := by decide
  have hfinite : Binary.double.isFinite 0x8000000000000000 = true := by decide
  have hj : j.Valid :=
    ⟨List.pairwise_pair.2 hkeys, by decide, ⟨trivial, ⟨by decide, by decide⟩, hfinite, trivial⟩,
      by decide, trivial, trivial⟩
  have hn : j.nesting ≤ 62 := by decide
  have he : encode j.toItem (c.adjust Compose.defaults) = .ok b := by cbv
  obtain ⟨b', hb', hread⟩ := inspect_compose hj hn c
  obtain rfl : b' = b := Except.ok.inj (hb'.symm.trans he)
  obtain ⟨t, ht, hdecode⟩ := hread (by decide)
  let again : Wire := .tag Tag.stringRef (.scalar (.unsigned 0))
  let w : Wire := .tag Tag.selfDescribe (.tag Tag.stringRefNamespace (.map false
    [(.string true [0x31, 0x30], .array false [.string true ping,
      .scalar (.negative 9223372036854775807), .scalar (.float16 0x8000)]), (again, again)]))
  have hw : w.Spelled b := .of_fits (Wire.fits_of_mem (n := b.length) w (by decide)) (by decide)
  obtain rfl : t = w := ht.unique hw (by decide)
  exact ⟨hj, hn, hb', hdecode (by decide)⟩

end Command
end Cbor
