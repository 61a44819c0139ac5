import Mathlib
import Cbor.Proofs.Calendar.Rfc3339
import Cbor.Proofs.Encoder.Encode
import Cbor.Proofs.Wire.Decode

namespace Cbor

open Assembly
open Encoder (tree)

namespace Wire

def stamp (text : List Char) : Wire := tag Tag.dateTime (string true (Utf8.encode text))

theorem referring_stamp (mode : Encoder.StringRef) (text : List Char) :
    (stamp text).referring mode =
      if mode = .on then tag Tag.stringRefNamespace (stamp text) else stamp text := by
  have hdate : Tag.dateTime ≠ Tag.stringRefNamespace := by decide
  cases mode with
  | off => rfl
  | on => simp [referring, stamp, refer, hdate, referString, StringTable.lookup]
  | explicit => simp [referring, stamp, refer, hdate, referString]

theorem fst_meaning_stamp {o : Decoder.Options} {s : Scope} (hd : s.depth < o.maxDepth)
    (shared : Bool) (hg : o.groups.dateTime = true) (text : List Char) :
    Prod.fst <$> (stamp text).meaning o shared s =
      Item.dateTime <$> Tag.orValueFault Tag.dateTime (Rfc3339.parse? (Utf8.encode text)) := by
  have hr := openRole_unrelated (o := o) (show Tag.dateTime ∉ Tag.references by decide) shared
  have hu : checkText o (Utf8.encode text) = .ok () := if_pos (.inr (Utf8.isValid_encode text))
  have hi : Tag.interpret o.groups Tag.dateTime (.text (Utf8.encode text)) = some <$>
      Item.dateTime <$> Tag.orValueFault Tag.dateTime (Rfc3339.parse? (Utf8.encode text)) := by
    simp [Tag.interpret, hg, Tag.stampMeaning, Tag.textContent]
  rw [stamp, fst_meaning_plain hd hr, meaning_string, if_pos rfl, hu]
  simp only [ok_bind, map_ok, Item.ofString, tagged, hi]
  cases Rfc3339.parse? (Utf8.encode text) with
  | none => rfl
  | some t => rfl

end Wire

/-- Options of reading under which what other options leave of a date and time is understood: the
group is on, references and the self-describe tag are known, and there is room. -/
structure ReadsStamps (o : Encoder.Options) (p : Decoder.Options) : Prop where
  check : p.check = .ok ()
  items : p.flags.contains .edn = false
  group : p.groups.dateTime = true
  unannounced : o.flags.contains .selfDescribe = true → p.flags.contains .selfDescribe = false
  namespaces : o.stringRef = .on → p.stringRef = true
  room : (if o.stringRef = .on then 1 else 0) < p.maxDepth
  maxSize : p.maxSize < UInt64.size

variable {o : Encoder.Options} {p : Decoder.Options} {t : Moment} {b data : Octets}

theorem exists_of_encode_stamp (h : encode (.dateTime t) o = .ok b) :
    ∃ text, Rfc3339.format? t = some text ∧
      b = (((Wire.stamp text).referring o.stringRef).announced o).octets := by
  have hself : o.referring o.stringRef = o := rfl
  have hfree : o.stringRef = .off ∨ (Item.dateTime t).NoStringRef := .inr trivial
  have he := encode_eq hfree o
  rw [hself, h] at he
  obtain ⟨_, _, he⟩ := bind_eq_ok.1 he.symm
  obtain ⟨r, hr, rfl⟩ := map_eq_ok.1 he
  simp only [tree, bind_eq_ok] at hr
  obtain ⟨_, _, w, hw, hr⟩ := hr
  cases hr
  unfold Encoder.stampTree at hw
  split at hw
  · rename_i text ht
    obtain ⟨_, _, hw⟩ := bind_eq_ok.1 hw
    cases hw
    exact ⟨text, ht, rfl⟩
  · cases hw

theorem ReadsStamps.decode_stamp (h : ReadsStamps o p) {text : List Char}
    (hi : data.window p.offset p.length =
      (((Wire.stamp text).referring o.stringRef).announced o).octets)
    (hs : (data.window p.offset p.length).length ≤ p.maxSize) :
    decode data p =
      Item.dateTime <$> Tag.orValueFault Tag.dateTime (Rfc3339.parse? (Utf8.encode text)) := by
  have hp : (((Wire.stamp text).referring o.stringRef).announced o).unprefixed p =
      (Wire.stamp text).referring o.stringRef := by
    unfold Wire.announced
    split
    case isTrue hd => exact if_pos ⟨rfl, h.unannounced hd⟩
    case isFalse =>
      rw [Wire.referring_stamp]
      split
      · exact Wire.unprefixed_tag (by decide) _
      · exact Wire.unprefixed_tag (by decide) _
  have hm : Prod.fst <$> ((Wire.stamp text).referring o.stringRef).meaning p false {} =
      Item.dateTime <$> Tag.orValueFault Tag.dateTime (Rfc3339.parse? (Utf8.encode text)) := by
    rw [Wire.referring_stamp]
    have hroom := h.room
    split
    case isTrue hon =>
      rw [if_pos hon] at hroom
      rw [Wire.fst_meaning_namespace (Nat.lt_of_succ_lt hroom) (h.namespaces hon)]
      exact Wire.fst_meaning_stamp hroom false h.group text
    case isFalse hon =>
      rw [if_neg hon] at hroom
      exact Wire.fst_meaning_stamp hroom false h.group text
  rw [hi] at hs
  rw [Wire.decode_octets hi hs h.maxSize h.items, h.check, ok_bind, hp]
  -- a date and time is native as it is
  calc (fun r ↦ r.1.native p.flags) <$> ((Wire.stamp text).referring o.stringRef).meaning p false {}
      = Item.native p.flags <$> Prod.fst <$>
          ((Wire.stamp text).referring o.stringRef).meaning p false {} :=
        comp_map Prod.fst (Item.native p.flags) _
    _ = Item.native p.flags <$> Item.dateTime <$>
          Tag.orValueFault Tag.dateTime (Rfc3339.parse? (Utf8.encode text)) := by rw [hm]
    _ = Item.dateTime <$> Tag.orValueFault Tag.dateTime (Rfc3339.parse? (Utf8.encode text)) :=
        (comp_map Item.dateTime (Item.native p.flags) _).symm

/-- A date and time is read back as it was written if its offset is less than a day; an offset of a
day or more is written as well, but it is not one that a stamp may have. -/
theorem decode_encode_stamp (h : ReadsStamps o p) (ht : t.offset.natAbs < 93600)
    (he : encode (.dateTime t) o = .ok b) (hi : data.window p.offset p.length = b)
    (hs : b.length ≤ p.maxSize) :
    decode data p =
      if t.offset.natAbs < 86400 then .ok (.dateTime t) else .error (.tagValue Tag.dateTime) := by
  obtain ⟨text, hf, rfl⟩ := exists_of_encode_stamp he
  rw [h.decode_stamp hi (by rwa [hi]), Rfc3339.parse?_format? hf (by omega)]
  split
  · rfl
  · rfl

theorem readsStamps_default : ReadsStamps {} {} where
  check := rfl
  items := by decide
  group := rfl
  unannounced := by decide
  namespaces := nofun
  room := by decide
  maxSize := by decide

/-- `2013-03-21T14:34:00.5-05:30`. -/
theorem decode_encode_stamp_west :
    let t : Moment := { seconds := 1363896240, nanos := 500000000, offset := -19800 }
    let b : Octets :=
      [0xC0, 0x78, 0x1B, 0x32, 0x30, 0x31, 0x33, 0x2D, 0x30, 0x33, 0x2D, 0x32, 0x31, 0x54, 0x31,
       0x34, 0x3A, 0x33, 0x34, 0x3A, 0x30, 0x30, 0x2E, 0x35, 0x2D, 0x30, 0x35, 0x3A, 0x33, 0x30]
    encode (.dateTime t) {} = .ok b ∧ decode b {} = .ok (.dateTime t) := by
  intro t b
  have he : encode (.dateTime t) {} = .ok b := by cbv
  have hd := decode_encode_stamp readsStamps_default (by decide) he rfl (by decide)
  exact ⟨he, hd.trans (if_pos (by decide))⟩

/-- Midnight of 1970-01-02 where the clocks are a day ahead is written as
`1970-01-02T00:00:00+24:00`, which is not read. -/
theorem decode_encode_stamp_day_ahead :
    ¬ ∀ (t : Moment) (b : Octets), t.offset.natAbs < 93600 → encode (.dateTime t) {} = .ok b →
      decode b {} = .ok (.dateTime t) := by
  intro h
  let t : Moment := { seconds := 0, nanos := 0, offset := 86400 }
  let b : Octets :=
    [0xC0, 0x78, 0x19, 0x31, 0x39, 0x37, 0x30, 0x2D, 0x30, 0x31, 0x2D, 0x30, 0x32, 0x54, 0x30, 0x30,
     0x3A, 0x30, 0x30, 0x3A, 0x30, 0x30, 0x2B, 0x32, 0x34, 0x3A, 0x30, 0x30]
  have he : encode (.dateTime t) {} = .ok b := by cbv
  have hd : decode b {} = .error (.tagValue Tag.dateTime) :=
    (Wire.decode_octets (w := Wire.stamp "1970-01-02T00:00:00+24:00".toList) rfl (by decide)
      (by decide) (by decide)).trans rfl
  have hback := h t b (by decide) he
  rw [hd] at hback
  cases hback

end Cbor
