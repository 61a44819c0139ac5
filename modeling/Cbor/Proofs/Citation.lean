import Cbor.Proofs.Encoder.Accepted
import Cbor.Proofs.References
import Cbor.Proofs.Wire.Resolution
import Cbor.Proofs.Wire.Unique

namespace Cbor

open Decoder (Options)
open Encoder (exists_cited_of_encode)

/-- Each string in the tables has a number of 64 bits, also when `left` more octets are written. -/
structure Roomy (left : Nat) (tables : List StringTable) : Prop where
  left_lt : left < UInt64.size
  sizes : ∀ t ∈ tables, t.size + left < UInt64.size

namespace Roomy

variable {left : Nat} {tables outer : List StringTable} {inner : StringTable}

theorem mono {left' : Nat} (h : Roomy left tables) (hl : left' ≤ left) : Roomy left' tables where
  left_lt := Nat.lt_of_le_of_lt hl h.left_lt
  sizes := fun t ht ↦ Nat.lt_of_le_of_lt (Nat.add_le_add_left hl _) (h.sizes t ht)

theorem push (h : Roomy left tables) : Roomy left (#[] :: tables) where
  left_lt := h.left_lt
  sizes := List.forall_mem_cons.2 ⟨by simpa using h.left_lt, h.sizes⟩

theorem tail (h : Roomy left tables) : Roomy left tables.tail where
  left_lt := h.left_lt
  sizes := fun t ht ↦ h.sizes t (List.mem_of_mem_tail ht)

theorem record (h : Roomy (1 + left) (inner :: outer)) (e : Bool × Octets) :
    Roomy left (inner.push e :: outer) := by
  have hinner := h.sizes inner List.mem_cons_self
  have houter := h.mono (Nat.le_add_left left 1)
  refine ⟨houter.left_lt, List.forall_mem_cons.2 ⟨?_, (List.forall_mem_cons.1 houter.sizes).2⟩⟩
  rw [Array.size_push]
  omega

theorem nil (h : left < UInt64.size) : Roomy left [] := ⟨h, nofun⟩

end Roomy

namespace Wire

variable {left : Nat} {tables tables' : List StringTable}

/-- A string is read as itself, or the reference in its place is, and both sides number it alike. -/
theorem expand_referString (isText : Bool) (b : Octets)
    (h : Roomy ((referString isText b tables).1.octets.length + left) tables) :
    (referString isText b tables).1.expand tables =
        some (string isText b, (referString isText b tables).2) ∧
      Roomy left (referString isText b tables).2 := by
  have hleft := h.mono (Nat.le_add_left left _)
  cases tables with
  | nil => exact ⟨rfl, hleft⟩
  | cons inner outer =>
    rw [referString] at h ⊢
    rcases hl : inner.lookup isText b with ⟨_ | index, inner'⟩
    · rw [hl] at h
      have hroom : Roomy (1 + left) (inner :: outer) := by
        refine h.mono (Nat.add_le_add_right ?_ left)
        exact Nat.le_trans (Nat.le_add_right 1 _) (length_le_octets_string isText b)
      have hrecord := StringTable.eq_of_lookup_none hl
      refine ⟨by rw [hrecord]; rfl, ?_⟩
      dsimp only
      rw [hrecord]
      split
      · exact hroom.record _
      · exact hleft
    · obtain ⟨rfl, hi⟩ := StringTable.getElem?_of_lookup hl
      obtain ⟨hlt, -⟩ := Array.getElem?_eq_some_iff.1 hi
      have hsize := hleft.sizes _ List.mem_cons_self
      have hn : (UInt64.ofNat index).toNat = index := UInt64.toNat_ofNat_of_lt' (by omega)
      refine ⟨?_, hleft⟩
      simp +decide [expand, datum, Datum.index?, hn, hi]

mutual

/-- With the references of the writer in it, the tree reads as what it cites. -/
theorem expand_refer : (w : Wire) → ∀ {left : Nat} {tables tables' : List StringTable} {w' : Wire},
    w.cite tables = some (w', tables') →
    Roomy ((w.refer true tables).1.octets.length + left) tables →
    (w.refer true tables).1.expand tables = some (w', tables') ∧ Roomy left tables'
  | scalar _, left, _, _, _, hc, h | simple _ _, left, _, _, _, hc, h
  | chunks _ _, left, _, _, _, hc, h => by
    cases hc
    exact ⟨rfl, h.mono (Nat.le_add_left left _)⟩
  | string isText b, _, _, _, _, hc, h => by
    cases hc
    exact expand_referString isText b h
  | array indefinite items, left, tables, _, _, hc, h => by
    simp only [cite, Option.bind_eq_bind, Option.bind_eq_some_iff] at hc
    obtain ⟨⟨items', _⟩, hi, hc⟩ := hc
    cases hc
    have hlen := length_le_octets_array indefinite (referAll true tables items).1
    obtain ⟨he, ht⟩ := expand_referAll items hi (h.mono (Nat.add_le_add_right hlen left))
    exact ⟨by rw [refer, expand, he]; rfl, ht⟩
  | map indefinite entries, left, tables, _, _, hc, h => by
    simp only [cite, Option.bind_eq_bind, Option.bind_eq_some_iff] at hc
    obtain ⟨⟨entries', _⟩, hi, hc⟩ := hc
    cases hc
    have hlen := length_le_octets_map indefinite (referEntries true tables entries).1
    obtain ⟨he, ht⟩ := expand_referEntries entries hi (h.mono (Nat.add_le_add_right hlen left))
    exact ⟨by rw [refer, expand, he]; rfl, ht⟩
  | tag number content, left, tables, tables', w', hc, h => by
    rcases cite_tag hc with ⟨rfl, inner, hin, rfl⟩ |
      ⟨rfl, inner, outer, index, isText, b, rfl, rfl, hi, rfl, rfl⟩ | ⟨hns, hsr, content', hin, rfl⟩
    · rw [refer, if_pos ⟨rfl, rfl⟩] at h ⊢
      have hlen :=
        length_le_octets_tag Tag.stringRefNamespace (content.refer true (#[] :: tables)).1
      obtain ⟨he, ht⟩ := expand_refer content hin (h.mono (Nat.add_le_add_right hlen left)).push
      exact ⟨by rw [expand, if_pos rfl, he]; rfl, ht.tail⟩
    · refine ⟨?_, h.mono (Nat.le_add_left left _)⟩
      simp +decide [refer, expand, datum, Datum.index?, hi]
    · have hn : ¬ (number = Tag.stringRefNamespace ∧ true = true) := fun hn ↦ hns hn.1
      rw [refer, if_neg hn] at h ⊢
      have hlen := length_le_octets_tag number (content.refer true tables).1
      obtain ⟨he, ht⟩ := expand_refer content hin (h.mono (Nat.add_le_add_right hlen left))
      exact ⟨by rw [expand, if_neg hns, if_neg hsr, he]; rfl, ht⟩

theorem expand_referAll : (ws : List Wire) → ∀ {left : Nat} {tables tables' : List StringTable}
    {ws' : List Wire}, citeAll tables ws = some (ws', tables') →
    Roomy ((spell (lexemesAll (referAll true tables ws).1)).length + left) tables →
    expandAll tables (referAll true tables ws).1 = some (ws', tables') ∧ Roomy left tables'
  | [], left, _, _, _, hc, h => by
    cases hc
    exact ⟨rfl, h.mono (Nat.le_add_left left _)⟩
  | w :: ws, left, tables, _, _, hc, h => by
    simp only [citeAll, Option.bind_eq_bind, Option.bind_eq_some_iff] at hc
    obtain ⟨⟨w', between⟩, hw, ⟨ws', after⟩, hws, hc⟩ := hc
    cases hc
    rw [referAll, snd_refer w hw] at h ⊢
    simp only [lexemesAll, spell_append, List.length_append, Nat.add_assoc] at h
    obtain ⟨he, ht⟩ := expand_refer w hw h
    obtain ⟨hes, ht⟩ := expand_referAll ws hws ht
    exact ⟨by simp only [expandAll, he, hes, Option.bind_eq_bind, Option.bind_some]; rfl, ht⟩

theorem expand_referEntries : (es : List (Wire × Wire)) → ∀ {left : Nat}
    {tables tables' : List StringTable} {es' : List (Wire × Wire)},
    citeEntries tables es = some (es', tables') →
    Roomy ((spell (lexemesEntries (referEntries true tables es).1)).length + left) tables →
    expandEntries tables (referEntries true tables es).1 = some (es', tables') ∧ Roomy left tables'
  | [], left, _, _, _, hc, h => by
    cases hc
    exact ⟨rfl, h.mono (Nat.le_add_left left _)⟩
  | (k, v) :: es, left, tables, _, _, hc, h => by
    simp only [citeEntries, Option.bind_eq_bind, Option.bind_eq_some_iff] at hc
    obtain ⟨⟨k', afterKey⟩, hk, ⟨v', between⟩, hv, ⟨es', after⟩, hes, hc⟩ := hc
    cases hc
    rw [referEntries, snd_refer k hk, snd_refer v hv] at h ⊢
    simp only [lexemesEntries, spell_append, List.length_append, Nat.add_assoc] at h
    obtain ⟨hek, ht⟩ := expand_refer k hk h
    obtain ⟨hev, ht⟩ := expand_refer v hv ht
    obtain ⟨hees, ht⟩ := expand_referEntries es hes ht
    refine ⟨?_, ht⟩
    simp only [expandEntries, hek, hev, hees, Option.bind_eq_bind, Option.bind_some]
    rfl

end

end Wire

namespace Wire

theorem expand_referring {mode : Encoder.StringRef} (hm : mode ≠ .off) {t plain : Wire}
    {tables : List StringTable} (hc : t.cite mode.tables = some (plain, tables))
    (hb : (t.referring mode).octets.length < UInt64.size) :
    Prod.fst <$> (t.referring mode).expand [] = some plain := by
  cases mode with
  | off => exact absurd rfl hm
  | explicit =>
    have hroom : Roomy ((t.refer true []).1.octets.length + 0) [] := .nil hb
    exact congrArg (Prod.fst <$> ·) (expand_refer t hc hroom).1
  | on =>
    have hlen := length_le_octets_tag Tag.stringRefNamespace (t.refer true [#[]]).1
    have hroom : Roomy ((t.refer true [#[]]).1.octets.length + 0) [#[]] :=
      .push (.nil (Nat.lt_of_le_of_lt hlen hb))
    have h : (t.refer true [#[]]).1.expand [#[]] = some (plain, tables) :=
      (expand_refer t hc hroom).1
    rw [referring, expand, if_pos rfl, h]
    rfl

theorem expand_announced (o : Encoder.Options) (w : Wire) :
    Prod.fst <$> (w.announced o).expand [] = (·.announced o) <$> Prod.fst <$> w.expand [] := by
  unfold announced
  split
  · rw [expand, if_neg (by decide), if_neg (by decide)]
    cases w.expand [] <;> rfl
  · cases w.expand [] <;> rfl

end Wire

/-- What is encoded with references to strings is the tree of the item with references in the place
of repeated strings. Read back, these and the references of the item's own are the strings that they
were for the writer, and no decoder that follows references to strings refuses one of them. -/
theorem encode_resolves {v : Item} {o : Encoder.Options} {b : Octets} (hm : o.stringRef ≠ .off)
    (h : encode v o = .ok b) (hb : b.length < UInt64.size) :
    ∃ t plain : Wire,
      encode v (o.referring .off) = .ok (t.announced o).octets ∧
      (∀ w : Wire, w.Spelled b ↔ w = (t.referring o.stringRef).announced o) ∧
      Prod.fst <$> t.cite o.stringRef.tables = some plain ∧
      Prod.fst <$> ((t.referring o.stringRef).announced o).expand [] = some (plain.announced o) ∧
      ∀ (p : Options) (data : Octets) (e : Fault), p.stringRef = true →
        p.flags.contains .edn = false → p.maxSize < UInt64.size →
        data.window p.offset p.length = b → decode data p = .error e →
        e.tag? ≠ some Tag.stringRef := by
  obtain ⟨r, hr, hw, hc⟩ := exists_cited_of_encode h
  obtain ⟨⟨plain, tables⟩, hc⟩ := Option.isSome_iff_exists.1 (hc hm)
  rw [← Wire.octets_announced] at hw
  subst hw
  have hlen : (r.1.referring o.stringRef).octets.length < UInt64.size :=
    Nat.lt_of_le_of_lt (length_le_announced o _) hb
  have hspelled : ((r.1.referring o.stringRef).announced o).Spelled
      ((r.1.referring o.stringRef).announced o).octets :=
    .of_fits (Wire.fits_of_mem _ (Nat.le_refl _)) hb
  have hexpand : Prod.fst <$> ((r.1.referring o.stringRef).announced o).expand [] =
      some (plain.announced o) := by
    rw [Wire.expand_announced, Wire.expand_referring hm hc hlen]
    rfl
  refine ⟨r.1, plain, ?_, fun w ↦ ⟨fun hw ↦ hw.unique hspelled hb, ?_⟩, ?_, hexpand, ?_⟩
  · rw [Encoder.encode_eq_after] at h
    obtain ⟨_, hcheck, -⟩ := bind_eq_ok.1 h
    rw [encode_eq (.inl rfl) o, hcheck, hr]
    rfl
  · rintro rfl
    exact hspelled
  · rw [hc]
    rfl
  · intro p data e hsr hv hs hdata he
    obtain ⟨⟨w', tables'⟩, hx, -⟩ := Option.map_eq_some_iff.1 hexpand
    rw [← hdata] at hspelled
    exact (resolves_decode hsr hv hs hspelled hx).tag_ne he

/-- A text that is repeated, also in a namespace of its own, and references of the item's own to it
and to another string. -/
theorem encode_resolves_nested :
    let ping : Octets := [0x70, 0x69, 0x6E, 0x67]
    let o : Encoder.Options := { stringRef := .on }
    let v : Item := .array [.text ping, .tag Tag.stringRef (.unsigned 0), .text ping,
      .tag Tag.stringRefNamespace (.array [.bytes ping, .text ping,
        .tag Tag.stringRef (.unsigned 1)])]
    let b : Octets := [0xD9, 0x01, 0x00, 0x84, 0x64] ++ ping ++ [0xD8, 0x19, 0x00, 0xD8, 0x19, 0x00,
      0xD9, 0x01, 0x00, 0x83, 0x44] ++ ping ++ [0x64] ++ ping ++ [0xD8, 0x19, 0x01]
    o.stringRef ≠ .off ∧ encode v o = .ok b ∧ b.length < UInt64.size ∧
      (∃ w plain : Wire, w.Spelled b ∧ Prod.fst <$> w.expand [] = some plain) ∧
      ∀ e, decode b {} = .error e → e.tag? ≠ some Tag.stringRef := by
  intro ping o v b
  have h : encode v o = .ok b := by cbv
  have hm : o.stringRef ≠ .off := by decide
  have hb : b.length < UInt64.size := by decide
  obtain ⟨t, plain, -, hw, -, hx, hd⟩ := encode_resolves hm h hb
  exact ⟨hm, h, hb, ⟨_, _, (hw _).2 rfl, hx⟩, fun e he ↦ hd {} b e rfl rfl (by decide) rfl he⟩

end Cbor
