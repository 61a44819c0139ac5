import Mathlib
import Cbor.Proofs.Atom
import Cbor.Proofs.Decoder.Items
import Cbor.Proofs.Encoder.Cells
import Cbor.Proofs.Encoder.Encode
import Cbor.Proofs.Item.Sharing

namespace Cbor

open Encoder (tree treeAll treeEntries)

/-- Options of writing and of reading that keep shared items shared. -/
structure Linked (o : Encoder.Options) (p : Decoder.Options) : Prop extends Matched o p where
  stringRef : o.stringRef = .off
  sharedRef : o.sharedRef = true
  sharedRef' : p.sharedRef = .shareable

namespace Encoder

/-- A shared item is written as a reference if its cell has been met before, and else in full. -/
theorem tree_shareable_eq_ok {o : Options} (hc : o.flags.contains .cde = false)
    (hs : o.sharedRef = true) {cell depth : Nat} {content : Item} {cells : CellTable}
    {r : Wire × CellTable} (h : tree o false (.shareable cell content) depth cells = .ok r) :
    depth < o.maxDepth ∧
      ((∃ index, cells[index]? = some (some cell) ∧
        r = (.tag Tag.sharedRef (.scalar (.unsigned (.ofNat index))), cells)) ∨
      (some cell ∉ cells ∧ ∃ q, tree o false content (depth + 1) (cells.push (some cell)) = .ok q ∧
        r = (.tag Tag.shareable q.1, q.2))) := by
  simp only [tree, hc, Bool.false_eq_true, if_false] at h
  split at h
  · cases h
  simp only [bind_eq_ok, checkDepth_eq_ok, lookupCell, hs, if_true] at h
  obtain ⟨_, hd, h⟩ := h
  refine ⟨hd, ?_⟩
  rcases hl : cells.lookup cell with ⟨_ | index, found⟩
  · obtain ⟨rfl, hn⟩ := CellTable.eq_push_of_lookup hl
    simp only [hl, bind_eq_ok] at h
    obtain ⟨q, hq, h⟩ := h
    cases h
    exact .inr ⟨hn, q, hq, rfl⟩
  · obtain ⟨rfl, hi⟩ := CellTable.getElem?_of_lookup hl
    simp only [hl] at h
    cases h
    exact .inl ⟨index, hi, rfl⟩

end Encoder

/-- Where the reader stands when `used` octets are read at some depth and the writer has met the
cells in the table. Cells whose contents are still being read are `opened`; those contents are no
smaller than `bound`, so nothing below it refers to them. All other cells are closed. -/
structure Tracks (contents : Nat → Item) (ρ : Nat → Nat) (opened : List Nat) (bound : Nat)
    (cells : CellTable) (depth used : Nat) (s : Scope) : Prop where
  level : s.depth = depth
  strings : s.strings = []
  expanded : s.expanded ≤ used
  numbers : cells.size ≤ used
  slots : s.shared.size = cells.size
  pending : ∀ i ∈ opened, ∃ c, cells[i]? = some (some c) ∧ bound ≤ sizeOf (contents c)
  closed : ∀ (i c : Nat), cells[i]? = some (some c) → i ∉ opened →
    s.shared[i]? = some (some (.shareable i ((contents c).rename ρ), 1))

namespace Tracks

variable {contents : Nat → Item} {ρ : Nat → Nat} {opened : List Nat} {bound : Nat}
  {cells : CellTable} {depth used : Nat} {s : Scope}

theorem mono (h : Tracks contents ρ opened bound cells depth used s) {used' : Nat}
    (hu : used ≤ used') : Tracks contents ρ opened bound cells depth used' s :=
  { h with expanded := Nat.le_trans h.expanded hu, numbers := Nat.le_trans h.numbers hu }

theorem enter (h : Tracks contents ρ opened bound cells depth used s) {maxDepth : Nat}
    (hd : depth < maxDepth) :
    s.enter maxDepth = .ok { s with depth := depth + 1 } ∧
      Tracks contents ρ opened bound cells (depth + 1) used { s with depth := depth + 1 } := by
  refine ⟨?_, { h with level := rfl }⟩
  rw [Scope.enter, h.level, if_pos hd]

theorem leave (h : Tracks contents ρ opened bound cells (depth + 1) used s) :
    Tracks contents ρ opened bound cells depth used s.leave :=
  { h with level := by rw [Scope.leave, h.level, Nat.add_sub_cancel] }

theorem reserve (h : Tracks contents ρ opened bound cells depth used s) {cell : Nat}
    (hb : sizeOf (contents cell) ≤ bound) :
    Tracks contents ρ (cells.size :: opened) (sizeOf (contents cell)) (cells.push (some cell)) depth
      (used + 1) { s with shared := s.shared.push none } where
  level := h.level
  strings := h.strings
  expanded := Nat.le_succ_of_le h.expanded
  numbers := by
    rw [Array.size_push]
    exact Nat.succ_le_succ h.numbers
  slots := by rw [Array.size_push, Array.size_push, h.slots]
  pending i hi := by
    rcases List.mem_cons.1 hi with rfl | hi
    · exact ⟨cell, Array.getElem?_push_size, Nat.le_refl _⟩
    · obtain ⟨c, hc, hle⟩ := h.pending i hi
      exact ⟨c, CellTable.getElem?_push_old hc, Nat.le_trans hb hle⟩
  closed i c hi hn := by
    simp only [List.mem_cons, not_or] at hn
    rw [Array.getElem?_push, if_neg hn.1] at hi
    rw [Array.getElem?_push, h.slots, if_neg hn.1]
    exact h.closed i c hi hn.2

theorem close (h : Tracks contents ρ opened bound cells depth used s) {cells' : CellTable}
    (hg : cells.Grows cells') {i bound' depth' used' : Nat} {s' : Scope}
    (h' : Tracks contents ρ (i :: opened) bound' cells' depth' used' s') {cell : Nat}
    (hi : cells'[i]? = some (some cell)) {item : Item}
    (hitem : item = .shareable i ((contents cell).rename ρ)) :
    Tracks contents ρ opened bound cells' depth' used'
      { s' with shared := s'.shared.setIfInBounds i (some (item, item.footprint)) } where
  level := h'.level
  strings := h'.strings
  expanded := h'.expanded
  numbers := h'.numbers
  slots := by rw [Array.size_setIfInBounds, h'.slots]
  pending j hj := by
    obtain ⟨c, hc, hle⟩ := h.pending j hj
    exact ⟨c, hg.keeps j c hc, hle⟩
  closed j c hj hn := by
    rw [Array.getElem?_setIfInBounds]
    by_cases hij : i = j
    · subst hij
      obtain rfl : cell = c := Option.some.inj (Option.some.inj (hi.symm.trans hj))
      rw [if_pos rfl, h'.slots, if_pos (Array.getElem?_eq_some_iff.1 hi).1, hitem]
      rfl
    · rw [if_neg hij]
      exact h'.closed j c hj (by simp [hn, Ne.symm hij])

/-- What a tag 29 names is closed: open contents are not inside of themselves. -/
theorem getElem?_shared (h : Tracks contents ρ opened bound cells depth used s) {i cell : Nat}
    (hi : cells[i]? = some (some cell)) (hb : sizeOf (contents cell) < bound) :
    s.shared[i]? = some (some (.shareable i ((contents cell).rename ρ), 1)) := by
  refine h.closed i cell hi fun hm ↦ ?_
  obtain ⟨c, hc, hle⟩ := h.pending i hm
  obtain rfl : cell = c := Option.some.inj (Option.some.inj (hi.symm.trans hc))
  omega

end Tracks

open Assembly

section

variable (p : Decoder.Options) (contents : Nat → Item) (ρ : Nat → Nat) (opened : List Nat)
  (bound : Nat) (cells cells' : CellTable) (depth : Nat)

/-- Between the tables `cells` and `cells'` of the writer, `w` is read as `v` over other cells. -/
def Brings (w : Wire) (v : Item) : Prop :=
  ∀ (used : Nat) (s : Scope) (shared : Bool), Tracks contents ρ opened bound cells depth used s →
    used + w.octets.length ≤ p.maxSize → (shared = true → v.isShareable = false) →
    ∃ raw s', w.meaning p shared s = .ok (raw, s') ∧ raw.native p.flags = v.rename ρ ∧
      Tracks contents ρ opened bound cells' depth (used + w.octets.length) s'

def BringsAll (ws : List Wire) (items : List Item) : Prop :=
  ∀ (used : Nat) (s : Scope) (done : Array Item),
    Tracks contents ρ opened bound cells depth used s →
    used + (Wire.spell (Wire.lexemesAll ws)).length ≤ p.maxSize →
    ∃ s', Wire.meaningAll p false done s ws = .ok (done ++ Item.renameAll ρ items, s') ∧
      Tracks contents ρ opened bound cells' depth
        (used + (Wire.spell (Wire.lexemesAll ws)).length) s'

def BringsEntries (es : List (Wire × Wire)) (entries : List (Item × Item)) : Prop :=
  ∀ (used : Nat) (s : Scope) (done : Array (Item × Item)),
    Tracks contents ρ opened bound cells depth used s →
    used + (Wire.spell (Wire.lexemesEntries es)).length ≤ p.maxSize →
    Item.Keyed (done.toList.map Prod.fst ++ (Item.renameEntries ρ entries).map Prod.fst) →
    ∃ s', Wire.meaningEntries p false done s es = .ok (done ++ Item.renameEntries ρ entries, s') ∧
      Tracks contents ρ opened bound cells' depth
        (used + (Wire.spell (Wire.lexemesEntries es)).length) s'

end

variable {o : Encoder.Options} {p : Decoder.Options} {contents : Nat → Item} {ρ : Nat → Nat}
  {opened : List Nat} {bound : Nat} {cells cells' cells'' : CellTable} {depth : Nat}

theorem brings_of_reads {w : Wire} {raw v : Item} (h : Wire.Reads p depth w raw)
    (hn : raw.native p.flags = v.rename ρ) :
    Brings p contents ρ opened bound cells cells depth w v := fun _ s shared ht _ _ ↦
  ⟨raw, s, h shared s (Nat.le_of_eq ht.level) ht.strings, hn, ht.mono (Nat.le_add_right ..)⟩

theorem brings_array {ws : List Wire} {items : List Item} (hd : depth < p.maxDepth)
    (h : BringsAll p contents ρ opened bound cells cells' (depth + 1) ws items) :
    Brings p contents ρ opened bound cells cells' depth (.array false ws) (.array items) := by
  intro used s shared ht hs _
  have hl := Wire.length_le_octets_array false ws
  obtain ⟨he, ht⟩ := ht.enter hd
  obtain ⟨s', hm, ht'⟩ := h used _ #[] ht (by omega)
  refine ⟨.array (Item.renameAll ρ items), s'.leave, ?_, rfl, ht'.leave.mono (by omega)⟩
  rw [Wire.meaning, he, ok_bind, hm]
  simp

theorem brings_map {es : List (Wire × Wire)} {entries : List (Item × Item)}
    (hd : depth < p.maxDepth) (hk : Item.Keyed (entries.map Prod.fst))
    (h : BringsEntries p contents ρ opened bound cells cells' (depth + 1) es entries) :
    Brings p contents ρ opened bound cells cells' depth (.map false es) (.map entries) := by
  intro used s shared ht hs _
  have hl := Wire.length_le_octets_map false es
  obtain ⟨he, ht⟩ := ht.enter hd
  obtain ⟨s', hm, ht'⟩ := h used _ #[] ht (by omega) (by simpa [Item.keys_renameEntries ρ hk])
  refine ⟨.map (Item.renameEntries ρ entries), s'.leave, ?_, rfl, ht'.leave.mono (by omega)⟩
  rw [Wire.meaning, he, ok_bind, hm]
  simp

theorem brings_tag {number : UInt64} (hi : number ∉ Item.interpreted) (hr : number ∉ Tag.references)
    (hd : depth < p.maxDepth) {w : Wire} {v : Item}
    (h : Brings p contents ρ opened bound cells cells' (depth + 1) w v) :
    Brings p contents ρ opened bound cells cells' depth (.tag number w) (.tag number v) := by
  intro used s shared ht hs _
  have hl := Wire.length_le_octets_tag number w
  obtain ⟨he, ht⟩ := ht.enter hd
  obtain ⟨raw, s', hm, hn, ht'⟩ := h used _ false ht (by omega) nofun
  refine ⟨.tag number (v.rename ρ), s'.leave, ?_, rfl, ht'.leave.mono (by omega)⟩
  simp only [Wire.meaning, he, ok_bind, openRole_unrelated hr, TagRole.isShareable, hm,
    closeTag_plain, tagged, Tag.interpret_eq_none hi, hn]
  rfl

theorem brings_sharedRef (hsh : p.sharedRef = .shareable) (hm : p.maxSize < UInt64.size)
    (hd : depth < p.maxDepth) {index cell : Nat} (hi : cells[index]? = some (some cell))
    (hn : ρ cell = index) {v : Item} (hv : contents cell = v) (hb : sizeOf v < bound) :
    Brings p contents ρ opened bound cells cells depth
      (.tag Tag.sharedRef (.scalar (.unsigned (.ofNat index)))) (.shareable cell v) := by
  intro used s shared ht hs _
  subst hv
  have hlive : p.sharedRef ≠ .off := by simp [hsh]
  obtain ⟨he, -⟩ := ht.enter hd
  have hslot := ht.getElem?_shared hi hb
  have hindex : (UInt64.ofNat index).toNat = index := by
    have hlt := (Array.getElem?_eq_some_iff.1 hi).1
    have hused := ht.numbers
    exact UInt64.toNat_ofNat_of_lt' (by omega)
  have hlen := Wire.length_octets_pos (.tag Tag.sharedRef (.scalar (.unsigned (.ofNat index))))
  have hexp := ht.expanded
  have hleave : ({ s with depth := depth + 1 } : Scope).leave = s := by
    rw [← ht.level]
    rfl
  refine ⟨.shareable index ((contents cell).rename ρ), { s with expanded := s.expanded + 1 }, ?_,
    by rw [Item.rename, hn]; rfl, ?_⟩
  · simp only [Wire.meaning, he, ok_bind, openRole_sharedRef hlive, hleave, closeTag, Scalar.item,
      SharedItems.resolve, hindex, hslot, Scope.charge, Lexeme.checkSize]
    rw [if_pos (by omega)]
    rfl
  · exact { ht.mono (Nat.le_add_right ..) with expanded := by simp only; omega }

theorem brings_shareable (hsh : p.sharedRef = .shareable) (hd : depth < p.maxDepth) {cell : Nat}
    (hn : ρ cell = cells.size) (hnew : some cell ∉ cells)
    (hg : CellTable.Grows (cells.push (some cell)) cells') {v : Item} (hv : contents cell = v)
    (hb : sizeOf v ≤ bound) (hc : v.isShareable = false) {w : Wire}
    (h : Brings p contents ρ (cells.size :: opened) (sizeOf v) (cells.push (some cell)) cells'
      (depth + 1) w v) :
    Brings p contents ρ opened bound cells cells' depth (.tag Tag.shareable w)
      (.shareable cell v) := by
  intro used s shared ht hs hnest
  subst hv
  obtain rfl : shared = false := by
    cases shared with
    | false => rfl
    | true => exact nomatch hnest rfl
  have hlive : p.sharedRef ≠ .off := by simp [hsh]
  have hlen := Wire.length_lt_octets_tag Tag.shareable w
  obtain ⟨he, ht'⟩ := ht.enter hd
  obtain ⟨raw, s', hm, hnat, hopen⟩ :=
    h (used + 1) _ true (ht'.reserve hb) (by omega) fun _ ↦ hc
  have hgrow : cells.Grows cells' := by
    refine (CellTable.grows_push fun c h ↦ ?_).trans hg
    cases h
    exact hnew
  have hi : cells'[cells.size]? = some (some cell) := hg.keeps _ _ Array.getElem?_push_size
  refine ⟨.shareable cells.size ((contents cell).rename ρ), _, ?_, by rw [Item.rename, hn]; rfl,
    (ht.close hgrow hopen.leave hi rfl).mono (by omega)⟩
  simp only [Wire.meaning, he, ok_bind, openRole_shareable hlive, TagRole.isShareable, hm, closeTag,
    hsh, if_true, hnat, ht.slots]

theorem bringsAll_nil : BringsAll p contents ρ opened bound cells cells depth [] [] := by
  intro used s done ht _
  exact ⟨s, by simp [Wire.meaningAll, Item.renameAll], ht.mono (Nat.le_add_right ..)⟩

theorem bringsAll_cons {w : Wire} {ws : List Wire} {v : Item} {items : List Item}
    (hw : Brings p contents ρ opened bound cells cells' depth w v)
    (hws : BringsAll p contents ρ opened bound cells' cells'' depth ws items) :
    BringsAll p contents ρ opened bound cells cells'' depth (w :: ws) (v :: items) := by
  intro used s done ht hs
  simp only [Wire.lexemesAll, Wire.spell_append, List.length_append] at hs ⊢
  obtain ⟨raw, s', hm, hn, ht'⟩ := hw used s false ht (by simp only [Wire.octets]; omega) nofun
  obtain ⟨s'', hms, ht''⟩ :=
    hws _ s' (done.push (v.rename ρ)) ht' (by simp only [Wire.octets]; omega)
  refine ⟨s'', ?_, by rwa [Wire.octets, Nat.add_assoc] at ht''⟩
  rw [Wire.meaningAll, hm, ok_bind]
  simp only [Wire.growth, Bool.false_eq_true, if_false, ok_bind, hn]
  rw [hms]
  simp [Item.renameAll]

theorem bringsEntries_nil : BringsEntries p contents ρ opened bound cells cells depth [] [] := by
  intro used s done ht _ _
  exact ⟨s, by simp [Wire.meaningEntries, Item.renameEntries], ht.mono (Nat.le_add_right ..)⟩

theorem bringsEntries_cons (ha : p.flags.contains .mapAsArray = false)
    (hu : p.flags.contains .mapNoDupKey = false) {k w : Wire} {es : List (Wire × Wire)}
    {rawKey : Item} {b : Octets} {v : Item} {entries : List (Item × Item)}
    (hk : Wire.Reads p depth k rawKey) (hkey : rawKey.mapKey p.flags = .ok (.string b))
    (hw : Brings p contents ρ opened bound cells cells' depth w v)
    (hes : BringsEntries p contents ρ opened bound cells' cells'' depth es entries) :
    BringsEntries p contents ρ opened bound cells cells'' depth ((k, w) :: es)
      ((.string b, v) :: entries) := by
  intro used s done ht hs hkeys
  have hnew : ∀ e ∈ done, (e.1 == Item.string b) = false := fun e he ↦
    hkeys.ne_of_mem e.1 (List.mem_map_of_mem he.val)
  simp only [Wire.lexemesEntries, Wire.spell_append, List.length_append] at hs ⊢
  obtain ⟨raw, s', hm, hn, ht'⟩ := hw used s false ht (by simp only [Wire.octets]; omega) nofun
  obtain ⟨s'', hms, ht''⟩ := hes _ s' (done.push (.string b, v.rename ρ)) ht'
    (by simp only [Wire.octets]; omega) (by simpa [Item.renameEntries, Item.rename] using hkeys)
  refine ⟨s'', ?_, ht''.mono (by simp only [Wire.octets]; omega)⟩
  rw [Wire.meaningEntries, hk false s (Nat.le_of_eq ht.level) ht.strings, ok_bind]
  simp only [Wire.entryKey, Wire.growth, Bool.false_eq_true, if_false, ok_bind, hkey, hu, false_and,
    pure_eq_ok]
  rw [hm, ok_bind, hn, insertEntry_of_new ha hnew, hms]
  simp [Item.renameEntries, Item.rename]

theorem brings_atom (hp : Linked o p) {v : Item} (ha : v.IsAtom) (hr : v.rename ρ = v)
    (hv : v.Formed o.flags Item.Lasting) {r : Wire × CellTable}
    (h : tree o false v depth cells = .ok r) :
    Brings p contents ρ opened bound cells r.2 depth r.1 v := by
  have hl : ∀ t, Item.Lasting (.dateTime t) → t.Stamped := fun _ h ↦ h.elim
  obtain ⟨raw, hraw, hn⟩ := Encoder.reads_atom hp.toMatched hl ha hv h
  rw [Encoder.cells_of_isAtom ha h]
  exact brings_of_reads hraw (by rw [hn, hr, Item.normal_of_lasting v hv])

mutual

/-- What an item is written as is read as that item over other cells. -/
theorem brings_tree (hp : Linked o p) : (v : Item) → v.Woven o.flags contents →
    ∀ {depth : Nat} {cells : CellTable} {r : Wire × CellTable},
    tree o false v depth cells = .ok r → CellTable.Numbered ρ r.2 →
    ∀ {opened : List Nat} {bound : Nat}, sizeOf v ≤ bound →
    Brings p contents ρ opened bound cells r.2 depth r.1 v
  | .unsigned _, hv, _, _, _, h, _, _, _, _ | .negative _, hv, _, _, _, h, _, _, _, _
  | .bytes _, hv, _, _, _, h, _, _, _, _ | .text _, hv, _, _, _, h, _, _, _, _
  | .string _, hv, _, _, _, h, _, _, _, _ | .bool _, hv, _, _, _, h, _, _, _, _
  | .null, hv, _, _, _, h, _, _, _, _ | .undefined, hv, _, _, _, h, _, _, _, _
  | .float16 _, hv, _, _, _, h, _, _, _, _ | .float32 _, hv, _, _, _, h, _, _, _, _
  | .float64 _, hv, _, _, _, h, _, _, _, _ | .dateTime _, hv, _, _, _, h, _, _, _, _
  | .bignum _, hv, _, _, _, h, _, _, _, _ | .decimal _, hv, _, _, _, h, _, _, _, _
  | .bigFloat _, hv, _, _, _, h, _, _, _, _ | .uri _, hv, _, _, _, h, _, _, _, _ =>
    brings_atom hp (by exact trivial) rfl hv h
  | .array items, hv, _, _, _, h, hn, _, _, hb => by
    simp only [tree, bind_eq_ok, Encoder.checkDepth_eq_ok] at h
    obtain ⟨_, hd, ws, hws, h⟩ := h
    cases h
    have hb : sizeOf items ≤ _ := Nat.le_trans (by simp) hb
    exact brings_array (hp.maxDepth.symm ▸ hd) (brings_treeAll hp items hv hws hn hb)
  | .map entries, hv, _, _, _, h, hn, _, _, hb => by
    simp only [tree, bind_eq_ok, Encoder.checkDepth_eq_ok, hp.twoWay.lacks .cde, Bool.false_eq_true,
      if_false] at h
    obtain ⟨_, hd, es, hes, h⟩ := h
    cases h
    have hb : sizeOf entries ≤ _ := Nat.le_trans (by simp) hb
    exact brings_map (hp.maxDepth.symm ▸ hd) hv.1
      (brings_treeEntries hp entries hv.1.string_of_mem hv.2 hes hn hb)
  | .tag number content, hv, _, _, _, h, hn, _, _, hb => by
    have hcells : ¬ (number = Tag.shareable ∧ o.sharedRef = true) := fun h ↦
      hv.2.1 (h.1 ▸ by decide)
    simp only [tree, bind_eq_ok, Encoder.checkDepth_eq_ok, if_neg hcells] at h
    obtain ⟨_, hd, w, hw, h⟩ := h
    cases h
    have hb : sizeOf content ≤ _ := Nat.le_trans (by simp) hb
    exact brings_tag hv.1 hv.2.1 (hp.maxDepth.symm ▸ hd) (brings_tree hp content hv.2.2 hw hn hb)
  | .shareable cell content, hv, _, _, _, h, hn, _, _, hb => by
    obtain ⟨hc, hcell, hv⟩ := hv
    have hlt : sizeOf content < _ :=
      Nat.lt_of_lt_of_le (by rw [Item.shareable.sizeOf_spec]; omega) hb
    obtain ⟨hd, ⟨index, hi, rfl⟩ | ⟨hnew, q, hq, rfl⟩⟩ :=
      Encoder.tree_shareable_eq_ok (hp.twoWay.lacks .cde) hp.sharedRef h
    · exact brings_sharedRef hp.sharedRef' hp.maxSize (hp.maxDepth.symm ▸ hd) hi (hn _ _ hi) hcell
        hlt
    · have hg := Encoder.grows_tree content hq
      have hi := hg.keeps _ _ Array.getElem?_push_size
      exact brings_shareable hp.sharedRef' (hp.maxDepth.symm ▸ hd) (hn _ _ hi) hnew hg hcell
        (Nat.le_of_lt hlt) hc (brings_tree hp content hv hq hn (Nat.le_refl _))

theorem brings_treeAll (hp : Linked o p) : (is : List Item) → Item.WovenAll o.flags contents is →
    ∀ {depth : Nat} {cells : CellTable} {r : List Wire × CellTable},
    treeAll o is depth cells = .ok r → CellTable.Numbered ρ r.2 →
    ∀ {opened : List Nat} {bound : Nat}, sizeOf is ≤ bound →
    BringsAll p contents ρ opened bound cells r.2 depth r.1 is
  | [], _, _, _, _, h, _, _, _, _ => by
    cases h
    exact bringsAll_nil
  | i :: is, hv, _, _, _, h, hn, _, _, hb => by
    simp only [treeAll, bind_eq_ok] at h
    obtain ⟨w, hw, ws, hws, h⟩ := h
    cases h
    have hg := Encoder.grows_treeAll is hws
    have hi : sizeOf i ≤ _ := Nat.le_trans (by rw [List.cons.sizeOf_spec]; omega) hb
    have his : sizeOf is ≤ _ := Nat.le_trans (by simp) hb
    exact bringsAll_cons (brings_tree hp i hv.1 hw (hn.of_grows hg) hi)
      (brings_treeAll hp is hv.2 hws hn his)

theorem brings_treeEntries (hp : Linked o p) : (is : List (Item × Item)) →
    (∀ k ∈ is.map Prod.fst, ∃ b : Octets, k = .string b ∧ b.head? ≠ some 0) →
    Item.WovenEntries o.flags contents is →
    ∀ {depth : Nat} {cells : CellTable} {r : List (Wire × Wire) × CellTable},
    treeEntries o is depth cells = .ok r → CellTable.Numbered ρ r.2 →
    ∀ {opened : List Nat} {bound : Nat}, sizeOf is ≤ bound →
    BringsEntries p contents ρ opened bound cells r.2 depth r.1 is
  | [], _, _, _, _, _, h, _, _, _, _ => by
    cases h
    exact bringsEntries_nil
  | (k, i) :: is, hk, hv, _, _, _, h, hn, _, _, hb => by
    simp only [treeEntries, bind_eq_ok] at h
    obtain ⟨key, hkey, w, hw, es, hes, h⟩ := h
    cases h
    obtain ⟨b, rfl, hnul⟩ := hk k List.mem_cons_self
    simp only [tree, if_true, bind_eq_ok] at hkey
    obtain ⟨key, hkey, h⟩ := hkey
    cases h
    obtain ⟨rawKey, hrk, hm⟩ := Encoder.reads_keyTree hp.toMatched hnul hkey
    have hg := Encoder.grows_treeEntries is hes
    have hi : sizeOf i ≤ _ :=
      Nat.le_trans (by rw [List.cons.sizeOf_spec, Prod.mk.sizeOf_spec]; omega) hb
    have his : sizeOf is ≤ _ := Nat.le_trans (by simp) hb
    refine bringsEntries_cons ?_ ?_ hrk hm (brings_tree hp i hv.1 hw (hn.of_grows hg) hi)
      (brings_treeEntries hp is (fun k hk' ↦ hk k (List.mem_cons_of_mem _ hk')) hv.2 hes hn his)
    · rw [hp.flags, hp.twoWay.lacks .mapAsArray]
    · rw [hp.flags, hp.twoWay.lacks .mapNoDupKey]

end

theorem Tracks.nextItem {used : Nat} {s : Scope}
    (h : Tracks contents ρ [] bound cells depth used s) (bound' : Nat) :
    Tracks contents ρ [] bound' cells 0 used s.nextItem :=
  { h with level := rfl, expanded := Nat.zero_le _, pending := nofun }

/-- What items are written as in turn is read as those items in turn over other cells. -/
theorem drain_treeAll (hp : Linked o p) (vs : List Item) (hv : Item.WovenAll o.flags contents vs)
    (hroot : ∀ v ∈ vs, ∀ content, v ≠ .tag Tag.selfDescribe content) {r : List Wire × CellTable}
    (h : treeAll o vs 0 cells = .ok r) (hn : CellTable.Numbered ρ r.2) {used : Nat} {s : Scope}
    (ht : Tracks contents ρ [] bound cells 0 used s)
    (hs : used + (Wire.spell (Wire.lexemesAll r.1)).length ≤ p.maxSize) (taken : Array Item) :
    ∃ s', (Decoder.between p s (Wire.spell (Wire.lexemesAll r.1))).drain taken =
      (taken ++ vs.map (Item.rename ρ), .ok (), Decoder.between p s' []) := by
  induction vs generalizing cells r used s taken bound with
  | nil =>
    cases h
    exact ⟨s, by simp [Wire.lexemesAll, Decoder.drain_between_nil]⟩
  | cons v vs ih =>
    simp only [treeAll, bind_eq_ok] at h
    obtain ⟨w, hw, ws, hws, h⟩ := h
    cases h
    have hg := Encoder.grows_treeAll vs hws
    have hoctets : Wire.spell (Wire.lexemesAll (w.1 :: ws.1)) =
        w.1.octets ++ Wire.spell (Wire.lexemesAll ws.1) := by
      rw [Wire.lexemesAll, Wire.spell_append, Wire.octets]
    simp only [hoctets, List.length_append] at hs ⊢
    have hidle : Tracks contents ρ [] (sizeOf v) cells 0 used s := { ht with pending := nofun }
    obtain ⟨raw, s', hm, hnat, ht'⟩ :=
      brings_tree hp v hv.1 hw (hn.of_grows hg) (Nat.le_refl _) used s false hidle (by omega) nofun
    have hraw : ∀ item, raw ≠ .tag Tag.selfDescribe item := fun item hi ↦ by
      rw [hi] at hnat
      obtain ⟨content, hc⟩ := Item.exists_of_rename_eq_tag hnat.symm
      exact hroot v List.mem_cons_self content hc
    obtain ⟨s'', hd⟩ := ih hv.2 (fun v hv ↦ hroot v (List.mem_cons_of_mem _ hv)) hws hn
      (ht'.nextItem 0) (by omega) (taken.push (v.rename ρ))
    refine ⟨s'', ?_⟩
    rw [Decoder.drain_between (by omega) hp.maxSize hm hraw, hnat, hd]
    simp

theorem tree_of_emitAll (hp : Linked o p) {vs : List Item} {e e' : Encoder}
    (he : Encoder.new o = .ok e) (hw : e.emitAll vs = (.ok (), e')) :
    o.check = .ok () ∧
      ∃ r, treeAll o vs 0 #[] = .ok r ∧ Wire.spell (Wire.lexemesAll r.1) = e'.octets := by
  obtain ⟨⟨⟩, hcheck, he⟩ := bind_eq_ok.1 he
  rw [hp.twoWay.lacks .selfDescribe, if_neg Bool.false_ne_true] at he
  cases he
  have hall := Encoder.octets_emitAll (s := {}) hp.stringRef rfl vs
  rw [show (o.encoder {}).emitAll vs = _ from hw, ok_bind] at hall
  exact ⟨hcheck, map_eq_ok.1 hall.symm⟩

/-- Sharing survives a stream. The decoder gives just the items that the encoder was given, over
other cells, and cells that were different stay different. -/
theorem feedAll_emitAll (hp : Linked o p) {vs : List Item}
    (hv : ∀ v ∈ vs, v.Woven o.flags contents)
    (hroot : ∀ v ∈ vs, ∀ content, v ≠ .tag Tag.selfDescribe content) {e e' : Encoder}
    (he : Encoder.new o = .ok e) (hw : e.emitAll vs = (.ok (), e'))
    (hs : e'.octets.length ≤ p.maxSize) (h0 : p.maxSize ≠ 0) {pieces : List Octets}
    (hpieces : pieces.flatten = e'.octets) :
    ∃ d ρ, Decoder.new p = .ok d ∧ Function.Injective ρ ∧
      let fed := d.feedAll #[] pieces
      fed.1.toList = vs.map (Item.rename ρ) ∧ (fed.1.toList == vs) = true ∧ fed.2.1 = .ok () ∧
        fed.2.2.isPartial = false := by
  obtain ⟨hcheck, r, hr, hoctets⟩ := tree_of_emitAll hp he hw
  have hnumbered : CellTable.Numbered r.2.number r.2 :=
    CellTable.numbered_number <|
      (Encoder.grows_treeAll vs hr).distinct (by simp [CellTable.Distinct])
  have hstart : Tracks contents r.2.number [] 0 #[] 0 0 {} :=
    ⟨rfl, rfl, Nat.le_refl _, Nat.le_refl _, rfl, nofun, by simp⟩
  obtain ⟨s, hdrain⟩ := drain_treeAll hp vs (Item.wovenAll_iff.2 hv) hroot hr hnumbered hstart
    (by rw [hoctets]; omega) #[]
  have hedn : p.flags.contains .edn = false := by rw [hp.flags, hp.twoWay.lacks .edn]
  rw [hoctets, ← hpieces] at hdrain
  have hfed := Decoder.feedAll_of_drain hedn (hpieces ▸ hs) hdrain
  refine ⟨Decoder.start p, r.2.number, ?_, r.2.number_injective, ?_⟩
  · rw [Decoder.new, hp.check hcheck h0]
    rfl
  · have hitems : ((#[] : Array Item) ++ vs.map (Item.rename r.2.number)).toList =
        vs.map (Item.rename r.2.number) := by simp
    rw [hfed]
    refine ⟨hitems, ?_, rfl, rfl⟩
    rw [hitems]
    exact Item.map_rename_beq _ vs

/-- A cell within a cell, met again in the same item and as part of the next one, and another cell
that holds an equal item. -/
theorem feedAll_emitAll_nested :
    let o : Encoder.Options := { sharedRef := true }
    let p : Decoder.Options := { sharedRef := .shareable }
    let inner : Item := .shareable 9 (.unsigned 1)
    let outer : Item := .shareable 5 (.array [inner, .unsigned 2])
    let vs : List Item := [.array [outer, inner], outer, .shareable 8 (.unsigned 1)]
    let e : Encoder := { options := o }
    let pieces : List Octets := [[0x82, 0xD8, 0x1C, 0x82, 0xD8], [0x1C, 0x01, 0x02, 0xD8, 0x1D, 0x01],
      [0xD8, 0x1D, 0x00, 0xD8, 0x1C, 0x01]]
    Encoder.new o = .ok e ∧ (e.emitAll vs).1 = .ok () ∧
      pieces.flatten = (e.emitAll vs).2.octets ∧
      ∃ d ρ, Decoder.new p = .ok d ∧ Function.Injective ρ ∧
        let fed := d.feedAll #[] pieces
        fed.1.toList = vs.map (Item.rename ρ) ∧ (fed.1.toList == vs) = true ∧ fed.2.1 = .ok () ∧
          fed.2.2.isPartial = false := by
  intro o p inner outer vs e pieces
  have hnew : Encoder.new o = .ok e := by cbv
  have hok : (e.emitAll vs).1 = .ok () := by decide +kernel
  have hoctets : pieces.flatten = (e.emitAll vs).2.octets := by decide +kernel
  let contents : Nat → Item := fun c ↦ if c = 5 then .array [inner, .unsigned 2] else .unsigned 1
  have hp : Linked o p := ⟨⟨rfl, Flags.twoWay_standard, rfl, rfl, by decide⟩, rfl, rfl, rfl⟩
  have hi : inner.Woven o.flags contents := ⟨rfl, rfl, trivial⟩
  have ho : outer.Woven o.flags contents := ⟨rfl, rfl, hi, trivial, trivial⟩
  have hv : Item.WovenAll o.flags contents vs :=
    ⟨⟨ho, hi, trivial⟩, ho, ⟨rfl, rfl, trivial⟩, trivial⟩
  refine ⟨hnew, hok, hoctets, feedAll_emitAll hp (Item.wovenAll_iff.1 hv) ?_ hnew (Prod.ext hok rfl)
    ?_ (by decide) hoctets⟩
  · simp [vs, outer]
  · rw [← hoctets]
    decide

end Cbor
