import Cbor.Proofs.Encoder.Citation
import Cbor.Proofs.Encoder.Encode
import Cbor.Proofs.Encoder.Order
import Cbor.Proofs.Encoder.Plain

namespace Cbor.Encoder

open Emit

variable {mode : StringRef} {o : Options} {s s' : Sink} {a : Emit Unit}

/-- Where the writing `a` succeeds, it comes to the growing of `t`, and if references are in use, all
those in the tree name strings. -/
def Accepts (mode : StringRef) (a : Emit Unit)
    (t : (depth : Nat) → CellTable → Except Fault (Wire × CellTable)) : Prop :=
  ∀ s s', (mode = .off → s.strings = []) → after a s = .ok s' →
    ∃ r, t s.depth s.cells = .ok r ∧ s' = s.grow (mode ≠ .off) r ∧
      (mode ≠ .off → (r.1.cite s.strings).isSome)

def AcceptsAll (mode : StringRef) (a : Emit Unit)
    (t : (depth : Nat) → CellTable → Except Fault (List Wire × CellTable)) : Prop :=
  ∀ s s', (mode = .off → s.strings = []) → after a s = .ok s' →
    ∃ r, t s.depth s.cells = .ok r ∧ s' = s.growAll (mode ≠ .off) r ∧
      (mode ≠ .off → (Wire.citeAll s.strings r.1).isSome)

def AcceptsEntries (mode : StringRef) (a : Emit Unit)
    (t : (depth : Nat) → CellTable → Except Fault (List (Wire × Wire) × CellTable)) : Prop :=
  ∀ s s', (mode = .off → s.strings = []) → after a s = .ok s' →
    ∃ r, t s.depth s.cells = .ok r ∧ s' = s.growEntries (mode ≠ .off) r ∧
      (mode ≠ .off → (Wire.citeEntries s.strings r.1).isSome)

variable {t : (depth : Nat) → CellTable → Except Fault (Wire × CellTable)}

theorem strings_grow (hm : mode ≠ .off) (r : Wire × CellTable) :
    (s.grow (mode ≠ .off) r).strings = (r.1.refer true s.strings).2 := by
  rw [decide_eq_true hm]
  rfl

theorem strings_growEntries (hm : mode ≠ .off) (r : List (Wire × Wire) × CellTable) :
    (s.growEntries (mode ≠ .off) r).strings = (Wire.referEntries true s.strings r.1).2 := by
  rw [decide_eq_true hm]
  rfl

theorem Writes.accepts (h : Writes mode a t)
    (hp : ∀ depth cells r, t depth cells = .ok r → ∃ room, r.1.Plain room) : Accepts mode a t := by
  intro s s' hs ha
  rw [h s hs] at ha
  obtain ⟨r, hr, ha⟩ := bind_eq_ok.1 ha
  obtain ⟨room, hplain⟩ := hp s.depth s.cells r hr
  cases ha
  exact ⟨r, hr, rfl, fun _ ↦ r.1.isSome_cite s.strings hplain⟩

theorem of_nested (h : after (nested o a) s = .ok s') :
    checkDepth o s.depth = .ok () ∧
      ∃ t, after a { s with depth := s.depth + 1 } = .ok t ∧ s' = t.closed := by
  rw [after_nested] at h
  split at h
  case isTrue hd =>
    obtain ⟨t, ht, h⟩ := bind_eq_ok.1 h
    cases h
    exact ⟨checkDepth_eq_ok.2 hd, t, ht, rfl⟩
  case isFalse => cases h

theorem of_level {major : Nat} {n : UInt64} {content : Emit Unit}
    (h : after (nested o (head major n >>= fun _ ↦ content)) s = .ok s') :
    checkDepth o s.depth = .ok () ∧
      ∃ t, after content (s.opened major n) = .ok t ∧ s' = t.closed := by
  obtain ⟨hd, t, ht, rfl⟩ := of_nested h
  rw [after_seq, after_head, ok_bind] at ht
  exact ⟨hd, t, ht, rfl⟩

theorem accepts_nested (h : Accepts mode a t) :
    Accepts mode (nested (o.referring mode) a) fun depth cells ↦
      checkDepth o depth >>= fun _ ↦ t (depth + 1) cells := by
  intro s s' hs ha
  obtain ⟨hd, u, hu, rfl⟩ := of_nested ha
  obtain ⟨r, hr, rfl, hc⟩ := h { s with depth := s.depth + 1 } u hs hu
  exact ⟨r, bind_eq_ok.2 ⟨(), hd, hr⟩, rfl, hc⟩

def tagTree (o : Options) (number : UInt64)
    (t : (depth : Nat) → CellTable → Except Fault (Wire × CellTable)) (depth : Nat)
    (cells : CellTable) : Except Fault (Wire × CellTable) := do
  checkDepth o depth
  let (w, cells) ← t (depth + 1) cells
  return (.tag number w, cells)

theorem tagTree_eq_ok {number : UInt64} {depth : Nat} {cells : CellTable} {r : Wire × CellTable}
    (hd : checkDepth o depth = .ok ()) (hr : t (depth + 1) cells = .ok r) :
    tagTree o number t depth cells = .ok (.tag number r.1, r.2) := by
  rw [tagTree, hd, ok_bind, hr]
  rfl

theorem of_tagged {number : UInt64} (hn : ¬ (number = Tag.stringRefNamespace ∧ mode ≠ .off))
    (h : Accepts mode a t) (hs : mode = .off → s.strings = [])
    (ha : after (tagged (o.referring mode) number a) s = .ok s') :
    ∃ r, t (s.depth + 1) s.cells = .ok r ∧
      tagTree o number t s.depth s.cells = .ok (.tag number r.1, r.2) ∧
      s' = s.grow (mode ≠ .off) (.tag number r.1, r.2) ∧
      (mode ≠ .off → (r.1.cite s.strings).isSome) := by
  obtain ⟨hd, u, hu, rfl⟩ := of_level ha
  obtain ⟨r, hr, rfl, hc⟩ := h (s.opened 6 number) u hs hu
  exact ⟨r, hr, tagTree_eq_ok hd hr, s.grow_tag (by simpa using hn) r, hc⟩

theorem accepts_tagged {number : UInt64} (hn : ¬ (number = Tag.stringRefNamespace ∧ mode ≠ .off))
    (hr : ¬ (number = Tag.stringRef ∧ mode ≠ .off)) (h : Accepts mode a t) :
    Accepts mode (tagged (o.referring mode) number a) (tagTree o number t) := by
  intro s s' hs ha
  obtain ⟨r, -, ht, hg, hc⟩ := of_tagged hn h hs ha
  refine ⟨_, ht, hg, fun hm ↦ ?_⟩
  exact Wire.isSome_cite_tag (fun hns ↦ hn ⟨hns, hm⟩) (fun hsr ↦ absurd ⟨hsr, hm⟩ hr) (hc hm)

theorem accepts_namespaced (hm : mode ≠ .off) (h : Accepts mode a t) :
    Accepts mode (nested (o.referring mode) (inNamespace a))
      (tagTree o Tag.stringRefNamespace t) := by
  intro s s' hs ha
  obtain ⟨hd, u, hu, rfl⟩ := of_nested ha
  rw [after_inNamespace] at hu
  obtain ⟨v, hv, hclose⟩ := bind_eq_ok.1 hu
  cases hclose
  obtain ⟨r, hr, rfl, hc⟩ := h s.openedNamespace v (fun hoff ↦ absurd hoff hm) hv
  refine ⟨_, tagTree_eq_ok hd hr, ?_, fun hm ↦ Wire.isSome_cite_namespace (hc hm)⟩
  rw [decide_eq_true hm]
  exact s.grow_namespace r

/-- A reference that passes its check leaves no trace, and names a string. -/
theorem of_checkStringRef {content : Item} (h : after (checkStringRef content) s = .ok s') :
    s' = s ∧ ∃ index, content = .unsigned index ∧
      (Wire.named? s.strings (.scalar (.unsigned index))).isSome := by
  rw [checkStringRef, after_get_bind] at h
  split at h
  · cases h
  · rename_i hstrings
    split at h
    · rw [after_ite] at h
      split at h <;> cases h
      rename_i index hi
      refine ⟨rfl, index, rfl, ?_⟩
      rw [hstrings, Wire.named?, Array.getElem?_eq_getElem (by omega)]
      rfl
    · cases h

theorem accepts_tag {number : UInt64} {item : Item} (h : Accepts mode a t)
    (hitem : ∀ index, item = .unsigned index →
      ∀ depth cells, t depth cells = .ok (.scalar (.unsigned index), cells)) :
    Accepts mode (tag (o.referring mode) number item a) fun depth cells ↦
      tagTree o number t depth
        (if number = Tag.shareable ∧ o.sharedRef then cells.push none else cells) := by
  intro s s' hs ha
  have hr : (o.referring mode).stringRef = mode := rfl
  have hsr : (o.referring mode).sharedRef = o.sharedRef := rfl
  rw [tag] at ha
  simp only [hr, hsr] at ha
  by_cases hns : number = Tag.stringRefNamespace ∧ mode ≠ .off
  · rw [if_pos hns] at ha
    obtain ⟨rfl, hm⟩ := hns
    exact accepts_namespaced hm h s s' hs ha
  rw [if_neg hns] at ha
  by_cases href : number = Tag.stringRef ∧ mode ≠ .off
  · obtain ⟨rfl, hm⟩ := href
    rw [if_pos ⟨rfl, hm⟩, after_seq] at ha
    obtain ⟨u, hu, hw⟩ := bind_eq_ok.1 ha
    obtain ⟨rfl, index, rfl, hnamed⟩ := of_checkStringRef hu
    have hsh : ¬ (Tag.stringRef = Tag.shareable ∧ o.sharedRef) := by simp +decide
    simp only [if_neg hsh] at hw ⊢
    obtain ⟨r, hr, ht, hg, -⟩ := of_tagged hns h hs hw
    cases (hitem index rfl _ _).symm.trans hr
    refine ⟨_, ht, hg, fun _ ↦ ?_⟩
    exact Wire.isSome_cite_tag (by decide) (fun _ ↦ hnamed) rfl
  rw [if_neg href] at ha
  have htagged := accepts_tagged (o := o) hns href h
  -- a tag 28 of the caller takes a number before its content is written
  split
  case isTrue hc =>
    rw [if_pos hc] at ha
    exact htagged { s with cells := s.cells.push none } s' hs ha
  case isFalse hc =>
    rw [if_neg hc] at ha
    exact htagged s s' hs ha

theorem accepts_shareable {cell : Nat} {item : Item} (h : Accepts mode a t) :
    Accepts mode (shareable (o.referring mode) cell item a) fun depth cells ↦ do
      if o.flags.contains .cde then throw .unsupportedValue
      if item.isShareable then throw (.tagValue Tag.shareable)
      checkDepth o depth
      match lookupCell o cell cells with
      | (some index, cells) =>
        return (.tag Tag.sharedRef (.scalar (.unsigned (.ofNat index))), cells)
      | (none, cells) =>
        let (w, cells) ← t (depth + 1) cells
        return (.tag Tag.shareable w, cells) := by
  intro s s' hs ha
  have hf : (o.referring mode).flags = o.flags := rfl
  have hl : lookupCell (o.referring mode) cell s.cells = lookupCell o cell s.cells := rfl
  simp only [shareable, hf] at ha
  by_cases hc : o.flags.contains .cde = true
  · rw [if_pos hc] at ha
    cases ha
  by_cases hi : item.isShareable = true
  · rw [if_neg hc, if_pos hi] at ha
    cases ha
  rw [if_neg hc, if_neg hi, after_findCell_bind, hl] at ha
  simp only [if_neg hc, if_neg hi]
  rcases hcell : lookupCell o cell s.cells with ⟨_ | index, cells⟩
  · rw [hcell] at ha
    have hn : ¬ (Tag.shareable = Tag.stringRefNamespace ∧ mode ≠ .off) := by simp +decide
    have hn' : ¬ (Tag.shareable = Tag.stringRef ∧ mode ≠ .off) := by simp +decide
    exact accepts_tagged hn hn' h { s with cells } s' hs ha
  · rw [hcell] at ha
    have hindex : Accepts mode (head 0 (.ofNat index)) fun _ cells ↦
        .ok (.scalar (.unsigned (.ofNat index)), cells) := by
      intro s s' _ ha
      cases ha
      exact ⟨_, rfl, (s.grow_scalar _ (.unsigned (.ofNat index))).symm, fun _ ↦ rfl⟩
    have hn : ¬ (Tag.sharedRef = Tag.stringRefNamespace ∧ mode ≠ .off) := by simp +decide
    have hn' : ¬ (Tag.sharedRef = Tag.stringRef ∧ mode ≠ .off) := by simp +decide
    exact accepts_tagged hn hn' hindex { s with cells } s' hs ha

/-- The writing of an entry and its trees. The key alone is written without references. -/
structure Admits (mode : StringRef) (p : EntryPlan) (t : EntryTrees) : Prop where
  key : ∀ depth, keyOctets p.key depth = t.key depth
  entry : AcceptsEntries mode p.entry fun depth cells ↦
    (fun r ↦ ([r.1], r.2)) <$> t.entry depth cells

theorem accepts_inTurn {zs : List (Octets × EntryPlan × EntryTrees)}
    (h : ∀ z ∈ zs, Admits mode z.2.1 z.2.2) :
    AcceptsEntries mode (zs.forM fun z ↦ z.2.1.entry) fun depth ↦
      entriesInTurn depth (zs.map fun z ↦ (z.1, z.2.2)) := by
  induction zs with
  | nil =>
    intro s s' _ ha
    cases ha
    exact ⟨([], s.cells), rfl, (s.growEntries_nil _).symm, fun _ ↦ rfl⟩
  | cons z zs ih =>
    intro s s' hs ha
    have ha : after (z.2.1.entry >>= fun _ ↦ zs.forM fun z ↦ z.2.1.entry) s = .ok s' := ha
    rw [after_seq] at ha
    obtain ⟨u, hu, ha⟩ := bind_eq_ok.1 ha
    obtain ⟨_, hentry, rfl, hc⟩ := (h z List.mem_cons_self).entry s u hs hu
    obtain ⟨e, he, rfl⟩ := map_eq_ok.1 hentry
    obtain ⟨es, hes, rfl, hcs⟩ := ih (fun z hz ↦ h z (List.mem_cons_of_mem _ hz)) _ s'
      (strings_growEntries_off hs) ha
    refine ⟨(e.1 :: es.1, es.2), ?_, s.growEntries_growEntries _ e.1 e.2 es, fun hm ↦ ?_⟩
    · exact bind_eq_ok.2 ⟨e, he, bind_eq_ok.2 ⟨es, hes, rfl⟩⟩
    · refine Wire.isSome_citeEntries_cons (hc hm) ?_
      have hcs := hcs hm
      rwa [strings_growEntries hm] at hcs

theorem accepts_sortedEntries {ps : List EntryPlan} {ts : List EntryTrees}
    (h : List.Forall₂ (Admits mode) ps ts) :
    AcceptsEntries mode (sortedEntries ps) (sortedTrees ts) := by
  intro s s' hs ha
  rw [after_sortedEntries] at ha
  obtain ⟨ks, hks, ha⟩ := bind_eq_ok.1 ha
  have hkey (p : EntryPlan) (t : EntryTrees) (hpt : Admits mode p t) :
      Implies (keyOctets p.key s.depth) (t.key s.depth) := hpt.key s.depth ▸ .refl _
  obtain ⟨zs, hzs, rfl, hts⟩ := exists_of_keyed hkey h hks
  rw [sortKeyed_left, List.forM_eq_forM, List.forM_map] at ha
  obtain ⟨r, hr, rfl, hc⟩ := accepts_inTurn (fun z hz ↦ (hzs z (mem_sortKeyed.1 hz)).2) s s' hs ha
  refine ⟨r, ?_, rfl, hc⟩
  rw [sortedTrees_eq, hts, ok_bind, sortKeyed_right]
  exact hr

mutual

/-- Where an item is written, it is written as its tree. -/
theorem accepts_write : (v : Item) → ∀ (mode : StringRef) (o : Options) (asKey : Bool),
    Accepts mode (write (o.referring mode) asKey v) (tree o asKey v)
  | .unsigned _, _, o, asKey | .negative _, _, o, asKey | .bytes _, _, o, asKey
  | .text _, _, o, asKey | .string _, _, o, asKey | .bool _, _, o, asKey | .null, _, o, asKey
  | .undefined, _, o, asKey | .float16 _, _, o, asKey | .float32 _, _, o, asKey
  | .float64 _, _, o, asKey | .dateTime _, _, o, asKey | .bignum _, _, o, asKey
  | .decimal _, _, o, asKey | .bigFloat _, _, o, asKey | .uri _, _, o, asKey =>
    Writes.accepts (writes_write _ (.inr (by trivial)) o asKey) fun _ _ _ hr ↦
      ⟨_, plain_tree _ (by trivial) hr⟩
  | .array items, mode, o, asKey => by
    intro s s' hs ha
    rw [write] at ha
    obtain ⟨hd, u, hu, rfl⟩ := of_level ha
    obtain ⟨r, hr, rfl, hc⟩ := accepts_writeAll items mode o (s.opened 4 _) u (fun hm ↦ hs hm) hu
    refine ⟨(.array false r.1, r.2), ?_, s.grow_array (length_treeAll hr),
      fun hm ↦ Wire.isSome_cite_array (hc hm)⟩
    rw [tree]
    exact bind_eq_ok.2 ⟨(), hd, bind_eq_ok.2 ⟨r, hr, rfl⟩⟩
  | .map entries, mode, o, asKey => by
    intro s s' hs ha
    rw [write] at ha
    obtain ⟨hd, u, hu, rfl⟩ := of_level ha
    rw [tree]
    have hf : (o.referring mode).flags = o.flags := rfl
    rw [hf] at hu
    split at hu
    case isTrue hf =>
      obtain ⟨r, hr, rfl, hc⟩ := accepts_sortedEntries (accepts_entryPlans entries mode o)
        (s.opened 5 _) u (fun hm ↦ hs hm) hu
      refine ⟨(.map false r.1, r.2), ?_, s.grow_map (length_sortedTrees hr),
        fun hm ↦ Wire.isSome_cite_map (hc hm)⟩
      rw [if_pos hf]
      exact bind_eq_ok.2 ⟨(), hd, bind_eq_ok.2 ⟨r, hr, rfl⟩⟩
    case isFalse hf =>
      obtain ⟨r, hr, rfl, hc⟩ := accepts_writeEntries entries mode o (s.opened 5 _) u
        (fun hm ↦ hs hm) hu
      refine ⟨(.map false r.1, r.2), ?_, s.grow_map (length_treeEntries hr),
        fun hm ↦ Wire.isSome_cite_map (hc hm)⟩
      rw [if_neg hf]
      exact bind_eq_ok.2 ⟨(), hd, bind_eq_ok.2 ⟨r, hr, rfl⟩⟩
  | .tag number content, mode, o, asKey => by
    rw [write]
    refine accepts_tag (accepts_write content mode o false) ?_
    rintro index rfl _ _
    rfl
  | .shareable cell content, mode, o, asKey => by
    intro s s' hs ha
    rw [write] at ha
    split at ha
    case isTrue => cases ha
    case isFalse hk =>
      obtain ⟨r, hr, rfl, hc⟩ := accepts_shareable (accepts_write content mode o false) s s' hs ha
      refine ⟨r, ?_, rfl, hc⟩
      rw [tree, if_neg hk]
      exact hr
  | .custom hook result, mode, o, asKey => by
    intro s s' hs ha
    rw [write] at ha
    split at ha
    case isTrue => cases ha
    case isFalse hk =>
      obtain ⟨r, hr, rfl, hc⟩ := accepts_nested (accepts_writeResult result mode o) s s' hs ha
      refine ⟨r, ?_, rfl, hc⟩
      rw [tree, if_neg hk]
      exact hr
  | .params p content, mode, o, asKey => by
    intro s s' hs ha
    rw [write, after_liftExcept_bind, referring_override] at ha
    obtain ⟨_, hover, ha⟩ := bind_eq_ok.1 ha
    obtain ⟨inner, hp, rfl⟩ := map_eq_ok.1 hover
    obtain ⟨r, hr, rfl, hc⟩ := accepts_nested (accepts_write content mode inner asKey) s s' hs ha
    refine ⟨r, ?_, rfl, hc⟩
    rw [tree, hp, ok_bind]
    exact hr

theorem accepts_writeAll : (is : List Item) → ∀ (mode : StringRef) (o : Options),
    AcceptsAll mode (writeAll (o.referring mode) is) (treeAll o is)
  | [], mode, o => by
    intro s s' _ ha
    cases ha
    exact ⟨([], s.cells), rfl, (s.growAll_nil _).symm, fun _ ↦ rfl⟩
  | i :: is, mode, o => by
    intro s s' hs ha
    rw [writeAll, after_seq] at ha
    obtain ⟨u, hu, ha⟩ := bind_eq_ok.1 ha
    obtain ⟨r, hr, rfl, hc⟩ := accepts_write i mode o false s u hs hu
    obtain ⟨rs, hrs, rfl, hcs⟩ := accepts_writeAll is mode o _ s' (strings_grow_off hs) ha
    refine ⟨(r.1 :: rs.1, rs.2), ?_, s.growAll_grow _ r.1 r.2 rs, fun hm ↦ ?_⟩
    · exact bind_eq_ok.2 ⟨r, hr, bind_eq_ok.2 ⟨rs, hrs, rfl⟩⟩
    · exact Wire.isSome_citeAll_cons (hc hm) (strings_grow hm r ▸ hcs hm)

theorem accepts_writeEntries : (is : List (Item × Item)) → ∀ (mode : StringRef) (o : Options),
    AcceptsEntries mode (writeEntries (o.referring mode) is) (treeEntries o is)
  | [], mode, o => by
    intro s s' _ ha
    cases ha
    exact ⟨([], s.cells), rfl, (s.growEntries_nil _).symm, fun _ ↦ rfl⟩
  | (k, i) :: is, mode, o => by
    intro s s' hs ha
    rw [writeEntries, after_seq] at ha
    obtain ⟨u, hu, ha⟩ := bind_eq_ok.1 ha
    rw [after_seq] at ha
    obtain ⟨v, hv, ha⟩ := bind_eq_ok.1 ha
    obtain ⟨key, hkey, rfl, hck⟩ := accepts_write k mode o true s u hs hu
    have hs' := strings_grow_off (r := key) hs
    obtain ⟨r, hr, rfl, hc⟩ := accepts_write i mode o false _ v hs' hv
    obtain ⟨rs, hrs, rfl, hcs⟩ := accepts_writeEntries is mode o _ s' (strings_grow_off hs') ha
    refine ⟨((key.1, r.1) :: rs.1, rs.2), ?_, s.growEntries_grow _ key.1 r.1 key.2 r.2 rs,
      fun hm ↦ ?_⟩
    · exact bind_eq_ok.2 ⟨key, hkey, bind_eq_ok.2 ⟨r, hr, bind_eq_ok.2 ⟨rs, hrs, rfl⟩⟩⟩
    · have hc := hc hm
      have hcs := hcs hm
      rw [strings_grow hm] at hc
      rw [strings_grow hm, strings_grow hm] at hcs
      exact Wire.isSome_citeEntries_cons (Wire.isSome_citeEntry (hck hm) hc) hcs

theorem accepts_entryPlans : (is : List (Item × Item)) → ∀ (mode : StringRef) (o : Options),
    List.Forall₂ (Admits mode) (entryPlans (o.referring mode) is) (entryTrees o is)
  | [], _, _ => .nil
  | (k, i) :: is, mode, o => by
    refine .cons ⟨?_, fun s s' hs ha ↦ ?_⟩ (accepts_entryPlans is mode o)
    · exact (writes_write k (.inl (Eq.refl StringRef.off)) o.withoutReferences true).keyOctets
    · rw [after_seq] at ha
      obtain ⟨u, hu, ha⟩ := bind_eq_ok.1 ha
      obtain ⟨key, hkey, rfl, hck⟩ := accepts_write k mode o true s u hs hu
      obtain ⟨r, hr, rfl, hc⟩ := accepts_write i mode o false _ s' (strings_grow_off hs) ha
      refine ⟨([(key.1, r.1)], r.2), ?_, ?_, fun hm ↦ ?_⟩
      · exact map_eq_ok.2 ⟨((key.1, r.1), r.2),
          bind_eq_ok.2 ⟨key, hkey, bind_eq_ok.2 ⟨r, hr, rfl⟩⟩, rfl⟩
      · exact (Sink.growEntries_nil _ _).symm.trans
          (s.growEntries_grow _ key.1 r.1 key.2 r.2 ([], r.2))
      · exact Wire.isSome_citeEntry (hck hm) (strings_grow hm key ▸ hc hm)

theorem accepts_writeResult : (result : Except Fault Item) → ∀ (mode : StringRef) (o : Options),
    Accepts mode (writeResult (o.referring mode) result) (treeResult o result)
  | .error _, _, _ => fun _ _ _ ha ↦ by cases ha
  | .ok i, mode, o => accepts_write i mode o false

end

def StringRef.tables : StringRef → List StringTable
  | .on => [#[]]
  | .off | .explicit => []

/-- What is encoded is the tree of the item, with references put in and the self-describe tag in
front, and if references are in use, all those in the tree name strings. -/
theorem exists_cited_of_encode {v : Item} {b : Octets} (h : encode v o = .ok b) :
    ∃ r, tree o false v 0 #[] = .ok r ∧
      b = (if o.flags.contains .selfDescribe then Tag.selfDescribeHead else []) ++
        (r.1.referring o.stringRef).octets ∧
      (o.stringRef ≠ .off → (r.1.cite o.stringRef.tables).isSome) := by
  have ho : o.referring o.stringRef = o := rfl
  have hsink : o.sink.octets.toList =
      if o.flags.contains .selfDescribe then Tag.selfDescribeHead else [] := by
    unfold Options.sink
    split <;> rfl
  rw [encode_eq_after] at h
  obtain ⟨_, -, h⟩ := bind_eq_ok.1 h
  obtain ⟨s, hs, rfl⟩ := map_eq_ok.1 h
  have haccepts := accepts_write v o.stringRef o false
  rw [ho] at haccepts
  rw [← hsink]
  cases hm : o.stringRef with
  | on =>
    rw [if_pos hm, after_inNamespace] at hs
    obtain ⟨t, ht, hs⟩ := bind_eq_ok.1 hs
    cases hs
    obtain ⟨r, hr, rfl, hc⟩ := haccepts _ t (fun hoff ↦ by cases hm.symm.trans hoff) ht
    refine ⟨r, hr, ?_, fun _ ↦ hc (by simp [hm])⟩
    simp [hm, Sink.grow, Sink.extend, Sink.add, Wire.referring, Wire.octets, Wire.lexemes,
      Lexeme.write, Options.sink]
  | off =>
    rw [if_neg (by simp [hm])] at hs
    obtain ⟨r, hr, rfl, -⟩ := haccepts _ s (fun _ ↦ rfl) hs
    refine ⟨r, hr, ?_, fun hoff ↦ absurd rfl hoff⟩
    simp [hm, Sink.grow, Sink.extend, Sink.add, Wire.referring, Wire.refer_off, Options.sink]
  | explicit =>
    rw [if_neg (by simp [hm])] at hs
    obtain ⟨r, hr, rfl, hc⟩ := haccepts _ s (fun _ ↦ rfl) hs
    refine ⟨r, hr, ?_, fun _ ↦ hc (by simp [hm])⟩
    simp [hm, Sink.grow, Sink.extend, Sink.add, Wire.referring, Options.sink]

end Cbor.Encoder
