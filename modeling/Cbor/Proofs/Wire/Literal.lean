import Cbor.Proofs.Citation

namespace Cbor

open Decoder (Options)

namespace Wire

/-- A tree that nothing has to be put in the place of, whatever strings are numbered around it. -/
structure Literal (w : Wire) : Prop where
  ne_tag : ∀ number content, w ≠ tag number content
  cite : ∀ tables, ∃ tables', w.cite tables = some (w, tables')
  expand : ∀ tables, ∃ tables', w.expand tables = some (w, tables')

theorem literal_scalar (a : Scalar) : Literal (scalar a) :=
  ⟨nofun, fun _ ↦ ⟨_, rfl⟩, fun _ ↦ ⟨_, rfl⟩⟩

theorem literal_string (isText : Bool) (b : Octets) : Literal (string isText b) :=
  ⟨nofun, fun _ ↦ ⟨_, rfl⟩, fun _ ↦ ⟨_, rfl⟩⟩

theorem literal_all {ws : List Wire} (h : ∀ w ∈ ws, w.Literal) (tables : List StringTable) :
    (∃ tables', citeAll tables ws = some (ws, tables')) ∧
      ∃ tables', expandAll tables ws = some (ws, tables') := by
  induction ws generalizing tables with
  | nil => exact ⟨⟨_, rfl⟩, ⟨_, rfl⟩⟩
  | cons w ws ih =>
    obtain ⟨hw, hws⟩ := List.forall_mem_cons.1 h
    obtain ⟨cited, hc⟩ := hw.cite tables
    obtain ⟨expanded, he⟩ := hw.expand tables
    obtain ⟨cited', hcs⟩ := (ih hws cited).1
    obtain ⟨expanded', hes⟩ := (ih hws expanded).2
    exact ⟨⟨cited', by simp [citeAll, hc, hcs]⟩, ⟨expanded', by simp [expandAll, he, hes]⟩⟩

theorem literal_entries {es : List (Wire × Wire)} (h : ∀ e ∈ es, e.1.Literal ∧ e.2.Literal)
    (tables : List StringTable) : (∃ tables', citeEntries tables es = some (es, tables')) ∧
      ∃ tables', expandEntries tables es = some (es, tables') := by
  induction es generalizing tables with
  | nil => exact ⟨⟨_, rfl⟩, ⟨_, rfl⟩⟩
  | cons e es ih =>
    obtain ⟨⟨hk, hv⟩, hes⟩ := List.forall_mem_cons.1 h
    obtain ⟨citedKey, hck⟩ := hk.cite tables
    obtain ⟨cited, hcv⟩ := hv.cite citedKey
    obtain ⟨expandedKey, hek⟩ := hk.expand tables
    obtain ⟨expanded, hev⟩ := hv.expand expandedKey
    obtain ⟨cited', hcs⟩ := (ih hes cited).1
    obtain ⟨expanded', hxs⟩ := (ih hes expanded).2
    exact ⟨⟨cited', by simp [citeEntries, hck, hcv, hcs]⟩,
      ⟨expanded', by simp [expandEntries, hek, hev, hxs]⟩⟩

theorem literal_array {ws : List Wire} (h : ∀ w ∈ ws, w.Literal) : Literal (array false ws) where
  ne_tag := nofun
  cite tables := by
    obtain ⟨_, hc⟩ := (literal_all h tables).1
    exact ⟨_, by rw [Wire.cite, hc]; rfl⟩
  expand tables := by
    obtain ⟨_, he⟩ := (literal_all h tables).2
    exact ⟨_, by rw [Wire.expand, he]; rfl⟩

theorem literal_map {es : List (Wire × Wire)} (h : ∀ e ∈ es, e.1.Literal ∧ e.2.Literal) :
    Literal (map false es) where
  ne_tag := nofun
  cite tables := by
    obtain ⟨_, hc⟩ := (literal_entries h tables).1
    exact ⟨_, by rw [Wire.cite, hc]; rfl⟩
  expand tables := by
    obtain ⟨_, he⟩ := (literal_entries h tables).2
    exact ⟨_, by rw [Wire.expand, he]; rfl⟩

theorem nesting_referString_le (isText : Bool) (b : Octets) (tables : List StringTable) :
    (referString isText b tables).1.nesting ≤ 1 := by
  cases tables with
  | nil => exact Nat.zero_le _
  | cons inner outer =>
    rw [referString]
    split
    · exact Nat.le_refl _
    · exact Nat.zero_le _

mutual

theorem nesting_refer_le (live : Bool) : (w : Wire) → ∀ (tables : List StringTable),
    (w.refer live tables).1.nesting ≤ w.nesting + 1
  | scalar _, _ | simple .., _ | chunks .., _ => Nat.zero_le _
  | string isText b, tables => nesting_referString_le isText b tables
  | array _ items, tables => Nat.succ_le_succ (nesting_referAll_le live items tables)
  | map _ entries, tables => Nat.succ_le_succ (nesting_referEntries_le live entries tables)
  | tag number content, tables => by
    rw [refer]
    split
    · exact Nat.succ_le_succ (nesting_refer_le live content _)
    · exact Nat.succ_le_succ (nesting_refer_le live content _)

theorem nesting_referAll_le (live : Bool) : (ws : List Wire) → ∀ (tables : List StringTable),
    Datum.nestingAll (datumAll (referAll live tables ws).1) ≤ Datum.nestingAll (datumAll ws) + 1
  | [], _ => Nat.zero_le _
  | w :: ws, tables => by
    have hw : _ ≤ w.datum.nesting + 1 := nesting_refer_le live w tables
    have hws := nesting_referAll_le live ws (w.refer live tables).2
    simp only [referAll, datumAll, Datum.nestingAll, nesting] at hw ⊢
    omega

theorem nesting_referEntries_le (live : Bool) : (es : List (Wire × Wire)) →
    ∀ (tables : List StringTable),
    Datum.nestingEntries (datumEntries (referEntries live tables es).1) ≤
      Datum.nestingEntries (datumEntries es) + 1
  | [], _ => Nat.zero_le _
  | (k, v) :: es, tables => by
    have hk : _ ≤ k.datum.nesting + 1 := nesting_refer_le live k tables
    have hv : _ ≤ v.datum.nesting + 1 := nesting_refer_le live v (k.refer live tables).2
    have hes := nesting_referEntries_le live es (v.refer live (k.refer live tables).2).2
    simp only [referEntries, datumEntries, Datum.nestingEntries, nesting] at hk hv ⊢
    omega

end

theorem nesting_referring_le (mode : Encoder.StringRef) (w : Wire) :
    (w.referring mode).nesting ≤ w.nesting + 2 := by
  cases mode with
  | off => exact Nat.le_add_right _ 2
  | on => exact Nat.succ_le_succ (nesting_refer_le true w [#[]])
  | explicit => exact Nat.le_succ_of_le (nesting_refer_le true w [])

namespace Literal

variable {w : Wire}

theorem expand_referring (h : w.Literal) {mode : Encoder.StringRef}
    (hb : (w.referring mode).octets.length < UInt64.size) :
    ∃ tables, (w.referring mode).expand [] = some (w, tables) := by
  by_cases hm : mode = .off
  · subst hm
    exact h.expand []
  · obtain ⟨_, hc⟩ := h.cite mode.tables
    obtain ⟨⟨_, tables⟩, he, rfl⟩ := Option.map_eq_some_iff.1 (Wire.expand_referring hm hc hb)
    exact ⟨tables, he⟩

theorem fst_meaning_referring (h : w.Literal) {o : Options} (hr : o.stringRef = true)
    (hsh : o.sharedRef = .off) (hm : o.maxSize < UInt64.size) {mode : Encoder.StringRef}
    (hd : w.nesting + 2 ≤ o.maxDepth) (hb : (w.referring mode).octets.length ≤ o.maxSize)
    (hc : (w.referring mode).copies ≤ o.maxSize) :
    Prod.fst <$> (w.referring mode).meaning o false {} = w.datum.read o := by
  obtain ⟨tables, he⟩ := h.expand_referring (Nat.lt_of_le_of_lt hb hm)
  have hroom : Allows o {} (w.referring mode).nesting (w.referring mode).octets.length
      (w.referring mode).strings w.strings :=
    { depth := by
        have := nesting_referring_le mode w
        simp only
        omega
      octets := hb
      expanded := by
        simp only [copies, he] at hc
        simp only
        omega }
  have hx : UpTo True _ _ _ :=
    meaning_expand hr hsh _ false {} [] tables w he .nil fun _ ↦ hroom
  rw [hx.map_eq_of_room (g := id) (fun r raw h ↦ h.value) trivial, id_map]

end Literal

end Wire
end Cbor
