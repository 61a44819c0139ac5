import Mathlib
import Cbor.Proofs.Encoder.Accepted
import Cbor.Proofs.Encoder.Encode
import Cbor.Proofs.Encoder.Plain
import Cbor.Proofs.Wire.Definite
import Cbor.Proofs.Wire.Unique

namespace Cbor

open Encoder

namespace Wire

theorem definiteAll_eq_iff {ws : List Wire} :
    definiteAll ws = ws ↔ ∀ w ∈ ws, w.definite = w := by
  induction ws with
  | nil => simp [definiteAll]
  | cons w ws ih => simp [definiteAll, ih]

theorem definiteEntries_eq_iff {es : List (Wire × Wire)} :
    definiteEntries es = es ↔ ∀ e ∈ es, e.1.definite = e.1 ∧ e.2.definite = e.2 := by
  induction es with
  | nil => simp [definiteEntries]
  | cons e es ih =>
    rw [definiteEntries, List.cons_eq_cons, Prod.ext_iff, ih, List.forall_mem_cons]

theorem nestingAll_le_iff {ws : List Wire} {n : Nat} :
    Datum.nestingAll (datumAll ws) ≤ n ↔ ∀ w ∈ ws, w.nesting ≤ n := by
  induction ws with
  | nil => simp [datumAll, Datum.nestingAll]
  | cons w ws ih =>
    rw [datumAll, Datum.nestingAll, Nat.max_le, ih, List.forall_mem_cons]
    rfl

theorem nestingEntries_le_iff {es : List (Wire × Wire)} {n : Nat} :
    Datum.nestingEntries (datumEntries es) ≤ n ↔ ∀ e ∈ es, e.1.nesting ≤ n ∧ e.2.nesting ≤ n := by
  induction es with
  | nil => simp [datumEntries, Datum.nestingEntries]
  | cons e es ih =>
    rw [datumEntries, Datum.nestingEntries, Nat.max_le, Nat.max_le, ih, List.forall_mem_cons]
    rfl

structure Compact (room : Nat) (w : Wire) : Prop where
  definite : w.definite = w
  nesting_le : w.nesting ≤ room

namespace Compact

variable {room : Nat} {w : Wire}

theorem mono {room' : Nat} (h : w.Compact room) (hr : room ≤ room') : w.Compact room' :=
  ⟨h.definite, Nat.le_trans h.nesting_le hr⟩

theorem leaf (h : w.definite = w) (hn : w.nesting = 0) : w.Compact room :=
  ⟨h, hn ▸ Nat.zero_le room⟩

theorem array_iff {indefinite : Bool} {ws : List Wire} :
    (array indefinite ws).Compact room ↔
      indefinite = false ∧ 0 < room ∧ ∀ w ∈ ws, w.Compact (room - 1) := by
  have hn : (array indefinite ws).nesting ≤ room ↔
      0 < room ∧ Datum.nestingAll (datumAll ws) ≤ room - 1 := by
    show Datum.nestingAll (datumAll ws) + 1 ≤ room ↔ _
    omega
  constructor
  · intro h
    obtain ⟨hi, hws⟩ := Wire.array.inj h.definite
    obtain ⟨hr, hle⟩ := hn.1 h.nesting_le
    exact ⟨hi.symm, hr, fun w hw ↦
      ⟨definiteAll_eq_iff.1 hws w hw, nestingAll_le_iff.1 hle w hw⟩⟩
  · rintro ⟨rfl, hr, h⟩
    refine ⟨?_, hn.2 ⟨hr, nestingAll_le_iff.2 fun w hw ↦ (h w hw).nesting_le⟩⟩
    rw [Wire.definite, definiteAll_eq_iff.2 fun w hw ↦ (h w hw).definite]

theorem map_iff {indefinite : Bool} {es : List (Wire × Wire)} :
    (map indefinite es).Compact room ↔
      indefinite = false ∧ 0 < room ∧
        ∀ e ∈ es, e.1.Compact (room - 1) ∧ e.2.Compact (room - 1) := by
  have hn : (map indefinite es).nesting ≤ room ↔
      0 < room ∧ Datum.nestingEntries (datumEntries es) ≤ room - 1 := by
    show Datum.nestingEntries (datumEntries es) + 1 ≤ room ↔ _
    omega
  constructor
  · intro h
    obtain ⟨hi, hes⟩ := Wire.map.inj h.definite
    obtain ⟨hr, hle⟩ := hn.1 h.nesting_le
    refine ⟨hi.symm, hr, fun e he ↦ ?_⟩
    obtain ⟨hk, hv⟩ := definiteEntries_eq_iff.1 hes e he
    obtain ⟨hkn, hvn⟩ := nestingEntries_le_iff.1 hle e he
    exact ⟨⟨hk, hkn⟩, hv, hvn⟩
  · rintro ⟨rfl, hr, h⟩
    refine ⟨?_, hn.2 ⟨hr, nestingEntries_le_iff.2 fun e he ↦
      ⟨(h e he).1.nesting_le, (h e he).2.nesting_le⟩⟩⟩
    rw [Wire.definite, definiteEntries_eq_iff.2 fun e he ↦
      ⟨(h e he).1.definite, (h e he).2.definite⟩]

theorem tag_iff {number : UInt64} :
    (tag number w).Compact room ↔ 0 < room ∧ w.Compact (room - 1) := by
  have hn : (tag number w).nesting ≤ room ↔ 0 < room ∧ w.nesting ≤ room - 1 := by
    show w.nesting + 1 ≤ room ↔ _
    omega
  constructor
  · intro h
    obtain ⟨hr, hle⟩ := hn.1 h.nesting_le
    exact ⟨hr, (Wire.tag.inj h.definite).2, hle⟩
  · rintro ⟨hr, h⟩
    exact ⟨congrArg (tag number) h.definite, hn.2 ⟨hr, h.nesting_le⟩⟩

end Compact

theorem closed_compact : Closed False Compact where
  scalar _ _ := .leaf rfl rfl
  string _ _ _ := .leaf rfl rfl
  array hr h := Compact.array_iff.2 ⟨rfl, hr, h⟩
  map hr h := Compact.map_iff.2 ⟨rfl, hr, h⟩
  tag hr _ h := Compact.tag_iff.2 ⟨hr, h⟩
  mono hr h := h.mono hr

theorem compact_referString (room : Nat) (isText : Bool) (b : Octets) (tables : List StringTable) :
    (referString isText b tables).1.Compact (room + 1) := by
  cases tables with
  | nil => exact .leaf rfl rfl
  | cons inner outer =>
    rw [referString]
    split
    · exact Compact.tag_iff.2 ⟨Nat.succ_pos room, .leaf rfl rfl⟩
    · exact .leaf rfl rfl

mutual

/-- A reference in the place of a string is one more level, and there are no strings inside it. -/
theorem compact_refer (live : Bool) : (w : Wire) → ∀ {room : Nat} (tables : List StringTable),
    w.Compact room → (w.refer live tables).1.Compact (room + 1)
  | scalar _, _, _, h | simple _ _, _, _, h | chunks _ _, _, _, h => h.mono (Nat.le_succ _)
  | string isText b, room, tables, _ => compact_referString room isText b tables
  | array indefinite items, room, tables, h => by
    obtain ⟨rfl, hr, h⟩ := Compact.array_iff.1 h
    refine Compact.array_iff.2 ⟨rfl, Nat.succ_pos room, fun w hw ↦ ?_⟩
    exact (compact_referAll live items tables h w hw).mono (by omega)
  | map indefinite entries, room, tables, h => by
    obtain ⟨rfl, hr, h⟩ := Compact.map_iff.1 h
    refine Compact.map_iff.2 ⟨rfl, Nat.succ_pos room, fun e he ↦ ?_⟩
    obtain ⟨hk, hv⟩ := compact_referEntries live entries tables h e he
    exact ⟨hk.mono (by omega), hv.mono (by omega)⟩
  | tag number content, room, tables, h => by
    obtain ⟨hr, h⟩ := Compact.tag_iff.1 h
    rw [refer]
    split
    · exact Compact.tag_iff.2 ⟨Nat.succ_pos room,
        (compact_refer live content (#[] :: tables) h).mono (by omega)⟩
    · exact Compact.tag_iff.2 ⟨Nat.succ_pos room,
        (compact_refer live content tables h).mono (by omega)⟩

theorem compact_referAll (live : Bool) : (ws : List Wire) → ∀ {room : Nat}
    (tables : List StringTable), (∀ w ∈ ws, w.Compact room) →
    ∀ w ∈ (referAll live tables ws).1, w.Compact (room + 1)
  | [], _, _, _ => nofun
  | w :: ws, _, tables, h => by
    obtain ⟨hw, hws⟩ := List.forall_mem_cons.1 h
    exact List.forall_mem_cons.2
      ⟨compact_refer live w tables hw, compact_referAll live ws _ hws⟩

theorem compact_referEntries (live : Bool) : (es : List (Wire × Wire)) → ∀ {room : Nat}
    (tables : List StringTable), (∀ e ∈ es, e.1.Compact room ∧ e.2.Compact room) →
    ∀ e ∈ (referEntries live tables es).1, e.1.Compact (room + 1) ∧ e.2.Compact (room + 1)
  | [], _, _, _ => nofun
  | (k, v) :: es, _, tables, h => by
    obtain ⟨⟨hk, hv⟩, hes⟩ := List.forall_mem_cons.1 h
    exact List.forall_mem_cons.2 ⟨⟨compact_refer live k tables hk, compact_refer live v _ hv⟩,
      compact_referEntries live es _ hes⟩

end

end Wire

/-- The levels that references to strings add: the namespace around everything, and the tag of a
reference. -/
def Encoder.StringRef.levels : StringRef → Nat
  | .off => 0
  | .explicit => 1
  | .on => 2

theorem Wire.Compact.referring {room : Nat} {w : Wire} (h : w.Compact room) (mode : StringRef) :
    (w.referring mode).Compact (room + mode.levels) := by
  cases mode with
  | off => exact h
  | explicit => exact compact_refer true w [] h
  | on => exact Compact.tag_iff.2 ⟨Nat.succ_pos _, compact_refer true w [#[]] h⟩

theorem exists_tree_of_encode {v : Item} {o : Encoder.Options} {b : Octets}
    (h : encode v o = .ok b) :
    ∃ r, tree o false v 0 #[] = .ok r ∧
      b = (if o.flags.contains .selfDescribe then Tag.selfDescribeHead else []) ++
        (r.1.referring o.stringRef).octets := by
  obtain ⟨r, hr, hb, -⟩ := exists_cited_of_encode h
  exact ⟨r, hr, hb⟩

/-- Behind the self-describe tag stands one item. -/
theorem encode_preferred {v : Item} {o : Encoder.Options} {b : Octets} (h : encode v o = .ok b)
    (hb : b.length < UInt64.size) :
    ∃ (w : Wire) (body : Octets),
      b = (if o.flags.contains .selfDescribe then Tag.selfDescribeHead else []) ++ body ∧
      (∀ w' : Wire, w'.Spelled body ↔ w' = w) ∧ Wire.ShortSpelling w.lexemes body ∧
      (∀ l ∈ w.lexemes, l.Definite) ∧ w.nesting ≤ o.maxDepth + o.stringRef.levels := by
  obtain ⟨r, hr, rfl⟩ := exists_tree_of_encode h
  have hcompact : r.1.Compact o.maxDepth := closed_tree Wire.closed_compact v False.elim hr
  have hw := hcompact.referring o.stringRef
  generalize r.1.referring o.stringRef = w at hw hb
  have hlen : w.octets.length < UInt64.size := by
    rw [List.length_append] at hb
    omega
  have hfits := Wire.fits_of_mem w (Nat.le_refl _)
  have hspelled : w.Spelled w.octets := .of_fits hfits hlen
  refine ⟨w, w.octets, rfl, fun w' ↦ ⟨fun hw' ↦ hw'.unique hspelled hlen, ?_⟩, ?_, ?_, ?_⟩
  · rintro rfl
    exact hspelled
  · exact (Wire.shortSpelling_iff hfits hlen).2 rfl
  · exact Wire.definite_eq_iff.1 hw.definite
  · exact hw.nesting_le

/-- Two times the text `ping` in an array, which is all that the depth limit allows: the namespace
and the reference make three levels. -/
theorem encode_preferred_repeated :
    let ping : Octets := [0x70, 0x69, 0x6E, 0x67]
    let o : Encoder.Options :=
      { flags := .standard ||| .selfDescribe, maxDepth := 1, stringRef := .on }
    let body : Octets := [0xD9, 0x01, 0x00, 0x82, 0x64] ++ ping ++ [0xD8, 0x19, 0x00]
    encode (.array [.text ping, .text ping]) o = .ok (Tag.selfDescribeHead ++ body) ∧
      (Tag.selfDescribeHead ++ body).length < UInt64.size ∧
      ∃ w : Wire, (∀ w' : Wire, w'.Spelled body ↔ w' = w) ∧ w.nesting ≤ 3 := by
  intro ping o body
  have h : encode (.array [.text ping, .text ping]) o = .ok (Tag.selfDescribeHead ++ body) := by
    cbv
  have hb : (Tag.selfDescribeHead ++ body).length < UInt64.size := by decide
  obtain ⟨w, body', heq, hw, -, -, hn⟩ := encode_preferred h hb
  have hbody : body' = body := by
    rw [if_pos (by decide)] at heq
    exact (List.append_cancel_left heq).symm
  subst hbody
  exact ⟨h, hb, w, hw, hn⟩

end Cbor
