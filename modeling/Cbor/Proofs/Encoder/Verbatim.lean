import Cbor.Proofs.Encoder.Encode
import Cbor.Proofs.Encoder.Order
import Cbor.Proofs.Wire.Deterministic

namespace Cbor

namespace Encoder

/-- Text is written unchecked, floats keep their widths, and cells are written in full. -/
structure Options.Verbatim (e : Options) : Prop where
  uncheckedText : e.flags.contains .uncheckedText = true
  float16 : e.flags.contains .float16 = false
  float32 : e.flags.contains .float32 = false
  sharedRef : e.sharedRef = false

variable {e : Options}

theorem Options.Verbatim.withoutReferences (he : e.Verbatim) : e.withoutReferences.Verbatim :=
  ⟨he.uncheckedText, he.float16, he.float32, rfl⟩

theorem tree_scalar (he : e.Verbatim) {a : Scalar}
    (hc : e.flags.contains .cde = true → a.Shortest) (asKey : Bool) (depth : Nat)
    (cells : CellTable) : tree e asKey a.item depth cells = .ok (.scalar a, cells) := by
  cases a with
  | float32 bits =>
    rw [Scalar.item, tree]
    split
    · rename_i h
      rw [hc h]
    · rfl
  | float64 bits =>
    rw [Scalar.item, tree, Scalar.nativeFloat, he.float16, he.float32]
    simp only [Bool.false_and, Bool.or_false, Bool.false_eq_true, if_false]
    split
    · rename_i h
      rw [hc h]
    · rfl
  | _ => rfl

theorem tree_ofString (he : e.Verbatim) (isText : Bool) (b : Octets) (asKey : Bool) (depth : Nat)
    (cells : CellTable) :
    tree e asKey (.ofString isText b) depth cells = .ok (.string isText b, cells) := by
  cases isText with
  | false => rfl
  | true =>
    rw [Item.ofString, tree, textTree, he.uncheckedText]
    rfl

mutual

theorem tree_verbatim : (w : Wire) → ∀ {v : Item}, w.datum.verbatim = .ok v → ∀ {e : Options},
    e.Verbatim → (e.flags.contains .cde = true → w.definite.Deterministic) → ∀ {depth : Nat},
    depth + w.nesting ≤ e.maxDepth → ∀ (asKey : Bool) (cells : CellTable),
    tree e asKey v depth cells = .ok (w.definite, cells)
  | .scalar a, _, hv, e, he, hc, _, _, asKey, cells => by
    cases hv
    exact tree_scalar he hc asKey _ cells
  | .simple .., _, hv, _, _, _, _, _, _, _ => by cases hv
  | .string isText b, _, hv, e, he, _, _, _, asKey, cells => by
    cases hv
    rw [List.flatten_singleton]
    exact tree_ofString he isText b asKey _ cells
  | .chunks isText parts, _, hv, e, he, _, _, _, asKey, cells => by
    cases hv
    exact tree_ofString he isText _ asKey _ cells
  | .array _ items, _, hv, e, he, hc, depth, hd, _, cells => by
    obtain ⟨vs, hvs, rfl⟩ := map_eq_ok.1 hv
    have hd : depth + (Datum.nestingAll (Wire.datumAll items) + 1) ≤ e.maxDepth := hd
    have hlt : checkDepth e depth = .ok () := checkDepth_eq_ok.2 (by omega)
    rw [tree, hlt, ok_bind, treeAll_verbatim items hvs he (fun h ↦ (hc h).2) (by omega)]
    rfl
  | .map _ entries, _, hv, e, he, hc, depth, hd, _, cells => by
    obtain ⟨vs, hvs, rfl⟩ := map_eq_ok.1 hv
    have hd : depth + (Datum.nestingEntries (Wire.datumEntries entries) + 1) ≤ e.maxDepth := hd
    have hds : depth + 1 + Datum.nestingEntries (Wire.datumEntries entries) ≤ e.maxDepth := by
      omega
    have hys := yields_verbatim entries hvs he (fun h ↦ (hc h).2.2) hds
    have hlt : checkDepth e depth = .ok () := checkDepth_eq_ok.2 (by omega)
    rw [tree, hlt, ok_bind]
    split
    · rename_i h
      rw [sortedTrees_of_yields hys (hc h).2.1]
      rfl
    · rw [treeEntries_eq, entriesInTurn_of_yields (List.forall₂_map_left_iff.2 hys)]
      rfl
  | .tag number content, _, ht, e, he, hc, depth, hd, _, cells => by
    obtain ⟨v, hv, rfl⟩ := map_eq_ok.1 ht
    have hd : depth + (content.nesting + 1) ≤ e.maxDepth := hd
    have hlt : checkDepth e depth = .ok () := checkDepth_eq_ok.2 (by omega)
    have hplain : ¬ (number = Tag.shareable ∧ e.sharedRef = true) := by simp [he.sharedRef]
    rw [tree, hlt, ok_bind, if_neg hplain, tree_verbatim content hv he hc (by omega)]
    rfl

theorem treeAll_verbatim : (ws : List Wire) → ∀ {vs : List Item},
    Datum.verbatimAll (Wire.datumAll ws) = .ok vs → ∀ {e : Options}, e.Verbatim →
    (e.flags.contains .cde = true → Wire.DeterministicAll (Wire.definiteAll ws)) →
    ∀ {depth : Nat}, depth + Datum.nestingAll (Wire.datumAll ws) ≤ e.maxDepth →
    ∀ cells : CellTable, treeAll e vs depth cells = .ok (Wire.definiteAll ws, cells)
  | [], _, hvs, _, _, _, _, _, _ => by
    cases hvs
    rfl
  | w :: ws, _, h, e, he, hc, depth, hd, cells => by
    simp only [Wire.datumAll, Datum.verbatimAll, bind_eq_ok] at h
    obtain ⟨v, hv, vs, hvs, h⟩ := h
    cases h
    have hd : depth + max w.nesting (Datum.nestingAll (Wire.datumAll ws)) ≤ e.maxDepth := hd
    have hwd : depth + w.nesting ≤ e.maxDepth := by omega
    have hwsd : depth + Datum.nestingAll (Wire.datumAll ws) ≤ e.maxDepth := by omega
    have hw := tree_verbatim w hv he (fun h ↦ (hc h).1) hwd false cells
    have hws := treeAll_verbatim ws hvs he (fun h ↦ (hc h).2) hwsd cells
    simp only [treeAll, hw, hws, ok_bind, pure_eq_ok, Wire.definiteAll]

theorem yields_verbatim : (es : List (Wire × Wire)) → ∀ {vs : List (Item × Item)},
    Datum.verbatimEntries (Wire.datumEntries es) = .ok vs → ∀ {e : Options}, e.Verbatim →
    (e.flags.contains .cde = true → Wire.DeterministicEntries (Wire.definiteEntries es)) →
    ∀ {depth : Nat}, depth + Datum.nestingEntries (Wire.datumEntries es) ≤ e.maxDepth →
    List.Forall₂ (EntryTrees.Yields depth) (entryTrees e vs) (Wire.definiteEntries es)
  | [], _, hvs, _, _, _, _, _ => by
    cases hvs
    exact .nil
  | (k, w) :: es, _, h, e, he, hc, depth, hd => by
    simp only [Wire.datumEntries, Datum.verbatimEntries, bind_eq_ok] at h
    obtain ⟨key, hkey, v, hv, vs, hvs, h⟩ := h
    cases h
    have hd : depth + max (max k.nesting w.nesting) (Datum.nestingEntries (Wire.datumEntries es)) ≤
      e.maxDepth := hd
    have hkd : depth + k.nesting ≤ e.maxDepth := by omega
    have hwd : depth + w.nesting ≤ e.maxDepth := by omega
    have halone := tree_verbatim k hkey he.withoutReferences (fun h ↦ (hc h).1) hkd true #[]
    have hk := tree_verbatim k hkey he (fun h ↦ (hc h).1) hkd true
    have hw := tree_verbatim w hv he (fun h ↦ (hc h).2.1) hwd false
    refine .cons ⟨?_, fun cells ↦ ?_⟩
      (yields_verbatim es hvs he (fun h ↦ (hc h).2.2) (by omega))
    · exact congrArg (fun r ↦ (·.1.octets) <$> r) halone
    · simp only [hk, hw, ok_bind, pure_eq_ok]

end

end Encoder

open Encoder

theorem encode_verbatim {e : Options} (he : e.Verbatim) (hc : e.check = .ok ())
    (ho : e.stringRef = .off) (hs : e.flags.contains .selfDescribe = false) {w : Wire} {v : Item}
    (hv : w.datum.verbatim = .ok v)
    (hw : e.flags.contains .cde = true → w.definite.Deterministic) (hd : w.nesting ≤ e.maxDepth) :
    encode v e = .ok w.definite.octets := by
  rw [encode_eq_of_off ho, hc, ok_bind, tree_verbatim w hv he hw (by omega), map_ok,
    Wire.announced, hs]
  rfl

end Cbor
