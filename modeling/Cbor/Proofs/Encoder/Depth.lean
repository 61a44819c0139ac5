import Cbor.Proofs.Encoder.Tree

namespace Cbor.Encoder

variable {o : Options} {depth depth' : Nat} (hd : depth' ≤ depth)

include hd

theorem checkDepth_shallower : Implies (checkDepth o depth) (checkDepth o depth') := by
  intro _ h
  have hlt := checkDepth_eq_ok.1 h
  exact checkDepth_eq_ok.2 (by omega)

theorem stampTree_shallower (t : Moment) : Implies (stampTree o t depth) (stampTree o t depth') := by
  unfold stampTree
  cases Rfc3339.format? t with
  | some s => exact .bind (checkDepth_shallower hd) fun _ ↦ .refl _
  | none => exact .refl _

theorem bignumTree_shallower (b : Bignum) :
    Implies (bignumTree o b depth) (bignumTree o b depth') := by
  unfold bignumTree
  cases b.word? with
  | some n => exact .refl _
  | none => exact .bind (checkDepth_shallower hd) fun _ ↦ .refl _

theorem fractionTree_shallower (number : UInt64) (q : Fraction) :
    Implies (fractionTree o number q depth) (fractionTree o number q depth') :=
  .bind (checkDepth_shallower hd) fun _ ↦
    .bind (checkDepth_shallower (Nat.add_le_add_right hd 1)) fun _ ↦
      .bind (bignumTree_shallower (Nat.add_le_add_right hd 2) q.mantissa) fun _ ↦ .refl _

theorem decimalTree_shallower (q : Fraction) :
    Implies (decimalTree o q depth) (decimalTree o q depth') :=
  .ite (bignumTree_shallower hd q.mantissa) (fractionTree_shallower hd Tag.decimal q)

omit hd

theorem entriesInTurn_shallower {ts : List (Octets × EntryTrees)}
    (ht : ∀ t ∈ ts, ∀ cells, Implies (t.2.entry depth cells) (t.2.entry depth' cells))
    (cells : CellTable) :
    Implies (entriesInTurn depth ts cells) (entriesInTurn depth' ts cells) := by
  induction ts generalizing cells with
  | nil => exact .refl _
  | cons t ts ih =>
    exact .bind (ht t List.mem_cons_self cells) fun r ↦
      .bind (ih (fun t hm ↦ ht t (List.mem_cons_of_mem _ hm)) r.2) fun _ ↦ .refl _

theorem sortedTrees_shallower {ts : List EntryTrees}
    (hk : ∀ t ∈ ts, Implies (t.key depth) (t.key depth'))
    (ht : ∀ t ∈ ts, ∀ cells, Implies (t.entry depth cells) (t.entry depth' cells))
    (cells : CellTable) : Implies (sortedTrees ts depth cells) (sortedTrees ts depth' cells) := by
  intro r h
  obtain ⟨keyed, hkeyed, h⟩ := bind_eq_ok.1 h
  refine bind_eq_ok.2 ⟨keyed, Implies.mapM (fun t hm ↦ .bind (hk t hm) fun _ ↦ .refl _) _ hkeyed, ?_⟩
  refine entriesInTurn_shallower (fun k hm ↦ ?_) cells r h
  obtain ⟨t, htm, htk⟩ := exists_of_mem_mapM hkeyed (List.mem_mergeSort.1 hm)
  obtain ⟨_, _, htk⟩ := bind_eq_ok.1 htk
  cases htk
  exact ht t htm

mutual

theorem tree_shallower : (v : Item) → ∀ (o : Options) (asKey : Bool) {depth depth' : Nat},
    depth' ≤ depth → ∀ cells, Implies (tree o asKey v depth cells) (tree o asKey v depth' cells)
  | .unsigned _, _, _, _, _, _, _ | .negative _, _, _, _, _, _, _ | .bytes _, _, _, _, _, _, _
  | .text _, _, _, _, _, _, _ | .string _, _, _, _, _, _, _ | .bool _, _, _, _, _, _, _
  | .null, _, _, _, _, _, _ | .undefined, _, _, _, _, _, _ | .float16 _, _, _, _, _, _, _
  | .float32 _, _, _, _, _, _, _ | .float64 _, _, _, _, _, _, _ => by
    rw [tree, tree]
    exact .refl _
  | .array items, o, _, _, _, hd, cells => by
    rw [tree, tree]
    exact .bind (checkDepth_shallower hd) fun _ ↦
      .bind (treeAll_shallower items o (Nat.add_le_add_right hd 1) cells) fun _ ↦ .refl _
  | .map entries, o, _, _, _, hd, cells => by
    have hd' := Nat.add_le_add_right hd 1
    rw [tree, tree]
    have hts := entryTrees_shallower entries o hd'
    have hsorted := sortedTrees_shallower (fun t ht ↦ (hts t ht).1) (fun t ht ↦ (hts t ht).2) cells
    exact .bind (checkDepth_shallower hd) fun _ ↦ .ite (.bind hsorted fun _ ↦ .refl _)
      (.bind (treeEntries_shallower entries o hd' cells) fun _ ↦ .refl _)
  | .tag number content, o, _, _, _, hd, _ => by
    rw [tree, tree]
    exact .bind (checkDepth_shallower hd) fun _ ↦
      .bind (tree_shallower content o false (Nat.add_le_add_right hd 1) _) fun _ ↦ .refl _
  | .dateTime t, _, _, _, _, hd, _ => by
    rw [tree, tree]
    exact .bind (.refl _) fun _ ↦ .bind (stampTree_shallower hd t) fun _ ↦ .refl _
  | .bignum b, _, _, _, _, hd, _ => by
    rw [tree, tree]
    exact .bind (.refl _) fun _ ↦ .bind (bignumTree_shallower hd b) fun _ ↦ .refl _
  | .decimal q, _, _, _, _, hd, _ => by
    rw [tree, tree]
    exact .bind (.refl _) fun _ ↦ .bind (decimalTree_shallower hd q) fun _ ↦ .refl _
  | .bigFloat q, _, _, _, _, hd, _ => by
    rw [tree, tree]
    exact .bind (.refl _) fun _ ↦ .bind (fractionTree_shallower hd _ q) fun _ ↦ .refl _
  | .uri _, _, _, _, _, hd, _ => by
    rw [tree, tree]
    exact .bind (.refl _) fun _ ↦ .bind (checkDepth_shallower hd) fun _ ↦ .refl _
  | .shareable cell content, o, _, _, _, hd, cells => by
    have hd' := Nat.add_le_add_right hd 1
    rw [tree, tree]
    refine .ite (.refl _) (.ite (.refl _) (.ite (.refl _) (.bind (checkDepth_shallower hd)
      fun _ ↦ ?_)))
    rcases lookupCell o cell cells with ⟨_ | index, cells⟩
    · exact .bind (tree_shallower content o false hd' cells) fun _ ↦ .refl _
    · exact .refl _
  | .custom _ result, o, _, _, _, hd, cells => by
    rw [tree, tree]
    exact .ite (.refl _) (.bind (checkDepth_shallower hd) fun _ ↦
      treeResult_shallower result o (Nat.add_le_add_right hd 1) cells)
  | .params p content, o, asKey, _, _, hd, cells => by
    rw [tree, tree]
    exact .bind (.refl _) fun inner ↦ .bind (checkDepth_shallower hd) fun _ ↦
      tree_shallower content inner asKey (Nat.add_le_add_right hd 1) cells

theorem treeAll_shallower : (is : List Item) → ∀ (o : Options) {depth depth' : Nat},
    depth' ≤ depth → ∀ cells, Implies (treeAll o is depth cells) (treeAll o is depth' cells)
  | [], _, _, _, _, _ => .refl _
  | i :: is, o, _, _, hd, cells => by
    rw [treeAll, treeAll]
    exact .bind (tree_shallower i o false hd cells) fun r ↦
      .bind (treeAll_shallower is o hd r.2) fun _ ↦ .refl _

theorem treeEntries_shallower : (is : List (Item × Item)) → ∀ (o : Options) {depth depth' : Nat},
    depth' ≤ depth → ∀ cells,
    Implies (treeEntries o is depth cells) (treeEntries o is depth' cells)
  | [], _, _, _, _, _ => .refl _
  | (k, i) :: is, o, _, _, hd, cells => by
    rw [treeEntries, treeEntries]
    exact .bind (tree_shallower k o true hd cells) fun r ↦
      .bind (tree_shallower i o false hd r.2) fun r ↦
        .bind (treeEntries_shallower is o hd r.2) fun _ ↦ .refl _

theorem entryTrees_shallower : (is : List (Item × Item)) → ∀ (o : Options) {depth depth' : Nat},
    depth' ≤ depth → ∀ t ∈ entryTrees o is, Implies (t.key depth) (t.key depth') ∧
      ∀ cells, Implies (t.entry depth cells) (t.entry depth' cells)
  | [], _, _, _, _, t, ht => by
    rw [entryTrees] at ht
    cases ht
  | (k, i) :: is, o, _, _, hd, t, ht => by
    rw [entryTrees] at ht
    rcases List.mem_cons.1 ht with rfl | ht
    · refine ⟨.map _ (tree_shallower k o.withoutReferences true hd #[]), fun cells ↦ ?_⟩
      exact .bind (tree_shallower k o true hd cells) fun r ↦
        .bind (tree_shallower i o false hd r.2) fun _ ↦ .refl _
    · exact entryTrees_shallower is o hd t ht

theorem treeResult_shallower : (result : Except Fault Item) → ∀ (o : Options)
    {depth depth' : Nat}, depth' ≤ depth → ∀ cells,
    Implies (treeResult o result depth cells) (treeResult o result depth' cells)
  | .error _, _, _, _, _, _ => by
    rw [treeResult, treeResult]
    exact .refl _
  | .ok i, o, _, _, hd, cells => by
    rw [treeResult, treeResult]
    exact tree_shallower i o false hd cells

end

end Cbor.Encoder
