import Cbor.Proofs.Encoder.Atoms
import Cbor.Proofs.Encoder.Order
import Cbor.Proofs.Encoder.Overrides
import Cbor.Proofs.Wire.Deterministic

namespace Cbor.Encoder

open Wire (Settled)

theorem layered_settled : Wire.Layered Settled where
  unsigned _ _ := .scalar trivial
  negative _ _ := .scalar trivial
  string _ isText b := .string isText b
  pair hr ha hb := .array hr (by simp [ha, hb])
  tag hr _ hw := .tag hr _ hw

variable {room depth : Nat}

/-- What `t` is written as is settled, and `t'` is written as the same without regard to the cells
that have been written before. -/
def EntryTrees.Settles (room depth : Nat) (t t' : EntryTrees) : Prop :=
  t.key depth = t'.key depth ∧ ∀ {cells r}, t.entry depth cells = .ok r →
    (r.1.1.Settled room ∧ r.1.2.Settled room) ∧ t'.Yields depth r.1

theorem settles_entriesInTurn {zs : List (Octets × EntryTrees × EntryTrees)}
    (hz : ∀ z ∈ zs, z.2.1.key depth = .ok z.1 ∧ z.2.1.Settles room depth z.2.2) {cells : CellTable}
    {r : List (Wire × Wire) × CellTable}
    (h : entriesInTurn depth (zs.map fun z ↦ (z.1, z.2.1)) cells = .ok r) :
    r.1.map (fun e ↦ e.1.octets) = zs.map Prod.fst ∧
      (∀ e ∈ r.1, e.1.Settled room ∧ e.2.Settled room) ∧
      List.Forall₂ (fun k e ↦ k.2.Yields depth e) (zs.map fun z ↦ (z.1, z.2.2)) r.1 := by
  induction zs generalizing cells r with
  | nil =>
    cases h
    exact ⟨rfl, List.forall_mem_nil _, .nil⟩
  | cons z zs ih =>
    rw [List.map_cons, entriesInTurn_cons_eq_ok] at h
    obtain ⟨e, he, es, hes, rfl⟩ := h
    obtain ⟨hkey, hsame, hsettles⟩ := hz z List.mem_cons_self
    obtain ⟨hsettled, hyields⟩ := hsettles he
    obtain ⟨hkeys, hall, hys⟩ := ih (fun z hm ↦ hz z (List.mem_cons_of_mem _ hm)) hes
    have hz : e.1.1.octets = z.1 := Except.ok.inj (hyields.1.symm.trans (hsame.symm.trans hkey))
    exact ⟨List.cons_eq_cons.2 ⟨hz, hkeys⟩, List.forall_mem_cons.2 ⟨hsettled, hall⟩,
      .cons hyields hys⟩

theorem settles_sortedTrees {ts ts' : List EntryTrees}
    (ht : List.Forall₂ (EntryTrees.Settles room depth) ts ts') {cells : CellTable}
    {r : List (Wire × Wire) × CellTable} (h : sortedTrees ts depth cells = .ok r) :
    (r.1.map fun e ↦ e.1.octets).Pairwise (· ≤ ·) ∧
      (∀ e ∈ r.1, e.1.Settled room ∧ e.2.Settled room) ∧
      ∀ cells', sortedTrees ts' depth cells' = .ok (r.1, cells') := by
  rw [sortedTrees_eq] at h
  obtain ⟨ks, hks, h⟩ := bind_eq_ok.1 h
  have hkey (t t' : EntryTrees) (hs : t.Settles room depth t') :
      Implies (t.key depth) (t'.key depth) := fun _ hc ↦ hs.1.symm.trans hc
  obtain ⟨zs, hzs, rfl, hks'⟩ := exists_of_keyed hkey ht hks
  rw [sortKeyed_left] at h
  obtain ⟨hkeys, hall, hys⟩ := settles_entriesInTurn (fun z hz ↦ hzs z (mem_sortKeyed.1 hz)) h
  refine ⟨?_, hall, fun cells' ↦ ?_⟩
  · rw [hkeys, List.pairwise_map]
    exact pairwise_sortKeyed zs
  · rw [sortedTrees_eq, hks', ok_bind, sortKeyed_right, entriesInTurn_of_yields hys]

theorem alone_of_ok {t : Except Fault Wire} {cells : CellTable} {r : Wire × CellTable}
    (h : (do return (← t, cells)) = Except.ok r) :
    t = .ok r.1 ∧ ∀ cells' : CellTable, (do return (← t, cells')) = Except.ok (r.1, cells') := by
  obtain ⟨w, rfl, h⟩ := bind_eq_ok.1 h
  cases h
  exact ⟨rfl, fun _ ↦ rfl⟩

theorem alone_of_group {enabled : Bool} {t : Except Fault Wire} {cells : CellTable}
    {r : Wire × CellTable}
    (h : (do checkGroup enabled; return (← t, cells)) = Except.ok r) :
    t = .ok r.1 ∧ ∀ cells' : CellTable,
      (do checkGroup enabled; return (← t, cells')) = Except.ok (r.1, cells') := by
  obtain ⟨_, hg, h⟩ := bind_eq_ok.1 h
  rw [hg]
  exact alone_of_ok h

mutual

/-- Trees are settled, and those of keys are the ones by which the keys are ordered, although these
are made without references to cells. -/
theorem settled_tree : (v : Item) → ∀ {o : Options}, o.flags.contains .cde = true →
    ∀ {asKey : Bool} {depth : Nat} {cells : CellTable} {r : Wire × CellTable},
    tree o asKey v depth cells = .ok r → r.1.Settled (o.maxDepth - depth) ∧
      ∀ cells', tree o.withoutReferences asKey v depth cells' = .ok (r.1, cells')
  | .unsigned _, _, _, _, _, _, _, h | .negative _, _, _, _, _, _, _, h
  | .bool _, _, _, _, _, _, _, h | .null, _, _, _, _, _, _, h | .undefined, _, _, _, _, _, _, h
  | .float16 _, _, _, _, _, _, _, h => by
    cases h
    exact ⟨.scalar trivial, fun _ ↦ rfl⟩
  | .bytes b, _, _, _, _, _, _, h => by
    cases h
    exact ⟨.string false b, fun _ ↦ rfl⟩
  | .float32 bits, o, hc, _, _, _, _, h => by
    have hw : (if o.flags.contains .cde then Scalar.shortestFloat (Binary.widenSingle bits)
      else .float32 bits) = .shortestFloat (Binary.widenSingle bits) := if_pos hc
    cases h
    refine ⟨?_, fun _ ↦ rfl⟩
    rw [hw]
    exact .scalar (Scalar.shortest_shortestFloat _)
  | .float64 bits, o, hc, _, _, _, _, h => by
    have hw : Scalar.nativeFloat o bits = .shortestFloat bits := by
      rw [Scalar.nativeFloat, hc]
      rfl
    cases h
    refine ⟨?_, fun _ ↦ rfl⟩
    rw [hw]
    exact .scalar (Scalar.shortest_shortestFloat _)
  | .text b, _, _, _, _, _, _, h =>
    have ⟨hw, halone⟩ := alone_of_ok h
    ⟨layered_settled.textTree hw, halone⟩
  | .string b, _, _, true, _, _, _, h =>
    have ⟨hw, halone⟩ := alone_of_ok h
    ⟨layered_settled.keyTree hw, halone⟩
  | .string b, _, _, false, _, _, _, h =>
    have ⟨hw, halone⟩ := alone_of_ok h
    ⟨layered_settled.nativeTree hw, halone⟩
  | .array items, o, hc, _, depth, _, _, h => by
    simp only [tree, bind_eq_ok] at h
    obtain ⟨_, hd, ws, hws, h⟩ := h
    cases h
    obtain ⟨hall, halone⟩ := settled_treeAll items hc hws
    have hlt := checkDepth_eq_ok.1 hd
    refine ⟨.array (by omega) hall, fun cells' ↦ ?_⟩
    exact bind_eq_ok.2 ⟨_, hd, bind_eq_ok.2 ⟨_, halone cells', rfl⟩⟩
  | .map entries, o, hc, _, depth, _, _, h => by
    rw [tree, if_pos hc] at h
    simp only [bind_eq_ok] at h
    obtain ⟨_, hd, es, hes, h⟩ := h
    cases h
    obtain ⟨hsorted, hall, halone⟩ := settles_sortedTrees (settles_entryTrees entries hc) hes
    have hlt := checkDepth_eq_ok.1 hd
    refine ⟨.map (by omega) hsorted hall, fun cells' ↦ ?_⟩
    rw [tree, if_pos (show o.withoutReferences.flags.contains .cde = true from hc)]
    exact bind_eq_ok.2 ⟨_, hd, bind_eq_ok.2 ⟨_, halone cells', rfl⟩⟩
  | .tag number content, o, hc, _, depth, _, _, h => by
    simp only [tree, bind_eq_ok] at h
    obtain ⟨_, hd, w, hw, h⟩ := h
    cases h
    obtain ⟨hsettled, halone⟩ := settled_tree content hc hw
    have hlt := checkDepth_eq_ok.1 hd
    refine ⟨.tag (by omega) number hsettled, fun cells' ↦ ?_⟩
    rw [tree, if_neg (by simp [Options.withoutReferences])]
    exact bind_eq_ok.2 ⟨_, hd, bind_eq_ok.2 ⟨_, halone cells', rfl⟩⟩
  | .dateTime t, _, _, _, _, _, _, h =>
    have ⟨hw, halone⟩ := alone_of_group h
    ⟨layered_settled.stampTree hw, halone⟩
  | .bignum b, _, _, _, _, _, _, h =>
    have ⟨hw, halone⟩ := alone_of_group h
    ⟨layered_settled.bignumTree hw, halone⟩
  | .decimal f, _, _, _, _, _, _, h =>
    have ⟨hw, halone⟩ := alone_of_group h
    ⟨layered_settled.decimalTree hw, halone⟩
  | .bigFloat f, _, _, _, _, _, _, h =>
    have ⟨hw, halone⟩ := alone_of_group h
    ⟨layered_settled.fractionTree (by decide) hw, halone⟩
  | .uri u, o, _, _, depth, _, _, h => by
    obtain ⟨_, hg, h⟩ := bind_eq_ok.1 h
    obtain ⟨_, hd, h⟩ := bind_eq_ok.1 h
    cases h
    refine ⟨layered_settled.taggedString (by decide) (checkDepth_eq_ok.1 hd) true _,
      fun cells' ↦ ?_⟩
    exact bind_eq_ok.2 ⟨_, hg, bind_eq_ok.2 ⟨_, hd, rfl⟩⟩
  | .shareable cell content, o, hc, asKey, _, _, _, h => by
    rw [tree, if_pos hc] at h
    cases asKey <;> cases h
  | .custom hook result, o, hc, asKey, depth, _, _, h => by
    cases asKey with
    | true => cases h
    | false =>
      obtain ⟨_, hd, h⟩ := bind_eq_ok.1 h
      obtain ⟨hsettled, halone⟩ := settled_treeResult result hc h
      exact ⟨hsettled.mono (by omega), fun cells' ↦ bind_eq_ok.2 ⟨_, hd, halone cells'⟩⟩
  | .params p content, o, hc, asKey, depth, _, _, h => by
    obtain ⟨inner, hi, h⟩ := bind_eq_ok.1 h
    obtain ⟨_, hd, h⟩ := bind_eq_ok.1 h
    obtain ⟨hsettled, halone⟩ := settled_tree content (contains_cde_override hi hc) h
    rw [maxDepth_override hi] at hsettled
    have hinner : o.withoutReferences.override p = .ok inner.withoutReferences := by
      rw [withoutReferences_override, hi, map_ok]
    refine ⟨hsettled.mono (by omega), fun cells' ↦ ?_⟩
    exact bind_eq_ok.2 ⟨_, hinner, bind_eq_ok.2 ⟨_, hd, halone cells'⟩⟩

theorem settled_treeAll : (is : List Item) → ∀ {o : Options}, o.flags.contains .cde = true →
    ∀ {depth : Nat} {cells : CellTable} {r : List Wire × CellTable},
    treeAll o is (depth + 1) cells = .ok r → (∀ w ∈ r.1, w.Settled (o.maxDepth - depth - 1)) ∧
      ∀ cells', treeAll o.withoutReferences is (depth + 1) cells' = .ok (r.1, cells')
  | [], _, _, _, _, _, h => by
    cases h
    exact ⟨nofun, fun _ ↦ rfl⟩
  | i :: is, _, hc, _, _, _, h => by
    simp only [treeAll, bind_eq_ok] at h
    obtain ⟨w, hw, ws, hws, h⟩ := h
    cases h
    obtain ⟨hsettled, halone⟩ := settled_tree i hc hw
    obtain ⟨hall, hrest⟩ := settled_treeAll is hc hws
    refine ⟨List.forall_mem_cons.2 ⟨hsettled, hall⟩, fun cells' ↦ ?_⟩
    simp only [treeAll, halone, hrest, ok_bind, pure_eq_ok]

theorem settles_entryTrees : (is : List (Item × Item)) → ∀ {o : Options},
    o.flags.contains .cde = true → ∀ {depth : Nat},
    List.Forall₂ (EntryTrees.Settles (o.maxDepth - depth - 1) (depth + 1)) (entryTrees o is)
      (entryTrees o.withoutReferences is)
  | [], _, _, _ => .nil
  | (k, i) :: is, _, hc, _ => by
    refine .cons ⟨rfl, fun {cells r} h ↦ ?_⟩ (settles_entryTrees is hc)
    simp only [bind_eq_ok] at h
    obtain ⟨k', hk, w, hw, h⟩ := h
    cases h
    obtain ⟨hkey, hkeyAlone⟩ := settled_tree k hc hk
    obtain ⟨hvalue, hvalueAlone⟩ := settled_tree i hc hw
    refine ⟨⟨hkey, hvalue⟩, ?_, fun cells' ↦ ?_⟩
    · exact congrArg (fun r ↦ (·.1.octets) <$> r) (hkeyAlone #[])
    · simp only [hkeyAlone, hvalueAlone, ok_bind, pure_eq_ok]

theorem settled_treeResult : (result : Except Fault Item) → ∀ {o : Options},
    o.flags.contains .cde = true → ∀ {depth : Nat} {cells : CellTable} {r : Wire × CellTable},
    treeResult o result depth cells = .ok r → r.1.Settled (o.maxDepth - depth) ∧
      ∀ cells', treeResult o.withoutReferences result depth cells' = .ok (r.1, cells')
  | .error _, _, _, _, _, _, h => by cases h
  | .ok i, _, hc, _, _, _, h => settled_tree i hc h

end

end Cbor.Encoder
