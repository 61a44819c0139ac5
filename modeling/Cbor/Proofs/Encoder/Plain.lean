import Cbor.Proofs.Encoder.Atoms
import Cbor.Proofs.Encoder.Overrides
import Cbor.Proofs.Encoder.Reference

namespace Cbor

/-- `P n w`, said of trees of at most `n` levels, is kept by all that writing makes of trees. If it
is `strict`, it need not be kept by string references. -/
structure Wire.Closed (strict : Prop) (P : Nat → Wire → Prop) : Prop where
  scalar (room : Nat) (a : Scalar) : P room (.scalar a)
  string (room : Nat) (isText : Bool) (b : Octets) : P room (.string isText b)
  array {room : Nat} {ws : List Wire} : 0 < room → (∀ w ∈ ws, P (room - 1) w) →
    P room (.array false ws)
  map {room : Nat} {es : List (Wire × Wire)} : 0 < room →
    (∀ e ∈ es, P (room - 1) e.1 ∧ P (room - 1) e.2) → P room (.map false es)
  tag {room : Nat} {number : UInt64} {w : Wire} : 0 < room → (strict → number ≠ Tag.stringRef) →
    P (room - 1) w → P room (.tag number w)
  mono {room room' : Nat} {w : Wire} : room ≤ room' → P room w → P room' w

theorem Wire.Closed.layered {strict : Prop} {P : Nat → Wire → Prop} (hP : Wire.Closed strict P) :
    Wire.Layered P where
  unsigned _ _ := hP.scalar _ _
  negative _ _ := hP.scalar _ _
  string := hP.string
  pair hr ha hb := hP.array hr (by simp [ha, hb])
  tag hr hn hw := hP.tag hr (fun _ ↦ hn) hw

namespace Encoder

variable {strict : Prop} {P : Nat → Wire → Prop} {o : Options} {depth : Nat} {cells : CellTable}

theorem closed_entriesInTurn {room : Nat} {ts : List (Octets × EntryTrees)}
    (ht : ∀ t ∈ ts, ∀ {cells r}, t.2.entry depth cells = .ok r → P room r.1.1 ∧ P room r.1.2)
    {r : List (Wire × Wire) × CellTable} (h : entriesInTurn depth ts cells = .ok r) :
    ∀ e ∈ r.1, P room e.1 ∧ P room e.2 := by
  induction ts generalizing cells r with
  | nil =>
    cases h
    nofun
  | cons t ts ih =>
    obtain ⟨e, he, es, hes, rfl⟩ := entriesInTurn_cons_eq_ok.1 h
    exact List.forall_mem_cons.2 ⟨ht t List.mem_cons_self he,
      ih (fun t ht' ↦ ht t (List.mem_cons_of_mem _ ht')) hes⟩

theorem closed_sortedTrees {room : Nat} {ts : List EntryTrees}
    (ht : ∀ t ∈ ts, ∀ {cells r}, t.entry depth cells = .ok r → P room r.1.1 ∧ P room r.1.2)
    {r : List (Wire × Wire) × CellTable} (h : sortedTrees ts depth cells = .ok r) :
    ∀ e ∈ r.1, P room e.1 ∧ P room e.2 := by
  obtain ⟨ks, hks, -, h⟩ := exists_of_sortedTrees h
  exact closed_entriesInTurn (fun k hk ↦ ht k.2 (hks k hk)) h

mutual

theorem closed_tree (hP : Wire.Closed strict P) : (v : Item) → (strict → v.NoStringRef) →
    ∀ {o : Options} {asKey : Bool} {depth : Nat} {cells : CellTable} {r : Wire × CellTable},
    tree o asKey v depth cells = .ok r → P (o.maxDepth - depth) r.1
  | .unsigned _, _, _, _, _, _, _, h | .negative _, _, _, _, _, _, _, h
  | .bool _, _, _, _, _, _, _, h | .null, _, _, _, _, _, _, h | .undefined, _, _, _, _, _, _, h
  | .float16 _, _, _, _, _, _, _, h | .float32 _, _, _, _, _, _, _, h
  | .float64 _, _, _, _, _, _, _, h => by
    rw [tree] at h
    cases h
    exact hP.scalar _ _
  | .bytes b, _, _, _, _, _, _, h => by
    rw [tree] at h
    cases h
    exact hP.string _ false b
  | .text b, _, _, _, _, _, _, h => by
    simp only [tree, bind_eq_ok] at h
    obtain ⟨w, hw, h⟩ := h
    cases h
    exact hP.layered.textTree hw
  | .string b, _, _, asKey, _, _, _, h => by
    rw [tree] at h
    split at h
    · obtain ⟨w, hw, h⟩ := bind_eq_ok.1 h
      cases h
      exact hP.layered.keyTree hw
    · obtain ⟨w, hw, h⟩ := bind_eq_ok.1 h
      cases h
      exact hP.layered.nativeTree hw
  | .array items, hv, _, _, _, _, _, h => by
    simp only [tree, bind_eq_ok, checkDepth_eq_ok] at h
    obtain ⟨_, hd, ws, hws, h⟩ := h
    cases h
    exact hP.array (by omega) (closed_treeAll hP items hv hws)
  | .map entries, hv, o, _, _, _, _, h => by
    simp only [tree, bind_eq_ok, checkDepth_eq_ok] at h
    obtain ⟨_, hd, h⟩ := h
    split at h
    · obtain ⟨es, hes, h⟩ := bind_eq_ok.1 h
      cases h
      exact hP.map (by omega) (closed_sortedTrees (closed_entryTrees hP entries hv) hes)
    · obtain ⟨es, hes, h⟩ := bind_eq_ok.1 h
      cases h
      exact hP.map (by omega) (closed_treeEntries hP entries hv hes)
  | .tag number content, hv, _, _, _, _, _, h => by
    simp only [tree, bind_eq_ok, checkDepth_eq_ok] at h
    obtain ⟨_, hd, w, hw, h⟩ := h
    cases h
    exact hP.tag (by omega) (fun hs ↦ (hv hs).1) (closed_tree hP content (fun hs ↦ (hv hs).2) hw)
  | .dateTime t, _, _, _, _, _, _, h => by
    simp only [tree, bind_eq_ok] at h
    obtain ⟨_, _, w, hw, h⟩ := h
    cases h
    exact hP.layered.stampTree hw
  | .bignum b, _, _, _, _, _, _, h => by
    simp only [tree, bind_eq_ok] at h
    obtain ⟨_, _, w, hw, h⟩ := h
    cases h
    exact hP.layered.bignumTree hw
  | .decimal f, _, _, _, _, _, _, h => by
    simp only [tree, bind_eq_ok] at h
    obtain ⟨_, _, w, hw, h⟩ := h
    cases h
    exact hP.layered.decimalTree hw
  | .bigFloat f, _, _, _, _, _, _, h => by
    simp only [tree, bind_eq_ok] at h
    obtain ⟨_, _, w, hw, h⟩ := h
    cases h
    exact hP.layered.fractionTree (by decide) hw
  | .uri u, _, _, _, _, _, _, h => by
    simp only [tree, bind_eq_ok, checkDepth_eq_ok] at h
    obtain ⟨_, _, _, hd, h⟩ := h
    cases h
    exact hP.layered.taggedString (by decide) hd true _
  | .shareable cell content, hv, o, asKey, _, cells, _, h => by
    simp only [tree] at h
    split at h
    · cases h
    split at h
    · cases h
    split at h
    · cases h
    simp only [bind_eq_ok, checkDepth_eq_ok] at h
    obtain ⟨_, hd, h⟩ := h
    rcases hl : lookupCell o cell cells with ⟨_ | index, found⟩
    · simp only [hl, bind_eq_ok] at h
      obtain ⟨w, hw, h⟩ := h
      cases h
      exact hP.tag (by omega) (fun _ ↦ by decide) (closed_tree hP content hv hw)
    · simp only [hl] at h
      cases h
      exact hP.tag (by omega) (fun _ ↦ by decide) (hP.scalar _ _)
  | .custom hook result, hv, _, asKey, _, _, _, h => by
    rw [tree] at h
    split at h
    · cases h
    obtain ⟨_, _, h⟩ := bind_eq_ok.1 h
    exact hP.mono (by omega) (closed_treeResult hP result hv h)
  | .params p content, hv, o, asKey, _, _, _, h => by
    simp only [tree, bind_eq_ok, checkDepth_eq_ok] at h
    obtain ⟨inner, hi, _, hd, h⟩ := h
    have hp := closed_tree hP content hv h
    rw [maxDepth_override hi] at hp
    exact hP.mono (by omega) hp

theorem closed_treeAll (hP : Wire.Closed strict P) : (is : List Item) →
    (strict → Item.NoStringRefAll is) → ∀ {o : Options} {depth : Nat} {cells : CellTable}
    {r : List Wire × CellTable}, treeAll o is (depth + 1) cells = .ok r →
    ∀ w ∈ r.1, P (o.maxDepth - depth - 1) w
  | [], _, _, _, _, _, h => by
    cases h
    nofun
  | i :: is, hv, _, _, _, _, h => by
    simp only [treeAll, bind_eq_ok] at h
    obtain ⟨w, hw, ws, hws, h⟩ := h
    cases h
    exact List.forall_mem_cons.2
      ⟨closed_tree hP i (fun hs ↦ (hv hs).1) hw, closed_treeAll hP is (fun hs ↦ (hv hs).2) hws⟩

theorem closed_treeEntries (hP : Wire.Closed strict P) : (is : List (Item × Item)) →
    (strict → Item.NoStringRefEntries is) → ∀ {o : Options} {depth : Nat} {cells : CellTable}
    {r : List (Wire × Wire) × CellTable}, treeEntries o is (depth + 1) cells = .ok r →
    ∀ e ∈ r.1, P (o.maxDepth - depth - 1) e.1 ∧ P (o.maxDepth - depth - 1) e.2
  | [], _, _, _, _, _, h => by
    cases h
    nofun
  | (k, i) :: is, hv, _, _, _, _, h => by
    simp only [treeEntries, bind_eq_ok] at h
    obtain ⟨k', hk, w, hw, es, hes, h⟩ := h
    cases h
    exact List.forall_mem_cons.2
      ⟨⟨closed_tree hP k (fun hs ↦ (hv hs).1) hk, closed_tree hP i (fun hs ↦ (hv hs).2.1) hw⟩,
        closed_treeEntries hP is (fun hs ↦ (hv hs).2.2) hes⟩

theorem closed_entryTrees (hP : Wire.Closed strict P) : (is : List (Item × Item)) →
    (strict → Item.NoStringRefEntries is) → ∀ {o : Options} {depth : Nat},
    ∀ t ∈ entryTrees o is, ∀ {cells r}, t.entry (depth + 1) cells = .ok r →
    P (o.maxDepth - depth - 1) r.1.1 ∧ P (o.maxDepth - depth - 1) r.1.2
  | [], _, _, _, _, ht, _, _, _ => by
    rw [entryTrees] at ht
    cases ht
  | (k, i) :: is, hv, _, _, t, ht, _, _, h => by
    rw [entryTrees] at ht
    rcases List.mem_cons.1 ht with rfl | ht
    · simp only [bind_eq_ok] at h
      obtain ⟨k', hk, w, hw, h⟩ := h
      cases h
      exact ⟨closed_tree hP k (fun hs ↦ (hv hs).1) hk, closed_tree hP i (fun hs ↦ (hv hs).2.1) hw⟩
    · exact closed_entryTrees hP is (fun hs ↦ (hv hs).2.2) t ht h

theorem closed_treeResult (hP : Wire.Closed strict P) : (result : Except Fault Item) →
    (strict → Item.NoStringRefResult result) → ∀ {o : Options} {depth : Nat} {cells : CellTable}
    {r : Wire × CellTable}, treeResult o result depth cells = .ok r → P (o.maxDepth - depth) r.1
  | .error _, _, _, _, _, _, h => by
    rw [treeResult] at h
    cases h
  | .ok i, hv, _, _, _, _, h => by
    rw [treeResult] at h
    exact closed_tree hP i hv h

end

theorem closed_plain : Wire.Closed True Wire.Plain where
  scalar _ _ := trivial
  string _ _ _ := trivial
  array {room ws} hr hws := by
    refine ⟨hr, ?_⟩
    induction ws with
    | nil => trivial
    | cons w ws ih =>
      obtain ⟨hw, hws⟩ := List.forall_mem_cons.1 hws
      exact ⟨hw, ih hws⟩
  map {room es} hr hes := by
    refine ⟨hr, ?_⟩
    induction es with
    | nil => trivial
    | cons e es ih =>
      obtain ⟨⟨hk, hv⟩, hes⟩ := List.forall_mem_cons.1 hes
      exact ⟨hk, hv, ih hes⟩
  tag hr hn hw := ⟨hr, hn trivial, hw⟩
  mono h hw := Wire.Plain.mono h _ hw

theorem plain_tree (v : Item) (hv : v.NoStringRef) {asKey : Bool} {r : Wire × CellTable}
    (h : tree o asKey v depth cells = .ok r) : r.1.Plain (o.maxDepth - depth) :=
  closed_tree closed_plain v (fun _ ↦ hv) h

end Encoder
end Cbor
