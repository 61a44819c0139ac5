import Cbor.Proofs.Encoder.Tree
import Cbor.Proofs.Item.Formed

namespace Cbor

theorem getElem?_of_idxOf? {α : Type} [BEq α] [LawfulBEq α] {a : Array α} {x : α} {i : Nat}
    (h : a.idxOf? x = some i) : a[i]? = some x := by
  rw [Array.idxOf?_eq_map_finIdxOf?_val] at h
  obtain ⟨j, hj, rfl⟩ := Option.map_eq_some_iff.1 h
  exact Array.getElem?_eq_some_iff.2 ⟨j.2, (Array.finIdxOf?_eq_some_iff.1 hj).1⟩

theorem not_mem_of_idxOf? {α : Type} [BEq α] [LawfulBEq α] {a : Array α} {x : α}
    (h : a.idxOf? x = none) : x ∉ a := by
  rw [Array.idxOf?_eq_map_finIdxOf?_val, Option.map_eq_none_iff] at h
  exact Array.finIdxOf?_eq_none_iff.1 h

namespace CellTable

variable {cells cells' cells'' : CellTable} {cell i : Nat}

def Distinct (cells : CellTable) : Prop :=
  ∀ (i j c : Nat), cells[i]? = some (some c) → cells[j]? = some (some c) → i = j

/-- Each cell keeps its number, and none gets another one. -/
structure Grows (cells cells' : CellTable) : Prop where
  keeps : ∀ (i c : Nat), cells[i]? = some (some c) → cells'[i]? = some (some c)
  distinct : cells.Distinct → cells'.Distinct

theorem Grows.refl (cells : CellTable) : cells.Grows cells := ⟨fun _ _ ↦ id, id⟩

theorem Grows.trans (h : cells.Grows cells') (h' : cells'.Grows cells'') : cells.Grows cells'' :=
  ⟨fun i c hi ↦ h'.keeps i c (h.keeps i c hi), fun hd ↦ h'.distinct (h.distinct hd)⟩

theorem getElem?_of_lookup (h : cells.lookup cell = (some i, cells')) :
    cells' = cells ∧ cells[i]? = some (some cell) := by
  unfold lookup at h
  split at h <;> cases h
  exact ⟨rfl, getElem?_of_idxOf? ‹_›⟩

theorem eq_push_of_lookup (h : cells.lookup cell = (none, cells')) :
    cells' = cells.push (some cell) ∧ some cell ∉ cells := by
  unfold lookup at h
  split at h <;> cases h
  exact ⟨rfl, not_mem_of_idxOf? ‹_›⟩

theorem getElem?_push_old {x : Option Nat} {c : Nat} (h : cells[i]? = some (some c)) :
    (cells.push x)[i]? = some (some c) := by
  have hi := (Array.getElem?_eq_some_iff.1 h).1
  rw [Array.getElem?_push, if_neg (Nat.ne_of_lt hi), h]

theorem grows_push {x : Option Nat} (hx : ∀ c, x = some c → some c ∉ cells) :
    cells.Grows (cells.push x) where
  keeps _ _ := getElem?_push_old
  distinct hd i j c hi hj := by
    rw [Array.getElem?_push] at hi hj
    split at hi <;> split at hj
    · omega
    · exact absurd (Array.mem_of_getElem? hj) (hx c (Option.some.inj hi))
    · exact absurd (Array.mem_of_getElem? hi) (hx c (Option.some.inj hj))
    · exact hd i j c hi hj

theorem grows_lookup (cells : CellTable) (cell : Nat) : cells.Grows (cells.lookup cell).2 := by
  rcases h : cells.lookup cell with ⟨_ | i, cells'⟩
  · obtain ⟨rfl, hn⟩ := eq_push_of_lookup h
    refine grows_push fun c hc ↦ ?_
    cases hc
    exact hn
  · obtain ⟨rfl, -⟩ := getElem?_of_lookup h
    exact .refl cells'

/-- Each cell in the table has the number `ρ` of it. -/
def Numbered (ρ : Nat → Nat) (cells : CellTable) : Prop :=
  ∀ (i c : Nat), cells[i]? = some (some c) → ρ c = i

theorem Numbered.of_grows {ρ : Nat → Nat} (h : cells'.Numbered ρ) (hg : cells.Grows cells') :
    cells.Numbered ρ :=
  fun i c hi ↦ h i c (hg.keeps i c hi)

/-- The numbers in the table, and numbers behind the table for all other cells. -/
def number (cells : CellTable) (cell : Nat) : Nat :=
  (cells.idxOf? (some cell)).getD (cells.size + cell)

theorem numbered_number (h : cells.Distinct) : cells.Numbered cells.number := by
  intro i c hi
  cases hj : cells.idxOf? (some c) with
  | none => exact absurd (Array.mem_of_getElem? hi) (not_mem_of_idxOf? hj)
  | some j =>
    rw [number, hj]
    exact h j i c (getElem?_of_idxOf? hj) hi

theorem number_injective (cells : CellTable) : Function.Injective cells.number := by
  intro c d h
  simp only [number] at h
  cases hc : cells.idxOf? (some c) with
  | none =>
    cases hd : cells.idxOf? (some d) with
    | none =>
      rw [hc, hd] at h
      exact Nat.add_left_cancel h
    | some j =>
      have hj := (Array.getElem?_eq_some_iff.1 (getElem?_of_idxOf? hd)).1
      rw [hc, hd] at h
      simp only [Option.getD_none, Option.getD_some] at h
      omega
  | some i =>
    have hi := getElem?_of_idxOf? hc
    cases hd : cells.idxOf? (some d) with
    | none =>
      have hlt := (Array.getElem?_eq_some_iff.1 hi).1
      rw [hc, hd] at h
      simp only [Option.getD_none, Option.getD_some] at h
      omega
    | some j =>
      have hj := getElem?_of_idxOf? hd
      rw [hc, hd] at h
      obtain rfl : i = j := h
      exact Option.some.inj (Option.some.inj (hi.symm.trans hj))

end CellTable

namespace Encoder

open CellTable (Grows)

variable {depth : Nat} {cells : CellTable}

theorem grows_lookupCell (o : Options) (cell : Nat) (cells : CellTable) :
    cells.Grows (lookupCell o cell cells).2 := by
  unfold lookupCell
  split
  · exact CellTable.grows_lookup cells cell
  · exact .refl cells

theorem grows_entriesInTurn {ts : List (Octets × EntryTrees)}
    (ht : ∀ t ∈ ts, ∀ {cells r}, t.2.entry depth cells = .ok r → cells.Grows r.2)
    {r : List (Wire × Wire) × CellTable} (h : entriesInTurn depth ts cells = .ok r) :
    cells.Grows r.2 := by
  induction ts generalizing cells r with
  | nil =>
    cases h
    exact .refl _
  | cons t ts ih =>
    obtain ⟨e, he, es, hes, rfl⟩ := entriesInTurn_cons_eq_ok.1 h
    have hg := ih (fun t ht' ↦ ht t (List.mem_cons_of_mem _ ht')) hes
    exact (ht t List.mem_cons_self he).trans hg

theorem grows_sortedTrees {ts : List EntryTrees}
    (ht : ∀ t ∈ ts, ∀ {cells r}, t.entry depth cells = .ok r → cells.Grows r.2)
    {r : List (Wire × Wire) × CellTable} (h : sortedTrees ts depth cells = .ok r) :
    cells.Grows r.2 := by
  obtain ⟨ks, hks, -, h⟩ := exists_of_sortedTrees h
  exact grows_entriesInTurn (fun k hk ↦ ht k.2 (hks k hk)) h

theorem cells_of_isAtom {o : Options} {asKey : Bool} {v : Item} (ha : v.IsAtom)
    {r : Wire × CellTable} (h : tree o asKey v depth cells = .ok r) : r.2 = cells := by
  cases v with
  | array | map | tag | shareable | custom | params => exact ha.elim
  | unsigned | negative | bytes | bool | null | undefined | float16 | float32 | float64 =>
    rw [tree] at h
    cases h
    rfl
  | text =>
    simp only [tree, bind_eq_ok] at h
    obtain ⟨_, _, h⟩ := h
    cases h
    rfl
  | string =>
    rw [tree] at h
    split at h <;>
    · obtain ⟨_, _, h⟩ := bind_eq_ok.1 h
      cases h
      rfl
  | dateTime | bignum | decimal | bigFloat | uri =>
    simp only [tree, bind_eq_ok] at h
    obtain ⟨_, _, _, _, h⟩ := h
    cases h
    rfl

mutual

theorem grows_tree : (v : Item) → ∀ {o : Options} {asKey : Bool} {depth : Nat} {cells : CellTable}
    {r : Wire × CellTable}, tree o asKey v depth cells = .ok r → cells.Grows r.2
  | .unsigned _, _, _, _, _, _, h | .negative _, _, _, _, _, _, h | .bytes _, _, _, _, _, _, h
  | .text _, _, _, _, _, _, h | .string _, _, _, _, _, _, h | .bool _, _, _, _, _, _, h
  | .null, _, _, _, _, _, h | .undefined, _, _, _, _, _, h | .float16 _, _, _, _, _, _, h
  | .float32 _, _, _, _, _, _, h | .float64 _, _, _, _, _, _, h | .dateTime _, _, _, _, _, _, h
  | .bignum _, _, _, _, _, _, h | .decimal _, _, _, _, _, _, h | .bigFloat _, _, _, _, _, _, h
  | .uri _, _, _, _, _, _, h => cells_of_isAtom (by exact trivial) h ▸ .refl _
  | .array items, _, _, _, _, _, h => by
    simp only [tree, bind_eq_ok] at h
    obtain ⟨_, _, ws, hws, h⟩ := h
    cases h
    exact grows_treeAll items hws
  | .map entries, _, _, _, _, _, h => by
    simp only [tree, bind_eq_ok] at h
    obtain ⟨_, _, h⟩ := h
    split at h
    · obtain ⟨es, hes, h⟩ := bind_eq_ok.1 h
      cases h
      exact grows_sortedTrees (grows_entryTrees entries) hes
    · obtain ⟨es, hes, h⟩ := bind_eq_ok.1 h
      cases h
      exact grows_treeEntries entries hes
  | .tag number content, _, _, _, _, _, h => by
    simp only [tree, bind_eq_ok] at h
    obtain ⟨_, _, w, hw, h⟩ := h
    cases h
    have hc := grows_tree content hw
    split at hc
    · exact (CellTable.grows_push fun _ hx ↦ by cases hx).trans hc
    · exact hc
  | .shareable cell content, o, asKey, _, cells, _, h => by
    have hg := grows_lookupCell o cell cells
    simp only [tree] at h
    split at h
    · cases h
    split at h
    · cases h
    split at h
    · cases h
    obtain ⟨_, _, h⟩ := bind_eq_ok.1 h
    rcases hl : lookupCell o cell cells with ⟨_ | index, cells'⟩
    · simp only [hl] at h hg
      obtain ⟨w, hw, h⟩ := bind_eq_ok.1 h
      have hc := grows_tree content hw
      cases h
      exact hg.trans hc
    · simp only [hl] at h hg
      cases h
      exact hg
  | .custom _ result, _, _, _, _, _, h => by
    rw [tree] at h
    split at h
    · cases h
    · obtain ⟨_, _, h⟩ := bind_eq_ok.1 h
      exact grows_treeResult result h
  | .params p content, _, _, _, _, _, h => by
    simp only [tree, bind_eq_ok] at h
    obtain ⟨_, _, _, _, h⟩ := h
    exact grows_tree content h

theorem grows_treeAll : (is : List Item) → ∀ {o : Options} {depth : Nat} {cells : CellTable}
    {r : List Wire × CellTable}, treeAll o is depth cells = .ok r → cells.Grows r.2
  | [], _, _, _, _, h => by
    cases h
    exact .refl _
  | i :: is, _, _, _, _, h => by
    simp only [treeAll, bind_eq_ok] at h
    obtain ⟨_, hw, _, hws, h⟩ := h
    cases h
    have hg := grows_treeAll is hws
    exact (grows_tree i hw).trans hg

theorem grows_treeEntries : (is : List (Item × Item)) → ∀ {o : Options} {depth : Nat}
    {cells : CellTable} {r : List (Wire × Wire) × CellTable},
    treeEntries o is depth cells = .ok r → cells.Grows r.2
  | [], _, _, _, _, h => by
    cases h
    exact .refl _
  | (k, i) :: is, _, _, _, _, h => by
    simp only [treeEntries, bind_eq_ok] at h
    obtain ⟨_, hk, _, hw, _, hes, h⟩ := h
    cases h
    have hg := grows_treeEntries is hes
    exact ((grows_tree k hk).trans (grows_tree i hw)).trans hg

theorem grows_entryTrees : (is : List (Item × Item)) → ∀ {o : Options} {depth : Nat},
    ∀ t ∈ entryTrees o is, ∀ {cells r}, t.entry depth cells = .ok r → cells.Grows r.2
  | [], _, _, t, ht, _, _, _ => by
    rw [entryTrees] at ht
    cases ht
  | (k, i) :: is, o, _, t, ht, _, _, h => by
    rw [entryTrees] at ht
    rcases List.mem_cons.1 ht with rfl | ht
    · simp only [bind_eq_ok] at h
      obtain ⟨_, hk, _, hw, h⟩ := h
      cases h
      exact (grows_tree k hk).trans (grows_tree i hw)
    · exact grows_entryTrees is t ht h

theorem grows_treeResult : (result : Except Fault Item) → ∀ {o : Options} {depth : Nat}
    {cells : CellTable} {r : Wire × CellTable}, treeResult o result depth cells = .ok r →
    cells.Grows r.2
  | .error _, _, _, _, _, h => by
    rw [treeResult] at h
    cases h
  | .ok i, _, _, _, _, h => by
    rw [treeResult] at h
    exact grows_tree i h

end

end Encoder
end Cbor
