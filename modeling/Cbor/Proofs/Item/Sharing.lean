import Cbor.Proofs.Item.Formed
import Cbor.Proofs.Wire.Meaning

namespace Cbor.Item

section

variable (f : Flags) (contents : Nat → Item)

mutual

/-- The form of items that reading makes when it keeps shared nodes. `contents` says what each cell
holds. -/
def Woven : Item → Prop
  | array items => WovenAll items
  | map entries => Keyed (entries.map Prod.fst) ∧ WovenEntries entries
  | tag number content => number ∉ interpreted ∧ number ∉ Tag.references ∧ Woven content
  | shareable cell content => content.isShareable = false ∧ contents cell = content ∧ Woven content
  | i => i.Formed f Lasting

def WovenAll : List Item → Prop
  | [] => True
  | i :: is => Woven i ∧ WovenAll is

def WovenEntries : List (Item × Item) → Prop
  | [] => True
  | (_, i) :: is => Woven i ∧ WovenEntries is

end

end

theorem wovenAll_iff {f : Flags} {contents : Nat → Item} {is : List Item} :
    WovenAll f contents is ↔ ∀ i ∈ is, i.Woven f contents := by
  induction is with
  | nil => simp [WovenAll]
  | cons i is ih => simp [WovenAll, ih]

section

variable (ρ : Nat → Nat)

mutual

def rename : Item → Item
  | array items => array (renameAll items)
  | map entries => map (renameEntries entries)
  | tag number content => tag number (rename content)
  | shareable cell content => shareable (ρ cell) (rename content)
  | params p content => params p (rename content)
  | i => i

def renameAll : List Item → List Item
  | [] => []
  | i :: is => rename i :: renameAll is

def renameEntries : List (Item × Item) → List (Item × Item)
  | [] => []
  | (k, i) :: is => (rename k, rename i) :: renameEntries is

end

theorem exists_of_rename_eq_tag {ρ : Nat → Nat} {v content : Item} {number : UInt64}
    (h : v.rename ρ = tag number content) : ∃ content, v = tag number content := by
  cases v with
  | tag n c =>
    obtain ⟨rfl, _⟩ := tag.inj h
    exact ⟨c, rfl⟩
  | _ => cases h

theorem keys_renameEntries {entries : List (Item × Item)} (h : Keyed (entries.map Prod.fst)) :
    (renameEntries ρ entries).map Prod.fst = entries.map Prod.fst := by
  have hk := h.string_of_mem
  clear h
  induction entries with
  | nil => rfl
  | cons e entries ih =>
    obtain ⟨b, hb, -⟩ := hk e.1 List.mem_cons_self
    have hr : e.1.rename ρ = e.1 := by
      rw [hb]
      rfl
    rw [renameEntries, List.map_cons, List.map_cons, hr,
      ih fun k h ↦ hk k (List.mem_cons_of_mem _ h)]

mutual

theorem same_rename : (v : Item) → (v.rename ρ).same v = true
  | array items => by rw [rename, same, sameAll_rename items]
  | map entries => by rw [rename, same, sameEntries_rename entries]
  | tag number content => by simp [rename, same, same_rename content]
  | shareable _ content => by rw [rename, same, same_rename content]
  | params p content => by simp [rename, same, same_rename content]
  | unsigned _ | negative _ | bytes _ | text _ | string _ | bool _ | null | undefined | float16 _
  | float32 _ | float64 _ | bignum _ | decimal _ | bigFloat _ | uri _ | custom .. => by
    simp [rename, same]
  | dateTime t => by simp [rename, same, Moment.sameInstant]

theorem sameAll_rename : (is : List Item) → sameAll (renameAll ρ is) is = true
  | [] => rfl
  | i :: is => by rw [renameAll, sameAll, same_rename i, sameAll_rename is, Bool.and_true]

theorem sameEntries_rename : (is : List (Item × Item)) →
    sameEntries (renameEntries ρ is) is = true
  | [] => rfl
  | (k, i) :: is => by
    rw [renameEntries, sameEntries, same_rename k, same_rename i, sameEntries_rename is]
    rfl

end

theorem rename_beq (v : Item) : (v.rename ρ == v) = true := same_rename ρ v

theorem map_rename_beq (is : List Item) : (is.map (rename ρ) == is) = true := by
  induction is with
  | nil => rfl
  | cons i is ih => rw [List.map_cons, List.cons_beq_cons, rename_beq, ih, Bool.and_true]

end

end Cbor.Item
