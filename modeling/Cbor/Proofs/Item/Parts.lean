import Cbor.Assembly
import Cbor.Proofs.Flags
import Cbor.Proofs.Tag.Meaning
import Cbor.Proofs.Text.Utf8

namespace Cbor

namespace Flags

/-- Whether text of these octets is read and written. -/
def Admits (f : Flags) (b : Octets) : Prop :=
  f.contains .uncheckedText = true ∨ Utf8.isValid b = true

/-- Native strings are of just one type on the wire, and so are native keys. -/
structure Typed (f : Flags) : Prop where
  string : f.contains .byte = !f.contains .text
  key : f.contains .keyByte = !f.contains .keyText

end Flags

namespace Item

mutual

/-- The item and all that is in it, except for keys and for what hooks give. -/
def parts : Item → List Item
  | array items => array items :: partsAll items
  | map entries => map entries :: partsEntries entries
  | tag number content => tag number content :: parts content
  | shareable cell content => shareable cell content :: parts content
  | params p content => params p content :: parts content
  | i => [i]

def partsAll : List Item → List Item
  | [] => []
  | i :: is => parts i ++ partsAll is

def partsEntries : List (Item × Item) → List Item
  | [] => []
  | (_, i) :: is => parts i ++ partsEntries is

end

theorem self_mem_parts (i : Item) : i ∈ i.parts := by
  cases i <;> exact List.mem_cons_self

theorem mem_partsAll {i : Item} {is : List Item} : i ∈ partsAll is ↔ ∃ j ∈ is, i ∈ j.parts := by
  induction is with
  | nil => simp [partsAll]
  | cons j is ih => simp [partsAll, ih]

theorem mem_partsEntries {i : Item} {is : List (Item × Item)} :
    i ∈ partsEntries is ↔ ∃ e ∈ is, i ∈ e.2.parts := by
  induction is with
  | nil => simp [partsEntries]
  | cons e is ih =>
    obtain ⟨k, j⟩ := e
    simp [partsEntries, ih]

theorem parts_subset_array {i : Item} {items : List Item} (hi : i ∈ items) :
    i.parts ⊆ (array items).parts :=
  fun _ hj ↦ List.mem_cons_of_mem _ (mem_partsAll.2 ⟨i, hi, hj⟩)

theorem parts_subset_map {e : Item × Item} {entries : List (Item × Item)} (he : e ∈ entries) :
    e.2.parts ⊆ (map entries).parts :=
  fun _ hj ↦ List.mem_cons_of_mem _ (mem_partsEntries.2 ⟨e, he, hj⟩)

theorem parts_subset_tag (number : UInt64) (content : Item) :
    content.parts ⊆ (tag number content).parts :=
  List.subset_cons_self _ _

theorem parts_subset_shareable (cell : Nat) (content : Item) :
    content.parts ⊆ (shareable cell content).parts :=
  List.subset_cons_self _ _

variable (f : Flags) (g : Tag.Groups)

def IsName (key : Item) : Prop :=
  ∃ b, key = string b ∧ (f.contains .keyText = true → f.Admits b)

/-- What writing with the flags `f` and the groups `g` asks of an item, whatever is in it. -/
def Allowed : Item → Prop
  | text b => f.Admits b
  | string b => f.contains .text = true → f.Admits b
  | map entries => ∀ e ∈ entries, e.1.IsName f
  | dateTime t => g.dateTime = true ∧ t.offset % 60 = 0
  | bignum _ => g.bignum = true
  | decimal _ | bigFloat _ => g.decimal = true
  | uri _ => g.uri = true
  | custom .. | params .. => False
  | _ => True

def Writable (i : Item) : Prop := ∀ j ∈ i.parts, j.Allowed f g

variable {f g}

theorem writable_array {items : List Item} :
    (array items).Writable f g ↔ ∀ i ∈ items, i.Writable f g := by
  constructor
  · intro h i hi j hj
    exact h j (parts_subset_array hi hj)
  · intro h j hj
    rcases List.mem_cons.1 hj with rfl | hj
    · trivial
    · obtain ⟨i, hi, hj⟩ := mem_partsAll.1 hj
      exact h i hi j hj

theorem writable_map {entries : List (Item × Item)} :
    (map entries).Writable f g ↔ ∀ e ∈ entries, e.1.IsName f ∧ e.2.Writable f g := by
  constructor
  · intro h e he
    exact ⟨h (map entries) List.mem_cons_self e he, fun j hj ↦ h j (parts_subset_map he hj)⟩
  · intro h j hj
    rcases List.mem_cons.1 hj with rfl | hj
    · exact fun e he ↦ (h e he).1
    · obtain ⟨e, he, hj⟩ := mem_partsEntries.1 hj
      exact (h e he).2 j hj

theorem writable_tag {number : UInt64} {content : Item} :
    (tag number content).Writable f g ↔ content.Writable f g :=
  List.forall_mem_cons.trans (and_iff_right trivial)

theorem writable_shareable {cell : Nat} {content : Item} :
    (shareable cell content).Writable f g ↔ content.Writable f g :=
  List.forall_mem_cons.trans (and_iff_right trivial)

theorem writable_of_allowed {i : Item} (hi : i.parts = [i]) (h : i.Allowed f g) :
    i.Writable f g := by
  intro j hj
  rw [hi, List.mem_singleton] at hj
  exact hj ▸ h

theorem Writable.native (hf : f.Typed) {i : Item} (h : i.Writable f g) :
    (i.native f).Writable f g := by
  cases i with
  | bytes b =>
    rw [Item.native]
    split
    case isTrue hb =>
      refine writable_of_allowed rfl fun ht ↦ ?_
      rw [hf.string, ht] at hb
      cases hb
    case isFalse => exact h
  | text b =>
    rw [Item.native]
    split
    case isTrue => exact writable_of_allowed rfl fun _ ↦ h _ (self_mem_parts _)
    case isFalse => exact h
  | float16 bits | float32 bits =>
    rw [Item.native]
    split <;> exact writable_of_allowed rfl trivial
  | _ => exact h

theorem writable_of_interpret {number : UInt64} {content item : Item}
    (h : Tag.interpret g number content = .ok (some item)) (f : Flags) : item.Writable f g := by
  obtain ⟨t, ht, hg, rfl⟩ | ⟨_, _, hg, rfl⟩ | ⟨_, _, hg, rfl | rfl⟩ | ⟨_, _, hg, rfl⟩ :=
    Tag.cases_of_interpret h
  · exact writable_of_allowed rfl ⟨hg, ht.2⟩
  all_goals exact writable_of_allowed rfl hg

theorem allowed_congr {f' : Flags} (h : f &&& .strings = f' &&& .strings) (i : Item) :
    i.Allowed f g ↔ i.Allowed f' g := by
  have hu := Flags.contains_eq_of_strings h (b := .uncheckedText) (by decide)
  have ht := Flags.contains_eq_of_strings h (b := .text) (by decide)
  have hk := Flags.contains_eq_of_strings h (b := .keyText) (by decide)
  cases i <;> simp only [Allowed, IsName, Flags.Admits, hu, ht, hk]

theorem writable_congr {f' : Flags} (h : f &&& .strings = f' &&& .strings) {i : Item} :
    i.Writable f g ↔ i.Writable f' g :=
  forall₂_congr fun j _ ↦ allowed_congr h j

end Item
end Cbor
