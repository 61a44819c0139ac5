import Cbor.Proofs.Item.Footprint
import Cbor.Proofs.Wire.Meaning

namespace Cbor

open Decoder (Options)

def weightAll (m : Item → Nat) : List Item → Nat
  | [] => 0
  | i :: is => m i + weightAll m is

theorem weightAll_concat (m : Item → Nat) (is : List Item) (i : Item) :
    weightAll m (is ++ [i]) = weightAll m is + m i := by
  induction is with
  | nil => exact Nat.add_comm _ _
  | cons j is ih => rw [List.cons_append, weightAll, weightAll, ih, Nat.add_assoc]

theorem weightAll_footprint (is : List Item) :
    weightAll Item.footprint is = Item.footprintAll is := by
  induction is with
  | nil => rfl
  | cons i is ih => rw [weightAll, Item.footprintAll, ih]

/-- Each unit of the footprint weighs `a` at least, and `b` for each octet pays for what it is read
as. What is read costs the octet `b` that its head has at least, beside what it is made of, and a
copy the three octets of a reference, beside `a` for each unit of the footprint. -/
structure Weight (o : Options) (a b : Nat) (m : Item → Nat) : Prop where
  le : a ≤ b
  footprint_le (i : Item) : a * i.footprint ≤ m i
  native (i : Item) : m (i.native o.flags) = m i
  scalar (x : Scalar) : m x.item ≤ b * x.lexeme.write.length
  string (isText : Bool) (c : Octets) : m (.ofString isText c) = a * (1 + c.length)
  array (is : List Item) : m (.array is) ≤ b + weightAll m is
  map (es : List (Item × Item)) : m (.map es) = a * (Item.map es).footprint
  tag (number : UInt64) (content : Item) :
    m (.tag number content) = a * (Item.tag number content).footprint
  shareable (cell : Nat) (content : Item) : m (.shareable cell content) = a
  interpret {number : UInt64} {content item : Item} :
    Tag.interpret o.groups number content = .ok (some item) → m item ≤ b + m content
  copy : o.sharedRef = .on → ∀ i, m i ≤ a * i.footprint + 3 * b

variable {o : Options}

theorem length_write_pos (l : Lexeme) : 1 ≤ l.write.length := List.length_pos_iff.2 l.write_ne_nil

namespace Item

theorem footprint_scalar (x : Scalar) : x.item.footprint = 1 := by
  cases x <;> rfl

theorem weight_footprint (h : o.groups.decimal = false) : Weight o 1 1 footprint where
  le := Nat.le_refl 1
  footprint_le i := Nat.le_of_eq (Nat.one_mul _)
  native := footprint_native o.flags
  scalar x := by
    rw [footprint_scalar, Nat.one_mul]
    exact length_write_pos _
  string isText c := by rw [footprint_ofString, Nat.one_mul]
  array is := Nat.le_of_eq (by rw [footprint, weightAll_footprint])
  map _ := (Nat.one_mul _).symm
  tag _ _ := (Nat.one_mul _).symm
  shareable _ _ := rfl
  interpret hi := by
    rcases Tag.footprint_of_interpret hi with hle | ⟨hd, -⟩
    · omega
    · rw [h] at hd
      cases hd
  copy _ i := by omega

/-- The footprint, or what its mantissa will weigh, of an integer and of an array that has one. -/
def burden (a b : Nat) : Item → Nat
  | array [e, m] => max (a * (array [e, m]).footprint) (a * m.mantissaWidth - (b - a))
  | i => max (a * i.footprint) (a * i.mantissaWidth - 2 * b)

variable {a b : Nat}

theorem burden_of_mantissaWidth {i : Item} (h : i.mantissaWidth = 0)
    (hi : ∀ e m, i ≠ array [e, m]) : i.burden a b = a * i.footprint := by
  unfold burden
  split
  · exact absurd rfl (hi _ _)
  · rw [h, Nat.mul_zero, Nat.zero_sub, Nat.max_zero]

theorem footprint_le_burden (i : Item) : a * i.footprint ≤ i.burden a b := by
  unfold burden
  split <;> exact Nat.le_max_left _ _

theorem mantissa_le_burden (i : Item) : a * i.mantissaWidth ≤ i.burden a b + 2 * b := by
  unfold burden
  split
  · show a * 0 ≤ _
    omega
  · omega

theorem burden_array (hle : a ≤ b) (is : List Item) :
    burden a b (.array is) ≤ b + weightAll (burden a b) is := by
  have hfoot : a * (array is).footprint ≤ b + weightAll (burden a b) is := by
    have hall : a * footprintAll is ≤ weightAll (burden a b) is := by
      induction is with
      | nil => exact Nat.le_refl 0
      | cons i is ih =>
        rw [footprintAll, Nat.mul_add, weightAll]
        exact Nat.add_le_add i.footprint_le_burden ih
    rw [footprint, Nat.mul_add, Nat.mul_one]
    omega
  by_cases hpair : ∃ e m, is = [e, m]
  · obtain ⟨e, m, rfl⟩ := hpair
    have he : a ≤ e.burden a b :=
      Nat.le_trans (Nat.le_mul_of_pos_right a e.one_le_footprint) e.footprint_le_burden
    have hm := m.mantissa_le_burden (a := a) (b := b)
    refine Nat.max_le.2 ⟨hfoot, ?_⟩
    simp only [weightAll]
    omega
  · rw [burden_of_mantissaWidth rfl fun e m h ↦ hpair ⟨e, m, array.inj h⟩]
    exact hfoot

theorem burden_interpret (hle : a ≤ b) {groups : Tag.Groups} {number : UInt64}
    {content item : Item} (h : Tag.interpret groups number content = .ok (some item)) :
    item.burden a b ≤ b + content.burden a b := by
  have hitem : item.burden a b = a * item.footprint := by
    obtain ⟨_, _, _, rfl⟩ | ⟨_, _, _, rfl⟩ | ⟨_, _, _, rfl | rfl⟩ | ⟨_, _, _, rfl⟩ :=
      Tag.cases_of_interpret h
    all_goals exact burden_of_mantissaWidth rfl fun _ _ h ↦ by cases h
  rcases Tag.footprint_of_interpret h with hf | ⟨-, e, m, rfl, hf⟩
  · have := Nat.mul_le_mul_left a hf
    have := content.footprint_le_burden (a := a) (b := b)
    omega
  · have hm : a * m.mantissaWidth - (b - a) ≤ burden a b (array [e, m]) := Nat.le_max_right _ _
    rw [hitem, hf, Nat.mul_add, Nat.mul_one]
    omega

theorem burden_copy (hle : 3 * a ≤ 2 * b) (i : Item) :
    i.burden a b ≤ a * i.footprint + 3 * b := by
  have hwidth (m : Item) : a * m.mantissaWidth ≤ a * 8 :=
    Nat.mul_le_mul_left a m.mantissaWidth_le
  unfold burden
  split
  · rename_i e m
    have hm := hwidth m
    have he := e.one_le_footprint
    have hf : a * 3 ≤ a * (array [e, m]).footprint := by
      refine Nat.mul_le_mul_left a ?_
      have := m.one_le_footprint
      simp only [footprint, footprintAll]
      omega
    omega
  · have hi := hwidth i
    have hf : a ≤ a * i.footprint := Nat.le_mul_of_pos_right a i.one_le_footprint
    omega

theorem burden_native (f : Flags) (i : Item) : (i.native f).burden a b = i.burden a b := by
  cases i with
  | bytes c | text c | float16 bits | float32 bits =>
    simp only [native]
    split <;> rfl
  | _ => rfl

theorem burden_scalar (hle : a ≤ b) (x : Scalar) :
    x.item.burden a b ≤ b * x.lexeme.write.length := by
  have hone : a * 1 ≤ b * x.lexeme.write.length := Nat.mul_le_mul hle (length_write_pos _)
  have hword {n : UInt64} (major : Nat) : a * (Octets.ofNat 8 n.toNat).trimZeros.length ≤
      b * (Head.write major n).length := Nat.mul_le_mul hle (mantissaWidth_le_write major)
  cases x with
  | unsigned n => exact Nat.max_le.2 ⟨hone, Nat.le_trans (Nat.sub_le _ _) (hword 0)⟩
  | negative n => exact Nat.max_le.2 ⟨hone, Nat.le_trans (Nat.sub_le _ _) (hword 1)⟩
  | _ => exact Nat.max_le.2 ⟨hone, by simp [mantissaWidth, Scalar.item]⟩

/-- With a half more for each octet there is enough for mantissas in copies, too. -/
theorem weight_burden (hle : a ≤ b) (hc : o.sharedRef = .on → 3 * a ≤ 2 * b) :
    Weight o a b (burden a b) where
  le := hle
  footprint_le := footprint_le_burden
  native := burden_native o.flags
  scalar := burden_scalar hle
  string isText c := by
    rw [← footprint_ofString isText c]
    cases isText <;> exact burden_of_mantissaWidth rfl fun _ _ h ↦ by cases h
  array := burden_array hle
  map _ := burden_of_mantissaWidth rfl fun _ _ h ↦ by cases h
  tag _ _ := burden_of_mantissaWidth rfl fun _ _ h ↦ by cases h
  shareable _ _ := (burden_of_mantissaWidth rfl fun _ _ h ↦ by cases h).trans (Nat.mul_one a)
  interpret := burden_interpret hle
  copy h := burden_copy (hc h)

end Item
end Cbor
