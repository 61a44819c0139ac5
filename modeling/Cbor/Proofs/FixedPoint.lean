import Mathlib
import Cbor.Proofs.Calendar.Rfc3339
import Cbor.Proofs.Decoder.Formed
import Cbor.Proofs.Encoder.Depth
import Cbor.Proofs.RoundTrip

namespace Cbor

namespace Encoder

variable {o : Options}

theorem tree_ofBignum (hg : o.groups = {}) (b : Bignum) (depth : Nat) (cells : CellTable) :
    tree o false (.ofBignum b) depth cells = (·, cells) <$> bignumTree o b depth := by
  unfold Item.ofBignum Item.ofBignum?
  cases hw : b.word? with
  | none =>
    rw [Option.map_none, Option.getD_none, tree, hg, checkGroup, if_pos rfl, ok_bind]
    cases bignumTree o b depth <;> rfl
  | some n =>
    rw [bignumTree, hw, Option.map_some, Option.getD_some]
    cases b.negative <;> rfl

mutual

/-- The normal form of an item is written as the item is. -/
theorem tree_normal (hg : o.groups = {}) (hc : o.flags.contains .cde = false) : (v : Item) →
    ∀ (depth : Nat) (cells : CellTable), tree o false v.normal depth cells = tree o false v depth cells
  | .array items, depth, cells => by
    simp only [Item.normal, tree, treeAll_normal hg hc items]
  | .map entries, depth, cells => by
    simp only [Item.normal, tree, hc, Bool.false_eq_true, if_false, treeEntries_normal hg hc entries]
  | .tag number content, depth, cells => by
    simp only [Item.normal, tree, tree_normal hg hc content]
  | .bignum b, depth, cells => by
    rw [Item.normal, tree_ofBignum hg, tree, hg, checkGroup, if_pos rfl, ok_bind]
    cases bignumTree o b depth <;> rfl
  | .decimal q, depth, cells => by
    rw [Item.normal]
    split
    · rename_i hq
      rw [tree_ofBignum hg, tree, hg, checkGroup, if_pos rfl, ok_bind, decimalTree, if_pos hq]
      cases bignumTree o q.mantissa depth <;> rfl
    · rfl
  | .unsigned _, _, _ | .negative _, _, _ | .bytes _, _, _ | .text _, _, _ | .string _, _, _
  | .bool _, _, _ | .null, _, _ | .undefined, _, _ | .float16 _, _, _ | .float32 _, _, _
  | .float64 _, _, _ | .dateTime _, _, _ | .bigFloat _, _, _ | .uri _, _, _
  | .shareable .., _, _ | .custom .., _, _ | .params .., _, _ => rfl

theorem treeAll_normal (hg : o.groups = {}) (hc : o.flags.contains .cde = false) :
    (is : List Item) → ∀ (depth : Nat) (cells : CellTable),
    treeAll o (Item.normalAll is) depth cells = treeAll o is depth cells
  | [], _, _ => rfl
  | i :: is, depth, cells => by
    simp only [Item.normalAll, treeAll, tree_normal hg hc i, treeAll_normal hg hc is]

theorem treeEntries_normal (hg : o.groups = {}) (hc : o.flags.contains .cde = false) :
    (is : List (Item × Item)) → ∀ (depth : Nat) (cells : CellTable),
    treeEntries o (Item.normalEntries is) depth cells = treeEntries o is depth cells
  | [], _, _ => rfl
  | (k, i) :: is, depth, cells => by
    simp only [Item.normalEntries, treeEntries, tree_normal hg hc i, treeEntries_normal hg hc is]

end

end Encoder

open Encoder

namespace Paired

variable {o : Encoder.Options} {p : Decoder.Options} (hp : Paired o p)

include hp

theorem encode_normal (v : Item) : encode v.normal o = encode v o := by
  rw [hp.encode_eq_tree, hp.encode_eq_tree,
    tree_normal hp.groups (hp.twoWay.lacks .cde) v 0 #[]]

/-- The self-describe tag in front of an item is not read, and what is written without it is
shorter. -/
theorem decode_encode_selfDescribe {leaf : Item → Prop}
    (hl : ∀ t, leaf (.dateTime t) → t.Stamped) {content : Item}
    (hv : (Item.tag Tag.selfDescribe content).Formed o.flags leaf) {b : Octets}
    (he : encode (.tag Tag.selfDescribe content) o = .ok b) (hs : b.length ≤ p.maxSize)
    {data : Octets} (hi : data.window p.offset p.length = b) :
    decode data p = .ok content.normal ∧
      ∃ c, encode content o = .ok c ∧ b = Tag.selfDescribeHead ++ c := by
  obtain ⟨hd, r, hr, rfl⟩ := hp.tree_of_encode he
  have hcells : ¬ (Tag.selfDescribe = Tag.shareable ∧ o.sharedRef = true) := fun h ↦
    absurd h.1 (by decide)
  rw [tree, if_neg hcells] at hr
  obtain ⟨_, _, hr⟩ := bind_eq_ok.1 hr
  obtain ⟨⟨w, cells⟩, hw, hr⟩ := bind_eq_ok.1 hr
  cases hr
  obtain ⟨raw, hraw, hn⟩ := reads_tree hp hl content hv.2 hw
  have hu : (Wire.tag Tag.selfDescribe w).unprefixed p = w :=
    if_pos ⟨rfl, by rw [hp.flags, hp.twoWay.lacks .selfDescribe]⟩
  have hhead : Head.write 6 Tag.selfDescribe = Tag.selfDescribeHead := by decide
  refine ⟨?_, w.octets, ?_, ?_⟩
  · rw [hp.decode_tree hd hs (hu.symm ▸ hraw.mono (Nat.zero_le 1)) hi, hn]
  · rw [hp.encode_eq_tree, hd, ok_bind, tree_shallower content o false (Nat.zero_le 1) #[] _ hw,
      map_ok]
  · rw [Wire.octets, Wire.lexemes, Wire.spell_cons, Lexeme.write, hhead, Wire.octets]

end Paired

theorem stamped_of_dated (t : Moment) (h : Item.Dated (.dateTime t)) : t.Stamped :=
  fun _ hs ↦ Rfc3339.parse?_of_format? hs h

theorem resolving_default : Resolving {} := ⟨Flags.twoWay_standard, rfl, rfl, rfl⟩

/-- An item that has been read and written is read and written again, and the octets are the same
just if it has no self-describe tag in front. -/
theorem reencode_eq_iff {data : Octets} {v : Item} (hv : decode data {} = .ok v) {e : Octets}
    (he : encode v {} = .ok e) (hs : e.length ≤ ({} : Decoder.Options).maxSize) :
    ∃ v' e', decode e {} = .ok v' ∧ encode v' {} = .ok e' ∧
      (e' = e ↔ ∀ content, v ≠ .tag Tag.selfDescribe content) := by
  have hf := formed_of_decode resolving_default hv
  by_cases hroot : ∃ content, v = .tag Tag.selfDescribe content
  · obtain ⟨content, rfl⟩ := hroot
    obtain ⟨hd, c, hc, rfl⟩ :=
      paired_default.decode_encode_selfDescribe stamped_of_dated hf he hs rfl
    refine ⟨_, c, hd, (paired_default.encode_normal content).trans hc, ?_⟩
    -- the first writing has the head of the tag in front of the second
    refine iff_of_false (fun h ↦ ?_) fun h ↦ h content rfl
    have hl := congrArg List.length h
    simp only [Tag.selfDescribeHead, List.length_append, List.length_cons] at hl
    omega
  · have hroot : ∀ content, v ≠ .tag Tag.selfDescribe content := fun content h ↦
      hroot ⟨content, h⟩
    have hd := decode_encode_normal paired_default stamped_of_dated hf hroot he hs rfl
    exact ⟨_, e, hd, (paired_default.encode_normal v).trans he, iff_of_true rfl hroot⟩

/-- The bignum 5 comes back as the plain integer. -/
theorem reencode_eq_iff_bignum :
    let v : Item := .bignum { magnitude := [5] }
    decode [0xC2, 0x41, 0x05] {} = .ok v ∧ encode v {} = .ok [0x05] ∧
      ∃ v' e', decode [0x05] {} = .ok v' ∧ encode v' {} = .ok e' ∧
        (e' = [0x05] ↔ ∀ content, v ≠ .tag Tag.selfDescribe content) := by
  intro v
  have hv : decode [0xC2, 0x41, 0x05] {} = .ok v :=
    Wire.decode_octets (w := .tag Tag.positiveBignum (.string false [0x05])) rfl (by decide)
      (by decide) (by decide)
  have he : encode v {} = .ok [0x05] := by cbv
  exact ⟨hv, he, reencode_eq_iff hv he (by decide)⟩

/-- Of two self-describe tags in front of 1 the first is not read, and the second is not read when
the item comes back. -/
theorem reencode_selfDescribe_twice :
    ¬ ∀ data v e, decode data {} = .ok v → encode v {} = .ok e →
      e.length ≤ ({} : Decoder.Options).maxSize →
      ∃ v', decode e {} = .ok v' ∧ encode v' {} = .ok e := by
  intro h
  let inner : Wire := .tag Tag.selfDescribe (.scalar (.unsigned 1))
  have hd : decode (Wire.tag Tag.selfDescribe inner).octets {} =
      .ok (.tag Tag.selfDescribe (.unsigned 1)) :=
    Wire.decode_octets (w := .tag Tag.selfDescribe inner) rfl (by decide) (by decide) (by decide)
  have he : encode (.tag Tag.selfDescribe (.unsigned 1)) {} = .ok inner.octets := by cbv
  have hd' : decode inner.octets {} = .ok (.unsigned 1) :=
    Wire.decode_octets (w := inner) rfl (by decide) (by decide) (by decide)
  have he' : encode (.unsigned 1) {} = .ok [0x01] := by cbv
  obtain ⟨v', hv', h⟩ := h _ _ _ hd he (by decide)
  rw [hd'] at hv'
  cases hv'
  rw [he'] at h
  exact absurd (Except.ok.inj h) (by decide)

end Cbor
