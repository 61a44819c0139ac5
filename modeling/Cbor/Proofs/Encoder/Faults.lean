import Cbor.Proofs.Encoder.Tree
import Cbor.Proofs.Item.Parts

namespace Cbor

namespace Item

/-- Each date has a year that a stamp can show. -/
def Dateable (v : Item) : Prop :=
  ∀ t, dateTime t ∈ v.parts → 0 ≤ t.date.year ∧ t.date.year ≤ 9999

/-- A shareable item is shared again at once. -/
def Reshared (v : Item) : Prop :=
  ∃ cell content, shareable cell content ∈ v.parts ∧ content.isShareable = true

theorem Dateable.of_parts_subset {v w : Item} (h : v.Dateable) (hp : w.parts ⊆ v.parts) :
    w.Dateable :=
  fun t ht ↦ h t (hp ht)

theorem Reshared.of_parts_subset {v w : Item} (hp : w.parts ⊆ v.parts) (h : w.Reshared) :
    v.Reshared := by
  obtain ⟨cell, content, hm, hs⟩ := h
  exact ⟨cell, content, hp hm, hs⟩

end Item

namespace Encoder

/-- If this fails, it is for want of depth, or for sharing what is shared if `P`. -/
def Stops (P : Prop) {α : Type} (x : Except Fault α) : Prop :=
  ∀ e, x = .error e → e = .depth ∨ e = .tagValue Tag.shareable ∧ P

namespace Stops

variable {P Q : Prop} {α β : Type} {x : Except Fault α}

theorem ok (a : α) : Stops P (Except.ok a) := nofun

theorem of_ok {a : α} (h : x = .ok a) : Stops P x := h ▸ ok a

theorem bind {f : α → Except Fault β} (h : Stops P x) (hf : ∀ a, Stops P (f a)) :
    Stops P (x >>= f) := by
  cases x with
  | error e =>
    intro e' he
    cases he
    exact h e rfl
  | ok a => exact hf a

theorem mono (h : Stops P x) (hpq : P → Q) : Stops Q x :=
  fun e he ↦ (h e he).imp_right (And.imp_right hpq)

end Stops

open Item (Dateable Reshared)

variable {P : Prop} {o : Options} {depth : Nat}

theorem stops_checkDepth : Stops P (checkDepth o depth) := by
  unfold checkDepth
  split
  · exact .ok _
  · intro e he
    cases he
    exact .inl rfl

theorem textTree_of_admits {b : Octets} (h : o.flags.Admits b) :
    textTree o b = .ok (.string true b) := by
  rw [textTree, if_neg]
  rcases h with h | h <;> simp [h]

theorem stops_nativeTree (hf : o.flags.Typed) {b : Octets}
    (h : o.flags.contains .text = true → o.flags.Admits b) : Stops P (nativeTree o b) := by
  unfold nativeTree
  split
  case isTrue ht => exact .of_ok (textTree_of_admits (h ht))
  case isFalse ht =>
    have hb : o.flags.contains .byte = true := by rw [hf.string, Bool.eq_false_iff.2 ht]; rfl
    rw [if_pos hb]
    exact .ok _

theorem stops_keyTree (hf : o.flags.Typed) {b : Octets}
    (h : o.flags.contains .keyText = true → o.flags.Admits b) : Stops P (keyTree o b) := by
  unfold keyTree
  split
  · exact .ok _
  split
  case isTrue ht => exact .of_ok (textTree_of_admits (h ht))
  case isFalse ht =>
    have hb : o.flags.contains .keyByte = true := by rw [hf.key, Bool.eq_false_iff.2 ht]; rfl
    rw [if_pos hb]
    exact .ok _

theorem stops_stampTree {t : Moment} (hy : 0 ≤ t.date.year ∧ t.date.year ≤ 9999)
    (ho : t.offset % 60 = 0) : Stops P (stampTree o t depth) := by
  obtain ⟨s, hs⟩ : ∃ s, Rfc3339.format? t = some s := ⟨_, if_pos ⟨hy.1, hy.2, ho⟩⟩
  rw [stampTree, hs]
  exact .bind stops_checkDepth fun _ ↦ .ok _

theorem stops_bignumTree (b : Bignum) : Stops P (bignumTree o b depth) := by
  unfold bignumTree
  split
  · exact .ok _
  · exact .bind stops_checkDepth fun _ ↦ .ok _

theorem stops_fractionTree (number : UInt64) (q : Fraction) :
    Stops P (fractionTree o number q depth) :=
  .bind stops_checkDepth fun _ ↦ .bind stops_checkDepth fun _ ↦
    .bind (stops_bignumTree q.mantissa) fun _ ↦ .ok _

theorem stops_decimalTree (q : Fraction) : Stops P (decimalTree o q depth) := by
  unfold decimalTree
  split
  · exact stops_bignumTree q.mantissa
  · exact stops_fractionTree Tag.decimal q

theorem stops_group {enabled : Bool} (h : enabled = true) {α : Type}
    {f : Unit → Except Fault α} (hf : Stops P (f ())) : Stops P (checkGroup enabled >>= f) := by
  rw [checkGroup, if_pos h]
  exact hf

mutual

theorem stops_tree (hf : o.flags.Typed) (hc : o.flags.contains .cde = false) : (v : Item) →
    v.Writable o.flags o.groups → v.Dateable → ∀ (depth : Nat) (cells : CellTable),
    Stops v.Reshared (tree o false v depth cells)
  | .unsigned _, _, _, _, _ | .negative _, _, _, _, _ | .bytes _, _, _, _, _ | .bool _, _, _, _, _
  | .null, _, _, _, _ | .undefined, _, _, _, _ | .float16 _, _, _, _, _ | .float32 _, _, _, _, _
  | .float64 _, _, _, _, _ => by
    rw [tree]
    exact .ok _
  | .text b, hv, _, _, _ => by
    rw [tree, textTree_of_admits (hv _ (Item.self_mem_parts _))]
    exact .ok _
  | .string b, hv, _, _, _ => by
    rw [tree]
    exact .bind (stops_nativeTree hf (hv _ (Item.self_mem_parts _))) fun _ ↦ .ok _
  | .array items, hv, hd, depth, cells => by
    have hitems : ∀ i ∈ items, i.Writable o.flags o.groups ∧ i.Dateable ∧
        (i.Reshared → Reshared (.array items)) := fun i hi ↦
      have hp := Item.parts_subset_array hi
      ⟨Item.writable_array.1 hv i hi, hd.of_parts_subset hp, .of_parts_subset hp⟩
    rw [tree]
    exact .bind stops_checkDepth fun _ ↦
      .bind (stops_treeAll hf hc items hitems (depth + 1) cells) fun _ ↦ .ok _
  | .map entries, hv, hd, depth, cells => by
    have hentries : ∀ e ∈ entries, e.1.IsName o.flags ∧ e.2.Writable o.flags o.groups ∧
        e.2.Dateable ∧ (e.2.Reshared → Reshared (.map entries)) := fun e he ↦
      have hp := Item.parts_subset_map he
      have hwritable := Item.writable_map.1 hv e he
      ⟨hwritable.1, hwritable.2, hd.of_parts_subset hp, .of_parts_subset hp⟩
    rw [tree, hc, if_neg Bool.false_ne_true]
    exact .bind stops_checkDepth fun _ ↦
      .bind (stops_treeEntries hf hc entries hentries (depth + 1) cells) fun _ ↦ .ok _
  | .tag number content, hv, hd, depth, cells => by
    have hp := Item.parts_subset_tag number content
    have hcontent := stops_tree hf hc content (Item.writable_tag.1 hv) (hd.of_parts_subset hp)
      (depth + 1)
    rw [tree]
    exact .bind stops_checkDepth fun _ ↦
      .bind ((hcontent _).mono (.of_parts_subset hp)) fun _ ↦ .ok _
  | .dateTime t, hv, hd, _, _ => by
    obtain ⟨hg, ho⟩ := hv _ (Item.self_mem_parts _)
    rw [tree]
    exact stops_group hg (.bind (stops_stampTree (hd t (Item.self_mem_parts _)) ho) fun _ ↦ .ok _)
  | .bignum b, hv, _, _, _ => by
    rw [tree]
    exact stops_group (hv _ (Item.self_mem_parts _)) (.bind (stops_bignumTree b) fun _ ↦ .ok _)
  | .decimal q, hv, _, _, _ => by
    rw [tree]
    exact stops_group (hv _ (Item.self_mem_parts _)) (.bind (stops_decimalTree q) fun _ ↦ .ok _)
  | .bigFloat q, hv, _, _, _ => by
    rw [tree]
    exact stops_group (hv _ (Item.self_mem_parts _)) (.bind (stops_fractionTree _ q) fun _ ↦ .ok _)
  | .uri u, hv, _, _, _ => by
    rw [tree]
    exact stops_group (hv _ (Item.self_mem_parts _)) (.bind stops_checkDepth fun _ ↦ .ok _)
  | .shareable cell content, hv, hd, depth, cells => by
    have hp := Item.parts_subset_shareable cell content
    have hcontent := stops_tree hf hc content (Item.writable_shareable.1 hv)
      (hd.of_parts_subset hp) (depth + 1)
    rw [tree, if_neg Bool.false_ne_true, hc, if_neg Bool.false_ne_true]
    by_cases hs : content.isShareable = true
    · rw [if_pos hs]
      intro e he
      cases he
      exact .inr ⟨rfl, cell, content, Item.self_mem_parts _, hs⟩
    · rw [if_neg hs]
      refine .bind stops_checkDepth fun _ ↦ ?_
      rcases lookupCell o cell cells with ⟨_ | index, cells⟩
      · exact .bind ((hcontent cells).mono (.of_parts_subset hp)) fun _ ↦ .ok _
      · exact .ok _
  | .custom .., hv, _, _, _ => (hv _ (Item.self_mem_parts _)).elim
  | .params .., hv, _, _, _ => (hv _ (Item.self_mem_parts _)).elim

theorem stops_treeAll (hf : o.flags.Typed) (hc : o.flags.contains .cde = false) :
    (is : List Item) → ∀ {P : Prop},
    (∀ i ∈ is, i.Writable o.flags o.groups ∧ i.Dateable ∧ (i.Reshared → P)) →
    ∀ (depth : Nat) (cells : CellTable), Stops P (treeAll o is depth cells)
  | [], _, _, _, _ => .ok _
  | i :: is, _, h, depth, cells => by
    obtain ⟨⟨hi, hd, hp⟩, his⟩ := List.forall_mem_cons.1 h
    rw [treeAll]
    exact .bind ((stops_tree hf hc i hi hd depth cells).mono hp) fun r ↦
      .bind (stops_treeAll hf hc is his depth r.2) fun _ ↦ .ok _

theorem stops_treeEntries (hf : o.flags.Typed) (hc : o.flags.contains .cde = false) :
    (es : List (Item × Item)) → ∀ {P : Prop},
    (∀ e ∈ es, e.1.IsName o.flags ∧ e.2.Writable o.flags o.groups ∧ e.2.Dateable ∧
      (e.2.Reshared → P)) →
    ∀ (depth : Nat) (cells : CellTable), Stops P (treeEntries o es depth cells)
  | [], _, _, _, _ => .ok _
  | (k, i) :: es, _, h, depth, cells => by
    obtain ⟨⟨⟨b, hk, hb⟩, hi, hd, hp⟩, hes⟩ := List.forall_mem_cons.1 h
    cases hk
    rw [treeEntries, tree, if_pos rfl]
    refine .bind (.bind (stops_keyTree hf hb) fun _ ↦ .ok _) fun r ↦ ?_
    exact .bind ((stops_tree hf hc i hi hd depth r.2).mono hp) fun r ↦
      .bind (stops_treeEntries hf hc es hes depth r.2) fun _ ↦ .ok _

end

end Encoder
end Cbor
