import Cbor.Proofs.Decoder.Hereditary
import Cbor.Proofs.Flags
import Cbor.Proofs.Tag.Meaning

namespace Cbor

open Decoder (Options)
open Assembly

/-- Reading that interprets all tags, resolves references to strings and leaves shared items. -/
structure Resolving (o : Options) : Prop where
  twoWay : o.flags.TwoWay
  groups : o.groups = {}
  stringRef : o.stringRef = true
  sharedRef : o.sharedRef = .off

def Item.Raw (f : Flags) (i : Item) : Prop := (i.native f).Formed f Item.Dated

variable {f : Flags} {o : Options}

theorem raw_ofString (isText : Bool) (b : Octets) : (Item.ofString isText b).Raw f := by
  cases isText
  · rw [Item.Raw, Item.ofString, Item.native]
    split
    · rename_i hb
      exact Or.inl hb
    · rename_i hb
      exact Bool.eq_false_iff.2 hb
  · rw [Item.Raw, Item.ofString, Item.native]
    split
    · rename_i ht
      exact Or.inr ht
    · rename_i ht
      exact Bool.eq_false_iff.2 ht

theorem raw_scalar (a : Scalar) : a.item.Raw f := by
  cases a with
  | float16 | float32 =>
    rw [Item.Raw, Scalar.item, Item.native]
    split <;> trivial
  | _ => trivial

theorem string_of_mapKey (hf : f.contains .mapAsArray = false) {item key : Item}
    (h : item.mapKey f = .ok key) : ∃ b : Octets, key = .string b ∧ b.head? ≠ some 0 := by
  rw [Item.mapKey, hf, if_neg Bool.false_ne_true] at h
  obtain ⟨b, _, h⟩ := bind_eq_ok.1 h
  split at h
  · cases h
  · rename_i hb
    cases h
    exact ⟨b, rfl, hb⟩

theorem keyed_insertEntry (hf : f.contains .mapAsArray = false) {entries : Array (Item × Item)}
    (hk : Item.Keyed (entries.toList.map Prod.fst)) {b : Octets} (hb : b.head? ≠ some 0)
    (value : Item) :
    Item.Keyed ((insertEntry f entries (.string b) value).toList.map Prod.fst) := by
  rw [insertEntry, hf, if_neg Bool.false_ne_true]
  split
  · rw [Array.toList_modify]
    exact (Item.keys_modify _ _ _).symm ▸ hk
  · rename_i hnone
    rw [Array.toList_push, List.map_append]
    refine hk.push hb fun k hm ↦ ?_
    obtain ⟨e, hem, rfl⟩ := List.mem_map.1 hm
    exact Item.lastPlace?_eq_none_iff.1 hnone e hem

/-- With all groups on and references to strings resolved, a plain tag has no meaning. -/
theorem not_mem_of_openRole (ho : Resolving o) {inShareable : Bool} {number : UInt64}
    {content : Item} {s t : Scope} (h : openRole o inShareable number s = .ok (.plain, t))
    (hi : Tag.interpret o.groups number content = .ok none) : number ∉ Item.interpreted := by
  rw [ho.groups] at hi
  unfold openRole at h
  split at h
  · cases h
  split at h
  · cases h
  rename_i hns hsr
  exact Tag.not_mem_of_interpret hi (fun he ↦ hsr ⟨he, ho.stringRef⟩)
    (fun he ↦ hns ⟨he, ho.stringRef⟩)

/-- The form of items is one that reading passes on: strings are native just if the flags make them
so, and keys are strings, each only once. -/
theorem hereditary_formed (ho : Resolving o) :
    Hereditary o (Item.Raw o.flags) (·.Formed o.flags Item.Dated)
      (fun es ↦ Item.Keyed (es.map Prod.fst) ∧ ∀ e ∈ es, e.2.Formed o.flags Item.Dated)
      fun k ↦ ∃ b : Octets, k = .string b ∧ b.head? ≠ some 0 where
  scalar := raw_scalar
  bytes := raw_ofString false
  text _ := raw_ofString true _
  chunk _ _ := raw_ofString true _
  native hi := hi
  array := Item.formedAll_iff.2
  noEntries := ⟨.nil, nofun⟩
  entry hes hk hi := by
    obtain ⟨b, rfl, hb⟩ := hk
    have hm := ho.twoWay.lacks .mapAsArray
    exact ⟨keyed_insertEntry hm hes.1 hb _, forall_mem_insertEntry hm hes.2 hi fun _ _ ↦ hi⟩
  map hes := ⟨hes.1, Item.formedEntries_iff.2 hes.2⟩
  mapKey _ h := string_of_mapKey (ho.twoWay.lacks .mapAsArray) h
  interpreted hi := Tag.formed_of_interpret hi _
  tag hr hi hc := ⟨not_mem_of_openRole ho hr hi, hc⟩
  shareable _ hs := absurd ho.sharedRef hs

theorem formed_of_decode (ho : Resolving o) {data : Octets} {v : Item}
    (h : decode data o = .ok v) : v.Formed o.flags Item.Dated :=
  (hereditary_formed ho).of_decode (ho.twoWay.lacks .edn) h

end Cbor
