import Mathlib
import Cbor.Proofs.Encoder.Encode
import Cbor.Proofs.Encoder.Order
import Cbor.Proofs.Encoder.Overrides

namespace Cbor

namespace Item

mutual

/-- The items differ at most in the order of the entries of the maps in them. -/
inductive Reordered : Item → Item → Prop
  | refl (i : Item) : Reordered i i
  | array {is js : List Item} : ReorderedAll is js → Reordered (.array is) (.array js)
  | map {es fs gs : List (Item × Item)} : es.Perm fs → ReorderedEntries fs gs →
      Reordered (.map es) (.map gs)
  | tag {number : UInt64} {i j : Item} : Reordered i j → Reordered (.tag number i) (.tag number j)
  | shareable {cell : Nat} {i j : Item} : Reordered i j →
      Reordered (.shareable cell i) (.shareable cell j)
  | custom {hook hook' : Nat} {i j : Item} : Reordered i j →
      Reordered (.custom hook (.ok i)) (.custom hook' (.ok j))
  | params {p : Encoder.Overrides} {i j : Item} : Reordered i j →
      Reordered (.params p i) (.params p j)

inductive ReorderedAll : List Item → List Item → Prop
  | nil : ReorderedAll [] []
  | cons {i j : Item} {is js : List Item} : Reordered i j → ReorderedAll is js →
      ReorderedAll (i :: is) (j :: js)

inductive ReorderedEntries : List (Item × Item) → List (Item × Item) → Prop
  | nil : ReorderedEntries [] []
  | cons {k l i j : Item} {is js : List (Item × Item)} : Reordered k l → Reordered i j →
      ReorderedEntries is js → ReorderedEntries ((k, i) :: is) ((l, j) :: js)

end

open Encoder Emit

mutual

/-- No two keys of a map in the item have the same encoding, under the options that are in force
where the map is. -/
def DistinctKeys (o : Options) : Item → Prop
  | .array items => DistinctKeysAll o items
  | .map entries =>
    entries.Pairwise (fun e e' ↦ ∀ b, Emit.keyOctets (write o true e.1) 0 = .ok b →
      Emit.keyOctets (write o true e'.1) 0 ≠ .ok b) ∧ DistinctKeysEntries o entries
  | .tag _ content => DistinctKeys o content
  | .shareable _ content => DistinctKeys o content
  | .custom _ result => DistinctKeysResult o result
  | .params p content => ∀ inner, o.override p = .ok inner → DistinctKeys inner content
  | _ => True

def DistinctKeysAll (o : Options) : List Item → Prop
  | [] => True
  | i :: is => DistinctKeys o i ∧ DistinctKeysAll o is

def DistinctKeysEntries (o : Options) : List (Item × Item) → Prop
  | [] => True
  | (k, i) :: is => DistinctKeys o k ∧ DistinctKeys o i ∧ DistinctKeysEntries o is

def DistinctKeysResult (o : Options) : Except Fault Item → Prop
  | .error _ => True
  | .ok i => DistinctKeys o i

end

variable {o : Options}

theorem distinctKeysEntries_iff {es : List (Item × Item)} :
    DistinctKeysEntries o es ↔ ∀ e ∈ es, DistinctKeys o e.1 ∧ DistinctKeys o e.2 := by
  induction es with
  | nil => exact iff_of_true trivial nofun
  | cons e es ih => rw [DistinctKeysEntries, ih, List.forall_mem_cons, and_assoc]

theorem ReorderedAll.length {is js : List Item} : ReorderedAll is js → is.length = js.length
  | .nil => rfl
  | .cons _ h => congrArg (· + 1) h.length

theorem ReorderedEntries.length {is js : List (Item × Item)} :
    ReorderedEntries is js → is.length = js.length
  | .nil => rfl
  | .cons _ _ h => congrArg (· + 1) h.length

end Item

namespace Encoder

open Emit Item

variable {o : Options}

theorem keyOctets_write (o : Options) (k : Item) (depth : Nat) :
    keyOctets (write o.withoutReferences true k) depth =
      (fun r ↦ r.1.octets) <$> tree o.withoutReferences true k depth #[] :=
  Writes.keyOctets (writes_write k (.inl (Eq.refl StringRef.off)) o.withoutReferences true) depth

theorem keyOctets_shallower (o : Options) (k : Item) (depth : Nat) :
    Implies (keyOctets (write o.withoutReferences true k) depth)
      (keyOctets (write o.withoutReferences true k) 0) := by
  rw [keyOctets_write, keyOctets_write]
  exact .map _ (tree_shallower k o.withoutReferences true (Nat.zero_le depth) #[])

theorem pairwise_entryPlans {es : List (Item × Item)}
    (h : (Item.map es).DistinctKeys o.withoutReferences) :
    (entryPlans o es).Pairwise EntryPlan.Distinct := by
  rw [entryPlans_eq_map, List.pairwise_map]
  refine h.1.imp fun {e e'} hne depth b hb hb' ↦ ?_
  exact hne b (keyOctets_shallower o e.1 depth b hb) (keyOctets_shallower o e'.1 depth b hb')

theorem checkStringRef_reordered {i j : Item} (h : i.Reordered j) :
    checkStringRef i = checkStringRef j := by
  cases h <;> rfl

theorem Emit.Alike.tag {number : UInt64} {i j : Item} (h : i.Reordered j) {a a' : Emit Unit}
    (ha : Alike a a') : Alike (tag o number i a) (tag o number j a') :=
  Along.tag SameResult.congruence rfl rfl (checkStringRef_reordered h)
    (Alike.nested o (.inNamespace ha)) (Alike.tagged o number ha)

mutual

theorem alike_write : {v w : Item} → v.Reordered w → ∀ {o : Options},
    o.flags.contains .cde = true → v.DistinctKeys o.withoutReferences → ∀ asKey : Bool,
    Alike (write o asKey v) (write o asKey w)
  | _, _, .refl i, _, _, _, _ => .refl _
  | _, _, .array h, o, hc, hd, _ => by
    rw [write, write, ← h.length]
    exact .nested o (.seq (.refl _) (alike_writeAll h hc hd))
  | _, _, @Reordered.map es fs gs hp h, o, hc, hd, _ => by
    rw [write, write, ← h.length, ← hp.length_eq, if_pos hc, if_pos hc]
    have hd' : DistinctKeysEntries o.withoutReferences fs :=
      distinctKeysEntries_iff.2 fun e he ↦
        distinctKeysEntries_iff.1 hd.2 e (hp.mem_iff.2 he)
    have hplans : (entryPlans o es).Perm (entryPlans o fs) := by
      rw [entryPlans_eq_map, entryPlans_eq_map]
      exact hp.map _
    have hsorted := (alike_sortedEntries_of_perm hplans (pairwise_entryPlans hd)).trans
      (alike_sortedEntries (alike_entryPlans h hc hd'))
    exact .nested o (.seq (.refl _) hsorted)
  | _, _, .tag h, o, hc, hd, _ => by
    rw [write, write]
    exact .tag h (alike_write h hc hd false)
  | _, _, .shareable h, o, hc, _, asKey => by
    rw [write, write]
    cases asKey with
    | true => exact .refl _
    | false =>
      simp only [Emit.shareable, hc, if_true]
      exact .refl _
  | _, _, .custom h, o, hc, hd, asKey => by
    rw [write, write]
    cases asKey with
    | true => exact .refl _
    | false => exact .nested o (alike_write h hc hd false)
  | _, _, @Reordered.params p i j h, o, hc, hd, asKey => by
    intro s
    rw [write, write, after_liftExcept_bind, after_liftExcept_bind]
    cases hi : o.override p with
    | error e => exact .refl _
    | ok inner =>
      have hinner : o.withoutReferences.override p = .ok inner.withoutReferences := by
        rw [withoutReferences_override, hi, map_ok]
      have h := alike_write h (contains_cde_override hi hc) (hd _ hinner) asKey
      exact Alike.nested o h s

theorem alike_writeAll : {is js : List Item} → ReorderedAll is js → ∀ {o : Options},
    o.flags.contains .cde = true → DistinctKeysAll o.withoutReferences is →
    Alike (writeAll o is) (writeAll o js)
  | _, _, .nil, _, _, _ => .refl _
  | _, _, .cons h hs, _, hc, hd => by
    rw [writeAll, writeAll]
    exact .seq (alike_write h hc hd.1 false) (alike_writeAll hs hc hd.2)

theorem alike_entryPlans : {is js : List (Item × Item)} → ReorderedEntries is js →
    ∀ {o : Options}, o.flags.contains .cde = true →
    DistinctKeysEntries o.withoutReferences is →
    List.Forall₂ EntryPlan.Alike (entryPlans o is) (entryPlans o js)
  | _, _, .nil, _, _, _ => .nil
  | _, _, .cons hk h hs, o, hc, hd => by
    rw [entryPlans, entryPlans]
    have hkey := alike_write hk (o := o.withoutReferences) hc hd.1 true
    refine .cons ⟨hkey, ?_⟩ (alike_entryPlans hs hc hd.2.2)
    exact .seq (alike_write hk hc hd.1 true) (alike_write h hc hd.2.1 false)

end

end Encoder

open Encoder

/-- The order of map entries does not count, if all the keys of each map are different. -/
theorem encode_reordered {o : Options} (hc : o.flags.contains .cde = true) {v w : Item}
    (h : v.Reordered w) (hd : v.DistinctKeys o.withoutReferences) (b : Octets) :
    encode v o = .ok b ↔ encode w o = .ok b := by
  have hw := alike_write h hc hd false
  rw [encode_eq_after, encode_eq_after]
  refine SameResult.bind (.refl _) (fun _ ↦ SameResult.map _ ?_) b
  split
  · exact Emit.Alike.inNamespace hw _
  · exact hw _

/-- A map with a map in one of its keys, both in another order, and a string that is both a key and
an item: which of the two is written as a reference depends on the order of the keys. -/
theorem encode_reordered_nested :
    let o : Options := { flags := .standard ||| .cde, stringRef := .on }
    let abc : Item := .bytes [0x61, 0x62, 0x63]
    let v : Item := .map [(.array [.map [(.unsigned 2, .null), (.unsigned 1, .null)]], abc),
      (abc, .bool true)]
    let w : Item := .map [(abc, .bool true),
      (.array [.map [(.unsigned 1, .null), (.unsigned 2, .null)]], abc)]
    let b : Octets := [0xD9, 0x01, 0x00, 0xA2, 0x43, 0x61, 0x62, 0x63, 0xF5, 0x81, 0xA2, 0x01, 0xF6,
      0x02, 0xF6, 0xD8, 0x19, 0x00]
    encode v o = .ok b ∧ encode w o = .ok b := by
  intro o abc v w b
  have hv : encode v o = .ok b := by cbv
  have hr : v.Reordered w := by
    refine .map (.swap ..) (.cons (.refl _) (.refl _) (.cons (.array (.cons ?_ .nil)) (.refl _)
      .nil))
    exact .map (.swap ..) (.cons (.refl _) (.refl _) (.cons (.refl _) (.refl _) .nil))
  have hkeys {k l : Item} {c d : Octets}
      (hk : Emit.keyOctets (write o.withoutReferences true k) 0 = .ok c)
      (hl : Emit.keyOctets (write o.withoutReferences true l) 0 = .ok d) (hne : c ≠ d) :
      ∀ b, Emit.keyOctets (write o.withoutReferences true k) 0 = .ok b →
        Emit.keyOctets (write o.withoutReferences true l) 0 ≠ .ok b := fun b hb hb' ↦
    hne (Except.ok.inj ((hk.symm.trans hb).trans (hb'.symm.trans hl)))
  have hinner := hkeys (k := .unsigned 2) (l := .unsigned 1) (c := [0x02]) (d := [0x01]) (by cbv)
    (by cbv) (by decide)
  have houter := hkeys (k := .array [.map [(.unsigned 2, .null), (.unsigned 1, .null)]])
    (c := [0x81, 0xA2, 0x01, 0xF6, 0x02, 0xF6]) (l := abc) (d := [0x43, 0x61, 0x62, 0x63]) (by cbv)
    (by cbv) (by decide)
  have hd : v.DistinctKeys o.withoutReferences :=
    ⟨List.pairwise_pair.2 houter,
      ⟨⟨List.pairwise_pair.2 hinner, trivial, trivial, trivial, trivial, trivial⟩, trivial⟩,
      trivial, trivial, trivial, trivial⟩
  exact ⟨hv, (encode_reordered (by decide) hr hd b).1 hv⟩

end Cbor
