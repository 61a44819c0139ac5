import Mathlib
import Cbor.Proofs.Atom
import Cbor.Proofs.Encoder.Encode
import Cbor.Proofs.Wire.Decode

namespace Cbor

open Encoder (tree treeAll treeEntries)
open Assembly
open Wire (Reads ReadsAll ReadsEntries)

/-- Options of writing without references and options of reading that understand each other. -/
structure Paired (o : Encoder.Options) (p : Decoder.Options) : Prop where
  flags : p.flags = o.flags
  twoWay : o.flags.TwoWay
  maxDepth : p.maxDepth = o.maxDepth
  groups : o.groups = {}
  groups' : p.groups = {}
  stringRef : o.stringRef = .off
  sharedRef : o.sharedRef = false
  sharedRef' : p.sharedRef = .off
  maxSize : p.maxSize < UInt64.size

theorem paired_default : Paired {} {} :=
  ⟨rfl, Flags.twoWay_standard, rfl, rfl, rfl, rfl, rfl, rfl, by decide⟩

theorem Paired.matched {o : Encoder.Options} {p : Decoder.Options} (hp : Paired o p) :
    Matched o p :=
  { hp with }

open Encoder

variable {o : Encoder.Options} {p : Decoder.Options} {leaf : Item → Prop}

mutual

theorem reads_tree (hp : Paired o p) (hl : ∀ t, leaf (.dateTime t) → t.Stamped) : (v : Item) →
    v.Formed o.flags leaf → ∀ {depth : Nat} {cells : CellTable} {r : Wire × CellTable},
    tree o false v depth cells = .ok r →
    ∃ raw, Reads p depth r.1 raw ∧ raw.native p.flags = v.normal
  | .array items, hv, _, _, _, h => by
    simp only [tree, bind_eq_ok, checkDepth_eq_ok] at h
    obtain ⟨_, hd, ws, hws, h⟩ := h
    cases h
    exact ⟨_, Wire.reads_array (hp.maxDepth.symm ▸ hd) (reads_treeAll hp hl items hv hws), rfl⟩
  | .map entries, hv, _, _, _, h => by
    simp only [tree, bind_eq_ok, checkDepth_eq_ok, hp.twoWay.lacks .cde, Bool.false_eq_true,
      if_false] at h
    obtain ⟨_, hd, es, hes, h⟩ := h
    cases h
    refine ⟨_, Wire.reads_map (hp.maxDepth.symm ▸ hd) ?_
      (reads_treeEntries hp hl entries hv.1.string_of_mem hv.2 hes), rfl⟩
    rw [Item.normalEntries_keys]
    exact hv.1
  | .tag number content, hv, _, _, _, h => by
    simp only [tree, bind_eq_ok, checkDepth_eq_ok] at h
    obtain ⟨_, hd, w, hw, h⟩ := h
    cases h
    obtain ⟨raw, hr, hn⟩ := reads_tree hp hl content hv.2 hw
    have hns : number ≠ Tag.stringRefNamespace := fun h ↦ hv.1 (h ▸ by decide)
    have hsr : number ≠ Tag.stringRef := fun h ↦ hv.1 (h ▸ by decide)
    refine ⟨.tag number content.normal, ?_, rfl⟩
    refine Wire.reads_tag (openRole_plain hns hsr hp.sharedRef') (hp.maxDepth.symm ▸ hd) hr ?_
    rw [Assembly.tagged, Tag.interpret_eq_none hv.1, hn]
    rfl
  | .unsigned _, hv, _, _, _, h | .negative _, hv, _, _, _, h | .bytes _, hv, _, _, _, h
  | .text _, hv, _, _, _, h | .string _, hv, _, _, _, h | .bool _, hv, _, _, _, h
  | .null, hv, _, _, _, h | .undefined, hv, _, _, _, h | .float16 _, hv, _, _, _, h
  | .float32 _, hv, _, _, _, h | .float64 _, hv, _, _, _, h | .dateTime _, hv, _, _, _, h
  | .bignum _, hv, _, _, _, h | .decimal _, hv, _, _, _, h | .bigFloat _, hv, _, _, _, h
  | .uri _, hv, _, _, _, h => reads_atom hp.matched hl (by exact trivial) hv h

theorem reads_treeAll (hp : Paired o p) (hl : ∀ t, leaf (.dateTime t) → t.Stamped) :
    (is : List Item) → Item.FormedAll o.flags leaf is → ∀ {depth : Nat} {cells : CellTable}
    {r : List Wire × CellTable}, treeAll o is depth cells = .ok r →
    ReadsAll p depth r.1 (Item.normalAll is)
  | [], _, _, _, _, h => by
    cases h
    exact Wire.readsAll_nil
  | i :: is, hv, _, _, _, h => by
    simp only [treeAll, bind_eq_ok] at h
    obtain ⟨w, hw, ws, hws, h⟩ := h
    cases h
    obtain ⟨raw, hr, hn⟩ := reads_tree hp hl i hv.1 hw
    exact Wire.readsAll_cons hr hn (reads_treeAll hp hl is hv.2 hws)

theorem reads_treeEntries (hp : Paired o p) (hl : ∀ t, leaf (.dateTime t) → t.Stamped) :
    (is : List (Item × Item)) →
    (∀ k ∈ is.map Prod.fst, ∃ b : Octets, k = .string b ∧ b.head? ≠ some 0) →
    Item.FormedEntries o.flags leaf is → ∀ {depth : Nat} {cells : CellTable}
    {r : List (Wire × Wire) × CellTable}, treeEntries o is depth cells = .ok r →
    ReadsEntries p depth r.1 (Item.normalEntries is)
  | [], _, _, _, _, _, h => by
    cases h
    exact Wire.readsEntries_nil
  | (k, i) :: is, hk, hv, _, _, _, h => by
    simp only [treeEntries, bind_eq_ok] at h
    obtain ⟨key, hkey, w, hw, es, hes, h⟩ := h
    cases h
    obtain ⟨b, rfl, hb⟩ := hk k List.mem_cons_self
    simp only [tree, if_true, bind_eq_ok] at hkey
    obtain ⟨key, hkey, h⟩ := hkey
    cases h
    obtain ⟨rawKey, hrk, hm⟩ := reads_keyTree hp.matched hb hkey
    obtain ⟨raw, hr, hn⟩ := reads_tree hp hl i hv.1 hw
    refine Wire.readsEntries_cons ?_ ?_ hrk hm hr hn
      (reads_treeEntries hp hl is (fun k hk' ↦ hk k (List.mem_cons_of_mem _ hk')) hv.2 hes)
    · rw [hp.flags, hp.twoWay.lacks .mapAsArray]
    · rw [hp.flags, hp.twoWay.lacks .mapNoDupKey]

end

namespace Paired

variable (hp : Paired o p)

include hp

theorem encode_eq_tree (v : Item) :
    encode v o = o.check >>= fun _ ↦ (fun r ↦ r.1.octets) <$> tree o false v 0 #[] := by
  have ha (w : Wire) : w.announced o = w := by
    rw [Wire.announced, hp.twoWay.lacks .selfDescribe]
    rfl
  rw [encode_eq_of_off hp.stringRef]
  simp only [ha]

theorem tree_of_encode {v : Item} {b : Octets} (h : encode v o = .ok b) :
    o.check = .ok () ∧ ∃ r, tree o false v 0 #[] = .ok r ∧ r.1.octets = b := by
  rw [hp.encode_eq_tree v] at h
  obtain ⟨_, hc, h⟩ := bind_eq_ok.1 h
  exact ⟨hc, map_eq_ok.1 h⟩

/-- The octets of a tree are read as the tree behind its self-describe tag is. -/
theorem decode_tree {w : Wire} (hd : o.check = .ok ())
    (hs : w.octets.length ≤ p.maxSize) {raw : Item} (hr : Reads p 0 (w.unprefixed p) raw)
    {data : Octets} (hi : data.window p.offset p.length = w.octets) :
    decode data p = .ok (raw.native p.flags) := by
  have he := hp.twoWay.lacks .edn
  rw [← hp.flags] at he
  have h0 := w.length_octets_pos
  rw [Wire.decode_octets hi hs hp.maxSize he, hp.matched.check hd (by omega),
    hr false {} (Nat.zero_le _) rfl]
  rfl

end Paired

theorem decode_encode_normal (hp : Paired o p) (hl : ∀ t, leaf (.dateTime t) → t.Stamped) {v : Item}
    (hv : v.Formed o.flags leaf) (hroot : ∀ content, v ≠ .tag Tag.selfDescribe content)
    {b : Octets} (he : encode v o = .ok b) (hs : b.length ≤ p.maxSize) {data : Octets}
    (hi : data.window p.offset p.length = b) : decode data p = .ok v.normal := by
  obtain ⟨hd, r, hr, rfl⟩ := hp.tree_of_encode he
  obtain ⟨raw, hraw, hn⟩ := reads_tree hp hl v hv hr
  have hm := hraw false {} (Nat.zero_le _) rfl
  have hu : r.1.unprefixed p = r.1 := Wire.unprefixed_of_meaning hm fun content h ↦ by
    rw [h] at hn
    obtain ⟨content, hv⟩ := Item.exists_of_normal_eq_tag hn.symm
    exact hroot content hv
  rw [hp.decode_tree hd hs (hu.symm ▸ hraw) hi, hn]

/-- Reading undoes writing. -/
theorem decode_encode (hp : Paired o p) {v : Item} (hv : v.Formed o.flags Item.Lasting)
    (hroot : ∀ content, v ≠ .tag Tag.selfDescribe content) {b : Octets} (he : encode v o = .ok b)
    (hs : b.length ≤ p.maxSize) {data : Octets} (hi : data.window p.offset p.length = b) :
    decode data p = .ok v := by
  have hd := decode_encode_normal hp (fun _ h ↦ h.elim) hv hroot he hs hi
  rwa [Item.normal_of_lasting v hv] at hd

/-- A map from `a` to the array of a native string, an integer beyond 64 bits and 0.5. -/
theorem decode_encode_nested :
    let wide : Bignum := { magnitude := [1, 0, 0, 0, 0, 0, 0, 0, 0] }
    let half : Fraction := { exponent := -1, mantissa := { magnitude := [5] } }
    let v : Item := .map [(.string [0x61], .array [.string [0x62], .bignum wide, .decimal half])]
    let b : Octets := [0xA1, 0x41, 0x61, 0x83, 0x41, 0x62, 0xC2, 0x49, 1, 0, 0, 0, 0, 0, 0, 0, 0,
      0xC4, 0x82, 0x20, 0x05]
    encode v {} = .ok b ∧ decode b {} = .ok v := by
  intro wide half v b
  have he : encode v {} = .ok b := by decide +kernel
  have hv : v.Formed Flags.standard Item.Lasting := by
    refine ⟨⟨[[0x61]], rfl, by decide, by decide⟩, ⟨.inl (by decide), ?_, ?_, trivial⟩, trivial⟩
    · show 8 < wide.magnitude.length
      decide
    · show ¬ (half.exponent = 0 ∧ half.mantissa.magnitude.length ≤ 8)
      decide
  exact ⟨he, decode_encode paired_default hv (by simp [v]) he (by decide) rfl⟩

end Cbor
