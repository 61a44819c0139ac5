import Mathlib
import Cbor.Proofs.Decoder.Trees
import Cbor.Proofs.Item.Weight
import Cbor.Proofs.Wire.Recursion

namespace Cbor

open Decoder (Options)
open Assembly

section

variable (o : Options) (a b : Nat) (m : Item → Nat)

/-- Copies of the strings and shared items at hand weigh no more than what is paid for them. -/
structure Scope.Covered (s : Scope) : Prop where
  strings : ∀ inner ∈ s.strings, ∀ i ∈ inner, m i ≤ a * i.footprint
  shared : ∀ i cost, some (i, cost) ∈ s.shared → m i ≤ a * cost + 3 * b
  expanded : s.expanded ≤ o.maxSize

/-- What was weighed between `s` and `s'` is paid for, with `paid` and with the copies made. -/
structure Pays (s s' : Scope) (paid weight : Nat) : Prop where
  covered : s'.Covered o a b m
  grows : s.expanded ≤ s'.expanded
  weight_le : weight + a * s.expanded ≤ paid + a * s'.expanded

def TagRole.Given (number : UInt64) : TagRole → Prop
  | .shareable _ => o.sharedRef ≠ .off
  | .sharedRef => number = Tag.sharedRef
  | _ => True

end

variable {o : Options} {a b : Nat} {m : Item → Nat}

namespace Pays

variable {s s' s'' : Scope} {paid paid' weight weight' : Nat}

theorem of_covered (h : s.Covered o a b m) (hw : weight ≤ paid) : Pays o a b m s s paid weight :=
  ⟨h, Nat.le_refl _, Nat.add_le_add_right hw _⟩

theorem trans (h : Pays o a b m s s' paid weight) (h' : Pays o a b m s' s'' paid' weight') :
    Pays o a b m s s'' (paid + paid') (weight + weight') := by
  have := h.weight_le
  have := h'.weight_le
  exact ⟨h'.covered, Nat.le_trans h.grows h'.grows, by omega⟩

theorem of_eq (h : Pays o a b m s' s'' paid weight) (he : s'.expanded = s.expanded) :
    Pays o a b m s s'' paid weight := by
  obtain ⟨hc, hg, hw⟩ := h
  rw [he] at hg hw
  exact ⟨hc, hg, hw⟩

theorem mono (h : Pays o a b m s s' paid weight) (hw : weight' + paid ≤ paid' + weight) :
    Pays o a b m s s' paid' weight' := by
  have := h.weight_le
  exact ⟨h.covered, h.grows, by omega⟩

end Pays

namespace Scope.Covered

variable {s t : Scope} (hs : s.Covered o a b m)

include hs

theorem enter (h : s.enter o.maxDepth = .ok t) : t.Covered o a b m ∧ t.expanded = s.expanded := by
  rw [Wire.enter_eq_ok h]
  exact ⟨⟨hs.strings, hs.shared, hs.expanded⟩, rfl⟩

theorem leave : s.leave.Covered o a b m := ⟨hs.strings, hs.shared, hs.expanded⟩

theorem record {item : Item} (hi : m item ≤ a * item.footprint) (length : Nat) :
    (s.record item length).Covered o a b m :=
  ⟨StringNamespace.mem_record hs.strings hi length, hs.shared, hs.expanded⟩

theorem openRole {shared : Bool} {number : UInt64} {role : TagRole}
    (h : openRole o shared number s = .ok (role, t)) :
    t.Covered o a b m ∧ t.expanded = s.expanded ∧ role.Given o number := by
  unfold Assembly.openRole at h
  split at h
  · cases h
    exact ⟨⟨List.forall_mem_cons.2 ⟨nofun, hs.strings⟩, hs.shared, hs.expanded⟩, rfl, trivial⟩
  split at h
  · cases h
    exact ⟨hs, rfl, trivial⟩
  split at h
  · rename_i hn
    split at h <;> cases h
    refine ⟨⟨hs.strings, fun i cost hi ↦ ?_, hs.expanded⟩, rfl, hn.2⟩
    exact hs.shared i cost ((Array.mem_push.1 hi).resolve_right nofun)
  split at h
  · rename_i hn
    cases h
    exact ⟨hs, rfl, hn.1⟩
  · cases h
    exact ⟨hs, rfl, trivial⟩

theorem charge {n weight : Nat} (h : s.charge o.maxSize n = .ok t) {paid : Nat}
    (hw : weight ≤ a * n + paid) : Pays o a b m s t paid weight := by
  obtain ⟨_, hn, h⟩ := bind_eq_ok.1 h
  cases h
  unfold Lexeme.checkSize at hn
  split at hn
  · refine ⟨⟨hs.strings, hs.shared, ‹_›⟩, Nat.le_add_right _ _, ?_⟩
    simp only [Nat.mul_add]
    omega
  · cases hn

theorem fill {cell : Nat} {item : Item} (hi : m item ≤ a * item.footprint + 3 * b) :
    Scope.Covered o a b m
      { s with shared := s.shared.setIfInBounds cell (some (item, item.footprint)) } := by
  refine ⟨hs.strings, fun i cost hm ↦ ?_, hs.expanded⟩
  rcases Array.mem_or_eq_of_mem_setIfInBounds hm with hm | heq
  · exact hs.shared i cost hm
  · cases heq
    exact hi

theorem resolve {content item : Item} {cost : Nat}
    (h : s.shared.resolve content = .ok (item, cost)) : m item ≤ a * cost + 3 * b := by
  unfold SharedItems.resolve at h
  split at h
  · split at h
    · rename_i hi
      cases h
      exact hs.shared item cost (Array.mem_of_getElem? hi)
    all_goals cases h
  · cases h

end Scope.Covered

theorem Pays.leave {s s' : Scope} {paid weight : Nat} (h : Pays o a b m s s' paid weight) :
    Pays o a b m s s'.leave paid weight :=
  ⟨h.covered.leave, h.grows, h.weight_le⟩

namespace Wire

theorem toList_of_joinChunks {isText : Bool} {parts : List Octets} {done octets : Array UInt8}
    (h : joinChunks o isText done parts = .ok octets) :
    octets.toList = done.toList ++ parts.flatten := by
  induction parts generalizing done with
  | nil =>
    cases h
    simp
  | cons p parts ih =>
    have hrest : joinChunks o isText (done ++ p) parts = .ok octets := by
      cases isText with
      | false => exact (bind_eq_ok.1 h).choose_spec.2
      | true =>
        obtain ⟨_, _, h⟩ := bind_eq_ok.1 h
        exact (bind_eq_ok.1 h).choose_spec.2
    rw [ih hrest, List.flatten_cons, ← List.append_assoc]
    simp

theorem mapKey_of_entryKey {indefinite : Bool} {done : Array (Item × Item)} {raw key : Item}
    (h : entryKey o indefinite done raw = .ok key) : raw.mapKey o.flags = .ok key := by
  simp only [entryKey, bind_eq_ok] at h
  obtain ⟨_, _, found, hf, h⟩ := h
  split at h <;> cases h
  exact hf

theorem length_le_octets_sharedRef (content : Wire) :
    3 ≤ (tag Tag.sharedRef content).octets.length := by
  have hcontent := content.length_octets_pos
  have hhead : (Head.write 6 Tag.sharedRef).length = 2 := by decide
  simp only [octets, lexemes, spell_cons, Lexeme.write, List.length_append] at hcontent ⊢
  omega

theorem length_lt_octets_chunks (isText : Bool) (parts : List Octets) :
    1 + parts.flatten.length ≤ (chunks isText parts).octets.length := by
  have hstart := length_write_pos (if isText then .textStart else .bytesStart)
  have hparts := length_flatten_le_spell isText parts
  simp only [octets, lexemes, List.cons_append, spell_cons, spell_append, List.length_append]
  omega

section

variable (hm : Weight o a b m) {s : Scope}

include hm

theorem weight_tag_le (number : UInt64) (content : Item) :
    m (.tag number (content.native o.flags)) ≤ b + m content := by
  have hle := hm.le
  have hfoot := hm.footprint_le (content.native o.flags)
  rw [hm.native] at hfoot
  rw [hm.tag, Item.footprint, Nat.mul_add, Nat.mul_one]
  omega

theorem weight_shared_le (hr : o.sharedRef ≠ .off) (cell : Nat) (content : Item) :
    let item := if o.sharedRef = .shareable then .shareable cell (content.native o.flags)
      else content.native o.flags
    m item ≤ b + m content ∧ m item ≤ a * item.footprint + 3 * b := by
  intro item
  have hle := hm.le
  by_cases hsh : o.sharedRef = .shareable
  · have hi : item = .shareable cell (content.native o.flags) := if_pos hsh
    have hone : (Item.shareable cell (content.native o.flags)).footprint = 1 := rfl
    rw [hi, hm.shareable, hone, Nat.mul_one]
    omega
  · have hon : o.sharedRef = .on := by
      cases ho : o.sharedRef <;> simp_all
    have hi : item = content.native o.flags := if_neg hsh
    rw [hi]
    exact ⟨by rw [hm.native]; omega, hm.copy hon _⟩

/-- A reference to a shared item pays for the copy alone; any other tag pays for what it makes of
its content with the octet of its head. -/
theorem pays_closeTag (hs : s.Covered o a b m) {number : UInt64} {role : TagRole}
    (hr : role.Given o number) {content : Item} {r : Item × Scope}
    (h : closeTag o number role content s = .ok r) :
    Pays o a b m s r.2 (if role = .sharedRef then 3 * b else b + m content) (m r.1) := by
  cases role with
  | stringNamespace =>
    cases h
    refine ⟨⟨fun t ht ↦ hs.strings t (List.mem_of_mem_tail ht), hs.shared, hs.expanded⟩,
      Nat.le_refl _, ?_⟩
    simp
  | stringRef =>
    obtain ⟨item, hi, h⟩ := bind_eq_ok.1 h
    obtain ⟨t, ht, h⟩ := bind_eq_ok.1 h
    cases h
    exact hs.charge ht (Nat.le_add_right_of_le (StringNamespace.of_resolve hs.strings hi))
  | sharedRef =>
    obtain ⟨⟨item, cost⟩, hi, h⟩ := bind_eq_ok.1 h
    obtain ⟨t, ht, h⟩ := bind_eq_ok.1 h
    cases h
    exact hs.charge ht (hs.resolve hi)
  | shareable cell =>
    obtain ⟨hw, hc⟩ := weight_shared_le hm hr cell content
    cases h
    exact ⟨hs.fill hc, Nat.le_refl _, Nat.add_le_add_right hw _⟩
  | plain =>
    rw [closeTag_plain] at h
    obtain ⟨item, hi, rfl⟩ := map_eq_ok.1 h
    obtain ⟨found, hf, hi⟩ := bind_eq_ok.1 hi
    cases found with
    | some item =>
      cases hi
      exact .of_covered hs (hm.interpret hf)
    | none =>
      cases hi
      exact .of_covered hs (weight_tag_le hm number content)

end

mutual

/-- The octets of a tree pay for what it means, up to the copies made. -/
theorem pays_meaning (hm : Weight o a b m)
    (hk : o.flags.contains .intKey = false ∨ o.flags.contains .mapAsArray = true) : (w : Wire) →
    ∀ {shared : Bool} {s : Scope} {r : Item × Scope},
    s.Covered o a b m → w.meaning o shared s = .ok r →
    Pays o a b m s r.2 (b * w.octets.length) (m r.1)
  | scalar x, _, s, _, hs, h => by
    cases h
    have ho : (scalar x).octets = x.lexeme.write := by simp [octets, lexemes]
    rw [ho]
    exact .of_covered hs (hm.scalar x)
  | simple .., _, _, _, _, h => by cases h
  | string isText c, _, s, _, hs, h => by
    rw [meaning_string] at h
    obtain ⟨_, _, h⟩ := bind_eq_ok.1 h
    cases h
    have hw : m (.ofString isText c) = a * (Item.ofString isText c).footprint := by
      rw [hm.string, Item.footprint_ofString]
    refine ⟨hs.record (Nat.le_of_eq hw) _, Nat.le_refl _, Nat.add_le_add_right ?_ _⟩
    rw [hm.string]
    exact Nat.mul_le_mul hm.le (length_le_octets_string isText c)
  | chunks isText parts, _, s, _, hs, h => by
    obtain ⟨octets, ho, h⟩ := bind_eq_ok.1 h
    cases h
    refine .of_covered hs ?_
    rw [hm.string, toList_of_joinChunks ho]
    exact Nat.mul_le_mul hm.le (length_lt_octets_chunks isText parts)
  | array indefinite items, _, s, _, hs, h => by
    simp only [meaning, bind_eq_ok] at h
    obtain ⟨t, ht, is, his, h⟩ := h
    cases h
    obtain ⟨hcov, hexp⟩ := hs.enter ht
    refine ((pays_meaningAll hm hk items hcov his).of_eq hexp).leave.mono ?_
    have hlen := Nat.mul_le_mul_left b (length_lt_octets_array indefinite items)
    have hweight := hm.array is.1.toList
    rw [Nat.mul_succ] at hlen
    simp only [weightAll]
    omega
  | map indefinite entries, _, s, _, hs, h => by
    simp only [meaning, bind_eq_ok] at h
    obtain ⟨t, ht, es, hes, h⟩ := h
    cases h
    obtain ⟨hcov, hexp⟩ := hs.enter ht
    refine ((pays_meaningEntries hm hk entries hcov hes).of_eq hexp).leave.mono ?_
    have hlen := Nat.mul_le_mul_left b (length_lt_octets_map indefinite entries)
    have hle := hm.le
    rw [Nat.mul_succ] at hlen
    simp only [hm.map, Item.footprint, Item.footprintEntries, Nat.mul_add, Nat.mul_zero,
      Nat.mul_one]
    omega
  | tag number content, _, s, _, hs, h => by
    simp only [meaning, bind_eq_ok] at h
    obtain ⟨t, ht, ⟨role, u⟩, hrole, item, hi, h⟩ := h
    obtain ⟨hcov, hexp⟩ := hs.enter ht
    obtain ⟨hcov, hexp', hgiven⟩ := hcov.openRole hrole
    have hcontent := ((pays_meaning hm hk content hcov hi).of_eq (hexp'.trans hexp)).leave
    have hclose := pays_closeTag hm hcontent.covered hgiven h
    by_cases hsh : role = .sharedRef
    · -- The weight of the content is not needed: the octets of the reference pay for the mantissa
      -- that its copy may become.
      subst hsh
      obtain rfl : number = Tag.sharedRef := hgiven
      have hlen := Nat.mul_le_mul_left b (length_le_octets_sharedRef content)
      have hgrows := Nat.mul_le_mul_left a hcontent.grows
      have hpaid := hclose.weight_le
      rw [if_pos rfl] at hpaid
      exact ⟨hclose.covered, Nat.le_trans hcontent.grows hclose.grows, by omega⟩
    · rw [if_neg hsh] at hclose
      refine (hcontent.trans hclose).mono ?_
      have hlen := Nat.mul_le_mul_left b (length_lt_octets_tag number content)
      rw [Nat.mul_succ] at hlen
      omega

theorem pays_meaningAll (hm : Weight o a b m)
    (hk : o.flags.contains .intKey = false ∨ o.flags.contains .mapAsArray = true) :
    (ws : List Wire) →
    ∀ {indefinite : Bool} {done : Array Item} {s : Scope} {r : Array Item × Scope},
    s.Covered o a b m → meaningAll o indefinite done s ws = .ok r →
    Pays o a b m s r.2 (weightAll m done.toList + b * (spell (lexemesAll ws)).length)
      (weightAll m r.1.toList)
  | [], _, _, _, _, hs, h => by
    cases h
    exact .of_covered hs (by simp [lexemesAll])
  | w :: ws, _, done, _, _, hs, h => by
    simp only [meaningAll, bind_eq_ok] at h
    obtain ⟨⟨item, t⟩, hw, _, _, h⟩ := h
    have hitem := pays_meaning hm hk w hs hw
    have hrest := pays_meaningAll hm hk ws hitem.covered h
    refine (hitem.trans hrest).mono ?_
    simp only [Array.toList_push, weightAll_concat, hm.native, lexemesAll, spell_append,
      List.length_append, Nat.mul_add, octets]
    omega

theorem pays_meaningEntries (hm : Weight o a b m)
    (hk : o.flags.contains .intKey = false ∨ o.flags.contains .mapAsArray = true) :
    (es : List (Wire × Wire)) →
    ∀ {indefinite : Bool} {done : Array (Item × Item)} {s : Scope}
    {r : Array (Item × Item) × Scope},
    s.Covered o a b m → meaningEntries o indefinite done s es = .ok r →
    Pays o a b m s r.2
      (a * Item.footprintEntries done.toList + b * (spell (lexemesEntries es)).length)
      (a * Item.footprintEntries r.1.toList)
  | [], _, _, _, _, hs, h => by
    cases h
    exact .of_covered hs (by simp [lexemesEntries])
  | (k, v) :: es, _, done, _, _, hs, h => by
    simp only [meaningEntries, bind_eq_ok] at h
    obtain ⟨⟨raw, t⟩, hraw, key, hkey, ⟨value, u⟩, hvalue, h⟩ := h
    have hk' := pays_meaning hm hk k hs hraw
    have hv' := pays_meaning hm hk v hk'.covered hvalue
    have hrest := pays_meaningEntries hm hk es hv'.covered h
    refine ((hk'.trans hv').trans hrest).mono ?_
    have hfoot := Nat.mul_le_mul_left a (Item.footprint_insertEntry_le o.flags done key
      (value.native o.flags))
    have hraw : a * key.footprint ≤ a * raw.footprint :=
      Nat.mul_le_mul_left a (Item.footprint_mapKey_le hk (mapKey_of_entryKey hkey))
    have hrawLe := hm.footprint_le raw
    have hvalueLe := hm.footprint_le value
    simp only [lexemesEntries, spell_append, List.length_append, Nat.mul_add, octets,
      Item.footprint_native] at hfoot ⊢
    omega

end

end Wire

theorem weight_le_of_decode (hw : Weight o a b m) (hv : o.flags.contains .edn = false)
    (hk : o.flags.contains .intKey = false ∨ o.flags.contains .mapAsArray = true)
    (hm : o.maxSize < UInt64.size) {data : Octets} {v : Item} (h : decode data o = .ok v) :
    a * v.footprint ≤ b * (data.window o.offset o.length).length + a * o.maxSize := by
  obtain ⟨w, hspelled, -⟩ := exists_of_decode hm h
  rw [Wire.decode_meaning hspelled (length_le_of_decode h) hm hv] at h
  obtain ⟨_, _, h⟩ := bind_eq_ok.1 h
  obtain ⟨r, hr, rfl⟩ := map_eq_ok.1 h
  have hpays := Wire.pays_meaning hw hk _ ⟨by simp, by simp, Nat.zero_le _⟩ hr
  have hlen := Nat.mul_le_mul_left b
    (Nat.le_trans (Wire.length_unprefixed_le o w) hspelled.length_spell_le)
  have hpaid : m r.1 + a * 0 ≤ b * (w.unprefixed o).octets.length + a * r.2.expanded :=
    hpays.weight_le
  have hfoot := hw.footprint_le (r.1.native o.flags)
  have hexp := Nat.mul_le_mul_left a hpays.covered.expanded
  rw [hw.native] at hfoot
  omega

/-- What is decoded has a footprint of at most the octets read and the copies allowed, unless
fractions are made of copies: then of one and a half times the octets, and the copies. -/
theorem footprint_le_of_decode (hv : o.flags.contains .edn = false)
    (hk : o.flags.contains .intKey = false ∨ o.flags.contains .mapAsArray = true)
    (hm : o.maxSize < UInt64.size) {data : Octets} {v : Item} (h : decode data o = .ok v) :
    (o.sharedRef ≠ .on ∨ o.groups.decimal = false →
      v.footprint ≤ (data.window o.offset o.length).length + o.maxSize) ∧
    2 * v.footprint ≤ 3 * (data.window o.offset o.length).length + 2 * o.maxSize := by
  refine ⟨fun hc ↦ ?_, ?_⟩
  · have hle : 1 * v.footprint ≤ 1 * (data.window o.offset o.length).length + 1 * o.maxSize := by
      rcases hc with hs | hd
      · exact weight_le_of_decode (Item.weight_burden (Nat.le_refl 1) (absurd · hs)) hv hk hm h
      · exact weight_le_of_decode (Item.weight_footprint hd) hv hk hm h
    omega
  · exact weight_le_of_decode (Item.weight_burden (by decide) fun _ ↦ by decide) hv hk hm h

/-- A decimal fraction made of a shared array. -/
theorem footprint_le_of_decode_fraction :
    let o : Options := { sharedRef := .on }
    let data : Octets := [0x82, 0xD8, 0x1C, 0x82, 0x00, 0x01, 0xC4, 0xD8, 0x1D, 0x00]
    let v : Item := .array [.array [.unsigned 0, .unsigned 1],
      .decimal { exponent := 0, mantissa := .ofOctets false [0x01] }]
    o.flags.contains .edn = false ∧ o.flags.contains .intKey = false ∧ o.maxSize < UInt64.size ∧
      decode data o = .ok v ∧ 2 * v.footprint ≤ 3 * data.length + 2 * o.maxSize := by
  intro o data v
  have hd : decode data o = .ok v := by cbv
  have hi : o.flags.contains .intKey = false := by decide
  exact ⟨by decide, hi, by decide, hd,
    (footprint_le_of_decode (o := o) (by decide) (.inl hi) (by decide) hd).2⟩

set_option maxRecDepth 1024 in
/-- Copies of an array of 0 and an integer of nine octets are charged as three, but each of the
decimal fractions made of them counts as nine. -/
theorem footprint_fractions :
    ¬ ∀ (o : Options) (data : Octets) (v : Item), o.flags.contains .edn = false →
      (o.flags.contains .intKey = false ∨ o.flags.contains .mapAsArray = true) →
      o.maxSize < UInt64.size → decode data o = .ok v →
      v.footprint ≤ (data.window o.offset o.length).length + o.maxSize := by
  intro h
  let o : Options := { maxSize := 123, sharedRef := .on }
  let pair : Wire := .array false [.scalar (.unsigned 0), .scalar (.unsigned 0x8000000000000000)]
  let copy : Wire := .tag Tag.decimal (.tag Tag.sharedRef (.scalar (.unsigned 0)))
  let w : Wire := .array false (.tag Tag.shareable pair :: List.replicate 27 copy)
  let half : Fraction :=
    { exponent := 0, mantissa := .ofOctets false [0x80, 0, 0, 0, 0, 0, 0, 0] }
  let v : Item := .array
    (.array [.unsigned 0, .unsigned 0x8000000000000000] :: List.replicate 27 (.decimal half))
  have hd : decode w.octets o = .ok v := by cbv
  have hle := h o w.octets v (by decide) (.inl (by decide)) (by decide) hd
  exact absurd hle (by decide)

end Cbor
