import Cbor.Assembly

namespace Cbor.Item

/-- The tags that reading gives a meaning to when references to items are off. -/
def interpreted : List UInt64 :=
  [Tag.dateTime, Tag.epoch, Tag.positiveBignum, Tag.negativeBignum, Tag.decimal, Tag.bigFloat,
    Tag.uri, Tag.stringRef, Tag.stringRefNamespace]

def Keyed (keys : List Item) : Prop :=
  ∃ names : List Octets, keys = names.map string ∧ names.Nodup ∧ ∀ b ∈ names, b.head? ≠ some 0

namespace Keyed

theorem string_of_mem {keys : List Item} (h : Keyed keys) :
    ∀ k ∈ keys, ∃ b : Octets, k = .string b ∧ b.head? ≠ some 0 := by
  obtain ⟨names, rfl, _, hz⟩ := h
  intro k hk
  obtain ⟨b, hb, rfl⟩ := List.mem_map.1 hk
  exact ⟨b, rfl, hz b hb⟩

theorem ne_of_mem {before after : List Item} {key : Item} (h : Keyed (before ++ key :: after)) :
    ∀ k ∈ before, (k == key) = false := by
  obtain ⟨names, hn, hd, _⟩ := h
  obtain ⟨front, back, rfl, rfl, hback⟩ := List.map_eq_append_iff.1 hn.symm
  obtain ⟨b, back, rfl, rfl, rfl⟩ := List.map_eq_cons_iff.1 hback
  intro k hk
  obtain ⟨c, hc, rfl⟩ := List.mem_map.1 hk
  have hne : c ≠ b := fun h ↦
    (List.nodup_append.1 hd).2.2 c hc b List.mem_cons_self h
  exact decide_eq_false hne

theorem nil : Keyed [] := ⟨[], rfl, List.nodup_nil, nofun⟩

theorem push {keys : List Item} (h : Keyed keys) {b : Octets} (hb : b.head? ≠ some 0)
    (hn : ∀ k ∈ keys, (k == string b) = false) : Keyed (keys ++ [string b]) := by
  obtain ⟨names, rfl, hd, hz⟩ := h
  have hnew : b ∉ names := fun hm ↦
    of_decide_eq_false (hn (string b) (List.mem_map_of_mem hm)) rfl
  refine ⟨names ++ [b], by simp, ?_, ?_⟩
  · refine List.nodup_append.2 ⟨hd, by simp, fun c hc x hx h ↦ ?_⟩
    rw [List.mem_singleton.1 hx] at h
    exact hnew (h ▸ hc)
  · intro c hc
    rcases List.mem_append.1 hc with hc | hc
    · exact hz c hc
    · rw [List.mem_singleton.1 hc]
      exact hb

end Keyed

section

variable (f : Flags) (leaf : Item → Prop)

mutual

/-- A string is native just if the flags make it so. `leaf` says which date and times, bignums and
decimal fractions there may be. -/
def Formed : Item → Prop
  | bytes _ => f.contains .byte = false
  | text _ => f.contains .text = false
  | string _ => f.contains .byte = true ∨ f.contains .text = true
  | array items => FormedAll items
  | map entries => Keyed (entries.map Prod.fst) ∧ FormedEntries entries
  | tag number content => number ∉ interpreted ∧ Formed content
  | dateTime t => leaf (dateTime t)
  | bignum b => leaf (bignum b)
  | decimal q => leaf (decimal q)
  | shareable .. | custom .. | params .. => False
  | _ => True

def FormedAll : List Item → Prop
  | [] => True
  | i :: is => Formed i ∧ FormedAll is

def FormedEntries : List (Item × Item) → Prop
  | [] => True
  | (_, i) :: is => Formed i ∧ FormedEntries is

end

end

section

variable {f : Flags} {leaf : Item → Prop}

theorem formedAll_iff {is : List Item} :
    FormedAll f leaf is ↔ ∀ i ∈ is, i.Formed f leaf := by
  induction is with
  | nil => simp [FormedAll]
  | cons i is ih => simp [FormedAll, ih]

theorem formedEntries_iff {is : List (Item × Item)} :
    FormedEntries f leaf is ↔ ∀ e ∈ is, e.2.Formed f leaf := by
  induction is with
  | nil => simp [FormedEntries]
  | cons i is ih =>
    obtain ⟨k, v⟩ := i
    simp [FormedEntries, ih]

end

/-- No container, no tag and no node that only references or writing know. -/
def IsAtom : Item → Prop
  | array _ | map _ | tag .. | shareable .. | custom .. | params .. => False
  | _ => True

/-- Bignums that are no plain integers, and decimal fractions that are none. -/
def Lasting : Item → Prop
  | bignum b => 8 < b.magnitude.length
  | decimal q => ¬ (q.exponent = 0 ∧ q.mantissa.magnitude.length ≤ 8)
  | dateTime _ => False
  | _ => True

/-- Clocks less than a day off. -/
def Dated : Item → Prop
  | dateTime t => t.offset.natAbs < 86400
  | _ => True

def ofBignum (b : Bignum) : Item := (ofBignum? b).getD (bignum b)

mutual

/-- The item with plain integers for all bignums and decimal fractions that are written as such. -/
def normal : Item → Item
  | array items => array (normalAll items)
  | map entries => map (normalEntries entries)
  | tag number content => tag number (normal content)
  | bignum b => ofBignum b
  | decimal q =>
    if q.exponent = 0 ∧ q.mantissa.word?.isSome then ofBignum q.mantissa else decimal q
  | i => i

def normalAll : List Item → List Item
  | [] => []
  | i :: is => normal i :: normalAll is

def normalEntries : List (Item × Item) → List (Item × Item)
  | [] => []
  | (k, i) :: is => (k, normal i) :: normalEntries is

end

theorem ofBignum_of_long {b : Bignum} (h : 8 < b.magnitude.length) : ofBignum b = bignum b := by
  rw [ofBignum, ofBignum?, Bignum.word?, if_neg (Nat.not_le.2 h)]
  rfl

theorem native_ofBignum (f : Flags) (b : Bignum) : (ofBignum b).native f = ofBignum b := by
  unfold ofBignum ofBignum?
  rcases b.word? with _ | n
  · rfl
  · cases b.negative <;> rfl

theorem exists_of_normal_eq_tag {v content : Item} {number : UInt64}
    (h : v.normal = tag number content) : ∃ content, v = tag number content := by
  have hb (b : Bignum) : ofBignum b ≠ tag number content := by
    unfold ofBignum ofBignum?
    rcases b.word? with _ | n
    · nofun
    · cases b.negative <;> nofun
  cases v with
  | tag n c =>
    obtain ⟨rfl, _⟩ := tag.inj h
    exact ⟨c, rfl⟩
  | bignum b => exact absurd h (hb b)
  | decimal q =>
    rw [normal] at h
    split at h
    · exact absurd h (hb _)
    · cases h
  | _ => cases h

variable {f : Flags}

mutual

theorem normal_of_lasting : (v : Item) → v.Formed f Lasting → v.normal = v
  | array items, h => congrArg array (normalAll_of_lasting items h)
  | map entries, h => congrArg map (normalEntries_of_lasting entries h.2)
  | tag _ content, h => congrArg (tag _) (normal_of_lasting content h.2)
  | bignum b, h => by
    rw [normal, ofBignum_of_long h]
  | decimal q, h => by
    have hq : ¬ (q.exponent = 0 ∧ q.mantissa.magnitude.length ≤ 8) := h
    have hw : q.mantissa.word?.isSome = decide (q.mantissa.magnitude.length ≤ 8) := by
      unfold Bignum.word?
      split <;> simp_all
    rw [normal, if_neg (by simpa [hw] using hq)]
  | unsigned _, _ | negative _, _ | bytes _, _ | text _, _ | string _, _ | bool _, _ | null, _
  | undefined, _ | float16 _, _ | float32 _, _ | float64 _, _ | dateTime _, _ | bigFloat _, _
  | uri _, _ => rfl

theorem normalAll_of_lasting : (is : List Item) → FormedAll f Lasting is → normalAll is = is
  | [], _ => rfl
  | i :: is, h => by rw [normalAll, normal_of_lasting i h.1, normalAll_of_lasting is h.2]

theorem normalEntries_of_lasting : (is : List (Item × Item)) → FormedEntries f Lasting is →
    normalEntries is = is
  | [], _ => rfl
  | (k, i) :: is, h => by
    rw [normalEntries, normal_of_lasting i h.1, normalEntries_of_lasting is h.2]

end

theorem normalEntries_keys (entries : List (Item × Item)) :
    (normalEntries entries).map Prod.fst = entries.map Prod.fst := by
  induction entries with
  | nil => rfl
  | cons e entries ih => exact congrArg (e.1 :: ·) ih

end Cbor.Item
