import Cbor.Item.Basic
import Cbor.Proofs.Wire.Lexeme

namespace Cbor

inductive Scalar where
  | unsigned (n : UInt64)
  | negative (n : UInt64)
  | bool (b : Bool)
  | null
  | undefined
  | float16 (bits : UInt16)
  | float32 (bits : UInt32)
  | float64 (bits : UInt64)

inductive Wire where
  | scalar (a : Scalar)
  | simple (n : UInt8) (valid : n < 20 ∨ 32 ≤ n)
  | string (isText : Bool) (b : Octets)
  | chunks (isText : Bool) (parts : List Octets)
  | array (indefinite : Bool) (items : List Wire)
  | map (indefinite : Bool) (entries : List (Wire × Wire))
  | tag (number : UInt64) (content : Wire)

namespace Scalar

def lexeme : Scalar → Lexeme
  | unsigned n => .unsigned n
  | negative n => .negative n
  | bool b => .bool b
  | null => .null
  | undefined => .undefined
  | float16 bits => .float16 bits
  | float32 bits => .float32 bits
  | float64 bits => .float64 bits

def item : Scalar → Item
  | unsigned n => .unsigned n
  | negative n => .negative n
  | bool b => .bool b
  | null => .null
  | undefined => .undefined
  | float16 bits => .float16 bits
  | float32 bits => .float32 bits
  | float64 bits => .float64 bits

end Scalar

def Lexeme.ofString : (isText : Bool) → Octets → Lexeme
  | false, b => .bytes b
  | true, b => .text b

def Item.ofString : (isText : Bool) → Octets → Item
  | false, b => .bytes b
  | true, b => .text b

namespace Wire

def count (indefinite : Bool) (n : Nat) : Option UInt64 :=
  if indefinite then none else some (.ofNat n)

def ending (indefinite : Bool) : List Lexeme := if indefinite then [.stop] else []

mutual

def lexemes : Wire → List Lexeme
  | scalar a => [a.lexeme]
  | simple n _ => [.simple n]
  | string isText b => [.ofString isText b]
  | chunks isText parts =>
    (if isText then .textStart else .bytesStart) :: parts.map (.ofString isText) ++ [.stop]
  | array indefinite items =>
    .array (count indefinite items.length) :: lexemesAll items ++ ending indefinite
  | map indefinite entries =>
    .map (count indefinite entries.length) :: lexemesEntries entries ++ ending indefinite
  | tag number content => .tag number :: lexemes content

def lexemesAll : List Wire → List Lexeme
  | [] => []
  | w :: ws => lexemes w ++ lexemesAll ws

def lexemesEntries : List (Wire × Wire) → List Lexeme
  | [] => []
  | (k, v) :: es => lexemes k ++ lexemes v ++ lexemesEntries es

end

def spell (ls : List Lexeme) : Octets := ls.flatMap Lexeme.write

def octets (w : Wire) : Octets := spell w.lexemes

@[simp] theorem spell_nil : spell [] = [] := rfl

@[simp] theorem spell_cons (l : Lexeme) (ls : List Lexeme) :
    spell (l :: ls) = l.write ++ spell ls := List.flatMap_cons

@[simp] theorem spell_append (ls ms : List Lexeme) : spell (ls ++ ms) = spell ls ++ spell ms :=
  List.flatMap_append

theorem octets_scalar (a : Scalar) : (scalar a).octets = a.lexeme.write := by
  simp only [octets, lexemes, spell_cons, spell_nil, List.append_nil]

theorem octets_string (isText : Bool) (b : Octets) :
    (string isText b).octets = Head.write (if isText then 3 else 2) (.ofNat b.length) ++ b := by
  cases isText <;> simp [octets, lexemes, Lexeme.ofString, Lexeme.write]

theorem octets_tag (number : UInt64) (w : Wire) :
    (tag number w).octets = Head.write 6 number ++ w.octets := by
  simp only [octets, lexemes, spell_cons, Lexeme.write]

theorem length_le_spell (ls : List Lexeme) : ls.length ≤ (spell ls).length := by
  induction ls with
  | nil => simp
  | cons l ls ih =>
    have := List.length_pos_iff.2 l.write_ne_nil
    simp only [spell_cons, List.length_append, List.length_cons]
    omega

theorem length_write_le_spell {l : Lexeme} {ls : List Lexeme} (h : l ∈ ls) :
    l.write.length ≤ (spell ls).length := by
  induction h with
  | head => simp
  | tail _ _ ih =>
    simp only [spell_cons, List.length_append]
    omega

theorem lexemes_ne_nil (w : Wire) : w.lexemes ≠ [] := by
  cases w <;> simp [lexemes]

theorem length_octets_pos (w : Wire) : 0 < w.octets.length :=
  Nat.lt_of_lt_of_le (List.length_pos_iff.2 w.lexemes_ne_nil) (length_le_spell _)

theorem length_le_lexemesAll (ws : List Wire) : ws.length ≤ (lexemesAll ws).length := by
  induction ws with
  | nil => simp
  | cons w ws ih =>
    have := List.length_pos_iff.2 w.lexemes_ne_nil
    simp only [lexemesAll, List.length_append, List.length_cons]
    omega

theorem length_le_lexemesEntries (es : List (Wire × Wire)) :
    es.length ≤ (lexemesEntries es).length := by
  induction es with
  | nil => simp
  | cons e es ih =>
    have := List.length_pos_iff.2 e.1.lexemes_ne_nil
    simp only [lexemesEntries, List.length_append, List.length_cons]
    omega

theorem length_le_spell_lexemesAll (ws : List Wire) : ws.length ≤ (spell (lexemesAll ws)).length :=
  Nat.le_trans (length_le_lexemesAll ws) (length_le_spell _)

theorem length_le_spell_lexemesEntries (es : List (Wire × Wire)) :
    es.length ≤ (spell (lexemesEntries es)).length :=
  Nat.le_trans (length_le_lexemesEntries es) (length_le_spell _)

theorem fits_ofString {n : Nat} {isText : Bool} {b : Octets} (h : b.length ≤ n) :
    (Lexeme.ofString isText b).Fits n := by
  cases isText <;> exact h

theorem length_le_write_ofString (isText : Bool) (b : Octets) :
    b.length ≤ (Lexeme.ofString isText b).write.length := by
  cases isText <;> simp [Lexeme.ofString, Lexeme.write]

theorem fits_ending {n : Nat} {indefinite : Bool} {l : Lexeme} (h : l ∈ ending indefinite) :
    l.Fits n := by
  cases indefinite
  · cases h
  · rw [List.mem_singleton.1 h]
    trivial

theorem toNat_ofNat_le (k : Nat) : (UInt64.ofNat k).toNat ≤ k := by
  rw [UInt64.toNat_ofNat']
  exact Nat.mod_le ..

theorem length_le_octets_string (isText : Bool) (b : Octets) :
    1 + b.length ≤ (string isText b).octets.length := by
  have h (major : Nat) := List.length_pos_iff.2 (Head.write_ne_nil major (.ofNat b.length))
  cases isText <;>
    simp only [octets, lexemes, Lexeme.ofString, spell_cons, spell_nil, Lexeme.write,
      List.append_nil, List.length_append] <;>
    exact Nat.add_le_add_right (h _) _

theorem length_lt_octets_array (indefinite : Bool) (items : List Wire) :
    (spell (lexemesAll items)).length < (array indefinite items).octets.length := by
  have h := List.length_pos_iff.2 (Lexeme.array (count indefinite items.length)).write_ne_nil
  simp only [octets, lexemes, List.cons_append, spell_cons, spell_append, List.length_append]
  omega

theorem length_le_octets_array (indefinite : Bool) (items : List Wire) :
    (spell (lexemesAll items)).length ≤ (array indefinite items).octets.length :=
  Nat.le_of_lt (length_lt_octets_array indefinite items)

theorem length_lt_octets_map (indefinite : Bool) (entries : List (Wire × Wire)) :
    (spell (lexemesEntries entries)).length < (map indefinite entries).octets.length := by
  have h := List.length_pos_iff.2 (Lexeme.map (count indefinite entries.length)).write_ne_nil
  simp only [octets, lexemes, List.cons_append, spell_cons, spell_append, List.length_append]
  omega

theorem length_le_octets_map (indefinite : Bool) (entries : List (Wire × Wire)) :
    (spell (lexemesEntries entries)).length ≤ (map indefinite entries).octets.length :=
  Nat.le_of_lt (length_lt_octets_map indefinite entries)

theorem length_lt_octets_tag (number : UInt64) (content : Wire) :
    content.octets.length < (tag number content).octets.length := by
  have h := List.length_pos_iff.2 (Head.write_ne_nil 6 number)
  simp only [octets, lexemes, spell_cons, List.length_append, Lexeme.write]
  omega

theorem length_le_octets_tag (number : UInt64) (content : Wire) :
    content.octets.length ≤ (tag number content).octets.length :=
  Nat.le_of_lt (length_lt_octets_tag number content)

variable {n : Nat}

mutual

theorem fits_of_mem : (w : Wire) → (spell w.lexemes).length ≤ n → ∀ l ∈ w.lexemes, l.Fits n
  | scalar a, _, l, hl => by
    rw [lexemes, List.mem_singleton] at hl
    subst hl
    cases a <;> trivial
  | simple v valid, _, l, hl => by
    rw [lexemes, List.mem_singleton] at hl
    subst hl
    exact valid
  | string isText b, h, l, hl => by
    rw [lexemes, List.mem_singleton] at hl
    subst hl
    have := length_le_write_ofString isText b
    simp only [lexemes, spell_cons, spell_nil, List.append_nil] at h
    exact fits_ofString (Nat.le_trans this h)
  | chunks isText parts, h, l, hl => by
    simp only [lexemes, List.cons_append, List.mem_cons, List.mem_append, List.mem_map,
      List.not_mem_nil, or_false] at hl
    rcases hl with rfl | ⟨b, hb, rfl⟩ | rfl
    · cases isText <;> trivial
    · have := length_le_write_ofString isText b
      have hm : Lexeme.ofString isText b ∈ lexemes (chunks isText parts) := by
        simp only [lexemes, List.cons_append, List.mem_cons, List.mem_append]
        exact .inr (.inl (List.mem_map_of_mem hb))
      have := length_write_le_spell hm
      exact fits_ofString (by omega)
    · trivial
  | array indefinite items, h, l, hl => by
    simp only [lexemes, List.cons_append, List.mem_cons, List.mem_append] at hl
    simp only [lexemes, List.cons_append, spell_cons, spell_append, List.length_append] at h
    rcases hl with rfl | hl | hl
    · have := length_le_lexemesAll items
      have := length_le_spell (lexemesAll items)
      have := toNat_ofNat_le items.length
      cases indefinite
      · show (UInt64.ofNat items.length).toNat ≤ n
        omega
      · trivial
    · exact fits_of_mem_all items (by omega) l hl
    · exact fits_ending hl
  | map indefinite entries, h, l, hl => by
    simp only [lexemes, List.cons_append, List.mem_cons, List.mem_append] at hl
    simp only [lexemes, List.cons_append, spell_cons, spell_append, List.length_append] at h
    rcases hl with rfl | hl | hl
    · have := length_le_lexemesEntries entries
      have := length_le_spell (lexemesEntries entries)
      have := toNat_ofNat_le entries.length
      cases indefinite
      · show (UInt64.ofNat entries.length).toNat ≤ n
        omega
      · trivial
    · exact fits_of_mem_entries entries (by omega) l hl
    · exact fits_ending hl
  | tag number content, h, l, hl => by
    rw [lexemes, List.mem_cons] at hl
    simp only [lexemes, spell_cons, List.length_append] at h
    rcases hl with rfl | hl
    · trivial
    · exact fits_of_mem content (by omega) l hl

theorem fits_of_mem_all :
    (ws : List Wire) → (spell (lexemesAll ws)).length ≤ n → ∀ l ∈ lexemesAll ws, l.Fits n
  | w :: ws, h, l, hl => by
    simp only [lexemesAll, spell_append, List.length_append] at h
    rw [lexemesAll, List.mem_append] at hl
    rcases hl with hl | hl
    · exact fits_of_mem w (by omega) l hl
    · exact fits_of_mem_all ws (by omega) l hl

theorem fits_of_mem_entries : (es : List (Wire × Wire)) → (spell (lexemesEntries es)).length ≤ n →
    ∀ l ∈ lexemesEntries es, l.Fits n
  | (k, v) :: es, h, l, hl => by
    simp only [lexemesEntries, spell_append, List.length_append] at h
    simp only [lexemesEntries, List.mem_append] at hl
    rcases hl with (hl | hl) | hl
    · exact fits_of_mem k (by omega) l hl
    · exact fits_of_mem v (by omega) l hl
    · exact fits_of_mem_entries es (by omega) l hl

end

mutual

/-- There is no tag 25, and at most `room` levels of arrays, maps and tags. -/
def Plain (room : Nat) : Wire → Prop
  | array _ items => 0 < room ∧ PlainAll (room - 1) items
  | map _ entries => 0 < room ∧ PlainEntries (room - 1) entries
  | tag number content => 0 < room ∧ number ≠ Tag.stringRef ∧ Plain (room - 1) content
  | _ => True

def PlainAll (room : Nat) : List Wire → Prop
  | [] => True
  | w :: ws => Plain room w ∧ PlainAll room ws

def PlainEntries (room : Nat) : List (Wire × Wire) → Prop
  | [] => True
  | (k, w) :: es => Plain room k ∧ Plain room w ∧ PlainEntries room es

end

mutual

theorem Plain.mono {m n : Nat} (h : m ≤ n) : (w : Wire) → w.Plain m → w.Plain n
  | scalar _, _ | simple _ _, _ | string _ _, _ | chunks _ _, _ => trivial
  | array _ items, ⟨hm, hw⟩ => ⟨by omega, PlainAll.mono (by omega) items hw⟩
  | map _ entries, ⟨hm, hw⟩ => ⟨by omega, PlainEntries.mono (by omega) entries hw⟩
  | tag _ content, ⟨hm, hn, hw⟩ => ⟨by omega, hn, Plain.mono (by omega) content hw⟩

theorem PlainAll.mono {m n : Nat} (h : m ≤ n) : (ws : List Wire) → PlainAll m ws → PlainAll n ws
  | [], _ => trivial
  | w :: ws, ⟨hw, hws⟩ => ⟨Plain.mono h w hw, PlainAll.mono h ws hws⟩

theorem PlainEntries.mono {m n : Nat} (h : m ≤ n) :
    (es : List (Wire × Wire)) → PlainEntries m es → PlainEntries n es
  | [], _ => trivial
  | (k, w) :: es, ⟨hk, hw, hes⟩ =>
    ⟨Plain.mono h k hk, Plain.mono h w hw, PlainEntries.mono h es hes⟩

end

end Wire
end Cbor
