import Cbor.Proofs.Wire.Spelling

namespace Cbor

namespace Lexeme

theorem Form.fits {l : Lexeme} {b : Octets} (h : l.Form b) (hb : b.length < UInt64.size) :
    l.Fits (UInt64.size - 1) := by
  cases l with
  | bytes p | text p =>
    obtain ⟨d, _, rfl⟩ := h
    rw [List.length_append] at hb
    show p.length ≤ UInt64.size - 1
    omega
  | array count | map count =>
    cases count with
    | none => trivial
    | some n => exact Nat.le_sub_one_of_lt n.toNat_lt
  | simple n => exact h.1
  | _ => trivial

end Lexeme

namespace Wire

theorem Spelling.read {l : Lexeme} {ls : List Lexeme} {b : Octets} (h : Spelling (l :: ls) b)
    (hb : b.length < UInt64.size) :
    ∃ c, Spelling ls c ∧ c.length < UInt64.size ∧
      Lexeme.read (UInt64.size - 1) b = .ok (.ready l c) := by
  cases h with
  | @cons _ _ b c hl hs =>
    rw [List.length_append] at hb
    have hfits := hl.fits (by omega)
    exact ⟨c, hs, by omega, Lexeme.read_of_form hl hfits (by decide) c⟩

/-- The octets determine the lexemes. -/
theorem Spelling.unique {ls ms : List Lexeme} {b : Octets} (h : Spelling ls b) (h' : Spelling ms b)
    (hb : b.length < UInt64.size) : ls = ms := by
  induction ls generalizing ms b with
  | nil =>
    cases h
    exact (List.isEmpty_iff.1 h'.isEmpty_eq.symm).symm
  | cons l ls ih =>
    obtain ⟨c, hs, hc, hr⟩ := h.read hb
    cases ms with
    | nil =>
      cases h'
      cases hr
    | cons m ms =>
      obtain ⟨c', hs', _, hr'⟩ := h'.read hb
      cases hr.symm.trans hr'
      rw [ih hs hs' hc]

/-- The kinds of trees, which their first lexemes tell apart. -/
inductive Kind where
  | scalar
  | simple
  | string
  | chunks
  | array
  | map
  | tag

def kind : Wire → Kind
  | scalar _ => .scalar
  | simple .. => .simple
  | string .. => .string
  | chunks .. => .chunks
  | array .. => .array
  | map .. => .map
  | tag .. => .tag

def lexemeKind? : Lexeme → Option Kind
  | .simple _ => some .simple
  | .bytes _ | .text _ => some .string
  | .bytesStart | .textStart => some .chunks
  | .array _ => some .array
  | .map _ => some .map
  | .tag _ => some .tag
  | .stop => none
  | _ => some .scalar

theorem kind_of_lexemes (w : Wire) : ∃ l ls, w.lexemes = l :: ls ∧ lexemeKind? l = some w.kind := by
  cases w with
  | scalar a => exact ⟨a.lexeme, [], rfl, by cases a <;> rfl⟩
  | string isText b => exact ⟨.ofString isText b, [], rfl, by cases isText <;> rfl⟩
  | chunks isText parts => exact ⟨_, _, rfl, by cases isText <;> rfl⟩
  | simple | array | map | tag => exact ⟨_, _, rfl, rfl⟩

theorem kind_eq {w w' : Wire} {ls ls' : List Lexeme} (h : w.lexemes ++ ls = w'.lexemes ++ ls') :
    w.kind = w'.kind := by
  obtain ⟨l, ms, hw, hl⟩ := w.kind_of_lexemes
  obtain ⟨l', ms', hw', hl'⟩ := w'.kind_of_lexemes
  rw [hw, hw'] at h
  cases (List.cons.inj h).1
  exact Option.some.inj (hl.symm.trans hl')

theorem lexemes_append_ne_stop (w : Wire) (ls ls' : List Lexeme) :
    w.lexemes ++ ls ≠ .stop :: ls' := by
  obtain ⟨l, ms, hw, hl⟩ := w.kind_of_lexemes
  rw [hw]
  intro h
  cases (List.cons.inj h).1
  cases hl

theorem count_inj {indefinite indefinite' : Bool} {m n : Nat} (hm : m < UInt64.size)
    (hn : n < UInt64.size) (h : count indefinite m = count indefinite' n) :
    indefinite = indefinite' ∧ (indefinite = true ∨ m = n) := by
  cases indefinite <;> cases indefinite'
  case false.false =>
    have hmn := congrArg UInt64.toNat (Option.some.inj h)
    rw [UInt64.toNat_ofNat_of_lt' hm, UInt64.toNat_ofNat_of_lt' hn] at hmn
    exact ⟨rfl, .inr hmn⟩
  case true.true => exact ⟨rfl, .inl rfl⟩
  all_goals cases h

theorem chunks_inj {isText : Bool} {parts parts' : List Octets} {ls ls' : List Lexeme}
    (h : parts.map (.ofString isText) ++ .stop :: ls =
      parts'.map (.ofString isText) ++ .stop :: ls') : parts = parts' ∧ ls = ls' := by
  induction parts generalizing parts' with
  | nil =>
    cases parts' with
    | nil => exact ⟨rfl, (List.cons.inj h).2⟩
    | cons b parts' => cases isText <;> cases h
  | cons a parts ih =>
    cases parts' with
    | nil => cases isText <;> cases h
    | cons b parts' =>
      obtain ⟨hab, h⟩ := List.cons.inj h
      obtain ⟨rfl, rfl⟩ := ih h
      cases isText <;> cases hab <;> exact ⟨rfl, rfl⟩

mutual

/-- Where the lexemes of trees start alike the trees are the same. -/
theorem eq_of_lexemes_append : (w w' : Wire) → w.octets.length < UInt64.size →
    w'.octets.length < UInt64.size → ∀ {ls ls' : List Lexeme},
    w.lexemes ++ ls = w'.lexemes ++ ls' → w = w' ∧ ls = ls'
  | .scalar a, w', _, _, _, _, h => by
    have hk := kind_eq h
    cases w' with
    | scalar a' =>
      obtain ⟨ha, rfl⟩ := List.cons.inj h
      cases a <;> cases a' <;> cases ha <;> exact ⟨rfl, rfl⟩
    | _ => cases hk
  | .simple n valid, w', _, _, _, _, h => by
    have hk := kind_eq h
    cases w' with
    | simple n' valid' =>
      cases h
      exact ⟨rfl, rfl⟩
    | _ => cases hk
  | .string isText b, w', _, _, _, _, h => by
    have hk := kind_eq h
    cases w' with
    | string isText' b' => cases isText <;> cases isText' <;> cases h <;> exact ⟨rfl, rfl⟩
    | _ => cases hk
  | .chunks isText parts, w', _, _, ls, ls', h => by
    have hk := kind_eq h
    cases w' with
    | chunks isText' parts' =>
      simp only [lexemes, List.cons_append, List.append_assoc] at h
      obtain ⟨hfirst, h⟩ := List.cons.inj h
      obtain rfl : isText = isText' := by
        cases isText <;> cases isText' <;> first | rfl | cases hfirst
      obtain ⟨rfl, rfl⟩ := chunks_inj h
      exact ⟨rfl, rfl⟩
    | _ => cases hk
  | .array indefinite items, w', hw, hw', ls, ls', h => by
    have hk := kind_eq h
    cases w' with
    | array indefinite' items' =>
      have hall := Nat.lt_of_le_of_lt (length_le_octets_array indefinite items) hw
      have hall' := Nat.lt_of_le_of_lt (length_le_octets_array indefinite' items') hw'
      have hn := Nat.lt_of_le_of_lt (length_le_spell_lexemesAll items) hall
      have hn' := Nat.lt_of_le_of_lt (length_le_spell_lexemesAll items') hall'
      obtain ⟨hc, h⟩ := List.cons.inj h
      obtain ⟨rfl, hl⟩ := count_inj hn hn' (Lexeme.array.inj hc)
      obtain ⟨rfl, rfl⟩ := eq_of_lexemesAll_append items items' hall hall' hl h
      exact ⟨rfl, rfl⟩
    | _ => cases hk
  | .map indefinite entries, w', hw, hw', ls, ls', h => by
    have hk := kind_eq h
    cases w' with
    | map indefinite' entries' =>
      have hall := Nat.lt_of_le_of_lt (length_le_octets_map indefinite entries) hw
      have hall' := Nat.lt_of_le_of_lt (length_le_octets_map indefinite' entries') hw'
      have hn := Nat.lt_of_le_of_lt (length_le_spell_lexemesEntries entries) hall
      have hn' := Nat.lt_of_le_of_lt (length_le_spell_lexemesEntries entries') hall'
      obtain ⟨hc, h⟩ := List.cons.inj h
      obtain ⟨rfl, hl⟩ := count_inj hn hn' (Lexeme.map.inj hc)
      obtain ⟨rfl, rfl⟩ := eq_of_lexemesEntries_append entries entries' hall hall' hl h
      exact ⟨rfl, rfl⟩
    | _ => cases hk
  | .tag number content, w', hw, hw', ls, ls', h => by
    have hk := kind_eq h
    cases w' with
    | tag number' content' =>
      have hc := Nat.lt_of_le_of_lt (length_le_octets_tag number content) hw
      have hc' := Nat.lt_of_le_of_lt (length_le_octets_tag number' content') hw'
      obtain ⟨hn, hr⟩ := List.cons.inj h
      cases hn
      obtain ⟨rfl, rfl⟩ := eq_of_lexemes_append content content' hc hc' hr
      exact ⟨rfl, rfl⟩
    | _ => cases hk

theorem eq_of_lexemesAll_append : (ws ws' : List Wire) →
    (spell (lexemesAll ws)).length < UInt64.size → (spell (lexemesAll ws')).length < UInt64.size →
    ∀ {indefinite : Bool}, indefinite = true ∨ ws.length = ws'.length → ∀ {ls ls' : List Lexeme},
    lexemesAll ws ++ ending indefinite ++ ls = lexemesAll ws' ++ ending indefinite ++ ls' →
    ws = ws' ∧ ls = ls'
  | [], [], _, _, indefinite, _, ls, ls', h => ⟨rfl, List.append_cancel_left h⟩
  | [], w' :: ws', _, _, indefinite, hl, ls, ls', h => by
    obtain rfl := hl.resolve_right (by simp)
    simp only [lexemesAll, List.append_assoc] at h
    exact absurd h.symm (lexemes_append_ne_stop w' _ _)
  | w :: ws, [], _, _, indefinite, hl, ls, ls', h => by
    obtain rfl := hl.resolve_right (by simp)
    simp only [lexemesAll, List.append_assoc] at h
    exact absurd h (lexemes_append_ne_stop w _ _)
  | w :: ws, w' :: ws', hws, hws', indefinite, hl, ls, ls', h => by
    simp only [lexemesAll, spell_append, List.length_append] at hws hws'
    have hw : w.octets.length < UInt64.size := Nat.lt_of_le_of_lt (Nat.le_add_right ..) hws
    have hw' : w'.octets.length < UInt64.size := Nat.lt_of_le_of_lt (Nat.le_add_right ..) hws'
    have hl' : indefinite = true ∨ ws.length = ws'.length := by simpa using hl
    simp only [lexemesAll, List.append_assoc] at h
    obtain ⟨rfl, hr⟩ := eq_of_lexemes_append w w' hw hw' h
    simp only [← List.append_assoc] at hr
    obtain ⟨rfl, rfl⟩ := eq_of_lexemesAll_append ws ws' (by omega) (by omega) hl' hr
    exact ⟨rfl, rfl⟩

theorem eq_of_lexemesEntries_append : (es es' : List (Wire × Wire)) →
    (spell (lexemesEntries es)).length < UInt64.size →
    (spell (lexemesEntries es')).length < UInt64.size →
    ∀ {indefinite : Bool}, indefinite = true ∨ es.length = es'.length → ∀ {ls ls' : List Lexeme},
    lexemesEntries es ++ ending indefinite ++ ls = lexemesEntries es' ++ ending indefinite ++ ls' →
    es = es' ∧ ls = ls'
  | [], [], _, _, indefinite, _, ls, ls', h => ⟨rfl, List.append_cancel_left h⟩
  | [], (k', v') :: es', _, _, indefinite, hl, ls, ls', h => by
    obtain rfl := hl.resolve_right (by simp)
    simp only [lexemesEntries, List.append_assoc] at h
    exact absurd h.symm (lexemes_append_ne_stop k' _ _)
  | (k, v) :: es, [], _, _, indefinite, hl, ls, ls', h => by
    obtain rfl := hl.resolve_right (by simp)
    simp only [lexemesEntries, List.append_assoc] at h
    exact absurd h (lexemes_append_ne_stop k _ _)
  | (k, v) :: es, (k', v') :: es', hes, hes', indefinite, hl, ls, ls', h => by
    simp only [lexemesEntries, spell_append, List.length_append] at hes hes'
    have hl' : indefinite = true ∨ es.length = es'.length := by simpa using hl
    simp only [lexemesEntries, List.append_assoc] at h
    obtain ⟨rfl, hv⟩ := eq_of_lexemes_append k k' (by simp only [octets]; omega)
      (by simp only [octets]; omega) h
    obtain ⟨rfl, hr⟩ := eq_of_lexemes_append v v' (by simp only [octets]; omega)
      (by simp only [octets]; omega) hv
    simp only [← List.append_assoc] at hr
    obtain ⟨rfl, rfl⟩ := eq_of_lexemesEntries_append es es' (by omega) (by omega) hl' hr
    exact ⟨rfl, rfl⟩

end

theorem Spelled.unique {w w' : Wire} {b : Octets} (h : w.Spelled b) (h' : w'.Spelled b)
    (hb : b.length < UInt64.size) : w = w' := by
  have hw := Nat.lt_of_le_of_lt h.length_spell_le hb
  have hw' := Nat.lt_of_le_of_lt h'.length_spell_le hb
  have hl : w.lexemes ++ [] = w'.lexemes ++ [] := congrArg (· ++ []) (Spelling.unique h h' hb)
  exact (eq_of_lexemes_append w w' hw hw' hl).1

end Wire
end Cbor
