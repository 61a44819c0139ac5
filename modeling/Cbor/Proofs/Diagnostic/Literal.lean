import Cbor.Diagnostic.Literal
import Cbor.Proofs.Text.Utf8

namespace Cbor.Diagnostic

def blanks : List Char := [' ', '\t', '\n']

def isBlank (c : Char) : Bool := c ∈ blanks

def Blank (s : List Char) : Prop := ∀ c ∈ s, isBlank c = true

def skip (s : List Char) : List Char := s.dropWhile isBlank

def unescape? : Char → Option Char
  | '\\' => some '\\'
  | '"' => some '"'
  | 't' => some '\t'
  | 'r' => some '\r'
  | 'f' => some '\x0c'
  | 'n' => some '\n'
  | 'b' => some '\x08'
  | _ => none

/-- Where a reader of literals is: between them, behind the letter of a byte literal, in a text
literal, behind a backslash, within a code point that `due` more digits belong to, in a byte
literal, or there behind the first digit of an octet. -/
inductive Place where
  | outside
  | letter
  | text
  | escape
  | unicode (code due : Nat)
  | bytes
  | octet (high : Nat)
  deriving DecidableEq

namespace Place

/-- Takes one character; the answer is the octets that it completes. -/
def step : Place → Char → Option (Place × Octets)
  | outside, c =>
    if isBlank c then some (outside, [])
    else if c = '"' then some (text, [])
    else if c = 'h' then some (letter, [])
    else none
  | letter, c => if c = quote then some (bytes, []) else none
  | text, c =>
    if c = '"' then some (outside, [])
    else if c = '\\' then some (escape, [])
    else some (text, Utf8.encodeChar c)
  | escape, c =>
    if c = 'u' then some (unicode 0 4, [])
    else (unescape? c).map fun d ↦ (text, Utf8.encodeChar d)
  | unicode code due, c =>
    (Octets.hexDigit? c).map fun d ↦
      if due ≤ 1 then (text, Utf8.encodeChar (.ofNat (code * 16 + d)))
      else (unicode (code * 16 + d) (due - 1), [])
  | bytes, c =>
    if c = quote then some (outside, [])
    else if isBlank c then some (bytes, [])
    else (Octets.hexDigit? c).map fun d ↦ (octet d, [])
  | octet high, c => (Octets.hexDigit? c).map fun d ↦ (bytes, [UInt8.ofNat (high * 16 + d)])

/-- The text `s` leads from `p` to `q` and stands for the octets `b`. -/
inductive Takes : (p : Place) → (s : List Char) → (b : Octets) → (q : Place) → Prop
  | nil (p : Place) : Takes p [] [] p
  | cons {p q r : Place} {c : Char} {s : List Char} {b d : Octets} (h : p.step c = some (q, b))
    (hs : Takes q s d r) : Takes p (c :: s) (b ++ d) r

theorem takes_one {p q : Place} {c : Char} {b : Octets} (h : p.step c = some (q, b)) :
    Takes p [c] b q := by
  simpa using Takes.cons h (.nil q)

theorem Takes.append {p q r : Place} {s t : List Char} {b d : Octets} (h : Takes p s b q)
    (ht : Takes q t d r) : Takes p (s ++ t) (b ++ d) r := by
  induction h with
  | nil => exact ht
  | cons hp _ ih =>
    rw [List.append_assoc]
    exact .cons hp (ih ht)

theorem takes_blank {p : Place} (hp : p = outside ∨ p = bytes) {s : List Char} (hs : Blank s) :
    Takes p s [] p := by
  induction s with
  | nil => exact .nil p
  | cons c s ih =>
    have hc := hs c List.mem_cons_self
    have hstep : p.step c = some (p, []) := by
      rcases hp with rfl | rfl
      · exact if_pos hc
      · have hq : c ≠ quote := by
          rintro rfl
          cases hc
        exact (if_neg hq).trans (if_pos hc)
    exact .cons hstep (ih fun d hd ↦ hs d (List.mem_cons_of_mem _ hd))

theorem step_bytes_digitChar : ∀ n < 16, step bytes (Nat.digitChar n) = some (octet n, []) := by
  decide

theorem takes_hexPair (x : UInt8) : Takes bytes (Octets.hexPair x) [x] bytes := by
  have hx := x.toNat_lt
  have hlow : step (octet (x.toNat / 16)) (Nat.digitChar (x.toNat % 16)) = some (bytes, [x]) := by
    rw [step, Octets.hexDigit?_digitChar _ (by omega), Option.map_some, Nat.div_add_mod',
      UInt8.ofNat_toNat]
  exact .cons (step_bytes_digitChar _ (by omega)) (takes_one hlow)

theorem takes_hex (b : Octets) : Takes bytes (Octets.hex b) b bytes := by
  induction b with
  | nil => exact .nil _
  | cons x b ih => exact (takes_hexPair x).append ih

end Place

def place (inText : Bool) : Place := if inText then .text else .bytes

open Place

theorem takes_switch (inText toText : Bool) :
    Takes (place inText) (switch inText toText) [] (place toText) := by
  cases inText <;> cases toText
  case false.true =>
    exact .cons (b := []) (q := .outside) rfl (.cons (b := []) (q := .outside) rfl (takes_one rfl))
  case true.false =>
    exact .cons (b := []) (q := .outside) rfl (.cons (b := []) (q := .outside) rfl
      (.cons (b := []) (q := .letter) rfl (takes_one rfl)))
  all_goals exact .nil _

theorem unescape?_of_escape? {c e : Char} (h : escape? c = some e) :
    e ≠ 'u' ∧ unescape? e = some c := by
  unfold escape? at h
  split at h
  case h_8 => cases h
  all_goals
    rename_i hn
    have hc := c.ofNat_toNat
    rw [hn] at hc
    subst hc
    cases h
    decide

theorem takes_escape {c e : Char} (h : escape? c = some e) :
    Takes .text ['\\', e] (Utf8.encodeChar c) .text := by
  obtain ⟨hu, hc⟩ := unescape?_of_escape? h
  have he : step .escape e = some (.text, Utf8.encodeChar c) := by
    rw [step, if_neg hu, hc, Option.map_some]
  exact .cons (b := []) rfl (takes_one he)

theorem leftpad_toDigits {k : Nat} (hk : 0 < k) (n : Nat) :
    (Nat.toDigits 16 n).leftpad (k + 1) '0' =
      (Nat.toDigits 16 (n / 16)).leftpad k '0' ++ [Nat.digitChar (n % 16)] := by
  by_cases hn : n < 16
  · obtain ⟨k, rfl⟩ : ∃ m, k = m + 1 := ⟨k - 1, by omega⟩
    have hzero : n / 16 = 0 := Nat.div_eq_of_lt hn
    rw [hzero, Nat.toDigits_of_lt_base hn, Nat.mod_eq_of_lt hn, Nat.toDigits_of_lt_base (by decide)]
    simp [List.leftpad, List.replicate_succ']
  · have hd := Nat.toDigits_append_toDigits (b := 16) (n := n / 16) (d := n % 16) (by decide)
      (by omega) (by omega)
    rw [Nat.div_add_mod, Nat.toDigits_of_lt_base (Nat.mod_lt n (by decide))] at hd
    rw [← hd]
    simp [List.leftpad]

theorem takes_digits {k n : Nat} (hk : k < 3) (hn : n < Nat.pow 16 (k + 1)) :
    Takes (.unicode 0 4) ((Nat.toDigits 16 n).leftpad (k + 1) '0') [] (.unicode n (3 - k)) := by
  induction k generalizing n with
  | zero =>
    have hn : n < 16 := hn
    rw [Nat.toDigits_of_lt_base hn]
    refine takes_one ?_
    simp [step, Octets.hexDigit?_digitChar n hn]
  | succ k ih =>
    have hmul : n < Nat.pow 16 (k + 1) * 16 := hn
    have hd : n / 16 < Nat.pow 16 (k + 1) := (Nat.div_lt_iff_lt_mul (by decide)).2 hmul
    have hlast : step (.unicode (n / 16) (3 - k)) (Nat.digitChar (n % 16)) =
        some (.unicode n (3 - (k + 1)), []) := by
      rw [step, Octets.hexDigit?_digitChar _ (Nat.mod_lt n (by decide)), Option.map_some,
        Nat.div_add_mod', if_neg (by omega), Nat.sub_sub]
    rw [leftpad_toDigits (Nat.zero_lt_succ k)]
    exact (ih (by omega) hd).append (takes_one hlast)

theorem takes_unicodeEscape {c : Char} (h : c.toNat < 0x10000) :
    Takes .text (unicodeEscape c) (Utf8.encodeChar c) .text := by
  have hlast : step (.unicode (c.toNat / 16) 1) (Nat.digitChar (c.toNat % 16)) =
      some (.text, Utf8.encodeChar c) := by
    rw [step, Octets.hexDigit?_digitChar _ (Nat.mod_lt _ (by decide)), Option.map_some,
      Nat.div_add_mod', Char.ofNat_toNat]
    rfl
  have hhigh : c.toNat / 16 < 0x1000 := by omega
  have hdigits := takes_digits (k := 2) (n := c.toNat / 16) (by decide) hhigh
  rw [unicodeEscape, leftpad_toDigits (by decide)]
  exact .cons (b := []) (q := .escape) rfl (.cons (b := []) rfl (hdigits.append (takes_one hlast)))

theorem toNat_lt_of_isControl {c : Char} (h : isControl c = true) : c.toNat < 0x80 := by
  simp only [isControl, Bool.or_eq_true, decide_eq_true_eq] at h
  omega

theorem toNat_lt_of_isInvisible {c : Char} (h : isInvisible c = true) : c.toNat < 0x10000 := by
  simp only [isInvisible, Bool.or_eq_true, Bool.and_eq_true, decide_eq_true_eq] at h
  omega

theorem takes_hexPair_of_isControl {c : Char} (h : isControl c = true) :
    Takes .bytes (Octets.hexPair (.ofNat c.toNat)) (Utf8.encodeChar c) .bytes := by
  have hc : Utf8.encodeChar c = [UInt8.ofNat c.toNat] := if_pos (toNat_lt_of_isControl h)
  rw [hc]
  exact takes_hexPair _

/-- Whichever form a character is given, it stands for the octets of its encoding. -/
theorem takes_charForm (inText nextIsControl : Bool) (c : Char) :
    Takes (place inText)
      (switch inText (charForm inText nextIsControl c).1 ++ (charForm inText nextIsControl c).2)
      (Utf8.encodeChar c) (place (charForm inText nextIsControl c).1) := by
  refine Takes.append (takes_switch ..) ?_
  unfold charForm
  split
  case isTrue h =>
    exact takes_hexPair_of_isControl (Bool.and_eq_true_iff.1 h).2
  case isFalse =>
    split
    · exact takes_escape ‹_›
    · rename_i he
      split
      · rename_i hc
        split
        · exact takes_hexPair_of_isControl hc
        · exact takes_unicodeEscape (Nat.lt_trans (toNat_lt_of_isControl hc) (by decide))
      split
      · exact takes_unicodeEscape (toNat_lt_of_isInvisible ‹_›)
      · -- the character stands for itself
        have hquote : c ≠ '"' := by
          rintro rfl
          cases he
        have hescape : c ≠ '\\' := by
          rintro rfl
          cases he
        exact takes_one ((if_neg hquote).trans (if_neg hescape))

def closing (inText : Bool) : Char := if inText then '"' else quote

theorem takes_letter : Takes .outside ['h', quote] [] .bytes := .cons (b := []) rfl (takes_one rfl)

theorem takes_closing (inText : Bool) : Takes (place inText) [closing inText] [] .outside := by
  cases inText <;> exact takes_one rfl

/-- The literals `s` stand for the octets of a string. The first character tells the kind of the
string. -/
structure Spells (isText : Bool) (s : List Char) (b : Octets) : Prop where
  takes : Takes .outside s b .outside
  first : s.head? = some (if isText then '"' else 'h')
  last : ∃ inText, s.getLast? = some (closing inText)

theorem exists_textPieces (done : Array Char) (inText : Bool) (ps : List Utf8.Piece) :
    ∃ s toText, (textPieces done inText ps).toList = done.toList ++ (s ++ [closing toText]) ∧
      Takes (place inText) s (ps.flatMap Utf8.Piece.octets) (place toText) := by
  induction ps generalizing done inText with
  | nil => exact ⟨[], inText, Array.toList_push, .nil _⟩
  | cons piece ps ih =>
    cases piece with
    | char c =>
      have hform := takes_charForm inText (startsWithControl ps) c
      obtain ⟨s, toText, he, hs⟩ := ih _ _
      refine ⟨_, toText, he.trans ?_, hform.append hs⟩
      simp only [Array.toList_appendList, List.append_assoc]
      rfl
    | junk junk =>
      have hjunk := (takes_switch inText false).append (takes_hex junk)
      obtain ⟨s, toText, he, hs⟩ := ih _ _
      refine ⟨_, toText, he.trans ?_, hjunk.append hs⟩
      simp only [Array.toList_appendList, List.append_assoc]

/-- Every string has a text literal, whether or not it is valid. -/
theorem spells_text (b : Octets) : Spells true (textLiteral b) b := by
  obtain ⟨s, toText, he, hs⟩ := exists_textPieces #['"'] true (Utf8.pieces b)
  rw [Utf8.octets_pieces] at hs
  have hopen : Takes .outside ['"'] [] (place true) := takes_one rfl
  rw [textLiteral, he]
  refine ⟨?_, rfl, toText, ?_⟩
  · have h := hopen.append (hs.append (takes_closing toText))
    rwa [List.append_nil] at h
  · rw [← List.append_assoc, List.getLast?_concat]

variable (s : Style)

theorem blank_lineBreak (width : Nat) (space : Bool) : Blank (s.lineBreak width space) := by
  unfold Style.lineBreak Indent.unit?
  cases s.indent with
  | none =>
    cases space <;> cases s.space <;> simp [Blank, isBlank, blanks]
  | spaces | tab =>
    simp [Blank, isBlank, blanks]

theorem blank_groupSpaces (offset : Nat) : Blank (s.groupSpaces offset) := by
  intro c hc
  obtain ⟨shift, -, hc⟩ := List.mem_filterMap.1 hc
  split at hc <;> cases hc
  rfl

theorem takes_byteGap (width offset : Nat) :
    Takes .bytes (s.byteGap width offset).1 [] .bytes := by
  unfold Style.byteGap
  split
  · exact .cons (b := []) rfl
      ((takes_blank (.inl rfl) (blank_lineBreak s width true)).append takes_letter)
  split
  · exact .nil _
  · exact takes_blank (.inr rfl) (blank_groupSpaces s offset)

theorem exists_byteDigits (width : Nat) (done : Array Char) (offset : Nat) (b : Octets) :
    ∃ t, (s.byteDigits width done offset b).toList = done.toList ++ t ∧
      Takes .bytes t b .bytes := by
  induction b generalizing done offset with
  | nil => exact ⟨[], (List.append_nil _).symm, .nil _⟩
  | cons x b ih =>
    have hx := (takes_byteGap s width offset).append (takes_hexPair x)
    obtain ⟨t, he, ht⟩ := ih _ _
    refine ⟨_, he.trans ?_, hx.append ht⟩
    simp only [Array.toList_appendList, List.append_assoc]
    rfl

/-- A byte literal is read back however its octets are grouped and wrapped. -/
theorem spells_bytes (width : Nat) (b : Octets) : Spells false (s.bytesLiteral width b) b := by
  obtain ⟨t, he, ht⟩ := exists_byteDigits s width #['h', quote] 0 b
  rw [Style.bytesLiteral, Array.toList_push, he]
  refine ⟨?_, rfl, false, List.getLast?_concat⟩
  have h := (takes_letter.append ht).append (takes_closing false)
  rwa [List.append_nil] at h

end Cbor.Diagnostic
