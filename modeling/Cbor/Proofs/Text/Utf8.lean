import Cbor.Text.Utf8

namespace Cbor.Utf8

theorem toNat_ofNat {n : Nat} (h : n.isValidChar) : (Char.ofNat n).toNat = n := by
  unfold Char.ofNat
  rw [dif_pos h]
  rfl

theorem encodeChar_one {n : Nat} (h : n < 0x80) : encodeChar (Char.ofNat n) = [UInt8.ofNat n] := by
  have hn := toNat_ofNat (n := n) (.inl (by omega))
  simp only [encodeChar, hn, if_pos h]

theorem encodeChar_two {n : Nat} (hl : 0x80 ≤ n) (hh : n < 0x800) :
    encodeChar (Char.ofNat n) = [UInt8.ofNat (0xC0 + n / 64), UInt8.ofNat (0x80 + n % 64)] := by
  have hn := toNat_ofNat (n := n) (.inl (by omega))
  simp only [encodeChar, hn, if_neg (Nat.not_lt.2 hl), if_pos hh]

theorem encodeChar_three {n : Nat} (hl : 0x800 ≤ n) (hh : n < 0x10000)
    (hs : n < 0xD800 ∨ 0xDFFF < n) :
    encodeChar (Char.ofNat n) = [UInt8.ofNat (0xE0 + n / 4096), UInt8.ofNat (0x80 + n / 64 % 64),
      UInt8.ofNat (0x80 + n % 64)] := by
  have hn := toNat_ofNat (n := n) (hs.imp id fun hs ↦ ⟨hs, by omega⟩)
  have h1 : ¬ n < 0x80 := by omega
  simp only [encodeChar, hn, if_neg h1, if_neg (Nat.not_lt.2 hl), if_pos hh]

theorem encodeChar_four {n : Nat} (hl : 0x10000 ≤ n) (hh : n < 0x110000) :
    encodeChar (Char.ofNat n) = [UInt8.ofNat (0xF0 + n / 262144),
      UInt8.ofNat (0x80 + n / 4096 % 64), UInt8.ofNat (0x80 + n / 64 % 64),
      UInt8.ofNat (0x80 + n % 64)] := by
  have hn := toNat_ofNat (n := n) (.inr ⟨by omega, hh⟩)
  have h1 : ¬ n < 0x80 := by omega
  have h2 : ¬ n < 0x800 := by omega
  simp only [encodeChar, hn, if_neg h1, if_neg h2, if_neg (Nat.not_lt.2 hl)]

/-- The pieces of the octets that come behind what has been read of a character. -/
def piecesFrom (p : Progress) : Octets → List Piece
  | [] => finish p
  | x :: b => (step p x).2 ++ piecesFrom (step p x).1 b

theorem piecesAux_eq (p : Progress) (done : Array Piece) (b : Octets) :
    piecesAux p done b = done ++ piecesFrom p b := by
  induction b generalizing p done with
  | nil => rfl
  | cons x b ih =>
    show piecesAux (step p x).1 (done ++ (step p x).2) b = _
    rw [ih, piecesFrom, ← Array.toList_inj]
    simp

def Piece.octets : Piece → Octets
  | .char c => encodeChar c
  | .junk b => b

theorem pieces_eq (b : Octets) : pieces b = piecesFrom .idle b := by
  simp [pieces, piecesAux_eq]

namespace Progress

def octets : Progress → Octets
  | .idle => []
  | .within seen .. => seen

inductive Reached : Progress → Prop
  | idle : Reached .idle
  | two (x : UInt8) (hl : 0xC2 ≤ x.toNat) (hh : x.toNat < 0xE0) :
    Reached (.within [x] (x.toNat - 0xC0) 1 0x80 0xBF)
  | three (x low high : UInt8) (hl : 0xE0 ≤ x.toNat) (hh : x.toNat < 0xF0)
    (hlow : low.toNat = if x.toNat = 0xE0 then 0xA0 else 0x80)
    (hhigh : high.toNat = if x.toNat = 0xED then 0x9F else 0xBF) :
    Reached (.within [x] (x.toNat - 0xE0) 2 low high)
  | threeLast (x y : UInt8) (hl : 0xE0 ≤ x.toNat) (hh : x.toNat < 0xF0)
    (hyl : 0x80 ≤ y.toNat) (hyl' : x.toNat = 0xE0 → 0xA0 ≤ y.toNat)
    (hyh : y.toNat ≤ 0xBF) (hyh' : x.toNat = 0xED → y.toNat ≤ 0x9F) :
    Reached (.within [x, y] ((x.toNat - 0xE0) * 64 + (y.toNat - 0x80)) 1 0x80 0xBF)
  | four (x low high : UInt8) (hl : 0xF0 ≤ x.toNat) (hh : x.toNat < 0xF5)
    (hlow : low.toNat = if x.toNat = 0xF0 then 0x90 else 0x80)
    (hhigh : high.toNat = if x.toNat = 0xF4 then 0x8F else 0xBF) :
    Reached (.within [x] (x.toNat - 0xF0) 3 low high)
  | fourMiddle (x y : UInt8) (hl : 0xF0 ≤ x.toNat) (hh : x.toNat < 0xF5)
    (hyl : 0x80 ≤ y.toNat) (hyl' : x.toNat = 0xF0 → 0x90 ≤ y.toNat)
    (hyh : y.toNat ≤ 0xBF) (hyh' : x.toNat = 0xF4 → y.toNat ≤ 0x8F) :
    Reached (.within [x, y] ((x.toNat - 0xF0) * 64 + (y.toNat - 0x80)) 2 0x80 0xBF)
  | fourLast (x y z : UInt8) (hl : 0xF0 ≤ x.toNat) (hh : x.toNat < 0xF5)
    (hyl : 0x80 ≤ y.toNat) (hyl' : x.toNat = 0xF0 → 0x90 ≤ y.toNat)
    (hyh : y.toNat ≤ 0xBF) (hyh' : x.toNat = 0xF4 → y.toNat ≤ 0x8F)
    (hzl : 0x80 ≤ z.toNat) (hzh : z.toNat ≤ 0xBF) :
    Reached (.within [x, y, z]
      (((x.toNat - 0xF0) * 64 + (y.toNat - 0x80)) * 64 + (z.toNat - 0x80)) 1 0x80 0xBF)

end Progress

/-- One octet ends a character, goes on with it, or shows that there is junk. -/
inductive Stepped (seen : Octets) : Progress × List Piece → Prop
  | char {c : Char} (h : encodeChar c = seen) : Stepped seen (.idle, [.char c])
  | within {p : Progress} (hp : p.Reached) (h : p.octets = seen) : Stepped seen (p, [])
  | junk {p : Progress} {b : Octets} {out : List Piece} (hp : p.Reached)
    (h : b ++ (out.flatMap Piece.octets ++ p.octets) = seen) : Stepped seen (p, .junk b :: out)

theorem Stepped.octets {seen : Octets} {r : Progress × List Piece} (h : Stepped seen r) :
    r.1.Reached ∧ r.2.flatMap Piece.octets ++ r.1.octets = seen := by
  cases h with
  | char h => exact ⟨.idle, by simpa [Piece.octets, Progress.octets] using h⟩
  | within hp h => exact ⟨hp, h⟩
  | junk hp h => exact ⟨hp, by simpa [Piece.octets] using h⟩

theorem begin_one {x : UInt8} (h : x.toNat < 0x80) :
    begin x = (.idle, [.char (Char.ofNat x.toNat)]) := if_pos h

theorem begin_two {x : UInt8} (hl : 0xC2 ≤ x.toNat) (hh : x.toNat < 0xE0) :
    begin x = (.within [x] (x.toNat - 0xC0) 1 0x80 0xBF, []) := by
  have h80 : ¬ x < 0x80 := Nat.not_lt.2 (Nat.le_trans (by decide) hl)
  have hC2 : ¬ x < 0xC2 := Nat.not_lt.2 hl
  have hE0 : x < 0xE0 := hh
  rw [begin, if_neg h80, if_neg hC2, if_pos hE0]

/-- The first octet narrows the range of the second. -/
theorem begin_three {x : UInt8} (hl : 0xE0 ≤ x.toNat) (hh : x.toNat < 0xF0) :
    ∃ low high, begin x = (.within [x] (x.toNat - 0xE0) 2 low high, []) ∧
      low.toNat = (if x.toNat = 0xE0 then 0xA0 else 0x80) ∧
      high.toNat = (if x.toNat = 0xED then 0x9F else 0xBF) := by
  have h80 : ¬ x < 0x80 := Nat.not_lt.2 (Nat.le_trans (by decide) hl)
  have hC2 : ¬ x < 0xC2 := Nat.not_lt.2 (Nat.le_trans (by decide) hl)
  have hE0 : ¬ x < 0xE0 := Nat.not_lt.2 hl
  have hF0 : x < 0xF0 := hh
  rw [begin, if_neg h80, if_neg hC2, if_neg hE0]
  split
  · rename_i h
    subst h
    exact ⟨_, _, rfl, rfl, rfl⟩
  split
  · rename_i h
    subst h
    exact ⟨_, _, rfl, rfl, rfl⟩
  rename_i hneE0 hneED
  have hneE0 : x.toNat ≠ 0xE0 := fun h ↦ hneE0 (UInt8.toNat_inj.1 h)
  have hneED : x.toNat ≠ 0xED := fun h ↦ hneED (UInt8.toNat_inj.1 h)
  rw [if_neg hneE0, if_neg hneED]
  exact ⟨_, _, rfl, rfl, rfl⟩

theorem begin_four {x : UInt8} (hl : 0xF0 ≤ x.toNat) (hh : x.toNat < 0xF5) :
    ∃ low high, begin x = (.within [x] (x.toNat - 0xF0) 3 low high, []) ∧
      low.toNat = (if x.toNat = 0xF0 then 0x90 else 0x80) ∧
      high.toNat = (if x.toNat = 0xF4 then 0x8F else 0xBF) := by
  have h80 : ¬ x < 0x80 := Nat.not_lt.2 (Nat.le_trans (by decide) hl)
  have hC2 : ¬ x < 0xC2 := Nat.not_lt.2 (Nat.le_trans (by decide) hl)
  have hE0 : ¬ x < 0xE0 := Nat.not_lt.2 (Nat.le_trans (by decide) hl)
  have hneE0 : ¬ x = 0xE0 := fun h ↦ absurd hl (by rw [h]; decide)
  have hneED : ¬ x = 0xED := fun h ↦ absurd hl (by rw [h]; decide)
  have hF0 : ¬ x < 0xF0 := Nat.not_lt.2 hl
  rw [begin, if_neg h80, if_neg hC2, if_neg hE0, if_neg hneE0, if_neg hneED, if_neg hF0]
  split
  · rename_i h
    subst h
    exact ⟨_, _, rfl, rfl, rfl⟩
  rename_i hneF0
  have hneF0 : x.toNat ≠ 0xF0 := fun h ↦ hneF0 (UInt8.toNat_inj.1 h)
  split
  · rename_i h
    have hneF4 : x.toNat ≠ 0xF4 := Nat.ne_of_lt h
    rw [if_neg hneF4]
    exact ⟨_, _, rfl, rfl, rfl⟩
  split
  · rename_i h
    subst h
    exact ⟨_, _, rfl, rfl, rfl⟩
  · rename_i hF4 hneF4
    have hF4 : 0xF4 ≤ x.toNat := Nat.not_lt.1 hF4
    exact absurd (UInt8.toNat_inj.1 (show x.toNat = 0xF4 by omega)) hneF4

theorem begin_junk {x : UInt8} (h : 0x80 ≤ x.toNat ∧ x.toNat < 0xC2 ∨ 0xF5 ≤ x.toNat) :
    begin x = (.idle, [.junk [x]]) := by
  have h80 : ¬ x < 0x80 := Nat.not_lt.2 (show 0x80 ≤ x.toNat by omega)
  rw [begin, if_neg h80]
  rcases h with ⟨_, hC2⟩ | hF5
  · exact if_pos hC2
  · have hC2 : ¬ x < 0xC2 := Nat.not_lt.2 (Nat.le_trans (by decide) hF5)
    have hE0 : ¬ x < 0xE0 := Nat.not_lt.2 (Nat.le_trans (by decide) hF5)
    have hF0 : ¬ x < 0xF0 := Nat.not_lt.2 (Nat.le_trans (by decide) hF5)
    have hF4 : ¬ x < 0xF4 := Nat.not_lt.2 (Nat.le_trans (by decide) hF5)
    have hne (y : UInt8) (hy : y.toNat < 0xF5) : ¬ x = y := fun h ↦ by
      rw [h] at hF5
      omega
    rw [if_neg hC2, if_neg hE0, if_neg (hne _ (by decide)), if_neg (hne _ (by decide)), if_neg hF0,
      if_neg (hne _ (by decide)), if_neg hF4, if_neg (hne _ (by decide))]

theorem stepped_begin (x : UInt8) : Stepped [x] (begin x) := by
  by_cases h80 : x.toNat < 0x80
  · rw [begin_one h80]
    exact .char (by rw [encodeChar_one h80, UInt8.ofNat_toNat])
  by_cases hC2 : x.toNat < 0xC2
  · rw [begin_junk (.inl ⟨by omega, hC2⟩)]
    exact .junk .idle rfl
  by_cases hE0 : x.toNat < 0xE0
  · rw [begin_two (by omega) hE0]
    exact .within (.two x (by omega) hE0) rfl
  by_cases hF0 : x.toNat < 0xF0
  · obtain ⟨low, high, hb, hlow, hhigh⟩ := begin_three (by omega) hF0
    rw [hb]
    exact .within (.three x low high (by omega) hF0 hlow hhigh) rfl
  by_cases hF5 : x.toNat < 0xF5
  · obtain ⟨low, high, hb, hlow, hhigh⟩ := begin_four (by omega) hF5
    rw [hb]
    exact .within (.four x low high (by omega) hF5 hlow hhigh) rfl
  · rw [begin_junk (.inr (by omega))]
    exact .junk .idle rfl

theorem stepped_within {seen : Octets} {code due : Nat} {low high x : UInt8}
    (h : low.toNat ≤ x.toNat → x.toNat ≤ high.toNat → Stepped (seen ++ [x])
      (if due ≤ 1 then (.idle, [.char (Char.ofNat (code * 64 + (x.toNat - 0x80)))])
      else (.within (seen ++ [x]) (code * 64 + (x.toNat - 0x80)) (due - 1) 0x80 0xBF, []))) :
    Stepped (seen ++ [x]) (step (.within seen code due low high) x) := by
  simp only [step]
  split
  · rename_i hx
    exact h hx.1 hx.2
  · obtain ⟨hp, ho⟩ := (stepped_begin x).octets
    exact .junk hp (congrArg (seen ++ ·) ho)

theorem ofNat_eq {x : UInt8} {n : Nat} (h : n = x.toNat) : UInt8.ofNat n = x := by
  rw [h, UInt8.ofNat_toNat]

theorem stepped_step {p : Progress} (hp : p.Reached) (x : UInt8) :
    Stepped (p.octets ++ [x]) (step p x) := by
  cases hp with
  | idle => exact stepped_begin x
  | two x₁ hl hh =>
    refine stepped_within fun (hlow : 0x80 ≤ x.toNat) (hhigh : x.toNat ≤ 0xBF) ↦ .char ?_
    rw [encodeChar_two (by omega) (by omega), ofNat_eq (x := x₁) (by omega),
      ofNat_eq (x := x) (by omega)]
    rfl
  | three x₁ low high hl hh hlow hhigh =>
    refine stepped_within fun hxl hxh ↦ .within (.threeLast x₁ x hl hh ?_ ?_ ?_ ?_) rfl
    · split at hlow <;> omega
    · intro h
      rw [if_pos h] at hlow
      omega
    · split at hhigh <;> omega
    · intro h
      rw [if_pos h] at hhigh
      omega
  | threeLast x₁ x₂ hl hh hyl hyl' hyh hyh' =>
    refine stepped_within fun (hlow : 0x80 ≤ x.toNat) (hhigh : x.toNat ≤ 0xBF) ↦ .char ?_
    rw [encodeChar_three (by omega) (by omega) (by omega), ofNat_eq (x := x₁) (by omega),
      ofNat_eq (x := x₂) (by omega), ofNat_eq (x := x) (by omega)]
    rfl
  | four x₁ low high hl hh hlow hhigh =>
    refine stepped_within fun hxl hxh ↦ .within (.fourMiddle x₁ x hl hh ?_ ?_ ?_ ?_) rfl
    · split at hlow <;> omega
    · intro h
      rw [if_pos h] at hlow
      omega
    · split at hhigh <;> omega
    · intro h
      rw [if_pos h] at hhigh
      omega
  | fourMiddle x₁ x₂ hl hh hyl hyl' hyh hyh' =>
    exact stepped_within fun hlow hhigh ↦
      .within (.fourLast x₁ x₂ x hl hh hyl hyl' hyh hyh' hlow hhigh) rfl
  | fourLast x₁ x₂ x₃ hl hh hyl hyl' hyh hyh' hzl hzh =>
    refine stepped_within fun (hlow : 0x80 ≤ x.toNat) (hhigh : x.toNat ≤ 0xBF) ↦ .char ?_
    rw [encodeChar_four (by omega) (by omega), ofNat_eq (x := x₁) (by omega),
      ofNat_eq (x := x₂) (by omega), ofNat_eq (x := x₃) (by omega),
      ofNat_eq (x := x) (by omega)]
    rfl

def Piece.replaced : Piece → Char
  | .char c => c
  | .junk _ => '\ufffd'

theorem octets_piecesFrom {p : Progress} (hp : p.Reached) (b : Octets) :
    (piecesFrom p b).flatMap Piece.octets = p.octets ++ b := by
  induction b generalizing p with
  | nil => cases hp <;> rfl
  | cons x b ih =>
    obtain ⟨hq, ho⟩ := (stepped_step hp x).octets
    rw [piecesFrom, List.flatMap_append, ih hq, ← List.append_assoc, ho, List.append_assoc,
      List.singleton_append]

/-- The pieces are cut out of the octets one behind the other. -/
theorem octets_pieces (b : Octets) : (pieces b).flatMap Piece.octets = b := by
  rw [pieces_eq, octets_piecesFrom .idle]
  rfl

theorem encode_replaced {ps : List Piece} (h : ps.all Piece.isChar) :
    encode (ps.map Piece.replaced) = ps.flatMap Piece.octets := by
  induction ps with
  | nil => rfl
  | cons p ps ih =>
    obtain ⟨hp, hps⟩ : p.isChar = true ∧ ps.all Piece.isChar = true := by simpa using h
    cases p with
    | char c => exact congrArg (encodeChar c ++ ·) (ih hps)
    | junk b => cases hp

theorem encode_decode? {b : Octets} {s : List Char} (h : decode? b = some s) : encode s = b := by
  unfold decode? at h
  split at h
  · cases h
    rename_i hv
    exact (encode_replaced hv).trans (octets_pieces b)
  · cases h

/-- No encoding of a character begins another one. -/
theorem encodeChar_append_inj {c d : Char} {a b : Octets}
    (h : encodeChar c ++ a = encodeChar d ++ b) : c = d ∧ a = b := by
  have hc : c.toNat < 0xD800 ∨ 0xDFFF < c.toNat ∧ c.toNat < 0x110000 := c.valid
  have hd : d.toNat < 0xD800 ∨ 0xDFFF < d.toNat ∧ d.toNat < 0x110000 := d.valid
  rw [← Char.toNat_inj]
  unfold encodeChar at h
  dsimp only at h
  generalize c.toNat = m at *
  generalize d.toNat = n at *
  -- the first octet tells how many there are
  repeat' split at h
  all_goals
    simp only [List.cons_append, List.nil_append, List.cons.injEq, ← UInt8.toNat_inj,
      UInt8.toNat_ofNat'] at h
    refine ⟨by omega, ?_⟩
    first | exact h.2 | exact h.2.2 | exact h.2.2.2 | exact h.2.2.2.2 | omega

theorem encodeChar_ne_nil (c : Char) : encodeChar c ≠ [] := by
  unfold encodeChar
  dsimp only
  repeat' split
  all_goals exact List.cons_ne_nil _ _

theorem encode_inj {s t : List Char} (h : encode s = encode t) : s = t := by
  induction s generalizing t with
  | nil =>
    cases t with
    | nil => rfl
    | cons d t => simp [encode, encodeChar_ne_nil] at h
  | cons c s ih =>
    cases t with
    | nil => simp [encode, encodeChar_ne_nil] at h
    | cons d t =>
      obtain ⟨rfl, hs⟩ := encodeChar_append_inj (show encodeChar c ++ encode s = _ from h)
      rw [ih hs]

theorem encode_append (s t : List Char) : encode (s ++ t) = encode s ++ encode t :=
  List.flatMap_append

theorem encode_cons_of_ascii {c : Char} (h : c.toNat < 0x80) (s : List Char) :
    encode (c :: s) = UInt8.ofNat c.toNat :: encode s := by
  simp [encode, encodeChar, h]

theorem encode_of_ascii {s : List Char} (h : ∀ c ∈ s, c.toNat < 0x80) :
    encode s = s.map fun c ↦ UInt8.ofNat c.toNat := by
  induction s with
  | nil => rfl
  | cons c s ih =>
    rw [encode_cons_of_ascii (h c List.mem_cons_self),
      ih fun c hc ↦ h c (List.mem_cons_of_mem _ hc), List.map_cons]

/-- No junk among the octets that come behind what has been read of a character. -/
def Whole (p : Progress) (b : Octets) : Prop := (piecesFrom p b).all Piece.isChar = true

theorem isValid_iff_whole (b : Octets) : isValid b = true ↔ Whole .idle b := by
  rw [isValid, pieces_eq, Whole]

theorem whole_begin {x : UInt8} {p : Progress} {b : Octets} (hx : begin x = (p, []))
    (h : Whole p b) : Whole .idle (x :: b) := by
  rw [Whole, piecesFrom, step, hx]
  exact h

theorem whole_within {seen : Octets} {code due : Nat} {low high x : UInt8} {b : Octets}
    (hl : low.toNat ≤ x.toNat) (hh : x.toNat ≤ high.toNat) (hd : 1 < due)
    (h : ∀ seen code, Whole (.within seen code (due - 1) 0x80 0xBF) b) :
    Whole (.within seen code due low high) (x :: b) := by
  rw [Whole, piecesFrom, step, if_pos ⟨hl, hh⟩, if_neg (Nat.not_le.2 hd)]
  exact h _ _

theorem whole_last {seen : Octets} {code : Nat} {low high x : UInt8} {b : Octets}
    (hl : low.toNat ≤ x.toNat) (hh : x.toNat ≤ high.toNat) (h : Whole .idle b) :
    Whole (.within seen code 1 low high) (x :: b) := by
  rw [Whole, piecesFrom, step, if_pos ⟨hl, hh⟩, if_pos (Nat.le_refl 1)]
  exact h

theorem toNat_octet {n : Nat} (h : n < 256) : (UInt8.ofNat n).toNat = n :=
  UInt8.toNat_ofNat_of_lt' h

theorem whole_continuation {seen : Octets} {code due n : Nat} {b : Octets} (hd : 1 < due)
    (h : ∀ seen code, Whole (.within seen code (due - 1) 0x80 0xBF) b) :
    Whole (.within seen code due 0x80 0xBF) (UInt8.ofNat (0x80 + n % 64) :: b) := by
  have hn := toNat_octet (n := 0x80 + n % 64) (by omega)
  exact whole_within (by rw [hn]; exact Nat.le_add_right ..) (by rw [hn]; show _ ≤ 0xBF; omega) hd h

theorem whole_ending {seen : Octets} {code n : Nat} {b : Octets} (h : Whole .idle b) :
    Whole (.within seen code 1 0x80 0xBF) (UInt8.ofNat (0x80 + n % 64) :: b) := by
  have hn := toNat_octet (n := 0x80 + n % 64) (by omega)
  exact whole_last (by rw [hn]; exact Nat.le_add_right ..) (by rw [hn]; show _ ≤ 0xBF; omega) h

theorem whole_encodeChar (c : Char) {b : Octets} (h : Whole .idle b) :
    Whole .idle (encodeChar c ++ b) := by
  have hv : c.toNat < 0xD800 ∨ 0xDFFF < c.toNat ∧ c.toNat < 0x110000 := c.valid
  unfold encodeChar
  dsimp only
  generalize c.toNat = n at hv
  split
  · rename_i hn
    have hx := toNat_octet (n := n) (by omega)
    rw [List.singleton_append, Whole, piecesFrom, step, begin_one (by omega)]
    exact h
  split
  · rename_i hn
    have hx := toNat_octet (n := 0xC0 + n / 64) (by omega)
    exact whole_begin (begin_two (by omega) (by omega)) (whole_ending h)
  split
  · rename_i hn
    have hx := toNat_octet (n := 0xE0 + n / 4096) (by omega)
    have hy := toNat_octet (n := 0x80 + n / 64 % 64) (by omega)
    obtain ⟨low, high, hb, hlow, hhigh⟩ := begin_three (x := UInt8.ofNat (0xE0 + n / 4096))
      (by omega) (by omega)
    refine whole_begin hb (whole_within ?_ ?_ (by decide) fun _ _ ↦ whole_ending h)
    · rw [hlow, hx, hy]
      split <;> omega
    · rw [hhigh, hx, hy]
      split <;> omega
  · have hx := toNat_octet (n := 0xF0 + n / 262144) (by omega)
    have hy := toNat_octet (n := 0x80 + n / 4096 % 64) (by omega)
    obtain ⟨low, high, hb, hlow, hhigh⟩ := begin_four (x := UInt8.ofNat (0xF0 + n / 262144))
      (by omega) (by omega)
    refine whole_begin hb (whole_within ?_ ?_ (by decide) fun _ _ ↦
      whole_continuation (by decide) fun _ _ ↦ whole_ending h)
    · rw [hlow, hx, hy]
      split <;> omega
    · rw [hhigh, hx, hy]
      split <;> omega

theorem isValid_encode (s : List Char) : isValid (encode s) = true := by
  rw [isValid_iff_whole]
  induction s with
  | nil => rfl
  | cons c s ih => exact whole_encodeChar c ih

theorem decode?_encode (s : List Char) : decode? (encode s) = some s := by
  have h : decode? (encode s) = some (decodeLossy (encode s)) := if_pos (isValid_encode s)
  rw [h, encode_inj (encode_decode? h)]

theorem head?_encode_ne_zero {s : List Char} (h : s.head? ≠ some (Char.ofNat 0)) :
    (encode s).head? ≠ some 0 := by
  cases s with
  | nil => nofun
  | cons c s =>
    have hc : c.toNat ≠ 0 := fun h0 ↦ h (by rw [List.head?_cons, ← h0, Char.ofNat_toNat])
    have hv : c.toNat < 0xD800 ∨ 0xDFFF < c.toNat ∧ c.toNat < 0x110000 := c.valid
    intro h0
    rw [encode, List.flatMap_cons, encodeChar] at h0
    repeat' split at h0
    all_goals
      simp only [List.cons_append, List.head?_cons, Option.some.injEq, ← UInt8.toNat_inj,
        UInt8.toNat_ofNat', UInt8.toNat_zero] at h0
      omega

theorem isValid_append {a b : Octets} (ha : isValid a = true) (hb : isValid b = true) :
    isValid (a ++ b) = true := by
  have hencode {b : Octets} (h : isValid b = true) : encode (decodeLossy b) = b :=
    encode_decode? (if_pos h)
  rw [← hencode ha, ← hencode hb, ← encode_append]
  exact isValid_encode _

end Cbor.Utf8
