import Cbor.Proofs.Bignum
import Cbor.Proofs.Wire.Tree

namespace Cbor

namespace Head

/-- The heads of a major type with argument `n`. Of the additional information 24 to 31, only 24 to
27 announce an argument. -/
inductive Form (major : Nat) : (n : Nat) → Octets → Prop
  | short {n : Nat} (hn : n < 24) : Form major n [initial major n]
  | wide {minor width n : Nat} (hw : (minor, width) ∈ [(24, 1), (25, 2), (26, 4), (27, 8)])
    (hn : n < Nat.pow 256 width) : Form major n (initial major minor :: Octets.ofNat width n)

theorem argumentWidth?_of_mem {minor width : Nat}
    (h : (minor, width) ∈ [(24, 1), (25, 2), (26, 4), (27, 8)]) :
    argumentWidth? minor = some width ∧ ¬ minor < 24 := by
  simp only [List.mem_cons, List.not_mem_nil, or_false, Prod.mk.injEq] at h
  rcases h with ⟨rfl, rfl⟩ | ⟨rfl, rfl⟩ | ⟨rfl, rfl⟩ | ⟨rfl, rfl⟩ <;> decide

theorem mem_of_argumentWidth? {minor width : Nat} (h : argumentWidth? minor = some width) :
    minor < 24 ∨ (minor, width) ∈ [(24, 1), (25, 2), (26, 4), (27, 8)] := by
  unfold argumentWidth? at h
  split at h
  case h_5 =>
    split at h
    · exact .inl ‹_›
    · cases h
  all_goals
    cases h
    exact .inr (by decide)

namespace Form

variable {major n : Nat} {h : Octets}

theorem lt_size (hf : Form major n h) : n < UInt64.size := by
  cases hf with
  | short hn => exact Nat.lt_trans hn (by decide)
  | wide hw hn =>
    simp only [List.mem_cons, List.not_mem_nil, or_false, Prod.mk.injEq] at hw
    rcases hw with ⟨rfl, rfl⟩ | ⟨rfl, rfl⟩ | ⟨rfl, rfl⟩ | ⟨rfl, rfl⟩
    all_goals exact Nat.lt_of_lt_of_le hn (by decide)

theorem length_write_le (hf : Form major n h) : (write major (.ofNat n)).length ≤ h.length := by
  have hn : (UInt64.ofNat n).toNat = n := UInt64.toNat_ofNat_of_lt' hf.lt_size
  simp only [write, hn]
  cases hf with
  | short hn => simp [hn]
  | wide hw hn =>
    simp only [List.mem_cons, List.not_mem_nil, or_false, Prod.mk.injEq] at hw
    rcases hw with ⟨rfl, rfl⟩ | ⟨rfl, rfl⟩ | ⟨rfl, rfl⟩ | ⟨rfl, rfl⟩
    all_goals
      simp only [Nat.pow_eq, Nat.reducePow] at hn
      grind [Octets.length_ofNat]

end Form

theorem form_write (major : Nat) (n : UInt64) : Form major n.toNat (write major n) := by
  simp only [write]
  split
  case isTrue h => exact .short h
  split
  case isTrue h => exact .wide (by decide) h
  split
  case isTrue h => exact .wide (by decide) h
  split
  case isTrue h => exact .wide (by decide) h
  exact .wide (by decide) n.toNat_lt

theorem initial_div_mod (x : UInt8) : initial (x.toNat / 32) (x.toNat % 32) = x := by
  rw [← UInt8.toNat_inj, toNat_initial (by have := x.toNat_lt; omega) (by omega)]
  omega

theorem argument?_eq_some {minor width : Nat} {b rest : Octets} {n : UInt64}
    (h : argument? minor width b = some (n, rest)) :
    minor < 24 ∧ n = .ofNat minor ∧ b = rest ∨
      ¬ minor < 24 ∧ ∃ digits, digits.length = width ∧ n = .ofNat (Octets.toNat digits) ∧
        b = digits ++ rest := by
  unfold argument? at h
  split at h
  case isTrue hm =>
    cases h
    exact .inl ⟨hm, rfl, rfl⟩
  case isFalse hm =>
    simp only [List.splitAt_eq, Option.ite_none_right_eq_some, Option.some.injEq,
      Prod.mk.injEq] at h
    obtain ⟨hl, rfl, rfl⟩ := h
    exact .inr ⟨hm, b.take width, hl, rfl, (List.take_append_drop width b).symm⟩

theorem form_of_argument? {major minor width : Nat} {b rest : Octets} {n : UInt64}
    (hw : argumentWidth? minor = some width) (h : argument? minor width b = some (n, rest)) :
    ∃ digits, b = digits ++ rest ∧ Form major n.toNat (initial major minor :: digits) := by
  rcases argument?_eq_some h with ⟨hm, rfl, rfl⟩ | ⟨hm, digits, hl, rfl, rfl⟩
  · have hn : (UInt64.ofNat minor).toNat = minor :=
      UInt64.toNat_ofNat_of_lt' (Nat.lt_trans hm (by decide))
    exact ⟨[], rfl, by rw [hn]; exact .short hm⟩
  · have hmem := (mem_of_argumentWidth? hw).resolve_left hm
    have hform : Form major (Octets.toNat digits)
        (initial major minor :: Octets.ofNat width (Octets.toNat digits)) :=
      .wide hmem (Octets.toNat_lt (Nat.le_of_eq hl))
    have hn := UInt64.toNat_ofNat_of_lt' hform.lt_size
    rw [Octets.ofNat_toNat hl] at hform
    exact ⟨digits, rfl, hn.symm ▸ hform⟩

end Head

namespace Lexeme

open Head (form_write form_of_argument?)

/-- The octet strings of a lexeme. All but heads with an argument and the strings behind them have
one form. -/
def Form : Lexeme → Octets → Prop
  | unsigned n, b => Head.Form 0 n.toNat b
  | negative n, b => Head.Form 1 n.toNat b
  | bytes p, b => ∃ h, Head.Form 2 p.length h ∧ b = h ++ p
  | text p, b => ∃ h, Head.Form 3 p.length h ∧ b = h ++ p
  | array (some n), b => Head.Form 4 n.toNat b
  | map (some n), b => Head.Form 5 n.toNat b
  | tag n, b => Head.Form 6 n.toNat b
  | simple n, b => (n < 20 ∨ 32 ≤ n) ∧ b = (simple n).write
  | l, b => b = l.write

theorem Form.length_write_le {l : Lexeme} {b : Octets} (h : l.Form b) :
    l.write.length ≤ b.length := by
  cases l with
  | unsigned n | negative n | tag n =>
    have := Head.Form.length_write_le h
    rwa [UInt64.ofNat_toNat] at this
  | bytes p | text p =>
    obtain ⟨d, hd, rfl⟩ := h
    simp only [write, List.length_append]
    exact Nat.add_le_add_right hd.length_write_le _
  | array count | map count =>
    cases count with
    | none => exact Nat.le_of_eq (congrArg List.length (Eq.symm h))
    | some n =>
      have := Head.Form.length_write_le h
      rwa [UInt64.ofNat_toNat] at this
  | simple n => exact Nat.le_of_eq (congrArg List.length h.2.symm)
  | _ => exact Nat.le_of_eq (congrArg List.length (Eq.symm h))

theorem form_write {maxSize : Nat} {l : Lexeme} (hf : l.Fits maxSize)
    (hm : maxSize < UInt64.size) : l.Form l.write := by
  cases l with
  | unsigned n | negative n | tag n => exact Head.form_write _ n
  | bytes p | text p =>
    have hp : (UInt64.ofNat p.length).toNat = p.length :=
      UInt64.toNat_ofNat_of_lt' (Nat.lt_of_le_of_lt hf hm)
    have h (major : Nat) := Head.form_write major (.ofNat p.length)
    rw [hp] at h
    exact ⟨_, h _, rfl⟩
  | array count | map count =>
    cases count with
    | none => rfl
    | some n => exact Head.form_write _ n
  | simple n => exact ⟨hf, rfl⟩
  | _ => rfl

theorem read_of_headForm {major n : Nat} {h : Octets} (hf : Head.Form major n h) (hm : major ≤ 6)
    (maxSize : Nat) (b : Octets) :
    read maxSize (h ++ b) = ofHead maxSize major 0 (.ofNat n) b := by
  cases hf with
  | short hn =>
    rw [ofHead_minor hm maxSize 0 n]
    refine read_initial maxSize (by omega) (Head.argumentWidth?_of_lt hn) ?_
    simp [Head.argument?, hn]
  | @wide minor width _ hw hn =>
    obtain ⟨hwidth, hminor⟩ := Head.argumentWidth?_of_mem hw
    rw [ofHead_minor hm maxSize 0 minor]
    exact read_initial maxSize (by omega) hwidth (Head.argument?_ofNat b hminor hn)

/-- Every form of a lexeme reads as that lexeme, whatever follows it. -/
theorem read_of_form {maxSize : Nat} {l : Lexeme} {b : Octets} (h : l.Form b)
    (hf : l.Fits maxSize) (hm : maxSize < UInt64.size) (c : Octets) :
    read maxSize (b ++ c) = .ok (.ready l c) := by
  cases l with
  | unsigned n | negative n | tag n =>
    rw [read_of_headForm h (by decide), UInt64.ofNat_toNat]
    rfl
  | bytes p | text p =>
    obtain ⟨d, hd, rfl⟩ := h
    rw [List.append_assoc, read_of_headForm hd (by decide)]
    exact readString_ready _ c hf (Nat.lt_of_le_of_lt hf hm)
  | array count | map count =>
    cases count with
    | none =>
      obtain rfl := h
      rfl
    | some n =>
      rw [read_of_headForm h (by decide), UInt64.ofNat_toNat]
      simp [ofHead, checkSize, show n.toNat ≤ maxSize from hf]
  | simple n =>
    obtain ⟨_, rfl⟩ := h
    exact read_simple hf c
  | bool v =>
    obtain rfl := h
    cases v <;> rfl
  | bytesStart | textStart | null | undefined | stop =>
    obtain rfl := h
    rfl
  | float16 bits =>
    obtain rfl := h
    refine (read_special 25 2 maxSize c rfl (by decide) bits.toNat_lt).trans ?_
    simp [ofSimple, Except.map]
  | float32 bits =>
    obtain rfl := h
    refine (read_special 26 4 maxSize c rfl (by decide) bits.toNat_lt).trans ?_
    simp [ofSimple, Except.map]
  | float64 bits =>
    obtain rfl := h
    refine (read_special 27 8 maxSize c rfl (by decide) bits.toNat_lt).trans ?_
    simp [ofSimple, Except.map]

theorem form_of_readString {maxSize major : Nat} {make : Octets → Lexeme} {n : UInt64}
    {h b rest : Octets} {l : Lexeme} (hh : Head.Form major n.toNat h)
    (hr : readString maxSize make n b = .ok (.ready l rest)) :
    ∃ p, l = make p ∧ b = p ++ rest ∧ Head.Form major p.length h := by
  simp only [readString, List.splitAt_eq, bind_eq_ok] at hr
  obtain ⟨_, _, hr⟩ := hr
  split at hr
  case isTrue hl =>
    cases hr
    exact ⟨b.take n.toNat, rfl, (List.take_append_drop _ b).symm, hl.symm ▸ hh⟩
  case isFalse => cases hr

theorem ofSimple_of_lt {m : Nat} (hm : m < 20) (n : UInt64) :
    ofSimple m n = .ok (simple n.toUInt8) := by
  unfold ofSimple
  split <;> first | omega | rfl

theorem form_of_ofSimple_short {m : Nat} {l : Lexeme} (hm : m < 24)
    (h : ofSimple m (.ofNat m) = .ok l) : l.Form [Head.initial 7 m] := by
  rcases Nat.lt_or_ge m 20 with hlt | hge
  · have hform : ∀ m < 20, (UInt64.ofNat m).toUInt8 < 20 ∧
        [Head.initial 7 m] = (simple (UInt64.ofNat m).toUInt8).write := by decide
    rw [ofSimple_of_lt hlt] at h
    cases h
    exact ⟨.inl (hform m hlt).1, (hform m hlt).2⟩
  · obtain rfl | rfl | rfl | rfl : m = 20 ∨ m = 21 ∨ m = 22 ∨ m = 23 := by omega
    all_goals
      cases h
      rfl

theorem form_of_ofSimple_wide {minor width : Nat} {digits : Octets} {l : Lexeme}
    (hw : (minor, width) ∈ [(24, 1), (25, 2), (26, 4), (27, 8)]) (hl : digits.length = width)
    (h : ofSimple minor (.ofNat (Octets.toNat digits)) = .ok l) :
    l.Form (Head.initial 7 minor :: digits) := by
  have hlt := Octets.toNat_lt (Nat.le_of_eq hl)
  have hd := Octets.ofNat_toNat hl
  simp only [List.mem_cons, List.not_mem_nil, or_false, Prod.mk.injEq] at hw
  generalize Octets.toNat digits = n at h hlt hd
  subst hd
  rcases hw with ⟨rfl, rfl⟩ | ⟨rfl, rfl⟩ | ⟨rfl, rfl⟩ | ⟨rfl, rfl⟩
  · rw [ofSimple] at h
    split at h
    case isTrue => cases h
    case isFalse h32 =>
      cases h
      have hn : n < 256 := hlt
      have hsize : n < UInt64.size := Nat.lt_trans hn (by decide)
      rw [UInt64.lt_iff_toNat_lt, UInt64.toNat_ofNat_of_lt' hsize] at h32
      have hn8 : (UInt64.ofNat n).toUInt8.toNat = n := by
        rw [UInt64.toNat_toUInt8, UInt64.toNat_ofNat']
        omega
      have hle : 32 ≤ (UInt64.ofNat n).toUInt8 :=
        UInt8.le_iff_toNat_le.2 (hn8.symm ▸ Nat.not_lt.1 h32)
      have h24 : ¬ (UInt64.ofNat n).toUInt8 < 24 := by
        rw [UInt8.lt_iff_toNat_lt, hn8]
        exact fun h ↦ h32 (Nat.lt_trans h (by decide))
      have hb : Octets.ofNat 1 n = [(UInt64.ofNat n).toUInt8] := by
        simp [Octets.ofNat]
      exact ⟨.inr hle, by rw [write, if_neg h24, hb]; rfl⟩
  · have hn : (UInt64.ofNat n).toUInt16.toNat = n := by
      rw [UInt64.toNat_toUInt16, UInt64.toNat_ofNat']
      have : n < 65536 := hlt
      omega
    cases h
    exact congrArg (0xF9 :: Octets.ofNat 2 ·) hn.symm
  · have hn : (UInt64.ofNat n).toUInt32.toNat = n := by
      rw [UInt64.toNat_toUInt32, UInt64.toNat_ofNat']
      have : n < 4294967296 := hlt
      omega
    cases h
    exact congrArg (0xFA :: Octets.ofNat 4 ·) hn.symm
  · have hn : (UInt64.ofNat n).toNat = n := UInt64.toNat_ofNat_of_lt' hlt
    cases h
    exact congrArg (0xFB :: Octets.ofNat 8 ·) hn.symm

theorem form_of_indefinite? {major : Nat} {l : Lexeme} (h : indefinite? major = some l) :
    l.Form [Head.initial major 31] := by
  unfold indefinite? at h
  split at h
  case h_6 => cases h
  all_goals
    cases h
    rfl

theorem form_of_ofHead {maxSize major minor width : Nat} {b rest left : Octets} {n : UInt64}
    {l : Lexeme} (hm : major < 8) (hw : Head.argumentWidth? minor = some width)
    (ha : Head.argument? minor width b = some (n, rest))
    (h : ofHead maxSize major minor n rest = .ok (.ready l left)) :
    ∃ used, b = used ++ left ∧ l.Form (Head.initial major minor :: used) := by
  obtain ⟨digits, rfl, hd⟩ : ∃ digits, b = digits ++ rest ∧
      Head.Form major n.toNat (Head.initial major minor :: digits) := form_of_argument? hw ha
  unfold ofHead at h
  split at h
  case h_1 | h_2 | h_7 =>
    cases h
    exact ⟨digits, rfl, hd⟩
  case h_3 | h_4 =>
    obtain ⟨p, rfl, rfl, hp⟩ := form_of_readString hd h
    exact ⟨digits ++ p, (List.append_assoc ..).symm, _, hp, rfl⟩
  case h_5 | h_6 =>
    obtain ⟨_, _, h⟩ := bind_eq_ok.1 h
    cases h
    exact ⟨digits, rfl, hd⟩
  case h_8 =>
    obtain rfl : major = 7 := by grind
    obtain ⟨_, hs, h⟩ := bind_eq_ok.1 h
    cases h
    rcases Head.argument?_eq_some ha with ⟨hlt, rfl, hb⟩ | ⟨hge, used, hl, rfl, hb⟩
    · exact ⟨[], hb, form_of_ofSimple_short hlt hs⟩
    · have hmem := (Head.mem_of_argumentWidth? hw).resolve_left hge
      exact ⟨used, hb, form_of_ofSimple_wide hmem hl hs⟩

theorem form_of_read {maxSize : Nat} {b rest : Octets} {l : Lexeme}
    (h : read maxSize b = .ok (.ready l rest)) : ∃ used, b = used ++ rest ∧ l.Form used := by
  cases b with
  | nil => cases h
  | cons x b =>
    have hx := Head.initial_div_mod x
    have hx8 : x.toNat / 32 < 8 := by
      have := x.toNat_lt
      omega
    simp only [read] at h
    generalize x.toNat / 32 = major at h hx hx8
    generalize x.toNat % 32 = minor at h hx
    subst hx
    split at h
    case isTrue hm =>
      subst hm
      cases hi : indefinite? major with
      | none =>
        rw [hi] at h
        cases h
      | some found =>
        rw [hi] at h
        cases h
        exact ⟨[Head.initial major 31], rfl, form_of_indefinite? hi⟩
    case isFalse =>
      cases hw : Head.argumentWidth? minor with
      | none =>
        simp only [hw] at h
        cases h
      | some width =>
        simp only [hw] at h
        cases ha : Head.argument? minor width b with
        | none =>
          simp only [ha] at h
          cases h
        | some found =>
          simp only [ha] at h
          obtain ⟨digits, rfl, hd⟩ := form_of_ofHead hx8 hw ha h
          exact ⟨Head.initial major minor :: digits, rfl, hd⟩

end Lexeme

namespace Wire

inductive Spelling : List Lexeme → Octets → Prop
  | nil : Spelling [] []
  | cons {l : Lexeme} {ls : List Lexeme} {b c : Octets} (h : l.Form b) (hs : Spelling ls c) :
    Spelling (l :: ls) (b ++ c)

/-- The octet strings that stand for a tree. -/
def Spelled (w : Wire) (b : Octets) : Prop := Spelling w.lexemes b

namespace Spelling

variable {ls : List Lexeme} {b : Octets}

theorem length_spell_le (h : Spelling ls b) : (spell ls).length ≤ b.length := by
  induction h with
  | nil => exact Nat.le_refl _
  | cons h _ ih =>
    simp only [spell_cons, List.length_append]
    exact Nat.add_le_add h.length_write_le ih

theorem isEmpty_eq (h : Spelling ls b) : b.isEmpty = ls.isEmpty := by
  cases h with
  | nil => rfl
  | @cons l ls b c h hs =>
    have hl := List.length_pos_iff.2 l.write_ne_nil
    have hb : b ≠ [] := List.length_pos_iff.1 (Nat.lt_of_lt_of_le hl h.length_write_le)
    simp [hb]

theorem of_fits {n : Nat} (hf : ∀ l ∈ ls, l.Fits n) (hn : n < UInt64.size) :
    Spelling ls (spell ls) := by
  induction ls with
  | nil => exact .nil
  | cons l ls ih =>
    rw [spell_cons]
    exact .cons (Lexeme.form_write (hf l List.mem_cons_self) hn)
      (ih fun m hm ↦ hf m (List.mem_cons_of_mem _ hm))

end Spelling

/-- No size that a tree declares is beyond the length of any octets that stand for it. -/
theorem Spelled.fits {w : Wire} {b : Octets} {n : Nat} (h : w.Spelled b) (hn : b.length ≤ n) :
    ∀ l ∈ w.lexemes, l.Fits n :=
  fits_of_mem w (Nat.le_trans h.length_spell_le hn)

end Wire
end Cbor
