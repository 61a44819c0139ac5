import Mathlib.Data.List.DropRight
import Cbor.Diagnostic.Render
import Cbor.Proofs.Text.Numeral

namespace Cbor.Diagnostic

def IsAsciiControl (c : Char) : Prop := c.toNat < 0x20 ∨ c.toNat = 0x7F

/-- C1 controls, marks that change the direction of the text, and separators of lines and of
paragraphs. -/
def IsHidden (c : Char) : Prop :=
  (0x80 ≤ c.toNat ∧ c.toNat ≤ 0x9F) ∨
    (c.toNat = 0x61C ∨ c.toNat = 0x200E ∨ c.toNat = 0x200F ∨
      (0x202A ≤ c.toNat ∧ c.toNat ≤ 0x202E) ∨ (0x2066 ≤ c.toNat ∧ c.toNat ≤ 0x2069)) ∨
    (c.toNat = 0x2028 ∨ c.toNat = 0x2029)

def IsVisible (c : Char) : Prop := ¬IsAsciiControl c ∧ ¬IsHidden c

instance : DecidablePred IsVisible := fun _ ↦
  inferInstanceAs (Decidable (¬(_ ∨ _) ∧ ¬(_ ∧ _ ∨ (_ ∨ _ ∨ _ ∨ _ ∧ _ ∨ _ ∧ _) ∨ (_ ∨ _))))

def Visible (s : List Char) : Prop := ∀ c ∈ s, IsVisible c

instance : DecidablePred Visible := List.decidableBAll IsVisible

def Indent.controls : Indent → List Char
  | .none => []
  | .spaces _ => ['\n']
  | .tab => ['\n', '\t']

/-- What is not visible belongs to the indentation: it is a line feed, or a tab that has nothing but
tabs before it on its line. -/
structure Printable (indent : Indent) (text : List Char) : Prop where
  visible : ∀ c ∈ text, IsVisible c ∨ c ∈ indent.controls
  indents : ∀ before after, text = before ++ '\t' :: after →
    ∃ lines n, before = lines ++ '\n' :: List.replicate n '\t'

variable {indent : Indent} {s t : List Char}

theorem Visible.nil : Visible [] := nofun

theorem Visible.append (hs : Visible s) (ht : Visible t) : Visible (s ++ t) :=
  fun c hc ↦ (List.mem_append.1 hc).elim (hs c) (ht c)

theorem Visible.cons {c : Char} (hc : IsVisible c) (hs : Visible s) : Visible (c :: s) :=
  List.forall_mem_cons.2 ⟨hc, hs⟩

theorem Visible.of_subset (ht : Visible t) (h : s ⊆ t) : Visible s := fun c hc ↦ ht c (h hc)

theorem Visible.replicate {c : Char} (h : IsVisible c) (n : Nat) :
    Visible (List.replicate n c) :=
  fun _ hd ↦ List.eq_of_mem_replicate hd ▸ h

theorem Visible.printable (h : Visible s) : Printable indent s where
  visible c hc := .inl (h c hc)
  indents before after hb :=
    absurd (h '\t' (hb ▸ List.mem_append_right _ List.mem_cons_self)) (by decide)

namespace Printable

theorem append (hs : Printable indent s) (ht : Printable indent t) :
    Printable indent (s ++ t) where
  visible c hc := (List.mem_append.1 hc).elim (hs.visible c) (ht.visible c)
  indents before after hb := by
    rcases List.append_eq_append_iff.1 hb with ⟨u, rfl, rfl⟩ | ⟨u, rfl, hu⟩
    · obtain ⟨lines, n, rfl⟩ := ht.indents u after rfl
      exact ⟨s ++ lines, n, (List.append_assoc ..).symm⟩
    · cases u with
      | nil =>
        -- the second text cannot begin with a tab
        obtain ⟨lines, n, hn⟩ := ht.indents [] after hu.symm
        simp at hn
      | cons c u =>
        obtain ⟨rfl, -⟩ := List.cons.inj hu
        exact hs.indents before u rfl

theorem of_prefix (h : Printable indent t) (hs : s <+: t) : Printable indent s where
  visible c hc := h.visible c (hs.subset hc)
  indents before after hb := by
    obtain ⟨u, rfl⟩ := hs
    exact h.indents before (after ++ u) (by simp [hb])

theorem newLine_spaces (count : UInt8) (width : Nat) :
    Printable (.spaces count) ('\n' :: List.replicate width ' ') := by
  have hbreak : Printable (.spaces count) ['\n'] :=
    ⟨fun c hc ↦ .inr hc, by simp [List.singleton_eq_append_iff]⟩
  have hspaces : Visible (List.replicate width ' ') := .replicate (by decide) width
  exact hbreak.append hspaces.printable

theorem newLine_tabs (width : Nat) : Printable .tab ('\n' :: List.replicate width '\t') where
  visible c hc := .inr (by
    rcases List.mem_cons.1 hc with rfl | hc
    · exact List.mem_cons_self
    · exact List.eq_of_mem_replicate hc ▸ List.mem_cons_of_mem _ List.mem_cons_self)
  indents before after hb := by
    cases before with
    | nil => cases hb
    | cons c before =>
      obtain ⟨rfl, htabs⟩ := List.cons.inj hb
      obtain ⟨-, hb, -⟩ := List.append_eq_replicate_iff.1 htabs.symm
      exact ⟨[], before.length, congrArg _ hb⟩

end Printable

theorem Style.printable_lineBreak (s : Style) (width : Nat) (space : Bool) :
    Printable s.indent (s.lineBreak width space) := by
  unfold Style.lineBreak Indent.unit?
  cases s.indent with
  | none =>
    refine Visible.printable ?_
    dsimp only
    split <;> decide
  | spaces count => exact Printable.newLine_spaces count width
  | tab => exact Printable.newLine_tabs width

theorem prefix_popWhile (p : Char → Bool) (a : Array Char) :
    (a.popWhile p).toList <+: a.toList := by
  obtain ⟨s⟩ := a
  rw [List.popWhile_toArray]
  exact List.rdropWhile_prefix p s

theorem visible_of_ascii {c : Char} (hl : 0x20 ≤ c.toNat) (hh : c.toNat < 0x7F) : IsVisible c := by
  unfold IsVisible IsAsciiControl IsHidden
  omega

theorem visible_of_isDigit {c : Char} (h : c.isDigit = true) : IsVisible c := by
  obtain ⟨hl, hh⟩ := Char.isDigit_iff_toNat.1 h
  exact visible_of_ascii (Nat.le_trans (by decide) hl) (Nat.lt_of_le_of_lt hh (by decide))

theorem visible_digitChar : ∀ n < 16, IsVisible (Nat.digitChar n) := by decide

theorem visible_hexPair (x : UInt8) : Visible (Octets.hexPair x) := by
  have hx := x.toNat_lt
  exact .cons (visible_digitChar _ (by omega)) (.cons (visible_digitChar _ (by omega)) .nil)

theorem visible_hex (b : Octets) : Visible (Octets.hex b) := by
  intro c hc
  obtain ⟨x, -, hx⟩ := List.mem_flatMap.1 hc
  exact visible_hexPair x c hx

theorem visible_toDigits (n : Nat) : Visible (Nat.toDigits 16 n) := by
  induction n using Nat.strongRecOn with
  | ind n ih =>
    by_cases hn : n < 16
    · rw [Nat.toDigits_of_lt_base hn]
      exact .cons (visible_digitChar n hn) .nil
    · rw [Nat.toDigits_of_base_le (by decide) (Nat.not_lt.1 hn)]
      exact (ih (n / 16) (by omega)).append
        (.cons (visible_digitChar _ (Nat.mod_lt n (by decide))) .nil)

theorem visible_unicodeEscape (c : Char) : Visible (unicodeEscape c) :=
  .cons (by decide) (.cons (by decide)
    ((Visible.replicate (by decide) _).append (visible_toDigits c.toNat)))

theorem visible_switch (inText toText : Bool) : Visible (switch inText toText) := by
  cases inText <;> cases toText <;> decide

theorem visible_escape {c e : Char} (h : escape? c = some e) : IsVisible e := by
  unfold escape? at h
  split at h
  case h_1 hn | h_2 hn =>
    cases h
    exact visible_of_ascii (by omega) (by omega)
  case h_8 => cases h
  all_goals
    cases h
    decide

theorem visible_charForm (inText nextIsControl : Bool) (c : Char) :
    Visible (charForm inText nextIsControl c).2 := by
  unfold charForm
  split
  · exact visible_hexPair _
  split
  · exact .cons (by decide) (.cons (visible_escape ‹_›) .nil)
  split
  · split
    · exact visible_hexPair _
    · exact visible_unicodeEscape c
  split
  · exact visible_unicodeEscape c
  · -- the character stands for itself
    rename_i hcontrol hinvisible
    refine Visible.cons ?_ .nil
    simp only [isControl, isInvisible, Bool.or_eq_true, Bool.and_eq_true, decide_eq_true_eq]
      at hcontrol hinvisible
    unfold IsVisible IsAsciiControl IsHidden
    omega

theorem visible_textPieces {done : Array Char} (h : Visible done.toList) (inText : Bool)
    (ps : List Utf8.Piece) : Visible (textPieces done inText ps).toList := by
  induction ps generalizing done inText with
  | nil =>
    rw [textPieces, Array.toList_push]
    exact h.append (by cases inText <;> decide)
  | cons piece ps ih =>
    cases piece with
    | char c =>
      refine ih ?_ _
      rw [Array.toList_appendList, Array.toList_appendList]
      exact (h.append (visible_switch _ _)).append (visible_charForm _ _ c)
    | junk junk =>
      refine ih ?_ _
      rw [Array.toList_appendList, Array.toList_appendList]
      exact (h.append (visible_switch _ _)).append (visible_hex junk)

theorem visible_textLiteral (b : Octets) : Visible (textLiteral b) :=
  visible_textPieces (by decide) true _

namespace Style

variable (s : Style)

theorem printable_byteGap (width offset : Nat) :
    Printable s.indent (s.byteGap width offset).1 := by
  unfold byteGap
  split
  · have hclose : Visible [quote] := by decide
    have hopen : Visible ['h', quote] := by decide
    exact (hclose.printable.append (s.printable_lineBreak width true)).append hopen.printable
  split
  · exact Visible.nil.printable
  · refine Visible.printable fun c hc ↦ ?_
    obtain ⟨shift, -, hc⟩ := List.mem_filterMap.1 hc
    split at hc <;> cases hc
    decide

theorem printable_byteDigits (width : Nat) {done : Array Char}
    (h : Printable s.indent done.toList) (offset : Nat) (b : Octets) :
    Printable s.indent (s.byteDigits width done offset b).toList := by
  induction b generalizing done offset with
  | nil => exact h
  | cons x b ih =>
    refine ih ?_ _
    rw [Array.toList_appendList, Array.toList_appendList]
    exact (h.append (s.printable_byteGap width offset)).append (visible_hexPair x).printable

theorem printable_bytesLiteral (width : Nat) (b : Octets) :
    Printable s.indent (s.bytesLiteral width b) := by
  have hopen : Visible ['h', quote] := by decide
  have hclose : Visible [quote] := by decide
  rw [bytesLiteral, Array.toList_push]
  exact (s.printable_byteDigits width hopen.printable 0 b).append hclose.printable

end Style

theorem visible_ofNat (n : Nat) : Visible (Numeral.ofNat n) :=
  fun c hc ↦ visible_of_isDigit (Numeral.isDigit_of_mem_ofNat c hc)

theorem visible_ofInt (n : Int) : Visible (Numeral.ofInt n) := by
  cases n with
  | ofNat n => exact visible_ofNat n
  | negSucc n => exact .cons (by decide) (visible_ofNat _)

theorem visible_plain (d : Binary.Decimal) : Visible (Binary.Layout.plain d) := by
  have hdigits : Visible d.digits := visible_ofNat d.coefficient
  unfold Binary.Layout.plain
  dsimp only
  split
  · exact (hdigits.append (.replicate (by decide) _)).append (by decide)
  split
  · exact (hdigits.of_subset (List.take_subset ..)).append
      (.cons (by decide) (hdigits.of_subset (List.drop_subset ..)))
  · exact .cons (by decide) (.cons (by decide) ((Visible.replicate (by decide) _).append hdigits))

theorem visible_scientific (l : Binary.Layout) (d : Binary.Decimal) :
    Visible (l.scientific d) := by
  have hdigits : Visible d.digits := visible_ofNat d.coefficient
  have hfirst : Visible (d.digits.take 1) := hdigits.of_subset (List.take_subset ..)
  have hrest : Visible (d.digits.drop 1) := hdigits.of_subset (List.drop_subset ..)
  have hsign : IsVisible (if d.order < 0 then '-' else '+') := by split <;> decide
  unfold Binary.Layout.scientific
  rw [List.splitAt_eq]
  refine (hfirst.append ?_).append
    (.cons (by decide) (.cons hsign (visible_ofNat d.order.natAbs)))
  split
  · exact .cons (by decide) hrest
  · split <;> decide

theorem visible_finite (l : Binary.Layout) (f : Binary.Format) (bits : Nat) :
    Visible (l.finite f bits) := by
  have hdecimal (d : Binary.Decimal) : Visible (l.decimal d) := by
    unfold Binary.Layout.decimal
    split
    · exact visible_plain d
    · exact visible_scientific l d
  have htext : Visible (if f.magnitude bits = 0 then ['0', '.', '0']
      else l.decimal (f.shortest l.tie (f.magnitude bits))) := by
    split
    · decide
    · exact hdecimal _
  unfold Binary.Layout.finite
  dsimp only
  split
  · exact .cons (by decide) htext
  · exact htext

theorem visible_floatLiteral (f : Binary.Format) (bits : Nat) {width : Char}
    (h : width.isDigit = true) : Visible (floatLiteral f bits width) := by
  have hend : Visible ['_', width] := .cons (by decide) (.cons (visible_of_isDigit h) .nil)
  refine Visible.append ?_ hend
  split
  · decide
  split
  · exact visible_finite _ f bits
  split <;> decide

end Cbor.Diagnostic
