import Cbor.Proofs.Wire.Spelling

namespace Cbor

namespace Head

variable {major n : Nat} {h b rest : Octets}

/-- Takes a head off the front of the input: its major type and argument, and what follows. -/
def parse? : Octets → Option (Nat × UInt64 × Octets)
  | [] => none
  | x :: b => do
    let width ← argumentWidth? (x.toNat % 32)
    let (n, rest) ← argument? (x.toNat % 32) width b
    return (x.toNat / 32, n, rest)

theorem parse?_initial {minor width : Nat} {n : UInt64} (hm : major < 8)
    (hw : argumentWidth? minor = some width) (ha : argument? minor width b = some (n, rest)) :
    parse? (initial major minor :: b) = some (major, n, rest) := by
  have hlt : minor < 32 := by
    unfold argumentWidth? at hw
    split at hw
    case h_5 => split at hw <;> first | omega | cases hw
    all_goals omega
  have hx := toNat_initial hm hlt
  have hd : (initial major minor).toNat / 32 = major := by omega
  have hr : (initial major minor).toNat % 32 = minor := by omega
  simp only [parse?, hd, hr, hw, ha, Option.bind_eq_bind, Option.bind_some, Option.pure_def]

theorem Form.parse? (hf : Form major n h) (hm : major < 8) (rest : Octets) :
    parse? (h ++ rest) = some (major, .ofNat n, rest) := by
  cases hf with
  | short hn =>
    refine parse?_initial hm (argumentWidth?_of_lt hn) ?_
    simp [argument?, hn]
  | wide hw hn =>
    obtain ⟨hwidth, hminor⟩ := argumentWidth?_of_mem hw
    exact parse?_initial hm hwidth (argument?_ofNat rest hminor hn)

theorem form_of_parse? {n : UInt64} (hp : Head.parse? b = some (major, n, rest)) :
    ∃ h, b = h ++ rest ∧ Form major n.toNat h := by
  cases b with
  | nil => cases hp
  | cons x b =>
    simp only [Head.parse?, Option.bind_eq_bind, Option.pure_def, Option.bind_eq_some_iff,
      Option.some.injEq, Prod.mk.injEq, Prod.exists] at hp
    obtain ⟨width, hw, m, left, ha, rfl, rfl, rfl⟩ := hp
    have hform : ∃ digits, b = digits ++ left ∧
        Form (x.toNat / 32) m.toNat (initial (x.toNat / 32) (x.toNat % 32) :: digits) :=
      form_of_argument? hw ha
    obtain ⟨digits, rfl, hd⟩ := hform
    rw [initial_div_mod] at hd
    exact ⟨x :: digits, rfl, hd⟩

end Head

namespace Lexeme

variable {major maxSize : Nat} {n : UInt64} {b rest : Octets} {l : Lexeme}

def head? : Lexeme → Option (Nat × UInt64)
  | unsigned n => some (0, n)
  | negative n => some (1, n)
  | bytes b => some (2, .ofNat b.length)
  | text b => some (3, .ofNat b.length)
  | array (some n) => some (4, n)
  | map (some n) => some (5, n)
  | tag n => some (6, n)
  | _ => none

def payload : Lexeme → Octets
  | bytes b | text b => b
  | _ => []

/-- How many octets follow a head of major type `major` and argument `n` in its lexeme. -/
def payloadLength (major : Nat) (n : UInt64) : Nat :=
  if major = 2 ∨ major = 3 then n.toNat else 0

/-- Strings, arrays and maps: the argument of the head declares a size. -/
def DeclaresSize (major : Nat) : Prop := 2 ≤ major ∧ major ≤ 5

theorem read_of_parse? (hm : major ≤ 6) (hp : Head.parse? b = some (major, n, rest))
    (maxSize : Nat) : read maxSize b = ofHead maxSize major 0 n rest := by
  obtain ⟨h, rfl, hf⟩ := Head.form_of_parse? hp
  rw [read_of_headForm hf hm, UInt64.ofNat_toNat]

theorem ofHead_oversized (hd : DeclaresSize major) (hn : maxSize < n.toNat) (minor : Nat) :
    ofHead maxSize major minor n rest = .error .unsupportedSize := by
  have hcheck : checkSize maxSize n.toNat = .error .unsupportedSize := if_neg (Nat.not_le.2 hn)
  obtain ⟨hl, hh⟩ := hd
  obtain rfl | rfl | rfl | rfl : major = 2 ∨ major = 3 ∨ major = 4 ∨ major = 5 := by omega
  all_goals simp only [ofHead, readString, hcheck, error_bind]

theorem ofHead_ready (hm : major ≤ 6) (hn : DeclaresSize major → n.toNat ≤ maxSize) (minor : Nat)
    {payload : Octets} (hp : payload.length = payloadLength major n) (rest : Octets) :
    ∃ l, ofHead maxSize major minor n (payload ++ rest) = .ok (.ready l rest) ∧
      l.head? = some (major, n) ∧ l.payload = payload := by
  have hcheck (hd : DeclaresSize major) : checkSize maxSize n.toNat = .ok () := if_pos (hn hd)
  have hstring (make : Octets → Lexeme) (hd : DeclaresSize major) (hl : payload.length = n.toNat) :
      readString maxSize make n (payload ++ rest) = .ok (.ready (make payload) rest) := by
    rw [readString, hcheck hd, ok_bind, List.splitAt_eq, List.take_left' hl, List.drop_left' hl]
    exact if_pos hl
  have hlength (hl : payload.length = n.toNat) : UInt64.ofNat payload.length = n := by
    rw [hl, UInt64.ofNat_toNat]
  obtain rfl | rfl | hc | hb : major = 2 ∨ major = 3 ∨ (major = 4 ∨ major = 5) ∨
      major = 0 ∨ major = 1 ∨ major = 6 := by omega
  · refine ⟨bytes payload, hstring bytes ⟨by decide, by decide⟩ hp, ?_, rfl⟩
    rw [head?, hlength hp]
  · refine ⟨text payload, hstring text ⟨by decide, by decide⟩ hp, ?_, rfl⟩
    rw [head?, hlength hp]
  · have hd : DeclaresSize major := ⟨by omega, by omega⟩
    rcases hc with rfl | rfl
    all_goals
      obtain rfl : payload = [] := List.length_eq_zero_iff.1 hp
      simp only [ofHead, hcheck hd, ok_bind]
      exact ⟨_, rfl, rfl, rfl⟩
  · rcases hb with rfl | rfl | rfl
    all_goals
      obtain rfl : payload = [] := List.length_eq_zero_iff.1 hp
      exact ⟨_, rfl, rfl, rfl⟩

theorem ofHead_needContent (hm : major = 2 ∨ major = 3) (hn : n.toNat ≤ maxSize) (minor : Nat)
    (hr : rest.length < n.toNat) : ofHead maxSize major minor n rest = .ok .needContent := by
  have hcheck : checkSize maxSize n.toNat = .ok () := if_pos hn
  have htake : ¬ (rest.take n.toNat).length = n.toNat := by
    rw [List.length_take]
    omega
  have hstring (make : Octets → Lexeme) : readString maxSize make n rest = .ok .needContent := by
    rw [readString, hcheck, ok_bind, List.splitAt_eq]
    exact if_neg htake
  rcases hm with rfl | rfl
  · exact hstring bytes
  · exact hstring text

theorem parse?_of_read (h : read maxSize b = .ok (.ready l rest))
    (hl : l.head? = some (major, n)) : Head.parse? b = some (major, n, l.payload ++ rest) := by
  obtain ⟨used, rfl, hf⟩ := form_of_read h
  have hparse {major m : Nat} {d : Octets} (hd : Head.Form major m d) (hm : major < 8) :=
    hd.parse? hm (l.payload ++ rest)
  cases l with
  | unsigned n | negative n | tag n =>
    cases hl
    have hp := hparse hf (by decide)
    rwa [UInt64.ofNat_toNat] at hp
  | bytes p | text p =>
    cases hl
    obtain ⟨d, hd, rfl⟩ := hf
    rw [List.append_assoc]
    exact hparse hd (by decide)
  | array count | map count =>
    cases count with
    | none => cases hl
    | some n =>
      cases hl
      have hp := hparse hf (by decide)
      rwa [UInt64.ofNat_toNat] at hp
  | _ => cases hl

/-- The head that writing chooses is taken for its major type and argument, whatever follows it, and
begins a lexeme with that head if the size that it declares is admitted. No head of the same major
type and argument is shorter. -/
theorem read_write_head {major : Nat} (hm : major ≤ 6) (n : UInt64) (maxSize : Nat) :
    (∀ rest, Head.parse? (Head.write major n ++ rest) = some (major, n, rest)) ∧
    (∀ payload rest, payload.length = payloadLength major n →
      (DeclaresSize major → n.toNat ≤ maxSize) →
      ∃ l, read maxSize (Head.write major n ++ (payload ++ rest)) = .ok (.ready l rest) ∧
        l.head? = some (major, n) ∧ l.payload = payload) ∧
    (∀ rest, DeclaresSize major → maxSize < n.toNat →
      read maxSize (Head.write major n ++ rest) = .error .unsupportedSize) ∧
    (∀ rest, rest.length < payloadLength major n → n.toNat ≤ maxSize →
      read maxSize (Head.write major n ++ rest) = .ok .needContent) ∧
    (∀ b rest, Head.parse? b = some (major, n, rest) →
      ∃ h, b = h ++ rest ∧ (Head.write major n).length ≤ h.length) ∧
    ∀ b l rest, read maxSize b = .ok (.ready l rest) → l.head? = some (major, n) →
      ∃ h, b = h ++ (l.payload ++ rest) ∧ (Head.write major n).length ≤ h.length := by
  have hparse (rest : Octets) : Head.parse? (Head.write major n ++ rest) = some (major, n, rest) := by
    have hp := (Head.form_write major n).parse? (Nat.lt_of_le_of_lt hm (by decide)) rest
    rwa [UInt64.ofNat_toNat] at hp
  have hread (rest : Octets) : read maxSize (Head.write major n ++ rest) =
      ofHead maxSize major 0 n rest := read_of_parse? hm (hparse rest) maxSize
  have hleast {b rest : Octets} (hp : Head.parse? b = some (major, n, rest)) :
      ∃ h, b = h ++ rest ∧ (Head.write major n).length ≤ h.length := by
    obtain ⟨h, rfl, hf⟩ := Head.form_of_parse? hp
    have hle := hf.length_write_le
    rw [UInt64.ofNat_toNat] at hle
    exact ⟨h, rfl, hle⟩
  refine ⟨hparse, fun payload rest hp hn ↦ ?_, fun rest hd hn ↦ ?_, fun rest hr hn ↦ ?_,
    fun b rest ↦ hleast, fun b l rest h hl ↦ hleast (parse?_of_read h hl)⟩
  · rw [hread]
    exact ofHead_ready hm hn 0 hp rest
  · rw [hread]
    exact ofHead_oversized hd hn 0
  · rw [hread]
    unfold payloadLength at hr
    split at hr
    · exact ofHead_needContent ‹_› hn 0 hr
    · cases hr

/-- A string of three octets, of which the head needs one octet and may take nine. -/
theorem read_write_head_string :
    let long : Octets := [0x5B, 0, 0, 0, 0, 0, 0, 0, 3, 7, 8, 9]
    2 ≤ 6 ∧ (∃ l, read 3 (Head.write 2 3 ++ ([7, 8, 9] ++ [0xFF])) = .ok (.ready l [0xFF]) ∧
      l.head? = some (2, 3) ∧ l.payload = [7, 8, 9]) ∧
    read 3 long = .ok (.ready (bytes [7, 8, 9]) []) ∧
    ∃ h, long = h ++ [7, 8, 9] ∧ (Head.write 2 3).length ≤ h.length := by
  intro long
  have hm : 2 ≤ 6 := by decide
  obtain ⟨-, hready, -, -, -, hleast⟩ := read_write_head hm 3 3
  have hlong : read 3 long = .ok (.ready (bytes [7, 8, 9]) []) := rfl
  exact ⟨hm, hready [7, 8, 9] [0xFF] rfl fun _ ↦ by decide, hlong, hleast long _ [] hlong rfl⟩

/-- It is not for strings alone that the size must be admitted: the head of an array of more items
than may be read is complete, and no lexeme begins with it. -/
theorem read_write_array_oversized :
    ¬ ∀ (major : Nat) (n : UInt64) (payload rest : Octets), major ≤ 6 →
      payload.length = payloadLength major n → (major = 2 ∨ major = 3 → n.toNat ≤ 16777216) →
      ∃ l, read 16777216 (Head.write major n ++ (payload ++ rest)) = .ok (.ready l rest) ∧
        l.head? = some (major, n) ∧ l.payload = payload := by
  intro h
  obtain ⟨l, hl, -⟩ := h 4 0xFFFFFFFFFFFFFFFF [] [] (by decide) rfl (by decide)
  cases hl

end Lexeme
end Cbor
