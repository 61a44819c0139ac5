import Cbor.Wire.Lexeme
import Cbor.Proofs.Outcome

namespace Cbor

namespace Head

theorem toNat_initial {major minor : Nat} (hm : major < 8) (hn : minor < 32) :
    (initial major minor).toNat = major * 32 + minor := by
  rw [initial, UInt8.toNat_ofNat']
  omega

theorem argument?_ofNat {minor width : Nat} {n : Nat} (b : Octets) (hm : ¬ minor < 24)
    (hn : n < Nat.pow 256 width) :
    argument? minor width (Octets.ofNat width n ++ b) = some (.ofNat n, b) := by
  have ht : (Octets.ofNat width n ++ b).take width = Octets.ofNat width n :=
    List.take_left' (Octets.length_ofNat width n)
  have hd : (Octets.ofNat width n ++ b).drop width = b :=
    List.drop_left' (Octets.length_ofNat width n)
  simp [argument?, hm, ht, hd, Octets.toNat_ofNat hn]

theorem argumentWidth?_of_lt {minor : Nat} (h : minor < 24) : argumentWidth? minor = some 0 := by
  unfold argumentWidth?
  split
  case h_5 => exact if_pos h
  all_goals omega

theorem exists_write_eq_cons (major : Nat) (n : UInt64) :
    ∃ minor < 32, ∃ rest, write major n = initial major minor :: rest := by
  simp only [write]
  split
  case isTrue h => exact ⟨_, Nat.lt_trans h (by decide), _, rfl⟩
  case isFalse =>
    repeat' split
    all_goals exact ⟨_, by decide, _, rfl⟩

theorem write_ne_nil (major : Nat) (n : UInt64) : write major n ≠ [] := by
  obtain ⟨minor, -, rest, h⟩ := exists_write_eq_cons major n
  rw [h]
  exact List.cons_ne_nil _ _

theorem major_of_write {major major' : Nat} (hm : major < 8) (hm' : major' < 8) {n n' : UInt64}
    {rest rest' : Octets} (h : write major n ++ rest = write major' n' ++ rest') :
    major = major' := by
  obtain ⟨minor, hlt, _, hw⟩ := exists_write_eq_cons major n
  obtain ⟨minor', hlt', _, hw'⟩ := exists_write_eq_cons major' n'
  rw [hw, hw', List.cons_append, List.cons_append, List.cons.injEq] at h
  have hi := congrArg UInt8.toNat h.1
  rw [toNat_initial hm hlt, toNat_initial hm' hlt'] at hi
  omega

end Head

namespace Lexeme

def write : Lexeme → Octets
  | unsigned n => Head.write 0 n
  | negative n => Head.write 1 n
  | bytes b => Head.write 2 (.ofNat b.length) ++ b
  | text b => Head.write 3 (.ofNat b.length) ++ b
  | bytesStart => [0x5F]
  | textStart => [0x7F]
  | array none => [0x9F]
  | array (some n) => Head.write 4 n
  | map none => [0xBF]
  | map (some n) => Head.write 5 n
  | tag n => Head.write 6 n
  | simple n => if n < 24 then [0xE0 + n] else [0xF8, n]
  | bool b => [if b then 0xF5 else 0xF4]
  | null => [0xF6]
  | undefined => [0xF7]
  | float16 bits => 0xF9 :: Octets.ofNat 2 bits.toNat
  | float32 bits => 0xFA :: Octets.ofNat 4 bits.toNat
  | float64 bits => 0xFB :: Octets.ofNat 8 bits.toNat
  | stop => [0xFF]

/-- The sizes that a lexeme declares are at most `maxSize`, and its simple value has a form. -/
def Fits (maxSize : Nat) : Lexeme → Prop
  | bytes b | text b => b.length ≤ maxSize
  | array (some n) | map (some n) => n.toNat ≤ maxSize
  | simple n => n < 20 ∨ 32 ≤ n
  | _ => True

theorem write_ne_nil (l : Lexeme) : l.write ≠ [] := by
  have h (major n) := Head.write_ne_nil major n
  unfold write
  split
  case h_12 => split <;> simp
  all_goals simp [h]

theorem ofHead_minor {major : Nat} (hm : major ≤ 6) (maxSize minor minor' : Nat) (n : UInt64)
    (b : Octets) : ofHead maxSize major minor n b = ofHead maxSize major minor' n b := by
  match major, hm with
  | 0, _ | 1, _ | 2, _ | 3, _ | 4, _ | 5, _ | 6, _ => rfl

theorem read_initial {major minor width : Nat} {b rest : Octets} {n : UInt64} (maxSize : Nat)
    (hm : major < 8) (hw : Head.argumentWidth? minor = some width)
    (ha : Head.argument? minor width b = some (n, rest)) :
    read maxSize (Head.initial major minor :: b) = ofHead maxSize major minor n rest := by
  have hlt : minor < 28 := by
    unfold Head.argumentWidth? at hw
    split at hw
    case h_5 => split at hw <;> first | omega | cases hw
    all_goals omega
  have hx := Head.toNat_initial hm (Nat.lt_trans hlt (by decide))
  have hd : (Head.initial major minor).toNat / 32 = major := by omega
  have hr : (Head.initial major minor).toNat % 32 = minor := by omega
  have hne : minor ≠ 31 := by omega
  simp only [read, hd, hr, hw, ha, if_neg hne]

theorem readString_ready {maxSize : Nat} (make : Octets → Lexeme) {b : Octets} (c : Octets)
    (hs : b.length ≤ maxSize) (hw : b.length < UInt64.size) :
    readString maxSize make (.ofNat b.length) (b ++ c) = .ok (.ready (make b) c) := by
  have hn : (UInt64.ofNat b.length).toNat = b.length := UInt64.toNat_ofNat_of_lt' hw
  simp [readString, checkSize, hn, hs]

theorem read_special (minor width : Nat) {n : Nat} (maxSize : Nat) (b : Octets)
    (hw : Head.argumentWidth? minor = some width) (hminor : ¬ minor < 24)
    (hn : n < Nat.pow 256 width) :
    read maxSize (Head.initial 7 minor :: Octets.ofNat width n ++ b) =
      (ofSimple minor (.ofNat n)).map fun l ↦ .ready l b := by
  rw [List.cons_append, read_initial maxSize (by decide) hw (Head.argument?_ofNat b hminor hn)]
  simp only [ofHead]
  cases ofSimple minor (.ofNat n) <;> rfl

theorem read_simple {maxSize : Nat} {n : UInt8} (h : n < 20 ∨ 32 ≤ n) (b : Octets) :
    read maxSize ((simple n).write ++ b) = .ok (.ready (simple n) b) := by
  have hn := n.toNat_lt
  rcases h with h | h
  · have hlt : n.toNat < 20 := h
    have hx : 0xE0 + n = Head.initial 7 n.toNat := by
      rw [← UInt8.toNat_inj, Head.toNat_initial (by decide) (by omega), UInt8.toNat_add]
      have : (0xE0 : UInt8).toNat = 224 := rfl
      omega
    have hs : ofSimple n.toNat (.ofNat n.toNat) = .ok (simple n) := by
      unfold ofSimple
      split <;> first | omega | simp
    have h24 : n < 24 := Nat.lt_trans hlt (by decide)
    have ha : Head.argument? n.toNat 0 b = some (.ofNat n.toNat, b) := by
      simp [Head.argument?, show n.toNat < 24 by omega]
    rw [write, if_pos h24, hx, List.cons_append, List.nil_append,
      read_initial maxSize (by decide) (Head.argumentWidth?_of_lt (by omega)) ha]
    simp only [ofHead, hs, ok_bind, pure_eq_ok]
  · have hle : 32 ≤ n.toNat := h
    have h24 : ¬ n < 24 := fun hlt ↦ by
      have : n.toNat < 24 := hlt
      omega
    have h32 : ¬ n.toUInt64 < 32 := fun hlt ↦ by
      have : n.toUInt64.toNat < 32 := hlt
      rw [UInt8.toNat_toUInt64] at this
      omega
    have hs : ofSimple 24 (.ofNat n.toNat) = .ok (simple n) := by
      simp only [ofSimple, UInt64.ofNat_uInt8ToNat, UInt8.toUInt8_toUInt64, if_neg h32]
    have hb : Octets.ofNat 1 n.toNat = [n] := by simp [Octets.ofNat]
    have hr := read_special 24 1 maxSize b rfl (by decide) hn
    rw [hs, hb] at hr
    rw [write, if_neg h24]
    exact hr

end Lexeme
end Cbor
