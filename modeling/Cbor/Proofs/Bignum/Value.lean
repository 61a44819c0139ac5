import Mathlib
import Cbor.Proofs.Number

namespace Cbor

open Encoder (tree bignumTree)
open Encoder.Writing (item)

namespace Octets

theorem toNat_trimZeros (b : Octets) : b.trimZeros.toNat = b.toNat := by
  induction b with
  | nil => rfl
  | cons x b ih =>
    by_cases hx : x = 0
    · subst hx
      exact ih.trans (toNat_zeros_append 1 b).symm
    · rw [trimZeros_eq_self (by simpa using hx)]

theorem eq_of_toNat_eq {b c : Octets} (hb : b.head? ≠ some 0) (hc : c.head? ≠ some 0)
    (h : b.toNat = c.toNat) : b = c := by
  rw [← trimZeros_ofNat_toNat (Nat.le_max_left b.length c.length) hb, h,
    trimZeros_ofNat_toNat (Nat.le_max_right b.length c.length) hc]

theorem lt_pow_log2 (n : Nat) : n < Nat.pow 256 (n.log2 / 8 + 1) := by
  have hpow : Nat.pow 256 (n.log2 / 8 + 1) = 2 ^ (8 * (n.log2 / 8 + 1)) := by
    rw [pow_mul]
    rfl
  rw [hpow]
  exact Nat.lt_of_lt_of_le Nat.lt_log2_self (Nat.pow_le_pow_right (by decide) (by omega))

end Octets

namespace Bignum

/-- What a sign and octets stand for, with zeros in front or without. -/
def valueOf (negative : Bool) (b : Octets) : Int :=
  if negative then -1 - (b.toNat : Int) else b.toNat

theorem toInt_ofOctets (negative : Bool) (b : Octets) :
    (ofOctets negative b).toInt = valueOf negative b := by
  simp only [ofOctets, toInt, valueOf, Octets.toNat_trimZeros]

theorem toInt_inj {b c : Bignum} : b.toInt = c.toInt ↔ b = c := by
  refine ⟨fun h ↦ ?_, congrArg toInt⟩
  obtain ⟨s, m, hm⟩ := b
  obtain ⟨t, n, hn⟩ := c
  simp only [toInt] at h
  -- the value is below zero just if the sign is set
  have hs : s = t := by
    cases s <;> cases t <;> simp only [Bool.false_eq_true, if_false, if_true] at h
    · rfl
    · omega
    · omega
    · rfl
  subst hs
  have hmn : m.toNat = n.toNat := by
    cases s <;> simp only [Bool.false_eq_true, if_false, if_true] at h <;> omega
  obtain rfl := Octets.eq_of_toNat_eq hm hn hmn
  rfl

theorem toInt_ofInt (n : Int) : (ofInt n).toInt = n := by
  cases n with
  | ofNat n =>
    rw [ofInt, toInt_ofOctets, valueOf, if_neg (by decide), Octets.toNat_ofNat
      (Octets.lt_pow_log2 n)]
    rfl
  | negSucc n =>
    rw [ofInt, toInt_ofOctets, valueOf, if_pos rfl, Octets.toNat_ofNat (Octets.lt_pow_log2 n)]
    omega

/-- The complement of a word is again one: the subtraction does not overflow. -/
theorem ssubOverflow_neg_one (n : BitVec 128) : BitVec.ssubOverflow (-1) n = false := by
  have hl := n.le_two_mul_toInt
  have hh := n.two_mul_toInt_lt
  have hone : (-1 : BitVec 128).toInt = -1 := by decide
  simp only [BitVec.ssubOverflow, hone, Bool.or_eq_false_iff, decide_eq_false_iff_not]
  omega

theorem toInt_neg_one_sub (n : BitVec 128) : (-1 - n).toInt = -1 - n.toInt := by
  have hone : (-1 : BitVec 128).toInt = -1 := by decide
  rw [BitVec.toInt_sub_of_not_ssubOverflow (by rw [ssubOverflow_neg_one]; decide), hone]

theorem toInt_eq_toNat_iff (n : BitVec 128) : n.toInt = n.toNat ↔ n.toNat < 2 ^ 127 := by
  rw [BitVec.toInt_eq_toNat_cond]
  have hlt := n.isLt
  split <;> omega

theorem nonneg_iff (n : BitVec 128) : 0 ≤ n.toInt ↔ n.toNat < 2 ^ 127 := by
  rw [BitVec.toInt_eq_toNat_cond]
  have hlt := n.isLt
  split <;> omega

theorem toInt_ofSigned (n : BitVec 128) : (ofSigned n).toInt = n.toInt := by
  have hsixteen (m : BitVec 128) : m.toNat < Nat.pow 256 16 := m.isLt
  have hzero : (0 : BitVec 128).toInt = 0 := by decide
  have hcompl := toInt_neg_one_sub n
  unfold ofSigned
  split
  case isTrue hn =>
    rw [BitVec.slt_iff_toInt_lt, hzero] at hn
    have hnat := (toInt_eq_toNat_iff (-1 - n)).2 ((nonneg_iff _).1 (by omega))
    rw [toInt_ofOctets, valueOf, if_pos rfl, Octets.toNat_ofNat (hsixteen _)]
    omega
  case isFalse hn =>
    rw [BitVec.slt_iff_toInt_lt, hzero] at hn
    have hnat := (toInt_eq_toNat_iff n).2 ((nonneg_iff n).1 (by omega))
    rw [toInt_ofOctets, valueOf, if_neg (by decide), Octets.toNat_ofNat (hsixteen _)]
    omega

theorem ofSigned_eq (n : BitVec 128) : ofSigned n = ofInt n.toInt :=
  toInt_inj.1 ((toInt_ofSigned n).trans (toInt_ofInt _).symm)

theorem bounds_iff (b : Bignum) :
    (-2 ^ 127 ≤ b.toInt ∧ b.toInt < 2 ^ 127) ↔ b.magnitude.toNat < 2 ^ 127 := by
  unfold toInt
  split <;> omega

/-- Filled up or not, sixteen octets are the number that they were. -/
theorem signed?_of_length {b : Bignum} (h : b.magnitude.length ≤ 16) :
    b.signed? = if 2 ^ 127 ≤ b.magnitude.toNat then none
      else some (if b.negative then -1 - .ofNat 128 b.magnitude.toNat
        else .ofNat 128 b.magnitude.toNat) := by
  have hlt : b.magnitude.toNat < 2 ^ 128 := Octets.toNat_lt h
  simp only [signed?, if_neg (Nat.not_lt.2 h), Octets.toNat_zeros_append, BitVec.msb_eq_decide,
    BitVec.toNat_ofNat, Nat.mod_eq_of_lt hlt, decide_eq_true_eq]

theorem exists_signed? {b : Bignum} (h : b.magnitude.toNat < 2 ^ 127) :
    ∃ n, b.signed? = some n ∧ n.toInt = b.toInt := by
  have hlt : b.magnitude.toNat < Nat.pow 256 16 := Nat.lt_trans h (by decide)
  have hm : (BitVec.ofNat 128 b.magnitude.toNat).toNat = b.magnitude.toNat :=
    Nat.mod_eq_of_lt hlt
  have hint := (toInt_eq_toNat_iff (.ofNat 128 b.magnitude.toNat)).2 (by rwa [hm])
  rw [signed?_of_length ((Octets.length_le_iff b.canonical).2 hlt), if_neg (Nat.not_le.2 h)]
  refine ⟨_, rfl, ?_⟩
  unfold toInt
  split
  · rw [toInt_neg_one_sub, hint, hm]
  · rw [hint, hm]

theorem signed?_eq_none {b : Bignum} (h : 2 ^ 127 ≤ b.magnitude.toNat) : b.signed? = none := by
  by_cases hl : b.magnitude.length ≤ 16
  · rw [signed?_of_length hl, if_pos h]
  · exact if_pos (Nat.not_le.1 hl)

theorem signed?_eq_some {b : Bignum} {n : BitVec 128} :
    b.signed? = some n ↔ b.toInt = n.toInt := by
  constructor
  · intro h
    by_cases hb : b.magnitude.toNat < 2 ^ 127
    · obtain ⟨m, hm, hv⟩ := exists_signed? hb
      cases hm.symm.trans h
      exact hv.symm
    · cases (signed?_eq_none (Nat.not_lt.1 hb)).symm.trans h
  · intro h
    have hl := n.le_two_mul_toInt
    have hh := n.two_mul_toInt_lt
    obtain ⟨m, hm, hv⟩ := exists_signed? (b.bounds_iff.1 (by omega))
    rw [hm, BitVec.toInt_inj.1 (hv.trans h)]

theorem toInt128?_eq_some {b : Bignum} {n : Int} :
    b.toInt128? = some n ↔ -2 ^ 127 ≤ b.toInt ∧ b.toInt < 2 ^ 127 ∧ n = b.toInt := by
  simp only [toInt128?, Option.map_eq_some_iff, signed?_eq_some]
  constructor
  · rintro ⟨m, hm, rfl⟩
    have hl := m.le_two_mul_toInt
    have hh := m.two_mul_toInt_lt
    exact ⟨by omega, by omega, hm.symm⟩
  · rintro ⟨hl, hh, rfl⟩
    obtain ⟨m, hm, hv⟩ := exists_signed? (b.bounds_iff.1 ⟨hl, hh⟩)
    exact ⟨m, hv.symm, hv⟩

theorem word?_eq_some {b : Bignum} {w : UInt64} :
    b.word? = some w ↔ b.magnitude.toNat = w.toNat := by
  refine ⟨fun h ↦ (toNat_word h).symm, fun h ↦ ?_⟩
  have hlt := w.toNat_lt
  rw [word?, if_pos (b.length_le_iff.2 (h ▸ hlt)), h, UInt64.ofNat_toNat]

theorem ofBignum?_eq_some {b : Bignum} {i : Item} :
    Item.ofBignum? b = some i ↔ ∃ w : UInt64, (i = .unsigned w ∧ b.toInt = w.toNat) ∨
      (i = .negative w ∧ b.toInt = -1 - w.toNat) := by
  simp only [Item.ofBignum?, Option.map_eq_some_iff, word?_eq_some, toInt]
  refine exists_congr fun w ↦ ?_
  cases b.negative <;> simp only [Bool.false_eq_true, if_false, if_true] <;>
    constructor <;> rintro h
  · exact .inl ⟨h.2.symm, by omega⟩
  · obtain ⟨rfl, h⟩ | ⟨-, h⟩ := h <;> first | exact ⟨by omega, rfl⟩ | omega
  · exact .inr ⟨h.2.symm, by omega⟩
  · obtain ⟨-, h⟩ | ⟨rfl, h⟩ := h <;> first | exact ⟨by omega, rfl⟩ | omega

theorem run_item_of_word {e : Encoder} (hg : e.groups.bignum = true) (asKey : Bool) {b : Bignum}
    (h : b.magnitude.toNat < 2 ^ 64) :
    (item asKey (.bignum b)).run.run e = (item asKey (.ofInt b.toInt)).run.run e := by
  obtain ⟨w, hw⟩ := Option.isSome_iff_exists.1 (b.isSome_word?_iff.2 h)
  have hn : UInt64.ofNat b.magnitude.toNat = w := by
    rw [word?_eq_some.1 hw, UInt64.ofNat_toNat]
  let head : Encoder.Writing Unit := Encoder.Emit.head (if b.negative then 1 else 0) w
  have hword : Encoder.Writing.bignum b = head := by
    rw [Encoder.Writing.bignum, hw]
  have hrun : (item asKey (.bignum b)).run.run e = head.run.run e := by
    rw [item, hword]
    show (liftM (Encoder.Emit.require e.groups.bignum) >>= fun _ ↦ head).run.run e = _
    rw [hg]
    rfl
  rw [hrun, toInt]
  cases hb : b.negative with
  | false => simp only [head, hb, Bool.false_eq_true, if_false, Item.ofInt, item, hn]
  | true =>
    have hi : (-1 - b.magnitude.toNat : Int) = .negSucc b.magnitude.toNat := by omega
    simp only [head, hb, if_true, hi, Item.ofInt, item, hn]

theorem encode_of_word {o : Encoder.Options} (hg : o.groups.bignum = true) {b : Bignum}
    (h : b.magnitude.toNat < 2 ^ 64) : encode (.bignum b) o = encode (.ofInt b.toInt) o := by
  have hemit : (o.encoder o.sink).emit (.bignum b) = (o.encoder o.sink).emit (.ofInt b.toInt) :=
    Encoder.emit_congr fun _ ↦ run_item_of_word hg false h
  rw [encode, encode, Encoder.new_eq, bind_assoc, bind_assoc]
  simp only [ok_bind, hemit]

theorem encode_ofInt {o : Encoder.Options} (hc : o.check = .ok ()) (n : Int) :
    encode (.ofInt n) o = .ok (o.preamble ++ (Scalar.integer n).lexeme.write) := by
  have hv : (Item.ofInt n).NoStringRef := by cases n <;> exact trivial
  have ht : tree o false (.ofInt n) 0 #[] = .ok (.scalar (.integer n), #[]) := by cases n <;> rfl
  rw [encode_scalar hv ht, hc, ok_bind]

theorem encode_ne_ofInt {o : Encoder.Options} (hc : o.check = .ok ()) (hg : o.groups.bignum = true)
    {b : Bignum} (h : 2 ^ 64 ≤ b.magnitude.toNat) (n : Int) :
    encode (.bignum b) o ≠ encode (.ofInt n) o := by
  have hw : b.word? = none :=
    Option.not_isSome_iff_eq_none.1 (mt b.isSome_word?_iff.1 (Nat.not_lt.2 h))
  have hv : (Item.bignum b).NoStringRef := trivial
  let number := if b.negative then Tag.negativeBignum else Tag.positiveBignum
  have hnumber : number ≠ Tag.stringRefNamespace := by
    cases hs : b.negative <;> simp only [number, hs] <;> decide
  have ht : tree o false (.bignum b) 0 #[] = Encoder.checkDepth o 0 >>= fun _ ↦
      .ok (.tag number (.string false b.magnitude), #[]) := by
    simp only [tree, bignumTree, hw, Encoder.checkGroup, hg, if_true, ok_bind, bind_assoc,
      pure_eq_ok, number]
  rw [encode_eq_preamble hv, encode_ofInt hc, hc, ok_bind, ht]
  unfold Encoder.checkDepth
  split
  case isFalse =>
    intro he
    cases he
  case isTrue =>
    rw [ok_bind, map_ok, Wire.referred_tag hnumber, Wire.octets_tag, ne_eq, Except.ok.injEq,
      List.append_right_inj]
    intro he
    obtain ⟨major, hm, w, hw⟩ : ∃ major < 2, ∃ w, (Scalar.integer n).lexeme.write =
        Head.write major w := by
      cases n with
      | ofNat n => exact ⟨0, by decide, _, rfl⟩
      | negSucc n => exact ⟨1, by decide, _, rfl⟩
    rw [hw, ← List.append_nil (Head.write major w)] at he
    have := Head.major_of_write (by decide) (by omega) he
    omega

end Bignum

open Bignum

/-- Bignums, made from a sign and octets or from a word, are equal just if their values are. The word
of 128 bits that a bignum becomes is the value, there is one just if the value fits, and the
complement that stands for a negative value never overflows. The plain integer that a bignum becomes
is the value too, there is one just if 64 bits hold the magnitude, and just then the bignum is written
as a plain integer. -/
theorem bignum_exact :
    (∀ b c : Bignum, b = c ↔ b.toInt = c.toInt) ∧
    (∀ (negative : Bool) (b : Octets), (ofOctets negative b).toInt = valueOf negative b) ∧
    (∀ n : BitVec 128, ofSigned n = ofInt n.toInt ∧ (ofSigned n).toInt = n.toInt ∧
      (ofSigned n).signed? = some n ∧ BitVec.ssubOverflow (-1) n = false) ∧
    (∀ (b : Bignum) (n : Int),
      b.toInt128? = some n ↔ -2 ^ 127 ≤ b.toInt ∧ b.toInt < 2 ^ 127 ∧ n = b.toInt) ∧
    (∀ (b : Bignum) (i : Item), Item.ofBignum? b = some i ↔
      ∃ w : UInt64, (i = .unsigned w ∧ b.toInt = w.toNat) ∨
        (i = .negative w ∧ b.toInt = -1 - w.toNat)) ∧
    (∀ b : Bignum, (Item.ofBignum? b).isSome = true ↔ b.magnitude.toNat < 2 ^ 64) ∧
    ∀ o : Encoder.Options, o.check = .ok () → o.groups.bignum = true → ∀ b : Bignum,
      (b.magnitude.toNat < 2 ^ 64 → encode (.bignum b) o = encode (.ofInt b.toInt) o ∧
        ∀ (e : Encoder) (asKey : Bool), e.groups.bignum = true →
          (item asKey (.bignum b)).run.run e = (item asKey (.ofInt b.toInt)).run.run e) ∧
      (2 ^ 64 ≤ b.magnitude.toNat → ∀ n : Int, encode (.bignum b) o ≠ encode (.ofInt n) o) := by
  refine ⟨fun b c ↦ toInt_inj.symm, toInt_ofOctets, fun n ↦ ⟨ofSigned_eq n, toInt_ofSigned n,
    signed?_eq_some.2 (toInt_ofSigned n), ssubOverflow_neg_one n⟩, fun b n ↦ toInt128?_eq_some,
    fun b i ↦ ofBignum?_eq_some, fun b ↦ ?_, fun o hc hg b ↦ ⟨fun h ↦
    ⟨encode_of_word hg h, fun e asKey he ↦ run_item_of_word he asKey h⟩, encode_ne_ofInt hc hg⟩⟩
  rw [Item.ofBignum?, Option.isSome_map]
  exact b.isSome_word?_iff

/-- The least word of 128 bits, a magnitude with zeros in front, and one beyond 64 bits. -/
theorem bignum_exact_borders :
    let least : BitVec 128 := BitVec.intMin 128
    let wide : Bignum := { magnitude := [1, 0, 0, 0, 0, 0, 0, 0, 0] }
    (ofSigned least).toInt128? = some (-2 ^ 127) ∧
    (ofOctets true (0x80 :: List.replicate 15 0)).toInt128? = none ∧
    ofOctets false [0, 0, 1, 0] = ofInt 256 ∧
    encode (.bignum (ofInt (-257))) {} = encode (.ofInt (-257)) {} ∧
    encode (.bignum wide) {} ≠ encode (.ofInt (2 ^ 64)) {} := by
  intro least wide
  obtain ⟨heq, hvalue, hword, hint, -, -, hwrite⟩ := bignum_exact
  refine ⟨?_, ?_, ?_, ?_, ?_⟩
  · rw [hint, (hword least).2.1]
    decide
  · rw [Option.eq_none_iff_forall_ne_some]
    intro n hn
    have hv := (hint _ n).1 hn
    rw [hvalue] at hv
    exact absurd hv.1 (by decide)
  · rw [heq, hvalue]
    decide
  · exact ((hwrite {} rfl rfl (ofInt (-257))).1 (by decide)).1
  · exact (hwrite {} rfl rfl wide).2 (by decide) (2 ^ 64)

end Cbor
