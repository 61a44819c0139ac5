import Cbor.Proofs.Encoder.Tree
import Cbor.Proofs.Tag.Meaning
import Cbor.Proofs.Wire.Reading

namespace Cbor

open Decoder (Options)
open Assembly
open Wire (Reads)

def Bignum.reading (p : Options) (b : Bignum) : Item :=
  (Item.ofBignum? b).getD
    (if p.groups.bignum then .bignum b
    else .tag (if b.negative then Tag.negativeBignum else Tag.positiveBignum)
      ((Item.bytes b.magnitude).native p.flags))

namespace Bignum

variable {p : Options}

theorem reading_of_group (h : p.groups.bignum = true) (b : Bignum) :
    b.reading p = .ofBignum b := by
  rw [reading, h, if_pos rfl, Item.ofBignum]

theorem reading_of_word {b : Bignum} (h : b.word?.isSome = true) :
    b.reading p = .ofBignum b := by
  obtain ⟨n, hn⟩ := Option.isSome_iff_exists.1 h
  rw [reading, Item.ofBignum, Item.ofBignum?, hn]
  rfl

theorem native_reading (p : Options) (b : Bignum) (f : Flags) :
    (b.reading p).native f = b.reading p := by
  unfold reading Item.ofBignum?
  rcases b.word? with _ | n
  · cases p.groups.bignum <;> rfl
  · cases b.negative <;> rfl

end Bignum

namespace Wire

theorem native_integer (f : Flags) (n : Int) :
    (Scalar.integer n).item.native f = (Scalar.integer n).item := by
  cases n <;> rfl

section

variable {p : Options} {number : UInt64} {make : Fraction → Item}
  (hi : ∀ content, Tag.interpret p.groups number content =
    some <$> make <$> Tag.fractionMeaning number content) {q : Fraction}

include hi

theorem tagged_fraction (hq : q.mantissa.reading p = .ofBignum q.mantissa) :
    tagged p number (.array [(Scalar.integer q.exponent.toInt).item, q.mantissa.reading p]) =
      .ok (make q) := by
  rw [tagged, hi, hq, Tag.fractionMeaning_array]
  rfl

/-- A mantissa beyond 64 bits whose tag has no meaning is no mantissa. -/
theorem tagged_fraction_of_wide (hg : p.groups.bignum = false)
    (hw : q.mantissa.word? = none) :
    tagged p number (.array [(Scalar.integer q.exponent.toInt).item, q.mantissa.reading p]) =
      .error (.tagType number) := by
  have hq : q.mantissa.reading p =
      .tag (if q.mantissa.negative then Tag.negativeBignum else Tag.positiveBignum)
        ((Item.bytes q.mantissa.magnitude).native p.flags) := by
    rw [Bignum.reading, Item.ofBignum?, hw, hg]
    rfl
  rw [tagged, hi, hq, Tag.fractionMeaning, Tag.exponentMeaning_integer]
  rfl

end

variable {o : Encoder.Options} {p : Options} (hm : o.maxDepth ≤ p.maxDepth) {depth : Nat}
  {w : Wire}

include hm

theorem reads_interpreted {number : UInt64} (hn : number ∉ Tag.references)
    (hd : depth < o.maxDepth) {content : Wire} {raw item : Item}
    (hc : Reads p (depth + 1) content raw)
    (hi : Tag.interpret p.groups number raw = .ok (some item)) :
    Reads p depth (.tag number content) item := by
  refine reads_tag (openRole_unrelated hn) (Nat.lt_of_lt_of_le hd hm) hc ?_
  rw [tagged, hi]
  rfl

theorem reads_bignumTree {b : Bignum} (h : Encoder.bignumTree o b depth = .ok w) :
    Reads p depth w (b.reading p) := by
  unfold Encoder.bignumTree at h
  unfold Bignum.reading Item.ofBignum?
  cases hw : b.word? with
  | some n =>
    rw [hw] at h
    cases h
    have hi : (Scalar.word b.negative n).item =
        if b.negative then .negative n else .unsigned n := by
      cases b.negative <;> rfl
    rw [Option.map_some, Option.getD_some, ← hi]
    exact reads_scalar _
  | none =>
    rw [hw] at h
    obtain ⟨_, hd, h⟩ := bind_eq_ok.1 h
    cases h
    rw [Option.map_none, Option.getD_none]
    have hd := Encoder.checkDepth_eq_ok.1 hd
    have hn : (if b.negative then Tag.negativeBignum else Tag.positiveBignum) ∉ Tag.references := by
      cases b.negative <;> decide
    have hroom := Nat.lt_of_lt_of_le hd hm
    have hc : Reads p (depth + 1) (.string false b.magnitude) (.bytes b.magnitude) :=
      reads_string nofun
    cases hg : p.groups.bignum with
    | true => exact reads_interpreted hm hn hd hc (Tag.interpret_bignum hg b)
    | false =>
      -- the tag has no meaning, so its content becomes native
      refine reads_tag (openRole_unrelated hn) hroom hc ?_
      rw [tagged, Tag.interpret_bignum_off hg (by cases b.negative <;> simp)]
      rfl

theorem meaning_fractionTree {number : UInt64} (hn : number ∉ Tag.references) {q : Fraction}
    (h : Encoder.fractionTree o number q depth = .ok w) (shared : Bool) {s : Scope}
    (hsd : s.depth ≤ depth) (hs : s.strings = []) :
    w.meaning p shared s = (·, s) <$> tagged p number
      (.array [(Scalar.integer q.exponent.toInt).item, q.mantissa.reading p]) := by
  simp only [Encoder.fractionTree, bind_eq_ok, Encoder.checkDepth_eq_ok] at h
  obtain ⟨_, hd, _, hd', m, hmantissa, h⟩ := h
  cases h
  refine meaning_tag_of_reads (openRole_unrelated hn) (Nat.lt_of_lt_of_le hd hm) ?_ shared hsd hs
  refine reads_array (Nat.lt_of_lt_of_le hd' hm) ?_
  exact readsAll_cons (reads_scalar _) (native_integer _ _)
    (readsAll_cons (reads_bignumTree hm hmantissa) (q.mantissa.native_reading p _) readsAll_nil)

theorem reads_fractionTree {number : UInt64} (hn : number ∉ Tag.references) {q : Fraction}
    {item : Item} (hi : tagged p number
      (.array [(Scalar.integer q.exponent.toInt).item, q.mantissa.reading p]) = .ok item)
    (h : Encoder.fractionTree o number q depth = .ok w) : Reads p depth w item := by
  intro shared s hsd hs
  rw [meaning_fractionTree hm hn h shared hsd hs, hi]
  rfl

end Wire
end Cbor
