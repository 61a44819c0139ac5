import Cbor.Proofs.Encoder.Tree

namespace Cbor

namespace Wire

/-- `P n w`, said of trees of at most `n` levels, holds of integers and strings, and is kept by tags
around a tree, other than a string reference, and by arrays of two. -/
structure Layered (P : Nat → Wire → Prop) : Prop where
  unsigned (room : Nat) (n : UInt64) : P room (scalar (.unsigned n))
  negative (room : Nat) (n : UInt64) : P room (scalar (.negative n))
  string (room : Nat) (isText : Bool) (b : Octets) : P room (string isText b)
  pair {room : Nat} {a b : Wire} : 0 < room → P (room - 1) a → P (room - 1) b →
    P room (array false [a, b])
  tag {room : Nat} {number : UInt64} {w : Wire} : 0 < room → number ≠ Tag.stringRef →
    P (room - 1) w → P room (tag number w)

namespace Layered

open Encoder

variable {P : Nat → Wire → Prop} (hP : Layered P) {o : Options} {depth room : Nat} {w : Wire}

include hP

theorem integer (n : Int) : P room (.scalar (.integer n)) := by
  cases n with
  | ofNat n => exact hP.unsigned room _
  | negSucc n => exact hP.negative room _

theorem word (negative : Bool) (n : UInt64) : P room (.scalar (.word negative n)) := by
  cases negative with
  | false => exact hP.unsigned room n
  | true => exact hP.negative room n

theorem textTree {b : Octets} (h : textTree o b = .ok w) : P room w := by
  unfold Encoder.textTree at h
  split at h <;> cases h
  exact hP.string room true b

theorem nativeTree {b : Octets} (h : nativeTree o b = .ok w) : P room w := by
  unfold Encoder.nativeTree at h
  split at h
  · exact hP.textTree h
  split at h <;> cases h
  exact hP.string room false b

theorem keyTree {b : Octets} (h : keyTree o b = .ok w) : P room w := by
  unfold Encoder.keyTree at h
  split at h
  · cases h
    exact hP.integer _
  split at h
  · exact hP.textTree h
  split at h <;> cases h
  exact hP.string room false b

theorem taggedString {number : UInt64} (hn : number ≠ Tag.stringRef)
    (hd : depth < o.maxDepth) (isText : Bool) (b : Octets) :
    P (o.maxDepth - depth) (.tag number (.string isText b)) :=
  hP.tag (by omega) hn (hP.string _ isText b)

theorem stampTree {t : Moment} (h : stampTree o t depth = .ok w) :
    P (o.maxDepth - depth) w := by
  unfold Encoder.stampTree at h
  split at h
  · simp only [bind_eq_ok, checkDepth_eq_ok] at h
    obtain ⟨_, hd, h⟩ := h
    cases h
    exact hP.taggedString (by decide) hd true _
  · cases h

theorem bignumTree {b : Bignum} (h : bignumTree o b depth = .ok w) :
    P (o.maxDepth - depth) w := by
  unfold Encoder.bignumTree at h
  split at h
  · cases h
    exact hP.word b.negative _
  · simp only [bind_eq_ok, checkDepth_eq_ok] at h
    obtain ⟨_, hd, h⟩ := h
    cases h
    exact hP.taggedString (by cases b.negative <;> decide) hd false _

theorem fractionTree {number : UInt64} (hn : number ≠ Tag.stringRef) {f : Fraction}
    (h : fractionTree o number f depth = .ok w) : P (o.maxDepth - depth) w := by
  simp only [Encoder.fractionTree, bind_eq_ok, checkDepth_eq_ok] at h
  obtain ⟨_, hd, _, hd', m, hm, h⟩ := h
  cases h
  exact hP.tag (by omega) hn (hP.pair (by omega) (hP.integer _) (hP.bignumTree hm))

theorem decimalTree {f : Fraction} (h : decimalTree o f depth = .ok w) :
    P (o.maxDepth - depth) w := by
  unfold Encoder.decimalTree at h
  split at h
  · exact hP.bignumTree h
  · exact hP.fractionTree (by decide) h

end Layered
end Wire
end Cbor
