import Cbor.Decoder.Stream
import Cbor.Proofs.Outcome

namespace Cbor

namespace Decoder

variable {o : Options} {product : Product} {stripped : Bool} {b rest : Octets}

theorem run_of_error {e : Fault} (h : Lexeme.read o.maxSize b = .error e) :
    run o product stripped b = .failed e b := by
  rw [run]
  split <;> simp_all

theorem run_of_needHeader (h : Lexeme.read o.maxSize b = .ok .needHeader) :
    run o product stripped b = .waiting b product stripped false := by
  rw [run]
  split <;> simp_all

theorem run_of_needContent (h : Lexeme.read o.maxSize b = .ok .needContent) :
    run o product stripped b = .waiting b product stripped true := by
  rw [run]
  split <;> simp_all

theorem run_of_ready {l : Lexeme} (h : Lexeme.read o.maxSize b = .ok (.ready l rest)) :
    run o product stripped b =
      if skips o stripped product.isEmpty l then run o product true rest
      else
        match product.push o l with
        | .error e => .failed e b
        | .ok (some item, product) => .ready item rest product
        | .ok (none, product) => run o product stripped rest := by
  rw [run]
  split <;> rename_i hr <;> cases hr.symm.trans h
  rfl

/-- What each lexeme that is accepted keeps, a run keeps. -/
theorem keeps_of_run {P : Assembly → Prop} {Q : Item → Prop}
    (hpush : ∀ {a l r}, P a → a.push o l = .ok r → (∀ i ∈ r.1, Q i) ∧ P r.2) {a : Assembly}
    (ha : P a) {item : Item} (h : run o (.items a) stripped b = .ready item rest product) :
    Q item := by
  generalize hp : Product.items a = p at h
  fun_induction run o p stripped b generalizing a with
  | case1 | case2 | case3 | case5 => cases h
  | case4 _ _ _ _ _ _ _ ih => exact ih ha hp h
  | case6 p stripped b l rest hr hs found q hq =>
    cases h
    subst hp
    obtain ⟨⟨_, _⟩, hl, hq⟩ := bind_eq_ok.1 hq
    cases hq
    exact (hpush ha hl).1 _ rfl
  | case7 p stripped b l rest hr hs q hq ih =>
    subst hp
    obtain ⟨⟨_, _⟩, hl, hq⟩ := bind_eq_ok.1 hq
    cases hq
    exact ih (hpush ha hl).2 rfl h

/-- A run without what it leaves behind: the item and the rest of the input, or that there is no
item yet, or the fault. -/
def Halt.outcome : Halt → Except Fault (Option (Item × Octets))
  | .ready item rest _ => .ok (some (item, rest))
  | .waiting .. => .ok none
  | .failed e _ => .error e

def single : Option (Item × Octets) → Except Fault Item
  | none => .error .truncatedData
  | some (item, rest) => if rest.isEmpty then .ok item else .error .extraneousData

theorem Options.check_eq_ok {o : Options} : o.check = .ok () ↔
    o.flags.checkReading = .ok () ∧ o.maxDepth ≤ maxDepthLimit ∧ o.maxSize ≠ 0 ∧
      (o.flags.contains .edn = true → o.edn.check = .ok ()) := by
  constructor
  · intro h
    simp only [check, bind_eq_ok] at h
    obtain ⟨_, hf, h⟩ := h
    by_cases hd : maxDepthLimit < o.maxDepth
    · rw [if_pos hd] at h
      cases h
    by_cases hm : o.maxSize = 0
    · rw [if_neg hd, if_pos hm] at h
      cases h
    rw [if_neg hd, if_neg hm] at h
    refine ⟨hf, Nat.not_lt.1 hd, hm, fun he ↦ ?_⟩
    rwa [if_pos he] at h
  · rintro ⟨hf, hd, hm, he⟩
    rw [check, hf, ok_bind, if_neg (Nat.not_lt.2 hd), if_neg hm]
    split
    case isTrue hflag => exact he hflag
    case isFalse => rfl

end Decoder

theorem decode_eq {o : Decoder.Options} {data input : Octets}
    (hi : data.window o.offset o.length = input) (hs : input.length ≤ o.maxSize) :
    decode data o = o.check >>= fun _ ↦
      (Decoder.run o (.start o) false input).outcome >>= Decoder.single := by
  subst hi
  unfold decode
  simp only [Decoder.new, bind_assoc, pure_eq_ok, ok_bind]
  congr 1
  funext
  have hadd : (Decoder.start o).add (data.window o.offset o.length) =
      (.ok (), { Decoder.start o with buffer := data.window o.offset o.length }) := by
    simp [Decoder.add, Decoder.start, Nat.not_lt.2 hs]
  rw [hadd]
  cases h : Decoder.run o (.start o) false (data.window o.offset o.length) with
  | ready item rest product =>
    simp only [Decoder.start, Decoder.process, h]
    rfl
  | waiting rest product stripped forContent =>
    simp only [Decoder.start, Decoder.process, h]
    rfl
  | failed e rest =>
    simp only [Decoder.start, Decoder.process, h]
    rfl

theorem decode_of_oversized {o : Decoder.Options} {data : Octets} (hc : o.check = .ok ())
    (hs : o.maxSize < (data.window o.offset o.length).length) :
    decode data o = .error .unsupportedSize := by
  have hadd : (Decoder.start o).add (data.window o.offset o.length) =
      (Decoder.start o).fail .unsupportedSize := by
    simp [Decoder.add, Decoder.start, hs]
  unfold decode
  rw [Decoder.new, hc]
  simp only [ok_bind, pure_eq_ok, hadd]
  rfl

theorem length_le_of_decode {o : Decoder.Options} {data : Octets} {v : Item}
    (h : decode data o = .ok v) : (data.window o.offset o.length).length ≤ o.maxSize := by
  refine Nat.not_lt.1 fun hlt ↦ ?_
  have hadd : (Decoder.start o).add (data.window o.offset o.length) =
      (Decoder.start o).fail .unsupportedSize := by
    simp [Decoder.add, Decoder.start, hlt]
  unfold decode at h
  obtain ⟨d, hd, h⟩ := bind_eq_ok.1 h
  obtain ⟨_, _, hd⟩ := bind_eq_ok.1 hd
  cases hd
  rw [hadd] at h
  cases h

theorem check_of_decode {o : Decoder.Options} {data : Octets} {v : Item}
    (h : decode data o = .ok v) : o.check = .ok () := by
  rw [decode_eq rfl (length_le_of_decode h)] at h
  obtain ⟨_, hc, -⟩ := bind_eq_ok.1 h
  exact hc

theorem run_of_decode {o : Decoder.Options} {data : Octets} {v : Item}
    (h : decode data o = .ok v) : ∃ product,
    Decoder.run o (.start o) false (data.window o.offset o.length) = .ready v [] product := by
  rw [decode_eq rfl (length_le_of_decode h)] at h
  obtain ⟨_, _, h⟩ := bind_eq_ok.1 h
  cases hr : Decoder.run o (.start o) false (data.window o.offset o.length) with
  | ready item rest product =>
    rw [hr, Decoder.Halt.outcome, ok_bind, Decoder.single] at h
    split at h
    · rename_i he
      cases h
      rw [List.isEmpty_iff.1 he]
      exact ⟨product, rfl⟩
    · cases h
  | waiting rest product stripped forContent =>
    rw [hr] at h
    cases h
  | failed e rest =>
    rw [hr] at h
    cases h

end Cbor
