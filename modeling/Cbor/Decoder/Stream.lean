import Cbor.Decoder.Basic

namespace Cbor.Decoder

theorem length_lt_of_run {o : Options} {product p : Product} {stripped : Bool}
    {buffer rest : Octets} {item : Item} (h : run o product stripped buffer = .ready item rest p) :
    rest.length < buffer.length := by
  fun_induction run o product stripped buffer with
  | case1 | case2 | case3 | case5 => cases h
  | case4 _ _ _ _ _ hr _ ih => exact Nat.lt_trans (ih h) (Lexeme.length_lt_of_read hr)
  | case6 _ _ _ _ _ hr =>
    cases h
    exact Lexeme.length_lt_of_read hr
  | case7 _ _ _ _ _ hr _ _ _ ih => exact Nat.lt_trans (ih h) (Lexeme.length_lt_of_read hr)

theorem length_lt_of_process {d e : Decoder} (h : d.process = (.ok true, e)) :
    e.buffer.length < d.buffer.length := by
  unfold process at h
  split at h
  · split at h
    · rename_i hr
      cases h
      exact length_lt_of_run hr
    · cases h
    · cases h
  · split at h <;> cases h

/-- Takes one item after the other until input is missing or a fault stops the reading. -/
def drain (d : Decoder) (taken : Array Item) : Array Item × Except Fault Unit × Decoder :=
  match _h : d.process with
  | (.error e, d) => (taken, .error e, d)
  | (.ok false, d) => (taken, .ok (), d)
  | (.ok true, next) => drain next.take.2 (taken ++ next.take.1.toList)
termination_by d.buffer.length
decreasing_by
  have := length_lt_of_process _h
  exact this

end Cbor.Decoder
