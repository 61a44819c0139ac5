import Cbor.Proofs.Decoder.Fresh
import Cbor.Proofs.Decoder.Pieces
import Cbor.Proofs.Wire.Spelling

namespace Cbor

theorem Head.exists_argument? {minor width : Nat} {b rest : Octets} {n : UInt64}
    (h : argument? minor width b = some (n, rest)) :
    ∃ used, b = used ++ rest ∧ argument? minor width used = some (n, []) := by
  rcases argument?_eq_some h with ⟨hm, rfl, rfl⟩ | ⟨hm, digits, rfl, rfl, rfl⟩
  · exact ⟨[], rfl, if_pos hm⟩
  · refine ⟨digits, rfl, ?_⟩
    simp [argument?, if_neg hm]

namespace Lexeme

theorem exists_readString {maxSize : Nat} {make : Octets → Lexeme} {n : UInt64} {b rest : Octets}
    {l : Lexeme} (h : readString maxSize make n b = .ok (.ready l rest)) :
    ∃ used, b = used ++ rest ∧ readString maxSize make n used = .ok (.ready l []) := by
  obtain ⟨_, hn, h⟩ := bind_eq_ok.1 h
  simp only [List.splitAt_eq] at h
  split at h <;> cases h
  rename_i hl
  refine ⟨b.take n.toNat, (List.take_append_drop _ _).symm, ?_⟩
  rw [readString, hn, ok_bind, List.splitAt_eq, List.take_of_length_le (Nat.le_of_eq hl),
    List.drop_of_length_le (Nat.le_of_eq hl)]
  exact if_pos hl

theorem exists_ofHead {maxSize major minor : Nat} {n : UInt64} {b rest : Octets} {l : Lexeme}
    (h : ofHead maxSize major minor n b = .ok (.ready l rest)) :
    ∃ used, b = used ++ rest ∧ ofHead maxSize major minor n used = .ok (.ready l []) := by
  unfold ofHead at h ⊢
  split at h
  case h_3 | h_4 => exact exists_readString h
  case h_5 | h_6 | h_8 =>
    obtain ⟨_, hl, h⟩ := bind_eq_ok.1 h
    cases h
    exact ⟨[], rfl, by rw [hl]; rfl⟩
  all_goals
    cases h
    exact ⟨[], rfl, rfl⟩

theorem exists_read {maxSize : Nat} {b rest : Octets} {l : Lexeme}
    (h : read maxSize b = .ok (.ready l rest)) :
    ∃ used, b = used ++ rest ∧ read maxSize used = .ok (.ready l []) := by
  cases b with
  | nil => cases h
  | cons x b =>
    unfold read at h
    dsimp only at h
    split at h
    case isTrue hm =>
      split at h <;> cases h
      rename_i hi
      refine ⟨[x], rfl, ?_⟩
      simp only [read, if_pos hm, hi]
    case isFalse hm =>
      split at h
      · cases h
      rename_i width hw
      split at h
      · cases h
      rename_i n c ha
      obtain ⟨digits, rfl, hd⟩ := Head.exists_argument? ha
      obtain ⟨payload, rfl, hp⟩ := exists_ofHead h
      refine ⟨x :: (digits ++ payload), by simp, ?_⟩
      simp only [read, if_neg hm, hw, Head.argument?_append payload hd, List.nil_append]
      exact hp

end Lexeme

namespace Decoder

/-- The same options for input that is one item as a whole. -/
def Options.whole (o : Options) : Options := { o with offset := 0, length := none }

variable {o : Options} {p q : Product} {stripped : Bool} {b rest : Octets}

theorem exists_used_of_run {item : Item} (h : run o p stripped b = .ready item rest q) :
    ∃ used, b = used ++ rest ∧ run o p stripped used = .ready item [] q := by
  fun_induction run o p stripped b with
  | case1 | case2 | case3 | case5 => cases h
  | case4 p stripped b l c hr hs ih =>
    obtain ⟨first, rfl, hl⟩ := Lexeme.exists_read hr
    obtain ⟨used, rfl, hu⟩ := ih h
    have hread := Lexeme.read_append o.maxSize first used
    rw [hl] at hread
    refine ⟨first ++ used, by simp, ?_⟩
    rw [run_of_ready hread, if_pos hs, List.nil_append, hu]
  | case6 p stripped b l c hr hs found q' hq =>
    cases h
    obtain ⟨first, rfl, hl⟩ := Lexeme.exists_read hr
    refine ⟨first, rfl, ?_⟩
    rw [run_of_ready hl, if_neg hs, hq]
  | case7 p stripped b l c hr hs q' hq ih =>
    obtain ⟨first, rfl, hl⟩ := Lexeme.exists_read hr
    obtain ⟨used, rfl, hu⟩ := ih h
    have hread := Lexeme.read_append o.maxSize first used
    rw [hl] at hread
    refine ⟨first ++ used, by simp, ?_⟩
    rw [run_of_ready hread, if_neg hs, hq]
    exact hu

section

variable (o)

theorem complete_whole : Assembly.complete o.whole = Assembly.complete o := by
  funext stack s item
  induction stack generalizing s item with
  | nil => rfl
  | cons frame stack ih =>
    cases frame with
    | array | tag =>
      simp only [Assembly.complete, ih]
      rfl
    | map _ key =>
      cases key <;> simp only [Assembly.complete, ih] <;> rfl
    | chunks => rfl

theorem push_whole (p : Product) (l : Lexeme) : p.push o.whole l = p.push o l := by
  cases p with
  | items a =>
    have ha : a.push o.whole l = a.push o l := by
      obtain ⟨stack, s⟩ := a
      unfold Assembly.push
      split
      · cases l with
        | stop => simp only [Assembly.pushChunk, complete_whole]
        | _ => rfl
      · cases l with
        | bytes => simp only [Assembly.pushItem, Assembly.completeString, complete_whole]
        | text | array | map =>
          simp only [Assembly.pushItem, Assembly.completeString, Assembly.openArray,
            Assembly.openMap, complete_whole]
          rfl
        | stop => simp only [Assembly.pushItem, Assembly.closeIndefinite, complete_whole]
        | tag | simple | bytesStart | textStart => rfl
        | _ => simp only [Assembly.pushItem, complete_whole]
    rw [Product.push, Product.push, ha]
  | diagnostic t =>
    have hs : o.whole.edn = o.edn := rfl
    have ht : t.push o.whole l = t.push o l := Diagnostic.Transcript.push_congr hs rfl t l
    rw [Product.push, Product.push, ht]

theorem run_whole (p : Product) (stripped : Bool) (b : Octets) :
    run o.whole p stripped b = run o p stripped b := by
  fun_induction run o p stripped b with
  | case1 _ _ _ _ hr => exact run_of_error hr
  | case2 _ _ _ hr => exact run_of_needHeader hr
  | case3 _ _ _ hr => exact run_of_needContent hr
  | case4 p stripped b l c hr hs ih =>
    rw [run_of_ready (o := o.whole) hr]
    exact (if_pos hs).trans ih
  | case5 p stripped b l c hr hs e hq =>
    rw [run_of_ready (o := o.whole) hr, push_whole, hq]
    exact if_neg hs
  | case6 p stripped b l c hr hs item q hq =>
    rw [run_of_ready (o := o.whole) hr, push_whole, hq]
    exact if_neg hs
  | case7 p stripped b l c hr hs q hq ih =>
    rw [run_of_ready (o := o.whole) hr, push_whole, hq]
    exact (if_neg hs).trans ih

end

/-- What decodes as a whole is what a run makes ready with nothing left. -/
theorem decode_whole_iff (hc : o.check = .ok ()) (hs : b.length ≤ o.maxSize) {item : Item} :
    decode b o.whole = .ok item ↔ ∃ q, run o (.start o) false b = .ready item [] q := by
  have hwhole (s : Bool) : run o.whole (.start o.whole) s b = run o (.start o) s b := run_whole ..
  constructor
  · intro h
    obtain ⟨q, hq⟩ := run_of_decode h
    exact ⟨q, (hwhole false).symm.trans hq⟩
  · rintro ⟨q, hq⟩
    have hc' : o.whole.check = .ok () := hc
    have hinput : b.window o.whole.offset o.whole.length = b := rfl
    rw [decode_eq hinput hs, hc', hwhole, hq]
    rfl

/-- The items of a stream are taken one after the other, each as if it were alone. -/
theorem drain_flatten (hc : o.check = .ok ()) (ho : o.sharedRef = .off) {pieces : List Octets}
    {items : List Item} (h : pieces.mapM (decode · o.whole) = .ok items) (tail : Octets)
    (taken : Array Item) :
    ((start o).append (pieces.flatten ++ tail)).drain taken =
      ((start o).append tail).drain (taken ++ items) := by
  induction pieces generalizing items taken with
  | nil =>
    cases h
    simp
  | cons piece pieces ih =>
    simp only [List.mapM_cons, bind_eq_ok] at h
    obtain ⟨item, hd, items, hitems, h⟩ := h
    cases h
    have hs : piece.length ≤ o.maxSize := length_le_of_decode (o := o.whole) hd
    obtain ⟨q, hq⟩ := (decode_whole_iff hc hs).1 hd
    obtain rfl := eq_start_of_run ho (Product.steady_start o) hq
    have hrun := run_append o (.start o) false piece (pieces.flatten ++ tail)
    rw [hq] at hrun
    have hp : ((start o).append (piece ++ (pieces.flatten ++ tail))).process =
        (.ok true, { (start o).append (pieces.flatten ++ tail) with value := some item }) := by
      rw [process_of_ready ⟨rfl, rfl⟩]
      simp only [append, start, List.nil_append, hrun, Halt.resume]
    have hnext : (taken.push item) ++ items = taken ++ (item :: items) := by simp
    rw [List.flatten_cons, List.append_assoc, drain_eq, hp, ← hnext, ← ih hitems,
      Array.push_eq_append]
    rfl

end Decoder
end Cbor
