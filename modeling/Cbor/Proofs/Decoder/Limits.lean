import Cbor.Proofs.Decoder.Run
import Cbor.Proofs.Diagnostic.Outline
import Cbor.Proofs.Wire.Recursion

namespace Cbor

theorem Fault.isLimit_iff {e : Fault} : e.IsLimit ↔ e = .depth ∨ e = .unsupportedSize := by
  cases e <;> simp [IsLimit]

namespace Lexeme

variable {small large : Nat} (h : small ≤ large)

include h

theorem cutOff_checkSize (n : Nat) :
    CutOff Fault.IsLimit (checkSize small n) (checkSize large n) :=
  .guard (fun hn ↦ Nat.le_trans hn h) trivial (.refl _)

theorem cutOff_sized {α : Type} (n : Nat) (f : Unit → Except Fault α) :
    CutOff Fault.IsLimit (checkSize small n >>= f) (checkSize large n >>= f) :=
  .bind (cutOff_checkSize h n) fun _ ↦ .refl _

theorem cutOff_ofHead (major minor : Nat) (n : UInt64) (b : Octets) :
    CutOff Fault.IsLimit (ofHead small major minor n b) (ofHead large major minor n b) := by
  unfold ofHead
  split
  case h_3 | h_4 | h_5 | h_6 => exact cutOff_sized h ..
  all_goals exact .refl _

theorem cutOff_read (b : Octets) : CutOff Fault.IsLimit (read small b) (read large b) := by
  cases b with
  | nil => exact .refl _
  | cons x b =>
    unfold read
    dsimp only
    split
    case isTrue => exact .refl _
    case isFalse =>
      split
      · exact .refl _
      split
      · exact .refl _
      · exact cutOff_ofHead h ..

end Lexeme

namespace Scope

variable {small large : Nat} (h : small ≤ large)

include h

theorem cutOff_enter (s : Scope) : CutOff Fault.IsLimit (s.enter small) (s.enter large) :=
  .guard (fun hs ↦ Nat.lt_of_lt_of_le hs h) trivial (.refl _)

theorem cutOff_charge (s : Scope) (n : Nat) :
    CutOff Fault.IsLimit (s.charge small n) (s.charge large n) :=
  Lexeme.cutOff_sized h ..

end Scope

open Decoder (Options)

def Decoder.Options.limited (o : Options) (maxDepth maxSize : Nat) : Options :=
  { o with maxDepth, maxSize }

variable {o : Options} {maxDepth maxSize : Nat}

namespace Assembly

section

variable (hn : maxSize ≤ o.maxSize)

include hn

theorem cutOff_checkGrowth (remaining : Option Nat) (size : Nat) :
    CutOff Fault.IsLimit (checkGrowth (o.limited maxDepth maxSize) remaining size)
      (checkGrowth o remaining size) :=
  .ite (Lexeme.cutOff_checkSize hn _) (.refl _)

theorem cutOff_closeTag (number : UInt64) (role : TagRole) (content : Item) (s : Scope) :
    CutOff Fault.IsLimit (closeTag (o.limited maxDepth maxSize) number role content s)
      (closeTag o number role content s) := by
  cases role with
  | plain | stringNamespace | shareable => exact .refl _
  | stringRef =>
    refine .bind (.refl _) fun item ↦ ?_
    exact .bind (s.cutOff_charge hn _) fun _ ↦ .refl _
  | sharedRef =>
    refine .bind (.refl _) fun found ↦ ?_
    exact .bind (s.cutOff_charge hn _) fun _ ↦ .refl _

theorem cutOff_complete (stack : List Frame) (s : Scope) (item : Item) :
    CutOff Fault.IsLimit (complete (o.limited maxDepth maxSize) stack s item)
      (complete o stack s item) := by
  induction stack generalizing s item with
  | nil => exact .refl _
  | cons frame stack ih =>
    cases frame with
    | array items remaining =>
      refine .bind (cutOff_checkGrowth hn _ _) fun _ ↦ ?_
      dsimp only
      split
      · exact .refl _
      · exact ih _ _
    | map entries key remaining =>
      cases key with
      | none => exact .bind (cutOff_checkGrowth hn _ _) fun _ ↦ .refl _
      | some key =>
        unfold complete
        dsimp only
        split
        · exact .refl _
        · exact ih _ _
    | tag number role => exact .bind (cutOff_closeTag hn ..) fun r ↦ ih r.2 r.1
    | chunks => exact .refl _

theorem cutOff_addChunk (isText : Bool) (octets : Array UInt8) (stack : List Frame) (s : Scope)
    (chunkIsText : Bool) (b : Octets) : CutOff Fault.IsLimit
      (addChunk (o.limited maxDepth maxSize) isText octets stack s chunkIsText b)
      (addChunk o isText octets stack s chunkIsText b) := by
  have hsize := Lexeme.cutOff_sized hn (octets.size + b.length) fun _ ↦
    (.ok (none, ⟨.chunks isText (octets ++ b) :: stack, s⟩) : Except Fault (Option Item × Assembly))
  -- the kind of the chunk is looked at whether or not its text has been
  refine .ite (.bind (.refl (checkText o b)) fun _ ↦ ?_) ?_
  all_goals exact .ite (.bind (.refl _) fun _ ↦ hsize) hsize

theorem cutOff_pushChunk (isText : Bool) (octets : Array UInt8) (stack : List Frame) (s : Scope)
    (l : Lexeme) : CutOff Fault.IsLimit
      (pushChunk (o.limited maxDepth maxSize) isText octets stack s l)
      (pushChunk o isText octets stack s l) := by
  cases l with
  | bytes b => exact cutOff_addChunk hn isText octets stack s false b
  | text b => exact cutOff_addChunk hn isText octets stack s true b
  | stop => exact cutOff_complete hn ..
  | _ => exact .refl _

theorem cutOff_closeIndefinite (stack : List Frame) (s : Scope) : CutOff Fault.IsLimit
    (closeIndefinite (o.limited maxDepth maxSize) stack s) (closeIndefinite o stack s) := by
  unfold closeIndefinite
  split
  case h_2 | h_3 => exact cutOff_complete hn ..
  all_goals exact .refl _

end

variable (hd : maxDepth ≤ o.maxDepth) (hn : maxSize ≤ o.maxSize)

include hd hn

theorem cutOff_pushItem (stack : List Frame) (s : Scope) (l : Lexeme) : CutOff Fault.IsLimit
    (pushItem (o.limited maxDepth maxSize) stack s l) (pushItem o stack s l) := by
  have henter := s.cutOff_enter hd
  cases l with
  | array count | map count =>
    exact .bind henter fun s ↦ .ite (cutOff_complete hn ..) (.refl _)
  | tag number => exact .bind henter fun s ↦ .refl _
  | bytesStart | textStart | simple => exact .refl _
  | text b => exact .bind (.refl (checkText o b)) fun _ ↦ cutOff_complete hn ..
  | stop => exact cutOff_closeIndefinite hn ..
  | _ => exact cutOff_complete hn ..

theorem cutOff_push (a : Assembly) (l : Lexeme) : CutOff Fault.IsLimit
    (a.push (o.limited maxDepth maxSize) l) (a.push o l) := by
  obtain ⟨stack, s⟩ := a
  unfold push
  split
  · exact cutOff_pushChunk hn ..
  · exact cutOff_pushItem hd hn ..

end Assembly

namespace Diagnostic.Transcript

variable {o o' : Options} (hd : o'.maxDepth ≤ o.maxDepth)

include hd

theorem enter_of_le (t : Transcript) (k : Transcript → Answer) :
    enter o' t k = enter o t k ∨ (enter o' t k).1 = .error .depth := by
  obtain ⟨stack, p⟩ := t
  unfold enter
  dsimp only
  by_cases hp : p.depth < o'.maxDepth
  · left
    rw [if_pos hp, if_pos (Nat.lt_of_lt_of_le hp hd)]
  · right
    rw [if_neg hp]

theorem push_of_le (hs : o'.edn = o.edn) (t : Transcript) (l : Lexeme) :
    t.push o' l = t.push o l ∨ (t.push o' l).1 = .error .depth := by
  have hcontainer (left right : Char) (bracket : Bracket) (count : Option UInt64) :
      openContainer o' left right bracket count t = openContainer o left right bracket count t ∨
        (openContainer o' left right bracket count t).1 = .error .depth := by
    simp only [openContainer, scalar_congr hs, hs]
    exact enter_of_le hd t _
  have htag (number : UInt64) : openTag o' number t = openTag o number t ∨
      (openTag o' number t).1 = .error .depth :=
    enter_of_le hd t _
  unfold push
  cases chunkFault? t.stack l with
  | some e => exact .inl rfl
  | none =>
    cases l with
    | array | map => exact hcontainer ..
    | tag number => exact htag number
    | bytes b | text b => exact .inl (string_congr hs _ b t)
    | stop => exact .inl (close_congr hs t)
    | bytesStart | textStart => exact .inl rfl
    | _ => exact .inl (scalar_congr hs _ t)

end Diagnostic.Transcript

namespace Decoder

theorem outcome_eq (o : Options) (p : Product) (stripped : Bool) (b : Octets) :
    (run o p stripped b).outcome = Lexeme.read o.maxSize b >>= fun r ↦
      match r with
      | .needHeader | .needContent => .ok none
      | .ready l rest =>
        if skips o stripped p.isEmpty l then (run o p true rest).outcome
        else p.push o l >>= fun r ↦
          match r with
          | (some item, _) => .ok (some (item, rest))
          | (none, p) => (run o p stripped rest).outcome := by
  cases hr : Lexeme.read o.maxSize b with
  | error e =>
    rw [run_of_error hr]
    rfl
  | ok r =>
    cases r with
    | needHeader =>
      rw [run_of_needHeader hr]
      rfl
    | needContent =>
      rw [run_of_needContent hr]
      rfl
    | ready l rest =>
      rw [run_of_ready hr, ok_bind]
      dsimp only
      split
      · rfl
      cases p.push o l with
      | error e => rfl
      | ok r =>
        obtain ⟨_ | item, p⟩ := r
        · rfl
        · rfl

variable (hd : maxDepth ≤ o.maxDepth) (hn : maxSize ≤ o.maxSize)

include hd hn

theorem Product.cutOff_push (p : Product) (l : Lexeme) :
    CutOff Fault.IsLimit (p.push (o.limited maxDepth maxSize) l) (p.push o l) := by
  cases p with
  | items a => exact .bind (Assembly.cutOff_push hd hn a l) fun _ ↦ .refl _
  | diagnostic t =>
    have hs : (o.limited maxDepth maxSize).edn = o.edn := rfl
    rw [Product.push, Product.push]
    rcases Diagnostic.Transcript.push_of_le hd hs t l with hl | hl
    · rw [hl]
      exact .refl _
    · rcases hp : t.push (o.limited maxDepth maxSize) l with ⟨r, u⟩
      rw [hp] at hl
      cases hl
      refine .error ?_ _
      trivial

/-- The two runs are in step until the one under the tighter limits stops at one of them. -/
theorem cutOff_run (p : Product) (stripped : Bool) (b : Octets) :
    CutOff Fault.IsLimit (run (o.limited maxDepth maxSize) p stripped b).outcome
      (run o p stripped b).outcome := by
  rw [outcome_eq, outcome_eq]
  refine .step (Lexeme.cutOff_read hn b) fun r hr ↦ ?_
  cases r with
  | needHeader | needContent => exact .refl _
  | ready l rest =>
    have hlt := Lexeme.length_lt_of_read hr
    refine .ite (cutOff_run p true rest) (.bind (p.cutOff_push hd hn l) fun r ↦ ?_)
    obtain ⟨_ | item, p⟩ := r
    · exact cutOff_run p stripped rest
    · exact .refl _
termination_by b.length

end Decoder

theorem cutOff_decode (hd : maxDepth ≤ o.maxDepth) (hn : maxSize ≤ o.maxSize)
    (hc : o.check = .ok ()) (hl : (o.limited maxDepth maxSize).check = .ok ()) (data : Octets) :
    CutOff Fault.IsLimit (decode data (o.limited maxDepth maxSize)) (decode data o) := by
  generalize hi : data.window o.offset o.length = input
  have hi' : data.window (o.limited maxDepth maxSize).offset (o.limited maxDepth maxSize).length =
    input := hi
  by_cases hs : input.length ≤ maxSize
  · rw [decode_eq hi (Nat.le_trans hs hn), decode_eq hi' hs, hc, hl, ok_bind, ok_bind]
    exact .bind (Decoder.cutOff_run hd hn (.start o) false input) fun _ ↦ .refl _
  · subst hi
    rw [decode_of_oversized hl (Nat.lt_of_not_le hs)]
    exact .error trivial _

end Cbor
