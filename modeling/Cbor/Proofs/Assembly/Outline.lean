import Cbor.Proofs.Assembly.Steps
import Cbor.Proofs.Diagnostic.Outline

namespace Cbor

open Decoder (Options)
open Diagnostic (Outline Slot)

def Frame.slot : Frame → Slot
  | array _ remaining => .array remaining
  | map _ key remaining => .map remaining key.isNone
  | tag .. => .tag
  | chunks isText _ => .chunks isText

namespace Assembly

def outline (a : Assembly) : Outline := ⟨a.stack.map Frame.slot, a.scope.depth⟩

/-- A step of assembling and one of its outline come to the same. Behind a top-level item the
outline keeps its depth, which then counts for nothing. -/
def Traces (r : Option Item × Assembly) (u : Bool × Outline) : Prop :=
  u.1 = r.1.isSome ∧ (r.1 = none → u.2 = r.2.outline)

variable {o : Options} {stack : List Frame} {s : Scope} {item : Item} {r : Option Item × Assembly}

theorem depth_of_charge {t : Scope} {maxSize n : Nat} (h : s.charge maxSize n = .ok t) :
    t.depth = s.depth := by
  obtain ⟨_, _, h⟩ := bind_eq_ok.1 h
  cases h
  rfl

theorem depth_of_closeTag {number : UInt64} {role : TagRole} {t : Scope} {found : Item}
    (h : closeTag o number role item s = .ok (found, t)) : t.depth = s.depth := by
  cases role with
  | plain =>
    rw [closeTag_plain] at h
    obtain ⟨_, _, h⟩ := map_eq_ok.1 h
    cases h
    rfl
  | stringNamespace | shareable =>
    cases h
    rfl
  | stringRef | sharedRef =>
    obtain ⟨_, _, h⟩ := bind_eq_ok.1 h
    obtain ⟨t, ht, h⟩ := bind_eq_ok.1 h
    cases h
    exact depth_of_charge ht

theorem outside_slots (h : Outside stack) : Outline.Outside (stack.map Frame.slot) := by
  intro isText rest hs
  obtain ⟨frame, stack, rfl, hf, _⟩ := List.map_eq_cons_iff.1 hs
  cases frame with
  | chunks isText octets => exact h isText octets stack rfl
  | array | map | tag => cases hf

theorem outside_of_completes (h : Completes o stack s item r) : Outside stack := by
  intro isText octets rest hs
  subst hs
  cases h

theorem traces_fill (h : Completes o stack s item r) :
    Traces r (Outline.fill (stack.map Frame.slot) s.depth) := by
  induction h with
  | top => exact ⟨rfl, nofun⟩
  | element _ hn =>
    simp only [List.map_cons, Frame.slot, Outline.fill, hn]
    exact ⟨rfl, fun _ ↦ rfl⟩
  | lastElement _ hn _ ih =>
    simp only [List.map_cons, Frame.slot, Outline.fill, hn]
    exact ih
  | key => exact ⟨rfl, fun _ ↦ rfl⟩
  | value hn =>
    simp only [List.map_cons, Frame.slot, Option.isNone_some, Outline.fill, hn]
    exact ⟨rfl, fun _ ↦ rfl⟩
  | lastValue hn _ ih =>
    simp only [List.map_cons, Frame.slot, Option.isNone_some, Outline.fill, hn]
    exact ih
  | @tag _ _ _ s t _ _ _ hc _ ih =>
    rw [depth_of_closeTag hc] at ih
    exact ih

theorem depth_of_openRole {number : UInt64} {shared : Bool} {t : Scope} {role : TagRole}
    (h : openRole o shared number s = .ok (role, t)) : t.depth = s.depth := by
  unfold openRole at h
  split at h
  · cases h
    rfl
  split at h
  · cases h
    rfl
  split at h
  · split at h <;> cases h
    rfl
  split at h <;> cases h <;> rfl

theorem enter_depth {t : Scope} (h : s.enter o.maxDepth = .ok t) :
    Outline.enter o.maxDepth s.depth = .ok t.depth ∧ t.leave.depth = s.depth := by
  unfold Scope.enter at h
  split at h
  case isTrue hd =>
    cases h
    exact ⟨if_pos hd, rfl⟩
  case isFalse => cases h

theorem exists_push_of_fill {l : Lexeme} (hs : Outside stack)
    (hl : Outline.write o.maxDepth (stack.map Frame.slot) s.depth l =
      .ok (Outline.fill (stack.map Frame.slot) s.depth))
    (h : Traces r (Outline.fill (stack.map Frame.slot) s.depth)) :
    ∃ u, (⟨stack, s⟩ : Assembly).outline.push o.maxDepth l = .ok u ∧ Traces r u :=
  ⟨_, (Outline.push_of_outside (outside_slots hs) _ _ l).trans hl, h⟩

theorem exists_push_of_open {l : Lexeme} {frame : Frame} {t : Scope} (hs : Outside stack)
    (hl : Outline.write o.maxDepth (stack.map Frame.slot) s.depth l =
      .ok (false, ⟨frame.slot :: stack.map Frame.slot, t.depth⟩)) :
    ∃ u, (⟨stack, s⟩ : Assembly).outline.push o.maxDepth l = .ok u ∧
      Traces (none, ⟨frame :: stack, t⟩) u :=
  ⟨_, (Outline.push_of_outside (outside_slots hs) _ _ l).trans hl, rfl, fun _ ↦ rfl⟩

theorem openContainer_empty_enter {t : Scope} (he : s.enter o.maxDepth = .ok t) (slot : Slot)
    (slots : List Slot) :
    Outline.openContainer o.maxDepth slot (some 0) slots s.depth =
      .ok (Outline.fill slots s.depth) := by
  rw [Outline.openContainer, (enter_depth he).1, ok_bind, if_pos rfl, ← (enter_depth he).2]
  rfl

theorem openContainer_enter {t : Scope} (he : s.enter o.maxDepth = .ok t) {count : Option UInt64}
    (hn : count ≠ some 0) (slot : Slot) (slots : List Slot) :
    Outline.openContainer o.maxDepth slot count slots s.depth =
      .ok (false, ⟨slot :: slots, t.depth⟩) := by
  rw [Outline.openContainer, (enter_depth he).1, ok_bind, if_neg hn]
  rfl

/-- What assembling accepts, its outline accepts. -/
theorem exists_outline_push {a : Assembly} {l : Lexeme} (h : a.push o l = .ok r) :
    ∃ u, a.outline.push o.maxDepth l = .ok u ∧ Traces r u := by
  cases pushes_of_push h with
  | @scalar stack s a r h =>
    refine exists_push_of_fill (outside_of_completes h) ?_ (traces_fill h)
    cases a <;> rfl
  | @string stack s isText b r ht h =>
    have hs := outside_of_completes h
    have hf := traces_fill h
    refine exists_push_of_fill hs ?_ hf
    cases isText <;> exact Outline.string_of_outside (outside_slots hs) _ _
  | @openString stack hs s isText =>
    refine exists_push_of_open hs ?_
    cases isText <;> rfl
  | @chunk isText octets stack s b =>
    refine ⟨(false, ⟨.chunks isText :: stack.map Frame.slot, s.depth⟩), ?_, rfl, fun _ ↦ rfl⟩
    cases isText <;> rfl
  | @closeString isText octets stack s r h => exact ⟨_, rfl, traces_fill h⟩
  | @emptyArray stack s t r he h =>
    refine exists_push_of_fill (outside_of_completes h) (openContainer_empty_enter he _ _) ?_
    exact (enter_depth he).2 ▸ traces_fill h
  | openArray hs hn he => exact exists_push_of_open hs (openContainer_enter he hn _ _)
  | closeArray h => exact ⟨_, rfl, traces_fill h⟩
  | @emptyMap stack s t r he h =>
    refine exists_push_of_fill (outside_of_completes h) (openContainer_empty_enter he _ _) ?_
    exact (enter_depth he).2 ▸ traces_fill h
  | openMap hs hn he => exact exists_push_of_open hs (openContainer_enter he hn _ _)
  | closeMap h => exact ⟨_, rfl, traces_fill h⟩
  | @openTag stack hs s t u number role he hr =>
    refine exists_push_of_open hs ?_
    rw [Outline.write_tag, (enter_depth he).1, ok_bind, depth_of_openRole hr]
    rfl

end Assembly
end Cbor
