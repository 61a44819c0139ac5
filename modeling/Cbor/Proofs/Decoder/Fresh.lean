import Cbor.Proofs.Assembly.Levels
import Cbor.Proofs.Decoder.Run
import Cbor.Proofs.Diagnostic.Layout

namespace Cbor

open Decoder (Options Product)

namespace Assembly

/-- There are the namespaces of the open containers and no others, and no shared items. -/
structure Tidy (stack : List Frame) (s : Scope) : Prop where
  strings : s.strings.length = namespaces stack
  shared : s.shared = #[]

variable {o : Options} {stack : List Frame} {s t : Scope} {frame : Frame}

namespace Tidy

theorem congr (h : Tidy stack s) (hs : t.strings.length = s.strings.length)
    (hshared : t.shared = s.shared) : Tidy stack t :=
  ⟨hs.trans h.strings, hshared.trans h.shared⟩

theorem enter (h : Tidy stack s) {maxDepth : Nat} (ht : s.enter maxDepth = .ok t) :
    Tidy stack t := by
  unfold Scope.enter at ht
  split at ht <;> cases ht
  exact h.congr rfl rfl

theorem nextItem_eq (h : Tidy [] s) : s.nextItem = {} := by
  obtain ⟨depth, expanded, strings, shared⟩ := s
  obtain rfl : strings = [] := List.length_eq_zero_iff.1 h.strings
  obtain rfl : shared = #[] := h.shared
  rfl

end Tidy

theorem tidy_cons_iff (hf : opens frame = 0) : Tidy (frame :: stack) s ↔ Tidy stack s :=
  ⟨fun h ↦ ⟨(namespaced_cons_iff hf).1 h.strings, h.shared⟩,
    fun h ↦ ⟨(namespaced_cons_iff hf).2 h.strings, h.shared⟩⟩

theorem shared_charge {maxSize n : Nat} (ht : s.charge maxSize n = .ok t) : t.shared = s.shared := by
  obtain ⟨_, _, ht⟩ := bind_eq_ok.1 ht
  cases ht
  rfl

theorem tidy_closeTag {number : UInt64} {role : TagRole} {content item : Item}
    (h : Tidy (.tag number role :: stack) s)
    (hc : closeTag o number role content s = .ok (item, t)) : Tidy stack t := by
  refine ⟨namespaced_closeTag h.strings hc, ?_⟩
  cases role with
  | stringNamespace =>
    cases hc
    exact h.shared
  | shareable cell =>
    cases hc
    -- no cell is in the table of an assembly that leaves shared items alone
    simp only [h.shared, Array.setIfInBounds_empty]
  | stringRef | sharedRef =>
    simp only [closeTag, bind_eq_ok] at hc
    obtain ⟨_, _, u, hu, hc⟩ := hc
    cases hc
    exact (shared_charge hu).trans h.shared
  | plain =>
    simp only [closeTag, bind_eq_ok] at hc
    obtain ⟨found, _, hc⟩ := hc
    cases found <;> cases hc <;> exact h.shared

def TidyResult (r : Option Item × Assembly) : Prop :=
  Tidy r.2.stack r.2.scope ∧ (r.1.isSome → r.2 = {})

theorem Tidy.begun (h : Tidy stack s) : TidyResult (none, ⟨stack, s⟩) := ⟨h, nofun⟩

theorem tidy_of_completes {item : Item} {r : Option Item × Assembly}
    (h : Completes o stack s item r) (hs : Tidy stack s) : TidyResult r := by
  induction h with
  | top s item =>
    refine ⟨hs.congr rfl rfl, fun _ ↦ ?_⟩
    rw [hs.nextItem_eq]
  | element | key | value =>
    exact ((tidy_cons_iff rfl).2 ((tidy_cons_iff rfl).1 hs)).begun
  | lastElement _ _ _ ih | lastValue _ _ ih =>
    exact ih (((tidy_cons_iff rfl).1 hs).congr rfl rfl)
  | tag hc _ ih =>
    have hleave := hs.congr (t := Scope.leave _) rfl rfl
    exact ih (tidy_closeTag hleave hc)

theorem tidy_openRole (ho : o.sharedRef = .off) {inShareable : Bool} {number : UInt64}
    {role : TagRole} (h : Tidy stack s)
    (hr : openRole o inShareable number s = .ok (role, t)) :
    Tidy (.tag number role :: stack) t := by
  refine ⟨namespaced_openRole h.strings hr, ?_⟩
  simp only [openRole, ho, ne_eq, not_true_eq_false, and_false, if_false] at hr
  split at hr
  · cases hr
    exact h.shared
  split at hr <;> cases hr <;> exact h.shared

theorem tidy_of_push (ho : o.sharedRef = .off) {a : Assembly} {l : Lexeme}
    {r : Option Item × Assembly} (ha : Tidy a.stack a.scope) (h : a.push o l = .ok r) :
    TidyResult r := by
  cases pushes_of_push h with
  | scalar h => exact tidy_of_completes h ha
  | string isText ht h =>
    exact tidy_of_completes h (ha.congr (StringNamespace.length_record _ _ _) rfl)
  | openString => exact ((tidy_cons_iff rfl).2 ha).begun
  | chunk => exact ((tidy_cons_iff rfl).2 ((tidy_cons_iff rfl).1 ha)).begun
  | closeString h => exact tidy_of_completes h ((tidy_cons_iff rfl).1 ha)
  | emptyArray he h | emptyMap he h =>
    exact tidy_of_completes h ((ha.enter he).congr rfl rfl)
  | openArray _ _ he | openMap _ _ he => exact ((tidy_cons_iff rfl).2 (ha.enter he)).begun
  | closeArray h | closeMap h =>
    exact tidy_of_completes h (((tidy_cons_iff rfl).1 ha).congr rfl rfl)
  | openTag _ he hr => exact (tidy_openRole ho (ha.enter he) hr).begun

end Assembly

namespace Decoder

variable {o : Options} {p q : Product}

def Product.Steady (o : Options) : Product → Prop
  | .items a => o.flags.contains .edn = false ∧ Assembly.Tidy a.stack a.scope
  | .diagnostic t => o.flags.contains .edn = true ∧ Diagnostic.Transcript.Laid o.edn t

theorem Product.steady_start (o : Options) : (start o).Steady o := by
  unfold start
  split
  case isTrue h => exact ⟨h, .nil⟩
  case isFalse h => exact ⟨Bool.eq_false_iff.2 h, rfl, rfl⟩

theorem Product.steady_of_push (ho : o.sharedRef = .off) (hp : p.Steady o) {l : Lexeme}
    {r : Option Item} (h : p.push o l = .ok (r, q)) :
    q.Steady o ∧ (r.isSome → q = start o) := by
  cases p with
  | items a =>
    obtain ⟨hf, ha⟩ := hp
    obtain ⟨⟨_, b⟩, hl, h⟩ := bind_eq_ok.1 h
    cases h
    obtain ⟨hb, hstart⟩ := Assembly.tidy_of_push ho ha hl
    refine ⟨⟨hf, hb⟩, fun hr ↦ ?_⟩
    rw [start, hf, if_neg Bool.false_ne_true, ← hstart hr]
  | diagnostic t =>
    obtain ⟨hf, ht⟩ := hp
    simp only [push] at h
    split at h
    case h_1 => cases h
    case h_2 hl =>
      cases h
      have hrests := Diagnostic.Transcript.rests_push ht l
      rw [hl] at hrests
      exact ⟨⟨hf, (hrests false rfl).1⟩, nofun⟩
    case h_3 hl =>
      cases h
      obtain ⟨out, hu⟩ := Diagnostic.Transcript.exists_of_push ht hl
      cases hu
      exact ⟨⟨hf, .nil⟩, fun _ ↦ by rw [start, if_pos hf]⟩

/-- When an item is ready, nothing else is half read. -/
theorem eq_start_of_run (ho : o.sharedRef = .off) (hp : p.Steady o) {stripped : Bool}
    {b rest : Octets} {item : Item} (h : run o p stripped b = .ready item rest q) :
    q = .start o := by
  fun_induction run o p stripped b with
  | case1 | case2 | case3 | case5 => cases h
  | case4 _ _ _ _ _ _ _ ih => exact ih hp h
  | case6 p stripped b l rest' hr hs found q' hq =>
    cases h
    exact (Product.steady_of_push ho hp hq).2 rfl
  | case7 p stripped b l rest' hr hs q' hq ih => exact ih (Product.steady_of_push ho hp hq).1 h

end Decoder
end Cbor
