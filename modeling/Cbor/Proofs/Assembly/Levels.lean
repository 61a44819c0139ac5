import Cbor.Proofs.Assembly.Outline

namespace Cbor

open Decoder (Options)

namespace StringNamespace

theorem length_record (item : Item) (length : Nat) (tables : List StringNamespace) :
    (record item length tables).length = tables.length := by
  cases tables <;> rfl

end StringNamespace

namespace Assembly

def opens : Frame → Nat
  | .tag _ .stringNamespace => 1
  | _ => 0

def namespaces : List Frame → Nat
  | [] => 0
  | frame :: stack => opens frame + namespaces stack

/-- A string of indefinite length is no level of its own. -/
def isLevel : Frame → Bool
  | .chunks .. => false
  | _ => true

def levels (stack : List Frame) : Nat := stack.countP isLevel

theorem forall_isLevel {stack : List Frame} (hs : Outside stack)
    (h : ∀ frame ∈ stack.tail, isLevel frame = true) :
    ∀ frame ∈ stack, isLevel frame = true := by
  cases stack with
  | nil => nofun
  | cons frame stack =>
    refine List.forall_mem_cons.2 ⟨?_, h⟩
    cases frame with
    | chunks isText octets => exact absurd rfl (hs isText octets stack)
    | _ => rfl

def Namespaced (stack : List Frame) (s : Scope) : Prop := s.strings.length = namespaces stack

/-- The depth is that of the open containers, within bounds. -/
structure Nested (o : Options) (stack : List Frame) (s : Scope) : Prop where
  depth : s.depth = levels stack
  le : s.depth ≤ o.maxDepth

variable {o : Options} {stack : List Frame} {s t : Scope} {frame : Frame}
  {r : Option Item × Assembly}

theorem strings_enter {maxDepth : Nat} (ht : s.enter maxDepth = .ok t) : t.strings = s.strings := by
  unfold Scope.enter at ht
  split at ht <;> cases ht
  rfl

theorem strings_charge {maxSize n : Nat} (ht : s.charge maxSize n = .ok t) :
    t.strings = s.strings := by
  obtain ⟨_, _, ht⟩ := bind_eq_ok.1 ht
  cases ht
  rfl

theorem namespaced_cons_iff (hf : opens frame = 0) :
    Namespaced (frame :: stack) s ↔ Namespaced stack s := by
  rw [Namespaced, Namespaced, namespaces, hf, Nat.zero_add]

theorem namespaced_closeTag {number : UInt64} {role : TagRole} {content item : Item}
    (h : Namespaced (.tag number role :: stack) s)
    (hc : closeTag o number role content s = .ok (item, t)) : Namespaced stack t := by
  cases role with
  | stringNamespace =>
    cases hc
    rw [Namespaced, namespaces, opens] at h
    rw [Namespaced, List.length_tail, h, Nat.add_sub_cancel_left]
  | shareable =>
    cases hc
    exact (namespaced_cons_iff rfl).1 h
  | stringRef | sharedRef =>
    simp only [closeTag, bind_eq_ok] at hc
    obtain ⟨_, _, u, hu, hc⟩ := hc
    cases hc
    rw [Namespaced, strings_charge hu]
    exact (namespaced_cons_iff rfl).1 h
  | plain =>
    simp only [closeTag, bind_eq_ok] at hc
    obtain ⟨found, _, hc⟩ := hc
    cases found <;> cases hc <;> exact (namespaced_cons_iff rfl).1 h

theorem namespaced_openRole {inShareable : Bool} {number : UInt64} {role : TagRole}
    (h : Namespaced stack s) (hr : openRole o inShareable number s = .ok (role, t)) :
    Namespaced (.tag number role :: stack) t := by
  unfold openRole at hr
  split at hr
  · cases hr
    rw [Namespaced, List.length_cons, h, namespaces, opens, Nat.add_comm]
  split at hr
  · cases hr
    exact (namespaced_cons_iff rfl).2 h
  split at hr
  · split at hr <;> cases hr
    exact (namespaced_cons_iff rfl).2 h
  split at hr <;> cases hr <;> exact (namespaced_cons_iff rfl).2 h

theorem namespaced_of_completes {item : Item} (h : Completes o stack s item r)
    (hs : Namespaced stack s) : Namespaced r.2.stack r.2.scope := by
  induction h with
  | top => exact hs
  | element | key | value => exact (namespaced_cons_iff rfl).2 ((namespaced_cons_iff rfl).1 hs)
  | lastElement _ _ _ ih | lastValue _ _ ih => exact ih ((namespaced_cons_iff rfl).1 hs)
  | tag hc _ ih => exact ih (namespaced_closeTag (s := Scope.leave _) hs hc)

theorem namespaced_of_push {a : Assembly} {l : Lexeme} (ha : Namespaced a.stack a.scope)
    (h : a.push o l = .ok r) : Namespaced r.2.stack r.2.scope := by
  cases pushes_of_push h with
  | scalar h => exact namespaced_of_completes h ha
  | string isText ht h =>
    exact namespaced_of_completes h ((StringNamespace.length_record _ _ _).trans ha)
  | openString => exact (namespaced_cons_iff rfl).2 ha
  | chunk => exact (namespaced_cons_iff rfl).2 ((namespaced_cons_iff rfl).1 ha)
  | closeString h | closeArray h | closeMap h =>
    exact namespaced_of_completes h ((namespaced_cons_iff rfl).1 ha)
  | emptyArray he h | emptyMap he h =>
    exact namespaced_of_completes h ((congrArg _ (strings_enter he)).trans ha)
  | openArray _ _ he | openMap _ _ he =>
    exact (namespaced_cons_iff rfl).2 ((congrArg _ (strings_enter he)).trans ha)
  | openTag _ he hr => exact namespaced_openRole ((congrArg _ (strings_enter he)).trans ha) hr

namespace Nested

theorem congr (h : Nested o stack s) (ht : t.depth = s.depth) : Nested o stack t :=
  ⟨ht.trans h.depth, ht ▸ h.le⟩

theorem cons_iff (hf : isLevel frame = true) :
    Nested o (frame :: stack) s ↔ s.depth = levels stack + 1 ∧ s.depth ≤ o.maxDepth := by
  rw [show levels stack + 1 = levels (frame :: stack) from (List.countP_cons_of_pos hf).symm]
  exact ⟨fun h ↦ ⟨h.depth, h.le⟩, fun h ↦ ⟨h.1, h.2⟩⟩

theorem enter (h : Nested o stack s) (ht : s.enter o.maxDepth = .ok t)
    (hf : isLevel frame = true) : Nested o (frame :: stack) t := by
  unfold Scope.enter at ht
  split at ht
  case isTrue hd =>
    cases ht
    exact (cons_iff hf).2 ⟨congrArg (· + 1) h.depth, hd⟩
  case isFalse => cases ht

theorem leave (h : Nested o (frame :: stack) s) (hf : isLevel frame = true) :
    Nested o stack s.leave := by
  obtain ⟨hd, hle⟩ := (cons_iff hf).1 h
  have hl : s.leave.depth = levels stack := by rw [Scope.leave, hd, Nat.add_sub_cancel]
  exact ⟨hl, by omega⟩

theorem replace {frame' : Frame} (h : Nested o (frame :: stack) s) (hf : isLevel frame = true)
    (hf' : isLevel frame' = true) : Nested o (frame' :: stack) s :=
  (cons_iff hf').2 ((cons_iff hf).1 h)

theorem chunks_iff {isText : Bool} {octets : Array UInt8} :
    Nested o (.chunks isText octets :: stack) s ↔ Nested o stack s :=
  ⟨fun h ↦ ⟨h.depth, h.le⟩, fun h ↦ ⟨h.depth, h.le⟩⟩

end Nested

theorem nested_of_completes {item : Item} (h : Completes o stack s item r)
    (hs : Nested o stack s) : Nested o r.2.stack r.2.scope := by
  induction h with
  | top => exact ⟨rfl, Nat.zero_le _⟩
  | element | key | value => exact hs.replace rfl rfl
  | lastElement _ _ _ ih | lastValue _ _ ih => exact ih (hs.leave rfl)
  | tag hc _ ih => exact ih ((hs.leave rfl).congr (depth_of_closeTag hc))

theorem nested_of_push {a : Assembly} {l : Lexeme} (ha : Nested o a.stack a.scope)
    (h : a.push o l = .ok r) : Nested o r.2.stack r.2.scope := by
  cases pushes_of_push h with
  | scalar h => exact nested_of_completes h ha
  | string isText ht h => exact nested_of_completes h (ha.congr rfl)
  | openString => exact Nested.chunks_iff.2 ha
  | chunk => exact Nested.chunks_iff.2 (Nested.chunks_iff.1 ha)
  | closeString h => exact nested_of_completes h (Nested.chunks_iff.1 ha)
  | emptyArray he h | emptyMap he h =>
    exact nested_of_completes h (ha.congr (enter_depth he).2)
  | openArray _ _ he | openMap _ _ he => exact ha.enter he rfl
  | closeArray h | closeMap h => exact nested_of_completes h (ha.leave rfl)
  | openTag _ he hr => exact (ha.enter he rfl).congr (depth_of_openRole hr)

end Assembly
end Cbor
