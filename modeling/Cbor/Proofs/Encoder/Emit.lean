import Cbor.Proofs.Encoder.Stateless
import Cbor.Proofs.Outcome

namespace Cbor.Encoder

def Sink.add (s : Sink) (b : Octets) : Sink := { s with octets := s.octets ++ b }

@[simp] theorem Sink.add_nil (s : Sink) : s.add [] = s := by
  simp [add]

theorem append_octets (a : Array UInt8) (b c : Octets) : a ++ b ++ c = a ++ (b ++ c) := by
  rw [← Array.toList_inj]
  simp

theorem Sink.add_add (s : Sink) (b c : Octets) : (s.add b).add c = s.add (b ++ c) := by
  simp only [add, append_octets]

@[simp] theorem Sink.depth_add (s : Sink) (b : Octets) : (s.add b).depth = s.depth := rfl

@[simp] theorem Sink.cells_add (s : Sink) (b : Octets) : (s.add b).cells = s.cells := rfl

@[simp] theorem Sink.strings_add (s : Sink) (b : Octets) : (s.add b).strings = s.strings := rfl

theorem run_seq {σ α β : Type} (a : ExceptT Fault (StateM σ) α)
    (f : α → ExceptT Fault (StateM σ) β) (s : σ) :
    (a >>= f).run.run s =
      match a.run.run s with
      | (.ok x, s) => (f x).run.run s
      | (.error e, s) => (.error e, s) := by
  simp only [ExceptT.run_bind, StateT.run_bind]
  rcases a.run.run s with ⟨_ | _, t⟩
  · rfl
  · rfl

namespace Emit

def after (act : Emit Unit) (s : Sink) : Except Fault Sink :=
  match act.run.run s with
  | (.ok _, s) => .ok s
  | (.error e, _) => .error e

variable {α : Type} (s : Sink)

theorem after_seq (a : Emit Unit) (b : Unit → Emit Unit) :
    after (a >>= b) s = after a s >>= after (b ()) := by
  unfold after
  rw [run_seq]
  rcases a.run.run s with ⟨_ | _, t⟩
  · rfl
  · rfl

theorem after_get_bind (f : Sink → Emit Unit) : after (get >>= f) s = after (f s) s := rfl

theorem after_modifyGet_bind (g : Sink → α × Sink) (f : α → Emit Unit) :
    after (modifyGet g >>= f) s = after (f (g s).1) (g s).2 := rfl

theorem after_put (b : Octets) : after (put b) s = .ok (s.add b) := rfl

theorem after_head (major : Nat) (n : UInt64) :
    after (head major n) s = .ok (s.add (Head.write major n)) := rfl

theorem after_ite (p : Prop) [Decidable p] (a b : Emit Unit) :
    after (if p then a else b) s = if p then after a s else after b s := by
  split <;> rfl

theorem after_enter (maxDepth : Nat) :
    after (enter maxDepth) s =
      if s.depth < maxDepth then .ok { s with depth := s.depth + 1 } else .error .depth := by
  unfold enter
  rw [after_get_bind, after_ite]
  rfl

theorem after_nested (o : Options) (a : Emit Unit) :
    after (nested o a) s =
      if s.depth < o.maxDepth then
        after a { s with depth := s.depth + 1 } >>= fun s ↦ .ok { s with depth := s.depth - 1 }
      else .error .depth := by
  unfold nested
  rw [after_seq, after_enter]
  split
  · rw [ok_bind, after_seq]
    rfl
  · rfl

theorem after_inNamespace (a : Emit Unit) :
    after (inNamespace a) s =
      after a { s.add (Head.write 6 Tag.stringRefNamespace) with strings := #[] :: s.strings } >>=
        fun s ↦ .ok { s with strings := s.strings.tail } := by
  unfold inNamespace
  rw [after_seq, after_head, ok_bind]
  simp only [after, ExceptT.run_mk, StateT.run_bind, StateT.run_modify, pure_bind,
    Sink.strings_add]
  generalize a.run.run _ = r
  rcases r with ⟨_ | _, t⟩
  · rfl
  · rfl

theorem after_liftExcept_bind (x : Except Fault α) (f : α → Emit Unit) :
    after (liftM x >>= f) s = x >>= fun a ↦ after (f a) s := by
  cases x <;> rfl

theorem keyOctets_eq (key : Emit Unit) (depth : Nat) :
    keyOctets key depth = (fun s ↦ s.octets.toList) <$> after key { depth } := by
  unfold keyOctets after
  rcases key.run.run { depth } with ⟨_ | _, _⟩ <;> rfl

/-- The writings leave what is in the relation behind, whatever sink they start from. -/
def Along (R : ∀ α, Except Fault α → Except Fault α → Prop) (a a' : Emit Unit) : Prop :=
  ∀ s, R Sink (after a s) (after a' s)

namespace Along

variable {R : ∀ α, Except Fault α → Except Fault α → Prop} (hR : Congruence R) {a a' : Emit Unit}

include hR

theorem refl (a : Emit Unit) : Along R a a := fun _ ↦ hR.refl _

theorem seq {b b' : Unit → Emit Unit} (h : Along R a a') (h' : Along R (b ()) (b' ())) :
    Along R (a >>= b) (a' >>= b') := by
  intro s
  rw [after_seq, after_seq]
  exact hR.bind (h s) h'

theorem inNamespace (h : Along R a a') : Along R (inNamespace a) (inNamespace a') := by
  intro s
  rw [after_inNamespace, after_inNamespace]
  exact hR.bind (h _) fun _ ↦ hR.refl _

theorem keyOctets (h : Along R a a') (depth : Nat) :
    R Octets (keyOctets a depth) (keyOctets a' depth) := by
  rw [keyOctets_eq, keyOctets_eq]
  exact hR.map _ (h _)

theorem forM {ι : Type} {f g : ι → Emit Unit} {l : List ι} (h : ∀ i ∈ l, Along R (f i) (g i)) :
    Along R (l.forM f) (l.forM g) := by
  induction l with
  | nil => exact refl hR _
  | cons i l ih =>
    exact seq hR (h i List.mem_cons_self) (ih fun i hi ↦ h i (List.mem_cons_of_mem _ hi))

omit hR in
theorem ite {p : Prop} [Decidable p] {b b' : Emit Unit} (h : Along R a a') (h' : Along R b b') :
    Along R (if p then a else b) (if p then a' else b') := by
  split
  · exact h
  · exact h'

theorem tag {o o' : Options} (hs : o.stringRef = o'.stringRef) (hr : o.sharedRef = o'.sharedRef)
    {number : UInt64} {i i' : Item} (hi : checkStringRef i = checkStringRef i')
    (hn : Along R (nested o (Emit.inNamespace a)) (nested o' (Emit.inNamespace a')))
    (ht : Along R (tagged o number a) (tagged o' number a')) :
    Along R (tag o number i a) (tag o' number i' a') := by
  unfold Emit.tag
  rw [hs, hr, hi]
  refine ite hn (ite (seq hR (refl hR _) ?_) ?_)
  · exact ite (seq hR (refl hR _) ht) ht
  · exact ite (seq hR (refl hR _) ht) ht

end Along

end Emit
end Cbor.Encoder
