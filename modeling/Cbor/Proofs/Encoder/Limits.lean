import Cbor.Proofs.Encoder.Encode
import Cbor.Proofs.Encoder.Order
import Cbor.Proofs.Encoder.Overrides

namespace Cbor

namespace Encoder

open Emit

namespace Emit

/-- The one writing leaves what the other leaves, unless its nesting cuts it off. -/
def Curbed (a a' : Emit Unit) : Prop := Along (fun _ ↦ CutOff (· = Fault.depth)) a a'

namespace Curbed

variable {o o' : Options} {a a' : Emit Unit}

theorem refl (a : Emit Unit) : Curbed a a := Along.refl CutOff.congruence a

theorem seq {b b' : Unit → Emit Unit} (h : Curbed a a') (h' : Curbed (b ()) (b' ())) :
    Curbed (a >>= b) (a' >>= b') :=
  Along.seq CutOff.congruence h h'

theorem ite {p : Prop} [Decidable p] {b b' : Emit Unit} (h : Curbed a a') (h' : Curbed b b') :
    Curbed (if p then a else b) (if p then a' else b') :=
  Along.ite h h'

theorem inNamespace (h : Curbed a a') : Curbed (inNamespace a) (inNamespace a') :=
  Along.inNamespace CutOff.congruence h

theorem sortedEntries {ι : Type} {p q : ι → EntryPlan} {l : List ι}
    (hk : ∀ i ∈ l, Curbed (p i).key (q i).key) (he : ∀ i ∈ l, Curbed (p i).entry (q i).entry) :
    Curbed (sortedEntries (l.map p)) (sortedEntries (l.map q)) := by
  intro s
  rw [after_sortedEntries, after_sortedEntries, keyed_map, keyed_map, bind_map_left, bind_map_left]
  have hkeyed : CutOff (· = Fault.depth) (keyed (fun i ↦ keyOctets (p i).key s.depth) l)
      (keyed (fun i ↦ keyOctets (q i).key s.depth) l) :=
    .mapM fun i hi ↦ .map _ (Along.keyOctets CutOff.congruence (hk i hi) s.depth)
  refine hkeyed.step fun ks hks ↦ ?_
  rw [sortKeyed_map (fun k ↦ (k.1, p k.2)) (fun _ ↦ rfl),
    sortKeyed_map (fun k ↦ (k.1, q k.2)) (fun _ ↦ rfl)]
  simp only [List.forM_eq_forM, List.forM_map]
  apply Along.forM CutOff.congruence
  intro k hm
  exact he k.2 (mem_of_keyed hks (mem_sortKeyed.1 hm))

section

variable (hd : o'.maxDepth ≤ o.maxDepth)

include hd

theorem nested (h : Curbed a a') : Curbed (nested o' a) (nested o a') := by
  intro s
  rw [after_nested, after_nested]
  refine .guard (fun hs ↦ Nat.lt_of_lt_of_le hs hd) ?_ (.bind (h _) fun _ ↦ .refl _)
  rfl

theorem tagged (number : UInt64) (h : Curbed a a') :
    Curbed (tagged o' number a) (tagged o number a') :=
  .nested hd (.seq (.refl _) h)

theorem stamp (t : Moment) : Curbed (stamp o' t) (stamp o t) := by
  unfold Emit.stamp
  cases Rfc3339.format? t with
  | none => exact .refl _
  | some s => exact .tagged hd _ (.refl _)

theorem bignum (b : Bignum) : Curbed (bignum o' b) (bignum o b) := by
  unfold Emit.bignum
  cases b.word? with
  | some n => exact .refl _
  | none => exact .tagged hd _ (.refl _)

theorem fraction (number : UInt64) (f : Fraction) :
    Curbed (fraction o' number f) (fraction o number f) :=
  .tagged hd _ (.nested hd (.seq (.refl _) (.seq (.refl _) (.bignum hd _))))

theorem decimal (f : Fraction) : Curbed (decimal o' f) (decimal o f) :=
  .ite (.bignum hd _) (.fraction hd _ f)

theorem tag (hs : o'.stringRef = o.stringRef) (hr : o'.sharedRef = o.sharedRef) (number : UInt64)
    (item : Item) (h : Curbed a a') : Curbed (tag o' number item a) (tag o number item a') := by
  have hn := nested hd (inNamespace h)
  have ht := tagged hd number h
  exact Along.tag CutOff.congruence hs hr rfl hn ht

end

end Curbed
end Emit

def Options.limited (o : Options) (maxDepth : Nat) : Options := { o with maxDepth }

variable {o : Options} {maxDepth : Nat}

section

variable (hd : maxDepth ≤ o.maxDepth)

include hd

theorem curbed_shareable (cell : Nat) (item : Item) {a a' : Emit Unit} (h : Curbed a a') :
    Curbed (shareable (o.limited maxDepth) cell item a) (shareable o cell item a') := by
  unfold shareable
  refine .ite (.seq (.refl _) ?_) ?_
  all_goals refine .ite (.seq (.refl _) ?_) ?_
  all_goals
    intro s
    have hl : lookupCell (o.limited maxDepth) cell s.cells = lookupCell o cell s.cells := rfl
    rw [after_findCell_bind, after_findCell_bind, hl]
    cases (lookupCell o cell s.cells).1 with
    | some index => exact Curbed.tagged hd _ (.refl _) _
    | none => exact Curbed.tagged hd _ h _

theorem curbed_tag (number : UInt64) (item : Item) {a a' : Emit Unit} (h : Curbed a a') :
    Curbed (tag (o.limited maxDepth) number item a) (tag o number item a') := by
  have hs : (o.limited maxDepth).stringRef = o.stringRef := rfl
  have hr : (o.limited maxDepth).sharedRef = o.sharedRef := rfl
  exact Curbed.tag hd hs hr number item h

variable (hc : o.maxDepth ≤ maxDepthLimit)

include hc

theorem check_limited : (o.limited maxDepth).check = o.check := by
  have hlimit : ¬ maxDepthLimit < maxDepth := by omega
  unfold Options.check
  rw [if_neg (Nat.not_lt.2 hc)]
  exact congrArg (o.flags.checkWriting >>= ·) (funext fun _ ↦ if_neg hlimit)

theorem override_limited (p : Overrides) :
    (o.limited maxDepth).override p = (Options.limited · maxDepth) <$> o.override p := by
  unfold Options.override
  split
  · rfl
  · simp only [map_bind, pure_eq_ok, map_ok]
    have hcheck (changed : Options) (h : changed.maxDepth = o.maxDepth) :
        changed.check = (changed.limited maxDepth).check :=
      (check_limited (h ▸ hd) (h ▸ hc)).symm
    apply congrArg (· >>= fun _ ↦ _) (Eq.symm _)
    apply hcheck
    rfl

end

section

variable {o' : Options} {es : List (Item × Item)}
  (h : ∀ e ∈ es, Curbed (write o' true e.1) (write o true e.1) ∧
    Curbed (write o' false e.2) (write o false e.2))

include h

theorem curbed_writeEntries : Curbed (writeEntries o' es) (writeEntries o es) := by
  induction es with
  | nil => exact .refl _
  | cons e es ih =>
    obtain ⟨hk, hv⟩ := h e List.mem_cons_self
    rw [writeEntries, writeEntries]
    exact .seq hk (.seq hv (ih fun e he ↦ h e (List.mem_cons_of_mem _ he)))

theorem curbed_entryPlans
    (hk : ∀ e ∈ es, Curbed (write o'.withoutReferences true e.1)
      (write o.withoutReferences true e.1)) :
    Curbed (sortedEntries (entryPlans o' es)) (sortedEntries (entryPlans o es)) := by
  rw [entryPlans_eq_map, entryPlans_eq_map]
  apply Curbed.sortedEntries hk
  intro e he
  exact .seq (h e he).1 (h e he).2

end

mutual

theorem curbed_write : (v : Item) → ∀ {o : Options}, maxDepth ≤ o.maxDepth →
    o.maxDepth ≤ maxDepthLimit → ∀ asKey : Bool,
    Curbed (write (o.limited maxDepth) asKey v) (write o asKey v)
  | .unsigned _, _, _, _, _ | .negative _, _, _, _, _ | .bytes _, _, _, _, _
  | .text _, _, _, _, _ | .string _, _, _, _, _ | .bool _, _, _, _, _ | .null, _, _, _, _
  | .undefined, _, _, _, _ | .float16 _, _, _, _, _ | .float32 _, _, _, _, _
  | .float64 _, _, _, _, _ => by
    rw [write, write]
    exact .refl _
  | .array items, _, hd, hc, _ => by
    rw [write, write]
    exact .nested hd (.seq (.refl _) (curbed_writeAll items hd hc))
  | .map entries, o, hd, hc, _ => by
    have hentries (e : Item × Item) (he : e ∈ entries) := curbed_entries entries e he hd hc
    have hkeys (e : Item × Item) (he : e ∈ entries) :=
      (curbed_entries entries e he (o := o.withoutReferences) hd hc).1
    rw [write, write]
    exact .nested hd (.seq (.refl _) (.ite (curbed_entryPlans hentries hkeys)
      (curbed_writeEntries hentries)))
  | .tag number content, _, hd, hc, _ => by
    rw [write, write]
    exact curbed_tag hd number content (curbed_write content hd hc false)
  | .dateTime t, _, hd, _, _ => by
    rw [write, write]
    exact .seq (.refl _) (.stamp hd t)
  | .bignum b, _, hd, _, _ => by
    rw [write, write]
    exact .seq (.refl _) (.bignum hd b)
  | .decimal f, _, hd, _, _ => by
    rw [write, write]
    exact .seq (.refl _) (.decimal hd f)
  | .bigFloat f, _, hd, _, _ => by
    rw [write, write]
    exact .seq (.refl _) (.fraction hd _ f)
  | .uri u, _, hd, _, _ => by
    rw [write, write]
    exact .seq (.refl _) (.tagged hd _ (.refl _))
  | .shareable cell content, _, hd, hc, _ => by
    rw [write, write]
    exact .ite (.refl _) (curbed_shareable hd cell content (curbed_write content hd hc false))
  | .custom _ result, _, hd, hc, _ => by
    rw [write, write]
    exact .ite (.refl _) (.nested hd (curbed_writeResult result hd hc))
  | .params p content, o, hd, hc, asKey => by
    intro s
    rw [write, write, after_liftExcept_bind, after_liftExcept_bind, override_limited hd hc]
    cases hi : o.override p with
    | error e => exact .refl _
    | ok inner =>
      have hm := maxDepth_override hi
      have hcontent := curbed_write content (o := inner) (hm ▸ hd) (hm ▸ hc) asKey
      exact Curbed.nested hd hcontent s

theorem curbed_writeAll : (is : List Item) → ∀ {o : Options}, maxDepth ≤ o.maxDepth →
    o.maxDepth ≤ maxDepthLimit → Curbed (writeAll (o.limited maxDepth) is) (writeAll o is)
  | [], _, _, _ => .refl _
  | i :: is, _, hd, hc => by
    rw [writeAll, writeAll]
    exact .seq (curbed_write i hd hc false) (curbed_writeAll is hd hc)

theorem curbed_entries : (es : List (Item × Item)) → ∀ e ∈ es, ∀ {o : Options},
    maxDepth ≤ o.maxDepth → o.maxDepth ≤ maxDepthLimit →
    Curbed (write (o.limited maxDepth) true e.1) (write o true e.1) ∧
      Curbed (write (o.limited maxDepth) false e.2) (write o false e.2)
  | (k, i) :: es, e, he, _, hd, hc => by
    rcases List.mem_cons.1 he with rfl | he
    · exact ⟨curbed_write k hd hc true, curbed_write i hd hc false⟩
    · exact curbed_entries es e he hd hc

theorem curbed_writeResult : (result : Except Fault Item) → ∀ {o : Options},
    maxDepth ≤ o.maxDepth → o.maxDepth ≤ maxDepthLimit →
    Curbed (writeResult (o.limited maxDepth) result) (writeResult o result)
  | .error _, _, _, _ => .refl _
  | .ok i, _, hd, hc => by
    rw [writeResult, writeResult]
    exact curbed_write i hd hc false

end

end Encoder

open Encoder

variable {o : Encoder.Options} {maxDepth : Nat}

/-- Writing with less room fails for want of it or is the same. -/
theorem cutOff_encode (hd : maxDepth ≤ o.maxDepth) (hc : o.check = .ok ()) (v : Item) :
    CutOff (· = Fault.depth) (encode v (o.limited maxDepth)) (encode v o) := by
  have hlimit := o.maxDepth_le_of_check hc
  have hw := curbed_write v hd hlimit false
  rw [encode_eq_after, encode_eq_after, check_limited hd hlimit]
  refine .bind (.refl _) fun _ ↦ .map _ ?_
  have hwhole : Emit.Curbed
      (if o.stringRef = .on then Emit.inNamespace (write (o.limited maxDepth) false v)
        else write (o.limited maxDepth) false v)
      (if o.stringRef = .on then Emit.inNamespace (write o false v) else write o false v) :=
    .ite (.inNamespace hw) hw
  exact hwhole o.sink

end Cbor
