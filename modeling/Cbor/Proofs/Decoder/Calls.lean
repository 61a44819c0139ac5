import Mathlib
import Cbor.Proofs.Decoder.Pieces

namespace Cbor.Decoder

inductive Call where
  | add (data : Octets)
  | addRange (data : Octets) (offset : Int64) (length : Option Int64)
  | process
  | peek
  | take
  | reset
  deriving DecidableEq, Repr

def Call.feeds : Call → Bool
  | add _ | addRange .. | process => true
  | peek | take | reset => false

inductive Answer where
  | done
  | ready (isReady : Bool)
  | item (item : Option Item)
  deriving Repr

/-- What can be seen of a decoder between two calls. -/
structure View where
  state : State
  buffer : Octets
  hasValue : Bool
  isPartial : Bool
  fault : Option Fault
  deriving DecidableEq, Repr

variable (d : Decoder)

def view : View := ⟨d.state, d.buffer, d.value.isSome, d.isPartial, d.fault⟩

def call : Call → Except Fault Answer × Decoder
  | .add data => ((fun _ ↦ .done) <$> (d.add data).1, (d.add data).2)
  | .addRange data offset length =>
    ((fun _ ↦ .done) <$> (d.addRange data offset length).1, (d.addRange data offset length).2)
  | .process => (.ready <$> d.process.1, d.process.2)
  | .peek => (.ok (.item d.value), d)
  | .take => (.ok (.item d.take.1), d.take.2)
  | .reset => (.ok .done, d.reset)

def calls (d : Decoder) : List Call → Decoder
  | [] => d
  | c :: cs => (d.call c).2.calls cs

/-- What a sequence of calls shows: the answer of each, and what can be seen behind it. -/
def trace (d : Decoder) : List Call → List (Except Fault Answer × View)
  | [] => []
  | c :: cs => ((d.call c).1, (d.call c).2.view) :: (d.call c).2.trace cs

/-- With the EDN flag the notation of items is half read, and else items. -/
def Product.Suits (o : Options) : Product → Prop
  | items _ => o.flags.contains .edn = false
  | diagnostic _ => o.flags.contains .edn = true

/-- A decoder with the options `o` after any calls. No rule says how much of a lexeme that is refused
has been taken, so behind a fault anything may be half read. -/
inductive Reached (o : Options) : Decoder → Prop
  | new : Reached o (start o)
  | call {d : Decoder} (h : Reached o d) (c : Call) : Reached o (d.call c).2
  | refused {d : Decoder} (h : Reached o d) (hf : d.fault.isSome = true) {product : Product}
    (hp : product.Suits o) (awaitingContent stripped : Bool) :
    Reached o { d with product, awaitingContent, stripped }

variable {d} {o : Options} {f : Fault}

theorem add_cases (d : Decoder) (data : Octets) :
    (∃ f, d.fault = some f ∧ d.add data = (.error f, d)) ∨
    d.add data = d.fail .unsupportedSize ∨ d.add data = (.ok (), d.append data) := by
  rcases hf : d.fault with _ | f
  · by_cases hs : d.options.maxSize < d.buffer.length + data.length
    · exact .inr (.inl (by simp [add, hf, hs]))
    · exact .inr (.inr (by simp [add, append, hf, hs]))
  · exact .inl ⟨f, rfl, by rw [add, hf]⟩

theorem process_of_fault (h : d.fault = some f) : d.process = (.error f, d) := by
  obtain ⟨o, buffer, product, value, fault, forContent, stripped⟩ := d
  obtain rfl : fault = some f := h
  cases value <;> rfl

theorem process_of_value {item : Item} (hv : d.value = some item) (hf : d.fault = none) :
    d.process = (.ok false, d) := by
  obtain ⟨o, buffer, product, value, fault, forContent, stripped⟩ := d
  obtain rfl : value = some item := hv
  obtain rfl : fault = none := hf
  rfl

/-- Where a decoder is not ready to read on, reading on does nothing. -/
theorem process_cases (d : Decoder) :
    d.Ready ∨ d.fault = none ∧ d.process = (.ok false, d) ∨
      ∃ f, d.fault = some f ∧ d.process = (.error f, d) := by
  rcases hf : d.fault with _ | f
  · rcases hv : d.value with _ | item
    · exact .inl ⟨hv, hf⟩
    · exact .inr (.inl ⟨rfl, process_of_value hv hf⟩)
  · exact .inr (.inr ⟨f, rfl, process_of_fault hf⟩)

/-- Reading on from where reading stopped, with nothing done in between, stops there again. -/
theorem process_process {isReady : Bool} {e : Decoder} (h : d.process = (.ok isReady, e)) :
    e.process = (.ok false, e) := by
  rcases process_cases d with hd | ⟨-, hp⟩ | ⟨f, -, hp⟩
  · cases isReady with
    | false => exact (process_halted hd h).2.2.2
    | true =>
      rw [process_of_ready hd] at h
      split at h <;> cases h
      exact process_of_value rfl rfl
  · rw [hp] at h
    cases h
    exact hp
  · rw [hp] at h
    cases h

/-- A fault answers every call that brings input or reads it, and is all that such a call does. -/
theorem call_of_fault (h : d.fault = some f) {c : Call} (hc : c.feeds = true) :
    d.call c = (.error f, d) := by
  have hadd (data : Octets) : d.add data = (.error f, d) := by rw [add, h]
  cases c with
  | add data => rw [call, hadd]; rfl
  | addRange data offset length => rw [call, addRange, hadd]; rfl
  | process => rw [call, process_of_fault h]; rfl
  | peek | take | reset => cases hc

theorem fault_of_add {data : Octets} (h : (d.add data).1 = .error f) :
    (d.add data).2.fault = some f := by
  rcases add_cases d data with ⟨g, hg, ha⟩ | ha | ha <;> rw [ha] at h ⊢ <;> cases h
  · exact hg
  · rfl

theorem fault_of_process (h : d.process.1 = .error f) : d.process.2.fault = some f := by
  rcases process_cases d with hd | ⟨-, hp⟩ | ⟨g, hg, hp⟩
  · rw [process_of_ready hd] at h ⊢
    split at h <;> cases h
    rfl
  · rw [hp] at h
    cases h
  · rw [hp] at h ⊢
    cases h
    exact hg

theorem fault_of_call {c : Call} (h : (d.call c).1 = .error f) : (d.call c).2.fault = some f := by
  cases c with
  | add data => exact fault_of_add (map_eq_error.1 h)
  | addRange data offset length => exact fault_of_add (map_eq_error.1 h)
  | process => exact fault_of_process (map_eq_error.1 h)
  | peek | take | reset => cases h

theorem fault_call (h : d.fault = some f) {c : Call} (hc : c ≠ .reset) :
    (d.call c).2.fault = some f := by
  cases c with
  | add | addRange | process =>
    rw [call_of_fault h rfl]
    exact h
  | peek | take => exact h
  | reset => exact absurd rfl hc

/-- Only a reset ends a fault. -/
theorem fault_calls (h : d.fault = some f) {cs : List Call} (hcs : .reset ∉ cs) :
    (d.calls cs).fault = some f := by
  induction cs generalizing d with
  | nil => exact h
  | cons c cs ih =>
    rw [List.mem_cons, not_or] at hcs
    exact ih (fault_call h (Ne.symm hcs.1)) hcs.2

theorem buffer_add (data : Octets) :
    (d.add data).2.value = d.value ∧ d.buffer <+: (d.add data).2.buffer := by
  rcases add_cases d data with ⟨f, -, ha⟩ | ha | ha <;> rw [ha]
  · exact ⟨rfl, List.prefix_rfl⟩
  · exact ⟨rfl, List.prefix_rfl⟩
  · exact ⟨rfl, List.prefix_append _ _⟩

theorem waits_call {item : Item} (h : d.value = some item) {c : Call}
    (hc : c ≠ .take ∧ c ≠ .reset) :
    (d.call c).2.value = some item ∧ d.buffer <+: (d.call c).2.buffer := by
  cases c with
  | add data => exact h ▸ buffer_add data
  | addRange data offset length => exact h ▸ buffer_add (data.slice offset length)
  | process =>
    rw [call]
    rcases process_cases d with hd | ⟨-, hp⟩ | ⟨f, -, hp⟩
    · rw [hd.1] at h
      cases h
    · exact hp ▸ ⟨h, List.prefix_rfl⟩
    · exact hp ▸ ⟨h, List.prefix_rfl⟩
  | peek => exact ⟨h, List.prefix_rfl⟩
  | take => exact absurd rfl hc.1
  | reset => exact absurd rfl hc.2

theorem waits_calls {item : Item} (h : d.value = some item) {cs : List Call}
    (hcs : ∀ c ∈ cs, c ≠ .take ∧ c ≠ .reset) :
    (d.calls cs).value = some item ∧ d.buffer <+: (d.calls cs).buffer := by
  induction cs generalizing d with
  | nil => exact ⟨h, List.prefix_rfl⟩
  | cons c cs ih =>
    obtain ⟨hc, hcs⟩ := List.forall_mem_cons.1 hcs
    obtain ⟨hv, hb⟩ := waits_call h hc
    obtain ⟨hitem, hbuffer⟩ := ih hv hcs
    exact ⟨hitem, hb.trans hbuffer⟩

/-- Behind a call of `process` that does not fail, another one finds nothing to do; while an item is
ready, no input is used up; and once a call has failed, its fault is all that calls which bring input
or read it come to, up to a reset. -/
theorem process_settles (d : Decoder) :
    (∀ isReady e, d.process = (.ok isReady, e) → e.process = (.ok false, e)) ∧
    (∀ item, d.value = some item → ∀ cs : List Call, (∀ c ∈ cs, c ≠ .take ∧ c ≠ .reset) →
      (d.calls cs).value = some item ∧ d.buffer <+: (d.calls cs).buffer) ∧
    ∀ c f, (d.call c).1 = .error f → ∀ cs : List Call, .reset ∉ cs →
      ∀ c' : Call, c'.feeds = true →
        ((d.call c).2.calls cs).call c' = (.error f, (d.call c).2.calls cs) :=
  ⟨fun _ _ ↦ process_process, fun _ hv _ ↦ waits_calls hv,
    fun _ _ hc _ hcs _ ↦ call_of_fault (fault_calls (fault_of_call hc) hcs)⟩

/-- Of `[1, 256]` what is there of the head of 256 waits; while `true` is ready `null` is not read;
and where there is room for two octets a third one is refused, and so is every call behind it. -/
theorem process_settles_waiting :
    let d : Decoder := { start { maxSize := 4 } with buffer := [0x82, 0x01, 0x19] }
    let halfRead : Decoder :=
      ⟨d.options, [0x19], .items ⟨[.array #[.unsigned 1] (some 1)], { depth := 1 }⟩,
        none, none, false, false⟩
    let ready : Decoder := { start {} with buffer := [0xF6], value := some (.bool true) }
    let full : Decoder := { start { maxSize := 2 } with buffer := [0x82, 0x01] }
    d.process = (.ok false, halfRead) ∧ halfRead.process = (.ok false, halfRead) ∧
      (ready.calls [.process, .peek]).value = some (.bool true) ∧
      (full.call (.add [0x01])).1 = .error .unsupportedSize ∧
      ((full.call (.add [0x01])).2.calls [.process, .take]).call (.add []) =
        (.error .unsupportedSize, (full.call (.add [0x01])).2.calls [.process, .take]) := by
  intro d halfRead ready full
  have hp : d.process = (.ok false, halfRead) := by cbv
  exact ⟨hp, (process_settles d).1 _ _ hp,
    ((process_settles ready).2.1 _ rfl [.process, .peek] (by decide)).1, rfl,
    (process_settles full).2.2 (.add [0x01]) _ rfl [.process, .take] (by decide) _ rfl⟩

theorem Product.suits_start (o : Options) : (Product.start o).Suits o := by
  rw [Product.start]
  split
  · assumption
  · rename_i h
    exact Bool.eq_false_iff.2 h

theorem Product.suits_push {p : Product} (h : p.Suits o) {l : Lexeme}
    {r : Option Item × Product} (hp : p.push o l = .ok r) : r.2.Suits o := by
  cases p with
  | items a =>
    obtain ⟨_, -, hr⟩ := bind_eq_ok.1 hp
    cases hr
    exact h
  | diagnostic t =>
    rw [Product.push] at hp
    split at hp <;> cases hp <;> exact h

def Halt.product (o : Options) : Halt → Product
  | .ready _ _ product | .waiting _ product .. => product
  | .failed .. => .start o

theorem suits_run {p : Product} (h : p.Suits o) (stripped : Bool) (b : Octets) :
    ((run o p stripped b).product o).Suits o := by
  fun_induction run o p stripped b with
  | case1 | case5 => exact Product.suits_start o
  | case2 | case3 => exact h
  | case4 _ _ _ _ _ _ _ ih => exact ih h
  | case6 _ _ _ _ _ _ _ _ _ hp => exact Product.suits_push h hp
  | case7 _ _ _ _ _ _ _ _ hp ih => exact ih (Product.suits_push h hp)

theorem product_add (data : Octets) :
    (d.add data).2.options = d.options ∧ (d.add data).2.product = d.product := by
  rcases add_cases d data with ⟨f, -, ha⟩ | ha | ha <;> rw [ha] <;> exact ⟨rfl, rfl⟩

theorem product_process (hd : d.Ready) (ho : d.options = o) :
    d.process.2.product = (run o d.product d.stripped d.buffer).product o := by
  subst ho
  rw [process_of_ready hd]
  cases run d.options d.product d.stripped d.buffer <;> rfl

theorem options_process (d : Decoder) : d.process.2.options = d.options := by
  rcases process_cases d with hd | ⟨-, hp⟩ | ⟨f, -, hp⟩
  · rw [process_of_ready hd]
    cases run d.options d.product d.stripped d.buffer <;> rfl
  · rw [hp]
  · rw [hp]

theorem suits_process (h : d.product.Suits d.options) : d.process.2.product.Suits d.options := by
  rcases process_cases d with hd | ⟨-, hp⟩ | ⟨f, -, hp⟩
  · rw [product_process hd rfl]
    exact suits_run h _ _
  · rw [hp]
    exact h
  · rw [hp]
    exact h

theorem Product.reset_of_suits {p : Product} (h : p.Suits o) : p.reset = .start o := by
  cases p with
  | items a => exact (if_neg (Bool.eq_false_iff.1 h)).symm
  | diagnostic t => exact (if_pos h).symm

theorem suits_call (h : d.product.Suits d.options) (c : Call) :
    (d.call c).2.options = d.options ∧ (d.call c).2.product.Suits d.options := by
  cases c with
  | add data =>
    obtain ⟨ho, hp⟩ := product_add (d := d) data
    exact ⟨ho, hp ▸ h⟩
  | addRange data offset length =>
    obtain ⟨ho, hp⟩ := product_add (d := d) (data.slice offset length)
    exact ⟨ho, hp ▸ h⟩
  | process => exact ⟨options_process d, suits_process h⟩
  | peek | take => exact ⟨rfl, h⟩
  | reset =>
    refine ⟨rfl, ?_⟩
    rw [call, reset, Product.reset_of_suits h]
    exact Product.suits_start _

theorem Reached.suits (h : Reached o d) : d.options = o ∧ d.product.Suits o := by
  induction h with
  | new => exact ⟨rfl, Product.suits_start o⟩
  | call h c ih =>
    obtain ⟨rfl, hp⟩ := ih
    exact suits_call hp c
  | refused h hf hp _ _ ih => exact ⟨ih.1, hp⟩

theorem reset_eq_start (h : Reached o d) : d.reset = start o := by
  obtain ⟨rfl, hp⟩ := h.suits
  rw [reset, start, Product.reset_of_suits hp]

/-- Behind a reset each further call shows what it would show of a new decoder, whatever calls were
made before and whatever they have failed in. -/
theorem trace_reset {fresh : Decoder} (hn : new o = .ok fresh) (h : Reached o d) (cs : List Call) :
    d.reset.view = fresh.view ∧ d.reset.trace cs = fresh.trace cs := by
  obtain ⟨⟨⟩, -, hn⟩ := bind_eq_ok.1 hn
  cases hn
  rw [reset_eq_start h]
  exact ⟨rfl, rfl⟩

/-- Behind an array that is half read and a call that has failed, `1` is read as it is at first. -/
theorem trace_reset_refused :
    let o : Options := { maxSize := 4 }
    let d := (start o).calls [.add [0x82, 0x01], .process, .add [0x01, 0x01, 0x01, 0x01, 0x01]]
    let further : List Call := [.add [0x01], .process, .peek]
    new o = .ok (start o) ∧ Reached o d ∧ d.fault = some .unsupportedSize ∧
      d.reset.view = (start o).view ∧ d.reset.trace further = (start o).trace further := by
  intro o d further
  have h : Reached o d := ((Reached.new.call _).call _).call _
  have hn : new o = .ok (start o) := by cbv
  obtain ⟨hv, ht⟩ := trace_reset hn h further
  have hf : d.fault = some .unsupportedSize := by
    unfold d
    cbv
  exact ⟨hn, h, hf, hv, ht⟩

end Cbor.Decoder
