import Mathlib
import Cbor.Proofs.Encoder.Encode
import Cbor.Proofs.Encoder.Order
import Cbor.Proofs.Encoder.Overrides

namespace Cbor.Encoder

namespace Emit

/-- Holds of the steps that the writing of items is put together from, and of what is put together
from writings that it holds of. Unless `cells` are in use, none of the steps meets the table of
cells. -/
structure Closed (cells : Bool) (P : Emit Unit → Prop) : Prop where
  done : P (pure ())
  throw (e : Fault) : P (throw e)
  put (b : Octets) : P (put b)
  string (isText : Bool) (b : Octets) : P (string isText b)
  checkStringRef (content : Item) : P (checkStringRef content)
  seq {a : Emit Unit} {b : Unit → Emit Unit} (ha : P a) (hb : P (b ())) : P (a >>= b)
  nested (o : Options) {a : Emit Unit} (h : P a) : P (nested o a)
  inNamespace {a : Emit Unit} (h : P a) : P (inNamespace a)
  sortedEntries {plans : List EntryPlan} (h : ∀ ks : List (Octets × EntryPlan),
    (∀ k ∈ ks, k.2 ∈ plans) → P (ks.forM fun k ↦ k.2.entry)) : P (sortedEntries plans)
  reserveCell (h : cells = true) : P reserveCell
  findCell {o : Options} (ho : o.sharedRef = cells) (cell : Nat) {f : Option Nat → Emit Unit}
    (hf : ∀ found, P (f found)) : P (findCell o cell >>= f)

variable {cells : Bool} {P : Emit Unit → Prop} (h : Closed cells P) (o : Options)

namespace Closed

include h

theorem head (major : Nat) (n : UInt64) : P (head major n) := h.put _

theorem forM {ι : Type} {f : ι → Emit Unit} {l : List ι} (hf : ∀ i ∈ l, P (f i)) :
    P (l.forM f) := by
  induction l with
  | nil => exact h.done
  | cons i l ih =>
    exact h.seq (hf i List.mem_cons_self) (ih fun i hi ↦ hf i (List.mem_cons_of_mem _ hi))

theorem tagged (number : UInt64) {a : Emit Unit} (ha : P a) : P (tagged o number a) :=
  h.nested o (h.seq (h.head _ _) ha)

theorem integer (n : Int) : P (integer n) := by
  cases n with
  | ofNat n => exact h.head _ _
  | negSucc n => exact h.head _ _

theorem shortestFloat (bits : UInt64) : P (shortestFloat bits) := by
  unfold Emit.shortestFloat
  dsimp only
  split
  · exact h.put _
  split
  · exact h.put _
  split <;> exact h.put _

theorem nativeFloat (bits : UInt64) : P (nativeFloat o bits) := by
  unfold Emit.nativeFloat
  dsimp only
  split
  · exact h.shortestFloat bits
  split
  · exact h.put _
  split <;> exact h.put _

theorem text (b : Octets) : P (text o b) := by
  unfold Emit.text
  split
  · exact h.seq (h.throw _) (h.string _ _)
  · exact h.string _ _

theorem nativeString (b : Octets) : P (nativeString o b) := by
  unfold Emit.nativeString
  split
  · exact h.text o b
  split
  · exact h.string _ _
  · exact h.throw _

theorem keyString (b : Octets) : P (keyString o b) := by
  unfold Emit.keyString
  split
  · exact h.integer _
  split
  · exact h.text o b
  split
  · exact h.string _ _
  · exact h.throw _

theorem require {enabled : Bool} {a : Unit → Emit Unit} (ha : P (a ())) :
    P (require enabled >>= a) := by
  refine h.seq ?_ ha
  unfold Emit.require
  split
  · exact h.done
  · exact h.throw _

theorem stamp (t : Moment) : P (stamp o t) := by
  unfold Emit.stamp
  split
  · exact h.tagged o _ (h.string _ _)
  · exact h.throw _

theorem bignum (b : Bignum) : P (bignum o b) := by
  unfold Emit.bignum
  split
  · exact h.head _ _
  · exact h.tagged o _ (h.string _ _)

theorem fraction (number : UInt64) (f : Fraction) : P (fraction o number f) :=
  h.tagged o _ (h.nested o (h.seq (h.head _ _) (h.seq (h.integer _) (h.bignum o _))))

theorem decimal (f : Fraction) : P (decimal o f) := by
  unfold Emit.decimal
  split
  · exact h.bignum o _
  · exact h.fraction o _ f

theorem tag (ho : o.sharedRef = cells) (number : UInt64) (item : Item) {a : Emit Unit} (ha : P a) :
    P (tag o number item a) := by
  have htagged := h.tagged o number ha
  have hreserve (hs : number = Tag.shareable ∧ o.sharedRef = true) :=
    h.reserveCell (ho.symm.trans hs.2)
  unfold Emit.tag
  dsimp only
  split
  · exact h.nested o (h.inNamespace ha)
  split
  · refine h.seq (h.checkStringRef item) ?_
    split
    · exact h.seq (hreserve ‹_›) htagged
    · exact htagged
  split
  · exact h.seq (hreserve ‹_›) htagged
  · exact htagged

theorem shareable (ho : o.sharedRef = cells) (cell : Nat) (item : Item) {a : Emit Unit}
    (ha : P a) : P (shareable o cell item a) := by
  unfold Emit.shareable
  dsimp only
  split
  · exact h.throw _
  split
  · exact h.throw _
  refine h.findCell ho cell fun found ↦ ?_
  cases found with
  | none => exact h.tagged o _ ha
  | some index => exact h.tagged o _ (h.head _ _)

theorem params {p : Overrides} {f : Options → Emit Unit}
    (hf : ∀ inner, o.override p = .ok inner → P (f inner)) :
    P (liftM (o.override p) >>= f) := by
  cases hp : o.override p with
  | error e => exact h.throw e
  | ok inner => exact hf inner hp

end Closed

mutual

theorem Closed.write (h : Closed cells P) : (v : Item) → ∀ {o : Options}, o.sharedRef = cells →
    ∀ asKey, P (write o asKey v)
  | .unsigned n, _, _, _ | .negative n, _, _, _ => by
    rw [Encoder.write]
    exact h.head _ _
  | .bytes b, _, _, _ => by
    rw [Encoder.write]
    exact h.string _ _
  | .text b, o, _, _ => by
    rw [Encoder.write]
    exact h.text o b
  | .string b, o, _, asKey => by
    rw [Encoder.write]
    split
    · exact h.keyString o b
    · exact h.nativeString o b
  | .array items, o, ho, _ => by
    rw [Encoder.write]
    exact h.nested o (h.seq (h.head _ _) (h.writeAll items ho))
  | .map entries, o, ho, _ => by
    rw [Encoder.write]
    refine h.nested o (h.seq (h.head _ _) ?_)
    split
    · have hentry := h.entryPlans entries ho
      exact h.sortedEntries fun ks hks ↦ h.forM fun k hk ↦ hentry k.2 (hks k hk)
    · exact h.writeEntries entries ho
  | .tag number content, o, ho, _ => by
    rw [Encoder.write]
    exact h.tag o ho number content (h.write content ho false)
  | .bool _, _, _, _ | .null, _, _, _ | .undefined, _, _, _ | .float16 _, _, _, _ => by
    rw [Encoder.write]
    exact h.put _
  | .float32 bits, o, _, _ => by
    rw [Encoder.write]
    split
    · exact h.shortestFloat _
    · exact h.put _
  | .float64 bits, o, _, _ => by
    rw [Encoder.write]
    exact h.nativeFloat o bits
  | .dateTime t, o, _, _ => by
    rw [Encoder.write]
    exact h.require (h.stamp o t)
  | .bignum b, o, _, _ => by
    rw [Encoder.write]
    exact h.require (h.bignum o b)
  | .decimal f, o, _, _ => by
    rw [Encoder.write]
    exact h.require (h.decimal o f)
  | .bigFloat f, o, _, _ => by
    rw [Encoder.write]
    exact h.require (h.fraction o _ f)
  | .uri u, o, _, _ => by
    rw [Encoder.write]
    exact h.require (h.tagged o _ (h.string _ _))
  | .shareable cell content, o, ho, asKey => by
    rw [Encoder.write]
    split
    · exact h.throw _
    · exact h.shareable o ho cell content (h.write content ho false)
  | .custom _ result, o, ho, asKey => by
    rw [Encoder.write]
    split
    · exact h.throw _
    · exact h.nested o (h.writeResult result ho)
  | .params p content, o, ho, asKey => by
    rw [Encoder.write]
    exact h.params o fun inner hp ↦
      h.nested o (h.write content ((sharedRef_override hp).trans ho) asKey)

theorem Closed.writeAll (h : Closed cells P) : (is : List Item) → ∀ {o : Options},
    o.sharedRef = cells → P (writeAll o is)
  | [], _, _ => by
    rw [Encoder.writeAll]
    exact h.done
  | i :: is, _, ho => by
    rw [Encoder.writeAll]
    exact h.seq (h.write i ho false) (h.writeAll is ho)

theorem Closed.writeEntries (h : Closed cells P) : (is : List (Item × Item)) → ∀ {o : Options},
    o.sharedRef = cells → P (writeEntries o is)
  | [], _, _ => by
    rw [Encoder.writeEntries]
    exact h.done
  | (k, i) :: is, _, ho => by
    rw [Encoder.writeEntries]
    exact h.seq (h.write k ho true) (h.seq (h.write i ho false) (h.writeEntries is ho))

theorem Closed.entryPlans (h : Closed cells P) : (is : List (Item × Item)) → ∀ {o : Options},
    o.sharedRef = cells → ∀ p ∈ entryPlans o is, P p.entry
  | [], _, _, p, hp => by
    rw [Encoder.entryPlans] at hp
    cases hp
  | (k, i) :: is, _, ho, p, hp => by
    rw [Encoder.entryPlans] at hp
    rcases List.mem_cons.1 hp with rfl | hp
    · exact h.seq (h.write k ho true) (h.write i ho false)
    · exact h.entryPlans is ho p hp

theorem Closed.writeResult (h : Closed cells P) : (r : Except Fault Item) → ∀ {o : Options},
    o.sharedRef = cells → P (writeResult o r)
  | .error e, _, _ => by
    rw [Encoder.writeResult]
    exact h.throw e
  | .ok i, _, ho => by
    rw [Encoder.writeResult]
    exact h.write i ho false

end

/-- What a writing answers and what it leaves behind, also where it fails. -/
def outcome (a : Emit Unit) (s : Sink) : Except Fault Unit × Sink := a.run.run s

variable (s : Sink)

theorem outcome_of_after {s t : Sink} {a : Emit Unit} (h : after a s = .ok t) :
    outcome a s = (.ok (), t) := by
  unfold after at h
  unfold outcome
  rcases hr : a.run.run s with ⟨_ | _, u⟩ <;> rw [hr] at h <;> cases h
  rfl

theorem outcome_get_bind (f : Sink → Emit Unit) : outcome (get >>= f) s = outcome (f s) s := rfl

theorem outcome_seq (a : Emit Unit) (b : Unit → Emit Unit) :
    outcome (a >>= b) s =
      match outcome a s with
      | (.ok _, s) => outcome (b ()) s
      | (.error e, s) => (.error e, s) := by
  unfold outcome
  rw [run_seq]
  rcases a.run.run s with ⟨_ | _, t⟩ <;> rfl

theorem outcome_enter (maxDepth : Nat) :
    outcome (enter maxDepth) s =
      if s.depth < maxDepth then (.ok (), { s with depth := s.depth + 1 }) else (.error .depth, s) := by
  unfold enter
  rw [outcome_get_bind]
  split <;> rfl

theorem outcome_nested (a : Emit Unit) :
    outcome (nested o a) s =
      if s.depth < o.maxDepth then
        match outcome a { s with depth := s.depth + 1 } with
        | (.ok _, s) => (.ok (), { s with depth := s.depth - 1 })
        | (.error e, s) => (.error e, s)
      else (.error .depth, s) := by
  unfold nested
  rw [outcome_seq, outcome_enter]
  by_cases h : s.depth < o.maxDepth
  · rw [if_pos h, if_pos h]
    show outcome (a >>= _) _ = _
    rw [outcome_seq]
    rfl
  · rw [if_neg h, if_neg h]

theorem outcome_inNamespace (a : Emit Unit) :
    outcome (inNamespace a) s =
      let r := outcome a
        { s.add (Head.write 6 Tag.stringRefNamespace) with strings := #[] :: s.strings }
      (r.1, { r.2 with strings := r.2.strings.tail }) := by
  rfl

theorem outcome_findCell_bind (cell : Nat) (f : Option Nat → Emit Unit) :
    outcome (findCell o cell >>= f) s =
      outcome (f (lookupCell o cell s.cells).1)
        { s with cells := (lookupCell o cell s.cells).2 } := by
  unfold findCell lookupCell
  split <;> rfl

theorem outcome_sortedEntries (plans : List EntryPlan) :
    outcome (sortedEntries plans) s =
      match keyed (fun p ↦ keyOctets p.key s.depth) plans with
      | .ok ks => outcome ((sortKeyed ks).forM fun k ↦ k.2.entry) s
      | .error e => (.error e, s) := by
  rw [sortedEntries_eq, outcome_get_bind]
  cases keyed (fun p ↦ keyOctets p.key s.depth) plans <;> rfl

theorem exists_outcome_checkStringRef (content : Item) : ∃ check : List StringTable →
    Except Fault Unit, ∀ s, outcome (checkStringRef content) s = (check s.strings, s) := by
  refine ⟨fun tables ↦ (outcome (checkStringRef content) { strings := tables }).1, fun s ↦ ?_⟩
  obtain ⟨octets, depth, tables, cells⟩ := s
  cases tables with
  | nil => rfl
  | cons table tables =>
    cases content with
    | unsigned index =>
      unfold checkStringRef
      simp only [outcome_get_bind]
      split <;> rfl
    | _ => rfl

end Emit

namespace Sink

/-- The octets before a writing are still there behind it, and as many namespaces are open; and the
levels it has gone down are given back, unless it fails. -/
structure Balanced (s : Sink) (r : Except Fault Unit × Sink) : Prop where
  octets : s.octets.toList <+: r.2.octets.toList
  strings : r.2.strings.length = s.strings.length
  depth : r.1 = .ok () → r.2.depth = s.depth

theorem Balanced.refl (s : Sink) (r : Except Fault Unit) : s.Balanced (r, s) :=
  ⟨List.prefix_rfl, rfl, fun _ ↦ rfl⟩

theorem Balanced.add (s : Sink) (b : Octets) : s.Balanced (.ok (), s.add b) :=
  ⟨⟨b, by simp [Sink.add]⟩, rfl, fun _ ↦ rfl⟩

theorem Balanced.trans {s t : Sink} {r : Except Fault Unit × Sink} (h : s.Balanced (.ok (), t))
    (h' : t.Balanced r) : s.Balanced r where
  octets := h.octets.trans h'.octets
  strings := h'.strings.trans h.strings
  depth hr := (h'.depth hr).trans (h.depth rfl)

theorem length_refer_string (live : Bool) (tables : List StringTable) (isText : Bool)
    (b : Octets) : ((Wire.string isText b).refer live tables).2.length = tables.length := by
  cases tables with
  | nil => rfl
  | cons inner outer =>
    rw [Wire.refer, Wire.referString]
    rcases inner.lookup isText b with ⟨_ | _, _⟩ <;> rfl

open Emit

theorem closed_balanced (cells : Bool) : Closed cells fun a ↦ ∀ s : Sink, s.Balanced (outcome a s) where
  done s := .refl s _
  throw e s := .refl s _
  put b s := .add s b
  string isText b s := by
    rw [outcome_of_after (after_string false s isText b)]
    exact ⟨⟨_, by simp [grow, extend, Sink.add]; rfl⟩, length_refer_string .., fun _ ↦ rfl⟩
  checkStringRef content s := by
    obtain ⟨check, hc⟩ := exists_outcome_checkStringRef content
    rw [hc]
    exact .refl s _
  seq {a b} ha hb s := by
    have h := ha s
    rw [outcome_seq]
    generalize outcome a s = r at h
    obtain ⟨_ | _, t⟩ := r
    · exact h
    · exact h.trans (hb t)
  nested o {a} ha s := by
    rw [outcome_nested]
    split
    · have h := ha { s with depth := s.depth + 1 }
      generalize outcome a _ = r at h
      obtain ⟨_ | _, t⟩ := r
      · exact ⟨h.octets, h.strings, fun hr ↦ by cases hr⟩
      · exact ⟨h.octets, h.strings, fun _ ↦ congrArg (· - 1) (h.depth rfl)⟩
    · exact .refl s _
  inNamespace {a} ha s := by
    rw [outcome_inNamespace]
    have h := ha { s.add (Head.write 6 Tag.stringRefNamespace) with strings := #[] :: s.strings }
    refine ⟨(Balanced.add s _).octets.trans h.octets, ?_, h.depth⟩
    rw [List.length_tail, h.strings]
    rfl
  sortedEntries {plans} hp s := by
    rw [outcome_sortedEntries]
    split
    · rename_i ks hks
      exact hp (sortKeyed ks) (fun k hk ↦ mem_of_keyed hks (mem_sortKeyed.1 hk)) s
    · exact .refl s _
  reserveCell _ s := ⟨List.prefix_rfl, rfl, fun _ ↦ rfl⟩
  findCell {o} _ cell {f} hf s := by
    rw [outcome_findCell_bind]
    have h := hf (lookupCell o cell s.cells).1 { s with cells := (lookupCell o cell s.cells).2 }
    exact ⟨h.octets, h.strings, h.depth⟩

def behind (s : Sink) (b : Octets) (cells : CellTable) : Sink :=
  { s with octets := b.toArray ++ s.octets, cells }

/-- The writing does not notice octets in front of the sink, nor the table of cells. -/
def Framed (a : Emit Unit) : Prop :=
  ∀ s : Sink, ∀ b cells,
    outcome a (s.behind b cells) = ((outcome a s).1, (outcome a s).2.behind b cells)

theorem behind_add (s : Sink) (b c : Octets) (cells : CellTable) :
    (s.behind b cells).add c = (s.add c).behind b cells := by
  have ha : b.toArray ++ s.octets ++ c = b.toArray ++ (s.octets ++ c) := by
    rw [← Array.toList_inj]
    simp
  rw [Sink.add, behind, ha]
  rfl

theorem behind_extend (s : Sink) (b c : Octets) (strings : List StringTable)
    (cells : CellTable) :
    (s.behind b cells).extend c strings cells = (s.extend c strings s.cells).behind b cells := by
  rw [extend, behind_add]
  rfl

theorem closed_framed : Closed false Framed where
  done s b cells := rfl
  throw e s b cells := rfl
  put c s b cells := congrArg (Prod.mk _) (s.behind_add b c cells)
  string isText c s b cells := by
    rw [outcome_of_after (after_string false s isText c),
      outcome_of_after (after_string false (s.behind b cells) isText c)]
    exact congrArg (Prod.mk _) (s.behind_extend b _ _ cells)
  checkStringRef content s b cells := by
    obtain ⟨check, hc⟩ := exists_outcome_checkStringRef content
    rw [hc, hc]
    rfl
  seq {a a'} ha ha' s b cells := by
    rw [outcome_seq, outcome_seq, ha]
    generalize outcome a s = r
    obtain ⟨_ | _, t⟩ := r
    · rfl
    · exact ha' t b cells
  nested o {a} ha s b cells := by
    have h : outcome a { s.behind b cells with depth := (s.behind b cells).depth + 1 } = _ :=
      ha { s with depth := s.depth + 1 } b cells
    have hd : (s.behind b cells).depth = s.depth := rfl
    rw [outcome_nested, outcome_nested, h, hd]
    split
    · generalize outcome a _ = r
      obtain ⟨_ | _, t⟩ := r <;> rfl
    · rfl
  inNamespace {a} ha s b cells := by
    have h : outcome a { (s.add (Head.write 6 Tag.stringRefNamespace)).behind b cells with
        strings := #[] :: (s.behind b cells).strings } = _ :=
      ha { s.add (Head.write 6 Tag.stringRefNamespace) with strings := #[] :: s.strings } b cells
    rw [outcome_inNamespace, outcome_inNamespace, behind_add, h]
    rfl
  sortedEntries {plans} hp s b cells := by
    rw [outcome_sortedEntries, outcome_sortedEntries]
    show (match keyed (fun p ↦ keyOctets p.key s.depth) plans with
      | .ok ks => _
      | .error e => _) = _
    split
    · rename_i ks hks
      exact hp (sortKeyed ks) (fun k hk ↦ mem_of_keyed hks (mem_sortKeyed.1 hk)) s b cells
    · rfl
  reserveCell h := nomatch h
  findCell {o} ho cell {f} hf s b cells := by
    rw [outcome_findCell_bind, outcome_findCell_bind, lookupCell, lookupCell, ho]
    exact hf none s b cells

end Sink

open Emit

theorem Emit.Closed.whole {P : Emit Unit → Prop} {o : Options} (h : Closed o.sharedRef P)
    (item : Item) : P (whole o item) := by
  unfold Encoder.whole
  split
  · exact h.inNamespace (h.write item rfl false)
  · exact h.write item rfl false

variable {o : Options} {s : Sink} {e : Encoder}

theorem balanced_emit (o : Options) (s : Sink) (item : Item) :
    s.Balanced (((o.encoder s).emit item).1, ((o.encoder s).emit item).2.sink) := by
  rw [emit_encoder]
  exact (Sink.closed_balanced _).whole item s

theorem emit_eq_encoder (o : Options) (s : Sink) (item : Item) :
    ((o.encoder s).emit item).2 = o.encoder ((o.encoder s).emit item).2.sink := by
  rw [emit_encoder]
  rfl

/-- Appends one item after the other; those that fail leave what they have written. -/
def emitEach (e : Encoder) : List Item → Encoder
  | [] => e
  | item :: items => (e.emit item).2.emitEach items

/-- Between items, the options, the groups and the limit of the depth are those the encoder was made
with, and no namespace is open. -/
theorem exists_emitEach (hs : s.strings = []) (items : List Item) :
    ∃ t : Sink, t.strings = [] ∧ (o.encoder s).emitEach items = o.encoder t := by
  induction items generalizing s with
  | nil => exact ⟨s, hs, rfl⟩
  | cons item items ih =>
    have hlength := (balanced_emit o s item).strings
    rw [hs] at hlength
    rw [emitEach, emit_eq_encoder]
    exact ih (List.eq_nil_of_length_eq_zero hlength)

theorem depth_emitAll {d : Encoder} {items : List Item}
    (h : (o.encoder s).emitAll items = (.ok (), d)) :
    d = (o.encoder s).emitEach items ∧ d.sink.depth = s.depth := by
  induction items generalizing s with
  | nil =>
    cases h
    exact ⟨rfl, rfl⟩
  | cons item items ih =>
    have hdepth := (balanced_emit o s item).depth
    have hemit := emit_eq_encoder o s item
    rw [emitAll] at h
    split at h
    · cases h
    · rename_i d' hd'
      have hencoder : d' = o.encoder d'.sink := by rwa [hd'] at hemit
      rw [hd'] at hdepth
      rw [hencoder] at h
      obtain ⟨he, hd⟩ := ih h
      refine ⟨?_, hd.trans (hdepth rfl)⟩
      rw [emitEach, hd', he, ← hencoder]

/-- Between items nothing of what was written before has any effect. -/
theorem emit_of_empty (ho : o.sharedRef = false) (hd : s.depth = 0) (hs : s.strings = [])
    (item : Item) :
    let r := outcome (whole o item) {}
    ((o.encoder s).emit item).1 = r.1 ∧
      ((o.encoder s).emit item).2.octets = (o.encoder s).octets ++ r.2.octets.toList := by
  obtain ⟨octets, depth, strings, cells⟩ := s
  obtain rfl : depth = 0 := hd
  obtain rfl : strings = [] := hs
  have hframed : Sink.Framed (whole o item) := Closed.whole (ho ▸ Sink.closed_framed) item
  have h : outcome (whole o item) (Sink.behind {} octets.toList cells) = _ :=
    hframed {} octets.toList cells
  have hsink : Sink.behind {} octets.toList cells = ⟨octets, 0, [], cells⟩ := by simp [Sink.behind]
  rw [hsink, outcome] at h
  intro r
  rw [emit_encoder, h]
  exact ⟨rfl, by simp [Encoder.octets, Options.encoder, Sink.behind, r]⟩

theorem empty_of_new (hn : new o = .ok e) :
    ∃ s : Sink, e = o.encoder s ∧ s.depth = 0 ∧ s.strings = [] ∧
      e.octets = if o.flags.contains .selfDescribe then Tag.selfDescribeHead else [] := by
  obtain ⟨⟨⟩, -, he⟩ := bind_eq_ok.1 hn
  cases he
  refine ⟨o.sink, rfl, rfl, rfl, ?_⟩
  unfold Encoder.octets
  split <;> rfl

/-- Whatever was emitted before and whatever of it has failed, an item that is emitted leaves the
options in force, the groups, the limit of the depth, the namespaces and the octets before it as they
are, and the depth too unless it fails. If references are not shared and nothing has failed before,
it is written, or refused, as on its own. -/
theorem emit_frame (hn : new o = .ok e) (items : List Item) (item : Item) :
    let announced := if o.flags.contains .selfDescribe then Tag.selfDescribeHead else []
    let d := e.emitEach items
    let r := d.emit item
    r.2.options = o ∧ r.2.groups = o.groups ∧ r.2.maxDepth = o.maxDepth ∧
      r.2.sink.strings = [] ∧ d.octets <+: r.2.octets ∧
      (r.1 = .ok () → r.2.sink.depth = d.sink.depth) ∧
      (o.sharedRef = false → (e.emitAll items).1 = .ok () →
        ∃ b, r.2.octets = d.octets ++ b ∧ encode item o = (fun _ ↦ announced ++ b) <$> r.1) := by
  intro announced d r
  obtain ⟨s, rfl, hfresh, hs, ha⟩ := empty_of_new hn
  obtain ⟨t, ht, hd⟩ : ∃ t : Sink, t.strings = [] ∧ d = o.encoder t := exists_emitEach hs items
  have hdt : d.sink = t := congrArg Encoder.sink hd
  have hb := balanced_emit o t item
  have hr := emit_eq_encoder o t item
  rw [← hd, ← hdt] at hb
  rw [← hd] at hr
  have hrs : r.2.sink.strings = [] :=
    List.eq_nil_of_length_eq_zero (hb.strings.trans (congrArg List.length (hdt ▸ ht)))
  refine ⟨congrArg Encoder.options hr, congrArg Encoder.groups hr, congrArg Encoder.maxDepth hr, hrs,
    hb.octets, hb.depth, fun hshared hall ↦ ?_⟩
  obtain ⟨hall, hdepth⟩ := depth_emitAll (Prod.ext hall rfl)
  have htd : t.depth = 0 := by
    rw [← hdt, ← hfresh, ← hdepth, hall]
  obtain ⟨hanswer, hoctets⟩ := emit_of_empty hshared htd ht item
  obtain ⟨hanswer', hoctets'⟩ := emit_of_empty hshared hfresh hs item
  rw [← hd] at hanswer hoctets
  refine ⟨_, hoctets, ?_⟩
  calc encode item o
    _ = ((o.encoder s).emit item).1 >>= fun _ ↦ .ok ((o.encoder s).emit item).2.octets := by
        rw [encode, hn]
        rfl
    _ = (d.emit item).1 >>= fun _ ↦ .ok (announced ++ _) := by
        rw [hanswer', ← hanswer, hoctets', ha]
    _ = _ := rfl

/-- Behind two maps whose key has overrides of its own, and behind one that fails inside of a tag
256 and of overrides, a third one is written like the first. -/
theorem emit_frame_overrides :
    let o : Options := { flags := .standard ||| .selfDescribe, stringRef := .on }
    let key : Item := .params { flags := .text ||| .keyText } (.string [0x6B, 0x65, 0x79])
    let map : Item := .map [(key, .bytes [1, 2, 3])]
    let refused : Item := .params { flags := .text, bignum := some false }
      (.tag 256 (.array [.bytes [1, 2, 3], .text [0xFF]]))
    let e : Encoder := { options := o, sink := { octets := Tag.selfDescribeHead.toArray } }
    let twice := e.emitEach [map, map]
    let failed := e.emitEach [map, refused]
    new o = .ok e ∧ (e.emitAll [map, map]).1 = .ok () ∧
      (∃ b, (twice.emit map).2.octets = twice.octets ++ b ∧
        encode map o = (fun _ ↦ Tag.selfDescribeHead ++ b) <$> (twice.emit map).1) ∧
      (e.emitAll [map, refused]).1 = .error .utf8 ∧
      (failed.emit map).2.options = o ∧ (failed.emit map).2.groups = {} ∧
      (failed.emit map).2.sink.strings = [] := by
  intro o key map refused e twice failed
  have hn : new o = .ok e := by cbv
  have hall : (e.emitAll [map, map]).1 = .ok () := by cbv
  have hrefused : (e.emitAll [map, refused]).1 = .error .utf8 := by cbv
  have hflag : o.flags.contains .selfDescribe = true := by decide
  obtain ⟨-, -, -, -, -, -, htwice⟩ := emit_frame hn [map, map] map
  have htwice := htwice rfl hall
  rw [if_pos hflag] at htwice
  obtain ⟨hoptions, hgroups, -, hstrings, -⟩ := emit_frame hn [map, refused] map
  exact ⟨hn, hall, htwice, hrefused, hoptions, hgroups, hstrings⟩

end Cbor.Encoder
