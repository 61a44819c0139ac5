import Cbor.Proofs.Encoder.Reference

namespace Cbor

namespace Encoder

open Emit

def Options.referring (o : Options) (mode : StringRef) : Options := { o with stringRef := mode }

namespace Sink

variable (live : Bool) (s : Sink)

def extend (b : Octets) (strings : List StringTable) (cells : CellTable) : Sink :=
  { s.add b with strings, cells }

def grow (r : Wire × CellTable) : Sink :=
  let w := r.1.refer live s.strings
  s.extend w.1.octets w.2 r.2

def growAll (r : List Wire × CellTable) : Sink :=
  let ws := Wire.referAll live s.strings r.1
  s.extend (Wire.spell (Wire.lexemesAll ws.1)) ws.2 r.2

def growEntries (r : List (Wire × Wire) × CellTable) : Sink :=
  let es := Wire.referEntries live s.strings r.1
  s.extend (Wire.spell (Wire.lexemesEntries es.1)) es.2 r.2

theorem grow_scalar (a : Scalar) : s.grow live (.scalar a, s.cells) = s.add a.lexeme.write := by
  simp [grow, extend, Wire.refer, Wire.octets, Wire.lexemes, add]

theorem growAll_nil : s.growAll live ([], s.cells) = s := by
  simp [growAll, extend, Wire.referAll, Wire.lexemesAll, add]

theorem growAll_grow (w : Wire) (cells : CellTable) (r : List Wire × CellTable) :
    (s.grow live (w, cells)).growAll live r = s.growAll live (w :: r.1, r.2) := by
  simp only [growAll, grow, extend, Wire.referAll, Wire.lexemesAll, Wire.spell_append, Wire.octets,
    ← add_add]
  rfl

theorem growEntries_nil : s.growEntries live ([], s.cells) = s := by
  simp [growEntries, extend, Wire.referEntries, Wire.lexemesEntries, add]

theorem growEntries_growEntries (e : Wire × Wire) (cells : CellTable)
    (r : List (Wire × Wire) × CellTable) :
    (s.growEntries live ([e], cells)).growEntries live r =
      s.growEntries live (e :: r.1, r.2) := by
  simp only [growEntries, extend, Wire.referEntries, Wire.lexemesEntries, Wire.spell_append,
    Wire.spell_nil, ← add_add, add_nil]
  rfl

theorem growEntries_grow (k w : Wire) (cells cells' : CellTable)
    (r : List (Wire × Wire) × CellTable) :
    ((s.grow live (k, cells)).grow live (w, cells')).growEntries live r =
      s.growEntries live ((k, w) :: r.1, r.2) := by
  simp only [growEntries, grow, extend, Wire.referEntries, Wire.lexemesEntries, Wire.spell_append,
    Wire.octets, ← add_add]
  rfl

def opened (major : Nat) (n : UInt64) : Sink :=
  ({ s with depth := s.depth + 1 } : Sink).add (Head.write major n)

def openedNamespace : Sink :=
  { s.opened 6 Tag.stringRefNamespace with strings := #[] :: s.strings }

def closed : Sink := { s with depth := s.depth - 1 }

variable {live}

theorem grow_tag {number : UInt64} (hn : ¬ (number = Tag.stringRefNamespace ∧ live))
    (r : Wire × CellTable) :
    ((s.opened 6 number).grow live r).closed = s.grow live (.tag number r.1, r.2) := by
  simp only [opened, closed, grow, extend, strings_add, Wire.refer, if_neg hn, Wire.octets,
    Wire.lexemes, Wire.spell_cons, Lexeme.write, add_add]
  simp [add]

theorem grow_namespace (r : Wire × CellTable) :
    let t := s.openedNamespace.grow true r
    ({ t with strings := t.strings.tail } : Sink).closed =
      s.grow true (.tag Tag.stringRefNamespace r.1, r.2) := by
  simp only [openedNamespace, opened, closed, grow, extend, Wire.refer, and_self, if_true,
    Wire.octets, Wire.lexemes, Wire.spell_cons, Lexeme.write, add, append_octets]
  rfl

theorem grow_array {n : Nat} {r : List Wire × CellTable} (hn : r.1.length = n) :
    ((s.opened 4 (.ofNat n)).growAll live r).closed = s.grow live (.array false r.1, r.2) := by
  simp only [opened, closed, grow, growAll, extend, strings_add, Wire.refer, Wire.octets,
    Wire.lexemes, Wire.count, Wire.ending, Wire.length_referAll, hn, Bool.false_eq_true, if_false,
    List.append_nil, Wire.spell_cons, Lexeme.write, add_add]
  simp [add]

theorem grow_map {n : Nat} {r : List (Wire × Wire) × CellTable} (hn : r.1.length = n) :
    ((s.opened 5 (.ofNat n)).growEntries live r).closed = s.grow live (.map false r.1, r.2) := by
  simp only [opened, closed, grow, growEntries, extend, strings_add, Wire.refer, Wire.octets,
    Wire.lexemes, Wire.count, Wire.ending, Wire.length_referEntries, hn, Bool.false_eq_true,
    if_false, List.append_nil, Wire.spell_cons, Lexeme.write, add_add]
  simp [add]

end Sink

variable (live : Bool) (o : Options) (s : Sink)

namespace Emit

theorem after_integer (n : Int) :
    after (integer n) s = .ok (s.grow live (.scalar (.integer n), s.cells)) := by
  rw [Sink.grow_scalar]
  cases n <;> rfl

theorem after_word (negative : Bool) (n : UInt64) :
    after (head (if negative then 1 else 0) n) s =
      .ok (s.grow live (.scalar (.word negative n), s.cells)) := by
  rw [Sink.grow_scalar]
  cases negative <;> rfl

theorem after_shortestFloat (bits : UInt64) :
    after (shortestFloat bits) s = .ok (s.grow live (.scalar (.shortestFloat bits), s.cells)) := by
  rw [Sink.grow_scalar]
  simp only [shortestFloat, Scalar.shortestFloat]
  split
  · rfl
  split
  · rfl
  split <;> rfl

theorem after_nativeFloat (bits : UInt64) :
    after (nativeFloat o bits) s = .ok (s.grow live (.scalar (.nativeFloat o bits), s.cells)) := by
  simp only [nativeFloat, Scalar.nativeFloat]
  split
  · exact after_shortestFloat live s bits
  rw [Sink.grow_scalar]
  split
  · rfl
  split <;> rfl

theorem after_string (isText : Bool) (b : Octets) :
    after (string isText b) s = .ok (s.grow live (.string isText b, s.cells)) := by
  rw [string, findString, after_modifyGet_bind, Sink.grow, Wire.refer]
  cases hs : s.strings with
  | nil =>
    simp only [Wire.referString, after_seq, after_head, ok_bind, after_put, Sink.add_add]
    cases isText <;> simp [Sink.extend, Sink.add, Wire.octets, Wire.lexemes, Lexeme.ofString,
      Lexeme.write, hs]
  | cons inner outer =>
    simp only [Wire.referString]
    rcases inner.lookup isText b with ⟨_ | index, inner⟩
    · simp only [after_seq, after_head, ok_bind, after_put, Sink.add_add]
      cases isText <;> simp [Sink.extend, Sink.add, Wire.octets, Wire.lexemes, Lexeme.ofString,
        Lexeme.write]
    · simp only [after_seq, after_head, ok_bind, Sink.add_add]
      simp [Sink.extend, Sink.add, Wire.octets, Wire.lexemes, Lexeme.write, Scalar.lexeme]

def growth (t : Except Fault Wire) : Except Fault Sink :=
  t >>= fun w ↦ .ok (s.grow live (w, s.cells))

theorem after_text (b : Octets) : after (text o b) s = growth live s (textTree o b) := by
  simp only [text, textTree, growth]
  split
  · rfl
  · exact after_string live s true b

theorem after_nativeString (b : Octets) :
    after (nativeString o b) s = growth live s (nativeTree o b) := by
  simp only [nativeString, nativeTree]
  split
  · exact after_text live o s b
  split
  · exact after_string live s false b
  · rfl

theorem after_keyString (b : Octets) :
    after (keyString o b) s = growth live s (keyTree o b) := by
  simp only [keyString, keyTree]
  cases if o.flags.contains .intKey then integerKey? b else none with
  | some n => exact after_integer live s n
  | none =>
    dsimp only
    split
    · exact after_text live o s b
    split
    · exact after_string live s false b
    · rfl

theorem checkDepth_bind {α : Type} (depth : Nat) (f : Except Fault α) :
    (checkDepth o depth >>= fun _ ↦ f) = if depth < o.maxDepth then f else .error .depth := by
  unfold checkDepth
  split <;> rfl

/-- A head and content one level deeper. `grow` is what the content does to the sink. -/
theorem after_level {α : Type} (major : Nat) (n : UInt64) {content : Emit Unit}
    {t : Except Fault α} {grow : Sink → α → Sink} {final : α → Sink}
    (hc : ∀ s', s'.depth = s.depth + 1 → s'.strings = s.strings → s'.cells = s.cells →
      after content s' = t >>= fun r ↦ .ok (grow s' r))
    (hf : ∀ r, t = .ok r →
      let s' := grow (({ s with depth := s.depth + 1 } : Sink).add (Head.write major n)) r
      { s' with depth := s'.depth - 1 } = final r) :
    after (nested o (head major n >>= fun _ ↦ content)) s =
      checkDepth o s.depth >>= fun _ ↦ t >>= fun r ↦ .ok (final r) := by
  rw [after_nested, checkDepth_bind]
  split
  · have h := hc (({ s with depth := s.depth + 1 } : Sink).add (Head.write major n)) rfl rfl rfl
    rw [after_seq, after_head, ok_bind, h]
    cases t with
    | error e => rfl
    | ok r => exact congrArg Except.ok (hf r rfl)
  · rfl

theorem after_tagged {number : UInt64} (hn : ¬ (number = Tag.stringRefNamespace ∧ live))
    {a : Emit Unit} {t : Except Fault (Wire × CellTable)}
    (hc : ∀ s', s'.depth = s.depth + 1 → s'.strings = s.strings → s'.cells = s.cells →
      after a s' = t >>= fun r ↦ .ok (s'.grow live r)) :
    after (tagged o number a) s = checkDepth o s.depth >>= fun _ ↦
      t >>= fun r ↦ .ok (s.grow live (.tag number r.1, r.2)) :=
  after_level o s 6 number hc fun r _ ↦ s.grow_tag hn r

theorem after_namespaced {content : Emit Unit} {t : Except Fault (Wire × CellTable)}
    (hc : ∀ s', s'.depth = s.depth + 1 → s'.strings = #[] :: s.strings → s'.cells = s.cells →
      after content s' = t >>= fun r ↦ .ok (s'.grow true r)) :
    after (nested o (inNamespace content)) s = checkDepth o s.depth >>= fun _ ↦
      t >>= fun r ↦ .ok (s.grow true (.tag Tag.stringRefNamespace r.1, r.2)) := by
  rw [after_nested, checkDepth_bind]
  split
  · have h := hc
      { ({ s with depth := s.depth + 1 } : Sink).add (Head.write 6 Tag.stringRefNamespace) with
        strings := #[] :: s.strings } rfl rfl rfl
    rw [after_inNamespace, h, bind_assoc, bind_assoc]
    cases t with
    | error e => rfl
    | ok r => exact congrArg Except.ok (s.grow_namespace r)
  · rfl

theorem after_findCell_bind (cell : Nat) (f : Option Nat → Emit Unit) :
    after (findCell o cell >>= f) s =
      after (f (lookupCell o cell s.cells).1) { s with cells := (lookupCell o cell s.cells).2 } := by
  unfold findCell lookupCell
  split <;> rfl

theorem after_require_bind (enabled : Bool) (a : Unit → Emit Unit) :
    after (require enabled >>= a) s = checkGroup enabled >>= fun _ ↦ after (a ()) s := by
  cases enabled <;> rfl

theorem after_array {n : Nat} {content : Emit Unit} {t : Except Fault (List Wire × CellTable)}
    (hn : ∀ r, t = .ok r → r.1.length = n)
    (hc : ∀ s', s'.depth = s.depth + 1 → s'.strings = s.strings → s'.cells = s.cells →
      after content s' = t >>= fun r ↦ .ok (s'.growAll live r)) :
    after (nested o (head 4 (.ofNat n) >>= fun _ ↦ content)) s = checkDepth o s.depth >>= fun _ ↦
      t >>= fun r ↦ .ok (s.grow live (.array false r.1, r.2)) :=
  after_level o s 4 (.ofNat n) hc fun r hr ↦ s.grow_array (hn r hr)

theorem after_map {n : Nat} {content : Emit Unit}
    {t : Except Fault (List (Wire × Wire) × CellTable)} (hn : ∀ r, t = .ok r → r.1.length = n)
    (hc : ∀ s', s'.depth = s.depth + 1 → s'.strings = s.strings → s'.cells = s.cells →
      after content s' = t >>= fun r ↦ .ok (s'.growEntries live r)) :
    after (nested o (head 5 (.ofNat n) >>= fun _ ↦ content)) s = checkDepth o s.depth >>= fun _ ↦
      t >>= fun r ↦ .ok (s.grow live (.map false r.1, r.2)) :=
  after_level o s 5 (.ofNat n) hc fun r hr ↦ s.grow_map (hn r hr)

theorem after_taggedString {number : UInt64} (hn : number ≠ Tag.stringRefNamespace)
    (isText : Bool) (b : Octets) :
    after (tagged o number (string isText b)) s =
      growth live s (checkDepth o s.depth >>= fun _ ↦ .ok (.tag number (.string isText b))) := by
  rw [after_tagged live o s (t := .ok (.string isText b, s.cells)) (fun h ↦ hn h.1)
    (fun s' _ _ hc ↦ by rw [after_string live s' isText b, hc]; rfl)]
  unfold growth
  rw [bind_assoc]
  rfl

theorem after_stamp (t : Moment) :
    after (stamp o t) s = growth live s (stampTree o t s.depth) := by
  unfold stamp stampTree
  cases Rfc3339.format? t with
  | some text => exact after_taggedString live o s (show Tag.dateTime ≠ _ by decide) true _
  | none => rfl

theorem after_bignum (b : Bignum) :
    after (bignum o b) s = growth live s (bignumTree o b s.depth) := by
  unfold bignum bignumTree
  cases b.word? with
  | some n => exact after_word live s b.negative n
  | none =>
    refine after_taggedString live o s ?_ false b.magnitude
    cases b.negative <;> decide

theorem after_fractionParts (n : Int) (b : Bignum) :
    after (integer n >>= fun _ ↦ bignum o b) s = bignumTree o b s.depth >>= fun w ↦
      .ok (s.growAll live ([.scalar (.integer n), w], s.cells)) := by
  rw [after_seq, after_integer live, ok_bind, after_bignum live]
  show bignumTree o b s.depth >>= _ = _
  congr 1
  funext w
  rw [← s.growAll_grow live _ s.cells ([w], s.cells),
    ← Sink.growAll_grow live _ w s.cells ([], s.cells)]
  exact congrArg Except.ok (Sink.growAll_nil live _).symm

theorem after_fraction {number : UInt64} (hn : number ≠ Tag.stringRefNamespace) (f : Fraction) :
    after (fraction o number f) s = growth live s (fractionTree o number f s.depth) := by
  rw [fraction, after_tagged live o s (fun h ↦ hn h.1) (t := do
    checkDepth o (s.depth + 1)
    let w ← bignumTree o f.mantissa (s.depth + 2)
    return (.array false [.scalar (.integer f.exponent.toInt), w], s.cells))]
  · simp only [growth, fractionTree, bind_assoc, pure_eq_ok, ok_bind]
  · intro s' hd _ hc
    refine (after_array live o s' (n := 2) (t := do
      let w ← bignumTree o f.mantissa (s'.depth + 1)
      return ([.scalar (.integer f.exponent.toInt), w], s'.cells)) ?_ ?_).trans ?_
    rotate_left 2
    · simp only [hd, hc, bind_assoc, pure_eq_ok, ok_bind]
    · intro r hr
      obtain ⟨_, _, h⟩ := bind_eq_ok.1 hr
      cases h
      rfl
    · intro t hd _ hc
      rw [after_fractionParts live, hd, hc]
      simp only [bind_assoc, pure_eq_ok, ok_bind]

theorem after_decimal (f : Fraction) :
    after (decimal o f) s = growth live s (decimalTree o f s.depth) := by
  simp only [decimal, decimalTree]
  split
  · exact after_bignum live o s f.mantissa
  · exact after_fraction live o s (by decide) f

end Emit

variable {mode : StringRef} {o : Options}

/-- The writing `a` comes to the growing of `t`. -/
def Writes (mode : StringRef) (a : Emit Unit)
    (t : (depth : Nat) → CellTable → Except Fault (Wire × CellTable)) : Prop :=
  ∀ s, (mode = .off → s.strings = []) →
    after a s = t s.depth s.cells >>= fun r ↦ .ok (s.grow (mode ≠ .off) r)

def WritesAll (mode : StringRef) (a : Emit Unit)
    (t : (depth : Nat) → CellTable → Except Fault (List Wire × CellTable)) : Prop :=
  ∀ s, (mode = .off → s.strings = []) →
    after a s = t s.depth s.cells >>= fun r ↦ .ok (s.growAll (mode ≠ .off) r)

def WritesEntries (mode : StringRef) (a : Emit Unit)
    (t : (depth : Nat) → CellTable → Except Fault (List (Wire × Wire) × CellTable)) : Prop :=
  ∀ s, (mode = .off → s.strings = []) →
    after a s = t s.depth s.cells >>= fun r ↦ .ok (s.growEntries (mode ≠ .off) r)

theorem Writes.keyOctets {a : Emit Unit}
    {t : (depth : Nat) → CellTable → Except Fault (Wire × CellTable)} (h : Writes .off a t)
    (depth : Nat) : keyOctets a depth = (fun r ↦ r.1.octets) <$> t depth #[] := by
  rw [keyOctets_eq, h { depth } fun _ ↦ rfl]
  cases t depth #[] with
  | error e => rfl
  | ok r => simp [Sink.grow, Sink.extend, Sink.add, Wire.refer_off]

theorem strings_grow_off {s : Sink} {r : Wire × CellTable} (hs : mode = .off → s.strings = []) :
    mode = .off → (s.grow (mode ≠ .off) r).strings = [] := by
  intro hm
  simp [Sink.grow, Sink.extend, hs hm, hm, Wire.refer_off]

theorem strings_growEntries_off {s : Sink} {r : List (Wire × Wire) × CellTable}
    (hs : mode = .off → s.strings = []) :
    mode = .off → (s.growEntries (mode ≠ .off) r).strings = [] := by
  intro hm
  simp [Sink.growEntries, Sink.extend, hs hm, hm, Wire.refer_off_entries]

theorem writes_nested {a : Emit Unit}
    {t : (depth : Nat) → CellTable → Except Fault (Wire × CellTable)} (h : Writes mode a t) :
    Writes mode (nested (o.referring mode) a) fun depth cells ↦
      checkDepth o depth >>= fun _ ↦ t (depth + 1) cells := by
  intro s hs
  have hs' : mode = .off → ({ s with depth := s.depth + 1 } : Sink).strings = [] := hs
  rw [after_nested, h _ hs', bind_assoc, bind_assoc, checkDepth_bind]
  rfl

theorem writes_tag {number : UInt64} {item : Item} (hn : mode = .off ∨ number ≠ Tag.stringRef)
    {a : Emit Unit} {t : (depth : Nat) → CellTable → Except Fault (Wire × CellTable)}
    (h : Writes mode a t) :
    Writes mode (tag (o.referring mode) number item a) fun depth cells ↦ do
      checkDepth o depth
      let (w, cells) ← t (depth + 1)
        (if number = Tag.shareable ∧ o.sharedRef then cells.push none else cells)
      return (.tag number w, cells) := by
  intro s hs
  have hr : (o.referring mode).stringRef = mode := rfl
  rw [tag]
  simp only [hr, bind_assoc, pure_eq_ok, ok_bind]
  by_cases hns : number = Tag.stringRefNamespace ∧ mode ≠ .off
  · obtain ⟨rfl, hm⟩ := hns
    have hl : decide (mode ≠ .off) = true := decide_eq_true hm
    have hc (s' : Sink) := h s' fun h ↦ absurd h hm
    rw [hl] at hc ⊢
    rw [if_pos ⟨rfl, hm⟩, after_namespaced (t := t (s.depth + 1) s.cells) _ s
      fun s' hd _ hc' ↦ by rw [hc s', hd, hc']]
    rfl
  · have hnr : ¬ (number = Tag.stringRef ∧ mode ≠ .off) := fun h ↦ hn.elim h.2 (· h.1)
    have hnl : ¬ (number = Tag.stringRefNamespace ∧ decide (mode ≠ .off) = true) := by
      simpa using hns
    have ht (s : Sink) (hs : mode = .off → s.strings = []) := after_tagged _ (o.referring mode) s hnl
      (t := t (s.depth + 1) s.cells) fun s' hd hs' hc ↦ by
        rw [h s' (fun hm ↦ hs'.trans (hs hm)), hd, hc]
    rw [if_neg hns, if_neg hnr, after_ite]
    have hif : (o.referring mode).sharedRef = o.sharedRef := rfl
    rw [hif]
    split
    · exact ht { s with cells := s.cells.push none } hs
    · exact ht s hs

theorem writes_shareable {cell : Nat} {item : Item} {a : Emit Unit}
    {t : (depth : Nat) → CellTable → Except Fault (Wire × CellTable)} (h : Writes mode a t) :
    Writes mode (shareable (o.referring mode) cell item a) fun depth cells ↦ do
      if o.flags.contains .cde then throw .unsupportedValue
      if item.isShareable then throw (.tagValue Tag.shareable)
      checkDepth o depth
      match lookupCell o cell cells with
      | (some index, cells) =>
        return (.tag Tag.sharedRef (.scalar (.unsigned (.ofNat index))), cells)
      | (none, cells) =>
        let (w, cells) ← t (depth + 1) cells
        return (.tag Tag.shareable w, cells) := by
  intro s hs
  have hf : (o.referring mode).flags = o.flags := rfl
  have hl : lookupCell (o.referring mode) cell s.cells = lookupCell o cell s.cells := rfl
  simp only [shareable, hf]
  by_cases hc : o.flags.contains .cde = true
  · simp only [hc, if_true]
    rfl
  by_cases hi : item.isShareable = true
  · simp only [hc, hi, if_true]
    rfl
  simp only [hc, hi, Bool.false_eq_true, if_false, after_findCell_bind, hl, bind_assoc]
  rcases lookupCell o cell s.cells with ⟨_ | index, cells⟩
  · have ht := after_tagged (mode ≠ .off) (o.referring mode) { s with cells }
      (fun h ↦ absurd h.1 (show Tag.shareable ≠ _ by decide)) (t := t (s.depth + 1) cells)
      fun s' hd hs' hc ↦ by rw [h s' (fun hm ↦ hs'.trans (hs hm)), hd, hc]
    refine ht.trans ?_
    simp only [bind_assoc, pure_eq_ok, ok_bind]
    rfl
  · have ht := after_tagged (mode ≠ .off) (o.referring mode) { s with cells }
      (fun h ↦ absurd h.1 (show Tag.sharedRef ≠ _ by decide))
      (t := .ok (.scalar (.unsigned (.ofNat index)), cells)) (a := head 0 (.ofNat index))
      fun s' _ _ hc ↦ by
        simp only at hc
        rw [after_head, ok_bind, ← hc, Sink.grow_scalar]
        rfl
    exact ht

theorem referring_override (o : Options) (p : Overrides) :
    (o.referring mode).override p = (fun o ↦ o.referring mode) <$> o.override p := by
  unfold Options.override
  split
  · rfl
  · simp only [map_bind, pure_eq_ok, map_ok]
    rfl

/-- The writing of an entry and its trees. -/
structure Matches (mode : StringRef) (p : EntryPlan) (t : EntryTrees) : Prop where
  key : ∀ depth, keyOctets p.key depth = t.key depth
  entry : WritesEntries mode p.entry fun depth cells ↦
    (fun r ↦ ([r.1], r.2)) <$> t.entry depth cells

theorem mapM_keyOctets {zs : List (EntryPlan × EntryTrees)}
    (h : ∀ z ∈ zs, Matches mode z.1 z.2) (depth : Nat) :
    ((zs.map Prod.fst).mapM fun p ↦ do return (← keyOctets p.key depth, p.entry) :
        Emit (List (Octets × Emit Unit))) =
      liftM ((List.map fun k ↦ (k.1, k.2.1.entry)) <$>
        zs.mapM fun z ↦ (·, z) <$> z.2.key depth) := by
  induction zs with
  | nil => rfl
  | cons z zs ih =>
    rw [List.map_cons, List.mapM_cons, ih fun z hz ↦ h z (List.mem_cons_of_mem _ hz),
      List.mapM_cons, (h z List.mem_cons_self).key depth]
    cases z.2.key depth with
    | error e => rfl
    | ok k =>
      cases zs.mapM fun z ↦ (·, z) <$> z.2.key depth <;> rfl

theorem mapM_treeKey (zs : List (EntryPlan × EntryTrees)) (depth : Nat) :
    ((zs.map Prod.snd).mapM fun t ↦ do return (← t.key depth, t)) =
      (List.map fun k ↦ (k.1, k.2.2)) <$> zs.mapM fun z ↦ (·, z) <$> z.2.key depth := by
  induction zs with
  | nil => rfl
  | cons z zs ih =>
    rw [List.map_cons, List.mapM_cons, ih, List.mapM_cons]
    cases z.2.key depth with
    | error e => rfl
    | ok k =>
      cases zs.mapM fun z ↦ (·, z) <$> z.2.key depth <;> rfl

theorem writes_inTurn {ks : List (Octets × EntryPlan × EntryTrees)}
    (h : ∀ k ∈ ks, Matches mode k.2.1 k.2.2) :
    WritesEntries mode ((ks.map fun k ↦ (k.1, k.2.1.entry)).forM Prod.snd) fun depth ↦
      entriesInTurn depth (ks.map fun k ↦ (k.1, k.2.2)) := by
  induction ks with
  | nil =>
    intro s _
    show Except.ok s = .ok (s.growEntries _ ([], s.cells))
    rw [Sink.growEntries_nil]
  | cons k ks ih =>
    intro s hs
    show after (k.2.1.entry >>= fun _ ↦ (ks.map fun k ↦ (k.1, k.2.1.entry)).forM Prod.snd) s = _
    rw [after_seq, (h k List.mem_cons_self).entry s hs]
    simp only [List.map_cons, entriesInTurn, bind_assoc, pure_eq_ok, ok_bind]
    cases k.2.2.entry s.depth s.cells with
    | error e => rfl
    | ok e =>
      have ht := ih (fun k hk ↦ h k (List.mem_cons_of_mem _ hk)) _
        (strings_growEntries_off (r := ([e.1], e.2)) hs)
      simp only [map_ok, ok_bind]
      rw [ht]
      refine congrArg _ (funext fun es ↦ ?_)
      rw [Sink.growEntries_growEntries]

theorem writes_sortedEntries {zs : List (EntryPlan × EntryTrees)}
    (h : ∀ z ∈ zs, Matches mode z.1 z.2) :
    WritesEntries mode (sortedEntries (zs.map Prod.fst)) (sortedTrees (zs.map Prod.snd)) := by
  intro s hs
  rw [sortedEntries, after_get_bind]
  simp only []
  rw [mapM_keyOctets h, after_liftExcept_bind, sortedTrees, mapM_treeKey]
  cases hk : zs.mapM fun z ↦ (·, z) <$> z.2.key s.depth with
  | error e => rfl
  | ok ks =>
    have hks : ∀ k ∈ ks, Matches mode k.2.1 k.2.2 := by
      intro k hkm
      obtain ⟨z, hz, hzk⟩ := exists_of_mem_mapM hk hkm
      obtain ⟨_, _, rfl⟩ := map_eq_ok.1 hzk
      exact h z hz
    let le (a b : Octets × EntryPlan × EntryTrees) : Bool := Octets.ble a.1 b.1
    have hplans := List.map_mergeSort (r := le) (s := fun a b ↦ Octets.ble a.1 b.1)
      (f := fun k ↦ (k.1, k.2.1.entry)) (l := ks) fun _ _ _ _ ↦ rfl
    have htrees := List.map_mergeSort (r := le) (s := fun a b ↦ Octets.ble a.1 b.1)
      (f := fun k ↦ (k.1, k.2.2)) (l := ks) fun _ _ _ _ ↦ rfl
    simp only [map_ok, ok_bind]
    rw [← hplans, ← htrees]
    exact writes_inTurn (fun k hk ↦ hks k (List.mem_mergeSort.1 hk)) s hs

mutual

theorem writes_write : (v : Item) → ∀ {mode : StringRef}, (mode = .off ∨ v.NoStringRef) →
    ∀ (o : Options) (asKey : Bool), Writes mode (write (o.referring mode) asKey v) (tree o asKey v)
  | .unsigned n, _, _, o, asKey, s, _ => by
    rw [write, tree, ok_bind, Sink.grow_scalar]
    rfl
  | .negative n, _, _, o, asKey, s, _ => by
    rw [write, tree, ok_bind, Sink.grow_scalar]
    rfl
  | .bytes b, _, _, o, asKey, s, _ => by
    rw [write, tree, ok_bind]
    exact after_string _ s false b
  | .text b, mode, _, o, asKey, s, _ => by
    rw [write, tree, bind_assoc]
    exact after_text _ (o.referring mode) s b
  | .string b, mode, _, o, asKey, s, _ => by
    cases asKey
    · simp only [write, tree, Bool.false_eq_true, if_false, bind_assoc]
      exact after_nativeString _ (o.referring mode) s b
    · simp only [write, tree, if_true, bind_assoc]
      exact after_keyString _ (o.referring mode) s b
  | .array items, mode, h, o, asKey, s, hs => by
    rw [write, tree]
    simp only [bind_assoc, pure_eq_ok, ok_bind]
    refine after_array _ (o.referring mode) s (fun r hr ↦ length_treeAll hr) ?_
    intro s' hd hs' hc
    rw [writes_writeAll items h o s' (fun hm ↦ hs'.trans (hs hm)), hd, hc]
  | .map entries, mode, h, o, asKey, s, hs => by
    rw [write, tree]
    simp only [bind_assoc, pure_eq_ok]
    have hf : (o.referring mode).flags = o.flags := rfl
    rw [hf]
    cases hc : o.flags.contains .cde
    · simp only [Bool.false_eq_true, if_false, bind_assoc, ok_bind]
      refine after_map _ (o.referring mode) s (fun r hr ↦ length_treeEntries hr) ?_
      intro s' hd hs' hc
      rw [writes_writeEntries entries h o s' (fun hm ↦ hs'.trans (hs hm)), hd, hc]
    · simp only [if_true, bind_assoc, ok_bind]
      refine after_map _ (o.referring mode) s (fun r hr ↦ length_sortedTrees hr) ?_
      intro s' hd hs' hc
      obtain ⟨zs, hz, hp, ht⟩ := entryPlans_matches entries h o
      rw [hp, ht, writes_sortedEntries hz s' (fun hm ↦ hs'.trans (hs hm)), hd, hc]
  | .tag number content, _, h, o, asKey, s, hs => by
    have hn := h.imp id And.left
    have hc := h.imp id And.right
    rw [write, tree]
    exact writes_tag hn (writes_write content hc o false) s hs
  | .bool b, _, _, o, asKey, s, _ => by
    rw [write, tree, ok_bind, Sink.grow_scalar]
    rfl
  | .null, _, _, o, asKey, s, _ => by
    rw [write, tree, ok_bind, Sink.grow_scalar]
    rfl
  | .undefined, _, _, o, asKey, s, _ => by
    rw [write, tree, ok_bind, Sink.grow_scalar]
    rfl
  | .float16 bits, _, _, o, asKey, s, _ => by
    rw [write, tree, ok_bind, Sink.grow_scalar]
    rfl
  | .float32 bits, _, _, o, asKey, s, _ => by
    rw [write, tree, ok_bind]
    cases hc : o.flags.contains .cde
    · rw [if_neg (by simp [Options.referring, hc]), if_neg (by simp), Sink.grow_scalar]
      rfl
    · rw [if_pos (by simp [Options.referring, hc]), if_pos rfl]
      exact after_shortestFloat _ s _
  | .float64 bits, mode, _, o, asKey, s, _ => by
    rw [write, tree, ok_bind]
    exact after_nativeFloat _ (o.referring mode) s bits
  | .dateTime t, mode, _, o, asKey, s, _ => by
    rw [write, tree, after_require_bind]
    simp only [bind_assoc]
    exact congrArg _ (funext fun _ ↦ after_stamp _ (o.referring mode) s t)
  | .bignum b, mode, _, o, asKey, s, _ => by
    rw [write, tree, after_require_bind]
    simp only [bind_assoc]
    exact congrArg _ (funext fun _ ↦ after_bignum _ (o.referring mode) s b)
  | .decimal f, mode, _, o, asKey, s, _ => by
    rw [write, tree, after_require_bind]
    simp only [bind_assoc]
    exact congrArg _ (funext fun _ ↦ after_decimal _ (o.referring mode) s f)
  | .bigFloat f, mode, _, o, asKey, s, _ => by
    rw [write, tree, after_require_bind]
    simp only [bind_assoc]
    exact congrArg _ (funext fun _ ↦
      after_fraction _ (o.referring mode) s (show Tag.bigFloat ≠ _ by decide) f)
  | .uri u, mode, _, o, asKey, s, _ => by
    rw [write, tree, after_require_bind]
    simp only [bind_assoc]
    refine congrArg _ (funext fun _ ↦ ?_)
    rw [after_taggedString (mode ≠ .off) _ s (show Tag.uri ≠ _ by decide), growth, bind_assoc]
    rfl
  | .shareable cell content, _, h, o, asKey, s, hs => by
    cases asKey with
    | true =>
      rw [write, tree]
      rfl
    | false =>
      rw [write, tree]
      exact writes_shareable (writes_write content h o false) s hs
  | .custom hook result, _, h, o, asKey, s, hs => by
    cases asKey with
    | true =>
      rw [write, tree]
      rfl
    | false =>
      rw [write, tree]
      exact writes_nested (writes_writeResult result h o) s hs
  | .params p content, _, h, o, asKey, s, hs => by
    rw [write, tree, after_liftExcept_bind, referring_override]
    cases o.override p with
    | error e => rfl
    | ok inner => exact writes_nested (writes_write content h inner asKey) s hs

theorem writes_writeAll : (is : List Item) → ∀ {mode : StringRef},
    (mode = .off ∨ Item.NoStringRefAll is) →
    ∀ (o : Options), WritesAll mode (writeAll (o.referring mode) is) (treeAll o is)
  | [], _, _, o, s, _ => by
    rw [writeAll, treeAll, ok_bind, Sink.growAll_nil]
    rfl
  | i :: is, _, h, o, s, hs => by
    have hi := h.imp id And.left
    have his := h.imp id And.right
    rw [writeAll, treeAll, after_seq, writes_write i hi o false s hs]
    simp only [bind_assoc, pure_eq_ok, ok_bind]
    congr 1
    funext r
    rw [writes_writeAll is his o _ (strings_grow_off hs)]
    refine congrArg _ (funext fun rs ↦ ?_)
    rw [Sink.growAll_grow]

theorem writes_writeEntries : (is : List (Item × Item)) → ∀ {mode : StringRef},
    (mode = .off ∨ Item.NoStringRefEntries is) →
    ∀ (o : Options), WritesEntries mode (writeEntries (o.referring mode) is) (treeEntries o is)
  | [], _, _, o, s, _ => by
    rw [writeEntries, treeEntries, ok_bind, Sink.growEntries_nil]
    rfl
  | (k, i) :: is, _, h, o, s, hs => by
    have hk := h.imp id And.left
    have hi := h.imp id (fun h ↦ h.2.1)
    have his := h.imp id (fun h ↦ h.2.2)
    rw [writeEntries, treeEntries, after_seq, writes_write k hk o true s hs]
    simp only [bind_assoc, pure_eq_ok, ok_bind]
    refine congrArg _ (funext fun key ↦ ?_)
    have hs' := strings_grow_off (r := key) hs
    rw [after_seq, writes_write i hi o false _ hs', bind_assoc]
    refine congrArg _ (funext fun w ↦ ?_)
    rw [ok_bind, writes_writeEntries is his o _ (strings_grow_off hs')]
    refine congrArg _ (funext fun rs ↦ ?_)
    rw [Sink.growEntries_grow]

theorem entryPlans_matches : (is : List (Item × Item)) → ∀ {mode : StringRef},
    (mode = .off ∨ Item.NoStringRefEntries is) → ∀ (o : Options),
    ∃ zs : List (EntryPlan × EntryTrees), (∀ z ∈ zs, Matches mode z.1 z.2) ∧
      entryPlans (o.referring mode) is = zs.map Prod.fst ∧ entryTrees o is = zs.map Prod.snd
  | [], _, _, o => ⟨[], nofun, rfl, rfl⟩
  | (k, i) :: is, _, h, o => by
    have hk := h.imp id And.left
    have hi := h.imp id (fun h ↦ h.2.1)
    obtain ⟨zs, hz, hp, ht⟩ := entryPlans_matches is (h.imp id (fun h ↦ h.2.2)) o
    rw [entryPlans, entryTrees, hp, ht]
    refine ⟨(_, _) :: zs, ?_, rfl, rfl⟩
    rintro z (_ | ⟨_, hm⟩)
    · refine ⟨(writes_write k (.inl (Eq.refl StringRef.off)) o.withoutReferences true).keyOctets,
        fun s hs ↦ ?_⟩
      rw [after_seq, writes_write k hk o true s hs]
      simp only [bind_assoc, map_bind, pure_eq_ok, ok_bind, map_ok]
      refine congrArg _ (funext fun key ↦ ?_)
      rw [writes_write i hi o false _ (strings_grow_off hs)]
      refine congrArg _ (funext fun w ↦ ?_)
      exact congrArg Except.ok ((Sink.growEntries_nil _ _).symm.trans
        (Sink.growEntries_grow _ s key.1 w.1 key.2 w.2 ([], w.2)))
    · exact hz z hm

theorem writes_writeResult : (r : Except Fault Item) → ∀ {mode : StringRef},
    (mode = .off ∨ Item.NoStringRefResult r) →
    ∀ (o : Options), Writes mode (writeResult (o.referring mode) r) (treeResult o r)
  | .error _, _, _, _, _, _ => rfl
  | .ok i, _, h, o, s, hs => writes_write i h o false s hs

end

end Encoder
end Cbor
