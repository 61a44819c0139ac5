import Cbor.Proofs.Encoder.Order
import Cbor.Proofs.Encoder.Overrides

namespace Cbor.Encoder

/-- An encoder with what belongs to the options in force, and nothing left from other ones. -/
def Options.encoder (o : Options) (s : Sink) : Encoder := { options := o, sink := s }

namespace Writing

variable {α β : Type} {o inner : Options}

/-- With the options in force, `a` answers what `b` answers and leaves the sink as `b` does; and
whether it succeeds or fails, the options, the groups and the limit of the depth are back. -/
def Follows (o : Options) (a : Writing α) (b : Emit α) : Prop :=
  ∀ s : Sink, a.run.run (o.encoder s) = ((b.run.run s).1, o.encoder (b.run.run s).2)

theorem run_inNamespace (a : Writing Unit) (e : Encoder) :
    (inNamespace a).run.run e =
      let r := a.run.run { e with
        sink := { e.sink.add (Head.write 6 Tag.stringRefNamespace) with
          strings := #[] :: e.sink.strings } }
      (r.1, { r.2 with sink.strings := r.2.sink.strings.tail }) := rfl

theorem run_withOptions (inner : Options) (a : Writing Unit) (e : Encoder) :
    (withOptions inner a).run.run e =
      let r := a.run.run { e with options := inner, groups := inner.groups }
      (r.1, { r.2 with options := e.options, groups := e.groups }) := rfl

namespace Follows

theorem lift (a : Emit α) : Follows o (liftM a) a := fun _ ↦ rfl

theorem done : Follows o (pure ()) (pure ()) := fun _ ↦ rfl

theorem throw (e : Fault) : Follows o (throw e : Writing α) (throw e) := fun _ ↦ rfl

theorem seq {a : Writing α} {b : Emit α} {f : α → Writing β} {g : α → Emit β}
    (h : Follows o a b) (hf : ∀ x, Follows o (f x) (g x)) : Follows o (a >>= f) (b >>= g) := by
  intro s
  rw [run_seq, run_seq, h s]
  rcases b.run.run s with ⟨_ | x, t⟩
  · rfl
  · exact hf x t

theorem options {f : Options → Writing α} {b : Emit α} (h : Follows o (f o) b) :
    Follows o (Writing.options >>= f) b := h

theorem groups {f : Tag.Groups → Writing α} {b : Emit α} (h : Follows o (f o.groups) b) :
    Follows o (Writing.groups >>= f) b := h

theorem ite {p : Prop} [Decidable p] {a a' : Writing α} {b b' : Emit α} (h : Follows o a b)
    (h' : Follows o a' b') : Follows o (if p then a else a') (if p then b else b') := by
  split
  · exact h
  · exact h'

theorem forM {ι : Type} {f : ι → Writing Unit} {g : ι → Emit Unit} {l : List ι}
    (h : ∀ i ∈ l, Follows o (f i) (g i)) : Follows o (l.forM f) (l.forM g) := by
  induction l with
  | nil => exact done
  | cons i l ih =>
    exact (h i List.mem_cons_self).seq fun _ ↦ ih fun i hi ↦ h i (List.mem_cons_of_mem _ hi)

variable {a : Writing Unit} {b : Emit Unit}

theorem nested (h : Follows o a b) : Follows o (nested a) (Emit.nested o b) :=
  (lift (Emit.enter o.maxDepth)).seq fun _ ↦ h.seq fun _ ↦ lift Emit.leave

theorem tagged (number : UInt64) (h : Follows o a b) :
    Follows o (tagged number a) (Emit.tagged o number b) :=
  nested ((lift (Emit.head 6 number)).seq fun _ ↦ h)

theorem inNamespace (h : Follows o a b) : Follows o (inNamespace a) (Emit.inNamespace b) := by
  intro s
  let opened : Sink :=
    { s.add (Head.write 6 Tag.stringRefNamespace) with strings := #[] :: s.strings }
  let close (r : Except Fault Unit × Encoder) : Except Fault Unit × Encoder :=
    (r.1, { r.2 with sink.strings := r.2.sink.strings.tail })
  exact (run_inNamespace a _).trans (congrArg close (h opened))

/-- What the overrides change is changed back, and for the content it is as if the encoder had been
made with the other options. -/
theorem withOptions {p : Overrides} (hp : o.override p = .ok inner) (h : Follows inner a b) :
    Follows o (withOptions inner a) b := by
  intro s
  have hforce : { o.encoder s with options := inner, groups := inner.groups } = inner.encoder s := by
    simp [Options.encoder, maxDepth_override hp]
  rw [run_withOptions, hforce, h s]
  simp [Options.encoder, maxDepth_override hp]

theorem params {p : Overrides} {f : Writing Unit} {g : Options → Emit Unit}
    (h : ∀ inner, Follows inner f (g inner)) :
    Follows o (do
        let inner ← (← Writing.options).override p
        Writing.nested (Writing.withOptions inner f))
      (do
        let inner ← o.override p
        Emit.nested o (g inner)) := by
  refine options ?_
  cases hp : o.override p with
  | error e => exact throw e
  | ok inner => exact nested (withOptions hp (h inner))

theorem stamp (t : Moment) : Follows o (stamp t) (Emit.stamp o t) := by
  unfold Writing.stamp Emit.stamp
  cases Rfc3339.format? t with
  | none => exact throw _
  | some s => exact tagged _ (lift _)

theorem bignum (n : Bignum) : Follows o (bignum n) (Emit.bignum o n) := by
  unfold Writing.bignum Emit.bignum
  cases n.word? with
  | none => exact tagged _ (lift _)
  | some w => exact lift _

theorem fraction (number : UInt64) (f : Fraction) :
    Follows o (fraction number f) (Emit.fraction o number f) :=
  tagged number (nested ((lift _).seq fun _ ↦ (lift _).seq fun _ ↦ bignum _))

theorem decimal (f : Fraction) : Follows o (decimal f) (Emit.decimal o f) :=
  ite (bignum _) (fraction _ f)

theorem tag (number : UInt64) (i : Item) (h : Follows o a b) :
    Follows o (tag number i a) (Emit.tag o number i b) := by
  have htagged := h.tagged number
  refine options (ite h.inNamespace.nested (ite ((lift _).seq fun _ ↦ ?_) ?_))
  · exact ite ((lift _).seq fun _ ↦ htagged) htagged
  · exact ite ((lift _).seq fun _ ↦ htagged) htagged

theorem shareable (cell : Nat) (i : Item) (h : Follows o a b) :
    Follows o (shareable cell i a) (Emit.shareable o cell i b) := by
  refine options (ite ((throw _).seq fun _ ↦ ?_) ?_)
  all_goals refine ite ((throw _).seq fun _ ↦ ?_) ?_
  all_goals
    refine (lift (Emit.findCell o cell)).seq fun found ↦ ?_
    cases found with
    | none => exact h.tagged _
    | some index => exact tagged _ (lift _)

end Follows

theorem keyOctets_eq {a : Writing Unit} {b : Emit Unit} (h : Follows o.withoutReferences a b)
    (s : Sink) : keyOctets a (o.encoder s).scratch = Emit.keyOctets b s.depth := by
  have hscratch : (o.encoder s).scratch = o.withoutReferences.encoder { depth := s.depth } := rfl
  rw [hscratch, keyOctets, h, Emit.keyOctets]
  rcases b.run.run { depth := s.depth } with ⟨_ | _, _⟩ <;> rfl

theorem sortedEntries_map {ι : Type} (f : ι → Writing Unit × Writing Unit) (es : List ι) :
    sortedEntries (es.map f) = (Encoder.scratch <$> get) >>= fun scratch ↦
      liftM (keyed (fun e ↦ keyOctets (f e).1 scratch) es) >>= fun ks ↦
        (sortKeyed ks).forM fun k ↦ (do (f k.2).1; (f k.2).2) := by
  unfold sortedEntries
  refine congrArg (_ >>= ·) (funext fun scratch ↦ ?_)
  have hk : ((es.map f).mapM fun entry ↦ do return (← keyOctets entry.1 scratch, entry) :
      Writing (List (Octets × Writing Unit × Writing Unit))) =
        liftM (List.map (fun k ↦ (k.1, f k.2)) <$> keyed (fun e ↦ keyOctets (f e).1 scratch) es) := by
    induction es with
    | nil => rfl
    | cons e es ih =>
      rw [keyed_cons, List.map_cons, List.mapM_cons, ih]
      cases keyOctets (f e).1 scratch with
      | error fault => rfl
      | ok k => cases keyed (fun e ↦ keyOctets (f e).1 scratch) es <;> rfl
  rw [hk]
  cases keyed (fun e ↦ keyOctets (f e).1 scratch) es with
  | error fault => rfl
  | ok ks => exact forM_sortKeyed_map f (fun k ↦ do k.2.1; k.2.2) ks

theorem Follows.sortKeyed {ι : Type} {key : ι → Except Fault Octets} {l : List ι}
    {f : ι → Writing Unit} {g : ι → Emit Unit} (h : ∀ i ∈ l, Follows o (f i) (g i)) :
    Follows o (liftM (keyed key l) >>= fun ks ↦ (sortKeyed ks).forM fun k ↦ f k.2)
      (liftM (keyed key l) >>= fun ks ↦ (Cbor.sortKeyed ks).forM fun k ↦ g k.2) := by
  cases hks : keyed key l with
  | error fault => exact throw fault
  | ok ks => exact forM fun k hk ↦ h k.2 (mem_of_keyed hks (mem_sortKeyed.1 hk))

theorem Follows.sortedEntries {ι : Type} {l : List ι} {f : ι → Writing Unit × Writing Unit}
    {g : ι → Emit.EntryPlan} (hk : ∀ i ∈ l, Follows o.withoutReferences (f i).1 (g i).key)
    (he : ∀ i ∈ l, Follows o (do (f i).1; (f i).2) (g i).entry) :
    Follows o (sortedEntries (l.map f)) (Emit.sortedEntries (l.map g)) := by
  intro s
  have hkeys : keyed (fun i ↦ keyOctets (f i).1 (o.encoder s).scratch) l =
      keyed (fun i ↦ Emit.keyOctets (g i).key s.depth) l :=
    keyed_congr fun i hi ↦ keyOctets_eq (hk i hi) s
  have hscratch (act : Encoder → Writing Unit) : ((Encoder.scratch <$> get) >>= act).run.run
      (o.encoder s) = (act (o.encoder s).scratch).run.run (o.encoder s) := rfl
  rw [sortedEntries_map, Emit.sortedEntries_map, hscratch, hkeys]
  exact Follows.sortKeyed he s

theorem entryWritings_eq_map (es : List (Item × Item)) :
    entryWritings es = es.map fun e ↦ (item true e.1, item false e.2) := by
  induction es with
  | nil => rfl
  | cons e es ih => rw [entryWritings, ih, List.map_cons]

mutual

/-- The writing of an item, with the options in the state of the encoder, follows the recursion that
hands them down. -/
theorem follows_item : (v : Item) → ∀ (o : Options) (asKey : Bool),
    Follows o (item asKey v) (write o asKey v)
  | .unsigned _, _, _ | .negative _, _, _ | .bytes _, _, _ | .bool _, _, _ | .null, _, _
  | .undefined, _, _ | .float16 _, _, _ => by
    rw [item, write]
    exact .lift _
  | .text b, _, _ => by
    rw [item, write]
    exact .options (.lift _)
  | .string b, _, asKey => by
    rw [item, write]
    cases asKey with
    | true => exact .options (.lift _)
    | false => exact .options (.lift _)
  | .array is, o, _ => by
    rw [item, write]
    exact .nested (.seq (.lift _) fun _ ↦ follows_items is o)
  | .map es, o, _ => by
    rw [item, write]
    refine .nested (.seq (.lift _) fun _ ↦ .options (.ite ?_ (follows_entries es o)))
    rw [entryWritings_eq_map, entryPlans_eq_map]
    refine .sortedEntries (fun e he ↦ (follows_parts es e he).1 _) fun e he ↦ ?_
    exact .seq ((follows_parts es e he).1 o) fun _ ↦ (follows_parts es e he).2 o
  | .tag number content, o, _ => by
    rw [item, write]
    exact .tag number content (follows_item content o false)
  | .float32 _, _, _ => by
    rw [item, write]
    exact .options (.ite (.lift _) (.lift _))
  | .float64 _, _, _ => by
    rw [item, write]
    exact .options (.lift _)
  | .dateTime t, _, _ => by
    rw [item, write]
    exact .groups (.seq (.lift _) fun _ ↦ .stamp t)
  | .bignum b, _, _ => by
    rw [item, write]
    exact .groups (.seq (.lift _) fun _ ↦ .bignum b)
  | .decimal f, _, _ => by
    rw [item, write]
    exact .groups (.seq (.lift _) fun _ ↦ .decimal f)
  | .bigFloat f, _, _ => by
    rw [item, write]
    exact .groups (.seq (.lift _) fun _ ↦ .fraction _ f)
  | .uri _, _, _ => by
    rw [item, write]
    exact .groups (.seq (.lift _) fun _ ↦ .tagged _ (.lift _))
  | .shareable cell content, o, _ => by
    rw [item, write]
    exact .ite (.throw _) (.shareable cell content (follows_item content o false))
  | .custom _ result, o, _ => by
    rw [item, write]
    exact .ite (.throw _) (.nested (follows_hookResult result o))
  | .params p content, _, asKey => by
    rw [item, write]
    exact .params fun inner ↦ follows_item content inner asKey

theorem follows_items : (is : List Item) → ∀ o : Options, Follows o (items is) (writeAll o is)
  | [], _ => by
    rw [items, writeAll]
    exact .done
  | i :: is, o => by
    rw [items, writeAll]
    exact .seq (follows_item i o false) fun _ ↦ follows_items is o

theorem follows_entries : (es : List (Item × Item)) → ∀ o : Options,
    Follows o (entries es) (writeEntries o es)
  | [], _ => by
    rw [entries, writeEntries]
    exact .done
  | (k, i) :: es, o => by
    rw [entries, writeEntries]
    exact .seq (follows_item k o true) fun _ ↦ .seq (follows_item i o false) fun _ ↦
      follows_entries es o

theorem follows_parts : (es : List (Item × Item)) → ∀ e ∈ es,
    (∀ o : Options, Follows o (item true e.1) (write o true e.1)) ∧
      ∀ o : Options, Follows o (item false e.2) (write o false e.2)
  | [], _, he => by cases he
  | (k, i) :: es, e, he => by
    rcases List.mem_cons.1 he with rfl | he
    · exact ⟨fun o ↦ follows_item k o true, fun o ↦ follows_item i o false⟩
    · exact follows_parts es e he

theorem follows_hookResult : (r : Except Fault Item) → ∀ o : Options,
    Follows o (hookResult r) (writeResult o r)
  | .error e, _ => by
    rw [hookResult, writeResult]
    exact .throw e
  | .ok i, o => by
    rw [hookResult, writeResult]
    exact follows_item i o false

end

theorem follows_whole (v : Item) (o : Options) : Follows o (whole v) (Encoder.whole o v) :=
  .options (.ite (.inNamespace (follows_item v o false)) (follows_item v o false))

end Writing

theorem emit_eq (e : Encoder) (v : Item) : e.emit v =
    if e.options.stringRef = .on then (Writing.inNamespace (.item false v)).run.run e
    else (Writing.item false v).run.run e := by
  show (if e.options.stringRef = .on then _ else _ : Writing Unit).run.run e = _
  split <;> rfl

theorem emit_congr {v w : Item} {e : Encoder}
    (h : ∀ s, (Writing.item false v).run.run { e with sink := s } =
      (Writing.item false w).run.run { e with sink := s }) : e.emit v = e.emit w := by
  have hitem : (Writing.item false v).run.run e = (Writing.item false w).run.run e := h e.sink
  have hnamespace : (Writing.inNamespace (.item false v)).run.run e =
      (Writing.inNamespace (.item false w)).run.run e := by
    rw [Writing.run_inNamespace, Writing.run_inNamespace, h]
  rw [emit_eq, emit_eq, hitem, hnamespace]

theorem emit_encoder (o : Options) (s : Sink) (v : Item) :
    (o.encoder s).emit v =
      (((whole o v).run.run s).1, o.encoder ((whole o v).run.run s).2) :=
  Writing.follows_whole v o s

end Cbor.Encoder
