import Cbor.Proofs.Encoder.Scope
import Cbor.Proofs.Encoder.Write

namespace Cbor

namespace Encoder

open Emit

def Options.sink (o : Options) : Sink :=
  { octets := if o.flags.contains .selfDescribe then Tag.selfDescribeHead.toArray else #[] }

theorem new_eq (o : Options) : Encoder.new o = o.check >>= fun _ ↦ .ok (o.encoder o.sink) := rfl

theorem octets_emit (o : Options) (s : Sink) (v : Item) :
    (((o.encoder s).emit v).1 >>= fun _ ↦ .ok ((o.encoder s).emit v).2.octets) =
      (fun s ↦ s.octets.toList) <$> after (whole o v) s := by
  rw [emit_encoder, after]
  rcases (whole o v).run.run s with ⟨_ | _, _⟩ <;> rfl

theorem encode_eq_after (v : Item) (o : Options) :
    encode v o = o.check >>= fun _ ↦ (fun s ↦ s.octets.toList) <$>
      after (if o.stringRef = .on then inNamespace (write o false v) else write o false v)
        o.sink := by
  rw [encode, new_eq, bind_assoc]
  exact congrArg _ (funext fun _ ↦ octets_emit o o.sink v)

theorem octets_after_whole {v : Item} {mode : StringRef} (h : mode = .off ∨ v.NoStringRef)
    (o : Options) (s : Sink) (hs : s.strings = []) :
    (fun s ↦ s.octets.toList) <$> after (if mode = .on then
        inNamespace (write (o.referring mode) false v) else write (o.referring mode) false v) s =
      (fun r ↦ s.octets.toList ++ (r.1.referring mode).octets) <$>
        tree o false v s.depth s.cells := by
  cases mode with
  | off =>
    rw [if_neg (by decide), writes_write v h o false s fun _ ↦ hs]
    cases tree o false v s.depth s.cells with
    | error e => rfl
    | ok r => simp [Sink.grow, Sink.extend, Sink.add, Wire.referring, hs, Wire.refer_off]
  | on =>
    rw [if_pos rfl, after_inNamespace, writes_write v h o false _ fun hoff ↦ by cases hoff]
    simp only [Sink.depth_add, Sink.cells_add]
    cases tree o false v s.depth s.cells with
    | error e => rfl
    | ok r =>
      simp [Sink.grow, Sink.extend, Sink.add, Wire.referring, hs, Wire.octets, Wire.lexemes,
        Lexeme.write]
  | explicit =>
    rw [if_neg (by decide), writes_write v h o false s fun hoff ↦ by cases hoff]
    cases tree o false v s.depth s.cells with
    | error e => rfl
    | ok r => simp [Sink.grow, Sink.extend, Sink.add, Wire.referring, hs]

/-- Appends one item after the other; a fault ends it. -/
def emitAll (e : Encoder) : List Item → Except Fault Unit × Encoder
  | [] => (.ok (), e)
  | item :: items =>
    match e.emit item with
    | (.error f, e) => (.error f, e)
    | (.ok (), e) => e.emitAll items

theorem after_emitAll {o : Options} (h : o.stringRef ≠ .on) (s : Sink) (items : List Item) :
    (((o.encoder s).emitAll items).1 >>= fun _ ↦ .ok ((o.encoder s).emitAll items).2.sink) =
      after (writeAll o items) s := by
  induction items generalizing s with
  | nil => rfl
  | cons item items ih =>
    rw [writeAll, after_seq, emitAll, emit_encoder, whole, if_neg h, after]
    rcases (write o false item).run.run s with ⟨_ | _, t⟩
    · rfl
    · exact ih t

theorem octets_emitAll {o : Options} (h : o.stringRef = .off) {s : Sink} (hs : s.strings = [])
    (items : List Item) :
    (((o.encoder s).emitAll items).1 >>= fun _ ↦ .ok ((o.encoder s).emitAll items).2.octets) =
      (fun r ↦ (o.encoder s).octets ++ Wire.spell (Wire.lexemesAll r.1)) <$>
        treeAll o items s.depth s.cells := by
  have ho : o.referring .off = o := by rw [Options.referring, ← h]
  have hw := writes_writeAll items (.inl rfl) o s fun _ ↦ hs
  rw [ho] at hw
  have hg (r : List Wire × CellTable) : (s.growAll false r).octets.toList =
      (o.encoder s).octets ++ Wire.spell (Wire.lexemesAll r.1) := by
    simp [Sink.growAll, Sink.extend, Sink.add, hs, Wire.refer_off_all, octets, Options.encoder]
  let r := (o.encoder s).emitAll items
  calc (r.1 >>= fun _ ↦ .ok r.2.octets)
    _ = (fun s ↦ s.octets.toList) <$> (r.1 >>= fun _ ↦ .ok r.2.sink) := by
        rcases r.1 with _ | _ <;> rfl
    _ = (fun s ↦ s.octets.toList) <$> after (writeAll o items) s := by
        rw [after_emitAll (by simp [h])]
    _ = _ := by
        rw [hw]
        cases treeAll o items s.depth s.cells with
        | error f => rfl
        | ok r => exact congrArg _ (hg r)

end Encoder

open Encoder

theorem encode_eq {v : Item} {mode : StringRef} (h : mode = .off ∨ v.NoStringRef) (o : Options) :
    encode v (o.referring mode) = o.check >>= fun _ ↦
      (fun r ↦ ((r.1.referring mode).announced o).octets) <$> tree o false v 0 #[] := by
  rw [encode_eq_after]
  refine congrArg _ (funext fun _ ↦ ?_)
  refine (octets_after_whole h o (o.referring mode).sink rfl).trans ?_
  refine congrFun (congrArg _ (funext fun r ↦ ?_)) _
  have hf : (o.referring mode).flags = o.flags := rfl
  have hh : Head.write 6 Tag.selfDescribe = Tag.selfDescribeHead := by decide
  simp only [Options.sink, hf, Wire.announced]
  split
  · simp [Wire.octets, Wire.lexemes, Lexeme.write, hh]
  · simp

theorem encode_eq_referring {v : Item} {o : Options} (h : o.stringRef = .off ∨ v.NoStringRef) :
    encode v o = o.check >>= fun _ ↦
      (fun r ↦ ((r.1.referring o.stringRef).announced o).octets) <$> tree o false v 0 #[] :=
  encode_eq h o

theorem encode_eq_of_off {o : Options} (ho : o.stringRef = .off) (v : Item) :
    encode v o = o.check >>= fun _ ↦
      (fun r ↦ (r.1.announced o).octets) <$> tree o false v 0 #[] := by
  have h := encode_eq (v := v) (.inl rfl) o
  have hoff : o.referring .off = o := by rw [Options.referring, ← ho]
  rwa [hoff] at h

/-- The self-describe tag and the namespace of strings, if they are asked for. -/
def Encoder.Options.preamble (o : Options) : Octets :=
  (if o.flags.contains .selfDescribe then Tag.selfDescribeHead else []) ++
    if o.stringRef = .on then Head.write 6 Tag.stringRefNamespace else []

namespace Wire

/-- With references to strings, but without the namespace around it. -/
def referred (mode : StringRef) (w : Wire) : Wire :=
  match mode with
  | .off => w
  | .on => (w.refer true [#[]]).1
  | .explicit => (w.refer true []).1

theorem referred_scalar (mode : StringRef) (a : Scalar) : (scalar a).referred mode = scalar a := by
  cases mode <;> rfl

theorem referred_tag {number : UInt64} (hn : number ≠ Tag.stringRefNamespace) (mode : StringRef)
    (w : Wire) : (tag number w).referred mode = tag number (w.referred mode) := by
  cases mode <;> simp [referred, refer, hn]

theorem octets_referring (mode : StringRef) (w : Wire) : (w.referring mode).octets =
    (if mode = .on then Head.write 6 Tag.stringRefNamespace else []) ++ (w.referred mode).octets := by
  cases mode with
  | off | explicit => rfl
  | on => exact octets_tag _ _

theorem octets_announced (o : Options) (w : Wire) : (w.announced o).octets =
    (if o.flags.contains .selfDescribe then Tag.selfDescribeHead else []) ++ w.octets := by
  unfold announced
  split
  · exact (octets_tag _ _).trans (congrArg (· ++ _) (by decide))
  · rfl

end Wire

theorem encode_eq_preamble {v : Item} (hv : v.NoStringRef) (o : Options) :
    encode v o = o.check >>= fun _ ↦
      (fun r ↦ o.preamble ++ (r.1.referred o.stringRef).octets) <$> tree o false v 0 #[] := by
  simpa only [Wire.octets_announced, Wire.octets_referring, ← List.append_assoc,
    Options.preamble] using encode_eq_referring (o := o) (.inr hv)

theorem encode_scalar {o : Options} {v : Item} {a : Scalar} (hv : v.NoStringRef)
    (h : tree o false v 0 #[] = .ok (.scalar a, #[])) :
    encode v o = o.check >>= fun _ ↦ .ok (o.preamble ++ a.lexeme.write) := by
  rw [encode_eq_preamble hv, h, map_ok, Wire.referred_scalar, Wire.octets_scalar]

end Cbor
