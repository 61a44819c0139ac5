import Cbor.Proofs.Decoder.Trees
import Cbor.Proofs.Wire.Recursion

namespace Cbor

open Decoder (Options)

/-- Maps keep all their entries, text is not checked, and no tag has a meaning. -/
structure Decoder.Options.Verbatim (p : Options) : Prop where
  flags : p.flags = .mapAsArray ||| .uncheckedText ||| .selfDescribe
  stringRef : p.stringRef = false
  sharedRef : p.sharedRef = .off
  groups : p.groups = { dateTime := false, bignum := false, decimal := false, uri := false }
  maxSize : p.maxSize < UInt64.size

namespace Datum

mutual

/-- Simple values without a name have no item. -/
def verbatim : Datum → Except Fault Item
  | scalar a => .ok a.item
  | simple _ => .error .unsupportedType
  | string isText chunks => .ok (.ofString isText chunks.flatten)
  | array items => .array <$> verbatimAll items
  | map entries => .map <$> verbatimEntries entries
  | tag number content => .tag number <$> verbatim content

def verbatimAll : List Datum → Except Fault (List Item)
  | [] => .ok []
  | t :: ts => do
    let item ← verbatim t
    let items ← verbatimAll ts
    return item :: items

def verbatimEntries : List (Datum × Datum) → Except Fault (List (Item × Item))
  | [] => .ok []
  | (k, v) :: es => do
    let key ← verbatim k
    let value ← verbatim v
    let entries ← verbatimEntries es
    return (key, value) :: entries

end

end Datum

namespace Decoder.Options.Verbatim

variable {p : Options} (hp : p.Verbatim)

include hp

theorem native (i : Item) : i.native p.flags = i := by
  rw [hp.flags]
  cases i <;> rfl

theorem mapKey (i : Item) : i.mapKey p.flags = .ok i := by
  rw [Item.mapKey, hp.native, hp.flags]
  rfl

theorem insertEntry (entries : Array (Item × Item)) (key value : Item) :
    Assembly.insertEntry p.flags entries key value = entries.push (key, value) := by
  rw [hp.flags]
  rfl

theorem tagged (number : UInt64) (content : Item) :
    Assembly.tagged p number content = .ok (.tag number content) := by
  rw [Assembly.tagged, Tag.interpret, hp.groups]
  simp [hp.native]

theorem join (isText : Bool) (chunks : List Octets) :
    Datum.join p isText chunks = .ok chunks.flatten := by
  have hu : p.flags.contains .uncheckedText = true := by
    rw [hp.flags]
    decide
  induction chunks with
  | nil => rfl
  | cons b bs ih => cases isText <;> simp [Datum.join, Assembly.checkText, hu, ih]

mutual

theorem read_eq : (t : Datum) → t.read p = t.verbatim
  | .scalar _ | .simple _ => rfl
  | .string isText chunks => by
    rw [Datum.read, Datum.verbatim, hp.join]
    rfl
  | .array items => by
    rw [Datum.read, Datum.verbatim, readAll_eq items]
    rfl
  | .map entries => by
    rw [Datum.read, Datum.verbatim, readEntries_eq entries]
    cases Datum.verbatimEntries entries with
    | error e => rfl
    | ok items => simp
  | .tag number content => by
    rw [Datum.read, Datum.verbatim, read_eq content]
    cases content.verbatim with
    | error e => rfl
    | ok item => exact hp.tagged number item

theorem readAll_eq : (ts : List Datum) → Datum.readAll p ts = Datum.verbatimAll ts
  | [] => rfl
  | t :: ts => by
    simp only [Datum.readAll, Datum.verbatimAll, read_eq t, readAll_eq ts, hp.native]

theorem readEntries_eq : (es : List (Datum × Datum)) → ∀ (done : Array (Item × Item)),
    Datum.readEntries p done es =
      (fun items : List (Item × Item) ↦ done ++ items) <$> Datum.verbatimEntries es
  | [], done => by simp [Datum.readEntries, Datum.verbatimEntries]
  | (k, v) :: es, done => by
    have hdup : p.flags.contains .mapNoDupKey = false := by
      rw [hp.flags]
      decide
    simp only [Datum.readEntries, Datum.verbatimEntries, read_eq k, read_eq v, readEntries_eq es,
      hp.mapKey, hp.insertEntry, hp.native, hdup, Bool.false_eq_true, false_and, if_false,
      map_bind, pure_eq_ok, map_ok]
    cases k.verbatim with
    | error e => rfl
    | ok key =>
      cases v.verbatim with
      | error e => rfl
      | ok value =>
        cases Datum.verbatimEntries es with
        | error e => rfl
        | ok items => simp

end

end Decoder.Options.Verbatim

theorem Decoder.Options.maxDepth_le_of_check {p : Options} (h : p.check = .ok ()) :
    p.maxDepth ≤ maxDepthLimit :=
  (Decoder.Options.check_eq_ok.1 h).2.1

namespace Decoder.Options.Verbatim

variable {p : Options} (hp : p.Verbatim) {data : Octets}

include hp

theorem check (hs : p.maxSize ≠ 0) (hd : p.maxDepth ≤ maxDepthLimit) : p.check = .ok () := by
  rw [Decoder.Options.check, hp.flags, if_neg (by omega), if_neg hs]
  rfl

theorem unprefixed (w : Wire) : w.unprefixed p = w := by
  refine Wire.unprefixed_of_contains ?_ w
  rw [hp.flags]
  decide

theorem decode_eq {w : Wire} (hw : w.Spelled (data.window p.offset p.length))
    (hs : (data.window p.offset p.length).length ≤ p.maxSize) (hd : w.nesting ≤ p.maxDepth) :
    decode data p = p.check >>= fun _ ↦ w.datum.verbatim := by
  have hv : p.flags.contains .edn = false := by
    rw [hp.flags]
    decide
  have hup : UpTo True (fun r item ↦ r = (item, {})) (w.meaning p false {})
      (w.datum.read p) := by
    refine Wire.meaning_upTo hp.stringRef hp.sharedRef w false {} rfl (fun _ ↦ ?_) fun _ ↦ ?_
    · rw [Nat.zero_add]
      exact hd
    · exact Nat.le_trans hw.length_spell_le hs
  rw [Wire.decode_meaning hw hs hp.maxSize hv, hp.unprefixed, hup.map_eq, hp.read_eq]
  congr 1
  funext
  cases w.datum.verbatim with
  | error e => rfl
  | ok item => exact congrArg Except.ok (hp.native item)

theorem exists_of_decode {v : Item} (h : decode data p = .ok v) :
    ∃ w : Wire, w.Spelled (data.window p.offset p.length) ∧ w.nesting ≤ p.maxDepth ∧
      p.check = .ok () ∧ w.datum.verbatim = .ok v := by
  obtain ⟨w, hw, hd⟩ := Cbor.exists_of_decode hp.maxSize h
  rw [hp.unprefixed] at hd
  rw [hp.decode_eq hw (length_le_of_decode h) hd] at h
  obtain ⟨_, hc, hv⟩ := bind_eq_ok.1 h
  exact ⟨w, hw, hd, hc, hv⟩

end Decoder.Options.Verbatim
end Cbor
