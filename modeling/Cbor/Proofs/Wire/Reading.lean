import Cbor.Proofs.Item.Formed
import Cbor.Proofs.Wire.Meaning

namespace Cbor

open Decoder (Options)
open Assembly

namespace Assembly

theorem insertEntry_of_new {f : Flags} (hf : f.contains .mapAsArray = false)
    {entries : Array (Item × Item)} {key : Item} (h : ∀ e ∈ entries, (e.1 == key) = false)
    (value : Item) : insertEntry f entries key value = entries.push (key, value) := by
  have hi : Item.lastPlace? key entries.toList = none :=
    Item.lastPlace?_eq_none_iff.2 fun e he ↦ h e (Array.mem_toList_iff.1 he)
  rw [insertEntry, hf, hi]
  rfl

end Assembly

namespace Wire

variable {o : Options} {depth : Nat}

/-- In a scope without namespaces, at most `depth` levels deep, `w` is read as `raw` and leaves no
trace. -/
def Reads (o : Options) (depth : Nat) (w : Wire) (raw : Item) : Prop :=
  ∀ (shared : Bool) (s : Scope), s.depth ≤ depth → s.strings = [] →
    w.meaning o shared s = .ok (raw, s)

def ReadsAll (o : Options) (depth : Nat) (ws : List Wire) (items : List Item) : Prop :=
  ∀ (done : Array Item) (s : Scope), s.depth ≤ depth → s.strings = [] →
    meaningAll o false done s ws = .ok (done ++ items, s)

def ReadsEntries (o : Options) (depth : Nat) (es : List (Wire × Wire))
    (entries : List (Item × Item)) : Prop :=
  ∀ (done : Array (Item × Item)) (s : Scope), s.depth ≤ depth → s.strings = [] →
    Item.Keyed (done.toList.map Prod.fst ++ entries.map Prod.fst) →
    meaningEntries o false done s es = .ok (done ++ entries, s)

theorem Reads.mono {depth' : Nat} (hd : depth' ≤ depth) {w : Wire} {raw : Item}
    (h : Reads o depth w raw) : Reads o depth' w raw :=
  fun shared s hsd hs ↦ h shared s (Nat.le_trans hsd hd) hs

theorem reads_scalar (a : Scalar) : Reads o depth (scalar a) a.item := fun _ _ _ _ ↦ rfl

theorem reads_string {isText : Bool} {b : Octets} (h : isText = true → checkText o b = .ok ()) :
    Reads o depth (string isText b) (.ofString isText b) := by
  intro shared s _ hs
  have hr : s.record (.ofString isText b) b.length = s := by
    rw [Scope.record, hs]
    cases s
    cases hs
    rfl
  rw [meaning_string, hr]
  cases isText with
  | true =>
    rw [if_pos rfl, h rfl]
    rfl
  | false => rfl

theorem reads_array {ws : List Wire} {items : List Item} (hd : depth < o.maxDepth)
    (h : ReadsAll o (depth + 1) ws items) : Reads o depth (array false ws) (.array items) := by
  intro shared s hsd hs
  have he : s.enter o.maxDepth = .ok { s with depth := s.depth + 1 } := if_pos (by omega)
  rw [meaning, he, ok_bind, h #[] { s with depth := s.depth + 1 } (Nat.add_le_add_right hsd 1) hs]
  simp [Scope.leave]

theorem readsAll_nil : ReadsAll o depth [] [] := by
  intro done s _ _
  simp [meaningAll]

theorem readsAll_cons {w : Wire} {ws : List Wire} {raw item : Item} {items : List Item}
    (hw : Reads o depth w raw) (hn : raw.native o.flags = item) (hws : ReadsAll o depth ws items) :
    ReadsAll o depth (w :: ws) (item :: items) := by
  intro done s hd hs
  rw [meaningAll, hw false s hd hs, ok_bind]
  simp only [growth, Bool.false_eq_true, if_false, ok_bind, hn]
  rw [hws (done.push item) s hd hs]
  simp

theorem reads_map {es : List (Wire × Wire)} {entries : List (Item × Item)}
    (hd : depth < o.maxDepth) (hk : Item.Keyed (entries.map Prod.fst))
    (h : ReadsEntries o (depth + 1) es entries) : Reads o depth (map false es) (.map entries) := by
  intro shared s hsd hs
  have he : s.enter o.maxDepth = .ok { s with depth := s.depth + 1 } := if_pos (by omega)
  rw [meaning, he, ok_bind,
    h #[] { s with depth := s.depth + 1 } (Nat.add_le_add_right hsd 1) hs (by simpa using hk)]
  simp [Scope.leave]

theorem readsEntries_nil : ReadsEntries o depth [] [] := by
  intro done s _ _ _
  simp [meaningEntries]

theorem readsEntries_cons (ha : o.flags.contains .mapAsArray = false)
    (hu : o.flags.contains .mapNoDupKey = false) {k w : Wire} {es : List (Wire × Wire)}
    {rawKey key raw item : Item} {entries : List (Item × Item)} (hk : Reads o depth k rawKey)
    (hkey : rawKey.mapKey o.flags = .ok key) (hw : Reads o depth w raw)
    (hn : raw.native o.flags = item) (hes : ReadsEntries o depth es entries) :
    ReadsEntries o depth ((k, w) :: es) ((key, item) :: entries) := by
  intro done s hd hs hkeys
  have hnew : ∀ e ∈ done, (e.1 == key) = false := fun e he ↦
    hkeys.ne_of_mem e.1 (List.mem_map_of_mem he.val)
  rw [meaningEntries, hk false s hd hs, ok_bind]
  simp only [entryKey, growth, Bool.false_eq_true, if_false, ok_bind, hkey, hu, false_and,
    pure_eq_ok]
  rw [hw false s hd hs, ok_bind, hn, insertEntry_of_new ha hnew,
    hes (done.push (key, item)) s hd hs (by simpa using hkeys)]
  simp

theorem meaning_tag_of_reads {number : UInt64}
    (hrole : ∀ shared s, openRole o shared number s = .ok (.plain, s)) (hd : depth < o.maxDepth)
    {content : Wire} {raw : Item} (hc : Reads o (depth + 1) content raw) (shared : Bool) {s : Scope}
    (hsd : s.depth ≤ depth) (hs : s.strings = []) :
    (tag number content).meaning o shared s = (·, s) <$> tagged o number raw := by
  have he : s.enter o.maxDepth = .ok { s with depth := s.depth + 1 } := if_pos (by omega)
  simp only [meaning, he, ok_bind, hrole]
  rw [hc _ { s with depth := s.depth + 1 } (Nat.add_le_add_right hsd 1) hs, ok_bind, closeTag_plain]
  rfl

theorem reads_tag {number : UInt64}
    (hrole : ∀ shared s, openRole o shared number s = .ok (.plain, s)) (hd : depth < o.maxDepth)
    {content : Wire} {raw item : Item} (hc : Reads o (depth + 1) content raw)
    (ht : tagged o number raw = .ok item) : Reads o depth (tag number content) item := by
  intro shared s hsd hs
  rw [meaning_tag_of_reads hrole hd hc shared hsd hs, ht]
  rfl

end Wire
end Cbor
