import Cbor.Encoder.Basic
import Cbor.Proofs.Wire.Tree

namespace Cbor

namespace Scalar

def word (negative : Bool) (n : UInt64) : Scalar := if negative then .negative n else .unsigned n

def integer : Int → Scalar
  | .ofNat n => .unsigned (.ofNat n)
  | .negSucc n => .negative (.ofNat n)

def shortestFloat (bits : UInt64) : Scalar :=
  let half := Binary.narrowHalf bits
  let single := Binary.narrowSingle bits
  if Binary.double.isNaN bits.toNat then float16 0x7E00
  else if Binary.widenHalf half = bits then float16 half
  else if Binary.widenSingle single = bits then float32 single
  else float64 bits

def nativeFloat (o : Encoder.Options) (bits : UInt64) : Scalar :=
  let narrow := o.flags.contains .float16
  let middle := o.flags.contains .float32
  if o.flags.contains .cde || (narrow && middle) then shortestFloat bits
  else if narrow then float16 (Binary.narrowHalf bits)
  else if middle then float32 (Binary.narrowSingle bits)
  else float64 bits

end Scalar

namespace Encoder

open Wire (scalar string array map tag)

theorem Options.maxDepth_le_of_check {o : Options} (h : o.check = .ok ()) :
    o.maxDepth ≤ maxDepthLimit := by
  simp only [Options.check, bind_eq_ok] at h
  obtain ⟨_, _, h⟩ := h
  split at h
  · cases h
  · omega

variable (o : Options)

def checkDepth (depth : Nat) : Except Fault Unit :=
  if depth < o.maxDepth then .ok () else .error .depth

theorem checkDepth_eq_ok {o : Options} {depth : Nat} {u : Unit} :
    checkDepth o depth = .ok u ↔ depth < o.maxDepth := by
  simp [checkDepth]

def checkGroup (enabled : Bool) : Except Fault Unit :=
  if enabled then .ok () else .error .unsupportedType

theorem checkGroup_eq_ok {enabled : Bool} {u : Unit} :
    checkGroup enabled = .ok u ↔ enabled = true := by
  cases enabled <;> simp [checkGroup]

def textTree (b : Octets) : Except Fault Wire :=
  if !o.flags.contains .uncheckedText && !Utf8.isValid b then .error .utf8
  else .ok (string true b)

def nativeTree (b : Octets) : Except Fault Wire :=
  if o.flags.contains .text then textTree o b
  else if o.flags.contains .byte then .ok (string false b)
  else .error (.invalidFlags .noString)

def keyTree (b : Octets) : Except Fault Wire :=
  match if o.flags.contains .intKey then Emit.integerKey? b else none with
  | some n => .ok (scalar (.integer n))
  | none =>
    if o.flags.contains .keyText then textTree o b
    else if o.flags.contains .keyByte then .ok (string false b)
    else .error (.invalidFlags .noKeyString)

theorem keyTree_cases {o : Options} {b : Octets} {w : Wire} (h : keyTree o b = .ok w) :
    (∃ n, w = .scalar (.integer n) ∧ o.flags.contains .intKey = true ∧
      Emit.integerKey? b = some n) ∨
    (w = .string true b ∧ o.flags.contains .keyText = true ∧
      (o.flags.contains .uncheckedText = true ∨ Utf8.isValid b = true)) ∨
    (w = .string false b ∧ o.flags.contains .keyByte = true) := by
  unfold keyTree at h
  split at h
  · rename_i n hn
    cases h
    split at hn
    · exact .inl ⟨n, rfl, ‹_›, hn⟩
    · cases hn
  split at h
  · rename_i ht
    unfold textTree at h
    split at h
    · cases h
    · rename_i hc
      cases h
      exact .inr (.inl ⟨rfl, ht, by simpa [Decidable.or_iff_not_imp_left] using hc⟩)
  split at h
  · cases h
    exact .inr (.inr ⟨rfl, ‹_›⟩)
  · cases h

def stampTree (t : Moment) (depth : Nat) : Except Fault Wire :=
  match Rfc3339.format? t with
  | some s => do
    checkDepth o depth
    return tag Tag.dateTime (string true (Utf8.encode s))
  | none => .error .unsupportedValue

def bignumTree (b : Bignum) (depth : Nat) : Except Fault Wire :=
  match b.word? with
  | some n => .ok (scalar (.word b.negative n))
  | none => do
    checkDepth o depth
    return tag (if b.negative then Tag.negativeBignum else Tag.positiveBignum)
      (string false b.magnitude)

def fractionTree (number : UInt64) (f : Fraction) (depth : Nat) : Except Fault Wire := do
  checkDepth o depth
  checkDepth o (depth + 1)
  let mantissa ← bignumTree o f.mantissa (depth + 2)
  return tag number (array false [scalar (.integer f.exponent.toInt), mantissa])

def decimalTree (f : Fraction) (depth : Nat) : Except Fault Wire :=
  if f.exponent = 0 ∧ f.mantissa.word?.isSome then bignumTree o f.mantissa depth
  else fractionTree o Tag.decimal f depth

def lookupCell (cell : Nat) (cells : CellTable) : Option Nat × CellTable :=
  if o.sharedRef then cells.lookup cell else (none, cells)

/-- One map entry: the octets of its key alone and without references, and its trees. -/
structure EntryTrees where
  key : (depth : Nat) → Except Fault Octets
  entry : (depth : Nat) → CellTable → Except Fault ((Wire × Wire) × CellTable)

def entriesInTurn (depth : Nat) : List (Octets × EntryTrees) → CellTable →
    Except Fault (List (Wire × Wire) × CellTable)
  | [], cells => .ok ([], cells)
  | (_, t) :: ts, cells => do
    let (e, cells) ← t.entry depth cells
    let (es, cells) ← entriesInTurn depth ts cells
    return (e :: es, cells)

def sortedTrees (ts : List EntryTrees) (depth : Nat) (cells : CellTable) :
    Except Fault (List (Wire × Wire) × CellTable) := do
  let keyed ← ts.mapM fun t ↦ do
    return (← t.key depth, t)
  entriesInTurn depth (keyed.mergeSort fun a b ↦ Octets.ble a.1 b.1) cells

mutual

def tree (o : Options) (asKey : Bool) : Item → (depth : Nat) → CellTable →
    Except Fault (Wire × CellTable)
  | .unsigned n, _, cells => .ok (scalar (.unsigned n), cells)
  | .negative n, _, cells => .ok (scalar (.negative n), cells)
  | .bytes b, _, cells => .ok (string false b, cells)
  | .text b, _, cells => do
    return (← textTree o b, cells)
  | .string b, _, cells => do
    return (← if asKey then keyTree o b else nativeTree o b, cells)
  | .array items, depth, cells => do
    checkDepth o depth
    let (ws, cells) ← treeAll o items (depth + 1) cells
    return (array false ws, cells)
  | .map entries, depth, cells => do
    checkDepth o depth
    let (es, cells) ←
      if o.flags.contains .cde then sortedTrees (entryTrees o entries) (depth + 1) cells
      else treeEntries o entries (depth + 1) cells
    return (map false es, cells)
  | .tag number content, depth, cells => do
    checkDepth o depth
    let (w, cells) ← tree o false content (depth + 1)
      (if number = Tag.shareable ∧ o.sharedRef then cells.push none else cells)
    return (tag number w, cells)
  | .bool b, _, cells => .ok (scalar (.bool b), cells)
  | .null, _, cells => .ok (scalar .null, cells)
  | .undefined, _, cells => .ok (scalar .undefined, cells)
  | .float16 bits, _, cells => .ok (scalar (.float16 bits), cells)
  | .float32 bits, _, cells =>
    .ok (scalar (if o.flags.contains .cde then .shortestFloat (Binary.widenSingle bits)
      else .float32 bits), cells)
  | .float64 bits, _, cells => .ok (scalar (.nativeFloat o bits), cells)
  | .dateTime t, depth, cells => do
    checkGroup o.groups.dateTime
    return (← stampTree o t depth, cells)
  | .bignum b, depth, cells => do
    checkGroup o.groups.bignum
    return (← bignumTree o b depth, cells)
  | .decimal f, depth, cells => do
    checkGroup o.groups.decimal
    return (← decimalTree o f depth, cells)
  | .bigFloat f, depth, cells => do
    checkGroup o.groups.decimal
    return (← fractionTree o Tag.bigFloat f depth, cells)
  | .uri u, depth, cells => do
    checkGroup o.groups.uri
    checkDepth o depth
    return (tag Tag.uri (string true u.octets), cells)
  | .shareable cell content, depth, cells => do
    if asKey then throw .unsupportedKeyType
    if o.flags.contains .cde then throw .unsupportedValue
    if content.isShareable then throw (.tagValue Tag.shareable)
    checkDepth o depth
    match lookupCell o cell cells with
    | (some index, cells) => return (tag Tag.sharedRef (scalar (.unsigned (.ofNat index))), cells)
    | (none, cells) =>
      let (w, cells) ← tree o false content (depth + 1) cells
      return (tag Tag.shareable w, cells)
  | .custom _ result, depth, cells => do
    if asKey then throw .unsupportedKeyType
    checkDepth o depth
    treeResult o result (depth + 1) cells
  | .params p content, depth, cells => do
    let inner ← o.override p
    checkDepth o depth
    tree inner asKey content (depth + 1) cells

def treeAll (o : Options) : List Item → (depth : Nat) → CellTable →
    Except Fault (List Wire × CellTable)
  | [], _, cells => .ok ([], cells)
  | i :: is, depth, cells => do
    let (w, cells) ← tree o false i depth cells
    let (ws, cells) ← treeAll o is depth cells
    return (w :: ws, cells)

def treeEntries (o : Options) : List (Item × Item) → (depth : Nat) → CellTable →
    Except Fault (List (Wire × Wire) × CellTable)
  | [], _, cells => .ok ([], cells)
  | (k, i) :: is, depth, cells => do
    let (k, cells) ← tree o true k depth cells
    let (w, cells) ← tree o false i depth cells
    let (es, cells) ← treeEntries o is depth cells
    return ((k, w) :: es, cells)

def entryTrees (o : Options) : List (Item × Item) → List EntryTrees
  | [] => []
  | (k, i) :: is =>
    { key := fun depth ↦ (fun r ↦ r.1.octets) <$> tree o.withoutReferences true k depth #[]
      entry := fun depth cells ↦ do
        let (k, cells) ← tree o true k depth cells
        let (w, cells) ← tree o false i depth cells
        return ((k, w), cells) } :: entryTrees o is

def treeResult (o : Options) : Except Fault Item → (depth : Nat) → CellTable →
    Except Fault (Wire × CellTable)
  | .error e, _, _ => .error e
  | .ok i, depth, cells => tree o false i depth cells

end

theorem length_treeAll {o : Options} {is : List Item} {depth : Nat} {cells : CellTable}
    {r : List Wire × CellTable} (h : treeAll o is depth cells = .ok r) :
    r.1.length = is.length := by
  induction is generalizing cells r with
  | nil =>
    cases h
    rfl
  | cons i is ih =>
    simp only [treeAll, bind_eq_ok] at h
    obtain ⟨_, _, ws, hws, h⟩ := h
    cases h
    exact congrArg (· + 1) (ih hws)

theorem length_treeEntries {o : Options} {is : List (Item × Item)} {depth : Nat}
    {cells : CellTable} {r : List (Wire × Wire) × CellTable}
    (h : treeEntries o is depth cells = .ok r) : r.1.length = is.length := by
  induction is generalizing cells r with
  | nil =>
    cases h
    rfl
  | cons i is ih =>
    simp only [treeEntries, bind_eq_ok] at h
    obtain ⟨_, _, _, _, es, hes, h⟩ := h
    cases h
    exact congrArg (· + 1) (ih hes)

theorem treeEntries_eq (o : Options) (is : List (Item × Item)) (depth : Nat) (cells : CellTable) :
    treeEntries o is depth cells =
      entriesInTurn depth ((entryTrees o is).map fun t ↦ ([], t)) cells := by
  induction is generalizing cells with
  | nil => rfl
  | cons i is ih =>
    simp only [treeEntries, entryTrees, List.map_cons, entriesInTurn, bind_assoc, pure_eq_ok,
      ok_bind, ih]

theorem entriesInTurn_cons_eq_ok {depth : Nat} {t : Octets × EntryTrees}
    {ts : List (Octets × EntryTrees)} {cells : CellTable} {r : List (Wire × Wire) × CellTable} :
    entriesInTurn depth (t :: ts) cells = .ok r ↔
      ∃ e, t.2.entry depth cells = .ok e ∧
        ∃ es, entriesInTurn depth ts e.2 = .ok es ∧ (e.1 :: es.1, es.2) = r := by
  simp only [entriesInTurn, bind_eq_ok, pure_eq_ok, Except.ok.injEq]

theorem exists_of_sortedTrees {depth : Nat} {ts : List EntryTrees} {cells : CellTable}
    {r : List (Wire × Wire) × CellTable} (h : sortedTrees ts depth cells = .ok r) :
    ∃ ks : List (Octets × EntryTrees), (∀ k ∈ ks, k.2 ∈ ts) ∧ ks.length = ts.length ∧
      entriesInTurn depth ks cells = .ok r := by
  simp only [sortedTrees, bind_eq_ok] at h
  obtain ⟨keyed, hk, h⟩ := h
  refine ⟨_, fun k hkm ↦ ?_, ?_, h⟩
  · obtain ⟨t, htm, htk⟩ := exists_of_mem_mapM hk (List.mem_mergeSort.1 hkm)
    obtain ⟨_, _, htk⟩ := bind_eq_ok.1 htk
    cases htk
    exact htm
  · rw [List.length_mergeSort, length_of_mapM hk]

theorem length_entriesInTurn {depth : Nat} {ts : List (Octets × EntryTrees)} {cells : CellTable}
    {r : List (Wire × Wire) × CellTable} (h : entriesInTurn depth ts cells = .ok r) :
    r.1.length = ts.length := by
  induction ts generalizing cells r with
  | nil =>
    cases h
    rfl
  | cons t ts ih =>
    obtain ⟨_, _, es, hes, rfl⟩ := entriesInTurn_cons_eq_ok.1 h
    exact congrArg (· + 1) (ih hes)

theorem length_entryTrees (o : Options) (is : List (Item × Item)) :
    (entryTrees o is).length = is.length := by
  induction is with
  | nil => rfl
  | cons i is ih => exact congrArg (· + 1) ih

theorem length_sortedTrees {o : Options} {is : List (Item × Item)} {depth : Nat}
    {cells : CellTable} {r : List (Wire × Wire) × CellTable}
    (h : sortedTrees (entryTrees o is) depth cells = .ok r) : r.1.length = is.length := by
  obtain ⟨ks, -, hlength, h⟩ := exists_of_sortedTrees h
  rw [length_entriesInTurn h, hlength, length_entryTrees]

end Encoder
end Cbor
