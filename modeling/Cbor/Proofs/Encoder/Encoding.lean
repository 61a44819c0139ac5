import Cbor.Proofs.Encoder.Order
import Cbor.Proofs.Encoder.Overrides

namespace Cbor.Encoder

def level : (room : Nat) → (content : Nat → Except Fault Octets) → Except Fault Octets
  | 0, _ => .error .depth
  | room + 1, content => content room

theorem level_sub (o : Options) (depth : Nat) (content : Nat → Except Fault Octets) :
    level (o.maxDepth - depth) content =
      checkDepth o depth >>= fun _ ↦ content (o.maxDepth - (depth + 1)) := by
  unfold checkDepth
  split
  · have hd : o.maxDepth - depth = o.maxDepth - (depth + 1) + 1 := by omega
    rw [hd, level, ok_bind]
  · have hd : o.maxDepth - depth = 0 := by omega
    rw [hd, level, error_bind]

def stringOctets (isText : Bool) (b : Octets) : Octets :=
  Head.write (if isText then 3 else 2) (.ofNat b.length) ++ b

def integerOctets : Int → Octets
  | .ofNat n => Head.write 0 (.ofNat n)
  | .negSucc n => Head.write 1 (.ofNat n)

def textEncoding (o : Options) (b : Octets) : Except Fault Octets :=
  if o.flags.contains .uncheckedText ∨ Utf8.isValid b then .ok (stringOctets true b)
  else .error .utf8

def nativeEncoding (o : Options) (b : Octets) : Except Fault Octets :=
  if o.flags.contains .text then textEncoding o b
  else if o.flags.contains .byte then .ok (stringOctets false b)
  else .error (.invalidFlags .noString)

def keyEncoding (o : Options) (b : Octets) : Except Fault Octets :=
  match if o.flags.contains .intKey then Emit.integerKey? b else none with
  | some n => .ok (integerOctets n)
  | none =>
    if o.flags.contains .keyText then textEncoding o b
    else if o.flags.contains .keyByte then .ok (stringOctets false b)
    else .error (.invalidFlags .noKeyString)

def stampEncoding (t : Moment) (room : Nat) : Except Fault Octets :=
  match Rfc3339.format? t with
  | some s => level room fun _ ↦
    .ok (Head.write 6 Tag.dateTime ++ stringOctets true (Utf8.encode s))
  | none => .error .unsupportedValue

def bignumEncoding (b : Bignum) (room : Nat) : Except Fault Octets :=
  match b.word? with
  | some n => .ok (Head.write (if b.negative then 1 else 0) n)
  | none => level room fun _ ↦
    .ok (Head.write 6 (if b.negative then Tag.negativeBignum else Tag.positiveBignum) ++
      stringOctets false b.magnitude)

def fractionEncoding (number : UInt64) (f : Fraction) (room : Nat) : Except Fault Octets :=
  level room fun room ↦ level room fun room ↦
    (Head.write 6 number ++ Head.write 4 2 ++ integerOctets f.exponent.toInt ++ ·) <$>
      bignumEncoding f.mantissa room

def decimalEncoding (f : Fraction) (room : Nat) : Except Fault Octets :=
  if f.exponent = 0 ∧ f.mantissa.word?.isSome then bignumEncoding f.mantissa room
  else fractionEncoding Tag.decimal f room

def joinPairs : List (Except Fault Octets × Except Fault Octets) → Except Fault Octets
  | [] => .ok []
  | (k, v) :: es => do
    let k ← k
    let v ← v
    return k ++ v ++ (← joinPairs es)

theorem joinPairs_cons (e : Except Fault Octets × Except Fault Octets)
    (es : List (Except Fault Octets × Except Fault Octets)) :
    joinPairs (e :: es) =
      (do return (← e.1) ++ (← e.2)) >>= fun b ↦ (b ++ ·) <$> joinPairs es := by
  rw [joinPairs]
  rcases e with ⟨_ | _, _ | _⟩ <;> rfl

def joinSorted (es : List (Except Fault Octets × Except Fault Octets)) : Except Fault Octets := do
  let ks ← keyed Prod.fst es
  joinPairs ((sortKeyed ks).map Prod.snd)

mutual

def encoding (o : Options) (asKey : Bool) : Item → (room : Nat) → Except Fault Octets
  | .unsigned n, _ => .ok (Head.write 0 n)
  | .negative n, _ => .ok (Head.write 1 n)
  | .bytes b, _ => .ok (stringOctets false b)
  | .text b, _ => textEncoding o b
  | .string b, _ => if asKey then keyEncoding o b else nativeEncoding o b
  | .array items, room => level room fun room ↦
    (Head.write 4 (.ofNat items.length) ++ ·) <$> encodingAll o items room
  | .map entries, room => level room fun room ↦
    (Head.write 5 (.ofNat entries.length) ++ ·) <$>
      if o.flags.contains .cde then joinSorted (encodingPairs o entries room)
      else joinPairs (encodingPairs o entries room)
  | .tag number content, room => level room fun room ↦
    (Head.write 6 number ++ ·) <$> encoding o false content room
  | .bool b, _ => .ok [if b then 0xF5 else 0xF4]
  | .null, _ => .ok [0xF6]
  | .undefined, _ => .ok [0xF7]
  | .float16 bits, _ => .ok (Scalar.float16 bits).lexeme.write
  | .float32 bits, _ =>
    .ok (if o.flags.contains .cde then Scalar.shortestFloat (Binary.widenSingle bits)
      else .float32 bits).lexeme.write
  | .float64 bits, _ => .ok (Scalar.nativeFloat o bits).lexeme.write
  | .dateTime t, room =>
    if o.groups.dateTime then stampEncoding t room else .error .unsupportedType
  | .bignum b, room =>
    if o.groups.bignum then bignumEncoding b room else .error .unsupportedType
  | .decimal f, room =>
    if o.groups.decimal then decimalEncoding f room else .error .unsupportedType
  | .bigFloat f, room =>
    if o.groups.decimal then fractionEncoding Tag.bigFloat f room else .error .unsupportedType
  | .uri u, room =>
    if o.groups.uri then level room fun _ ↦
      .ok (Head.write 6 Tag.uri ++ stringOctets true u.octets)
    else .error .unsupportedType
  | .shareable _ content, room =>
    if asKey then .error .unsupportedKeyType
    else if o.flags.contains .cde then .error .unsupportedValue
    else if content.isShareable then .error (.tagValue Tag.shareable)
    else level room fun room ↦
      (Head.write 6 Tag.shareable ++ ·) <$> encoding o false content room
  | .custom _ result, room =>
    if asKey then .error .unsupportedKeyType
    else level room fun room ↦ encodingResult o result room
  | .params p content, room => do
    let inner ← o.override p
    level room fun room ↦ encoding inner asKey content room

def encodingAll (o : Options) : List Item → (room : Nat) → Except Fault Octets
  | [], _ => .ok []
  | i :: is, room => do
    return (← encoding o false i room) ++ (← encodingAll o is room)

def encodingPairs (o : Options) : List (Item × Item) → (room : Nat) →
    List (Except Fault Octets × Except Fault Octets)
  | [], _ => []
  | (k, i) :: is, room =>
    (encoding o true k room, encoding o false i room) :: encodingPairs o is room

def encodingResult (o : Options) : Except Fault Item → (room : Nat) → Except Fault Octets
  | .error e, _ => .error e
  | .ok i, room => encoding o false i room

end

theorem encodingPairs_eq_map (o : Options) (is : List (Item × Item)) (room : Nat) :
    encodingPairs o is room = is.map fun e ↦ (encoding o true e.1 room, encoding o false e.2 room) := by
  induction is with
  | nil => rfl
  | cons i is ih => rw [encodingPairs, ih, List.map_cons]

open Wire (scalar string array map tag)

theorem octets_integer (n : Int) : (scalar (.integer n)).octets = integerOctets n := by
  cases n <;> exact Wire.octets_scalar _

theorem octets_textTree (o : Options) (b : Octets) :
    Wire.octets <$> textTree o b = textEncoding o b := by
  unfold textTree textEncoding
  cases o.flags.contains .uncheckedText <;> cases Utf8.isValid b <;>
    simp [Wire.octets_string, stringOctets]

theorem octets_nativeTree (o : Options) (b : Octets) :
    Wire.octets <$> nativeTree o b = nativeEncoding o b := by
  unfold nativeTree nativeEncoding
  split
  · exact octets_textTree o b
  split
  · exact congrArg _ (Wire.octets_string false b)
  · rfl

theorem octets_keyTree (o : Options) (b : Octets) :
    Wire.octets <$> keyTree o b = keyEncoding o b := by
  unfold keyTree keyEncoding
  generalize (if o.flags.contains .intKey then Emit.integerKey? b else none) = n
  cases n with
  | some n => exact congrArg _ (octets_integer n)
  | none =>
    dsimp only
    split
    · exact octets_textTree o b
    split
    · exact congrArg _ (Wire.octets_string false b)
    · rfl

theorem octets_stampTree (o : Options) (t : Moment) (depth : Nat) :
    Wire.octets <$> stampTree o t depth = stampEncoding t (o.maxDepth - depth) := by
  unfold stampTree stampEncoding
  cases Rfc3339.format? t with
  | some s =>
    dsimp only
    rw [level_sub, map_bind]
    refine congrArg _ (funext fun _ ↦ ?_)
    rw [pure_eq_ok, map_ok, Wire.octets_tag, Wire.octets_string, stringOctets]
  | none => rfl

theorem octets_bignumTree (o : Options) (b : Bignum) (depth : Nat) :
    Wire.octets <$> bignumTree o b depth = bignumEncoding b (o.maxDepth - depth) := by
  unfold bignumTree bignumEncoding
  cases b.word? with
  | some n =>
    dsimp only
    rw [map_ok, Wire.octets_scalar]
    cases b.negative <;> rfl
  | none =>
    dsimp only
    rw [level_sub, map_bind]
    refine congrArg _ (funext fun _ ↦ ?_)
    rw [pure_eq_ok, map_ok, Wire.octets_tag, Wire.octets_string, stringOctets]

theorem octets_fractionTree (o : Options) (number : UInt64) (f : Fraction) (depth : Nat) :
    Wire.octets <$> fractionTree o number f depth =
      fractionEncoding number f (o.maxDepth - depth) := by
  rw [fractionTree, fractionEncoding, level_sub, map_bind]
  refine congrArg _ (funext fun _ ↦ ?_)
  rw [level_sub, map_bind]
  refine congrArg _ (funext fun _ ↦ ?_)
  rw [← octets_bignumTree]
  cases bignumTree o f.mantissa (depth + 2) with
  | error e => rfl
  | ok m =>
    rw [ok_bind, pure_eq_ok, map_ok, map_ok, Wire.octets_tag, ← octets_integer]
    simp [Wire.octets, Wire.lexemes, Wire.lexemesAll, Wire.ending, Wire.count, Lexeme.write]

theorem octets_decimalTree (o : Options) (f : Fraction) (depth : Nat) :
    Wire.octets <$> decimalTree o f depth = decimalEncoding f (o.maxDepth - depth) := by
  unfold decimalTree decimalEncoding
  split
  · exact octets_bignumTree o _ depth
  · exact octets_fractionTree o _ f depth

/-- The entry is written as the key and the value, if there are these, whatever cells have been
written before. -/
def EntryTrees.Denotes (depth : Nat) (t : EntryTrees)
    (e : Except Fault Octets × Except Fault Octets) : Prop :=
  t.key depth = e.1 ∧ ∀ cells, (fun r ↦ r.1.1.octets ++ r.1.2.octets) <$> t.entry depth cells = do
    return (← e.1) ++ (← e.2)

theorem octets_entriesInTurn {depth : Nat} {zs : List (Octets × Item × Item)}
    {f : Item × Item → EntryTrees} {g : Item × Item → Except Fault Octets × Except Fault Octets}
    (h : ∀ z ∈ zs, (f z.2).Denotes depth (g z.2)) (cells : CellTable) :
    (fun r ↦ Wire.spell (Wire.lexemesEntries r.1)) <$>
        entriesInTurn depth (zs.map fun z ↦ (z.1, f z.2)) cells =
      joinPairs (zs.map fun z ↦ g z.2) := by
  induction zs generalizing cells with
  | nil => rfl
  | cons z zs ih =>
    obtain ⟨⟨-, he⟩, hzs⟩ := List.forall_mem_cons.1 h
    calc (fun r ↦ Wire.spell (Wire.lexemesEntries r.1)) <$>
          entriesInTurn depth ((z :: zs).map fun z ↦ (z.1, f z.2)) cells
      _ = (f z.2).entry depth cells >>= fun r ↦ (r.1.1.octets ++ r.1.2.octets ++ ·) <$>
            (fun r ↦ Wire.spell (Wire.lexemesEntries r.1)) <$>
              entriesInTurn depth (zs.map fun z ↦ (z.1, f z.2)) r.2 := by
          simp only [List.map_cons, entriesInTurn, map_bind]
          refine congrArg _ (funext fun r ↦ ?_)
          cases entriesInTurn depth (zs.map fun z ↦ (z.1, f z.2)) r.2 with
          | error e => rfl
          | ok es => simp [Wire.lexemesEntries, Wire.octets]
      _ = ((fun r ↦ r.1.1.octets ++ r.1.2.octets) <$> (f z.2).entry depth cells) >>= fun b ↦
            (b ++ ·) <$> joinPairs (zs.map fun z ↦ g z.2) := by
          simp only [ih hzs]
          cases (f z.2).entry depth cells <;> rfl
      _ = joinPairs ((z :: zs).map fun z ↦ g z.2) := by
          rw [he, List.map_cons, joinPairs_cons]

theorem octets_sortedTrees {is : List (Item × Item)} {depth : Nat} {f : Item × Item → EntryTrees}
    {g : Item × Item → Except Fault Octets × Except Fault Octets}
    (h : ∀ i ∈ is, (f i).Denotes depth (g i)) (cells : CellTable) :
    (fun r ↦ Wire.spell (Wire.lexemesEntries r.1)) <$> sortedTrees (is.map f) depth cells =
      joinSorted (is.map g) := by
  rw [sortedTrees_eq, joinSorted, keyed_map, keyed_map, keyed_congr fun i hi ↦ (h i hi).1]
  cases hks : keyed (fun i ↦ (g i).1) is with
  | error e => rfl
  | ok ks =>
    have hsorted : ∀ z ∈ sortKeyed ks, (f z.2).Denotes depth (g z.2) :=
      fun z hz ↦ h z.2 (mem_of_keyed hks (mem_sortKeyed.1 hz))
    rw [map_ok, map_ok, ok_bind, ok_bind, sortKeyed_map (fun k ↦ (k.1, f k.2)) fun _ ↦ rfl,
      sortKeyed_map (fun k ↦ (k.1, g k.2)) fun _ ↦ rfl, octets_entriesInTurn hsorted, List.map_map]
    rfl

theorem octets_treeEntries {is : List (Item × Item)} {depth : Nat} {o : Options}
    {g : Item × Item → Except Fault Octets × Except Fault Octets}
    (h : ∀ i ∈ is, (entryTree o i).Denotes depth (g i)) (cells : CellTable) :
    (fun r ↦ Wire.spell (Wire.lexemesEntries r.1)) <$> treeEntries o is depth cells =
      joinPairs (is.map g) := by
  have hi : ∀ z ∈ is.map fun i ↦ (([] : Octets), i), (entryTree o z.2).Denotes depth (g z.2) :=
    List.forall_mem_map.2 h
  have hturn := octets_entriesInTurn hi cells
  simpa [treeEntries_eq, entryTrees_eq_map, Function.comp_def] using hturn

theorem octets_alone (t : Except Fault Wire) (cells : CellTable) :
    (fun r ↦ r.1.octets) <$> (do return (← t, cells) : Except Fault (Wire × CellTable)) =
      Wire.octets <$> t := by
  cases t <;> rfl

theorem octets_group (enabled : Bool) (t : Except Fault Wire) (cells : CellTable) :
    (fun r ↦ r.1.octets) <$>
        (do checkGroup enabled; return (← t, cells) : Except Fault (Wire × CellTable)) =
      if enabled then Wire.octets <$> t else .error .unsupportedType := by
  cases enabled with
  | false => rfl
  | true => exact octets_alone t cells

theorem octets_array (ws : List Wire) : (array false ws).octets =
    Head.write 4 (.ofNat ws.length) ++ Wire.spell (Wire.lexemesAll ws) := by
  simp [Wire.octets, Wire.lexemes, Wire.ending, Wire.count, Lexeme.write]

theorem octets_map (es : List (Wire × Wire)) : (map false es).octets =
    Head.write 5 (.ofNat es.length) ++ Wire.spell (Wire.lexemesEntries es) := by
  simp [Wire.octets, Wire.lexemes, Wire.ending, Wire.count, Lexeme.write]

theorem withoutReferences_eq {o : Options} (ho : o.stringRef = .off) (hs : o.sharedRef = false) :
    o.withoutReferences = o := by
  rw [Options.withoutReferences, ← ho, ← hs]

theorem octets_mapOf {es : List (Item × Item)}
    {r : Except Fault (List (Wire × Wire) × CellTable)} {b : Except Fault Octets}
    (hl : ∀ r', r = .ok r' → r'.1.length = es.length)
    (hr : (fun r ↦ Wire.spell (Wire.lexemesEntries r.1)) <$> r = b) :
    (fun r ↦ r.1.octets) <$> (do
      let (es, cells) ← r
      return (map false es, cells) : Except Fault (Wire × CellTable)) =
      (Head.write 5 (.ofNat es.length) ++ ·) <$> b := by
  subst hr
  cases r with
  | error e => rfl
  | ok r' =>
    simp only [ok_bind, pure_eq_ok, map_ok, octets_map, hl r' rfl]

mutual

/-- Without references, the octets of the tree of an item are what the recursion on the item gives,
and the same faults come first. -/
theorem octets_tree : (v : Item) → ∀ {o : Options}, o.stringRef = .off → o.sharedRef = false →
    ∀ (asKey : Bool) (depth : Nat) (cells : CellTable),
    (fun r ↦ r.1.octets) <$> tree o asKey v depth cells = encoding o asKey v (o.maxDepth - depth)
  | .unsigned _, _, _, _, _, _, _ | .negative _, _, _, _, _, _, _ | .bool _, _, _, _, _, _, _
  | .null, _, _, _, _, _, _ | .undefined, _, _, _, _, _, _ | .float16 _, _, _, _, _, _, _
  | .float32 _, _, _, _, _, _, _ | .float64 _, _, _, _, _, _, _ =>
    congrArg Except.ok (Wire.octets_scalar _)
  | .bytes b, _, _, _, _, _, _ => congrArg Except.ok (Wire.octets_string false b)
  | .text b, o, _, _, _, _, cells => (octets_alone _ cells).trans (octets_textTree o b)
  | .string b, o, _, _, asKey, _, cells => by
    rw [encoding]
    cases asKey with
    | true => exact (octets_alone _ cells).trans (octets_keyTree o b)
    | false => exact (octets_alone _ cells).trans (octets_nativeTree o b)
  | .array items, o, ho, hs, _, depth, cells => by
    rw [tree, encoding, level_sub, map_bind]
    refine congrArg _ (funext fun _ ↦ ?_)
    rw [← octets_treeAll items ho hs (depth + 1) cells]
    cases hws : treeAll o items (depth + 1) cells with
    | error e => rfl
    | ok r => simp only [ok_bind, pure_eq_ok, map_ok, octets_array, length_treeAll hws]
  | .map entries, o, ho, hs, _, depth, cells => by
    rw [tree, encoding, level_sub, map_bind]
    refine congrArg _ (funext fun _ ↦ ?_)
    have h := denotes_entries entries ho hs (depth + 1)
    rw [encodingPairs_eq_map]
    by_cases hc : o.flags.contains .cde = true
    · simp only [if_pos hc, entryTrees_eq_map]
      refine octets_mapOf (fun r' hr ↦ ?_) (octets_sortedTrees h cells)
      exact length_sortedTrees ((entryTrees_eq_map o entries).symm ▸ hr)
    · simp only [if_neg hc]
      exact octets_mapOf (fun _ ↦ length_treeEntries) (octets_treeEntries h cells)
  | .tag number content, o, ho, hs, _, depth, cells => by
    rw [tree, encoding, level_sub, map_bind, if_neg (by simp [hs])]
    refine congrArg _ (funext fun _ ↦ ?_)
    rw [← octets_tree content ho hs false (depth + 1) cells]
    cases tree o false content (depth + 1) cells with
    | error e => rfl
    | ok r => exact congrArg Except.ok (Wire.octets_tag number r.1)
  | .dateTime t, o, _, _, _, depth, cells => by
    rw [encoding, ← octets_stampTree]
    exact octets_group _ _ cells
  | .bignum b, o, _, _, _, depth, cells => by
    rw [encoding, ← octets_bignumTree]
    exact octets_group _ _ cells
  | .decimal f, o, _, _, _, depth, cells => by
    rw [encoding, ← octets_decimalTree]
    exact octets_group _ _ cells
  | .bigFloat f, o, _, _, _, depth, cells => by
    rw [encoding, ← octets_fractionTree]
    exact octets_group _ _ cells
  | .uri u, o, _, _, _, depth, cells => by
    rw [tree, encoding, level_sub]
    cases o.groups.uri with
    | false => rfl
    | true =>
      rw [show checkGroup true = .ok () from rfl, ok_bind, if_pos rfl, map_bind]
      refine congrArg _ (funext fun _ ↦ ?_)
      rw [pure_eq_ok, map_ok, Wire.octets_tag, Wire.octets_string, stringOctets]
  | .shareable cell content, o, ho, hs, asKey, depth, cells => by
    rw [tree, encoding, level_sub]
    cases asKey with
    | true => rfl
    | false =>
      cases o.flags.contains .cde with
      | true => rfl
      | false =>
        cases content.isShareable with
        | true => rfl
        | false =>
          simp only [Bool.false_eq_true, if_false, lookupCell, hs, map_bind]
          refine congrArg _ (funext fun _ ↦ ?_)
          rw [← octets_tree content ho hs false (depth + 1) cells]
          cases tree o false content (depth + 1) cells with
          | error e => rfl
          | ok r => exact congrArg Except.ok (Wire.octets_tag Tag.shareable r.1)
  | .custom _ result, o, ho, hs, asKey, depth, cells => by
    rw [tree, encoding, level_sub]
    cases asKey with
    | true => rfl
    | false =>
      simp only [Bool.false_eq_true, if_false, map_bind]
      exact congrArg _ (funext fun _ ↦ octets_treeResult result ho hs (depth + 1) cells)
  | .params p content, o, ho, hs, asKey, depth, cells => by
    rw [tree, encoding, map_bind]
    cases hi : o.override p with
    | error e => rfl
    | ok inner =>
      have hd := maxDepth_override hi
      rw [ok_bind, ok_bind, map_bind, level_sub, ← hd]
      exact congrArg _ (funext fun _ ↦ octets_tree content ((stringRef_override hi).trans ho)
        ((sharedRef_override hi).trans hs) asKey (depth + 1) cells)

theorem octets_treeAll : (is : List Item) → ∀ {o : Options}, o.stringRef = .off →
    o.sharedRef = false → ∀ (depth : Nat) (cells : CellTable),
    (fun r ↦ Wire.spell (Wire.lexemesAll r.1)) <$> treeAll o is depth cells =
      encodingAll o is (o.maxDepth - depth)
  | [], _, _, _, _, _ => rfl
  | i :: is, o, ho, hs, depth, cells => by
    rw [treeAll, encodingAll, ← octets_tree i ho hs false depth cells]
    cases tree o false i depth cells with
    | error e => rfl
    | ok r =>
      simp only [ok_bind, map_ok, ← octets_treeAll is ho hs depth r.2]
      cases treeAll o is depth r.2 with
      | error e => rfl
      | ok rs => simp [Wire.lexemesAll, Wire.octets]

theorem denotes_entries : (is : List (Item × Item)) → ∀ {o : Options}, o.stringRef = .off →
    o.sharedRef = false → ∀ (depth : Nat), ∀ i ∈ is, (entryTree o i).Denotes depth
      (encoding o true i.1 (o.maxDepth - depth), encoding o false i.2 (o.maxDepth - depth))
  | [], _, _, _, _ => List.forall_mem_nil _
  | (k, v) :: is, o, ho, hs, depth => by
    refine List.forall_mem_cons.2 ⟨⟨?_, fun cells ↦ ?_⟩, denotes_entries is ho hs depth⟩
    · rw [entryTree, withoutReferences_eq ho hs]
      exact octets_tree k ho hs true depth #[]
    · simp only [entryTree, ← octets_tree k ho hs true depth cells]
      cases tree o true k depth cells with
      | error e => rfl
      | ok r =>
        simp only [ok_bind, map_ok, ← octets_tree v ho hs false depth r.2]
        cases tree o false v depth r.2 <;> rfl

theorem octets_treeResult : (result : Except Fault Item) → ∀ {o : Options}, o.stringRef = .off →
    o.sharedRef = false → ∀ (depth : Nat) (cells : CellTable),
    (fun r ↦ r.1.octets) <$> treeResult o result depth cells =
      encodingResult o result (o.maxDepth - depth)
  | .error _, _, _, _, _, _ => rfl
  | .ok i, _, ho, hs, depth, cells => octets_tree i ho hs false depth cells

end

end Cbor.Encoder
