import Cbor.Proofs.Assembly.Blameless

namespace Cbor.Assembly

open Decoder (Options)

/-- Where the taking of a lexeme stands: it is over, or an item is finished that is yet to be put
into the innermost container. -/
inductive Turn where
  | settled (answer : Option Item) (a : Assembly)
  | finished (item : Item) (a : Assembly)

def Turn.assembly : Turn → Assembly
  | settled _ a | finished _ a => a

variable (o : Options)

def settle : Turn → Except Fault (Option Item × Assembly)
  | .settled answer a => .ok (answer, a)
  | .finished item a => complete o a.stack a.scope item

def place : List Frame → Scope → Item → Except Fault Turn
  | [], s, item => .ok (.settled (some (item.native o.flags)) ⟨[], s.nextItem⟩)
  | .array items remaining :: stack, s, item => do
    checkGrowth o remaining items.size
    let items := items.push (item.native o.flags)
    match countDown? remaining with
    | some remaining => return .settled none ⟨.array items remaining :: stack, s⟩
    | none => return .finished (.array items.toList) ⟨stack, s.leave⟩
  | .map entries none remaining :: stack, s, item => do
    checkGrowth o remaining entries.items.size
    let key ← item.mapKey o.flags
    if o.flags.contains .mapNoDupKey ∧ entries.contains key then throw .duplicateKey
    return .settled none ⟨.map entries (some key) remaining :: stack, s⟩
  | .map entries (some key) remaining :: stack, s, item =>
    let entries := entries.insert o.flags key (item.native o.flags)
    match countDown? remaining with
    | some remaining => .ok (.settled none ⟨.map entries none remaining :: stack, s⟩)
    | none => .ok (.finished (.map entries.items.toList) ⟨stack, s.leave⟩)
  | .tag number role :: stack, s, item => do
    let (item, s) ← closeTag o number role item s.leave
    return .finished item ⟨stack, s⟩
  | .chunks .. :: _, _, _ => .error (.internal "value inside string chunks")

def beginContainer (isEmpty : Bool) (empty : Item) (frame : Frame) (stack : List Frame)
    (s : Scope) : Except Fault Turn := do
  let s ← s.enter o.maxDepth
  if isEmpty then return .finished empty ⟨stack, s.leave⟩
  else return .settled none ⟨frame :: stack, s⟩

def beginStop : List Frame → Scope → Except Fault Turn
  | [], _ => .error (.grammar .breakUnderflow)
  | .array items none :: stack, s => .ok (.finished (.array items.toList) ⟨stack, s.leave⟩)
  | .map entries none none :: stack, s =>
    .ok (.finished (.map entries.items.toList) ⟨stack, s.leave⟩)
  | _ :: _, _ => .error (.grammar .breakUnexpected)

def beginItem (stack : List Frame) (s : Scope) : Lexeme → Except Fault Turn
  | .unsigned n => .ok (.finished (.unsigned n) ⟨stack, s⟩)
  | .negative n => .ok (.finished (.negative n) ⟨stack, s⟩)
  | .bytes b =>
    let s := { s with strings := StringNamespace.record (.bytes b) b.length s.strings }
    .ok (.finished (.bytes b) ⟨stack, s⟩)
  | .text b => do
    checkText o b
    let s := { s with strings := StringNamespace.record (.text b) b.length s.strings }
    return .finished (.text b) ⟨stack, s⟩
  | .bytesStart => .ok (.settled none ⟨.chunks false #[] :: stack, s⟩)
  | .textStart => .ok (.settled none ⟨.chunks true #[] :: stack, s⟩)
  | .array count =>
    beginContainer o (count = some 0) (.array []) (.array #[] (count.map UInt64.toNat)) stack s
  | .map count =>
    beginContainer o (count = some 0) (.map []) (.map .empty none (count.map UInt64.toNat)) stack s
  | .tag number => do
    let s ← s.enter o.maxDepth
    let (role, s) ← openRole o (inShareable stack) number s
    return .settled none ⟨.tag number role :: stack, s⟩
  | .simple _ => .error .unsupportedType
  | .bool b => .ok (.finished (.bool b) ⟨stack, s⟩)
  | .null => .ok (.finished .null ⟨stack, s⟩)
  | .undefined => .ok (.finished .undefined ⟨stack, s⟩)
  | .float16 bits => .ok (.finished (.float16 bits) ⟨stack, s⟩)
  | .float32 bits => .ok (.finished (.float32 bits) ⟨stack, s⟩)
  | .float64 bits => .ok (.finished (.float64 bits) ⟨stack, s⟩)
  | .stop => beginStop stack s

def beginChunk (isText : Bool) (octets : Array UInt8) (stack : List Frame) (s : Scope) :
    Lexeme → Except Fault Turn
  | .bytes b => (fun r ↦ .settled r.1 r.2) <$> addChunk o isText octets stack s false b
  | .text b => (fun r ↦ .settled r.1 r.2) <$> addChunk o isText octets stack s true b
  | .stop =>
    .ok (.finished (if isText then .text octets.toList else .bytes octets.toList) ⟨stack, s⟩)
  | .bytesStart | .textStart => .error (.grammar .nestedIndefiniteString)
  | _ => .error (.grammar .inconsistentStringType)

def begin (a : Assembly) (l : Lexeme) : Except Fault Turn :=
  match a with
  | ⟨.chunks isText octets :: stack, s⟩ => beginChunk o isText octets stack s l
  | ⟨stack, s⟩ => beginItem o stack s l

variable {o} {stack : List Frame} {s : Scope} {item : Item} {a : Assembly} {l : Lexeme}
  {turn : Turn}

theorem complete_eq (stack : List Frame) (s : Scope) (item : Item) :
    complete o stack s item = place o stack s item >>= settle o := by
  cases stack with
  | nil => rfl
  | cons frame stack =>
    cases frame with
    | array items remaining =>
      rw [complete, place, bind_assoc]
      cases countDown? remaining <;> rfl
    | map entries key remaining =>
      cases key with
      | none =>
        rw [complete, place]
        simp only [bind_assoc]
        refine congrArg _ (funext fun _ ↦ congrArg _ (funext fun key ↦ ?_))
        split <;> rfl
      | some key =>
        rw [complete, place]
        cases countDown? remaining <;> rfl
    | tag number role =>
      rw [complete, place, bind_assoc]
      rfl
    | chunks => rfl

theorem beginContainer_bind {isEmpty : Bool} {empty : Item} {frame : Frame} :
    beginContainer o isEmpty empty frame stack s >>= settle o = s.enter o.maxDepth >>= fun s ↦
      if isEmpty then complete o stack s.leave empty else .ok (none, ⟨frame :: stack, s⟩) := by
  rw [beginContainer, bind_assoc]
  cases isEmpty <;> rfl

theorem closeIndefinite_eq (stack : List Frame) (s : Scope) :
    closeIndefinite o stack s = beginStop stack s >>= settle o := by
  cases stack with
  | nil => rfl
  | cons frame stack =>
    cases frame with
    | array items remaining => cases remaining <;> rfl
    | map entries key remaining => cases key <;> cases remaining <;> rfl
    | tag | chunks => rfl

theorem pushItem_eq (stack : List Frame) (s : Scope) (l : Lexeme) :
    pushItem o stack s l = beginItem o stack s l >>= settle o := by
  cases l with
  | array count =>
    rw [pushItem, openArray, beginItem, beginContainer_bind]
    simp only [decide_eq_true_eq]
    rfl
  | map count =>
    rw [pushItem, openMap, beginItem, beginContainer_bind]
    simp only [decide_eq_true_eq]
    rfl
  | text b =>
    rw [pushItem, beginItem, bind_assoc]
    rfl
  | tag number =>
    rw [pushItem, openTag, beginItem]
    simp only [bind_assoc]
    rfl
  | stop => exact closeIndefinite_eq stack s
  | _ => rfl

theorem pushChunk_eq (isText : Bool) (octets : Array UInt8) (stack : List Frame) (s : Scope)
    (l : Lexeme) : pushChunk o isText octets stack s l =
      beginChunk o isText octets stack s l >>= settle o := by
  have hsettled (x : Except Fault (Option Item × Assembly)) :
      (fun r ↦ Turn.settled r.1 r.2) <$> x >>= settle o = x := by
    cases x <;> rfl
  cases l with
  | bytes b => exact (hsettled _).symm
  | text b => exact (hsettled _).symm
  | _ => rfl

/-- Taking a lexeme is taking all of its turns. -/
theorem push_eq (a : Assembly) (l : Lexeme) : a.push o l = begin o a l >>= settle o := by
  obtain ⟨stack, s⟩ := a
  cases stack with
  | nil => exact pushItem_eq [] s l
  | cons frame stack =>
    cases frame with
    | chunks isText octets => exact pushChunk_eq isText octets stack s l
    | _ => exact pushItem_eq _ s l

theorem length_lt_of_place {found : Item} (h : place o stack s item = .ok (.finished found a)) :
    a.stack.length < stack.length := by
  unfold place at h
  split at h
  · cases h
  · obtain ⟨_, _, h⟩ := bind_eq_ok.1 h
    split at h <;> cases h
    exact Nat.lt_succ_self _
  · obtain ⟨_, _, h⟩ := bind_eq_ok.1 h
    obtain ⟨key, _, h⟩ := bind_eq_ok.1 h
    split at h <;> cases h
  · dsimp only at h
    split at h <;> cases h
    exact Nat.lt_succ_self _
  · obtain ⟨_, _, h⟩ := bind_eq_ok.1 h
    cases h
    exact Nat.lt_succ_self _
  · cases h

def tag? : Frame → Option (UInt64 × TagRole)
  | .tag number role => some (number, role)
  | _ => none

def openTags (stack : List Frame) : List (UInt64 × TagRole) := stack.filterMap tag?

/-- The same tags are open, and references name the same items. -/
structure Keeps (a b : Assembly) : Prop where
  tags : openTags b.stack = openTags a.stack
  shared : b.scope.shared = a.scope.shared

theorem shared_enter {t : Scope} {maxDepth : Nat} (h : s.enter maxDepth = .ok t) :
    t.shared = s.shared := by
  unfold Scope.enter at h
  split at h <;> cases h
  rfl

theorem keeps_of_beginContainer {isEmpty : Bool} {empty : Item} {frame : Frame}
    (hf : tag? frame = none) (h : beginContainer o isEmpty empty frame stack s = .ok turn) :
    Keeps ⟨stack, s⟩ turn.assembly := by
  obtain ⟨t, ht, h⟩ := bind_eq_ok.1 h
  have hs := shared_enter ht
  split at h <;> cases h
  · exact ⟨rfl, hs⟩
  · exact ⟨List.filterMap_cons_none hf, hs⟩

theorem keeps_of_beginStop (h : beginStop stack s = .ok turn) :
    Keeps ⟨stack, s⟩ turn.assembly := by
  unfold beginStop at h
  split at h <;> cases h <;> exact ⟨rfl, rfl⟩

theorem keeps_of_beginItem (hl : ∀ number, l ≠ .tag number)
    (h : beginItem o stack s l = .ok turn) : Keeps ⟨stack, s⟩ turn.assembly := by
  cases l with
  | text b =>
    obtain ⟨_, _, h⟩ := bind_eq_ok.1 h
    cases h
    exact ⟨rfl, rfl⟩
  | array count => exact keeps_of_beginContainer rfl h
  | map count => exact keeps_of_beginContainer rfl h
  | tag number => exact absurd rfl (hl number)
  | simple => cases h
  | stop => exact keeps_of_beginStop h
  | _ =>
    cases h
    exact ⟨rfl, rfl⟩

theorem keeps_of_addChunk {isText chunkIsText : Bool} {octets : Array UInt8} {chunk : Octets}
    {r : Option Item × Assembly} (h : addChunk o isText octets stack s chunkIsText chunk = .ok r) :
    Keeps ⟨.chunks isText octets :: stack, s⟩ r.2 := by
  cases chunkIsText <;> cases isText
  case false.true => cases h
  case true.false =>
    obtain ⟨_, _, h⟩ := bind_eq_ok.1 h
    cases h
  case false.false =>
    obtain ⟨_, _, h⟩ := bind_eq_ok.1 h
    cases h
    exact ⟨rfl, rfl⟩
  case true.true =>
    obtain ⟨_, _, h⟩ := bind_eq_ok.1 h
    obtain ⟨_, _, h⟩ := bind_eq_ok.1 h
    cases h
    exact ⟨rfl, rfl⟩

theorem keeps_of_begin (hl : ∀ number, l ≠ .tag number) (h : begin o a l = .ok turn) :
    Keeps a turn.assembly := by
  unfold begin at h
  split at h
  · unfold beginChunk at h
    split at h
    case h_1 | h_2 =>
      obtain ⟨r, hr, rfl⟩ := map_eq_ok.1 h
      exact keeps_of_addChunk hr
    all_goals
      cases h
      try exact ⟨rfl, rfl⟩
  · exact keeps_of_beginItem hl h

theorem begin_tag {number : UInt64} (h : begin o a (.tag number) = .ok turn) :
    ∃ s t role, s.shared = a.scope.shared ∧
      openRole o (inShareable a.stack) number s = .ok (role, t) ∧
      turn = .settled none ⟨.tag number role :: a.stack, t⟩ := by
  unfold begin at h
  split at h
  · cases h
  · obtain ⟨t, ht, ⟨role, u⟩, hr, h⟩ := by simpa only [beginItem, bind_eq_ok] using h
    cases h
    exact ⟨t, u, role, shared_enter ht, hr, rfl⟩

theorem place_tag {number : UInt64} {role : TagRole}
    (h : place o (.tag number role :: stack) s item = .ok turn) :
    ∃ found t, closeTag o number role item s.leave = .ok (found, t) ∧
      turn = .finished found ⟨stack, t⟩ := by
  obtain ⟨⟨found, t⟩, hc, h⟩ := bind_eq_ok.1 h
  cases h
  exact ⟨found, t, hc, rfl⟩

theorem place_tag_eq_error {number : UInt64} {role : TagRole} {e : Fault} :
    place o (.tag number role :: stack) s item = .error e ↔
      closeTag o number role item s.leave = .error e := by
  rw [place]
  cases closeTag o number role item s.leave <;> simp [bind, Except.bind, pure, Except.pure]

theorem keeps_of_place (hs : ∀ number role rest, stack ≠ .tag number role :: rest)
    (h : place o stack s item = .ok turn) : Keeps ⟨stack, s⟩ turn.assembly := by
  unfold place at h
  split at h
  · cases h
    exact ⟨rfl, rfl⟩
  · obtain ⟨_, _, h⟩ := bind_eq_ok.1 h
    split at h <;> cases h <;> exact ⟨rfl, rfl⟩
  · obtain ⟨_, _, h⟩ := bind_eq_ok.1 h
    obtain ⟨key, _, h⟩ := bind_eq_ok.1 h
    split at h <;> cases h
    exact ⟨rfl, rfl⟩
  · dsimp only at h
    split at h <;> cases h <;> exact ⟨rfl, rfl⟩
  · exact absurd rfl (hs _ _ _)
  · cases h

theorem ordinary_beginContainer {isEmpty : Bool} {empty : Item} {frame : Frame} :
    Ordinary (beginContainer o isEmpty empty frame stack s) :=
  .bind (ordinary_enter _) fun _ ↦ .ite (.ok _) (.ok _)

theorem ordinary_beginStop : Ordinary (beginStop stack s) := by
  unfold beginStop
  split
  case h_2 | h_3 => exact .ok _
  all_goals exact .error trivial

theorem ordinary_beginItem (l : Lexeme) : Ordinary (beginItem o stack s l) := by
  cases l with
  | text b => exact .bind (ordinary_checkText o b) fun _ ↦ .ok _
  | array count => exact ordinary_beginContainer
  | map count => exact ordinary_beginContainer
  | tag number =>
    exact .bind (ordinary_enter _) fun _ ↦ .bind (ordinary_openRole o _ _) fun _ ↦ .ok _
  | simple => exact .error trivial
  | stop => exact ordinary_beginStop
  | _ => exact .ok _

theorem ordinary_begin (a : Assembly) (l : Lexeme) : Ordinary (begin o a l) := by
  unfold begin
  split
  · unfold beginChunk
    split
    case h_1 | h_2 => exact .map (ordinary_addChunk o _ _ _ _)
    case h_3 => exact .ok _
    all_goals exact .error trivial
  · exact ordinary_beginItem l

theorem unsigned_of_recursion {number : UInt64}
    (h : closeTag o number .sharedRef item s = .error .recursion) : ∃ i, item = .unsigned i := by
  cases item with
  | unsigned i => exact ⟨i, rfl⟩
  | _ => cases h

/-- Only a reference is refused for standing inside of what it names. -/
theorem sharedRef_of_place (h : place o stack s item = .error .recursion) :
    ∃ number rest i, stack = .tag number .sharedRef :: rest ∧ item = .unsigned i := by
  cases stack with
  | nil => cases h
  | cons frame stack =>
    cases frame with
    | array items remaining =>
      have ho : Ordinary (place o (.array items remaining :: stack) s item) := by
        refine .bind (ordinary_checkGrowth o _ _) fun _ ↦ ?_
        cases countDown? remaining <;> exact .ok _
      exact (ho _ h).elim
    | map entries key remaining =>
      have ho : Ordinary (place o (.map entries key remaining :: stack) s item) := by
        cases key with
        | none =>
          exact .bind (ordinary_checkGrowth o _ _) fun _ ↦
            .bind (ordinary_mapKey _ _) fun _ ↦ .ite (.error trivial) (.ok _)
        | some key =>
          rw [place]
          cases countDown? remaining <;> exact .ok _
      exact (ho _ h).elim
    | tag number role =>
      by_cases hr : role = .sharedRef
      · subst hr
        obtain ⟨i, rfl⟩ := unsigned_of_recursion (place_tag_eq_error.1 h)
        exact ⟨number, stack, i, rfl, rfl⟩
      · have ho : Ordinary (place o (.tag number role :: stack) s item) :=
          .bind (ordinary_closeTag o number hr item) fun _ ↦ .ok _
        exact (ho _ h).elim
    | chunks => cases h

end Cbor.Assembly
