import Cbor.Diagnostic.Transcript
import Cbor.Proofs.Outcome
import Cbor.Proofs.Wire.Tree

namespace Cbor

def Lexeme.IsLeaf : Lexeme → Prop
  | bytesStart | textStart | array _ | map _ | tag _ | stop => False
  | _ => True

namespace Diagnostic

open Assembly (countDown?)

inductive Slot where
  | array (remaining : Option Nat)
  | map (remaining : Option Nat) (isKey : Bool)
  | tag
  | chunks (isText : Bool)

structure Outline where
  stack : List Slot := []
  depth : Nat := 0

namespace Outline

/-- An item has come to its end, and with it each container that it completes. -/
def fill : List Slot → Nat → Bool × Outline
  | [], depth => (true, ⟨[], depth⟩)
  | .array remaining :: stack, depth =>
    match countDown? remaining with
    | some remaining => (false, ⟨.array remaining :: stack, depth⟩)
    | none => fill stack (depth - 1)
  | .map remaining true :: stack, depth => (false, ⟨.map remaining false :: stack, depth⟩)
  | .map remaining false :: stack, depth =>
    match countDown? remaining with
    | some remaining => (false, ⟨.map remaining true :: stack, depth⟩)
    | none => fill stack (depth - 1)
  | .tag :: stack, depth => fill stack (depth - 1)
  | .chunks isText :: stack, depth => (false, ⟨.chunks isText :: stack, depth⟩)

variable (maxDepth : Nat)

def enter (depth : Nat) : Except Fault Nat :=
  if depth < maxDepth then .ok (depth + 1) else .error .depth

def openContainer (slot : Slot) (count : Option UInt64) (stack : List Slot) (depth : Nat) :
    Except Fault (Bool × Outline) := do
  let inside ← enter maxDepth depth
  if count = some 0 then return fill stack (inside - 1)
  else return (false, ⟨slot :: stack, inside⟩)

def close : List Slot → Nat → Except Fault (Bool × Outline)
  | [], _ => .error (.grammar .breakUnderflow)
  | .chunks _ :: stack, depth => .ok (fill stack depth)
  | .array none :: stack, depth | .map none true :: stack, depth => .ok (fill stack (depth - 1))
  | _ :: _, _ => .error (.grammar .breakUnexpected)

def string (isText : Bool) : List Slot → Nat → Except Fault (Bool × Outline)
  | .chunks chunksAreText :: stack, depth =>
    if chunksAreText = isText then .ok (false, ⟨.chunks chunksAreText :: stack, depth⟩)
    else .error (.grammar .inconsistentStringType)
  | stack, depth => .ok (fill stack depth)

def write (stack : List Slot) (depth : Nat) : Lexeme → Except Fault (Bool × Outline)
  | .bytes _ => string false stack depth
  | .text _ => string true stack depth
  | .bytesStart => .ok (false, ⟨.chunks false :: stack, depth⟩)
  | .textStart => .ok (false, ⟨.chunks true :: stack, depth⟩)
  | .array count =>
    openContainer maxDepth (.array (count.map UInt64.toNat)) count stack depth
  | .map count =>
    openContainer maxDepth (.map (count.map UInt64.toNat) true) count stack depth
  | .tag _ => do
    let inside ← enter maxDepth depth
    return (false, ⟨.tag :: stack, inside⟩)
  | .stop => close stack depth
  | _ => .ok (fill stack depth)

def chunkFault? : List Slot → Lexeme → Option Fault
  | .chunks _ :: _, .bytes _ | .chunks _ :: _, .text _ | .chunks _ :: _, .stop => none
  | .chunks _ :: _, .bytesStart | .chunks _ :: _, .textStart =>
    some (.grammar .nestedIndefiniteString)
  | .chunks _ :: _, _ => some (.grammar .inconsistentStringType)
  | _, _ => none

def push (u : Outline) (l : Lexeme) : Except Fault (Bool × Outline) :=
  match chunkFault? u.stack l with
  | some e => .error e
  | none => write maxDepth u.stack u.depth l

variable {maxDepth}

theorem write_array (stack : List Slot) (depth : Nat) (count : Option UInt64) :
    write maxDepth stack depth (.array count) =
      openContainer maxDepth (.array (count.map UInt64.toNat)) count stack depth := rfl

theorem write_map (stack : List Slot) (depth : Nat) (count : Option UInt64) :
    write maxDepth stack depth (.map count) =
      openContainer maxDepth (.map (count.map UInt64.toNat) true) count stack depth := rfl

theorem write_tag (stack : List Slot) (depth : Nat) (number : UInt64) :
    write maxDepth stack depth (.tag number) =
      enter maxDepth depth >>= fun inside ↦ .ok (false, ⟨.tag :: stack, inside⟩) := rfl

theorem stack_ne_nil_of_fill {stack : List Slot} {depth : Nat} (h : (fill stack depth).1 = false) :
    (fill stack depth).2.stack ≠ [] := by
  fun_induction fill stack depth with
  | case1 => cases h
  | case3 _ _ _ _ ih | case6 _ _ _ _ ih | case7 _ _ ih => exact ih h
  | case2 | case4 | case5 | case8 => exact List.cons_ne_nil _ _

def Outside (stack : List Slot) : Prop := ∀ isText rest, stack ≠ .chunks isText :: rest

theorem push_of_outside {stack : List Slot} (h : Outside stack) (maxDepth depth : Nat)
    (l : Lexeme) : push maxDepth ⟨stack, depth⟩ l = write maxDepth stack depth l := by
  cases stack with
  | nil => rfl
  | cons slot stack =>
    cases slot with
    | chunks isText => exact absurd rfl (h isText stack)
    | _ => rfl

theorem string_of_outside {stack : List Slot} (h : Outside stack) (isText : Bool) (depth : Nat) :
    string isText stack depth = .ok (fill stack depth) := by
  unfold string
  split
  · exact (h _ _ rfl).elim
  · rfl

inductive Pushes (maxDepth : Nat) : Outline → Lexeme → Bool × Outline → Prop
  | leaf {stack : List Slot} (hs : Outside stack) (depth : Nat) {l : Lexeme} (hl : l.IsLeaf) :
    Pushes maxDepth ⟨stack, depth⟩ l (fill stack depth)
  | openString {stack : List Slot} (hs : Outside stack) (depth : Nat) (isText : Bool) :
    Pushes maxDepth ⟨stack, depth⟩ (if isText then .textStart else .bytesStart)
      (false, ⟨.chunks isText :: stack, depth⟩)
  | chunk (isText : Bool) (stack : List Slot) (depth : Nat) (b : Octets) :
    Pushes maxDepth ⟨.chunks isText :: stack, depth⟩ (.ofString isText b)
      (false, ⟨.chunks isText :: stack, depth⟩)
  | closeString (isText : Bool) (stack : List Slot) (depth : Nat) :
    Pushes maxDepth ⟨.chunks isText :: stack, depth⟩ .stop (fill stack depth)
  | emptyArray {stack : List Slot} (hs : Outside stack) (depth : Nat) :
    Pushes maxDepth ⟨stack, depth⟩ (.array (some 0)) (fill stack depth)
  | openArray {stack : List Slot} (hs : Outside stack) {depth : Nat} {count : Option UInt64}
    (hn : count ≠ some 0) :
    Pushes maxDepth ⟨stack, depth⟩ (.array count)
      (false, ⟨.array (count.map UInt64.toNat) :: stack, depth + 1⟩)
  | closeArray (stack : List Slot) (depth : Nat) :
    Pushes maxDepth ⟨.array none :: stack, depth⟩ .stop (fill stack (depth - 1))
  | emptyMap {stack : List Slot} (hs : Outside stack) (depth : Nat) :
    Pushes maxDepth ⟨stack, depth⟩ (.map (some 0)) (fill stack depth)
  | openMap {stack : List Slot} (hs : Outside stack) {depth : Nat} {count : Option UInt64}
    (hn : count ≠ some 0) :
    Pushes maxDepth ⟨stack, depth⟩ (.map count)
      (false, ⟨.map (count.map UInt64.toNat) true :: stack, depth + 1⟩)
  | closeMap (stack : List Slot) (depth : Nat) :
    Pushes maxDepth ⟨.map none true :: stack, depth⟩ .stop (fill stack (depth - 1))
  | openTag {stack : List Slot} (hs : Outside stack) {depth : Nat} (number : UInt64) :
    Pushes maxDepth ⟨stack, depth⟩ (.tag number) (false, ⟨.tag :: stack, depth + 1⟩)

theorem enter_eq_ok {depth inside : Nat} (h : enter maxDepth depth = .ok inside) :
    inside = depth + 1 := by
  unfold enter at h
  split at h <;> cases h
  rfl

theorem pushes_of_close {stack : List Slot} {depth : Nat} {r : Bool × Outline}
    (h : close stack depth = .ok r) : Pushes maxDepth ⟨stack, depth⟩ .stop r := by
  unfold close at h
  split at h
  case h_2 =>
    cases h
    exact .closeString ..
  case h_3 =>
    cases h
    exact .closeArray ..
  case h_4 =>
    cases h
    exact .closeMap ..
  all_goals cases h

theorem pushes_of_openContainer {slot : Slot} {count : Option UInt64} {stack : List Slot}
    {depth : Nat} {l : Lexeme} {r : Bool × Outline}
    (h : openContainer maxDepth slot count stack depth = .ok r)
    (hempty : count = some 0 → Pushes maxDepth ⟨stack, depth⟩ l (fill stack depth))
    (hopen : count ≠ some 0 →
      Pushes maxDepth ⟨stack, depth⟩ l (false, ⟨slot :: stack, depth + 1⟩)) :
    Pushes maxDepth ⟨stack, depth⟩ l r := by
  obtain ⟨inside, he, h⟩ := bind_eq_ok.1 h
  obtain rfl := enter_eq_ok he
  split at h
  case isTrue hn =>
    cases h
    exact hempty hn
  case isFalse hn =>
    cases h
    exact hopen hn

theorem pushes_of_write {stack : List Slot} (hs : Outside stack) {depth : Nat} {l : Lexeme}
    {r : Bool × Outline} (h : write maxDepth stack depth l = .ok r) :
    Pushes maxDepth ⟨stack, depth⟩ l r := by
  cases l with
  | bytes b | text b =>
    cases (string_of_outside hs _ depth).symm.trans h
    exact .leaf hs depth trivial
  | bytesStart =>
    cases h
    exact .openString hs depth false
  | textStart =>
    cases h
    exact .openString hs depth true
  | array count =>
    exact pushes_of_openContainer h (fun hn ↦ hn ▸ .emptyArray hs depth) (.openArray hs)
  | map count =>
    exact pushes_of_openContainer h (fun hn ↦ hn ▸ .emptyMap hs depth) (.openMap hs)
  | tag n =>
    obtain ⟨inside, he, h⟩ := bind_eq_ok.1 h
    obtain rfl := enter_eq_ok he
    cases h
    exact .openTag hs n
  | stop => exact pushes_of_close h
  | _ =>
    cases h
    exact .leaf hs depth trivial

theorem pushes_of_push {u : Outline} {l : Lexeme} {r : Bool × Outline}
    (h : u.push maxDepth l = .ok r) : Pushes maxDepth u l r := by
  obtain ⟨stack, depth⟩ := u
  by_cases hs : Outside stack
  · rw [push_of_outside hs] at h
    exact pushes_of_write hs h
  · simp only [Outside, Classical.not_forall, ne_eq, Classical.not_not] at hs
    obtain ⟨isText, stack, rfl⟩ := hs
    have hstring {chunkIsText : Bool} (b : Octets)
        (h : string chunkIsText (.chunks isText :: stack) depth = .ok r) :
        Pushes maxDepth ⟨.chunks isText :: stack, depth⟩ (.ofString chunkIsText b) r := by
      rw [string] at h
      split at h
      case isTrue ht =>
        cases h
        exact ht ▸ .chunk isText stack depth b
      case isFalse => cases h
    cases l with
    | bytes b | text b => exact hstring b h
    | stop => exact pushes_of_close h
    | _ => cases h

theorem stack_ne_nil_of_push {u v : Outline} {l : Lexeme} (h : u.push maxDepth l = .ok (false, v)) :
    v.stack ≠ [] := by
  have hp := pushes_of_push h
  generalize hr : (false, v) = r at hp
  have hf : r.1 = false := congrArg Prod.fst hr.symm
  have hv : v = r.2 := congrArg Prod.snd hr
  rw [hv]
  cases hp with
  | leaf | closeString | emptyArray | closeArray | emptyMap | closeMap =>
    exact stack_ne_nil_of_fill hf
  | openString | chunk | openArray | openMap | openTag => exact List.cons_ne_nil _ _

end Outline

namespace Page

variable (st : Style) (p : Page)

@[simp] theorem write_depth (s : List Char) : (p.write s).depth = p.depth := rfl

@[simp] theorem space_depth : (p.space st).depth = p.depth := by
  unfold space
  split <;> rfl

@[simp] theorem lineBreak_depth (space : Bool) : (p.lineBreak st space).depth = p.depth := rfl

@[simp] theorem indent_depth (space : Bool) : (p.indent st space).depth = p.depth := rfl

@[simp] theorem outdent_depth : (p.outdent st).depth = p.depth := rfl

@[simp] theorem leave_depth : p.leave.depth = p.depth - 1 := rfl

@[simp] theorem trimSeparators_depth : p.trimSeparators.depth = p.depth := rfl

end Page

def Bracket.slot : Bracket → Slot
  | array remaining _ => .array remaining
  | map remaining _ isKey => .map remaining isKey
  | tag _ => .tag
  | chunks isText _ => .chunks isText

namespace Transcript

section

variable {o o' : Decoder.Options} (hs : o'.edn = o.edn)

include hs

theorem itemDone_congr : itemDone o' = itemDone o := by
  funext stack p
  induction stack generalizing p with
  | nil => rfl
  | cons bracket stack ih =>
    cases bracket with
    | array | tag => simp only [itemDone, hs, ih]
    | map _ _ isKey => cases isKey <;> simp only [itemDone, hs, ih]
    | chunks => rfl

theorem scalar_congr (s : List Char) (t : Transcript) : scalar o' s t = scalar o s t := by
  rw [scalar, scalar, itemDone_congr hs]

theorem string_congr (isText : Bool) (b : Octets) (t : Transcript) :
    string o' isText b t = string o isText b t := by
  unfold string
  simp only [itemDone_congr hs, writeString, isWrapped, hs]
  rfl

theorem close_congr (t : Transcript) : close o' t = close o t := by
  unfold close
  simp only [closeIndefinite, itemDone_congr hs, hs]

/-- Of the options only the style and the limit of the nesting play a part. -/
theorem push_congr (hd : o'.maxDepth = o.maxDepth) (t : Transcript) (l : Lexeme) :
    t.push o' l = t.push o l := by
  simp only [push, write, scalar_congr hs, string_congr hs, openTag, openContainer, enter,
    close_congr hs, hs, hd]

end

def outline (t : Transcript) : Outline := ⟨t.stack.map Bracket.slot, t.page.depth⟩

def Answer.outline : Answer → Except Fault (Bool × Outline)
  | (.error e, _) => .error e
  | (.ok done, t) => .ok (done, t.outline)

variable (o : Decoder.Options)

theorem outline_itemDone (stack : List Bracket) (p : Page) :
    (answer (itemDone o stack p)).outline =
      .ok (Outline.fill (stack.map Bracket.slot) p.depth) := by
  induction stack generalizing p with
  | nil => rfl
  | cons bracket stack ih =>
    cases bracket with
    | array remaining appended =>
      simp only [itemDone, List.map_cons, Bracket.slot, Outline.fill]
      cases countDown? remaining with
      | some remaining => rfl
      | none => exact ih _
    | map remaining appended isKey =>
      cases isKey with
      | true => simp [itemDone, Bracket.slot, Outline.fill, answer, Answer.outline, outline]
      | false =>
        simp only [itemDone, List.map_cons, Bracket.slot, Outline.fill]
        cases countDown? remaining with
        | some remaining => rfl
        | none => exact ih _
    | tag wrapped =>
      simp only [itemDone, List.map_cons, Bracket.slot, Outline.fill]
      rw [ih]
      cases wrapped <;> rfl
    | chunks isText appended => rfl

theorem outline_scalar (s : List Char) (t : Transcript) :
    (scalar o s t).outline = .ok (Outline.fill t.outline.stack t.outline.depth) :=
  outline_itemDone o t.stack _

theorem outline_enter (t : Transcript) (k : Transcript → Answer) :
    (enter o t k).outline =
      Outline.enter o.maxDepth t.outline.depth >>= fun inside ↦
        (k ⟨t.stack, { t.page with depth := inside }⟩).outline := by
  obtain ⟨stack, p⟩ := t
  have hd : (⟨stack, p⟩ : Transcript).outline.depth = p.depth := rfl
  rw [hd, enter, Outline.enter]
  split <;> rfl

theorem outline_openContainer (left right : Char) (bracket : Bracket) (count : Option UInt64)
    (t : Transcript) :
    (openContainer o left right bracket count t).outline =
      Outline.openContainer o.maxDepth bracket.slot count t.outline.stack t.outline.depth := by
  rw [openContainer, outline_enter, Outline.openContainer]
  congr 1
  funext inside
  dsimp only
  split
  case h_1 => exact outline_itemDone o t.stack _
  case h_2 n hn =>
    rw [if_neg (by simpa using hn)]
    rfl
  case h_3 => rfl

theorem outline_closeIndefinite (right : Char) (appended : Bool) (stack : List Bracket)
    (p : Page) :
    (closeIndefinite o right appended stack p).outline =
      .ok (Outline.fill (stack.map Bracket.slot) (p.depth - 1)) := by
  rw [closeIndefinite, outline_itemDone]
  cases appended <;> rfl

theorem outline_close (t : Transcript) :
    (close o t).outline = Outline.close t.outline.stack t.outline.depth := by
  obtain ⟨_ | ⟨bracket, stack⟩, p⟩ := t
  · rfl
  cases bracket with
  | array remaining appended =>
    cases remaining with
    | none => exact outline_closeIndefinite o _ appended stack p
    | some n => rfl
  | map remaining appended isKey =>
    cases remaining with
    | none =>
      cases isKey with
      | true => exact outline_closeIndefinite o _ appended stack p
      | false => rfl
    | some n => rfl
  | tag wrapped => rfl
  | chunks isText appended => cases appended <;> exact outline_itemDone o stack _

theorem outline_string (isText : Bool) (b : Octets) (t : Transcript) :
    (string o isText b t).outline = Outline.string isText t.outline.stack t.outline.depth := by
  obtain ⟨_ | ⟨bracket, stack⟩, p⟩ := t
  · exact outline_itemDone o [] _
  cases bracket with
  | chunks chunksAreText appended =>
    simp only [string, Outline.string, outline, List.map_cons, Bracket.slot]
    by_cases h : chunksAreText = isText
    · rw [if_neg (not_not_intro h), if_pos h]
      cases appended <;> rfl
    · rw [if_pos h, if_neg h]
      rfl
  | tag wrapped =>
    cases wrapped with
    | false =>
      rw [string]
      split <;> exact outline_itemDone o (.tag _ :: stack) _
    | true => exact outline_itemDone o (.tag true :: stack) _
  | array | map => exact outline_itemDone o (_ :: stack) _

theorem outline_write (t : Transcript) (l : Lexeme) :
    (write o t l).outline = Outline.write o.maxDepth t.outline.stack t.outline.depth l := by
  cases l with
  | bytes b | text b => exact outline_string o _ b t
  | array count | map count => exact outline_openContainer o _ _ _ count t
  | tag n =>
    rw [write, openTag, outline_enter]
    rfl
  | stop => exact outline_close o t
  | bytesStart | textStart => rfl
  | _ => exact outline_scalar o _ t

/-- A transcript accepts what its outline accepts. -/
theorem outline_push (t : Transcript) (l : Lexeme) :
    (t.push o l).outline = t.outline.push o.maxDepth l := by
  have hf : Outline.chunkFault? t.outline.stack l = chunkFault? t.stack l := by
    obtain ⟨_ | ⟨bracket, stack⟩, p⟩ := t
    · rfl
    cases bracket <;> cases l <;> rfl
  rw [push, Outline.push, hf]
  cases chunkFault? t.stack l with
  | none => exact outline_write o t l
  | some e => rfl

variable {o}

theorem stack_ne_nil_of_push {t u : Transcript} {l : Lexeme} (h : t.push o l = (.ok false, u)) :
    u.stack ≠ [] := by
  have hp := outline_push o t l
  rw [h] at hp
  have hne := Outline.stack_ne_nil_of_push hp.symm
  intro hu
  exact hne (by rw [outline, hu]; rfl)

end Transcript
end Diagnostic
end Cbor
