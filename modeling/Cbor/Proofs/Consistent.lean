import Mathlib
import Cbor.Proofs.Assembly.Blameless
import Cbor.Proofs.Assembly.Counts

namespace Cbor

open Decoder (Options)

def Frame.due? : Frame → Option Nat
  | .array _ remaining | .map _ _ remaining => remaining
  | .tag .. | .chunks .. => none

/-- The index holds just the keys that are there, each at a place of its own. -/
structure Entries.Indexes (es : Entries) : Prop where
  keys : ∀ key, es.contains key = true ↔ ∃ e ∈ es.items, (e.1 == key) = true
  places : ∀ key i, es.index.lookup key = some i →
    ∃ e, es.items[i]? = some e ∧ (e.1 == key) = true

theorem Entries.indexes (es : Entries) : es.Indexes where
  keys key := by rw [es.contains_eq, Array.any_eq_true']
  places key i hi := by
    obtain ⟨e, he, hk⟩ := Item.key_of_lastPlace? ((es.indexed key).symm.trans hi)
    exact ⟨e, by rw [← Array.getElem?_toList, he], hk⟩

namespace Assembly

open Diagnostic.Outline (Remains)

/-- An assembly that has taken lexemes without a fault, any number of items and resets among them,
and the lexemes that have come since the last one. -/
inductive Reached (o : Options) : (a : Assembly) → (ls : List Lexeme) → Prop
  | start : Reached o {} []
  | begun {a b : Assembly} {ls : List Lexeme} {l : Lexeme} (h : Reached o a ls)
    (hp : a.push o l = .ok (none, b)) : Reached o b (ls ++ [l])
  | ended {a b : Assembly} {ls : List Lexeme} {l : Lexeme} {item : Item} (h : Reached o a ls)
    (hp : a.push o l = .ok (some item, b)) : Reached o b []
  | reset {a : Assembly} {ls : List Lexeme} (h : Reached o a ls) : Reached o a.reset []

structure Consistent (o : Options) (a : Assembly) (ls : List Lexeme) : Prop where
  /-- Each lexeme belongs to what has come whole of an open container, the innermost the last. -/
  held : Holds a.stack ls
  /-- A string stands innermost. -/
  outer : ∀ frame ∈ a.stack.tail, isLevel frame = true
  /-- The elements of an array that has opened with the lexeme behind `before`; what came `after`
  them is held further in. -/
  arrays : ∀ inner items n stack, a.stack = inner ++ .array items (some n) :: stack →
    ∃ (before : List Lexeme) (count : UInt64) (elements : List Wire) (after : List Lexeme),
      Holds stack before ∧
      Holds (.array items (some n) :: stack)
        (before ++ .array (some count) :: Wire.lexemesAll elements) ∧
      ls = before ++ .array (some count) :: Wire.lexemesAll elements ++ after ∧
      (inner = [] → after = []) ∧
      items.size = elements.length ∧ items.size + n = count.toNat ∧ 1 ≤ n
  /-- The pairs of a map that has opened with the lexeme behind `before`, and the key of the next
  one, if it has come. -/
  maps : ∀ inner entries key n stack, a.stack = inner ++ .map entries key (some n) :: stack →
    ∃ (before : List Lexeme) (count : UInt64) (pairs : List (Wire × Wire)) (k : Option Wire)
      (after : List Lexeme),
      Holds stack before ∧
      Holds (.map entries key (some n) :: stack)
        (before ++ .map (some count) :: (Wire.lexemesEntries pairs ++ k.elim [] Wire.lexemes)) ∧
      ls = before ++ .map (some count) :: (Wire.lexemesEntries pairs ++ k.elim [] Wire.lexemes) ++
        after ∧
      (inner = [] → after = []) ∧ k.isSome = key.isSome ∧
      pairs.length + n = count.toNat ∧ 1 ≤ n
  depth : a.scope.depth = levels a.stack
  bounded : a.scope.depth ≤ o.maxDepth
  namespaces : a.scope.strings.length = namespaces a.stack
  index : ∀ entries key remaining, .map entries key remaining ∈ a.stack → entries.Indexes
  due : ∀ frame ∈ a.stack, frame.due? ≠ some 0
  blameless : ∀ l, Blameless (a.push o l)

variable {o : Options} {a : Assembly} {ls : List Lexeme} {stack : List Frame}

theorem exists_of_holds_cons {frame : Frame} (h : Holds (frame :: stack) ls) :
    ∃ before after, ls = before ++ after ∧ Holds stack before := by
  cases h with
  | array h | key h | value h | tag h | chunks h => exact ⟨_, _, rfl, h⟩

/-- What came before a container is what the containers around it hold. -/
theorem exists_of_holds_append {inner : List Frame} (h : Holds (inner ++ stack) ls) :
    ∃ before after, ls = before ++ after ∧ (inner = [] → after = []) ∧ Holds stack before := by
  induction inner generalizing ls with
  | nil => exact ⟨ls, [], (List.append_nil ls).symm, fun _ ↦ rfl, h⟩
  | cons frame inner ih =>
    obtain ⟨ls, after, rfl, hl⟩ := exists_of_holds_cons h
    obtain ⟨before, after', rfl, -, hb⟩ := ih hl
    exact ⟨before, after' ++ after, by rw [List.append_assoc], nofun, hb⟩

theorem isLevel_of_holds (h : Holds stack ls) : ∀ frame ∈ stack.tail, isLevel frame = true := by
  induction h with
  | top => nofun
  | array _ hs _ _ _ ih | key _ hs _ _ ih | value _ hs _ _ _ ih | tag _ hs _ _ ih
  | chunks _ hs _ _ _ ih => exact forall_isLevel hs ih

theorem due?_of_holds (h : Holds stack ls) : ∀ frame ∈ stack, frame.due? ≠ some 0 := by
  have hr : ∀ {count n remaining}, Remains count n remaining → remaining ≠ some 0 := by
    intro count n remaining hr h0
    cases hr with
    | indefinite => cases h0
    | definite hlt =>
      have := Option.some.inj h0
      omega
  induction h with
  | top => nofun
  | array _ _ _ _ h ih | key _ _ _ h ih | value _ _ _ _ h ih =>
    exact List.forall_mem_cons.2 ⟨hr h, ih⟩
  | tag _ _ _ _ ih | chunks _ _ _ _ _ ih => exact List.forall_mem_cons.2 ⟨nofun, ih⟩

theorem holds_of_reached (h : Reached o a ls) : Holds a.stack ls := by
  induction h with
  | start | reset => exact .top
  | begun _ hp ih => exact accounts_of_push ih hp
  | ended _ hp ih =>
    rw [stack_eq_nil_of_push hp]
    exact .top

theorem namespaced_of_reached (h : Reached o a ls) : Namespaced a.stack a.scope := by
  induction h with
  | start | reset => rfl
  | begun _ hp ih | ended _ hp ih => exact namespaced_of_push ih hp

theorem nested_of_reached (h : Reached o a ls) : Nested o a.stack a.scope := by
  induction h with
  | start | reset => exact ⟨rfl, Nat.zero_le _⟩
  | begun _ hp ih | ended _ hp ih => exact nested_of_push ih hp

/-- Whatever lexemes have been taken, all that is counted agrees. -/
theorem consistent_of_reached (h : Reached o a ls) : Consistent o a ls where
  held := holds_of_reached h
  outer := isLevel_of_holds (holds_of_reached h)
  arrays inner items n stack hs := by
    obtain ⟨ls', after, rfl, hafter, hl⟩ := exists_of_holds_append (hs ▸ holds_of_reached h)
    have hheld := hl
    cases hl with
    | @array _ before _ _ _ hl _ elements hsize hr =>
      cases hr with
      | @definite count _ hlt =>
        exact ⟨before, count, elements, after, hl, hheld, rfl, hafter, hsize, by omega, by omega⟩
  maps inner entries key n stack hs := by
    obtain ⟨ls', after, rfl, hafter, hl⟩ := exists_of_holds_append (hs ▸ holds_of_reached h)
    have hheld := hl
    cases hl with
    | @key _ before _ _ _ hl _ pairs hr =>
      cases hr with
      | @definite count _ hlt =>
        rw [← List.append_nil (Wire.lexemesEntries pairs)] at hheld ⊢
        exact ⟨before, count, pairs, none, after, hl, hheld, rfl, hafter, rfl, by omega, by omega⟩
    | @value _ before _ _ _ _ hl _ pairs k hr =>
      cases hr with
      | @definite count _ hlt =>
        exact ⟨before, count, pairs, some k, after, hl, hheld, rfl, hafter, rfl, by omega, by omega⟩
  depth := (nested_of_reached h).depth
  bounded := (nested_of_reached h).le
  namespaces := namespaced_of_reached h
  index entries _ _ _ := entries.indexes
  due := due?_of_holds (holds_of_reached h)
  blameless := blameless_push o (isLevel_of_holds (holds_of_reached h))

/-- Two pairs under one key and a third key have come of a map of three pairs in a namespace. -/
theorem consistent_of_reached_repeated :
    let ls : List Lexeme := [.tag Tag.stringRefNamespace, .map (some 3), .bytes [0x61], .unsigned 1,
      .bytes [0x61], .unsigned 2, .bytes [0x62]]
    ∃ (a : Assembly) (entries : Entries) (key : Item), Reached {} a ls ∧ Consistent {} a ls ∧
      a.stack = [.map entries (some key) (some 1), .tag Tag.stringRefNamespace .stringNamespace] ∧
      entries.items.size = 1 ∧ a.scope.depth = 2 ∧ a.scope.strings.length = 1 := by
  intro ls
  have h : Reached {} _ ls :=
    .begun (.begun (.begun (.begun (.begun (.begun (.begun .start rfl) rfl) rfl) rfl) rfl) rfl) rfl
  exact ⟨_, _, _, h, consistent_of_reached h, rfl, rfl, rfl, rfl⟩

end Assembly
end Cbor
