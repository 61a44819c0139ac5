import Cbor.Flags
import Cbor.Item.Equality

namespace Cbor

def Item.lastPlace? (key : Item) : List (Item × Item) → Option Nat
  | [] => none
  | e :: es =>
    match lastPlace? key es with
    | some i => some (i + 1)
    | none => if e.1 == key then some 0 else none

namespace Item

variable {key : Item} {es : List (Item × Item)}

theorem lastPlace?_append (e : Item × Item) :
    lastPlace? key (es ++ [e]) = if e.1 == key then some es.length else lastPlace? key es := by
  induction es with
  | nil => rfl
  | cons e' es ih =>
    rw [List.cons_append, lastPlace?, ih, lastPlace?]
    by_cases h : (e.1 == key) = true <;> simp [h]

theorem lastPlace?_congr {es' : List (Item × Item)} (h : es.map Prod.fst = es'.map Prod.fst) :
    lastPlace? key es = lastPlace? key es' := by
  induction es generalizing es' with
  | nil => rw [List.map_eq_nil_iff.1 h.symm]
  | cons e es ih =>
    cases es' with
    | nil => cases h
    | cons e' es' =>
      obtain ⟨he, hes⟩ := List.cons.inj h
      rw [lastPlace?, lastPlace?, he, ih hes]

theorem lastPlace?_eq_none_iff :
    lastPlace? key es = none ↔ ∀ e ∈ es, (e.1 == key) = false := by
  induction es with
  | nil => simp [lastPlace?]
  | cons e es ih =>
    rw [lastPlace?, List.forall_mem_cons, ← ih]
    split <;> simp [*]

theorem key_of_lastPlace? {i : Nat} (h : lastPlace? key es = some i) :
    ∃ e, es[i]? = some e ∧ (e.1 == key) = true := by
  induction es generalizing i with
  | nil => cases h
  | cons e es ih =>
    rw [lastPlace?] at h
    split at h
    · rename_i hes
      cases h
      exact ih hes
    · split at h
      · rename_i he
        cases h
        exact ⟨e, rfl, he⟩
      · cases h

theorem keys_modify (entries : List (Item × Item)) (i : Nat) (value : Item) :
    (entries.modify i fun e ↦ (e.1, value)).map Prod.fst = entries.map Prod.fst := by
  refine List.ext_getElem? fun j ↦ ?_
  rw [List.getElem?_map, List.getElem?_map, List.getElem?_modify]
  split
  · rw [Option.map_eq_map, Option.map_map]
    rfl
  · rw [Option.map_eq_map, Option.map_id']

end Item

/-- The newest place of a key stands first in the index. -/
structure Entries where
  items : Array (Item × Item) := #[]
  index : List (Item × Nat) := []
  indexed : ∀ key, index.lookup key = Item.lastPlace? key items.toList := by exact fun _ ↦ rfl
  deriving Repr

namespace Entries

def empty : Entries := {}

@[simp] theorem items_empty : empty.items = #[] := rfl

variable (es : Entries)

def push (key value : Item) : Entries where
  items := es.items.push (key, value)
  index := (key, es.items.size) :: es.index
  indexed k := by
    rw [List.lookup_cons, es.indexed, Array.toList_push, Item.lastPlace?_append, BEq.comm]
    cases key == k <;> rfl

def replace (i : Nat) (value : Item) : Entries where
  items := es.items.modify i fun e ↦ (e.1, value)
  index := es.index
  indexed k := by
    rw [es.indexed, Array.toList_modify, Item.lastPlace?_congr (Item.keys_modify _ i value)]

def contains (key : Item) : Bool := (es.index.lookup key).isSome

def insert (flags : Flags) (key value : Item) : Entries :=
  match es.index.lookup key with
  | some i => if flags.contains .mapAsArray then es.push key value else es.replace i value
  | none => es.push key value

theorem contains_eq (key : Item) : es.contains key = es.items.any fun e ↦ e.1 == key := by
  rw [contains, es.indexed, ← Array.any_toList]
  cases h : Item.lastPlace? key es.items.toList with
  | none => exact (List.any_eq_false.2 fun e he ↦ by simp [Item.lastPlace?_eq_none_iff.1 h e he]).symm
  | some i =>
    obtain ⟨e, he, hk⟩ := Item.key_of_lastPlace? h
    exact (List.any_eq_true.2 ⟨e, List.mem_of_getElem? he, hk⟩).symm

end Entries

/-- Adds an entry. With string keys a key that is there keeps its place and takes the new value. -/
def Assembly.insertEntry (flags : Flags) (entries : Array (Item × Item)) (key value : Item) :
    Array (Item × Item) :=
  if flags.contains .mapAsArray then entries.push (key, value)
  else
    match Item.lastPlace? key entries.toList with
    | some i => entries.modify i fun e ↦ (e.1, value)
    | none => entries.push (key, value)

theorem Entries.items_insert (es : Entries) (flags : Flags) (key value : Item) :
    (es.insert flags key value).items = Assembly.insertEntry flags es.items key value := by
  rw [insert, es.indexed, Assembly.insertEntry]
  cases Item.lastPlace? key es.items.toList <;> cases flags.contains .mapAsArray <;> rfl

end Cbor
