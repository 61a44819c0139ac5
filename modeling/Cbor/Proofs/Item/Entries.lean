import Mathlib.Data.List.Induction
import Cbor.Proofs.Wire.Reading
import Cbor.Proofs.Wire.Recursion

namespace Cbor.Item

open Assembly

def Unrepeated (ps : List (Item × Item)) : Prop := ps.Pairwise fun p q ↦ (p.1 == q.1) = false

def named (e : Octets × Item) : Item × Item := (string e.1, e.2)

/-- `es` has each key of `ps` once, where it comes first, with the value that it comes with last. -/
structure Merges (ps es : List (Octets × Item)) : Prop where
  keys : es.map Prod.fst = (ps.map Prod.fst).eraseDups
  distinct : (es.map Prod.fst).Nodup
  values : ∀ b, es.lookup b = ps.reverse.lookup b

def gather (f : Flags) (done : Array (Item × Item)) (ps : List (Item × Item)) :
    Array (Item × Item) :=
  ps.foldl (fun es p ↦ insertEntry f es p.1 p.2) done

section

variable {f : Flags}

theorem size_le_insertEntry (entries : Array (Item × Item)) (key value : Item) :
    entries.size ≤ (insertEntry f entries key value).size := by
  unfold insertEntry
  split
  · simp
  · split <;> simp

theorem size_le_gather (done : Array (Item × Item)) (ps : List (Item × Item)) :
    done.size ≤ (gather f done ps).size := by
  induction ps generalizing done with
  | nil => exact Nat.le_refl _
  | cons p ps ih => exact Nat.le_trans (size_le_insertEntry done p.1 p.2) (ih _)

theorem size_gather_le (done : Array (Item × Item)) (ps : List (Item × Item)) :
    (gather f done ps).size ≤ done.size + ps.length := by
  induction ps generalizing done with
  | nil => exact Nat.le_refl _
  | cons p ps ih =>
    have hp := Wire.size_insertEntry_le f done p.1 p.2
    have hps := ih (insertEntry f done p.1 p.2)
    simp only [gather, List.foldl_cons, List.length_cons] at hps ⊢
    omega

theorem gather_of_mapAsArray (hf : f.contains .mapAsArray = true) (done : Array (Item × Item))
    (ps : List (Item × Item)) : gather f done ps = done ++ ps := by
  induction ps generalizing done with
  | nil => simp [gather]
  | cons p ps ih =>
    have hp : insertEntry f done p.1 p.2 = done.push p := by rw [insertEntry, if_pos hf]
    have hi := ih (done.push p)
    rw [gather] at hi ⊢
    rw [List.foldl_cons, hp, hi]
    simp

theorem insertEntry_of_unrepeated {done : Array (Item × Item)} {p : Item × Item}
    (h : ∀ e ∈ done, (e.1 == p.1) = false) : insertEntry f done p.1 p.2 = done.push p := by
  cases hf : f.contains .mapAsArray with
  | true => rw [insertEntry, if_pos hf]
  | false => exact insertEntry_of_new hf h p.2

theorem gather_of_unrepeated {done : Array (Item × Item)} {ps : List (Item × Item)}
    (h : Unrepeated (done.toList ++ ps)) : gather f done ps = done ++ ps := by
  induction ps generalizing done with
  | nil => simp [gather]
  | cons p ps ih =>
    have hp : insertEntry f done p.1 p.2 = done.push p := by
      refine insertEntry_of_unrepeated fun e he ↦ ?_
      exact (List.pairwise_append.1 h).2.2 e (Array.mem_toList_iff.2 he) p List.mem_cons_self
    have hps : Unrepeated ((done.push p).toList ++ ps) := by simpa using h
    have hi := ih hps
    rw [gather] at hi ⊢
    rw [List.foldl_cons, hp, hi]
    simp

end

/-- A key that is there keeps its place and takes the new value. -/
def put (b : Octets) (value : Item) : List (Octets × Item) → List (Octets × Item)
  | [] => [(b, value)]
  | e :: es => if e.1 = b then (b, value) :: es else e :: put b value es

theorem keys_put (b : Octets) (value : Item) (es : List (Octets × Item)) :
    (put b value es).map Prod.fst =
      if b ∈ es.map Prod.fst then es.map Prod.fst else es.map Prod.fst ++ [b] := by
  induction es with
  | nil => simp [put]
  | cons e es ih =>
    rw [put]
    split
    · rename_i he
      simp [he]
    · rename_i he
      simp only [List.map_cons, ih, List.mem_cons, Ne.symm he, false_or]
      split <;> rfl

theorem lookup_cons (c : Octets) (e : Octets × Item) (es : List (Octets × Item)) :
    (e :: es).lookup c = if c = e.1 then some e.2 else es.lookup c := by
  by_cases hc : c = e.1
  · rw [hc, if_pos rfl]
    exact List.lookup_cons_self
  · rw [if_neg hc, List.lookup_cons, beq_eq_false_iff_ne.2 hc]

theorem lookup_put (b : Octets) (value : Item) (es : List (Octets × Item)) (c : Octets) :
    (put b value es).lookup c = if c = b then some value else es.lookup c := by
  induction es with
  | nil => exact lookup_cons ..
  | cons e es ih =>
    rw [put, lookup_cons]
    split
    · rename_i he
      rw [lookup_cons, he]
      split <;> rfl
    · rename_i he
      rw [lookup_cons, ih]
      split
      · rename_i hc
        rw [hc, if_neg he]
      · rfl

theorem named_beq (e : Octets × Item) (b : Octets) :
    ((named e).1 == string b) = decide (e.1 = b) := rfl

theorem insertEntry_named {f : Flags} (hf : f.contains .mapAsArray = false) (b : Octets)
    (value : Item) {es : List (Octets × Item)} (hd : (es.map Prod.fst).Nodup) :
    insertEntry f (es.map named).toArray (string b) value =
      ((put b value es).map named).toArray := by
  have hl : (lastPlace? (string b) (es.map named)).elim (es.map named ++ [named (b, value)])
      (fun i ↦ (es.map named).modify i fun e ↦ (e.1, value)) = (put b value es).map named := by
    induction es with
    | nil => rfl
    | cons e es ih =>
      obtain ⟨hnew, hd⟩ := List.nodup_cons.1 hd
      rw [put, List.map_cons, lastPlace?, named_beq]
      by_cases he : e.1 = b
      · subst he
        have hes : lastPlace? (string e.1) (es.map named) = none := by
          refine lastPlace?_eq_none_iff.2 fun p hp ↦ ?_
          obtain ⟨q, hq, rfl⟩ := List.mem_map.1 hp
          exact decide_eq_false fun h ↦ hnew (h ▸ List.mem_map_of_mem hq)
        simp [hes, named]
      · rw [if_neg he, List.map_cons, ← ih hd]
        cases lastPlace? (string b) (es.map named) <;> simp [he]
  rw [insertEntry, hf, if_neg Bool.false_ne_true, ← hl]
  cases lastPlace? (string b) (es.map named) with
  | none => exact List.push_toArray ..
  | some i => exact List.modify_toArray

namespace Merges

theorem nil : Merges [] [] := ⟨rfl, List.nodup_nil, fun _ ↦ rfl⟩

theorem push {ps es : List (Octets × Item)} (h : Merges ps es) (b : Octets) (value : Item) :
    Merges (ps ++ [(b, value)]) (put b value es) := by
  have hmem : b ∈ es.map Prod.fst ↔ b ∈ ps.map Prod.fst := by rw [h.keys, List.mem_eraseDups]
  refine ⟨?_, ?_, fun c ↦ ?_⟩
  · rw [keys_put, List.map_append, List.eraseDups_append, ← h.keys]
    by_cases hb : b ∈ ps.map Prod.fst
    · simp [hmem, hb, List.removeAll]
    · simp [hmem, hb, List.removeAll, List.eraseDups_cons]
  · rw [keys_put]
    split
    · exact h.distinct
    · rename_i hb
      exact List.nodup_append.2 ⟨h.distinct, by simp, by grind⟩
  · rw [lookup_put, h.values, List.reverse_append, List.reverse_singleton, List.singleton_append,
      lookup_cons]

end Merges

theorem exists_gather_named {f : Flags} (hf : f.contains .mapAsArray = false)
    (ps : List (Octets × Item)) :
    ∃ es, gather f #[] (ps.map named) = (es.map named).toArray ∧ Merges ps es := by
  induction ps using List.reverseRecOn with
  | nil => exact ⟨[], rfl, .nil⟩
  | append_singleton ps p ih =>
    obtain ⟨es, he, hm⟩ := ih
    refine ⟨put p.1 p.2 es, ?_, hm.push p.1 p.2⟩
    rw [gather] at he ⊢
    rw [List.map_append, List.foldl_append, he]
    exact insertEntry_named hf p.1 p.2 hm.distinct

end Cbor.Item
