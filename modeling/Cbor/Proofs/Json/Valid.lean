import Mathlib.Data.List.Perm.Basic
import Cbor.Binary.Format
import Cbor.Json.Basic

namespace Cbor.Json

def Rising (members : List (String × Json)) : Prop :=
  members.Pairwise fun m n ↦ m.1 < n.1

mutual

def nesting : Json → Nat
  | array items => nestingAll items + 1
  | object members => nestingMembers members + 1
  | _ => 0

def nestingAll : List Json → Nat
  | [] => 0
  | j :: js => max (nesting j) (nestingAll js)

def nestingMembers : List (String × Json) → Nat
  | [] => 0
  | (_, j) :: ms => max (nesting j) (nestingMembers ms)

end

mutual

/-- Integers have 64 bits, with or without sign, doubles are finite, and an object has each key
once. No key starts with U+0000. -/
def Valid : Json → Prop
  | number (.int n) => -9223372036854775808 ≤ n ∧ n < 18446744073709551616
  | number (.double bits) => Binary.double.isFinite bits.toNat = true
  | array items => ValidAll items
  | object members => Rising members ∧ ValidMembers members
  | _ => True

def ValidAll : List Json → Prop
  | [] => True
  | j :: js => Valid j ∧ ValidAll js

def ValidMembers : List (String × Json) → Prop
  | [] => True
  | (key, j) :: ms => key.toList.head? ≠ some (Char.ofNat 0) ∧ Valid j ∧ ValidMembers ms

end

theorem ValidMembers.head?_ne {ms : List (String × Json)} (h : ValidMembers ms) :
    ∀ m ∈ ms, m.1.toList.head? ≠ some (Char.ofNat 0) := by
  induction ms with
  | nil => nofun
  | cons m ms ih =>
    obtain ⟨hm, -, hms⟩ := h
    exact List.forall_mem_cons.2 ⟨hm, ih hms⟩

theorem lt_of_not_lt {k l : String} (h : ¬ k < l) (hne : k ≠ l) : l < k :=
  Classical.byContradiction fun hn ↦
    hne (String.le_antisymm (String.not_lt.1 hn) (String.not_lt.1 h))

variable {key : String} {ms : List (String × Json)}

theorem insertMember_perm (j : Json) (h : ∀ m ∈ ms, key ≠ m.1) :
    (insertMember key j ms).Perm ((key, j) :: ms) := by
  induction ms with
  | nil => exact .refl _
  | cons m ms ih =>
    obtain ⟨hm, hms⟩ := List.forall_mem_cons.1 h
    rw [insertMember, if_neg hm]
    split
    · exact .refl _
    · exact ((ih hms).cons m).trans (.swap ..)

theorem rising_insertMember (j : Json) (h : ∀ m ∈ ms, key ≠ m.1) (hr : Rising ms) :
    Rising (insertMember key j ms) := by
  induction ms with
  | nil => exact List.pairwise_singleton _ _
  | cons m ms ih =>
    obtain ⟨hm, hms⟩ := List.forall_mem_cons.1 h
    obtain ⟨hlt, hr⟩ := List.pairwise_cons.1 hr
    rw [insertMember, if_neg hm]
    split
    case isTrue hk =>
      refine List.pairwise_cons.2 ⟨List.forall_mem_cons.2 ⟨hk, fun n hn ↦ ?_⟩,
        List.pairwise_cons.2 ⟨hlt, hr⟩⟩
      exact String.lt_trans hk (hlt n hn)
    case isFalse hk =>
      refine List.pairwise_cons.2 ⟨fun n hn ↦ ?_, ih hms hr⟩
      rcases List.mem_cons.1 ((insertMember_perm j hms).mem_iff.1 hn) with rfl | hn
      · exact lt_of_not_lt hk hm
      · exact hlt n hn

theorem Rising.ne (h : Rising ms) : ms.Pairwise fun m n ↦ m.1 ≠ n.1 :=
  List.Pairwise.imp (fun {m n} hlt (he : m.1 = n.1) ↦ String.lt_irrefl n.1 (he ▸ hlt)) h

theorem foldl_insertMember {done : List (String × Json)} (hd : Rising done)
    (hn : (done ++ ms).Pairwise fun m n ↦ m.1 ≠ n.1) :
    Rising (ms.foldl (fun ms (k, v) ↦ insertMember k v ms) done) ∧
      (ms.foldl (fun ms (k, v) ↦ insertMember k v ms) done).Perm (done ++ ms) := by
  induction ms generalizing done with
  | nil => exact ⟨hd, by simp⟩
  | cons m ms ih =>
    have hfresh : ∀ n ∈ done, m.1 ≠ n.1 := fun n hn' ↦
      ((List.pairwise_append.1 hn).2.2 n hn' m List.mem_cons_self).symm
    have hp : (insertMember m.1 m.2 done ++ ms).Perm (done ++ m :: ms) :=
      ((insertMember_perm m.2 hfresh).append_right ms).trans List.perm_middle.symm
    obtain ⟨hr, hp'⟩ := ih (rising_insertMember m.2 hfresh hd)
      ((hp.pairwise_iff fun h ↦ h.symm).2 hn)
    exact ⟨hr, hp'.trans hp⟩

theorem ofMembers_of_perm {ms' : List (String × Json)} (hp : ms'.Perm ms) (hr : Rising ms) :
    ofMembers ms' = object ms := by
  have hne : ms'.Pairwise fun m n ↦ m.1 ≠ n.1 := (hp.pairwise_iff fun h ↦ h.symm).2 hr.ne
  obtain ⟨hr', hp'⟩ := foldl_insertMember (.nil : Rising []) hne
  rw [ofMembers, (hp'.trans hp).eq_of_pairwise (fun m n _ _ h h' ↦ ?_) hr' hr]
  exact absurd h' (String.lt_asymm h)

end Cbor.Json
