import Cbor.Proofs.Encoder.Tree
import Cbor.Proofs.Wire.Definite

namespace Cbor

namespace Scalar

/-- No shorter float has the same value. -/
def Shortest : Scalar → Prop
  | float32 bits => shortestFloat (Binary.widenSingle bits) = float32 bits
  | float64 bits => shortestFloat bits = float64 bits
  | _ => True

theorem widenSingle_of_shortestFloat {bits : UInt64} {single : UInt32}
    (h : shortestFloat bits = float32 single) : Binary.widenSingle single = bits := by
  simp only [shortestFloat] at h
  grind

theorem eq_of_shortestFloat {bits double : UInt64} (h : shortestFloat bits = float64 double) :
    double = bits := by
  simp only [shortestFloat] at h
  grind

theorem shortest_shortestFloat (bits : UInt64) : (shortestFloat bits).Shortest := by
  cases h : shortestFloat bits with
  | float32 single => rw [Shortest, widenSingle_of_shortestFloat h, h]
  | float64 double => rw [Shortest, eq_of_shortestFloat h, h, eq_of_shortestFloat h]
  | _ => trivial

end Scalar

namespace Wire

mutual

def Deterministic : Wire → Prop
  | scalar a => a.Shortest
  | chunks .. => False
  | array indefinite items => indefinite = false ∧ DeterministicAll items
  | map indefinite entries =>
    indefinite = false ∧ (entries.map fun e ↦ e.1.octets).Pairwise (· ≤ ·) ∧
      DeterministicEntries entries
  | tag _ content => Deterministic content
  | _ => True

def DeterministicAll : List Wire → Prop
  | [] => True
  | w :: ws => Deterministic w ∧ DeterministicAll ws

def DeterministicEntries : List (Wire × Wire) → Prop
  | [] => True
  | (k, w) :: es => Deterministic k ∧ Deterministic w ∧ DeterministicEntries es

end

mutual

theorem Deterministic.definite : (w : Wire) → w.Deterministic → w.definite = w
  | scalar _, _ | simple .., _ | string .., _ => rfl
  | array _ items, ⟨hi, h⟩ => by rw [Wire.definite, DeterministicAll.definite items h, hi]
  | map _ entries, ⟨hi, _, h⟩ => by
    rw [Wire.definite, DeterministicEntries.definite entries h, hi]
  | tag _ content, h => by rw [Wire.definite, Deterministic.definite content h]

theorem DeterministicAll.definite : (ws : List Wire) → DeterministicAll ws → definiteAll ws = ws
  | [], _ => rfl
  | w :: ws, ⟨hw, hws⟩ => by
    rw [definiteAll, Deterministic.definite w hw, DeterministicAll.definite ws hws]

theorem DeterministicEntries.definite : (es : List (Wire × Wire)) → DeterministicEntries es →
    definiteEntries es = es
  | [], _ => rfl
  | (k, w) :: es, ⟨hk, hw, hes⟩ => by
    rw [definiteEntries, Deterministic.definite k hk, Deterministic.definite w hw,
      DeterministicEntries.definite es hes]

end

/-- A deterministic tree of at most `room` levels, without simple values that have no item. -/
structure Settled (room : Nat) (w : Wire) : Prop where
  deterministic : w.Deterministic
  readable : ∃ v, w.datum.verbatim = .ok v
  nesting_le : w.nesting ≤ room

namespace Settled

variable {room : Nat}

theorem mono {room' : Nat} {w : Wire} (h : w.Settled room) (hr : room ≤ room') : w.Settled room' :=
  ⟨h.deterministic, h.readable, Nat.le_trans h.nesting_le hr⟩

theorem scalar {a : Scalar} (h : a.Shortest) : (Wire.scalar a).Settled room :=
  ⟨h, ⟨_, rfl⟩, Nat.zero_le _⟩

theorem string (isText : Bool) (b : Octets) : (Wire.string isText b).Settled room :=
  ⟨trivial, ⟨_, rfl⟩, Nat.zero_le _⟩

theorem array {ws : List Wire} (hr : 0 < room) (h : ∀ w ∈ ws, w.Settled (room - 1)) :
    (Wire.array false ws).Settled room := by
  have hall : DeterministicAll ws ∧ (∃ vs, Datum.verbatimAll (datumAll ws) = .ok vs) ∧
      Datum.nestingAll (datumAll ws) ≤ room - 1 := by
    induction ws with
    | nil => exact ⟨trivial, ⟨_, rfl⟩, Nat.zero_le _⟩
    | cons w ws ih =>
      obtain ⟨hd, ⟨v, hv⟩, hn⟩ := h w List.mem_cons_self
      obtain ⟨hds, ⟨vs, hvs⟩, hns⟩ := ih fun w hw ↦ h w (List.mem_cons_of_mem _ hw)
      refine ⟨⟨hd, hds⟩, ⟨v :: vs, ?_⟩, Nat.max_le.2 ⟨hn, hns⟩⟩
      rw [datumAll, Datum.verbatimAll, hv, hvs]
      rfl
  obtain ⟨hd, ⟨vs, hvs⟩, hn⟩ := hall
  refine ⟨⟨rfl, hd⟩, ⟨.array vs, ?_⟩, ?_⟩
  · rw [datum, Datum.verbatim, hvs, map_ok]
  · show Datum.nestingAll (datumAll ws) + 1 ≤ room
    omega

theorem map {es : List (Wire × Wire)} (hr : 0 < room)
    (hs : (es.map fun e ↦ e.1.octets).Pairwise (· ≤ ·))
    (h : ∀ e ∈ es, e.1.Settled (room - 1) ∧ e.2.Settled (room - 1)) :
    (Wire.map false es).Settled room := by
  have hall : DeterministicEntries es ∧
      (∃ vs, Datum.verbatimEntries (datumEntries es) = .ok vs) ∧
      Datum.nestingEntries (datumEntries es) ≤ room - 1 := by
    clear hs
    induction es with
    | nil => exact ⟨trivial, ⟨_, rfl⟩, Nat.zero_le _⟩
    | cons e es ih =>
      obtain ⟨⟨hdk, ⟨k, hk⟩, hnk⟩, hdv, ⟨v, hv⟩, hnv⟩ := h e List.mem_cons_self
      obtain ⟨hds, ⟨vs, hvs⟩, hns⟩ := ih fun e he ↦ h e (List.mem_cons_of_mem _ he)
      refine ⟨⟨hdk, hdv, hds⟩, ⟨(k, v) :: vs, ?_⟩, Nat.max_le.2 ⟨Nat.max_le.2 ⟨hnk, hnv⟩, hns⟩⟩
      rw [datumEntries, Datum.verbatimEntries, hk, hv, hvs]
      rfl
  obtain ⟨hd, ⟨vs, hvs⟩, hn⟩ := hall
  refine ⟨⟨rfl, hs, hd⟩, ⟨.map vs, ?_⟩, ?_⟩
  · rw [datum, Datum.verbatim, hvs, map_ok]
  · show Datum.nestingEntries (datumEntries es) + 1 ≤ room
    omega

theorem tag {w : Wire} (hr : 0 < room) (number : UInt64) (h : w.Settled (room - 1)) :
    (Wire.tag number w).Settled room := by
  obtain ⟨hd, ⟨v, hv⟩, hn⟩ := h
  refine ⟨hd, ⟨.tag number v, ?_⟩, ?_⟩
  · rw [datum, Datum.verbatim, hv, map_ok]
  · show w.nesting + 1 ≤ room
    omega

end Settled
end Wire
end Cbor
