import Cbor.Proofs.Decoder.Pieces
import Cbor.Proofs.Wire.Decode

namespace Cbor

open Decoder (Options Product)

namespace Wire

variable {o : Options} {s s' : Scope} {raw : Item}

/-- Reading takes the octets of a tree for the item that the tree means, whatever follows. -/
theorem run_octets {w : Wire} (hs : w.octets.length ≤ o.maxSize) (hm : o.maxSize < UInt64.size)
    (h : w.meaning o false s = .ok (raw, s')) (hr : ∀ item, raw ≠ .tag Tag.selfDescribe item)
    (c : Octets) :
    Decoder.run o (.items ⟨[], s⟩) false (w.octets ++ c) =
      .ready (raw.native o.flags) c (.items ⟨[], s'.nextItem⟩) := by
  have hf := fits_of_mem w hs
  have hw : Spelling w.lexemes w.octets := Spelling.of_fits hf hm
  have ha := Assembly.assemble_lexemes (o := o) w (Nat.lt_of_le_of_lt hs hm) []
    (by simp [Assembly.Outside]) s []
  rw [List.append_nil, show Assembly.inShareable [] = false from rfl, h, ok_bind,
    Assembly.complete, ok_bind, Assembly.resume] at ha
  have hp : (Product.items ⟨[], s⟩).assemble o w.lexemes =
      .ok (some (raw.native o.flags, []), .items ⟨[], s'.nextItem⟩) := by
    rw [Product.assemble_items, ha]
    rfl
  have hk : ∀ l ∈ w.lexemes.head?,
      Decoder.skips o false (Product.items ⟨[], s⟩).isEmpty l = false := by
    rcases skips_or_unprefixed o w with ⟨hu, -⟩ | ⟨-, hk⟩
    · rw [unprefixed_of_meaning h hr] at hu
      have hsize := congrArg sizeOf hu
      simp at hsize
    · exact hk
  cases Decoder.takes_of_spelling hw hf hm hk c with
  | failed ha' => cases hp.symm.trans ha'
  | begun ha' => cases hp.symm.trans ha'
  | ready ha' hd hrun =>
    cases hp.symm.trans ha'
    cases hd
    exact hrun

end Wire

namespace Decoder

def between (o : Options) (s : Scope) (b : Octets) : Decoder :=
  { options := o, buffer := b, product := .items ⟨[], s⟩ }

variable {o : Options} {s : Scope}

theorem drain_between {s' : Scope} {raw : Item} {w : Wire} (hs : w.octets.length ≤ o.maxSize)
    (hm : o.maxSize < UInt64.size) (h : w.meaning o false s = .ok (raw, s'))
    (hr : ∀ item, raw ≠ .tag Tag.selfDescribe item) (c : Octets) (taken : Array Item) :
    (between o s (w.octets ++ c)).drain taken =
      (between o s'.nextItem c).drain (taken.push (raw.native o.flags)) := by
  have hrun := Wire.run_octets hs hm h hr c
  rw [drain_eq, process_of_ready ⟨rfl, rfl⟩]
  simp only [between, hrun]
  rw [Array.push_eq_append]
  rfl

theorem drain_between_nil (taken : Array Item) :
    (between o s []).drain taken = (taken, .ok (), between o s []) := by
  rw [drain_eq, process_of_ready ⟨rfl, rfl⟩]
  simp only [between, run_of_needHeader (o := o) (b := []) rfl]

/-- What draining the whole input gives, feeding it in pieces gives. -/
theorem feedAll_of_drain (hv : o.flags.contains .edn = false) {pieces : List Octets}
    (hs : pieces.flatten.length ≤ o.maxSize) {items : Array Item} {d : Decoder}
    (h : (between o {} pieces.flatten).drain #[] = (items, .ok (), d)) :
    (start o).feedAll #[] pieces = (items, .ok (), d) := by
  have hstart : start o = between o {} [] := by
    rw [start, Product.start, if_neg (by simp [hv])]
    rfl
  have hready : (between o {} []).Ready := ⟨rfl, rfl⟩
  have hhalted : (between o {} []).process = (.ok false, between o {} []) := by
    rw [process_of_ready hready]
    simp only [between, run_of_needHeader (o := o) (b := []) rfl]
  have hall := feedAll_eq_feed hready hhalted #[] pieces (by simpa [between] using hs)
  rw [feed_eq_drain hready #[] (by simpa [between] using hs)] at hall
  have happ : (between o {} []).append pieces.flatten = between o {} pieces.flatten := rfl
  rw [happ, h] at hall
  obtain ⟨hitems, hok, hd⟩ := hall
  rw [hstart]
  exact Prod.ext hitems (Prod.ext hok (hd hok))

end Decoder
end Cbor
