import Cbor.Proofs.Wire.Spelling

namespace Cbor

inductive Datum where
  | scalar (a : Scalar)
  | simple (n : UInt8)
  | string (isText : Bool) (chunks : List Octets)
  | array (items : List Datum)
  | map (entries : List (Datum × Datum))
  | tag (number : UInt64) (content : Datum)

namespace Datum

mutual

def nesting : Datum → Nat
  | array items => nestingAll items + 1
  | map entries => nestingEntries entries + 1
  | tag _ content => nesting content + 1
  | _ => 0

def nestingAll : List Datum → Nat
  | [] => 0
  | t :: ts => max (nesting t) (nestingAll ts)

def nestingEntries : List (Datum × Datum) → Nat
  | [] => 0
  | (k, v) :: es => max (max (nesting k) (nesting v)) (nestingEntries es)

end

end Datum

namespace Wire

mutual

def datum : Wire → Datum
  | scalar a => .scalar a
  | simple n _ => .simple n
  | string isText b => .string isText [b]
  | chunks isText parts => .string isText parts
  | array _ items => .array (datumAll items)
  | map _ entries => .map (datumEntries entries)
  | tag number content => .tag number (datum content)

def datumAll : List Wire → List Datum
  | [] => []
  | w :: ws => datum w :: datumAll ws

def datumEntries : List (Wire × Wire) → List (Datum × Datum)
  | [] => []
  | (k, v) :: es => (datum k, datum v) :: datumEntries es

end

def nesting (w : Wire) : Nat := w.datum.nesting

end Wire

/-- `b` is a serialization of `t`. -/
def Datum.Serialized (t : Datum) (b : Octets) : Prop := ∃ w : Wire, w.datum = t ∧ w.Spelled b

theorem Wire.serialized_octets (w : Wire) (h : w.octets.length < UInt64.size) :
    w.datum.Serialized w.octets :=
  ⟨w, rfl, .of_fits (fits_of_mem w (Nat.le_refl _)) h⟩

end Cbor
