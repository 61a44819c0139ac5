import Mathlib
import Cbor.Item.View
import Cbor.Proofs.Binary.Narrow
import Cbor.Proofs.Item.Native
import Cbor.Proofs.References

namespace Cbor

open Binary

theorem Item.double?_native (f : Flags) (i : Item) : (i.native f).double? = i.double? := by
  rcases i.native_cases f with h | ⟨isText, b, rfl, -, h⟩ | ⟨bits, rfl, h⟩ | ⟨bits, rfl, h⟩ <;> rw [h]
  · cases isText <;> rfl
  · rfl
  · rfl

/-- Options of reading under which a lexeme that other options write alone is read. -/
structure ReadsScalars (o : Encoder.Options) (p : Decoder.Options) : Prop where
  check : p.check = .ok ()
  items : p.flags.contains .edn = false
  unannounced : o.flags.contains .selfDescribe = true → p.flags.contains .selfDescribe = false
  maxSize : p.maxSize < UInt64.size
  namespaces : o.stringRef = .on → p.stringRef = true ∧ 0 < p.maxDepth

theorem decode_scalar {o : Encoder.Options} {p : Decoder.Options} (h : ReadsScalars o p)
    {a : Scalar} {data : Octets}
    (hi : data.window p.offset p.length = o.preamble ++ a.lexeme.write)
    (hs : (o.preamble ++ a.lexeme.write).length ≤ p.maxSize) :
    decode data p = .ok (a.item.native p.flags) := by
  have hw : (((Wire.scalar a).referring o.stringRef).announced o).octets =
      o.preamble ++ a.lexeme.write := by
    rw [Wire.octets_announced, Wire.octets_referring, Wire.referred_scalar, Wire.octets_scalar,
      Encoder.Options.preamble, List.append_assoc]
  have hu : ((Wire.scalar a).referring o.stringRef).unprefixed p =
      (Wire.scalar a).referring o.stringRef := by
    cases o.stringRef <;> rfl
  rw [← hw] at hi hs
  rw [Wire.decode_octets hi hs h.maxSize h.items, h.check, ok_bind,
    Wire.unprefixed_announced h.unannounced hu]
  cases hmode : o.stringRef with
  | off | explicit => rfl
  | on =>
    obtain ⟨hr, hd⟩ := h.namespaces hmode
    exact (Functor.map_map _ _ _).symm.trans
      (congrArg (Item.native p.flags <$> ·) (Wire.fst_meaning_namespace hd hr (.scalar a)))

namespace Scalar

variable {x : UInt64}

theorem shortestFloat_of_isNaN (hx : double.isNaN x.toNat = true) :
    shortestFloat x = .float16 0x7E00 := if_pos hx

theorem shortestFloat_eq (hx : double.isNaN x.toNat = false) : shortestFloat x =
    if widenHalf (narrowHalf x) = x then .float16 (narrowHalf x)
    else if widenSingle (narrowSingle x) = x then .float32 (narrowSingle x)
    else .float64 x := by
  rw [shortestFloat, hx, if_neg Bool.false_ne_true]

theorem shortestFloat_of_half (hx : double.isNaN x.toNat = false) {h : UInt16}
    (hv : half.value? h.toNat = double.value? x.toNat) : shortestFloat x = .float16 h := by
  rw [shortestFloat_eq hx, if_pos ((widenHalf_narrowHalf_iff hx).2 ⟨h, hv⟩), narrowHalf_eq hx hv]

theorem shortestFloat_of_single (hx : double.isNaN x.toNat = false)
    (hno : ∀ h : UInt16, half.value? h.toNat ≠ double.value? x.toNat) {s : UInt32}
    (hv : single.value? s.toNat = double.value? x.toNat) : shortestFloat x = .float32 s := by
  rw [shortestFloat_eq hx, if_neg fun he ↦ ((widenHalf_narrowHalf_iff hx).1 he).elim hno,
    if_pos ((widenSingle_narrowSingle_iff hx).2 ⟨s, hv⟩), narrowSingle_eq hx hv]

theorem shortestFloat_of_double (hx : double.isNaN x.toNat = false)
    (hno : ∀ h : UInt16, half.value? h.toNat ≠ double.value? x.toNat)
    (hno' : ∀ s : UInt32, single.value? s.toNat ≠ double.value? x.toNat) :
    shortestFloat x = .float64 x := by
  rw [shortestFloat_eq hx, if_neg fun he ↦ ((widenHalf_narrowHalf_iff hx).1 he).elim hno,
    if_neg fun he ↦ ((widenSingle_narrowSingle_iff hx).1 he).elim hno']

theorem double?_shortestFloat (hx : double.isNaN x.toNat = false) :
    (shortestFloat x).item.double? = some x := by
  rw [shortestFloat_eq hx]
  split
  · exact congrArg some ‹_›
  split
  · exact congrArg some ‹_›
  · rfl

theorem nativeFloat_eq_shortestFloat {o : Encoder.Options} (h : o.flags.contains .cde = true ∨
    o.flags.contains .float16 = true ∧ o.flags.contains .float32 = true) (x : UInt64) :
    nativeFloat o x = shortestFloat x := by
  refine if_pos ?_
  rcases h with h | ⟨h, h'⟩ <;> simp [*]

end Scalar

open Encoder Scalar

theorem encode_float64 {o : Encoder.Options} (hc : o.check = .ok ())
    (hf : o.flags.contains .cde = true ∨
      o.flags.contains .float16 = true ∧ o.flags.contains .float32 = true) (x : UInt64) :
    encode (.float64 x) o = .ok (o.preamble ++ (shortestFloat x).lexeme.write) := by
  have ht : tree o false (.float64 x) 0 #[] = .ok (.scalar (nativeFloat o x), #[]) := rfl
  have hv : (Item.float64 x).NoStringRef := trivial
  rw [encode_scalar hv ht, hc, ok_bind, nativeFloat_eq_shortestFloat hf]

theorem encode_float32 {o : Encoder.Options} (hc : o.check = .ok ())
    (hf : o.flags.contains .cde = true) (s : UInt32) : encode (.float32 s) o =
      .ok (o.preamble ++ (shortestFloat (widenSingle s)).lexeme.write) := by
  have ht : tree o false (.float32 s) 0 #[] =
      .ok (.scalar (shortestFloat (widenSingle s)), #[]) := by
    rw [tree, if_pos hf]
  have hv : (Item.float32 s).NoStringRef := trivial
  rw [encode_scalar hv ht, hc, ok_bind]

/-- A double in the shortest form is the half of the same value, or else the single, or else itself,
and reading gives it back. Whether narrowing has lost anything may be told from the patterns or from
comparing numbers. A single of the same value is written with the same octets under deterministic
encoding. -/
theorem encode_shortest {o : Encoder.Options} (hc : o.check = .ok ())
    (hf : o.flags.contains .cde = true ∨
      o.flags.contains .float16 = true ∧ o.flags.contains .float32 = true) (x : UInt64) :
    (double.isNaN x.toNat = true → encode (.float64 x) o = .ok (o.preamble ++ [0xF9, 0x7E, 0])) ∧
    (double.isNaN x.toNat = false →
      (∀ h : UInt16, half.value? h.toNat = double.value? x.toNat →
        encode (.float64 x) o = .ok (o.preamble ++ 0xF9 :: Octets.ofNat 2 h.toNat)) ∧
      ((∀ h : UInt16, half.value? h.toNat ≠ double.value? x.toNat) →
        (∀ s : UInt32, single.value? s.toNat = double.value? x.toNat →
          encode (.float64 x) o = .ok (o.preamble ++ 0xFA :: Octets.ofNat 4 s.toNat)) ∧
        ((∀ s : UInt32, single.value? s.toNat ≠ double.value? x.toNat) →
          encode (.float64 x) o = .ok (o.preamble ++ 0xFB :: Octets.ofNat 8 x.toNat))) ∧
      (∀ (p : Decoder.Options) (b data : Octets), ReadsScalars o p →
        encode (.float64 x) o = .ok b → data.window p.offset p.length = b →
        b.length ≤ p.maxSize → ∃ i, decode data p = .ok i ∧ i.double? = some x) ∧
      (double.Equal (widenHalf (narrowHalf x)).toNat x.toNat ↔ widenHalf (narrowHalf x) = x) ∧
      (double.Equal (widenSingle (narrowSingle x)).toNat x.toNat ↔
        widenSingle (narrowSingle x) = x) ∧
      (o.flags.contains .cde = true →
        ∀ s : UInt32, single.value? s.toNat = double.value? x.toNat →
          encode (.float32 s) o = encode (.float64 x) o)) := by
  have he := encode_float64 hc hf x
  refine ⟨fun hx ↦ ?_, fun hx ↦ ⟨fun h hv ↦ ?_, fun hno ↦ ⟨fun s hv ↦ ?_, fun hno' ↦ ?_⟩,
    fun p b data hp hb hi hs ↦ ?_, equal_widenHalf_iff hx, equal_widenSingle_iff hx,
    fun hcde s hv ↦ ?_⟩⟩
  · rw [he, shortestFloat_of_isNaN hx]
    rfl
  · rw [he, shortestFloat_of_half hx hv]
    rfl
  · rw [he, shortestFloat_of_single hx hno hv]
    rfl
  · rw [he, shortestFloat_of_double hx hno hno']
    rfl
  · cases he.symm.trans hb
    refine ⟨_, decode_scalar hp hi hs, ?_⟩
    rw [Item.double?_native, double?_shortestFloat hx]
  · rw [he, encode_float32 hc hcde, widenSingle_eq hx hv]

/-- The least positive number that a half has, which is no subnormal in the wider formats. -/
theorem encode_shortest_least :
    let o : Encoder.Options := { flags := .standard ||| .cde }
    let x : UInt64 := 0x3E70000000000000
    double.isNaN x.toNat = false ∧ half.value? 1 = double.value? x.toNat ∧
      encode (.float64 x) o = .ok [0xF9, 0, 1] ∧
      (∃ i, decode [0xF9, 0, 1] {} = .ok i ∧ i.double? = some x) ∧
      encode (.float32 0x33800000) o = .ok [0xF9, 0, 1] := by
  intro o x
  have hc : o.check = .ok () := by decide
  have hcde : o.flags.contains .cde = true := by decide
  have hx : double.isNaN x.toNat = false := by decide
  have hhalf : half.value? (1 : UInt16).toNat = double.value? x.toNat :=
    (half_within_double.value?_convert (by decide)).symm.trans (congrArg _ (by decide))
  have hsingle : single.value? (0x33800000 : UInt32).toNat = double.value? x.toNat :=
    (single_within_double.value?_convert (by decide)).symm.trans (congrArg _ (by decide))
  obtain ⟨hnarrow, -, hread, -, -, hsame⟩ := (encode_shortest hc (.inl hcde) x).2 hx
  have he : encode (.float64 x) o = .ok [0xF9, 0, 1] := (hnarrow 1 hhalf).trans (by decide)
  refine ⟨hx, hhalf, he, hread {} _ [0xF9, 0, 1] ?_ he rfl (by decide), ?_⟩
  · exact ⟨rfl, by decide, fun h ↦ absurd h (by decide), by decide, fun h ↦ by cases h⟩
  · rw [hsame hcde _ hsingle, he]

end Cbor
