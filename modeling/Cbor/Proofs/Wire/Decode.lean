import Cbor.Proofs.Decoder.Lexemes
import Cbor.Proofs.Tag.Meaning

namespace Cbor

open Decoder (Options Product)

namespace Decoder

variable {o : Options}

def alone : Option (Item × List Lexeme) × Product → Except Fault Item
  | (none, _) => .error .truncatedData
  | (some (item, behind), _) => if behind.isEmpty then .ok item else .error .extraneousData

theorem single_run_of_spelling {ls : List Lexeme} {b : Octets} (hb : Wire.Spelling ls b)
    (hf : ∀ l ∈ ls, l.Fits o.maxSize) (hm : o.maxSize < UInt64.size) {p : Product}
    {stripped : Bool} (hs : ∀ l ∈ ls.head?, skips o stripped p.isEmpty l = false) :
    (run o p stripped b).outcome >>= single = p.assemble o ls >>= alone := by
  rw [← List.append_nil b]
  cases takes_of_spelling hb hf hm hs [] with
  | failed ha hr =>
    rw [ha, hr]
    rfl
  | ready ha hd hr =>
    rw [ha, hr]
    simp only [Halt.outcome, ok_bind, single, alone, List.append_nil, hd.isEmpty_eq]
  | begun ha hr =>
    rw [ha, hr, run_of_needHeader rfl]
    rfl

end Decoder

namespace Wire

variable {o : Options}

/-- The tree without a self-describe tag in front, unless that is to be kept. -/
def unprefixed (o : Options) (w : Wire) : Wire :=
  match w with
  | tag number content =>
    if number = Tag.selfDescribe ∧ o.flags.contains .selfDescribe = false then content else w
  | _ => w

theorem unprefixed_of_contains (h : o.flags.contains .selfDescribe = true) (w : Wire) :
    w.unprefixed o = w := by
  unfold unprefixed
  split
  · exact if_neg fun hn ↦ by simp [h] at hn
  · rfl

theorem unprefixed_tag {number : UInt64} (hn : number ≠ Tag.selfDescribe) (content : Wire) :
    (tag number content).unprefixed o = tag number content :=
  if_neg fun h ↦ hn h.1

theorem eq_tag_of_head? {w : Wire} {number : UInt64}
    (h : w.lexemes.head? = some (.tag number)) : ∃ content, w = tag number content := by
  cases w with
  | scalar a => cases a <;> cases h
  | string isText b => cases isText <;> cases h
  | chunks isText parts => cases isText <;> cases h
  | simple | array | map => cases h
  | tag n content =>
    cases h
    exact ⟨content, rfl⟩

theorem skips_or_unprefixed (o : Options) (w : Wire) :
    (w = tag Tag.selfDescribe (w.unprefixed o) ∧
      Decoder.skips o false true (.tag Tag.selfDescribe) = true) ∨
    (w = w.unprefixed o ∧ ∀ l ∈ w.lexemes.head?, Decoder.skips o false true l = false) := by
  by_cases hp : w.lexemes.head? = some (.tag Tag.selfDescribe) ∧
      o.flags.contains .selfDescribe = false
  · obtain ⟨content, rfl⟩ := eq_tag_of_head? hp.1
    have hu : (tag Tag.selfDescribe content).unprefixed o = content := if_pos ⟨rfl, hp.2⟩
    exact .inl ⟨by rw [hu], by simp [Decoder.skips, hp.2]⟩
  · refine .inr ⟨?_, fun l hl ↦ ?_⟩
    · unfold unprefixed
      split
      · exact (if_neg fun h ↦ hp ⟨by rw [h.1]; rfl, h.2⟩).symm
      · rfl
    · by_cases ht : l = .tag Tag.selfDescribe
      · have hf : o.flags.contains .selfDescribe ≠ false := fun hf ↦ hp ⟨ht ▸ hl, hf⟩
        simp [Decoder.skips, hf]
      · simp [Decoder.skips, ht]

theorem length_unprefixed_le (o : Options) (w : Wire) :
    (w.unprefixed o).octets.length ≤ w.octets.length := by
  rcases skips_or_unprefixed o w with ⟨hu, -⟩ | ⟨hu, -⟩
  · generalize w.unprefixed o = content at hu
    subst hu
    exact length_le_octets_tag ..
  · exact Nat.le_of_eq (congrArg (·.octets.length) hu.symm)

theorem exists_of_meaning_selfDescribe {content : Wire} {shared : Bool} {s s' : Scope} {raw : Item}
    (h : (tag Tag.selfDescribe content).meaning o shared s = .ok (raw, s')) :
    ∃ item, raw = .tag Tag.selfDescribe item := by
  simp only [meaning, bind_eq_ok, Assembly.openRole_unrelated (show Tag.selfDescribe ∉ _ by decide)]
    at h
  obtain ⟨_, _, _, hrole, _, _, h⟩ := h
  cases hrole
  simp only [Assembly.closeTag_plain, Assembly.tagged,
    Tag.interpret_eq_none (show Tag.selfDescribe ∉ _ by decide)] at h
  exact ⟨_, (Prod.mk.inj (Except.ok.inj h)).1.symm⟩

theorem unprefixed_of_meaning {w : Wire} {shared : Bool} {s s' : Scope} {raw : Item}
    (h : w.meaning o shared s = .ok (raw, s')) (hr : ∀ item, raw ≠ .tag Tag.selfDescribe item) :
    w.unprefixed o = w := by
  unfold unprefixed
  split
  · refine if_neg fun hn ↦ ?_
    obtain ⟨rfl, -⟩ := hn
    obtain ⟨item, hi⟩ := exists_of_meaning_selfDescribe h
    exact hr item hi
  · rfl

/-- Decoding takes the octets of any spelling of a tree for the lexemes of that tree. -/
theorem decode_spelled {w : Wire} {data : Octets}
    (hw : w.Spelled (data.window o.offset o.length))
    (hs : (data.window o.offset o.length).length ≤ o.maxSize) (hm : o.maxSize < UInt64.size) :
    decode data o = o.check >>= fun _ ↦
      (Product.start o).assemble o (w.unprefixed o).lexemes >>= Decoder.alone := by
  have hf := hw.fits hs
  have hempty := Product.isEmpty_start o
  rw [decode_eq rfl hs]
  congr 1
  funext
  generalize data.window o.offset o.length = b at hw
  rcases skips_or_unprefixed o w with ⟨hu, hk⟩ | ⟨hu, hk⟩
  · generalize w.unprefixed o = content at hu
    subst hu
    -- behind the tag that is skipped none is skipped again
    cases hw with
    | @cons _ _ first rest hl hls =>
      rw [Decoder.run_of_ready (Lexeme.read_of_form hl trivial hm rest), hempty, if_pos hk]
      refine Decoder.single_run_of_spelling hls (fun l hl ↦ hf l (List.mem_cons_of_mem _ hl)) hm ?_
      simp [Decoder.skips]
  · rw [← hu]
    exact Decoder.single_run_of_spelling hw hf hm (hempty ▸ hk)

/-- A decoder without diagnostic notation makes of a tree what the tree means. -/
theorem decode_meaning {w : Wire} {data : Octets}
    (hw : w.Spelled (data.window o.offset o.length))
    (hs : (data.window o.offset o.length).length ≤ o.maxSize) (hm : o.maxSize < UInt64.size)
    (hv : o.flags.contains .edn = false) :
    decode data o = o.check >>= fun _ ↦
      (fun r ↦ r.1.native o.flags) <$> (w.unprefixed o).meaning o false {} := by
  have hlen : (w.unprefixed o).octets.length < UInt64.size := by
    refine Nat.lt_of_le_of_lt ?_ (Nat.lt_of_le_of_lt hs hm)
    exact Nat.le_trans (length_unprefixed_le o w) hw.length_spell_le
  have ha :=
    Assembly.assemble_lexemes (o := o) (w.unprefixed o) hlen [] (by simp [Assembly.Outside]) {} []
  rw [List.append_nil, show Assembly.inShareable [] = false from rfl] at ha
  rw [decode_spelled hw hs hm, Product.start, if_neg (by simp [hv]), Product.assemble_items, ha]
  congr 1
  funext
  simp only [Assembly.complete, ok_bind, Assembly.resume]
  cases (w.unprefixed o).meaning o false {} <;> rfl

theorem decode_octets {w : Wire} {data : Octets} (hi : data.window o.offset o.length = w.octets)
    (hs : w.octets.length ≤ o.maxSize) (hm : o.maxSize < UInt64.size)
    (hv : o.flags.contains .edn = false) :
    decode data o = o.check >>= fun _ ↦
      (fun r ↦ r.1.native o.flags) <$> (w.unprefixed o).meaning o false {} := by
  have hw : w.Spelled w.octets := Spelling.of_fits (fits_of_mem w hs) hm
  rw [← hi] at hw hs
  exact decode_meaning hw hs hm hv

end Wire
end Cbor
