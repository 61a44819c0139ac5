import Cbor.Proofs.Assembly.Outline
import Cbor.Proofs.Diagnostic.Grammar
import Cbor.Proofs.Wire.Decode

namespace Cbor

open Decoder (Options Product)
open Diagnostic (Outline Transcript)

variable {o : Options}

/-- A transcript takes the lexemes that its outline takes. -/
theorem fst_assemble_diagnostic (t : Transcript) (ls : List Lexeme) :
    (fun r ↦ r.1.map Prod.snd) <$> (Product.diagnostic t).assemble o ls =
      Prod.fst <$> t.outline.pushAll o.maxDepth ls := by
  induction ls generalizing t with
  | nil => rfl
  | cons l ls ih =>
    rw [Outline.pushAll_cons, ← t.outline_push o l]
    rcases hp : t.push o l with ⟨_ | _ | _, u⟩
    · rw [Product.assemble_of_error (by rw [Product.push, hp])]
      rfl
    · rw [Product.assemble_of_none (q := .diagnostic u) (by rw [Product.push, hp]), ih]
      rfl
    · rw [Product.assemble_of_item (by rw [Product.push, hp])]
      rfl

theorem exists_pushAll_of_assemble {a b : Assembly} {ls behind : List Lexeme} {item : Item}
    (h : a.assemble o ls = .ok (some (item, behind), b)) :
    ∃ u, a.outline.pushAll o.maxDepth ls = .ok (some behind, u) := by
  induction ls generalizing a with
  | nil => cases h
  | cons l ls ih =>
    rw [Assembly.assemble_cons] at h
    obtain ⟨⟨found, c⟩, hl, h⟩ := bind_eq_ok.1 h
    obtain ⟨⟨done, u⟩, hu, hd, hn⟩ := Assembly.exists_outline_push hl
    rw [Outline.pushAll_cons, hu, ok_bind]
    cases found with
    | some found =>
      cases h
      obtain rfl : done = true := hd
      exact ⟨u, rfl⟩
    | none =>
      obtain rfl : done = false := hd
      obtain rfl : u = c.outline := hn rfl
      exact ih h

theorem exists_pushAll_of_start {ls behind : List Lexeme} {item : Item} {p : Product}
    (h : (Product.start o).assemble o ls = .ok (some (item, behind), p)) :
    ∃ u, Outline.pushAll o.maxDepth {} ls = .ok (some behind, u) := by
  unfold Product.start at h
  split at h
  case isTrue =>
    have ha := fst_assemble_diagnostic (o := o) {} ls
    rw [h, show Transcript.outline {} = {} from rfl] at ha
    obtain ⟨⟨_, u⟩, hp, rfl⟩ := map_eq_ok.1 ha.symm
    exact ⟨u, hp⟩
  case isFalse =>
    rw [Product.assemble_items] at h
    obtain ⟨⟨_, b⟩, ha, h⟩ := map_eq_ok.1 h
    cases h
    exact exists_pushAll_of_assemble ha

/-- At top level the lexemes of a tree are taken just if its levels find room. -/
theorem fst_pushAll_lexemes {w : Wire} (hw : w.octets.length < UInt64.size) (maxDepth : Nat) :
    Prod.fst <$> Outline.pushAll maxDepth {} w.lexemes =
      if w.nesting ≤ maxDepth then .ok (some []) else .error .depth := by
  have hp := Outline.pushAll_lexemes w hw [] (by simp [Outline.Outside]) 0 maxDepth.zero_le []
  rw [List.append_nil, Outline.checkRoom, Nat.zero_add] at hp
  rw [hp]
  split <;> rfl

theorem exists_of_assemble {ls : List Lexeme} {b : Octets} {item : Item} {p : Product}
    (hb : Wire.Spelling ls b) (hs : b.length < UInt64.size)
    (h : (Product.start o).assemble o ls = .ok (some (item, []), p)) :
    ∃ w : Wire, ls = w.lexemes ∧ w.nesting ≤ o.maxDepth := by
  obtain ⟨u, hp⟩ := exists_pushAll_of_start h
  obtain ⟨w, rfl⟩ : ∃ w : Wire, [] ++ ls = w.lexemes := Outline.exists_of_pushAll .top hb hp
  refine ⟨w, rfl, ?_⟩
  have hn := fst_pushAll_lexemes (Nat.lt_of_le_of_lt hb.length_spell_le hs) o.maxDepth
  rw [hp] at hn
  split at hn
  case isTrue hle => exact hle
  case isFalse => cases hn

theorem exists_of_run {b : Octets} (hs : b.length < UInt64.size) {v : Item} {p : Product}
    (h : Decoder.run o (.start o) false b = .ready v [] p) :
    ∃ w : Wire, w.Spelled b ∧ (w.unprefixed o).nesting ≤ o.maxDepth := by
  obtain ⟨ls, used, hw, hb, hls⟩ := Decoder.spelling_of_run h
  rw [List.append_nil] at hw
  subst hw
  rw [Product.isEmpty_start] at hls
  rcases hls with ⟨hk, ha⟩ | ⟨l, ls, rfl, hk, ha⟩
  · obtain ⟨w, rfl, hn⟩ := exists_of_assemble hb hs ha
    refine ⟨w, hb, ?_⟩
    rcases Wire.skips_or_unprefixed o w with ⟨hu, hk'⟩ | ⟨hu, -⟩
    · rw [hu] at hk
      exact absurd ((hk _ rfl).symm.trans hk') Bool.false_ne_true
    · exact hu ▸ hn
  · -- the tag that is skipped is a part of the tree as well
    obtain ⟨rfl, hf⟩ : l = .tag Tag.selfDescribe ∧ o.flags.contains .selfDescribe = false := by
      simpa [Decoder.skips] using hk
    cases hb with
    | @cons _ _ first rest hl hb' =>
      have hrest : rest.length < UInt64.size := by
        rw [List.length_append] at hs
        omega
      obtain ⟨w, rfl, hn⟩ := exists_of_assemble hb' hrest ha
      refine ⟨.tag Tag.selfDescribe w, .cons hl hb', ?_⟩
      rwa [Wire.unprefixed, if_pos ⟨rfl, hf⟩]

theorem exists_of_decode {data : Octets} {v : Item} (hm : o.maxSize < UInt64.size)
    (h : decode data o = .ok v) :
    ∃ w : Wire, w.Spelled (data.window o.offset o.length) ∧
      (w.unprefixed o).nesting ≤ o.maxDepth := by
  obtain ⟨p, hr⟩ := run_of_decode h
  exact exists_of_run (Nat.lt_of_le_of_lt (length_le_of_decode h) hm) hr

end Cbor
