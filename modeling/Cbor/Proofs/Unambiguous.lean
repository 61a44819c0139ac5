import Mathlib
import Cbor.Proofs.Decoder.Lexemes
import Cbor.Proofs.Diagnostic.Recovery

namespace Cbor.Decoder.Product

open Diagnostic (Transcript Reader.Reads Reader.item Reader.read)

variable {o : Options}

theorem reads_of_assemble {t : Transcript} {before ls : List Lexeme}
    (h : Transcript.Begun t.stack t.page.text before) (hl : ∀ l ∈ ls, l.isFloat = false)
    {text : Item} {p : Product} (ha : (diagnostic t).assemble o ls = .ok (some (text, []), p)) :
    ∃ s, text = .ofText s ∧ Reader.Reads Reader.item s (before ++ ls) := by
  induction ls generalizing t before with
  | nil => cases ha
  | cons l ls ih =>
    have hrecovers := Transcript.recovers_push (o := o) h (hl l List.mem_cons_self)
    obtain ⟨⟨item, q⟩, hpush, ha⟩ := bind_eq_ok.1 ha
    rw [push] at hpush
    split at hpush
    case h_1 => cases hpush
    case h_2 u hu =>
      cases hpush
      rw [hu] at hrecovers
      obtain ⟨s, hs, hreads⟩ := ih (hrecovers false rfl)
        (fun m hm ↦ hl m (List.mem_cons_of_mem _ hm)) ha
      rw [List.append_assoc] at hreads
      exact ⟨s, hs, hreads⟩
    case h_3 stack page hu =>
      cases hpush
      cases ha
      rw [hu] at hrecovers
      exact ⟨page.text, rfl, hrecovers true rfl⟩

/-- Reading takes the text of an item without floats for the lexemes that it was written for. -/
theorem read_of_assemble {ls : List Lexeme} (hl : ∀ l ∈ ls, l.isFloat = false) {text : Item}
    {p : Product} (ha : (diagnostic {}).assemble o ls = .ok (some (text, []), p)) :
    ∃ s, text = .ofText s ∧ Reader.read s = some ls := by
  obtain ⟨s, hs, hreads⟩ := reads_of_assemble (.item .top) hl ha
  exact ⟨s, hs, hreads.read_eq⟩

/-- The text tells the lexemes, whatever the options that it was written with. -/
theorem lexemes_eq_of_assemble {o' : Options} {ls ls' : List Lexeme} {text : Item} {p p' : Product}
    (hl : ∀ l ∈ ls, l.isFloat = false) (hl' : ∀ l ∈ ls', l.isFloat = false)
    (h : (diagnostic {}).assemble o ls = .ok (some (text, []), p))
    (h' : (diagnostic {}).assemble o' ls' = .ok (some (text, []), p')) : ls = ls' := by
  obtain ⟨s, rfl, hs⟩ := read_of_assemble hl h
  obtain ⟨s', htext, hs'⟩ := read_of_assemble hl' h'
  obtain rfl : s = s' := Utf8.encode_inj (Item.text.inj htext)
  exact Option.some.inj (hs.symm.trans hs')

/-- A map of indefinite length, with a text that is not valid and holds a control character, a byte
string on two lines and one of indefinite length. -/
theorem lexemes_eq_of_assemble_nested :
    let o : Options := { edn := { indent := .tab, byteSpace := 1, byteWrap := some 2 } }
    let o' : Options := { o with maxDepth := 3 }
    let ls : List Lexeme := [.tag 24, .map none, .text [0x61, 0xFF, 0x01, 0x22], .array (some 2),
      .negative 0, .bytes [1, 2, 3], .bytesStart, .bytes [], .stop, .null, .stop]
    let w : Wire := .tag 24 (.map true [(.string true [0x61, 0xFF, 0x01, 0x22],
      .array false [.scalar (.negative 0), .string false [1, 2, 3]]),
      (.chunks false [[]], .scalar .null)])
    let text := Item.ofText (
      "24(\x7b_\n\t\"a\" h'ff01' \"\\\"\": [\n\t\t-1,\n\t\th'01 02'\n\t\th'03'\n\t],".toList ++
      "\n\t(_\n\t\th''\n\t): null\n\x7d)".toList)
    (∀ l ∈ ls, l.isFloat = false) ∧ (∀ l ∈ w.lexemes, l.isFloat = false) ∧
      (diagnostic {}).assemble o ls = .ok (some (text, []), diagnostic {}) ∧
      (diagnostic {}).assemble o' w.lexemes = .ok (some (text, []), diagnostic {}) ∧
      ls = w.lexemes := by
  intro o o' ls w text
  have hl : ∀ l ∈ ls, l.isFloat = false := by decide
  have hw : ∀ l ∈ w.lexemes, l.isFloat = false := by decide
  have h : (diagnostic {}).assemble o ls = .ok (some (text, []), diagnostic {}) := by cbv
  have h' : (diagnostic {}).assemble o' w.lexemes = .ok (some (text, []), diagnostic {}) := by cbv
  exact ⟨hl, hw, h, h', lexemes_eq_of_assemble hl hw h h'⟩

end Cbor.Decoder.Product
