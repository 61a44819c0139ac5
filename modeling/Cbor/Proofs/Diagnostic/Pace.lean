import Cbor.Proofs.Assembly.Outline
import Cbor.Proofs.Diagnostic.Layout
import Cbor.Proofs.Diagnostic.Rendering
import Cbor.Proofs.Wire.Decode

namespace Cbor

open Decoder (Options Product run run_of_error run_of_ready run_asNotation)
open Diagnostic (Outline Transcript)

namespace Assembly

variable {o : Options} {stack : List Frame} {s : Scope} {item : Item} {r : Option Item × Assembly}

theorem outline_of_completes (h : Completes o stack s item r) (hr : r.1.isSome) :
    r.2.outline = {} := by
  induction h with
  | top => rfl
  | element | key | value => cases hr
  | lastElement _ _ _ ih | lastValue _ _ ih | tag _ _ ih => exact ih hr

theorem outline_of_push {a b : Assembly} {l : Lexeme} (h : a.push o l = .ok (some item, b)) :
    b.outline = {} := by
  cases pushes_of_push h with
  | scalar h | string _ _ h | closeString h | emptyArray _ h | closeArray h | emptyMap _ h
  | closeMap h => exact outline_of_completes h rfl

/-- The same containers are open, and the transcript counts a level for each of them. -/
structure Abreast (o : Options) (a : Assembly) (t : Transcript) : Prop where
  outline : t.outline = a.outline
  laid : Transcript.Laid o.edn t

namespace Abreast

variable {a b : Assembly} {t : Transcript}

theorem start (o : Options) : Abreast o {} {} := ⟨rfl, .nil⟩

theorem depth_eq (h : Abreast o a t) : t.page.depth = a.scope.depth :=
  congrArg Outline.depth h.outline

theorem isEmpty_eq (h : Abreast o a t) : t.stack.isEmpty = a.stack.isEmpty := by
  have hstack : t.stack.map Diagnostic.Bracket.slot = a.stack.map Frame.slot :=
    congrArg Outline.stack h.outline
  rw [← List.isEmpty_map, hstack, List.isEmpty_map]

theorem push (h : Abreast o a t) {l : Lexeme} {found : Option Item}
    (hp : a.push o l = .ok (found, b)) :
    ∃ shown u, Product.push o (.diagnostic t) l = .ok (shown, .diagnostic u) ∧
      shown.isSome = found.isSome ∧ Abreast o b u := by
  obtain ⟨v, hv, hdone, hopen⟩ := exists_outline_push hp
  have hout := Transcript.outline_push o t l
  have hrests := Transcript.rests_push h.laid l
  rw [h.outline, hv] at hout
  rw [Product.push]
  rcases hw : t.push o l with ⟨_ | done, u⟩
  · rw [hw] at hout
    cases hout
  rw [hw] at hout hrests
  cases hout
  cases found with
  | none =>
    obtain rfl : done = false := hdone
    exact ⟨none, u, rfl, rfl, hopen rfl, (hrests false rfl).1⟩
  | some item =>
    obtain rfl : done = true := hdone
    obtain ⟨out, rfl⟩ := Transcript.exists_of_push h.laid hw
    exact ⟨_, {}, rfl, rfl, (outline_of_push hp).symm, .nil⟩

end Abreast
end Assembly

namespace Decoder

open Assembly (Abreast)

def Product.depth : Product → Nat
  | items a => a.scope.depth
  | diagnostic t => t.page.depth

/-- What shows of a product behind a lexeme: whether that completed a top-level item, whether a
container is open, and the nesting. -/
structure Progress where
  complete : Bool
  isEmpty : Bool
  depth : Nat
  deriving DecidableEq, Repr

def Product.progress (o : Options) (p : Product) : List Lexeme → Except Fault (List Progress)
  | [] => .ok []
  | l :: ls => do
    let (item, p) ← p.push o l
    return ⟨item.isSome, p.isEmpty, p.depth⟩ :: (← progress o p ls)

variable {o : Options} {a : Assembly} {t : Transcript}

theorem progress_of_abreast (h : Abreast o a t) (ls : List Lexeme) :
    Implies ((Product.items a).progress o ls) ((Product.diagnostic t).progress o ls) := by
  induction ls generalizing a t with
  | nil => exact .refl _
  | cons l ls ih =>
    intro trail htrail
    obtain ⟨_, hp, htrail⟩ := bind_eq_ok.1 htrail
    obtain ⟨rest, hrest, htrail⟩ := bind_eq_ok.1 htrail
    obtain ⟨⟨found, b⟩, hpush, hp⟩ := bind_eq_ok.1 hp
    cases hp
    cases htrail
    obtain ⟨shown, u, hu, hshown, hb⟩ := h.push hpush
    refine bind_eq_ok.2 ⟨_, hu, bind_eq_ok.2 ⟨rest, ih hb rest hrest, ?_⟩⟩
    simp only [Product.isEmpty, Product.depth, hshown, hb.isEmpty_eq, hb.depth_eq]
    rfl

/-- A run that makes an item ready makes a text ready of the same octets. -/
theorem exists_run_asNotation (h : Abreast o a t) {stripped : Bool} {b rest : Octets} {item : Item}
    {p : Product} (hr : run o (.items a) stripped b = .ready item rest p) :
    ∃ text q, run o.asNotation (.diagnostic t) stripped b = .ready text rest q := by
  generalize hp : Product.items a = p' at hr
  fun_induction run o p' stripped b generalizing a t with
  | case1 | case2 | case3 | case5 => cases hr
  | case4 p stripped b l rest' hread hs ih =>
    subst hp
    rw [run_asNotation hread, h.isEmpty_eq]
    exact (if_pos hs).symm ▸ ih h rfl hr
  | case6 p stripped b l rest' hread hs found q hq =>
    subst hp
    cases hr
    obtain ⟨⟨_, a'⟩, hl, hq⟩ := bind_eq_ok.1 hq
    cases hq
    obtain ⟨shown, u, hu, hshown, _⟩ := h.push hl
    obtain ⟨text, rfl⟩ := Option.isSome_iff_exists.1 hshown
    rw [run_asNotation hread, h.isEmpty_eq, hu]
    exact ⟨text, _, if_neg hs⟩
  | case7 p stripped b l rest' hread hs q hq ih =>
    subst hp
    obtain ⟨⟨_, a'⟩, hl, hq⟩ := bind_eq_ok.1 hq
    cases hq
    obtain ⟨shown, u, hu, hshown, hb⟩ := h.push hl
    obtain rfl := Option.isNone_iff_eq_none.1 (Option.isSome_eq_false_iff.1 hshown)
    rw [run_asNotation hread, h.isEmpty_eq, hu]
    exact (if_neg hs).symm ▸ ih hb rfl hr

theorem exists_decode_asNotation {data : Octets} {v : Item} (hf : o.flags.contains .edn = false)
    (he : o.edn.check = .ok ()) (h : decode data o = .ok v) :
    ∃ text, decode data o.asNotation = .ok text := by
  have hs := length_le_of_decode h
  have hstart : Product.start o = .items {} := if_neg (Bool.eq_false_iff.1 hf)
  obtain ⟨p, hp⟩ := run_of_decode h
  rw [decode_eq rfl hs] at h
  obtain ⟨_, hc, _⟩ := bind_eq_ok.1 h
  rw [hstart] at hp
  obtain ⟨text, q, hq⟩ := exists_run_asNotation (.start o) hp
  have hinput : data.window o.asNotation.offset o.asNotation.length =
    data.window o.offset o.length := rfl
  rw [decode_eq hinput hs, Options.check_asNotation.2 ⟨hc, he⟩, Product.start_asNotation, ok_bind,
    hq]
  exact ⟨text, rfl⟩

/-- What is assembled step by step can be written, with the same progress behind each lexeme. So
lexemes that cannot be written cannot be assembled, and what decodes to an item decodes to notation
too. -/
theorem progress_diagnostic (o : Options) :
    (∀ ls trail, (Product.items {}).progress o ls = .ok trail →
      (Product.diagnostic {}).progress o ls = .ok trail) ∧
    (∀ ls e, (Product.diagnostic {}).progress o ls = .error e →
      ∃ e', (Product.items {}).progress o ls = .error e') ∧
    ∀ data v, o.flags.contains .edn = false → o.edn.check = .ok () → decode data o = .ok v →
      ∃ text, decode data o.asNotation = .ok text := by
  have hpace (ls : List Lexeme) := progress_of_abreast (.start o) ls
  refine ⟨fun ls trail h ↦ hpace ls trail h, ?_, fun data v ↦ exists_decode_asNotation⟩
  intro ls e he
  cases h : (Product.items {}).progress o ls with
  | error e' => exact ⟨e', rfl⟩
  | ok trail => cases he.symm.trans (hpace ls trail h)

/-- A map of indefinite length, with a string in chunks for a key and a tagged array; and an array
that is closed too early. -/
theorem progress_diagnostic_nested :
    let ls : List Lexeme := [.map none, .bytesStart, .bytes [0x61], .stop, .tag 1000,
      .array (some 1), .null, .stop]
    let trail : List Progress := [⟨false, false, 1⟩, ⟨false, false, 1⟩, ⟨false, false, 1⟩,
      ⟨false, false, 1⟩, ⟨false, false, 2⟩, ⟨false, false, 3⟩, ⟨false, false, 1⟩, ⟨true, true, 0⟩]
    let data : Octets := [0x9F, 0x01, 0xA0, 0xFF]
    let v : Item := .array [.unsigned 1, .map []]
    (Product.items {}).progress {} ls = .ok trail ∧
      (Product.diagnostic {}).progress {} ls = .ok trail ∧
      (Product.diagnostic {}).progress {} [.array (some 2), .null, .stop] =
        .error (.grammar .breakUnexpected) ∧
      (∃ e', (Product.items {}).progress {} [.array (some 2), .null, .stop] = .error e') ∧
      Flags.standard.contains .edn = false ∧ Diagnostic.Style.check {} = .ok () ∧
      decode data {} = .ok v ∧ ∃ text, decode data (Options.asNotation {}) = .ok text := by
  intro ls trail data v
  have hd : decode data {} = .ok v :=
    (Wire.decode_octets (w := .array true [.scalar (.unsigned 1), .map false []]) rfl (by decide)
      (by decide) (by decide)).trans rfl
  obtain ⟨hwritten, hrefused, hdecoded⟩ := progress_diagnostic {}
  exact ⟨rfl, hwritten ls trail rfl, rfl, hrefused _ _ rfl, rfl, rfl, hd,
    hdecoded data v rfl rfl hd⟩

end Decoder
end Cbor
