import Cbor.Proofs.Diagnostic.Grammar
import Cbor.Proofs.Diagnostic.Readback

namespace Cbor

def Lexeme.isFloat : Lexeme → Bool
  | float16 _ | float32 _ | float64 _ => true
  | _ => false

namespace Diagnostic

open Assembly (countDown?)
open Outline (Remains remains_zero)
open Reader

namespace Page

variable (st : Style) (p : Page)

def text : List Char := p.out.toList

@[simp] theorem text_write (s : List Char) : (p.write s).text = p.text ++ s :=
  Array.toList_appendList

@[simp] theorem text_leave : p.leave.text = p.text := rfl

theorem exists_lineBreak (space : Bool) :
    ∃ gap, Blank gap ∧ (p.lineBreak st space).text = p.text ++ gap :=
  ⟨_, blank_lineBreak st p.width space, text_write p _⟩

theorem exists_indent (space : Bool) :
    ∃ gap, Blank gap ∧ (p.indent st space).text = p.text ++ gap :=
  exists_lineBreak st _ space

theorem exists_outdent : ∃ gap, Blank gap ∧ (p.outdent st).text = p.text ++ gap :=
  exists_lineBreak st _ false

theorem exists_space : ∃ gap, Blank gap ∧ (p.space st).text = p.text ++ gap := by
  unfold space
  split
  · exact ⟨[' '], List.forall_mem_singleton.2 rfl, text_write p _⟩
  · exact ⟨[], blank_nil, (List.append_nil _).symm⟩

theorem text_trimSeparators {t s : List Char} (ht : Shut t) (hs : ∀ c ∈ s, c ∈ ',' :: blanks)
    (h : p.text = t ++ s) : p.trimSeparators.text = t := by
  obtain ⟨u, c, rfl, hc⟩ := ht
  let sep (c : Char) : Bool := c = ' ' || c = '\t' || c = '\n' || c = ','
  have hsep (c : Char) : sep c = true ↔ c ∈ ',' :: blanks := by
    simp only [sep, blanks, List.mem_cons, List.not_mem_nil, or_false, Bool.or_eq_true,
      decide_eq_true_eq]
    rw [or_comm, or_assoc]
  have hdrop : (s.reverse ++ c :: u.reverse).dropWhile sep = c :: u.reverse := by
    rw [List.dropWhile_append_of_pos fun d hd ↦ (hsep d).2 (hs d (List.mem_reverse.1 hd)),
      List.dropWhile_cons_of_neg fun h ↦ hc ((hsep c).1 h)]
  have hout : p.out = (u ++ [c] ++ s).toArray := by
    rw [← h]
    rfl
  have htext : p.trimSeparators.text = (p.out.popWhile sep).toList := rfl
  rw [htext, hout, List.popWhile_toArray, List.reverse_append, List.reverse_append,
    List.reverse_singleton, List.singleton_append, hdrop, List.reverse_cons, List.reverse_reverse]

end Page

namespace Transcript

/-- The lexemes `ls` begin an item, and `text` is what has been written of it. The open brackets are
those of containers and tags, the innermost first. -/
inductive Pending : (stack : List Bracket) → (text : List Char) → (ls : List Lexeme) → Prop
  | top : Pending [] [] []
  | array {stack : List Bracket} {text gap row : List Char} {ls : List Lexeme}
    {count : Option UInt64} {remaining : Option Nat} {items : List (List Lexeme)} {appended : Bool}
    (h : Pending stack text ls) (hr : Remains count items.length remaining) (hg : Blank gap)
    (hrow : Row item row items) (ha : appended = !items.isEmpty) :
    Pending (.array remaining appended :: stack)
      (text ++ '[' :: (mark count.isNone ++ (gap ++ row))) (ls ++ .array count :: items.flatten)
  | key {stack : List Bracket} {text gap row : List Char} {ls : List Lexeme}
    {count : Option UInt64} {remaining : Option Nat} {entries : List (List Lexeme)}
    {appended : Bool} (h : Pending stack text ls) (hr : Remains count entries.length remaining)
    (hg : Blank gap) (hrow : Row (fun n ↦ entry (item n)) row entries)
    (ha : appended = !entries.isEmpty) :
    Pending (.map remaining appended true :: stack)
      (text ++ '\x7b' :: (mark count.isNone ++ (gap ++ row))) (ls ++ .map count :: entries.flatten)
  | value {stack : List Bracket} {text gap row t gap' : List Char} {ls key : List Lexeme}
    {count : Option UInt64} {remaining : Option Nat} {entries : List (List Lexeme)}
    (h : Pending stack text ls) (hr : Remains count entries.length remaining) (hg : Blank gap)
    (hrow : Row (fun n ↦ entry (item n)) row entries) (ht : Reads item t key) (hg' : Blank gap')
    (appended : Bool) :
    Pending (.map remaining appended false :: stack)
      (text ++ '\x7b' :: (mark count.isNone ++ (gap ++ (row ++ (t ++ ':' :: gap')))))
      (ls ++ .map count :: (entries.flatten ++ key))
  | tag {stack : List Bracket} {text gap : List Char} {ls : List Lexeme} (h : Pending stack text ls)
    (wrapped : Bool) (hg : Blank gap) (number : UInt64) :
    Pending (.tag wrapped :: stack) (text ++ (Numeral.ofNat number.toNat ++ '(' :: gap))
      (ls ++ [.tag number])

/-- As `Pending`, but a string of indefinite length may be open within. -/
inductive Begun : (stack : List Bracket) → (text : List Char) → (ls : List Lexeme) → Prop
  | item {stack : List Bracket} {text : List Char} {ls : List Lexeme} (h : Pending stack text ls) :
    Begun stack text ls
  | start {stack : List Bracket} {text : List Char} {ls : List Lexeme} (h : Pending stack text ls)
    (isText : Bool) :
    Begun (.chunks isText false :: stack) text
      (ls ++ [if isText then .textStart else .bytesStart])
  | chunks {stack : List Bracket} {text gap row t : List Char} {ls : List Lexeme} {isText : Bool}
    {parts : List Octets} {b : Octets} (h : Pending stack text ls) (hg : Blank gap)
    (hrow : Row (fun _ ↦ literal) row (parts.map (.ofString isText))) (ht : Spells isText t b) :
    Begun (.chunks isText true :: stack) (text ++ '(' :: '_' :: (gap ++ (row ++ t)))
      (ls ++ (if isText then .textStart else .bytesStart) ::
        (parts ++ [b]).map (.ofString isText))

/-- What a lexeme leads to, if it is accepted: a whole text that is read back as the lexemes, or the
beginning of one. -/
def Recovers (a : Answer) (ls : List Lexeme) : Prop :=
  ∀ done, a.1 = .ok done →
    if done then Reads item a.2.page.text ls else Begun a.2.stack a.2.page.text ls

variable {o : Decoder.Options} {stack : List Bracket} {text t : List Char} {ls ms : List Lexeme}
  {p : Page}

theorem recovers_error {e : Fault} {t : Transcript} : Recovers (.error e, t) ls := nofun

theorem Begun.recovers (h : Begun stack text ls) (ht : p.text = text) :
    Recovers (answer (false, ⟨stack, p⟩)) ls := by
  intro done hd
  cases hd
  exact ht ▸ h

theorem recovers_itemDone (h : Pending stack text ls) (ht : Reads item t ms)
    (hp : p.text = text ++ t) : Recovers (answer (itemDone o stack p)) (ls ++ ms) := by
  induction h generalizing t ms p with
  | top =>
    intro done hd
    cases hd
    show Reads item p.text ms
    rwa [hp]
  | @array stack text gap row ls count remaining items appended h hr hg hrow ha ih =>
    have hls : ls ++ .array count :: items.flatten ++ ms =
      ls ++ .array count :: (items ++ [ms]).flatten := by simp
    rw [itemDone, hls]
    cases hn : countDown? remaining with
    | some next =>
      obtain ⟨gap', hg', hgap⟩ := Page.exists_lineBreak o.edn (p.write [',']) true
      have hnext := hr.next hn
      rw [← List.length_concat (a := ms), List.concat_eq_append] at hnext
      exact Begun.recovers (.item (.array h hnext hg (hrow.snoc ht hg') (by simp)))
        (by simp [hgap, hp])
    | none =>
      obtain ⟨gap', hg', hgap⟩ := Page.exists_outdent o.edn p.leave
      obtain rfl := hr.last hn
      have hdone := ih (reads_array (.full hg hrow ht hg') false)
        (p := (p.leave.outdent o.edn).write [']']) (by simp [hgap, hp, mark, Wire.count])
      simpa [Wire.ending] using hdone
  | @key stack text gap row ls count remaining entries appended h hr hg hrow ha ih =>
    obtain ⟨gap', hg', hgap⟩ := Page.exists_space o.edn (p.write [':'])
    have hls : ls ++ .map count :: entries.flatten ++ ms =
      ls ++ .map count :: (entries.flatten ++ ms) := by simp
    rw [itemDone, hls]
    exact Begun.recovers (.item (.value h hr hg hrow ht hg' appended)) (by simp [hgap, hp])
  | @value stack text gap row u _ ls key count remaining entries h hr hg hrow hu hcolon _ ih =>
    have hls : ls ++ .map count :: (entries.flatten ++ key) ++ ms =
      ls ++ .map count :: (entries ++ [key ++ ms]).flatten := by simp
    have hentry := reads_entry hu ht hcolon
    rw [itemDone, hls]
    cases hn : countDown? remaining with
    | some next =>
      obtain ⟨gap', hg', hgap⟩ := Page.exists_lineBreak o.edn (p.write [',']) true
      have hnext := hr.next hn
      rw [← List.length_concat (a := key ++ ms), List.concat_eq_append] at hnext
      exact Begun.recovers (.item (.key h hnext hg (hrow.snoc hentry hg') (by simp)))
        (by simp [hgap, hp])
    | none =>
      obtain ⟨gap', hg', hgap⟩ := Page.exists_outdent o.edn p.leave
      obtain rfl := hr.last hn
      have hdone := ih (reads_map (.full hg hrow hentry hg') false)
        (p := (p.leave.outdent o.edn).write ['\x7d']) (by simp [hgap, hp, mark, Wire.count])
      simpa [Wire.ending] using hdone
  | @tag stack text gap ls h wrapped hg number ih =>
    obtain ⟨gap', hg', hgap⟩ : ∃ gap', Blank gap' ∧
        (if wrapped then p.leave.outdent o.edn else p.leave).text = p.text ++ gap' := by
      cases wrapped with
      | true => exact Page.exists_outdent o.edn p.leave
      | false => exact ⟨[], blank_nil, (List.append_nil _).symm⟩
    rw [itemDone, List.append_assoc]
    exact ih (reads_tag ht hg hg' number) (by simp [hgap, hp])

theorem recovers_scalar (h : Pending stack text ls) (hp : p.text = text) {s : List Char}
    (hs : Reads item s ms) : Recovers (scalar o s ⟨stack, p⟩) (ls ++ ms) :=
  recovers_itemDone h hs (by rw [Page.text_write, hp])

theorem spells_writeString (isText : Bool) (b : Octets) (p : Page) :
    ∃ t, Spells isText t b ∧ writeString o isText b p = p.write t := by
  cases isText with
  | true => exact ⟨_, spells_text b, rfl⟩
  | false => exact ⟨_, spells_bytes o.edn p.width b, rfl⟩

theorem recovers_string (h : Pending stack text ls) (hp : p.text = text) (isText : Bool)
    (b : Octets) : Recovers (string o isText b ⟨stack, p⟩) (ls ++ [.ofString isText b]) := by
  have hplain {stack : List Bracket} {text : List Char} {q : Page} (h : Pending stack text ls)
      (hq : q.text = text) : Recovers (answer (itemDone o stack (writeString o isText b q)))
        (ls ++ [.ofString isText b]) := by
    obtain ⟨t, ht, hw⟩ := spells_writeString (o := o) isText b q
    rw [hw]
    exact recovers_scalar h hq (reads_string ht)
  unfold string
  split
  case h_1 =>
    rename_i heq
    cases heq
    cases h
  case h_2 =>
    rename_i heq
    cases heq
    split
    · -- the literal begins on a line of its own
      obtain ⟨gap', hg', hgap⟩ := Page.exists_indent o.edn p false
      cases h with
      | tag h _ hg number =>
        refine hplain (.tag h true (hg.append hg') number) ?_
        rw [hgap, hp]
        simp
    · exact hplain h hp
  case h_3 =>
    rename_i heq
    cases heq
    exact hplain h hp

theorem recovers_enter {k : Transcript → Answer}
    (hk : ∀ q : Page, q.text = p.text → Recovers (k ⟨stack, q⟩) ls) :
    Recovers (enter o ⟨stack, p⟩ k) ls := by
  unfold enter
  dsimp only
  split
  · exact hk _ rfl
  · exact recovers_error

theorem recovers_openTag (h : Pending stack text ls) (hp : p.text = text) (number : UInt64) :
    Recovers (openTag o number ⟨stack, p⟩) (ls ++ [.tag number]) := by
  refine recovers_enter fun q hq ↦ ?_
  refine Begun.recovers (.item (.tag h false blank_nil number)) ?_
  rw [Page.text_write, hq, hp]

theorem recovers_openContainer (h : Pending stack text ls) (hp : p.text = text) {left right : Char}
    {bracket : Bracket} {count : Option UInt64} {l : Lexeme}
    (hempty : count = some 0 → Reads item [left, right] [l])
    (hopen : ∀ gap, Blank gap → count ≠ some 0 →
      Pending (bracket :: stack) (text ++ left :: (mark count.isNone ++ gap)) (ls ++ [l])) :
    Recovers (openContainer o left right bracket count ⟨stack, p⟩) (ls ++ [l]) := by
  refine recovers_enter fun q hq ↦ ?_
  rw [hp] at hq
  dsimp only
  split
  case h_1 => exact recovers_scalar (p := q.leave) h hq (hempty rfl)
  case h_2 n hn =>
    obtain ⟨gap, hg, hgap⟩ := Page.exists_indent o.edn (q.write [left]) false
    refine Begun.recovers (.item (hopen gap hg (by simpa using hn))) ?_
    simp [hgap, hq, mark]
  case h_3 =>
    obtain ⟨gap, hg, hgap⟩ := Page.exists_indent o.edn (q.write [left, '_']) true
    refine Begun.recovers (.item (hopen gap hg (Option.some_ne_none 0).symm)) ?_
    simp [hgap, hq, mark]

theorem exists_body {q : Nat → Reader (List Lexeme)} {row gap : List Char}
    {items : List (List Lexeme)} (hrow : Row q row items) (hg : Blank gap)
    (hp : p.text = text ++ (gap ++ row)) :
    ∃ body, Body q body items ∧
      ((if !items.isEmpty then p.trimSeparators else p).outdent o.edn).text = text ++ body := by
  cases hrow with
  | nil =>
    obtain ⟨gap', hg', hgap⟩ := Page.exists_outdent o.edn p
    refine ⟨gap ++ gap', .empty (hg.append hg'), hgap.trans ?_⟩
    simp [hp]
  | @snoc row t comma items a h ha hcomma =>
    have htrim : p.trimSeparators.text = text ++ (gap ++ (row ++ t)) := by
      refine Page.text_trimSeparators p (s := ',' :: comma) ?_ ?_ ?_
      · exact ((ha.shut.append row).append gap).append text
      · exact List.forall_mem_cons.2 ⟨List.mem_cons_self, fun c hc ↦
          List.mem_cons_of_mem _ (of_decide_eq_true (hcomma c hc))⟩
      · simp [hp]
    obtain ⟨gap', hg', hgap⟩ := Page.exists_outdent o.edn p.trimSeparators
    refine ⟨gap ++ (row ++ (t ++ gap')), .full hg h ha hg', ?_⟩
    rw [if_pos (by simp), hgap, htrim]
    simp

theorem recovers_closeIndefinite (h : Pending stack text ls) {q : Nat → Reader (List Lexeme)}
    {left right : Char} {row gap : List Char} {items : List (List Lexeme)}
    (hrow : Row q row items) (hg : Blank gap)
    (hp : p.text = text ++ left :: (mark true ++ (gap ++ row)))
    (hreads : ∀ body, Body q body items → Reads item (left :: (mark true ++ body ++ [right])) ms) :
    Recovers (closeIndefinite o right (!items.isEmpty) stack p) (ls ++ ms) := by
  have hleave : p.leave.text = text ++ left :: mark true ++ (gap ++ row) := by simp [hp]
  obtain ⟨body, hbody, htext⟩ := exists_body (o := o) hrow hg hleave
  refine recovers_itemDone h (hreads body hbody) ?_
  rw [Page.text_write, htext]
  simp

theorem recovers_close (h : Pending stack text ls) (hp : p.text = text) :
    Recovers (close o ⟨stack, p⟩) (ls ++ [.stop]) := by
  cases h with
  | top | tag => exact recovers_error
  | value h hr => cases hr <;> exact recovers_error
  | array h hr hg hrow ha =>
    cases hr with
    | definite => exact recovers_error
    | indefinite =>
      rw [List.append_assoc, List.cons_append, ha]
      exact recovers_closeIndefinite h hrow hg hp fun body hbody ↦ reads_array hbody true
  | key h hr hg hrow ha =>
    cases hr with
    | definite => exact recovers_error
    | indefinite =>
      rw [List.append_assoc, List.cons_append, ha]
      exact recovers_closeIndefinite h hrow hg hp fun body hbody ↦ reads_map hbody true

theorem recovers_write (h : Pending stack text ls) (hp : p.text = text) {l : Lexeme}
    (hl : l.isFloat = false) : Recovers (write o ⟨stack, p⟩ l) (ls ++ [l]) := by
  cases l with
  | unsigned n => exact recovers_scalar h hp (reads_unsigned n)
  | negative n =>
    have hneg : (-1 - n.toNat : Int) = .negSucc n.toNat := by omega
    rw [write, hneg]
    exact recovers_scalar h hp (reads_negative n)
  | bytes b => exact recovers_string h hp false b
  | text b => exact recovers_string h hp true b
  | bytesStart => exact Begun.recovers (.start h false) hp
  | textStart => exact Begun.recovers (.start h true) hp
  | array count =>
    refine recovers_openContainer h hp ?_ fun gap hg hn ↦ ?_
    · rintro rfl
      exact reads_array (.empty blank_nil) false
    · have hopen := Pending.array h (remains_zero hn) hg .nil rfl
      simpa using hopen
  | map count =>
    refine recovers_openContainer h hp ?_ fun gap hg hn ↦ ?_
    · rintro rfl
      exact reads_map (.empty blank_nil) false
    · have hopen := Pending.key h (remains_zero hn) hg .nil rfl
      simpa using hopen
  | tag number => exact recovers_openTag h hp number
  | simple n => exact recovers_scalar h hp (reads_simple n)
  | bool b => cases b <;> exact recovers_scalar h hp (reads_word (_, .bool _) (by decide))
  | null => exact recovers_scalar h hp (reads_word (_, .null) (by decide))
  | undefined => exact recovers_scalar h hp (reads_word (_, .undefined) (by decide))
  | float16 | float32 | float64 => cases hl
  | stop => exact recovers_close h hp

theorem recovers_chunk {isText appended : Bool}
    (h : Begun (.chunks isText appended :: stack) text ls) (hp : p.text = text) (chunkIsText : Bool)
    (b : Octets) : Recovers (string o chunkIsText b ⟨.chunks isText appended :: stack, p⟩)
      (ls ++ [.ofString chunkIsText b]) := by
  rw [string]
  split
  case isTrue => exact recovers_error
  case isFalse hkind =>
    obtain rfl : isText = chunkIsText := Classical.not_not.1 hkind
    cases h with
    | item h => cases h
    | start h =>
      obtain ⟨gap, hg, hgap⟩ := Page.exists_indent o.edn (p.write ['(', '_']) true
      obtain ⟨t, ht, hw⟩ := spells_writeString (o := o) isText b
        ((p.write ['(', '_']).indent o.edn true)
      have hrow : Row (fun _ ↦ literal) [] (([] : List Octets).map (.ofString isText)) := .nil
      have hnext := Begun.chunks h hg hrow ht
      rw [List.append_assoc]
      refine Begun.recovers hnext ?_
      rw [if_neg Bool.false_ne_true, hw]
      simp [hgap, hp]
    | @chunks stack text gap row u ls isText parts c h hg hrow hu =>
      obtain ⟨gap', hg', hgap⟩ := Page.exists_lineBreak o.edn (p.write [',']) true
      obtain ⟨t, ht, hw⟩ := spells_writeString (o := o) isText b
        ((p.write [',']).lineBreak o.edn true)
      have hrow' := hrow.snoc (reads_chunk hu) hg'
      rw [← List.map_singleton, ← List.map_append] at hrow'
      have hnext := Begun.chunks h hg hrow' ht
      have hls : ls ++ (if isText then .textStart else .bytesStart) ::
            (parts ++ [c]).map (.ofString isText) ++ [.ofString isText b] =
          ls ++ (if isText then .textStart else .bytesStart) ::
            (parts ++ [c] ++ [b]).map (.ofString isText) := by simp
      rw [hls]
      refine Begun.recovers hnext ?_
      rw [if_pos rfl, hw]
      simp [hgap, hp]

theorem recovers_closeString {isText appended : Bool}
    (h : Begun (.chunks isText appended :: stack) text ls) (hp : p.text = text) :
    Recovers (close o ⟨.chunks isText appended :: stack, p⟩) (ls ++ [.stop]) := by
  cases h with
  | item h => cases h
  | start h =>
    rw [List.append_assoc]
    exact recovers_scalar h hp (reads_noChunks isText)
  | chunks h hg hrow ht =>
    obtain ⟨gap', hg', hgap⟩ := Page.exists_outdent o.edn p
    rw [List.append_assoc, List.cons_append]
    refine recovers_itemDone h (reads_chunks hrow ht hg hg') ?_
    simp [hgap, hp]

/-- A lexeme that is accepted takes the item on that is begun, or completes it. -/
theorem recovers_push {t : Transcript} (h : Begun t.stack t.page.text ls) {l : Lexeme}
    (hl : l.isFloat = false) : Recovers (t.push o l) (ls ++ [l]) := by
  obtain ⟨stack, p⟩ := t
  have hchunks {isText appended : Bool} {stack : List Bracket}
      (h : Begun (.chunks isText appended :: stack) p.text ls) :
      Recovers (push o ⟨.chunks isText appended :: stack, p⟩ l) (ls ++ [l]) := by
    cases l with
    | bytes b => exact recovers_chunk h rfl false b
    | text b => exact recovers_chunk h rfl true b
    | stop => exact recovers_closeString h rfl
    | _ => exact recovers_error
  generalize htext : p.text = text at h
  cases h with
  | item h =>
    have hfault : chunkFault? stack l = none := by cases h <;> rfl
    rw [push, hfault]
    exact recovers_write h htext hl
  | start h isText => exact hchunks (htext ▸ .start h isText)
  | chunks h hg hrow ht => exact hchunks (htext ▸ .chunks h hg hrow ht)

end Transcript
end Diagnostic
end Cbor
