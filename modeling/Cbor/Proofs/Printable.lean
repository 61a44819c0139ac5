import Mathlib
import Cbor.Proofs.Decoder.Calls
import Cbor.Proofs.Diagnostic.Printable
import Cbor.Proofs.Diagnostic.Recovery
import Cbor.Proofs.Diagnostic.Rendering

namespace Cbor

namespace Diagnostic

namespace Page

variable {st : Style} {p : Page} {s : List Char}

def IsPrintable (st : Style) (p : Page) : Prop := Printable st.indent p.text

namespace IsPrintable

theorem nil : IsPrintable st {} := Visible.nil.printable

theorem write (h : p.IsPrintable st) (hs : Printable st.indent s) :
    (p.write s).IsPrintable st := by
  rw [IsPrintable, text_write]
  exact h.append hs

theorem put (h : p.IsPrintable st) (hs : Visible s) : (p.write s).IsPrintable st :=
  h.write hs.printable

theorem space (h : p.IsPrintable st) : (p.space st).IsPrintable st := by
  unfold Page.space
  split
  · exact h.put (by decide)
  · exact h

theorem lineBreak (h : p.IsPrintable st) (space : Bool) : (p.lineBreak st space).IsPrintable st :=
  h.write (st.printable_lineBreak _ _)

theorem indent (h : p.IsPrintable st) (space : Bool) : (p.indent st space).IsPrintable st := by
  have hwide : IsPrintable st { p with width := p.width + unit st } := h
  exact hwide.lineBreak space

theorem outdent (h : p.IsPrintable st) : (p.outdent st).IsPrintable st := by
  have hnarrow : IsPrintable st { p with width := p.width - unit st } := h
  exact hnarrow.lineBreak false

theorem leave (h : p.IsPrintable st) : p.leave.IsPrintable st := h

theorem trimSeparators (h : p.IsPrintable st) : p.trimSeparators.IsPrintable st :=
  Printable.of_prefix h (prefix_popWhile ..)

end IsPrintable
end Page

namespace Transcript

variable {o : Decoder.Options} {stack : List Bracket} {p : Page} {s : List Char}

def Shows (o : Decoder.Options) (a : Answer) : Prop := a.2.page.IsPrintable o.edn

theorem shows_itemDone (h : p.IsPrintable o.edn) : Shows o (answer (itemDone o stack p)) := by
  -- an item that completes a container is itself an item of the next one out
  induction stack generalizing p with
  | nil => exact h
  | cons bracket stack ih =>
    cases bracket with
    | array remaining appended =>
      rw [itemDone]
      split
      · exact (h.put (by decide)).lineBreak true
      · exact ih (h.leave.outdent.put (by decide))
    | map remaining appended isKey =>
      cases isKey with
      | true => exact (h.put (by decide)).space
      | false =>
        rw [itemDone]
        split
        · exact (h.put (by decide)).lineBreak true
        · exact ih (h.leave.outdent.put (by decide))
    | tag wrapped =>
      refine ih (Page.IsPrintable.put ?_ (by decide))
      cases wrapped with
      | true => exact h.leave.outdent
      | false => exact h.leave
    | chunks isText appended => exact h

theorem shows_scalar {t : Transcript} (h : t.page.IsPrintable o.edn) (hs : Visible s) :
    Shows o (scalar o s t) :=
  shows_itemDone (h.put hs)

theorem printable_writeString (h : p.IsPrintable o.edn) (isText : Bool) (b : Octets) :
    (writeString o isText b p).IsPrintable o.edn := by
  cases isText with
  | true => exact h.put (visible_textLiteral b)
  | false => exact h.write (o.edn.printable_bytesLiteral p.width b)

theorem shows_string {t : Transcript} (h : t.page.IsPrintable o.edn) (isText : Bool) (b : Octets) :
    Shows o (string o isText b t) := by
  obtain ⟨stack, p⟩ := t
  have hb {p : Page} (h : p.IsPrintable o.edn) (stack : List Bracket) :
      Shows o (answer (itemDone o stack (writeString o isText b p))) :=
    shows_itemDone (printable_writeString h isText b)
  rcases stack with _ | ⟨_ | _ | wrapped | ⟨chunksAreText, appended⟩, stack⟩
  case cons.tag =>
    cases wrapped with
    | false =>
      rw [string]
      split
      · exact hb (h.indent false) _
      · exact hb h _
    | true => exact hb h _
  case cons.chunks =>
    rw [string]
    split
    · exact h
    · refine hb ?_ _
      cases appended with
      | true => exact (h.put (by decide)).lineBreak true
      | false => exact (h.put (by decide)).indent true
  all_goals exact hb h _

theorem shows_enter {t : Transcript} {k : Transcript → Answer} (h : t.page.IsPrintable o.edn)
    (hk : ∀ q : Page, q.IsPrintable o.edn → Shows o (k ⟨t.stack, q⟩)) : Shows o (enter o t k) := by
  unfold enter
  dsimp only
  split
  · exact hk _ h
  · exact h

theorem shows_openContainer {t : Transcript} (h : t.page.IsPrintable o.edn) {left right : Char}
    (hl : IsVisible left) (hr : IsVisible right) (b : Bracket) (count : Option UInt64) :
    Shows o (openContainer o left right b count t) := by
  refine shows_enter h fun q hq ↦ ?_
  dsimp only
  split
  · exact shows_scalar hq.leave (.cons hl (.cons hr .nil))
  · exact (hq.put (.cons hl .nil)).indent false
  · exact (hq.put (.cons hl (by decide))).indent true

theorem shows_closeIndefinite (h : p.IsPrintable o.edn) {right : Char} (hr : IsVisible right)
    (appended : Bool) : Shows o (closeIndefinite o right appended stack p) := by
  refine shows_itemDone (Page.IsPrintable.put (.outdent ?_) (.cons hr .nil))
  cases appended with
  | true => exact h.leave.trimSeparators
  | false => exact h.leave

theorem shows_close {t : Transcript} (h : t.page.IsPrintable o.edn) : Shows o (close o t) := by
  unfold close
  split
  case h_2 => exact shows_itemDone (h.put (by split <;> decide))
  case h_3 => exact shows_itemDone (h.outdent.put (by decide))
  case h_4 | h_5 => exact shows_closeIndefinite h (by decide) _
  case h_1 | h_6 => exact h

theorem shows_write {t : Transcript} (h : t.page.IsPrintable o.edn) (l : Lexeme) :
    Shows o (write o t l) := by
  cases l with
  | unsigned n | negative n => exact shows_scalar h (visible_ofInt _)
  | bytes b | text b => exact shows_string h _ b
  | bytesStart | textStart => exact h
  | array count | map count => exact shows_openContainer h (by decide) (by decide) _ count
  | tag number =>
    exact shows_enter h fun q hq ↦ hq.put ((visible_ofNat _).append (by decide))
  | simple n =>
    exact shows_scalar h (Visible.append (.append (by decide) (visible_ofNat _)) (by decide))
  | bool b => exact shows_scalar h (by split <;> decide)
  | null | undefined => exact shows_scalar h (by decide)
  | float16 bits | float32 bits | float64 bits =>
    exact shows_scalar h (visible_floatLiteral _ _ rfl)
  | stop => exact shows_close h

/-- One lexeme keeps a transcript safe to print, whether or not it fits. -/
theorem shows_push {t : Transcript} (h : t.page.IsPrintable o.edn) (l : Lexeme) :
    Shows o (t.push o l) := by
  unfold push
  split
  · exact h
  · exact shows_write h l

end Transcript

variable {o : Decoder.Options}

open Transcript in
theorem printable_transcribe {t : Transcript} (h : t.page.IsPrintable o.edn) (stripped : Bool)
    (b : Octets) : (transcribe o t stripped b).2.page.IsPrintable o.edn := by
  fun_induction transcribe o t stripped b with
  | case1 | case2 | case3 => exact h
  | case4 _ _ _ _ _ _ _ ih => exact ih h
  | case5 t _ _ l _ _ _ e u hp =>
    have hshows := shows_push h l
    rwa [hp] at hshows
  | case6 t _ _ l _ _ _ u hp =>
    have hshows := shows_push h l
    rwa [hp] at hshows
  | case7 t _ _ l _ _ _ u hp ih =>
    have hshows := shows_push h l
    rw [hp] at hshows
    exact ih hshows

theorem visible_errorComment (e : Fault) : Visible (errorComment e) := by
  have hname : Visible e.name.toList := by
    unfold Fault.name
    split <;> decide
  exact Visible.append (.append (.append (.append (by decide) (visible_ofNat _)) (by decide)) hname)
    (by decide)

theorem printable_render (data : Octets) (hc : o.check = .ok ()) (hs : o.edn.check = .ok ()) :
    ∃ text, render data o = .ok text ∧ Printable o.edn.indent text := by
  have ht := printable_transcribe (o := o) (t := {}) Page.IsPrintable.nil false
    (data.window o.offset o.length)
  rw [render_eq hc hs]
  generalize transcribe o {} false (data.window o.offset o.length) = r at ht ⊢
  obtain ⟨_ | e, t⟩ := r
  · exact ⟨_, rfl, ht⟩
  · refine ⟨_, rfl, (Printable.append ?_ ?_).append (visible_errorComment e).printable⟩
    · exact Printable.of_prefix ht (prefix_popWhile ..)
    · split
      · exact Visible.nil.printable
      · exact Visible.printable (by decide)

end Diagnostic

namespace Decoder

open Diagnostic (Printable)

variable {o : Options} {d : Decoder}

def ShowsItem (o : Options) (item : Item) : Prop :=
  ∃ text, item = .ofText text ∧ Printable o.edn.indent text

def Product.IsPrintable (o : Options) : Product → Prop
  | items _ => False
  | diagnostic t => t.page.IsPrintable o.edn

def Halt.IsPrintable (o : Options) : Halt → Prop
  | ready item _ product => ShowsItem o item ∧ product.IsPrintable o
  | waiting _ product .. => product.IsPrintable o
  | failed .. => True

theorem Product.printable_start (hf : o.flags.contains .edn = true) :
    (Product.start o).IsPrintable o := by
  rw [Product.start, if_pos hf]
  exact Diagnostic.Page.IsPrintable.nil

theorem Product.printable_push {p : Product} (h : p.IsPrintable o) {l : Lexeme}
    {r : Option Item × Product} (hp : p.push o l = .ok r) :
    (∀ item, r.1 = some item → ShowsItem o item) ∧ r.2.IsPrintable o := by
  cases p with
  | items a => exact h.elim
  | diagnostic t =>
    have hshows := Diagnostic.Transcript.shows_push h l
    rw [Product.push] at hp
    split at hp
    · cases hp
    · rename_i ht
      rw [ht] at hshows
      cases hp
      refine ⟨fun item hi ↦ ?_, hshows⟩
      cases hi
    · rename_i ht
      rw [ht] at hshows
      cases hp
      refine ⟨fun item hi ↦ ?_, Diagnostic.Page.IsPrintable.nil⟩
      cases hi
      exact ⟨_, rfl, hshows⟩

theorem printable_run {p : Product} (h : p.IsPrintable o) (stripped : Bool) (b : Octets) :
    (run o p stripped b).IsPrintable o := by
  fun_induction run o p stripped b with
  | case1 | case5 => exact trivial
  | case2 | case3 => exact h
  | case4 _ _ _ _ _ _ _ ih => exact ih h
  | case6 _ _ _ _ _ _ _ _ _ hp =>
    obtain ⟨hitem, hproduct⟩ := Product.printable_push h hp
    exact ⟨hitem _ rfl, hproduct⟩
  | case7 _ _ _ _ _ _ _ _ hp ih => exact ih (Product.printable_push h hp).2

/-- The item that waits is safe to print, and so is what is half read. Behind a fault that is
dropped. -/
structure IsPrintable (o : Options) (d : Decoder) : Prop where
  value : ∀ item, d.value = some item → ShowsItem o item
  product : d.fault = none → d.product.IsPrintable o

theorem printable_start (hf : o.flags.contains .edn = true) : (start o).IsPrintable o :=
  ⟨nofun, fun _ ↦ Product.printable_start hf⟩

theorem IsPrintable.add (h : d.IsPrintable o) (data : Octets) : (d.add data).2.IsPrintable o := by
  rcases add_cases d data with ⟨f, -, ha⟩ | ha | ha <;> rw [ha]
  · exact h
  · exact ⟨h.value, nofun⟩
  · exact ⟨h.value, h.product⟩

theorem IsPrintable.process (h : d.IsPrintable o) (ho : d.options = o) :
    d.process.2.IsPrintable o := by
  subst ho
  rcases process_cases d with hd | ⟨-, hp⟩ | ⟨f, -, hp⟩
  · have hrun := printable_run (h.product hd.2) d.stripped d.buffer
    rw [process_of_ready hd]
    cases hr : run d.options d.product d.stripped d.buffer with
    | ready item rest product =>
      rw [hr] at hrun
      refine ⟨fun i hi ↦ ?_, fun _ ↦ hrun.2⟩
      cases hi
      exact hrun.1
    | waiting rest product stripped forContent =>
      rw [hr] at hrun
      exact ⟨nofun, fun _ ↦ hrun⟩
    | failed fault rest => exact ⟨nofun, nofun⟩
  · exact hp ▸ h
  · exact hp ▸ h

theorem printable_reached (hf : o.flags.contains .edn = true) (h : Reached o d) :
    d.IsPrintable o := by
  induction h with
  | new => exact printable_start hf
  | call hd c ih =>
    cases c with
    | add data => exact ih.add data
    | addRange data offset length => exact ih.add _
    | process => exact ih.process hd.suits.1
    | peek => exact ih
    | take => exact ⟨nofun, ih.product⟩
    | reset =>
      rw [Decoder.call, reset_eq_start hd]
      exact printable_start hf
  | refused hd hfault hp _ _ ih =>
    -- what is half read is anything now, but only a reset leads on from here
    refine ⟨ih.value, fun hnone ↦ ?_⟩
    rw [hnone] at hfault
    cases hfault

theorem showsItem_of_decode (hf : o.flags.contains .edn = true) {data : Octets} {item : Item}
    (h : decode data o = .ok item) : ShowsItem o item := by
  have hrun := printable_run (Product.printable_start hf) false (data.window o.offset o.length)
  obtain ⟨product, hr⟩ := run_of_decode h
  rw [hr] at hrun
  exact hrun.1

end Decoder

open Decoder (Options Reached ShowsItem)
open Diagnostic (Printable Visible render render_eq textLiteral transcribe)

/-- Rendering shows the control characters of the indentation and no others, whatever the input is
and wherever it cannot be read on, and so does each item of a decoder that gives notation, after any
calls. None of them comes from a string: its literal is visible, be it valid or not. -/
theorem notation_printable (o : Options) :
    (∀ b : Octets, Visible (textLiteral b)) ∧
    (∀ data, o.check = .ok () → o.edn.check = .ok () →
      ∃ text, render data o = .ok text ∧ Printable o.edn.indent text) ∧
    (o.flags.contains .edn = true →
      (∀ d item, Reached o d → d.value = some item → ShowsItem o item) ∧
      ∀ data item, decode data o = .ok item → ShowsItem o item) :=
  ⟨Diagnostic.visible_textLiteral, Diagnostic.printable_render, fun hf ↦
    ⟨fun _ _ hd hv ↦ (Decoder.printable_reached hf hd).value _ hv,
      fun _ _ h ↦ Decoder.showsItem_of_decode hf h⟩⟩

/-- Controls, U+0085, U+202E and an octet that is no UTF-8, in an array that is cut off, on lines
that tabs indent; and a tab in a text on a single line. -/
theorem notation_printable_controls :
    let o : Options := { flags := Flags.standard ||| .edn, edn := { indent := .tab } }
    let cut : Octets :=
      [0x82, 0x6A, 0x01, 0x02, 0x0A, 0x7F, 0xC2, 0x85, 0xE2, 0x80, 0xAE, 0xFF]
    let shown :=
      "[\n\t\"\" h'01020a7f' \"\\u0085\\u202e\" h'ff', /ERROR:33 (truncated-data)/".toList
    let tab : Octets := [0x62, 0x09, 0x41]
    let d := (Decoder.start o).calls [.add tab, .process]
    o.check = .ok () ∧ o.edn.check = .ok () ∧ o.flags.contains .edn = true ∧
      render cut o = .ok shown ∧ Printable .tab shown ∧
      Reached o d ∧ d.value = some (.ofText "\"\\tA\"".toList) ∧
      ShowsItem o (.ofText "\"\\tA\"".toList) := by
  intro o cut shown tab d
  have hc : o.check = .ok () := by cbv
  have hs : o.edn.check = .ok () := by cbv
  have hf : o.flags.contains .edn = true := by decide
  have hwindow : cut.window o.offset o.length = cut := rfl
  let written := "[\n\t\"\" h'01020a7f' \"\\u0085\\u202e\" h'ff',\n\t".toList
  have ht : transcribe o {} false cut = (some .truncatedData,
      ⟨[.array (some 1) true], ⟨written.toArray, 1, 1⟩⟩) := by cbv
  have htrim : (written.toArray.popWhile Char.isWhitespace).toList =
      "[\n\t\"\" h'01020a7f' \"\\u0085\\u202e\" h'ff',".toList := by
    rw [List.popWhile_toArray]
    rfl
  have hr : render cut o = .ok shown := by
    rw [render_eq hc hs, hwindow, ht]
    dsimp only
    rw [htrim]
    rfl
  have hd : Reached o d := (Reached.new.call _).call _
  have hv : d.value = some (.ofText "\"\\tA\"".toList) := by
    unfold d
    cbv
  obtain ⟨-, hrender, hitems⟩ := notation_printable o
  obtain ⟨text, htext, hp⟩ := hrender cut hc hs
  obtain rfl : shown = text := Except.ok.inj (hr.symm.trans htext)
  exact ⟨hc, hs, hf, hr, hp, hd, hv, (hitems hf).1 d _ hd hv⟩

end Cbor
