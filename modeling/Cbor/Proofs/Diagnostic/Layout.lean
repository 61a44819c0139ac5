import Cbor.Proofs.Diagnostic.Outline

namespace Cbor.Diagnostic

namespace Page

variable (st : Style) (p : Page)

@[simp] theorem write_width (s : List Char) : (p.write s).width = p.width := rfl

@[simp] theorem space_width : (p.space st).width = p.width := by
  unfold space
  split <;> rfl

@[simp] theorem lineBreak_width (space : Bool) : (p.lineBreak st space).width = p.width := rfl

@[simp] theorem indent_width (space : Bool) : (p.indent st space).width = p.width + unit st := rfl

@[simp] theorem outdent_width : (p.outdent st).width = p.width - unit st := rfl

@[simp] theorem leave_width : p.leave.width = p.width := rfl

@[simp] theorem trimSeparators_width : p.trimSeparators.width = p.width := rfl

end Page

namespace Bracket

def levels : Bracket → Nat
  | chunks .. => 0
  | _ => 1

/-- The steps of indentation that it takes. The content of a tag, and the chunks of a string, are
indented once there is something to indent. -/
def steps : Bracket → Nat
  | array .. | map .. => 1
  | tag wrapped => wrapped.toNat
  | chunks _ appended => appended.toNat

end Bracket

namespace Transcript

def levels : List Bracket → Nat
  | [] => 0
  | b :: stack => b.levels + levels stack

def steps : List Bracket → Nat
  | [] => 0
  | b :: stack => b.steps + steps stack

structure Laid (st : Style) (t : Transcript) : Prop where
  depth : t.page.depth = levels t.stack
  width : t.page.width = steps t.stack * Page.unit st

variable {o : Decoder.Options} {st : Style} {stack : List Bracket} {p q : Page} {b : Bracket}

namespace Laid

theorem nil : Laid st {} := ⟨rfl, (Nat.zero_mul _).symm⟩

theorem cons_iff : Laid st ⟨b :: stack, p⟩ ↔ p.depth = b.levels + levels stack ∧
    p.width = b.steps * Page.unit st + steps stack * Page.unit st := by
  rw [← Nat.add_mul]
  exact ⟨fun h ↦ ⟨h.depth, h.width⟩, fun h ↦ ⟨h.1, h.2⟩⟩

theorem push (h : Laid st ⟨stack, p⟩) (hd : q.depth = p.depth + b.levels)
    (hw : q.width = p.width + b.steps * Page.unit st) : Laid st ⟨b :: stack, q⟩ := by
  have hdepth : p.depth = levels stack := h.depth
  have hwidth : p.width = steps stack * Page.unit st := h.width
  exact cons_iff.2 ⟨by omega, by omega⟩

theorem pop (h : Laid st ⟨b :: stack, p⟩) (hd : q.depth = p.depth - b.levels)
    (hw : q.width = p.width - b.steps * Page.unit st) : Laid st ⟨stack, q⟩ := by
  obtain ⟨hdepth, hwidth⟩ := cons_iff.1 h
  exact ⟨by simp only; omega, by simp only; omega⟩

theorem stay (h : Laid st ⟨b :: stack, p⟩) {c : Bracket} (hl : c.levels = b.levels)
    (hs : c.steps = b.steps) (hd : q.depth = p.depth) (hw : q.width = p.width) :
    Laid st ⟨c :: stack, q⟩ := by
  obtain ⟨hdepth, hwidth⟩ := cons_iff.1 h
  exact cons_iff.2 ⟨by rw [hd, hl, hdepth], by rw [hw, hs, hwidth]⟩

theorem page (h : Laid st ⟨stack, p⟩) (hd : q.depth = p.depth) (hw : q.width = p.width) :
    Laid st ⟨stack, q⟩ :=
  ⟨hd.trans h.depth, hw.trans h.width⟩

end Laid

/-- Where a lexeme leads to, if it is accepted: still laid out, and with nothing open if an item is
complete. -/
def Rests (st : Style) (a : Answer) : Prop :=
  ∀ done, a.1 = .ok done → Laid st a.2 ∧ (done = true → a.2.stack = [])

theorem rests_error {e : Fault} {t : Transcript} : Rests st (.error e, t) := nofun

theorem Laid.begun {t : Transcript} (h : Laid st t) : Rests st (answer (false, t)) := by
  intro done hd
  cases hd
  exact ⟨h, nofun⟩

theorem rests_itemDone (h : Laid o.edn ⟨stack, p⟩) : Rests o.edn (answer (itemDone o stack p)) := by
  induction stack generalizing p with
  | nil =>
    intro done _
    exact ⟨h, fun _ ↦ rfl⟩
  | cons bracket stack ih =>
    cases bracket with
    | array remaining appended =>
      rw [itemDone]
      split
      · refine Laid.begun ?_
        exact h.stay rfl rfl rfl rfl
      · exact ih (h.pop rfl (by rw [Bracket.steps, Nat.one_mul]; rfl))
    | map remaining appended isKey =>
      cases isKey with
      | true =>
        refine Laid.begun ?_
        exact h.stay rfl rfl (by simp) (by simp)
      | false =>
        rw [itemDone]
        split
        · refine Laid.begun ?_
          exact h.stay rfl rfl rfl rfl
        · exact ih (h.pop rfl (by rw [Bracket.steps, Nat.one_mul]; rfl))
    | tag wrapped =>
      refine ih (h.pop ?_ ?_)
      · cases wrapped <;> rfl
      · cases wrapped <;> simp [Bracket.steps]
    | chunks isText appended => exact h.begun

theorem rests_scalar {t : Transcript} (h : Laid o.edn t) (s : List Char) :
    Rests o.edn (scalar o s t) :=
  rests_itemDone (h.page rfl rfl)

theorem Laid.widen (h : Laid st ⟨b :: stack, p⟩) {c : Bracket} (hl : c.levels = b.levels)
    (hb : b.steps = 0) (hc : c.steps = 1) (hd : q.depth = p.depth)
    (hw : q.width = p.width + Page.unit st) : Laid st ⟨c :: stack, q⟩ := by
  obtain ⟨hdepth, hwidth⟩ := cons_iff.1 h
  rw [hb, Nat.zero_mul] at hwidth
  exact cons_iff.2 ⟨by rw [hd, hl, hdepth], by rw [hw, hc, hwidth]; omega⟩

theorem rests_string {t : Transcript} (h : Laid o.edn t) (isText : Bool) (b : Octets) :
    Rests o.edn (string o isText b t) := by
  obtain ⟨stack, p⟩ := t
  rcases stack with _ | ⟨_ | _ | wrapped | ⟨chunksAreText, appended⟩, stack⟩
  case cons.tag =>
    cases wrapped with
    | false =>
      rw [string]
      split
      · refine rests_itemDone ?_
        exact h.widen rfl rfl rfl rfl rfl
      · refine rests_itemDone ?_
        exact h.page rfl rfl
    | true =>
      refine rests_itemDone ?_
      exact h.page rfl rfl
  case cons.chunks =>
    rw [string]
    split
    · exact rests_error
    · refine rests_itemDone ?_
      cases appended with
      | true => exact h.stay rfl rfl rfl rfl
      | false => exact h.widen rfl rfl rfl rfl rfl
  all_goals
    refine rests_itemDone ?_
    exact h.page rfl rfl

theorem rests_enter {t : Transcript} {k : Transcript → Answer}
    (hk : ∀ q : Page, q.depth = t.page.depth + 1 → q.width = t.page.width →
      Rests o.edn (k ⟨t.stack, q⟩)) : Rests o.edn (enter o t k) := by
  unfold enter
  dsimp only
  split
  · exact hk _ rfl rfl
  · exact rests_error

theorem rests_openContainer {t : Transcript} (h : Laid o.edn t) (left right : Char)
    (hl : b.levels = 1) (hs : b.steps = 1) (count : Option UInt64) :
    Rests o.edn (openContainer o left right b count t) := by
  obtain ⟨stack, p⟩ := t
  refine rests_enter fun q hd hw ↦ ?_
  dsimp only at hd hw ⊢
  split
  case h_1 =>
    have hleave : q.leave.depth = p.depth := by rw [Page.leave_depth, hd, Nat.add_sub_cancel]
    exact rests_scalar (h.page hleave hw) _
  case h_2 | h_3 => exact (h.push (by simp [hd, hl]) (by simp [hw, hs])).begun

theorem rests_closeIndefinite (h : Laid o.edn ⟨b :: stack, p⟩) (hl : b.levels = 1)
    (hs : b.steps = 1) (right : Char) (appended : Bool) :
    Rests o.edn (closeIndefinite o right appended stack p) := by
  refine rests_itemDone (h.pop ?_ ?_)
  · cases appended <;> simp [hl]
  · cases appended <;> simp [hs]

theorem rests_close {t : Transcript} (h : Laid o.edn t) : Rests o.edn (close o t) := by
  unfold close
  split
  case h_2 => exact rests_itemDone (h.pop (by simp [Bracket.levels]) (by simp [Bracket.steps]))
  case h_3 => exact rests_itemDone (h.pop (by simp [Bracket.levels]) (by simp [Bracket.steps]))
  case h_4 => exact rests_closeIndefinite h rfl rfl _ _
  case h_5 => exact rests_closeIndefinite h rfl rfl _ _
  case h_1 | h_6 => exact rests_error

theorem rests_write {t : Transcript} (h : Laid o.edn t) (l : Lexeme) :
    Rests o.edn (write o t l) := by
  cases l with
  | bytes b | text b => exact rests_string h _ b
  | bytesStart | textStart => exact (h.push rfl (by simp [Bracket.steps])).begun
  | array count | map count => exact rests_openContainer h _ _ rfl rfl count
  | tag number =>
    exact rests_enter fun q hd hw ↦ (h.push hd (by simp [hw, Bracket.steps])).begun
  | stop => exact rests_close h
  | _ => exact rests_scalar h _

theorem rests_push {t : Transcript} (h : Laid o.edn t) (l : Lexeme) :
    Rests o.edn (t.push o l) := by
  unfold push
  split
  · exact rests_error
  · exact rests_write h l

/-- Behind a top-level item the next one begins at the margin. -/
theorem exists_of_push {t u : Transcript} {l : Lexeme} (h : Laid o.edn t)
    (hp : t.push o l = (.ok true, u)) : ∃ out, u = ⟨[], { out := out }⟩ := by
  have hrests := rests_push h l
  rw [hp] at hrests
  obtain ⟨hlaid, hclosed⟩ := hrests true rfl
  obtain ⟨stack, ⟨out, width, depth⟩⟩ := u
  obtain rfl : stack = [] := hclosed rfl
  obtain rfl : depth = 0 := hlaid.depth
  obtain rfl : width = 0 := hlaid.width.trans (Nat.zero_mul _)
  exact ⟨out, rfl⟩

end Transcript
end Cbor.Diagnostic
