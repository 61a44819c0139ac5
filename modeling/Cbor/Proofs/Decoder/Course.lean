import Mathlib
import Cbor.Proofs.Assembly.Ancestry
import Cbor.Proofs.Decoder.Calls

namespace Cbor.Decoder

open Assembly

/-- Between two calls; or inside of the call `d.process`, where a lexeme is to be read from `b`, or
one in front of `rest` is being taken. -/
inductive Stage where
  | idle (d : Decoder)
  | reading (d : Decoder) (a : Assembly) (stripped : Bool) (b : Octets)
  | taking (d : Decoder) (turn : Turn) (stripped : Bool) (rest : Octets)

def Stage.decoder : Stage → Decoder
  | idle d | reading d .. | taking d .. => d

variable {o : Options} {t : Ancestry} {d : Decoder} {a : Assembly} {turn : Turn} {stripped : Bool}
  {b rest : Octets} {stage : Stage}

/-- The stages that a new decoder comes to, with what has become of the tags 28 since the last
reset. A fault leaves nothing behind that matters before the next one. -/
inductive Course (o : Options) : Ancestry → Stage → Prop
  | new : Course o {} (.idle (start o))
  | call {t : Ancestry} {d : Decoder} (h : Course o t (.idle d)) {c : Call} (hc : c ≠ .reset)
    (hp : c = .process → ¬ d.Ready) : Course o t (.idle (d.call c).2)
  | reset {t : Ancestry} {d : Decoder} (h : Course o t (.idle d)) : Course o {} (.idle d.reset)
  | process {t : Ancestry} {d : Decoder} (h : Course o t (.idle d)) (hr : d.Ready) {a : Assembly}
    (ha : d.product = .items a) : Course o t (.reading d a d.stripped d.buffer)
  | skip {t : Ancestry} {d : Decoder} {a : Assembly} {stripped : Bool} {b rest : Octets}
    (h : Course o t (.reading d a stripped b)) {l : Lexeme}
    (hl : Lexeme.read o.maxSize b = .ok (.ready l rest))
    (hs : skips o stripped a.stack.isEmpty l = true) : Course o t (.reading d a true rest)
  | lexeme {t : Ancestry} {d : Decoder} {a : Assembly} {stripped : Bool} {b rest : Octets}
    (h : Course o t (.reading d a stripped b)) {l : Lexeme}
    (hl : Lexeme.read o.maxSize b = .ok (.ready l rest))
    (hs : skips o stripped a.stack.isEmpty l = false) {turn : Turn}
    (hb : begin o a l = .ok turn) : Course o (t.meets l) (.taking d turn stripped rest)
  | place {t : Ancestry} {d : Decoder} {item : Item} {a : Assembly} {stripped : Bool}
    {rest : Octets} (h : Course o t (.taking d (.finished item a) stripped rest)) {turn : Turn}
    (hp : place o a.stack a.scope item = .ok turn) :
    Course o (t.places a.stack turn) (.taking d turn stripped rest)
  | next {t : Ancestry} {d : Decoder} {a : Assembly} {stripped : Bool} {rest : Octets}
    (h : Course o t (.taking d (.settled none a) stripped rest)) :
    Course o t (.reading d a stripped rest)
  | ready {t : Ancestry} {d : Decoder} {item : Item} {a : Assembly} {stripped : Bool}
    {rest : Octets} (h : Course o t (.taking d (.settled (some item) a) stripped rest)) :
    Course o t (.idle d.process.2)
  | waits {t : Ancestry} {d : Decoder} {a : Assembly} {stripped : Bool} {b : Octets}
    (h : Course o t (.reading d a stripped b))
    (hl : Lexeme.read o.maxSize b = .ok .needHeader ∨
      Lexeme.read o.maxSize b = .ok .needContent) : Course o t (.idle d.process.2)
  | fails {t : Ancestry} {d : Decoder} (h : Course o t (.idle d)) {e : Fault}
    (he : d.process.1 = .error e) : Course o t (.idle d.process.2)

theorem Course.reached (h : Course o t stage) : Reached o stage.decoder := by
  induction h with
  | new => exact .new
  | call _ _ _ ih => exact ih.call _
  | reset _ ih => exact ih.call .reset
  | process _ _ _ ih | skip _ _ _ ih | lexeme _ _ _ _ ih | place _ _ ih | next _ ih => exact ih
  | ready _ ih | waits _ _ ih | fails _ _ ih => exact ih.call .process

def onward (o : Options) (b : Octets) (stripped : Bool) (rest : Octets) :
    Except Fault (Option Item × Assembly) → Halt
  | .error e => .failed e b
  | .ok (some item, a) => .ready item rest (.items a)
  | .ok (none, a) => run o (.items a) stripped rest

theorem run_eq_onward {l : Lexeme} (hl : Lexeme.read o.maxSize b = .ok (.ready l rest))
    (hs : skips o stripped a.stack.isEmpty l = false) :
    run o (.items a) stripped b = onward o b stripped rest (a.push o l) := by
  rw [run_of_ready hl, if_neg (by simpa [Product.isEmpty] using hs)]
  rw [Product.push]
  rcases a.push o l with e | ⟨_ | item, a'⟩ <;> rfl

/-- What is known at a stage: the tags that are open, and that the call comes to what the rest of
its run comes to. -/
def Stage.Holds (o : Options) (t : Ancestry) : Stage → Prop
  | idle d => d.fault = none → ∃ a, d.product = .items a ∧ Tracks o t a
  | reading d a stripped b =>
    Tracks o t a ∧ d.Ready ∧ run o d.product d.stripped d.buffer = run o (.items a) stripped b
  | taking d turn stripped rest =>
    Tracks o t turn.assembly ∧ d.Ready ∧ ∃ b,
      run o d.product d.stripped d.buffer = onward o b stripped rest (settle o turn)

theorem product_call {c : Call} (hc : c ≠ .reset) (hp : c = .process → ¬ d.Ready) :
    (d.call c).2.product = d.product := by
  cases c with
  | add data => exact (product_add data).2
  | addRange data offset length => exact (product_add _).2
  | process =>
    rw [call]
    rcases process_cases d with hd | ⟨-, hstays⟩ | ⟨f, -, hstays⟩
    · exact absurd hd (hp rfl)
    · rw [hstays]
    · rw [hstays]
  | peek | take => rfl
  | reset => exact absurd rfl hc

theorem Course.holds (he : o.flags.contains .edn = false) (ho : o.sharedRef ≠ .off)
    (h : Course o t stage) : stage.Holds o t := by
  have hstart : Product.start o = .items {} := if_neg (Bool.eq_false_iff.1 he)
  induction h with
  | new => exact fun _ ↦ ⟨{}, hstart, .start⟩
  | @call t d h c hc hp ih =>
    intro hf
    have hfault : d.fault = none := by
      rcases hd : d.fault with _ | f
      · rfl
      · rw [fault_call hd hc] at hf
        cases hf
    obtain ⟨a, ha, ht⟩ := ih hfault
    exact ⟨a, (product_call hc hp).trans ha, ht⟩
  | @reset t d h ih =>
    intro _
    exact ⟨{}, (Product.reset_of_suits h.reached.suits.2).trans hstart, .start⟩
  | process h hr ha ih =>
    obtain ⟨a, ha', ht⟩ := ih hr.2
    cases ha.symm.trans ha'
    exact ⟨ht, hr, by rw [ha]⟩
  | @skip t d a stripped b rest h l hl hs ih =>
    obtain ⟨ht, hr, hrun⟩ := ih
    refine ⟨ht, hr, hrun.trans ?_⟩
    rw [run_of_ready hl]
    exact if_pos hs
  | @lexeme t d a stripped b rest h l hl hs turn hb ih =>
    obtain ⟨ht, hr, hrun⟩ := ih
    refine ⟨ht.begins ho hb, hr, b, hrun.trans ?_⟩
    rw [run_eq_onward hl hs, push_eq, hb, ok_bind]
  | @place t d item a stripped rest h turn hp ih =>
    obtain ⟨ht, hr, b, hrun⟩ := ih
    refine ⟨Tracks.places ht hp, hr, b, hrun.trans ?_⟩
    rw [settle, complete_eq, hp, ok_bind]
  | next h ih =>
    obtain ⟨ht, hr, b, hrun⟩ := ih
    exact ⟨ht, hr, hrun⟩
  | @ready t d item a stripped rest h ih =>
    obtain ⟨ht, hr, b, hrun⟩ := ih
    intro _
    refine ⟨a, ?_, ht⟩
    rw [product_process hr h.reached.suits.1, hrun]
    rfl
  | @waits t d a stripped b h hl ih =>
    obtain ⟨ht, hr, hrun⟩ := ih
    intro _
    refine ⟨a, ?_, ht⟩
    rw [product_process hr h.reached.suits.1, hrun]
    rcases hl with hl | hl
    · rw [run_of_needHeader hl]
      rfl
    · rw [run_of_needContent hl]
      rfl
  | @fails t d h e hp ih =>
    intro hf
    rw [fault_of_process hp] at hf
    cases hf

def Halt.answer : Halt → Except Fault Bool
  | .ready .. => .ok true
  | .waiting .. => .ok false
  | .failed e _ => .error e

theorem answer_process (hd : d.Ready) (ho : d.options = o) :
    d.process.1 = (run o d.product d.stripped d.buffer).answer := by
  subst ho
  rw [process_of_ready hd]
  cases run d.options d.product d.stripped d.buffer <;> rfl

/-- The call `d.process` comes to a tag 29 inside of the tag 28 that it names. -/
def MeetsAncestor (o : Options) (d : Decoder) : Prop :=
  ∃ t i role stack s stripped rest,
    Course o t (.taking d (.finished (.unsigned i) ⟨.tag Tag.sharedRef role :: stack, s⟩)
      stripped rest) ∧ i.toNat ∈ t.enclosing

theorem settled_of_settle {answer : Option Item} (h : Course o t (.taking d turn stripped rest))
    (hs : settle o turn = .ok (answer, a)) :
    ∃ t', Course o t' (.taking d (.settled answer a) stripped rest) := by
  induction hn : turn.assembly.stack.length using Nat.strongRecOn generalizing turn t with
  | ind n ih =>
    cases turn with
    | settled =>
      cases hs
      exact ⟨t, h⟩
    | finished item c =>
      rw [settle, complete_eq] at hs
      obtain ⟨next, hp, hs⟩ := bind_eq_ok.1 hs
      cases next with
      | settled =>
        cases hs
        exact ⟨_, h.place hp⟩
      | finished => exact ih _ (hn ▸ length_lt_of_place hp) (h.place hp) hs rfl

theorem ancestor_of_settle (he : o.flags.contains .edn = false) (ho : o.sharedRef ≠ .off)
    (h : Course o t (.taking d turn stripped rest)) (hs : settle o turn = .error .recursion) :
    MeetsAncestor o d := by
  induction hn : turn.assembly.stack.length using Nat.strongRecOn generalizing turn t with
  | ind n ih =>
    cases turn with
    | settled => cases hs
    | finished item c =>
      obtain ⟨stack, s⟩ := c
      rw [settle, complete_eq] at hs
      cases hp : place o stack s item with
      | ok next =>
        rw [hp] at hs
        cases next with
        | settled => cases hs
        | finished => exact ih _ (hn ▸ length_lt_of_place hp) (h.place hp) hs rfl
      | error e =>
        rw [hp] at hs
        obtain rfl : e = .recursion := Except.error.inj hs
        obtain ⟨number, outer, i, rfl, rfl⟩ := sharedRef_of_place hp
        obtain ⟨ht, -⟩ := h.holds he ho
        have hf := (List.forall_mem_cons.1 ht.fits).1
        obtain rfl : number = Tag.sharedRef := hf.2.2 rfl
        refine ⟨t, i, .sharedRef, outer, s, stripped, rest, h, ?_⟩
        exact (Tracks.closeTag_sharedRef ht i).1.1 (place_tag_eq_error.1 hp)

theorem course_of_reading (he : o.flags.contains .edn = false) (ho : o.sharedRef ≠ .off)
    (h : Course o t (.reading d a stripped b)) :
    (∃ isReady t', d.process.1 = .ok isReady ∧ Course o t' (.idle d.process.2)) ∨
      ∃ e, d.process.1 = .error e ∧ (e = .recursion → MeetsAncestor o d) := by
  induction hn : b.length using Nat.strongRecOn generalizing t a stripped b with
  | ind n ih =>
    obtain ⟨ht, hr, hrun⟩ := h.holds he ho
    have hanswer := answer_process hr h.reached.suits.1
    rw [hrun] at hanswer
    cases hl : Lexeme.read o.maxSize b with
    | error e =>
      rw [run_of_error hl] at hanswer
      refine .inr ⟨e, hanswer, ?_⟩
      rintro rfl
      exact (Lexeme.ordinary_read _ _ _ hl).elim
    | ok reading =>
      cases reading with
      | needHeader =>
        rw [run_of_needHeader hl] at hanswer
        exact .inl ⟨false, t, hanswer, h.waits (.inl hl)⟩
      | needContent =>
        rw [run_of_needContent hl] at hanswer
        exact .inl ⟨false, t, hanswer, h.waits (.inr hl)⟩
      | ready l rest =>
        have hlt : rest.length < n := hn ▸ Lexeme.length_lt_of_read hl
        cases hs : skips o stripped a.stack.isEmpty l with
        | true => exact ih _ hlt (h.skip hl hs) rfl
        | false =>
          rw [run_eq_onward hl hs, push_eq] at hanswer
          cases hb : begin o a l with
          | error e =>
            rw [hb] at hanswer
            refine .inr ⟨e, hanswer, ?_⟩
            rintro rfl
            exact (ordinary_begin _ _ _ hb).elim
          | ok turn =>
            have hturn := h.lexeme hl hs hb
            rw [hb, ok_bind] at hanswer
            rcases hsettle : settle o turn with e | ⟨_ | item, c⟩
            · rw [hsettle] at hanswer
              refine .inr ⟨e, hanswer, ?_⟩
              rintro rfl
              exact ancestor_of_settle he ho hturn hsettle
            · obtain ⟨t', hsettled⟩ := settled_of_settle hturn hsettle
              exact ih _ hlt hsettled.next rfl
            · obtain ⟨t', hsettled⟩ := settled_of_settle hturn hsettle
              rw [hsettle] at hanswer
              exact .inl ⟨true, t', hanswer, hsettled.ready⟩

theorem course_of_call (he : o.flags.contains .edn = false) (ho : o.sharedRef ≠ .off)
    (h : Course o t (.idle d)) (c : Call) : ∃ t', Course o t' (.idle (d.call c).2) := by
  by_cases hc : c = .reset
  · subst hc
    exact ⟨{}, h.reset⟩
  by_cases hp : c = .process ∧ d.Ready
  · obtain ⟨rfl, hr⟩ := hp
    obtain ⟨a, ha, -⟩ := h.holds he ho hr.2
    rcases course_of_reading he ho (h.process hr ha) with ⟨_, t', -, hnext⟩ | ⟨e, hfault, -⟩
    · exact ⟨t', hnext⟩
    · exact ⟨t, h.fails hfault⟩
  · exact ⟨t, h.call hc fun hprocess hr ↦ hp ⟨hprocess, hr⟩⟩

theorem course_of_calls (he : o.flags.contains .edn = false) (ho : o.sharedRef ≠ .off)
    (h : Course o t (.idle d)) (cs : List Call) : ∃ t', Course o t' (.idle (d.calls cs)) := by
  induction cs generalizing t d with
  | nil => exact ⟨t, h⟩
  | cons c cs ih =>
    obtain ⟨t', h'⟩ := course_of_call he ho h c
    exact ih h'

/-- Where shared items are looked up, a reference comes to a fault for being inside of what it names
just where the tag 28 with its number is still open, and to a fault for its number just where not as
many tags 28 have come since the last reset. Else it comes to the item that was completed for that
tag 28, as far as the copies have room. Each such fault is the answer of the call, and no call
answers that a reference is recursive but at such a moment. -/
theorem closeTag_sharedRef_iff {fresh : Decoder} (hn : new o = .ok fresh)
    (he : o.flags.contains .edn = false) (ho : o.sharedRef ≠ .off) :
    (∀ cs, ∃ t, Course o t (.idle (fresh.calls cs))) ∧
    (∀ t d i role stack s stripped rest,
      Course o t (.taking d (.finished (.unsigned i) ⟨.tag Tag.sharedRef role :: stack, s⟩)
        stripped rest) →
      let closed := closeTag o Tag.sharedRef role (.unsigned i) s.leave
      (closed = .error .recursion ↔ i.toNat ∈ t.enclosing) ∧
        (closed = .error (.tagValue Tag.sharedRef) ↔ t.opened < i.toNat + 1) ∧
        (i.toNat ∉ t.enclosing → i.toNat < t.opened →
          ∃ item, t.completed.lookup i.toNat = some item ∧
            (o.sharedRef = .shareable → ∃ content, item = .shareable i.toNat content) ∧
            closed =
              if s.expanded + item.footprint ≤ o.maxSize then
                .ok (item, { s.leave with expanded := s.expanded + item.footprint })
              else .error .unsupportedSize) ∧
        (∀ e, closed = .error e → d.process.1 = .error e)) ∧
    (∀ t d, Course o t (.idle d) → d.Ready → d.process.1 = .error .recursion →
      MeetsAncestor o d) := by
  obtain ⟨⟨⟩, -, hn⟩ := bind_eq_ok.1 hn
  cases hn
  refine ⟨course_of_calls he ho .new, ?_, ?_⟩
  · intro t d i role stack s stripped rest h closed
    obtain ⟨ht, hr, b, hrun⟩ := h.holds he ho
    obtain ⟨hrecursion, hvalue, hitem⟩ := Tracks.closeTag_sharedRef ht i
    refine ⟨hrecursion, hvalue, hitem, fun e hclosed ↦ ?_⟩
    have hp : place o (.tag Tag.sharedRef role :: stack) s (.unsigned i) = .error e :=
      place_tag_eq_error.2 hclosed
    rw [answer_process hr h.reached.suits.1, hrun, settle, complete_eq, hp]
    rfl
  · intro t d h hr hfault
    obtain ⟨a, ha, -⟩ := h.holds he ho hr.2
    rcases course_of_reading he ho (h.process hr ha) with ⟨_, _, hok, -⟩ | ⟨e, hanswer, hmeets⟩
    · rw [hok] at hfault
      cases hfault
    · exact hmeets (Except.error.inj (hanswer.symm.trans hfault))

/-- The next stage inside of a call. -/
def advance? (o : Options) (t : Ancestry) : Stage → Option (Ancestry × Stage)
  | .reading d a stripped b =>
    match Lexeme.read o.maxSize b with
    | .ok (.ready l rest) =>
      if skips o stripped a.stack.isEmpty l then some (t, .reading d a true rest)
      else
        match begin o a l with
        | .ok turn => some (t.meets l, .taking d turn stripped rest)
        | .error _ => none
    | _ => none
  | .taking d (.finished item a) stripped rest =>
    match place o a.stack a.scope item with
    | .ok turn => some (t.places a.stack turn, .taking d turn stripped rest)
    | .error _ => none
  | .taking d (.settled none a) stripped rest => some (t, .reading d a stripped rest)
  | _ => none

def advances? (o : Options) : Nat → Ancestry → Stage → Option (Ancestry × Stage)
  | 0, t, stage => some (t, stage)
  | n + 1, t, stage => (advance? o t stage).bind fun next ↦ advances? o n next.1 next.2

theorem Course.advance {next : Ancestry × Stage} (h : Course o t stage)
    (ha : advance? o t stage = some next) : Course o next.1 next.2 := by
  revert ha
  fun_cases advance? o t stage <;> intro ha <;> cases ha
  case case1 hl hs => exact h.skip hl hs
  case case2 hl hs _ hb => exact h.lexeme hl (Bool.eq_false_iff.2 hs) hb
  case case5 hp => exact h.place hp
  case case7 => exact h.next

theorem Course.advances {n : Nat} {t' : Ancestry} {stage' : Stage} (h : Course o t stage)
    (ha : advances? o n t stage = some (t', stage')) : Course o t' stage' := by
  induction n generalizing t stage with
  | zero =>
    cases ha
    exact h
  | succ n ih =>
    obtain ⟨next, hnext, ha⟩ := Option.bind_eq_some_iff.1 ha
    exact ih (h.advance hnext) ha

/-- In `28([28(1), 29(1), 29(0)])` the first reference is the item that is complete, and the second
one is inside of what it names. -/
theorem closeTag_sharedRef_iff_inside :
    let o : Options := { sharedRef := .on }
    let octets : Octets := [0xD8, 0x1C, 0x83, 0xD8, 0x1C, 0x01, 0xD8, 0x1D, 0x01, 0xD8, 0x1D, 0x00]
    let d := (start o).calls [.add octets]
    let outer : Frame := .tag Tag.shareable (.shareable 0)
    let shared : SharedItems := #[none, some (.unsigned 1, 1)]
    let t : Ancestry := ⟨2, [0], [(1, .unsigned 1)]⟩
    let closed (i : UInt64) (s : Scope) := closeTag o Tag.sharedRef .sharedRef (.unsigned i) s.leave
    new o = .ok (start o) ∧
      Course o t (.taking d (.finished (.unsigned 1)
        ⟨[.tag Tag.sharedRef .sharedRef, .array #[.unsigned 1] (some 2), outer],
          ⟨3, 0, [], shared⟩⟩) false [0xD8, 0x1D, 0x00]) ∧
      closed 1 ⟨3, 0, [], shared⟩ = .ok (.unsigned 1, ⟨2, 1, [], shared⟩) ∧
      Course o t (.taking d (.finished (.unsigned 0)
        ⟨[.tag Tag.sharedRef .sharedRef, .array #[.unsigned 1, .unsigned 1] (some 1), outer],
          ⟨3, 1, [], shared⟩⟩) false []) ∧
      closed 0 ⟨3, 1, [], shared⟩ = .error .recursion ∧
      d.process.1 = .error .recursion ∧ MeetsAncestor o d := by
  intro o octets d outer shared t closed
  have hn : new o = .ok (start o) := by cbv
  have ha : d.product = .items {} := by
    unfold d
    cbv
  have hidle : Course o {} (.idle d) := Course.new.call (c := .add octets) (by decide) (by simp)
  have hreading : Course o {} (.reading d {} false octets) := hidle.process ⟨rfl, rfl⟩ ha
  -- four lexemes, of which the last completes the inner tag 28, then a tag 29 and its content
  have hfirst : Course o t (.taking d (.finished (.unsigned 1)
      ⟨[.tag Tag.sharedRef .sharedRef, .array #[.unsigned 1] (some 2), outer],
        ⟨3, 0, [], shared⟩⟩) false [0xD8, 0x1D, 0x00]) :=
    hreading.advances (n := 13) rfl
  have hsecond : Course o t (.taking d (.finished (.unsigned 0)
      ⟨[.tag Tag.sharedRef .sharedRef, .array #[.unsigned 1, .unsigned 1] (some 1), outer],
        ⟨3, 1, [], shared⟩⟩) false []) :=
    hfirst.advances (n := 6) rfl
  obtain ⟨-, hcloses, hanswer⟩ := closeTag_sharedRef_iff hn (by decide) (by decide)
  obtain ⟨-, -, hfound, -⟩ := hcloses _ _ _ _ _ _ _ _ hfirst
  obtain ⟨hrecursion, -, -, hfault⟩ := hcloses _ _ _ _ _ _ _ _ hsecond
  obtain ⟨item, hitem, -, hclosed⟩ := hfound (by decide) (by decide)
  cases hitem
  have hclosed' := hrecursion.2 (by decide)
  exact ⟨hn, hfirst, hclosed, hsecond, hclosed', hfault _ hclosed',
    hanswer _ _ hidle ⟨rfl, rfl⟩ (hfault _ hclosed')⟩

end Cbor.Decoder
