import Cbor.Proofs.Assembly.Steps
import Cbor.Proofs.Decoder.Run
import Cbor.Proofs.Diagnostic.Outline
import Cbor.Proofs.Wire.Spelling

namespace Cbor.Decoder

open Wire (Spelling)

namespace Product

variable (o : Options)

/-- Takes lexemes until a top-level item is complete; the answer is that item, if any, with the
lexemes behind it. -/
def assemble (p : Product) : List Lexeme → Except Fault (Option (Item × List Lexeme) × Product)
  | [] => .ok (none, p)
  | l :: ls => do
    match ← p.push o l with
    | (some item, p) => return (some (item, ls), p)
    | (none, p) => assemble p ls

variable {o}

theorem assemble_of_error {p : Product} {l : Lexeme} {e : Fault} (h : p.push o l = .error e)
    (ls : List Lexeme) : p.assemble o (l :: ls) = .error e := by
  rw [assemble, h]
  rfl

theorem assemble_of_item {p q : Product} {l : Lexeme} {item : Item}
    (h : p.push o l = .ok (some item, q)) (ls : List Lexeme) :
    p.assemble o (l :: ls) = .ok (some (item, ls), q) := by
  rw [assemble, h]
  rfl

theorem assemble_of_none {p q : Product} {l : Lexeme} (h : p.push o l = .ok (none, q))
    (ls : List Lexeme) : p.assemble o (l :: ls) = q.assemble o ls := by
  rw [assemble, h]
  rfl

theorem assemble_items (a : Assembly) (ls : List Lexeme) :
    (items a).assemble o ls = (fun r ↦ (r.1, items r.2)) <$> a.assemble o ls := by
  induction ls generalizing a with
  | nil => rfl
  | cons l ls ih =>
    rw [Assembly.assemble_cons]
    cases h : a.push o l with
    | error e => exact assemble_of_error (by rw [push, h]; rfl) ls
    | ok r =>
      obtain ⟨_ | item, b⟩ := r
      · rw [assemble_of_none (q := items b) (by rw [push, h]; rfl), ih]
        rfl
      · exact assemble_of_item (by rw [push, h]; rfl) ls

theorem isEmpty_start (o : Options) : (start o).isEmpty = true := by
  unfold start
  split <;> rfl

theorem isEmpty_of_push {p q : Product} {l : Lexeme} (h : p.push o l = .ok (none, q)) :
    q.isEmpty = false := by
  cases p with
  | items a =>
    obtain ⟨⟨_, _⟩, ha, h⟩ := bind_eq_ok.1 h
    cases h
    exact List.isEmpty_eq_false_iff.2 (Assembly.stack_ne_nil_of_push ha)
  | diagnostic t =>
    simp only [push] at h
    split at h
    case h_2 hp =>
      cases h
      exact List.isEmpty_eq_false_iff.2 (Diagnostic.Transcript.stack_ne_nil_of_push hp)
    all_goals cases h

end Product

variable {o : Options} {ls : List Lexeme} {b : Octets}

theorem skips_of_isEmpty {stripped : Bool} {l : Lexeme} : skips o stripped false l = false := by
  simp [skips]

inductive Takes (o : Options) (p : Product) (stripped : Bool) (ls : List Lexeme) (b c : Octets) :
    Prop
  | failed {e : Fault} {rest : Octets} (ha : p.assemble o ls = .error e)
    (hr : run o p stripped (b ++ c) = .failed e rest) : Takes o p stripped ls b c
  | ready {item : Item} {behind : List Lexeme} {d : Octets} {q : Product}
    (ha : p.assemble o ls = .ok (some (item, behind), q)) (hd : Spelling behind d)
    (hr : run o p stripped (b ++ c) = .ready item (d ++ c) q) : Takes o p stripped ls b c
  | begun {q : Product} (ha : p.assemble o ls = .ok (none, q))
    (hr : run o p stripped (b ++ c) = run o q stripped c) : Takes o p stripped ls b c

theorem takes_of_spelling (hb : Spelling ls b) (hf : ∀ l ∈ ls, l.Fits o.maxSize)
    (hm : o.maxSize < UInt64.size) {p : Product} {stripped : Bool}
    (hs : ∀ l ∈ ls.head?, skips o stripped p.isEmpty l = false) (c : Octets) :
    Takes o p stripped ls b c := by
  induction hb generalizing p with
  | nil => exact .begun rfl rfl
  | @cons l ls b d hl hb ih =>
    have hr := Lexeme.read_of_form hl (hf l List.mem_cons_self) hm (d ++ c)
    have hrun : run o p stripped (b ++ (d ++ c)) = _ := run_of_ready hr
    rw [← List.append_assoc, if_neg (by simp [hs l rfl])] at hrun
    cases hp : p.push o l with
    | error e =>
      rw [hp] at hrun
      exact .failed (Product.assemble_of_error hp ls) hrun
    | ok r =>
      rw [hp] at hrun
      obtain ⟨_ | item, q⟩ := r
      · -- inside of an item no tag is skipped
        have hq := Product.isEmpty_of_push hp
        have ha := Product.assemble_of_none hp ls
        have ih := ih (fun m hm ↦ hf m (List.mem_cons_of_mem _ hm)) (p := q)
          fun m _ ↦ by rw [hq, skips_of_isEmpty]
        cases ih with
        | failed ha' hr => exact .failed (ha.trans ha') (hrun.trans hr)
        | ready ha' hd hr => exact .ready (ha.trans ha') hd (hrun.trans hr)
        | begun ha' hr => exact .begun (ha.trans ha') (hrun.trans hr)
      · exact .ready (Product.assemble_of_item hp ls) hb hrun

/-- The octets of an item that a run makes ready spell lexemes that assemble to it, behind a
self-describe tag if that is skipped. -/
theorem spelling_of_run {p q : Product} {stripped : Bool} {item : Item} {rest : Octets}
    (h : run o p stripped b = .ready item rest q) :
    ∃ ls used, b = used ++ rest ∧ Spelling ls used ∧
      ((∀ l ∈ ls.head?, skips o stripped p.isEmpty l = false) ∧
        p.assemble o ls = .ok (some (item, []), q) ∨
      ∃ l ls', ls = l :: ls' ∧ skips o stripped p.isEmpty l = true ∧
        p.assemble o ls' = .ok (some (item, []), q)) := by
  fun_induction run o p stripped b with
  | case1 | case2 | case3 | case5 => cases h
  | case4 p stripped b l rest' hr hs ih =>
    obtain ⟨first, rfl, hl⟩ := Lexeme.form_of_read hr
    obtain ⟨ls, used, rfl, hls, ⟨_, ha⟩ | ⟨m, _, _, hm, _⟩⟩ := ih h
    · exact ⟨l :: ls, first ++ used, by simp, .cons hl hls, .inr ⟨l, ls, rfl, hs, ha⟩⟩
    · simp [skips] at hm
  | case6 p stripped b l rest' hr hs found q' hq =>
    cases h
    obtain ⟨first, rfl, hl⟩ := Lexeme.form_of_read hr
    refine ⟨[l], first ++ [], by simp, .cons hl .nil, .inl ⟨?_, Product.assemble_of_item hq []⟩⟩
    intro m hm
    cases hm
    simpa using hs
  | case7 p stripped b l rest' hr hs q' hq ih =>
    have hempty := Product.isEmpty_of_push hq
    obtain ⟨first, rfl, hl⟩ := Lexeme.form_of_read hr
    obtain ⟨ls, used, rfl, hls, ⟨_, ha⟩ | ⟨m, _, _, hm, _⟩⟩ := ih h
    · refine ⟨l :: ls, first ++ used, by simp, .cons hl hls, .inl ⟨?_, ?_⟩⟩
      · intro m hm
        cases hm
        simpa using hs
      · exact (Product.assemble_of_none hq ls).trans ha
    · rw [hempty, skips_of_isEmpty] at hm
      cases hm

end Cbor.Decoder
