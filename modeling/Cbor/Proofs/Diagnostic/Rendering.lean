import Cbor.Diagnostic.Render
import Cbor.Proofs.Decoder.Whole
import Cbor.Proofs.Flags

namespace Cbor

namespace Decoder

variable {o : Options} {b rest : Octets} {t u : Diagnostic.Transcript} {stripped : Bool}
  {l : Lexeme}

/-- The same options, for diagnostic notation in place of items. -/
def Options.asNotation (o : Options) : Options := { o with flags := o.flags ||| .edn }

theorem Product.start_asNotation (o : Options) : start o.asNotation = .diagnostic {} :=
  if_pos (Flags.contains_or_right o.flags .edn)

theorem Options.check_asNotation :
    o.asNotation.check = .ok () ↔ o.check = .ok () ∧ o.edn.check = .ok () := by
  have hf : o.asNotation.flags.checkReading = o.flags.checkReading :=
    Flags.checkReading_or o.flags (by decide) (by decide)
  have he : o.asNotation.flags.contains .edn = true := Flags.contains_or_right o.flags .edn
  rw [check_eq_ok, check_eq_ok, hf, he]
  constructor
  · rintro ⟨hf, hd, hm, hs⟩
    exact ⟨⟨hf, hd, hm, fun _ ↦ hs rfl⟩, hs rfl⟩
  · rintro ⟨⟨hf, hd, hm, _⟩, hs⟩
    exact ⟨hf, hd, hm, fun _ ↦ hs⟩

theorem skips_asNotation (o : Options) : skips o.asNotation = skips o := by
  have hself : o.asNotation.flags.contains .selfDescribe = o.flags.contains .selfDescribe :=
    Flags.contains_or_of_disjoint (by decide)
  funext stripped isEmpty l
  rw [skips, skips, hself]

theorem run_asNotation (h : Lexeme.read o.maxSize b = .ok (.ready l rest)) :
    run o.asNotation (.diagnostic t) stripped b =
      if skips o stripped t.stack.isEmpty l then run o.asNotation (.diagnostic t) true rest
      else
        match Product.push o (.diagnostic t) l with
        | .error e => .failed e b
        | .ok (some item, product) => .ready item rest product
        | .ok (none, product) => run o.asNotation product stripped rest := by
  have hpush : Product.push o.asNotation (.diagnostic t) l = Product.push o (.diagnostic t) l := by
    have hstyle : o.asNotation.edn = o.edn := rfl
    rw [Product.push, Product.push, Diagnostic.Transcript.push_congr hstyle rfl]
  rw [run_of_ready (o := o.asNotation) h, skips_asNotation, hpush]
  rfl

end Decoder

namespace Diagnostic

open Decoder (Options Product run run_of_error run_of_needHeader run_of_needContent run_asNotation)

variable {o : Options} {data : Octets}

def result : Option Fault × Transcript → Except Fault Item
  | (none, t) => .ok (.ofText t.page.out.toList)
  | (some e, _) => .error e

/-- Reading into a transcript ends as rendering does, with the same text or the same fault. -/
theorem outcome_run (o : Options) (t : Transcript) (stripped : Bool) (b : Octets) :
    (run o.asNotation (.diagnostic t) stripped b).outcome >>= Decoder.single =
      result (transcribe o t stripped b) := by
  fun_induction transcribe o t stripped b with
  | case1 t stripped b e hr =>
    rw [run_of_error (o := o.asNotation) hr]
    rfl
  | case2 t stripped b hr =>
    rw [run_of_needHeader (o := o.asNotation) hr]
    rfl
  | case3 t stripped b hr =>
    rw [run_of_needContent (o := o.asNotation) hr]
    rfl
  | case4 t stripped b l rest hr hs ih =>
    rw [run_asNotation hr, if_pos hs]
    exact ih
  | case5 t stripped b l rest hr hs e u hp =>
    rw [run_asNotation hr, if_neg hs, Product.push, hp]
    rfl
  | case6 t stripped b l rest hr hs u hp =>
    rw [run_asNotation hr, if_neg hs, Product.push, hp]
    cases rest <;> rfl
  | case7 t stripped b l rest hr hs u hp ih =>
    rw [run_asNotation hr, if_neg hs, Product.push, hp]
    exact ih

theorem decode_asNotation (hs : (data.window o.offset o.length).length ≤ o.maxSize) :
    decode data o.asNotation = o.asNotation.check >>= fun _ ↦
      result (transcribe o {} false (data.window o.offset o.length)) := by
  have hinput : data.window o.asNotation.offset o.asNotation.length =
    data.window o.offset o.length := rfl
  rw [decode_eq hinput hs, Product.start_asNotation]
  simp only [outcome_run]

theorem render_eq (hc : o.check = .ok ()) (hs : o.edn.check = .ok ()) :
    render data o = match transcribe o {} false (data.window o.offset o.length) with
      | (none, t) => .ok t.page.out.toList
      | (some e, t) =>
        let text := (t.page.out.popWhile Char.isWhitespace).toList
        .ok (text ++ (if text.isEmpty then [] else [' ']) ++ errorComment e) := by
  rw [render, hc, hs]
  rfl

/-- Decoding to notation gives the text that rendering gives, and fails with the fault that is in
the comment at the end of what rendering gives. -/
theorem render_of_decode (hc : o.asNotation.check = .ok ())
    (hs : (data.window o.offset o.length).length ≤ o.maxSize) :
    (∀ v, decode data o.asNotation = .ok v → ∃ t, v = .ofText t ∧ render data o = .ok t) ∧
      ∀ e, decode data o.asNotation = .error e →
        ∃ t, render data o = .ok (t ++ errorComment e) := by
  obtain ⟨hvalid, hstyle⟩ := Options.check_asNotation.1 hc
  rw [decode_asNotation hs, hc, ok_bind, render_eq hvalid hstyle]
  rcases transcribe o {} false (data.window o.offset o.length) with ⟨_ | fault, t⟩
  · refine ⟨fun v hv ↦ ?_, nofun⟩
    cases hv
    exact ⟨_, rfl, rfl⟩
  · refine ⟨nofun, fun e he ↦ ?_⟩
    cases he
    exact ⟨_, rfl⟩

/-- An array of two elements ends after the first one. -/
theorem render_of_decode_break :
    let o : Options := { edn := { indent := .tab } }
    let data : Octets := [0x82, 0x01, 0xFF]
    o.asNotation.check = .ok () ∧ (data.window o.offset o.length).length ≤ o.maxSize ∧
      decode data o.asNotation = .error (.grammar .breakUnexpected) ∧
      ∃ t, render data o = .ok (t ++ "/ERROR:5 (syntax)/".toList) := by
  have hcheck : Options.check { edn := { indent := .tab } } = .ok () := rfl
  intro o data
  have harray : Lexeme.read o.maxSize data = .ok (.ready (.array (some 2)) [0x01, 0xFF]) := rfl
  have hone : Lexeme.read o.maxSize [0x01, 0xFF] = .ok (.ready (.unsigned 1) [0xFF]) := rfl
  have hstop : Lexeme.read o.maxSize [0xFF] = .ok (.ready .stop []) := rfl
  have hrun : run o.asNotation (.diagnostic {}) false data =
      .failed (.grammar .breakUnexpected) [0xFF] :=
    (run_asNotation harray).trans ((run_asNotation hone).trans (run_asNotation hstop))
  have hc : o.asNotation.check = .ok () := Options.check_asNotation.2 ⟨hcheck, rfl⟩
  have hd : decode data o.asNotation = .error (.grammar .breakUnexpected) := by
    rw [decode_eq rfl (by decide), hc, Product.start_asNotation]
    exact congrArg (·.outcome >>= Decoder.single) hrun
  exact ⟨hc, by decide, hd, (render_of_decode hc (by decide)).2 _ hd⟩

end Diagnostic
end Cbor
