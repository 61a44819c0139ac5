import Cbor.Proofs.Decoder.Items
import Cbor.Proofs.Decoder.Whole

namespace Cbor.Decoder

variable {o : Options} {p q : Product} {stripped : Bool} {b rest : Octets}

theorem isEmpty_of_waiting {s forContent : Bool}
    (h : run o p stripped b = .waiting rest q s forContent) (hp : p.isEmpty = false) :
    q.isEmpty = false := by
  fun_induction run o p stripped b with
  | case1 | case5 | case6 => cases h
  | case2 | case3 =>
    cases h
    exact hp
  | case4 p stripped b l c hr hs ih =>
    rw [hp, skips_of_isEmpty] at hs
    cases hs
  | case7 p stripped b l c hr hs q' hq ih => exact ih h (Product.isEmpty_of_push hq)

/-- A decoder that holds nothing has read nothing, or else a tag that it has skipped. -/
theorem eq_nil_or_skips_of_waiting {s forContent : Bool}
    (h : run o p stripped b = .waiting [] q s forContent) (hq : q.isEmpty = true) :
    b = [] ∨ ∃ l c, Lexeme.read o.maxSize b = .ok (.ready l c) ∧
      skips o stripped p.isEmpty l = true ∧ run o p true c = .waiting [] q s forContent := by
  fun_cases run o p stripped b with
  | case1 _ hr =>
    rw [run_of_error hr] at h
    cases h
  | case2 hr =>
    rw [run_of_needHeader hr] at h
    cases h
    exact .inl rfl
  | case3 hr =>
    rw [run_of_needContent hr] at h
    cases h
    exact .inl rfl
  | case4 l c hr hs =>
    rw [run_of_ready hr, if_pos hs] at h
    exact .inr ⟨l, c, hr, hs, h⟩
  | case5 l c hr hs e hp =>
    rw [run_of_ready hr, if_neg hs, hp] at h
    cases h
  | case6 l c hr hs item q' hp =>
    rw [run_of_ready hr, if_neg hs, hp] at h
    cases h
  | case7 l c hr hs q' hp =>
    rw [run_of_ready hr, if_neg hs, hp] at h
    exact absurd hq (Bool.eq_false_iff.1 (isEmpty_of_waiting h (Product.isEmpty_of_push hp)))

/-- What is left of a stream behind its last item, if a decoder sees nothing of it. -/
def Unnoticed (o : Options) (tail : Octets) : Prop :=
  tail = [] ∨
    o.flags.contains .selfDescribe = false ∧ (Lexeme.tag Tag.selfDescribe).Form tail

theorem unnoticed_of_waiting {s forContent : Bool}
    (h : run o p false b = .waiting [] q s forContent) (hq : q.isEmpty = true) :
    Unnoticed o b := by
  rcases eq_nil_or_skips_of_waiting h hq with rfl | ⟨l, c, hr, hs, h⟩
  · exact .inl rfl
  · obtain ⟨⟨rfl, -⟩, hf⟩ :
        (l = .tag Tag.selfDescribe ∧ _) ∧ o.flags.contains .selfDescribe = false := by
      simpa [skips] using hs
    -- only one tag is skipped
    rcases eq_nil_or_skips_of_waiting h hq with rfl | ⟨_, _, _, hs, _⟩
    · obtain ⟨used, rfl, hform⟩ := Lexeme.form_of_read hr
      rw [List.append_nil]
      exact .inr ⟨hf, hform⟩
    · simp [skips] at hs

theorem drain_of_unnoticed (h : Unnoticed o b) (taken : Array Item) :
    ∃ s, ((start o).append b).drain taken =
      (taken, .ok (), { start o with stripped := s }) := by
  obtain ⟨s, hrun⟩ : ∃ s, run o (.start o) false b = .waiting [] (.start o) s false := by
    rcases h with rfl | ⟨hf, hform⟩
    · exact ⟨false, run_of_needHeader rfl⟩
    · have hr : Lexeme.read o.maxSize (b ++ []) = .ok (.ready (.tag Tag.selfDescribe) []) :=
        Lexeme.read_of_headForm hform (by decide) o.maxSize []
      rw [List.append_nil] at hr
      have hs : skips o false (Product.start o).isEmpty (.tag Tag.selfDescribe) = true := by
        simp [skips, Product.isEmpty_start, hf]
      refine ⟨true, ?_⟩
      rw [run_of_ready hr, if_pos hs]
      exact run_of_needHeader rfl
  refine ⟨s, ?_⟩
  rw [drain_eq, process_of_ready ⟨rfl, rfl⟩]
  simp only [append, start, List.nil_append, hrun]

/-- What is taken out of a stream comes of pieces that decode as a whole. -/
theorem exists_pieces_of_drain (hc : o.check = .ok ()) (ho : o.sharedRef = .off)
    (hs : b.length ≤ o.maxSize) {taken items : Array Item} {e : Decoder}
    (h : ((start o).append b).drain taken = (items, .ok (), e)) (he : e.isPartial = false) :
    ∃ (pieces : List Octets) (tail : Octets), b = pieces.flatten ++ tail ∧ Unnoticed o tail ∧
      ∀ piece ∈ pieces, ∃ item, decode piece o.whole = .ok item := by
  generalize hd : (start o).append b = d at h
  fun_induction drain d taken generalizing b with
  | case1 => cases h
  | case2 d taken f hp =>
    cases h
    subst hd
    rw [process_of_ready ⟨rfl, rfl⟩] at hp
    split at hp <;> cases hp
    rename_i rest q s forContent hr
    obtain ⟨rfl, hq⟩ : rest = [] ∧ q.isEmpty = true := by simpa [isPartial] using he
    exact ⟨[], b, rfl, unnoticed_of_waiting hr hq, List.forall_mem_nil _⟩
  | case3 d taken next hp ih =>
    subst hd
    rw [process_of_ready ⟨rfl, rfl⟩] at hp
    split at hp <;> cases hp
    rename_i item rest q hr
    obtain rfl := eq_start_of_run ho (Product.steady_start o) hr
    obtain ⟨used, rfl, hused⟩ := exists_used_of_run hr
    have hle : (used ++ rest).length = used.length + rest.length := List.length_append
    obtain ⟨pieces, tail, rfl, htail, hpieces⟩ := ih (b := rest) (by omega) rfl h
    refine ⟨used :: pieces, tail, by simp, htail, ?_⟩
    refine List.forall_mem_cons.2 ⟨⟨item, (decode_whole_iff hc ?_).2 ⟨_, hused⟩⟩, hpieces⟩
    omega

/-- A decoder that has taken what there is to take from a stream, without a fault, is in the middle
of an item unless the stream is made of whole items; a tag that it skips is not seen. -/
theorem isPartial_of_feed {d : Decoder} (hd : new o = .ok d) (ho : o.sharedRef = .off)
    {data : Octets} (hs : data.length ≤ o.maxSize) {items : Array Item} {e : Decoder}
    (h : d.feed #[] data = (items, .ok (), e)) :
    e.isPartial = false ↔
      ∃ (pieces : List Octets) (tail : Octets), data = pieces.flatten ++ tail ∧ Unnoticed o tail ∧
        ∀ piece ∈ pieces, ∃ item, decode piece o.whole = .ok item := by
  obtain ⟨⟨⟩, hc, hd⟩ := bind_eq_ok.1 hd
  cases hd
  have hdrain : ((start o).append data).drain #[] = (items, .ok (), e) := by
    rw [← h, feed_eq_drain ⟨rfl, rfl⟩]
    simpa [start] using hs
  constructor
  · intro he
    exact exists_pieces_of_drain hc ho hs hdrain he
  · rintro ⟨pieces, tail, rfl, htail, hpieces⟩
    obtain ⟨decoded, hdecoded⟩ := exists_mapM hpieces
    obtain ⟨s, htaken⟩ := drain_of_unnoticed htail ((#[] : Array Item) ++ decoded)
    rw [drain_flatten hc ho hdecoded tail #[], htaken] at hdrain
    cases hdrain
    simp [isPartial, start, Product.isEmpty_start]

theorem isPartial_of_feed_skipped :
    let data : Octets := [0x01, 0xD9, 0xD9, 0xF7]
    ∃ e : Decoder, new {} = .ok (start {}) ∧ data.length ≤ Options.maxSize {} ∧
      (start {}).feed #[] data = (#[.unsigned 1], .ok (), e) ∧
      (e.isPartial = false ↔
        ∃ (pieces : List Octets) (tail : Octets), data = pieces.flatten ++ tail ∧
          Unnoticed {} tail ∧
          ∀ piece ∈ pieces, ∃ item, decode piece (Options.whole {}) = .ok item) := by
  have hone : decode [0x01] (Options.whole {}) = .ok (.unsigned 1) := by
    have h := Wire.decode_octets (w := .scalar (.unsigned 1)) (o := Options.whole {}) rfl
      (by decide) (by decide) (by decide)
    exact h.trans rfl
  have hitems : [[0x01]].mapM (decode · (Options.whole {})) = .ok [.unsigned 1] := by
    simp [hone]
  have htail : Unnoticed {} [0xD9, 0xD9, 0xF7] := .inr ⟨rfl, Head.form_write 6 Tag.selfDescribe⟩
  obtain ⟨s, hs⟩ := drain_of_unnoticed htail #[.unsigned 1]
  have hfeed := (drain_flatten rfl rfl hitems [0xD9, 0xD9, 0xF7] #[]).trans hs
  exact ⟨_, rfl, by decide, hfeed, isPartial_of_feed (o := {}) rfl rfl (by decide) hfeed⟩

/-- Alone, a self-describe tag is no item, but a decoder that has skipped it takes the stream for
complete. -/
theorem isPartial_of_skipped :
    ¬ ∀ (data : Octets) (items : Array Item) (e : Decoder), data.length ≤ Options.maxSize {} →
      (start {}).feed #[] data = (items, .ok (), e) →
      (e.isPartial = false ↔ ∃ pieces : List Octets, data = pieces.flatten ∧
        ∀ piece ∈ pieces, ∃ item, decode piece (Options.whole {}) = .ok item) := by
  intro h
  have htail : Unnoticed {} [0xD9, 0xD9, 0xF7] := .inr ⟨rfl, Head.form_write 6 Tag.selfDescribe⟩
  obtain ⟨s, hs⟩ := drain_of_unnoticed htail #[]
  obtain ⟨pieces, hdata, hpieces⟩ := (h [0xD9, 0xD9, 0xF7] #[] _ (by decide) hs).1 rfl
  obtain ⟨items, hitems⟩ := exists_mapM hpieces
  -- each piece would have given an item
  obtain ⟨_, hnil⟩ := drain_of_unnoticed (o := {}) (.inl rfl) ((#[] : Array Item) ++ items)
  have hdrain := (drain_flatten rfl rfl hitems [] #[]).trans hnil
  rw [List.append_nil, ← hdata, hs] at hdrain
  obtain rfl : items = [] := by simpa using (Prod.ext_iff.1 hdrain).1
  obtain rfl : pieces = [] := List.length_eq_zero_iff.1 (length_of_mapM hitems).symm
  cases hdata

end Cbor.Decoder
