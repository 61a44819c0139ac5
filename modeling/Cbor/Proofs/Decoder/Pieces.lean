import Cbor.Decoder.Stream
import Cbor.Proofs.Decoder.Run

namespace Cbor

theorem Head.argument?_append {minor width : Nat} {b rest : Octets} {n : UInt64} (c : Octets)
    (h : argument? minor width b = some (n, rest)) :
    argument? minor width (b ++ c) = some (n, rest ++ c) := by
  unfold argument? at h ⊢
  split at h
  · simp_all
  · simp only [List.splitAt_eq, List.length_take, Option.ite_none_right_eq_some,
      Option.some.injEq, Prod.mk.injEq] at h
    obtain ⟨hw, rfl, rfl⟩ := h
    have hle : width ≤ b.length := by omega
    simp [*, List.take_append_of_le_length, List.drop_append_of_le_length]

/-- What the reading `r` of some input has settled, `r'` keeps, with `c` behind the rest. -/
def Reading.Settles (c : Octets) : Except Fault Reading → Except Fault Reading → Prop
  | .error e, r' => r' = .error e
  | .ok (.ready l rest), r' => r' = .ok (.ready l (rest ++ c))
  | .ok _, _ => True

namespace Lexeme

open Reading (Settles)

theorem readString_append (maxSize : Nat) (make : Octets → Lexeme) (n : UInt64) (b c : Octets) :
    Settles c (readString maxSize make n b) (readString maxSize make n (b ++ c)) := by
  by_cases hn : n.toNat ≤ maxSize
  · by_cases hb : n.toNat ≤ b.length
    · simp [readString, checkSize, hn, hb, bind, Except.bind, pure, Except.pure, Settles,
        List.take_append_of_le_length, List.drop_append_of_le_length]
    · have hlt : ¬ min n.toNat b.length = n.toNat := by omega
      simp [readString, checkSize, hn, hlt, bind, Except.bind, pure, Except.pure, Settles]
  · simp [readString, checkSize, hn, bind, Except.bind, Settles]

theorem ofHead_append (maxSize major minor : Nat) (n : UInt64) (b c : Octets) :
    Settles c (ofHead maxSize major minor n b) (ofHead maxSize major minor n (b ++ c)) := by
  unfold ofHead
  split
  case h_3 | h_4 => exact readString_append maxSize _ n b c
  case h_5 | h_6 => by_cases hn : n.toNat ≤ maxSize <;> simp [checkSize, hn, Settles, bind,
    Except.bind, pure, Except.pure]
  case h_8 => cases ofSimple minor n <;> simp [Settles, bind, Except.bind, pure, Except.pure]
  all_goals rfl

/-- A lexeme is what it is, and a fault in it too, whatever follows. -/
theorem read_append (maxSize : Nat) (b c : Octets) :
    Settles c (read maxSize b) (read maxSize (b ++ c)) := by
  cases b with
  | nil => trivial
  | cons x b =>
    simp only [read, List.cons_append]
    split
    · split <;> rfl
    · cases Head.argumentWidth? (x.toNat % 32) with
      | none => rfl
      | some width =>
        dsimp only
        cases ha : Head.argument? (x.toNat % 32) width b with
        | none => trivial
        | some p =>
          rw [Head.argument?_append c ha]
          exact ofHead_append ..

end Lexeme

namespace Decoder

variable {o : Options} {product : Product} {stripped : Bool} {b rest : Octets}

def Halt.resume (o : Options) (c : Octets) : Halt → Halt
  | .ready item rest product => .ready item (rest ++ c) product
  | .waiting rest product stripped _ => run o product stripped (rest ++ c)
  | .failed e rest => .failed e (rest ++ c)

theorem run_append (o : Options) (product : Product) (stripped : Bool) (b c : Octets) :
    run o product stripped (b ++ c) = (run o product stripped b).resume o c := by
  fun_induction run o product stripped b with
  | case1 product stripped b e hr =>
    have h := Lexeme.read_append o.maxSize b c
    rw [hr] at h
    exact run_of_error h
  | case2 | case3 => rfl
  | case4 product stripped b l rest hr hs ih =>
    have h := Lexeme.read_append o.maxSize b c
    rw [hr] at h
    rw [run_of_ready h, if_pos hs, ih]
  | case5 product stripped b l rest hr hs e hp =>
    have h := Lexeme.read_append o.maxSize b c
    rw [hr] at h
    rw [run_of_ready h, if_neg hs, hp]
    rfl
  | case6 product stripped b l rest hr hs item p hp =>
    have h := Lexeme.read_append o.maxSize b c
    rw [hr] at h
    rw [run_of_ready h, if_neg hs, hp]
    rfl
  | case7 product stripped b l rest hr hs p hp ih =>
    have h := Lexeme.read_append o.maxSize b c
    rw [hr] at h
    rw [run_of_ready h, if_neg hs, hp]
    exact ih

theorem run_halted {p : Product} {s forContent : Bool}
    (h : run o product stripped b = .waiting rest p s forContent) :
    run o p s rest = .waiting rest p s forContent := by
  fun_induction run o product stripped b with
  | case1 | case5 | case6 => cases h
  | case2 product stripped b hr =>
    cases h
    exact run_of_needHeader hr
  | case3 product stripped b hr =>
    cases h
    exact run_of_needContent hr
  | case4 _ _ _ _ _ _ _ ih | case7 _ _ _ _ _ _ _ _ _ ih => exact ih h

theorem length_le_of_run {p : Product} {s forContent : Bool}
    (h : run o product stripped b = .waiting rest p s forContent) : rest.length ≤ b.length := by
  fun_induction run o product stripped b with
  | case1 | case5 | case6 => cases h
  | case2 | case3 =>
    cases h
    exact Nat.le_refl _
  | case4 _ _ _ _ _ hr _ ih =>
    exact Nat.le_trans (ih h) (Nat.le_of_lt (Lexeme.length_lt_of_read hr))
  | case7 _ _ _ _ _ hr _ _ _ ih =>
    exact Nat.le_trans (ih h) (Nat.le_of_lt (Lexeme.length_lt_of_read hr))

def Ready (d : Decoder) : Prop := d.value = none ∧ d.fault = none

def append (d : Decoder) (c : Octets) : Decoder := { d with buffer := d.buffer ++ c }

theorem append_append (d : Decoder) (b c : Octets) : (d.append b).append c = d.append (b ++ c) := by
  simp [append]

theorem append_nil (d : Decoder) : d.append [] = d := by simp [append]

theorem process_of_ready {d : Decoder} (h : d.Ready) :
    d.process =
      match run d.options d.product d.stripped d.buffer with
      | .ready item rest product =>
        (.ok true, ⟨d.options, rest, product, some item, none, false, false⟩)
      | .waiting rest product stripped forContent =>
        (.ok false, ⟨d.options, rest, product, none, none, forContent, stripped⟩)
      | .failed e rest => { start d.options with buffer := rest }.fail e := by
  obtain ⟨o, buffer, product, value, fault, forContent, stripped⟩ := d
  obtain ⟨rfl, rfl⟩ := h
  rfl

theorem process_append {d : Decoder} (h : d.Ready) (c : Octets) :
    (d.append c).process =
      match d.process with
      | (.error e, d) => (.error e, d.append c)
      | (.ok false, d) => (d.append c).process
      | (.ok true, d) => (.ok true, d.append c) := by
  have hc : (d.append c).Ready := h
  have hr := run_append d.options d.product d.stripped d.buffer c
  rw [process_of_ready h, process_of_ready hc]
  simp only [append, hr]
  cases run d.options d.product d.stripped d.buffer with
  | ready | failed => rfl
  | waiting rest product stripped forContent =>
    have hw : Ready ⟨d.options, rest ++ c, product, none, none, forContent, stripped⟩ := ⟨rfl, rfl⟩
    exact (process_of_ready hw).symm

theorem process_halted {d e : Decoder} (h : d.Ready) (hp : d.process = (.ok false, e)) :
    e.Ready ∧ e.options = d.options ∧ e.buffer.length ≤ d.buffer.length ∧
      e.process = (.ok false, e) := by
  rw [process_of_ready h] at hp
  split at hp <;> cases hp
  rename_i rest product stripped forContent hr
  have hready : Ready ⟨d.options, rest, product, none, none, forContent, stripped⟩ := ⟨rfl, rfl⟩
  refine ⟨hready, rfl, length_le_of_run hr, ?_⟩
  rw [process_of_ready hready]
  simp only [run_halted hr]

theorem take_of_process {d e : Decoder} (h : d.Ready) (hp : d.process = (.ok true, e)) :
    e.take.2.Ready ∧ e.take.2.options = d.options := by
  rw [process_of_ready h] at hp
  split at hp <;> cases hp
  exact ⟨⟨rfl, rfl⟩, rfl⟩

theorem drain_eq (d : Decoder) (taken : Array Item) :
    d.drain taken =
      match d.process with
      | (.error e, d) => (taken, .error e, d)
      | (.ok false, d) => (taken, .ok (), d)
      | (.ok true, next) => drain next.take.2 (taken ++ next.take.1.toList) := by
  rw [drain]
  split <;> simp [*]

theorem drain_append {d : Decoder} (h : d.Ready) (taken : Array Item) (c : Octets) :
    (d.append c).drain taken =
      match d.drain taken with
      | (taken, .ok (), d) => (d.append c).drain taken
      | (taken, .error e, d) => (taken, .error e, d.append c) := by
  fun_induction drain d taken with
  | case1 d taken e d' hp => rw [drain_eq, process_append h, hp]
  | case2 d taken d' hp =>
    dsimp only
    rw [drain_eq, process_append h, hp, drain_eq (d'.append c)]
  | case3 d taken next hp ih =>
    rw [drain_eq, process_append h, hp]
    exact ih (take_of_process h hp).1

theorem drain_halted {d e : Decoder} {taken items : Array Item} (h : d.Ready)
    (hd : d.drain taken = (items, .ok (), e)) :
    e.Ready ∧ e.options = d.options ∧ e.buffer.length ≤ d.buffer.length ∧
      e.process = (.ok false, e) := by
  fun_induction drain d taken with
  | case1 => cases hd
  | case2 d taken d' hp =>
    cases hd
    exact process_halted h hp
  | case3 d taken next hp ih =>
    obtain ⟨hr, ho⟩ := take_of_process h hp
    obtain ⟨he, heo, hl, hf⟩ := ih hr hd
    have hlt := length_lt_of_process hp
    have hlt' : next.take.2.buffer.length < d.buffer.length := hlt
    exact ⟨he, heo.trans ho, by omega, hf⟩

/-- Adds a piece of input and takes all the items that are complete. -/
def feed (d : Decoder) (taken : Array Item) (piece : Octets) :
    Array Item × Except Fault Unit × Decoder :=
  match d.add piece with
  | (.error e, d) => (taken, .error e, d)
  | (.ok (), d) => d.drain taken

/-- Feeds one piece after the other; a fault ends it. -/
def feedAll (d : Decoder) (taken : Array Item) :
    List Octets → Array Item × Except Fault Unit × Decoder
  | [] => (taken, .ok (), d)
  | piece :: pieces =>
    match d.feed taken piece with
    | (taken, .error e, d) => (taken, .error e, d)
    | (taken, .ok (), d) => d.feedAll taken pieces

theorem feed_eq_drain {d : Decoder} (h : d.Ready) (taken : Array Item) {piece : Octets}
    (hs : d.buffer.length + piece.length ≤ d.options.maxSize) :
    d.feed taken piece = (d.append piece).drain taken := by
  obtain ⟨o, buffer, product, value, fault, forContent, stripped⟩ := d
  obtain ⟨rfl, rfl⟩ := h
  simp [feed, add, append, Nat.not_lt.2 hs]

theorem feedAll_eq_feed {d : Decoder} (h : d.Ready) (hp : d.process = (.ok false, d))
    (taken : Array Item) (pieces : List Octets)
    (hs : d.buffer.length + pieces.flatten.length ≤ d.options.maxSize) :
    let byPiece := d.feedAll taken pieces
    let whole := d.feed taken pieces.flatten
    byPiece.1 = whole.1 ∧ byPiece.2.1 = whole.2.1 ∧
      (byPiece.2.1 = .ok () → byPiece.2.2 = whole.2.2) := by
  induction pieces generalizing d taken with
  | nil =>
    rw [feed_eq_drain h taken hs, List.flatten_nil, append_nil, drain_eq, hp]
    simp [feedAll]
  | cons piece pieces ih =>
    rw [List.flatten_cons, List.length_append] at hs
    have hpiece : d.feed taken piece = (d.append piece).drain taken :=
      feed_eq_drain h taken (by omega)
    have hwhole : d.feed taken (piece ++ pieces.flatten) =
        ((d.append piece).append pieces.flatten).drain taken := by
      rw [append_append]
      exact feed_eq_drain h taken (by rw [List.length_append]; omega)
    simp only [feedAll, List.flatten_cons, hwhole, hpiece]
    rw [drain_append (d := d.append piece) h]
    rcases hd : (d.append piece).drain taken with ⟨items, r, e⟩
    cases r with
    | error f => simp
    | ok =>
      -- what is left has halted for want of input, which is what the induction asks of a decoder
      obtain ⟨he, ho, hl, hf⟩ := drain_halted (d := d.append piece) h hd
      have hsize : e.buffer.length + pieces.flatten.length ≤ e.options.maxSize := by
        simp only [append, List.length_append] at hl ho
        rw [ho]
        omega
      have hi := ih he hf items hsize
      rw [feed_eq_drain he items hsize] at hi
      exact hi

theorem feedAll_singleton (d : Decoder) (taken : Array Item) (piece : Octets) :
    d.feedAll taken [piece] = d.feed taken piece := by
  rcases h : d.feed taken piece with ⟨items, r, e⟩
  cases r <;> simp [feedAll, h]

/-- Pieces of any size, empty ones too, give the items and the outcome that the whole input gives at
once; and if there is no fault they leave the same decoder, so what is still buffered or half read
is the same too. -/
theorem feedAll_flatten {o : Options} {d : Decoder} (hd : new o = .ok d) (pieces : List Octets)
    (hs : pieces.flatten.length ≤ o.maxSize) :
    let byPiece := d.feedAll #[] pieces
    let whole := d.feedAll #[] [pieces.flatten]
    byPiece.1 = whole.1 ∧ byPiece.2.1 = whole.2.1 ∧
      (byPiece.2.1 = .ok () → byPiece.2.2 = whole.2.2) := by
  obtain ⟨⟨⟩, -, hd⟩ := bind_eq_ok.1 hd
  cases hd
  have hp : (start o).process = (.ok false, start o) := by
    rw [process_of_ready ⟨rfl, rfl⟩, run_of_needHeader rfl]
    rfl
  have hall := feedAll_eq_feed ⟨rfl, rfl⟩ hp #[] pieces (by simpa [start] using hs)
  rwa [feedAll_singleton]

/-- The pieces of `[256, "Aa"], 1` that are cut inside of a head, inside of a string, between a
head and its string, and behind the end of an item. -/
theorem feedAll_flatten_cut_anywhere :
    let pieces : List Octets := [[0x82, 0x19], [], [0x01, 0x00, 0x62], [0x41], [0x61], [0x01]]
    let d := start {}
    new {} = .ok d ∧ pieces.flatten.length ≤ 16777216 ∧
      (d.feedAll #[] pieces).1 = (d.feedAll #[] [pieces.flatten]).1 ∧
      (d.feedAll #[] pieces).2.1 = (d.feedAll #[] [pieces.flatten]).2.1 ∧
      ((d.feedAll #[] pieces).2.1 = .ok () →
        (d.feedAll #[] pieces).2.2 = (d.feedAll #[] [pieces.flatten]).2.2) :=
  ⟨rfl, by decide, feedAll_flatten (o := {}) rfl _ (by decide)⟩

end Decoder
end Cbor
