import Cbor.Calendar.Rfc3339
import Cbor.Proofs.Calendar.Civil
import Cbor.Proofs.Text.Decimal

namespace Cbor

namespace Rfc3339

open Numeral

theorem digits?_encode {s : List Char} (h : ∀ c ∈ s, c.isDigit = true) (b : Octets) :
    digits? s.length (Utf8.encode s ++ b) = some (Nat.ofDigitChars 10 s 0, b) := by
  have hl := length_encode h
  have ht : (Utf8.encode s ++ b).take s.length = Utf8.encode s := by rw [← hl, List.take_left]
  have hd : (Utf8.encode s ++ b).drop s.length = b := by rw [← hl, List.drop_left]
  rw [digits?, ht, hd, if_pos ⟨hl, all_encode h⟩, foldl_encode h]

theorem digits?_padded {count n : Nat} (hc : 0 < count) (hn : n < Nat.pow 10 count) (b : Octets) :
    digits? count (Utf8.encode (padded count n) ++ b) = some (n, b) := by
  have h := digits?_encode (s := padded count n) isDigit_of_mem_padded b
  rwa [length_padded hc hn, ofDigitChars_padded] at h

theorem skip?_cons (x : UInt8) (b : Octets) : skip? x (x :: b) = some b := if_pos rfl

theorem skipAny?_T (b : Octets) : skipAny? (84 :: b) = some b := rfl

theorem append_zeros (s : List Char) :
    ∃ zeros, (s.reverse.dropWhile (· == '0')).reverse ++ List.replicate zeros '0' = s := by
  have hall : ∀ c ∈ s.reverse.takeWhile (· == '0'), c = '0' := fun c hc ↦
    eq_of_beq (List.all_eq_true.1 List.all_takeWhile c hc)
  have hz : s.reverse.takeWhile (· == '0') =
      List.replicate (s.reverse.takeWhile (· == '0')).length '0' :=
    List.eq_replicate_iff.2 ⟨rfl, hall⟩
  refine ⟨(s.reverse.takeWhile (· == '0')).length, ?_⟩
  calc (s.reverse.dropWhile (· == '0')).reverse ++
        List.replicate (s.reverse.takeWhile (· == '0')).length '0'
      = (s.reverse.takeWhile (· == '0') ++ s.reverse.dropWhile (· == '0')).reverse := by
        rw [List.reverse_append, hz, List.reverse_replicate, List.length_replicate]
    _ = s := by rw [List.takeWhile_append_dropWhile, List.reverse_reverse]

def fractionText (t : Moment) : List Char := if t.nanos = 0 then [] else '.' :: t.fractionDigits

def offsetText (t : Moment) : List Char :=
  let minutes := t.offset.natAbs / 60
  if t.offset = 0 then ['Z']
  else (if t.offset < 0 then '-' else '+') :: padded 2 (minutes / 60) ++
    ':' :: padded 2 (minutes % 60)

theorem offset?_signed (negative : Bool) {n m : Nat} (hn : n < 100) (hm : m < 100) :
    offset? (Utf8.encode ((if negative then '-' else '+') :: padded 2 n ++ ':' :: padded 2 m)) =
      if n ≤ 23 ∧ m ≤ 59 then
        some ((if negative then (-1 : Int) else 1) * (n * 3600 + m * 60 : Nat), [])
      else none := by
  have hcolon (s : List Char) : Utf8.encode (':' :: s) = 58 :: Utf8.encode s := rfl
  have hd := digits?_padded (show 0 < 2 by decide) (show n < 10 ^ 2 from hn)
    (58 :: Utf8.encode (padded 2 m))
  have hd' := digits?_padded (show 0 < 2 by decide) (show m < 10 ^ 2 from hm) []
  rw [List.append_nil] at hd'
  rw [List.cons_append]
  cases negative
  · have hsign (s : List Char) : Utf8.encode ('+' :: s) = 43 :: Utf8.encode s := rfl
    simp [hsign, Utf8.encode_append, hcolon, offset?, hd, skip?_cons, hd']
  · have hsign (s : List Char) : Utf8.encode ('-' :: s) = 45 :: Utf8.encode s := rfl
    simp [hsign, Utf8.encode_append, hcolon, offset?, hd, skip?_cons, hd']

/-- The hours of an offset that has two digits for them are read back if a day has as many. -/
theorem offset?_offsetText {t : Moment} (hd : t.offset.natAbs < 360000) (hm : t.offset % 60 = 0) :
    offset? (Utf8.encode (offsetText t)) =
      if t.offset.natAbs < 86400 then some (t.offset, []) else none := by
  unfold offsetText
  by_cases h0 : t.offset = 0
  · rw [if_pos h0, h0]
    rfl
  · have hs := offset?_signed (t.offset < 0) (n := t.offset.natAbs / 60 / 60)
      (m := t.offset.natAbs / 60 % 60) (by omega) (by omega)
    simp only [decide_eq_true_eq] at hs
    rw [if_neg h0, hs]
    by_cases hday : t.offset.natAbs < 86400
    · rw [if_pos (by omega), if_pos hday]
      congr 2
      split <;> omega
    · rw [if_neg (by omega), if_neg hday]

theorem fractionDigits_spec (t : Moment) :
    ∃ zeros, t.fractionDigits ++ List.replicate zeros '0' = padded 9 t.nanos ∧
      t.fractionDigits.length + zeros = 9 ∧ ∀ c ∈ t.fractionDigits, c.isDigit = true := by
  obtain ⟨zeros, hz⟩ := append_zeros (padded 9 t.nanos)
  have hz : t.fractionDigits ++ List.replicate zeros '0' = padded 9 t.nanos := hz
  refine ⟨zeros, hz, ?_, fun c hc ↦ ?_⟩
  · have hl := congrArg List.length hz
    rwa [List.length_append, List.length_replicate, length_padded (by decide) t.nanos_lt] at hl
  · exact isDigit_of_mem_padded c (hz ▸ List.mem_append_left _ hc)

theorem fraction?_digits {t : Moment} (hn : t.nanos ≠ 0) {x : UInt8}
    (hx : ¬ (48 ≤ x ∧ x ≤ 57)) (b : Octets) :
    fraction? (46 :: (Utf8.encode t.fractionDigits ++ x :: b)) = some (t.nanos, x :: b) := by
  obtain ⟨zeros, hz, hl, hd⟩ := fractionDigits_spec t
  have hds : (Utf8.encode t.fractionDigits ++ x :: b).takeWhile (fun x ↦ 48 ≤ x && x ≤ 57) =
      Utf8.encode t.fractionDigits := by
    rw [List.takeWhile_append_of_pos (List.all_eq_true.1 (all_encode hd)),
      List.takeWhile_cons_of_neg (by simpa using hx), List.append_nil]
  have hzeros : List.replicate zeros (48 : UInt8) = Utf8.encode (List.replicate zeros '0') := by
    rw [Utf8.encode_of_ascii, List.map_replicate]
    · rfl
    · intro c hc
      rw [List.eq_of_mem_replicate hc]
      decide
  have hkept : (Utf8.encode t.fractionDigits ++ List.replicate 9 48).take 9 =
      Utf8.encode (padded 9 t.nanos) := by
    have hlen := length_encode hd
    have hmin : min (9 - (Utf8.encode t.fractionDigits).length) 9 = zeros := by omega
    rw [← hz, Utf8.encode_append, ← hzeros, List.take_append, List.take_of_length_le (by omega),
      List.take_replicate, hmin]
  have hne : Utf8.encode t.fractionDigits ≠ [] := by
    intro h
    have hnil : t.fractionDigits = [] := List.length_eq_zero_iff.1 (by
      rw [← length_encode hd, h, List.length_nil])
    have h0 := ofDigitChars_padded 9 t.nanos
    rw [← hz, hnil, List.nil_append, Nat.ofDigitChars_replicate_zero, Nat.mul_zero] at h0
    exact hn h0.symm
  simp only [fraction?, hds, hkept, if_neg hne, List.drop_left]
  rw [foldl_encode isDigit_of_mem_padded, ofDigitChars_padded]

theorem fraction?_fractionText (t : Moment) {x : UInt8} (hx : x ≠ 46 ∧ ¬ (48 ≤ x ∧ x ≤ 57))
    (b : Octets) :
    fraction? (Utf8.encode (fractionText t) ++ x :: b) = some (t.nanos, x :: b) := by
  unfold fractionText
  split
  · rename_i hn
    rw [hn]
    unfold fraction?
    split
    · rename_i h
      exact absurd (List.cons.inj h).1 hx.1
    · rfl
  · rename_i hn
    exact fraction?_digits hn hx.2 b

def stampOctets (t : Moment) : Octets :=
  let digits := fun count n ↦ Utf8.encode (padded count n)
  digits 4 t.date.year.toNat ++ 45 :: (digits 2 t.date.month.toNat ++ 45 ::
    (digits 2 t.date.day.toNat ++ 84 :: (digits 2 t.hour ++ 58 :: (digits 2 t.minute ++ 58 ::
      (digits 2 t.second ++ (Utf8.encode (fractionText t) ++ Utf8.encode (offsetText t)))))))

theorem format?_eq_some {t : Moment} {s : List Char} (h : format? t = some s) :
    (0 ≤ t.date.year ∧ t.date.year ≤ 9999 ∧ t.offset % 60 = 0) ∧
      Utf8.encode s = stampOctets t := by
  have hdash (s : List Char) : Utf8.encode ('-' :: s) = 45 :: Utf8.encode s := rfl
  have hcolon (s : List Char) : Utf8.encode (':' :: s) = 58 :: Utf8.encode s := rfl
  have ht (s : List Char) : Utf8.encode ('T' :: s) = 84 :: Utf8.encode s := rfl
  simp only [format?] at h
  by_cases hr : 0 ≤ t.date.year ∧ t.date.year ≤ 9999 ∧ t.offset % 60 = 0
  · rw [if_pos hr] at h
    cases h
    refine ⟨hr, ?_⟩
    simp only [Moment.clock, Utf8.encode_append, hdash, hcolon, ht, List.append_assoc,
      List.cons_append, stampOctets, fractionText, offsetText]
  · rw [if_neg hr] at h
    cases h

theorem offsetText_head (t : Moment) :
    ∃ x b, Utf8.encode (offsetText t) = x :: b ∧ x ≠ 46 ∧ ¬ (48 ≤ x ∧ x ≤ 57) := by
  unfold offsetText
  split
  · exact ⟨90, [], rfl, by decide⟩
  split
  · exact ⟨45, _, rfl, by decide⟩
  · exact ⟨43, _, rfl, by decide⟩

theorem date_bounds (t : Moment) :
    (1 ≤ t.date.month ∧ t.date.month ≤ 12) ∧ 1 ≤ t.date.day ∧ t.date.day ≤ 31 := by
  have hv := Civil.isValid_ofDayNumber (t.localSeconds / 86400)
  have hm : Civil.daysInMonth t.date.year t.date.month ≤ 31 := by
    unfold Civil.daysInMonth
    split
    · split <;> decide
    split <;> decide
  simp only [Civil.isValid, Bool.and_eq_true, decide_eq_true_eq] at hv
  exact ⟨hv.1.1, hv.1.2, Int.le_trans hv.2 hm⟩

theorem clock_bounds (t : Moment) : t.hour ≤ 23 ∧ t.minute ≤ 59 ∧ t.second ≤ 59 := by
  have hs : t.secondOfDay < 86400 := by
    unfold Moment.secondOfDay
    omega
  unfold Moment.hour Moment.minute Moment.second
  omega

theorem seconds_of_clock (t : Moment) :
    t.date.dayNumber * 86400 + (t.hour * 3600 + t.minute * 60 + t.second : Nat) - t.offset =
      t.seconds := by
  have hn : t.date.dayNumber = t.localSeconds / 86400 := Civil.dayNumber_ofDayNumber _
  have hday : t.hour * 3600 + t.minute * 60 + t.second = t.secondOfDay := by
    unfold Moment.hour Moment.minute Moment.second
    omega
  rw [hn, hday, Moment.secondOfDay, Moment.localSeconds]
  omega

theorem bind_of_eq_some {α β : Type} {x : Option α} {a : α} {f : α → Option β} {r : Option β}
    (h : x = some a) (hr : f a = r) : x.bind f = r := by
  rw [h]
  exact hr

theorem parse?_stampOctets {t : Moment} (hy : 0 ≤ t.date.year) (hy' : t.date.year ≤ 9999)
    (hm : t.offset % 60 = 0) (hd : t.offset.natAbs < 360000) :
    parse? (stampOctets t) = if t.offset.natAbs < 86400 then some t else none := by
  obtain ⟨⟨hm1, hm12⟩, hd1, hd31⟩ := date_bounds t
  obtain ⟨hhour, hminute, hsecond⟩ := clock_bounds t
  have hleap : ¬ t.second = 60 := by omega
  have hdate : Civil.mk t.date.year.toNat t.date.month.toNat t.date.day.toNat = t.date := by
    rw [Int.toNat_of_nonneg hy, Int.toNat_of_nonneg (by omega), Int.toNat_of_nonneg (by omega)]
  have hvalid : t.date.isValid = true := Civil.isValid_ofDayNumber _
  have hseconds := seconds_of_clock t
  obtain ⟨x, b, hx, hx'⟩ := offsetText_head t
  have ho := offset?_offsetText hd hm
  rw [hx] at ho
  have h2 : 0 < 2 := by decide
  have hyear : t.date.year.toNat < 10 ^ 4 := by omega
  have hmonth : t.date.month.toNat < 10 ^ 2 := by omega
  have hday : t.date.day.toNat < 10 ^ 2 := by omega
  rw [stampOctets, hx, parse?]
  refine bind_of_eq_some (digits?_padded (by decide) hyear _) ?_
  refine bind_of_eq_some (skip?_cons 45 _) ?_
  refine bind_of_eq_some (digits?_padded h2 hmonth _) ?_
  refine bind_of_eq_some (skip?_cons 45 _) ?_
  refine bind_of_eq_some (digits?_padded h2 hday _) ?_
  refine bind_of_eq_some (skipAny?_T _) ?_
  refine bind_of_eq_some (digits?_padded h2 (Nat.lt_of_le_of_lt hhour (by decide)) _) ?_
  refine bind_of_eq_some (skip?_cons 58 _) ?_
  refine bind_of_eq_some (digits?_padded h2 (Nat.lt_of_le_of_lt hminute (by decide)) _) ?_
  refine bind_of_eq_some (skip?_cons 58 _) ?_
  refine bind_of_eq_some (digits?_padded h2 (Nat.lt_of_le_of_lt hsecond (by decide)) _) ?_
  refine bind_of_eq_some (fraction?_fractionText t hx' b) ?_
  -- only the offset, which is left, may be refused
  by_cases hrange : t.offset.natAbs < 86400
  · rw [if_pos hrange] at ho ⊢
    refine bind_of_eq_some ho ?_
    simp only [hdate, if_neg hleap, hseconds]
    rw [if_pos ⟨trivial, hvalid, hhour, hminute, hsecond, fun h ↦ absurd h hleap⟩,
      dif_pos t.nanos_lt]
  · rw [if_neg hrange] at ho ⊢
    dsimp only
    rw [ho]
    rfl

/-- A stamp is read as the moment that it is of, unless its offset is a day or more. -/
theorem parse?_format? {t : Moment} {s : List Char} (h : format? t = some s)
    (hd : t.offset.natAbs < 360000) :
    parse? (Utf8.encode s) = if t.offset.natAbs < 86400 then some t else none := by
  obtain ⟨⟨hy, hy', hm⟩, hs⟩ := format?_eq_some h
  rw [hs]
  exact parse?_stampOctets hy hy' hm hd

theorem parse?_of_format? {t : Moment} {s : List Char} (h : format? t = some s)
    (hd : t.offset.natAbs < 86400) : parse? (Utf8.encode s) = some t := by
  rw [parse?_format? h (by omega), if_pos hd]

def IsOffset (n : Int) : Prop := n.natAbs < 86400 ∧ n % 60 = 0

theorem isOffset_clock {sign : Int} (hs : sign = 1 ∨ sign = -1) {b rest : Octets} {n : Int}
    (h : ((digits? 2 b).bind fun p ↦ (skip? 58 p.2).bind fun b ↦ (digits? 2 b).bind fun q ↦
      if p.1 ≤ 23 ∧ q.1 ≤ 59 then some (sign * (p.1 * 3600 + q.1 * 60 : Nat), q.2) else none) =
        some (n, rest)) : IsOffset n := by
  simp only [Option.bind_eq_some_iff] at h
  obtain ⟨_, _, _, _, _, _, h⟩ := h
  split at h
  · cases h
    rcases hs with rfl | rfl <;> exact ⟨by omega, by omega⟩
  · cases h

theorem isOffset_offset? {b rest : Octets} {n : Int} (h : offset? b = some (n, rest)) :
    IsOffset n := by
  unfold offset? at h
  split at h
  · cases h
    exact ⟨by decide, rfl⟩
  · cases h
    exact ⟨by decide, rfl⟩
  · split at h
    · exact isOffset_clock (.inl rfl) h
    split at h
    · exact isOffset_clock (.inr rfl) h
    · cases h
  · cases h

/-- No stamp has a clock a day off, or by a part of a minute. -/
theorem isOffset_of_parse? {b : Octets} {t : Moment} (h : parse? b = some t) :
    IsOffset t.offset := by
  unfold parse? at h
  -- the six numbers of date and time, each with what ends it, and the fraction
  iterate 12 obtain ⟨_, _, h⟩ := Option.bind_eq_some_iff.1 h
  obtain ⟨_, ho, h⟩ := Option.bind_eq_some_iff.1 h
  simp only [Option.ite_none_right_eq_some, Option.dite_none_right_eq_some, Option.some.injEq] at h
  obtain ⟨_, _, rfl⟩ := h
  exact isOffset_offset? ho

end Rfc3339
end Cbor
