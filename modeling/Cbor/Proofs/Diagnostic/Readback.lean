import Cbor.Proofs.Diagnostic.Reader
import Cbor.Proofs.Text.Numeral

namespace Cbor.Diagnostic

theorem blank_nil : Blank [] := List.forall_mem_nil _

theorem Blank.append {s t : List Char} (hs : Blank s) (ht : Blank t) : Blank (s ++ t) :=
  List.forall_mem_append.2 ⟨hs, ht⟩

theorem skip_append {gap : List Char} (h : Blank gap) (s : List Char) : skip (gap ++ s) = skip s :=
  List.dropWhile_append_of_pos h

theorem skip_cons {c : Char} (h : isBlank c = false) (s : List Char) : skip (c :: s) = c :: s :=
  List.dropWhile_cons_of_neg (by simp [h])

theorem eq_false_of_mem {l : List Char} {p : Char → Bool} (hp : l.any p = false) {c : Char}
    (hc : c ∈ l) : p c = false :=
  Bool.eq_false_iff.2 (List.any_eq_false.1 hp c hc)

theorem not_mem_of {l : List Char} {p : Char → Bool} (hp : l.any p = false) {c : Char}
    (hc : p c = true) : c ∉ l :=
  fun h ↦ List.any_eq_false.1 hp c h hc

def unfit : List Char := blanks ++ ['_', ']', '\x7d']

def Fit (s : List Char) : Prop := ∃ c u, s = c :: u ∧ c ∉ unfit

theorem fit_of_forall {p : Char → Bool} (hp : unfit.any p = false) {s : List Char}
    (hn : s ≠ []) (h : ∀ c ∈ s, p c = true) : Fit s := by
  cases s with
  | nil => exact absurd rfl hn
  | cons c u => exact ⟨c, u, rfl, not_mem_of hp (h c List.mem_cons_self)⟩

theorem Fit.append {s : List Char} (h : Fit s) (t : List Char) : Fit (s ++ t) := by
  obtain ⟨c, u, rfl, hc⟩ := h
  exact ⟨c, u ++ t, rfl, hc⟩

theorem Fit.skip {s : List Char} (h : Fit s) : skip s = s := by
  obtain ⟨c, u, rfl, hc⟩ := h
  exact skip_cons (decide_eq_false fun hb ↦ hc (List.mem_append_left _ hb)) u

theorem Fit.length_pos {s : List Char} (h : Fit s) : 0 < s.length := by
  obtain ⟨c, u, rfl, -⟩ := h
  exact Nat.zero_lt_succ _

def Shut (s : List Char) : Prop := ∃ u c, s = u ++ [c] ∧ c ∉ ',' :: blanks

theorem Shut.append {t : List Char} (h : Shut t) (s : List Char) : Shut (s ++ t) := by
  obtain ⟨u, c, rfl, hc⟩ := h
  exact ⟨s ++ u, c, (List.append_assoc ..).symm, hc⟩

theorem shut_of_forall {p : Char → Bool} (hp : (',' :: blanks).any p = false) {s : List Char}
    (hn : s ≠ []) (h : ∀ c ∈ s, p c = true) : Shut s :=
  ⟨s.dropLast, s.getLast hn, (List.dropLast_concat_getLast hn).symm,
    not_mem_of hp (h _ (List.getLast_mem hn))⟩

theorem Shut.cons {t : List Char} (h : Shut t) (c : Char) : Shut (c :: t) := h.append [c]

theorem Spells.fit {isText : Bool} {t : List Char} {b : Octets} (h : Spells isText t b) :
    Fit t := by
  obtain ⟨u, hu⟩ := List.head?_eq_some_iff.1 h.first
  exact ⟨_, u, hu, by cases isText <;> decide⟩

theorem Spells.shut {isText : Bool} {t : List Char} {b : Octets} (h : Spells isText t b) :
    Shut t := by
  obtain ⟨inText, hl⟩ := h.last
  obtain ⟨u, hu⟩ := List.getLast?_eq_some_iff.1 hl
  exact ⟨u, _, hu, by cases inText <;> decide⟩

def enders : List Char := [',', ':', ')', ']', '\x7d']

theorem skip_ender {c : Char} (hc : c ∈ enders) (s : List Char) : skip (c :: s) = c :: s :=
  skip_cons (eq_false_of_mem (by decide) hc) s

/-- What follows an item: blanks, and then the end or what separates or closes. -/
def Ends (r : List Char) : Prop := ∀ c ∈ (skip r).head?, c ∈ enders

theorem ends_nil : Ends [] := nofun

theorem ends_cons {gap : List Char} (h : Blank gap) {c : Char} (hc : c ∈ enders) (r : List Char) :
    Ends (gap ++ c :: r) := by
  intro d hd
  rw [skip_append h, skip_ender hc] at hd
  cases hd
  exact hc

theorem ends_of_mem {c : Char} (hc : c ∈ enders) (r : List Char) : Ends (c :: r) :=
  show Ends ([] ++ c :: r) from ends_cons blank_nil hc r

theorem Ends.head {r : List Char} (h : Ends r) : ∀ c ∈ r.head?, c ∈ blanks ++ enders := by
  intro c hc
  cases r with
  | nil => cases hc
  | cons d r =>
    cases hc
    cases hb : isBlank c with
    | true => exact List.mem_append_left _ (of_decide_eq_true hb)
    | false => exact List.mem_append_right _ (h c (by rw [skip_cons hb]; rfl))

theorem Ends.head_false {r : List Char} (h : Ends r) {p : Char → Bool}
    (hp : (blanks ++ enders).any p = false) : ∀ c ∈ r.head?, p c = false :=
  fun c hc ↦ eq_false_of_mem hp (h.head c hc)

theorem Ends.step_outside {r : List Char} (h : Ends r) :
    ∀ c ∈ (skip r).head?, Place.step .outside c = none := by
  have hstep : (enders.any fun c ↦ (Place.step .outside c).isSome) = false := by decide
  intro c hc
  have hc := eq_false_of_mem hstep (h c hc)
  simpa using hc

theorem head_cons_false {p : Char → Bool} {c : Char} (h : p c = false) (r : List Char) :
    ∀ d ∈ (c :: r).head?, p d = false := by
  intro d hd
  cases hd
  exact h

theorem span_append {s r : List Char} {p : Char → Bool} (hs : ∀ c ∈ s, p c = true)
    (hr : ∀ c ∈ r.head?, p c = false) :
    (s ++ r).takeWhile p = s ∧ (s ++ r).dropWhile p = r := by
  rw [List.takeWhile_append_of_pos hs, List.dropWhile_append_of_pos hs]
  cases r with
  | nil => simp
  | cons c r => simp [hr c rfl]

namespace Reader

variable {α : Type} {r : List Char}

theorem expect_cons (c : Char) : expect c (c :: r) = some (skip r) := if_pos rfl

theorem expect_append {gap : List Char} (h : Blank gap) {c : Char} (hc : c ∈ enders) :
    expect c (skip (gap ++ c :: r)) = some (skip r) := by
  rw [skip_append h, skip_ender hc, expect_cons]

theorem content_append {p q : Place} {s : List Char} {b : Octets} (h : p.Takes s b q) :
    content p (s ++ r) = (content q r).map fun x ↦ (b ++ x.1, x.2) := by
  induction h with
  | nil => simp
  | cons hp _ ih =>
    rw [List.cons_append, content, hp]
    dsimp only
    rw [ih]
    simp [Function.comp_def]

theorem content_outside (h : ∀ c ∈ (skip r).head?, Place.step .outside c = none) :
    content .outside r = some ([], skip r) := by
  induction r with
  | nil => rfl
  | cons c r ih =>
    cases hb : isBlank c with
    | true =>
      have hs : skip (c :: r) = skip r := List.dropWhile_cons_of_pos hb
      have hstep : Place.step .outside c = some (.outside, []) := if_pos hb
      rw [hs] at h ⊢
      rw [content, hstep]
      dsimp only
      rw [ih h]
      rfl
    | false =>
      rw [skip_cons hb] at h ⊢
      rw [content, h c rfl]
      rfl

theorem literal_append {isText : Bool} {s : List Char} {b : Octets} (hs : Spells isText s b)
    (hr : ∀ c ∈ (skip r).head?, Place.step .outside c = none) :
    literal (s ++ r) = some (.ofString isText b, skip r) := by
  have hfirst : (s ++ r).head? = some (if isText then '"' else 'h') := by
    rw [List.head?_append, hs.first]
    rfl
  rw [literal, content_append hs.takes, content_outside hr, hfirst]
  cases isText <;> simp

theorem number_append (n : Nat) (hr : ∀ c ∈ r.head?, c.isDigit = false) :
    number (Numeral.ofNat n ++ r) = (n, r) := by
  obtain ⟨ht, hdrop⟩ := span_append Numeral.isDigit_of_mem_ofNat hr
  rw [number, ht, hdrop, Numeral.ofDigitChars_ofNat]

/-- The text `t` stands for `a`: that is what the readers make of it, in front of whatever may
follow. The readers are given more fuel the longer the text is. -/
structure Reads (p : Nat → Reader α) (t : List Char) (a : α) : Prop where
  fit : Fit t
  shut : Shut t
  read : ∀ n, t.length ≤ n → ∀ r, Ends r → p n (t ++ r) = some (a, skip r)

variable {p : Nat → Reader α} {t : List Char} {a : α}

theorem reads_of_succ (hf : Fit t) (hs : Shut t)
    (h : ∀ n, t.length ≤ n + 1 → ∀ r, Ends r → p (n + 1) (t ++ r) = some (a, skip r)) :
    Reads p t a := by
  refine ⟨hf, hs, fun n hn ↦ ?_⟩
  have hpos := hf.length_pos
  obtain ⟨n, rfl⟩ : ∃ m, n = m + 1 := ⟨n - 1, by omega⟩
  exact h n hn

theorem reads_between {first last : Char} {s : List Char}
    (hf : first ∉ unfit) (hl : last ∉ ',' :: blanks)
    (h : ∀ n, s.length < n → ∀ r, Ends r →
      p (n + 1) (first :: (s ++ last :: r)) = some (a, skip r)) :
    Reads p (first :: (s ++ [last])) a := by
  refine reads_of_succ ⟨first, _, rfl, hf⟩ ⟨first :: s, last, rfl, hl⟩ fun n hn r hr ↦ ?_
  simp only [List.length_cons, List.length_append, List.length_nil] at hn
  have hread := h n (by omega) r hr
  simpa using hread

/-- What precedes the last member of a sequence, a comma behind each. -/
inductive Row (p : Nat → Reader α) : (row : List Char) → (as : List α) → Prop
  | nil : Row p [] []
  | snoc {row t gap : List Char} {as : List α} {a : α} (h : Row p row as) (ha : Reads p t a)
    (hg : Blank gap) : Row p (row ++ (t ++ ',' :: gap)) (as ++ [a])

variable {row : List Char} {as : List α}

theorem Row.length_le (h : Row p row as) : as.length ≤ row.length := by
  induction h with
  | nil => exact Nat.le_refl 0
  | snoc h ha hg ih =>
    simp only [List.length_append, List.length_cons, List.length_nil]
    omega

theorem Row.fit (h : Row p row as) {s : List Char} (hs : Fit s) : Fit (row ++ s) := by
  induction h generalizing s with
  | nil => exact hs
  | snoc h ha hg ih =>
    rw [List.append_assoc, List.append_assoc]
    exact ih (ha.fit.append _)

theorem sequence_of_comma {q : Reader α} (close : Char) {s u : List Char}
    (h : q s = some (a, ',' :: u)) (k : Nat) :
    sequence q close (k + 1) s = (sequence q close k (skip u)).map fun r ↦ (a :: r.1, r.2) := by
  rw [sequence, h]
  rfl

theorem sequence_of_close {q : Reader α} {close : Char} (hc : close ≠ ',') {s u : List Char}
    (h : q s = some (a, close :: u)) (k : Nat) :
    sequence q close (k + 1) s = some ([a], skip u) := by
  rw [sequence, h]
  exact (if_neg hc).trans (if_pos rfl)

theorem sequence_row (h : Row p row as) {n : Nat} (hn : row.length ≤ n) (close : Char) (k : Nat)
    {s : List Char} (hs : skip s = s) :
    sequence (p n) close (as.length + k) (row ++ s) =
      (sequence (p n) close k s).map fun r ↦ (as ++ r.1, r.2) := by
  induction h generalizing k s with
  | nil => simp
  | @snoc row t gap as a h ha hg ih =>
    simp only [List.length_append, List.length_cons] at hn
    have hread := ha.read n (by omega) _ (ends_of_mem (c := ',') (by decide) (gap ++ s))
    have hone := sequence_of_comma close hread k
    rw [skip_append hg, hs] at hone
    have hlen : (as ++ [a]).length + k = as.length + (k + 1) := by
      simp
      omega
    have htext : row ++ (t ++ ',' :: gap) ++ s = row ++ (t ++ ',' :: (gap ++ s)) := by simp
    rw [hlen, htext, ih (by omega) (k + 1) (ha.fit.append _).skip, hone]
    simp [Function.comp_def]

theorem sequence_append (h : Row p row as) (ha : Reads p t a) {gap : List Char} (hg : Blank gap)
    {close : Char} (hc : close ∈ enders) (hcomma : close ≠ ',') {n : Nat}
    (hn : (row ++ (t ++ gap)).length ≤ n) (r : List Char) :
    sequence (p n) close n (row ++ (t ++ gap) ++ close :: r) = some (as ++ [a], skip r) := by
  simp only [List.length_append] at hn
  have hlen := h.length_le
  have hpos := ha.fit.length_pos
  have hread := ha.read n (by omega) _ (ends_cons hg hc r)
  rw [skip_append hg, skip_ender hc] at hread
  have hlast (k : Nat) := sequence_of_close hcomma hread k
  obtain ⟨k, hk⟩ : ∃ k, n = as.length + (k + 1) := ⟨n - as.length - 1, by omega⟩
  have hrow := sequence_row h (n := n) (by omega) close (k + 1)
    (ha.fit.append (gap ++ close :: r)).skip
  rw [hlast, ← hk] at hrow
  simpa using hrow

/-- What stands between the opening bracket of a container and the closing one. -/
inductive Body (p : Nat → Reader α) : (body : List Char) → (as : List α) → Prop
  | empty {gap : List Char} (hg : Blank gap) : Body p gap []
  | full {gap row t gap' : List Char} {as : List α} {a : α} (hg : Blank gap) (h : Row p row as)
    (ha : Reads p t a) (hg' : Blank gap') : Body p (gap ++ (row ++ (t ++ gap'))) (as ++ [a])

variable {body : List Char}

theorem close_cases {close : Char} (hc : close ∈ [']', '\x7d']) :
    close ∈ enders ∧ close ≠ ',' ∧ close ≠ '_' ∧ close ∈ unfit := by
  simp only [List.mem_cons, List.not_mem_nil, or_false] at hc
  rcases hc with rfl | rfl <;> decide

theorem elements_append (h : Body p body as) {close : Char} (hc : close ∈ [']', '\x7d']) {n : Nat}
    (hn : body.length ≤ n) (r : List Char) :
    elements (p n) close n (skip (body ++ close :: r)) = some (as, skip r) := by
  obtain ⟨hender, hcomma, -, hunfit⟩ := close_cases hc
  cases h with
  | empty hg => rw [skip_append hg, skip_ender hender, elements, if_pos rfl]
  | @full gap row t gap' as a hg h ha hg' =>
    rw [List.length_append] at hn
    have hseq := sequence_append h ha hg' hender hcomma (n := n) (by omega) r
    obtain ⟨c, u, hs, hc⟩ := (h.fit (ha.fit.append gap')).append (close :: r)
    have hne : c ≠ close := fun he ↦ hc (he ▸ hunfit)
    rw [hs] at hseq
    rw [List.append_assoc, skip_append hg, hs, Fit.skip ⟨c, u, rfl, hc⟩, elements, if_neg hne, hseq]

theorem Body.head_ne (h : Body p body as) {close : Char} (hc : close ∈ [']', '\x7d'])
    (r : List Char) : (body ++ close :: r).head? ≠ some '_' := by
  intro hu
  obtain ⟨u, hu⟩ := List.head?_eq_some_iff.1 hu
  have hskip : skip (body ++ close :: r) = '_' :: u := by
    rw [hu]
    rfl
  obtain ⟨hender, -, hmark, -⟩ := close_cases hc
  cases h with
  | empty hg =>
    rw [skip_append hg, skip_ender hender] at hskip
    exact hmark (List.cons.inj hskip).1
  | @full gap row t gap' as a hg h ha hg' =>
    have hf := (h.fit (ha.fit.append gap')).append (close :: r)
    rw [List.append_assoc, skip_append hg, hf.skip] at hskip
    obtain ⟨c, v, hs, hunfit⟩ := hf
    rw [hs] at hskip
    obtain rfl := (List.cons.inj hskip).1
    exact hunfit (by decide)

def mark (indefinite : Bool) : List Char := if indefinite then ['_'] else []

section

variable {p : Nat → Reader (List Lexeme)} {parts : List (List Lexeme)} {ls : List Lexeme}

theorem container_append (h : Body p body parts) {close : Char} (hc : close ∈ [']', '\x7d'])
    {n : Nat} (hn : body.length ≤ n) (make : Option UInt64 → Lexeme) (indefinite : Bool)
    (r : List Char) :
    container (p n) make close n (mark indefinite ++ (body ++ close :: r)) =
      some (make (Wire.count indefinite parts.length) :: parts.flatten ++ Wire.ending indefinite,
        skip r) := by
  have hbody := elements_append h hc hn r
  cases indefinite with
  | true =>
    simp only [container, mark, if_true, List.singleton_append, List.head?_cons, List.tail_cons,
      decide_true, hbody]
    rfl
  | false =>
    have hm : ((body ++ close :: r).head? = some '_') = False := eq_false (h.head_ne hc r)
    simp only [container, mark, Bool.false_eq_true, if_false, List.nil_append, hm, decide_false,
      hbody]
    rfl

theorem reads_array (h : Body item body parts) (indefinite : Bool) :
    Reads item ('[' :: (mark indefinite ++ body ++ [']']))
      (.array (Wire.count indefinite parts.length) :: parts.flatten ++ Wire.ending indefinite) := by
  refine reads_between (by decide) (by decide) fun n hn r hr ↦ ?_
  rw [List.length_append] at hn
  rw [List.append_assoc]
  exact container_append h (by decide) (by omega) .array indefinite r

theorem reads_map (h : Body (fun n ↦ entry (item n)) body parts) (indefinite : Bool) :
    Reads item ('\x7b' :: (mark indefinite ++ body ++ ['\x7d']))
      (.map (Wire.count indefinite parts.length) :: parts.flatten ++ Wire.ending indefinite) := by
  refine reads_between (by decide) (by decide) fun n hn r hr ↦ ?_
  rw [List.length_append] at hn
  rw [List.append_assoc]
  exact container_append h (by decide) (by omega) .map indefinite r

theorem reads_entry {t u gap : List Char} {key value : List Lexeme} (hk : Reads item t key)
    (hv : Reads item u value) (hg : Blank gap) :
    Reads (fun n ↦ entry (item n)) (t ++ ':' :: (gap ++ u)) (key ++ value) where
  fit := hk.fit.append _
  shut := ((hv.shut.append gap).cons ':').append t
  read n hn r hr := by
    simp only [List.length_append, List.length_cons] at hn
    have hkey := hk.read n (by omega) _ (ends_of_mem (c := ':') (by decide) (gap ++ (u ++ r)))
    have hcolon : expect ':' (skip (':' :: (gap ++ (u ++ r)))) = some (u ++ r) := by
      rw [skip_ender (by decide), expect_cons, skip_append hg, (hv.fit.append r).skip]
    simp only [List.append_assoc, List.cons_append, entry, hkey, hcolon, Option.bind_eq_bind,
      Option.bind_some, hv.read n (by omega) r hr]
    rfl

theorem exists_digit (n : Nat) : ∃ c ds, Numeral.ofNat n = c :: ds ∧ c.isDigit = true := by
  cases h : Numeral.ofNat n with
  | nil => exact absurd h Nat.toDigits_ne_nil
  | cons c ds => exact ⟨c, ds, rfl, Numeral.isDigit_of_mem_ofNat c (h ▸ List.mem_cons_self)⟩

theorem fit_ofNat (n : Nat) : Fit (Numeral.ofNat n) :=
  fit_of_forall (by decide) Nat.toDigits_ne_nil Numeral.isDigit_of_mem_ofNat

theorem shut_ofNat (n : Nat) : Shut (Numeral.ofNat n) :=
  shut_of_forall (by decide) Nat.toDigits_ne_nil Numeral.isDigit_of_mem_ofNat

theorem item_ofNat (n m : Nat) (s : List Char) :
    item (n + 1) (Numeral.ofNat m ++ s) = numeral (item n) (Numeral.ofNat m ++ s) := by
  obtain ⟨c, ds, h, hc⟩ := exists_digit m
  rw [h]
  exact if_pos hc

theorem reads_tag {t gap gap' : List Char} (h : Reads item t ls) (hg : Blank gap)
    (hg' : Blank gap') (number : UInt64) :
    Reads item (Numeral.ofNat number.toNat ++ '(' :: (gap ++ (t ++ (gap' ++ [')']))))
      (.tag number :: ls) := by
  have hfit := fit_ofNat number.toNat
  have hshut : Shut [')'] := ⟨[], ')', rfl, by decide⟩
  refine reads_of_succ (hfit.append _)
    (((((hshut.append gap').append t).append gap).cons '(').append _) fun n hn r hr ↦ ?_
  have hpos := hfit.length_pos
  simp only [List.length_append, List.length_cons] at hn
  have hnumber := number_append number.toNat
    (head_cons_false (c := '(') rfl (gap ++ (t ++ (gap' ++ ')' :: r))))
  have hcontent := h.read n (by omega) _ (ends_cons hg' (c := ')') (by decide) r)
  have hclose := expect_append hg' (c := ')') (r := r) (by decide)
  simp only [List.append_assoc, List.cons_append, List.nil_append, item_ofNat, numeral, hnumber,
    tagged, skip_append hg, (h.fit.append _).skip, hcontent, hclose, Option.bind_eq_bind,
    Option.bind_some, UInt64.ofNat_toNat]
  rfl

end

theorem reads_unsigned (n : UInt64) : Reads item (Numeral.ofNat n.toNat) [.unsigned n] := by
  refine reads_of_succ (fit_ofNat _) (shut_ofNat _) fun m _ r hr ↦ ?_
  -- a parenthesis would make it the number of a tag
  have hopen : r.head? ≠ some '(' := fun h ↦ absurd (hr.head '(' h) (by decide)
  rw [item_ofNat, numeral, number_append n.toNat (hr.head_false (by decide))]
  split
  · rename_i h
    cases h
    exact absurd rfl hopen
  · rename_i h
    cases h
    rw [UInt64.ofNat_toNat]

theorem reads_negative (n : UInt64) :
    Reads item ('-' :: Numeral.ofNat (n.toNat + 1)) [.negative n] := by
  refine reads_of_succ ⟨'-', _, rfl, by decide⟩ ((shut_ofNat _).cons '-') fun m _ r hr ↦ ?_
  have hnumber := number_append (n.toNat + 1) (hr.head_false (p := Char.isDigit) (by decide))
  have hread : item (m + 1) ('-' :: (Numeral.ofNat (n.toNat + 1) ++ r)) =
    some ([.negative (.ofNat ((number (Numeral.ofNat (n.toNat + 1) ++ r)).1 - 1))],
      skip (number (Numeral.ofNat (n.toNat + 1) ++ r)).2) := rfl
  rw [List.cons_append, hread, hnumber, Nat.add_sub_cancel, UInt64.ofNat_toNat]

theorem reads_word : ∀ e ∈ words, Reads item e.1 [e.2] := by
  intro e he
  have hword : ∀ e ∈ words, e.1 ≠ [] ∧ e.1.all Char.isAlpha = true ∧ e.1 ≠ "simple".toList ∧
    words.lookup e.1 = some e.2 := by decide
  obtain ⟨hne, hall, hsimple, hlookup⟩ := hword e he
  have halpha := List.all_eq_true.1 hall
  have hnamed (n : Nat) (r : List Char) : item (n + 1) (e.1 ++ r) = named (e.1 ++ r) := by
    simp only [words, List.mem_cons, List.not_mem_nil, or_false] at he
    rcases he with rfl | rfl | rfl | rfl <;> rfl
  refine reads_of_succ (fit_of_forall (by decide) hne halpha)
    (shut_of_forall (by decide) hne halpha) fun n _ r hr ↦ ?_
  obtain ⟨ht, hd⟩ := span_append halpha (hr.head_false (by decide))
  simp only [hnamed, named, ht, hd, hsimple, if_false, hlookup]
  rfl

theorem reads_simple (n : UInt8) :
    Reads item ("simple(".toList ++ Numeral.ofNat n.toNat ++ [')']) [.simple n] := by
  show Reads item ('s' :: ("imple(".toList ++ Numeral.ofNat n.toNat ++ [')'])) _
  refine reads_between (by decide) (by decide) fun m _ r _ ↦ ?_
  have halpha : "simple".toList.all Char.isAlpha = true := by decide
  obtain ⟨ht, hd⟩ := span_append (List.all_eq_true.1 halpha)
    (head_cons_false (c := '(') rfl (Numeral.ofNat n.toNat ++ ')' :: r))
  have hnumber := number_append n.toNat (head_cons_false (p := Char.isDigit) (c := ')') rfl r)
  have hread : item (m + 1) ("simple".toList ++ '(' :: (Numeral.ofNat n.toNat ++ ')' :: r)) =
    named ("simple".toList ++ '(' :: (Numeral.ofNat n.toNat ++ ')' :: r)) := rfl
  have htext : 's' :: ("imple(".toList ++ Numeral.ofNat n.toNat ++ ')' :: r) =
      "simple".toList ++ '(' :: (Numeral.ofNat n.toNat ++ ')' :: r) := by simp
  rw [htext, hread, named, ht, hd, if_pos rfl, List.tail_cons, hnumber]
  dsimp only
  rw [expect_cons, UInt8.ofNat_toNat]
  rfl

theorem reads_chunk {isText : Bool} {t : List Char} {b : Octets} (h : Spells isText t b) :
    Reads (fun _ ↦ literal) t (.ofString isText b) where
  fit := h.fit
  shut := h.shut
  read _ _ _ hr := literal_append h hr.step_outside

/-- The mark of a string without chunks does not follow a string. -/
theorem string_append {isText : Bool} {t : List Char} {b : Octets} (h : Spells isText t b)
    (hr : Ends r) : string (t ++ r) = some ([.ofString isText b], skip r) := by
  rw [string, literal_append h hr.step_outside, Option.bind_eq_bind, Option.bind_some]
  dsimp only
  split
  · rename_i hmark
    exact absurd (hr '_' (by rw [hmark]; rfl)) (by decide)
  · rfl

theorem reads_string {isText : Bool} {t : List Char} {b : Octets} (h : Spells isText t b) :
    Reads item t [.ofString isText b] := by
  refine reads_of_succ h.fit h.shut fun n _ r hr ↦ ?_
  have hstring : item (n + 1) (t ++ r) = string (t ++ r) := by
    obtain ⟨u, rfl⟩ := List.head?_eq_some_iff.1 h.first
    cases isText <;> rfl
  rw [hstring, string_append h hr]

theorem reads_noChunks (isText : Bool) :
    Reads item [closing isText, closing isText, '_']
      [if isText then .textStart else .bytesStart, .stop] := by
  have hf : closing isText ∉ unfit := by cases isText <;> decide
  refine reads_between (s := [closing isText]) hf (by decide) fun n _ r _ ↦ ?_
  cases isText <;> rfl

theorem stringStart_append (isText : Bool) (parts : List Octets) (b : Octets) :
    stringStart ((parts ++ [b]).map (.ofString isText)) =
      if isText then .textStart else .bytesStart := by
  cases parts <;> cases isText <;> rfl

theorem reads_chunks {isText : Bool} {row t gap gap' : List Char} {parts : List Octets} {b : Octets}
    (h : Row (fun _ ↦ literal) row (parts.map (.ofString isText))) (ht : Spells isText t b)
    (hg : Blank gap) (hg' : Blank gap') :
    Reads item ('(' :: ('_' :: (gap ++ (row ++ (t ++ gap'))) ++ [')']))
      ((if isText then .textStart else .bytesStart) ::
        (parts ++ [b]).map (.ofString isText) ++ [.stop]) := by
  refine reads_between (by decide) (by decide) fun n hn r hr ↦ ?_
  rw [List.length_cons, List.length_append] at hn
  have hclose : ')' ∈ enders ∧ ')' ≠ ',' := by decide
  have hseq := sequence_append h (reads_chunk ht) hg' hclose.1 hclose.2 (n := n) (by omega) r
  have hstart := stringStart_append isText parts b
  have hread : item (n + 1) ('(' :: ('_' :: (gap ++ (row ++ (t ++ gap'))) ++ ')' :: r)) =
    chunks n (gap ++ (row ++ (t ++ gap')) ++ ')' :: r) := rfl
  rw [List.map_append, List.map_singleton] at hstart ⊢
  rw [hread, chunks, List.append_assoc, skip_append hg,
    ((h.fit (ht.fit.append gap')).append _).skip, hseq, Option.map_some, hstart]

theorem Reads.read_eq {t : List Char} {ls : List Lexeme} (h : Reads item t ls) :
    Reader.read t = some ls := by
  have hread := h.read t.length (Nat.le_refl _) [] ends_nil
  rw [List.append_nil] at hread
  rw [Reader.read, hread]
  rfl

end Reader
end Cbor.Diagnostic
