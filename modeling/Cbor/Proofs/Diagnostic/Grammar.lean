import Cbor.Proofs.Diagnostic.Outline
import Cbor.Proofs.Wire.Datum
import Cbor.Proofs.Wire.Meaning

namespace Cbor.Diagnostic.Outline

open Assembly (countDown? due count_ne_zero map_count countDown?_due)
open Datum (nesting nestingAll nestingEntries)

variable (maxDepth : Nat)

/-- Takes lexemes until a top-level item is complete; the answer is the lexemes behind it. -/
def pushAll (u : Outline) : List Lexeme → Except Fault (Option (List Lexeme) × Outline)
  | [] => .ok (none, u)
  | l :: ls => do
    match ← u.push maxDepth l with
    | (true, u) => return (some ls, u)
    | (false, u) => pushAll u ls

def resume (ls : List Lexeme) : Bool × Outline → Except Fault (Option (List Lexeme) × Outline)
  | (true, u) => .ok (some ls, u)
  | (false, u) => pushAll maxDepth u ls

theorem pushAll_cons (u : Outline) (l : Lexeme) (ls : List Lexeme) :
    pushAll maxDepth u (l :: ls) = u.push maxDepth l >>= resume maxDepth ls := rfl

def checkRoom (depth levels : Nat) : Except Fault Unit :=
  if depth + levels ≤ maxDepth then .ok () else .error .depth

variable {maxDepth}

theorem checkRoom_zero_bind {α : Type} {depth : Nat} (h : depth ≤ maxDepth)
    (x : Except Fault α) : (checkRoom maxDepth depth 0 >>= fun _ ↦ x) = x := by
  rw [checkRoom, if_pos (show depth + 0 ≤ maxDepth from h)]
  rfl

theorem checkRoom_max (depth m n : Nat) :
    checkRoom maxDepth depth (max m n) =
      checkRoom maxDepth depth m >>= fun _ ↦ checkRoom maxDepth depth n := by
  unfold checkRoom
  by_cases hm : depth + m ≤ maxDepth
  · by_cases hn : depth + n ≤ maxDepth
    · have : depth + max m n ≤ maxDepth := by omega
      simp [hm, hn, this]
    · have : ¬ depth + max m n ≤ maxDepth := by omega
      simp [hm, hn, this]
  · have : ¬ depth + max m n ≤ maxDepth := by omega
    simp [hm, this]

theorem checkRoom_succ (depth levels : Nat) :
    checkRoom maxDepth (depth + 1) levels = checkRoom maxDepth depth (levels + 1) := by
  rw [checkRoom, checkRoom, Nat.add_assoc, Nat.add_comm 1]

theorem enter_bind {α : Type} {depth levels : Nat} {f : Nat → Except Fault α} {r : Except Fault α}
    (h : depth + 1 ≤ maxDepth →
      f (depth + 1) = checkRoom maxDepth (depth + 1) levels >>= fun _ ↦ r) :
    enter maxDepth depth >>= f = checkRoom maxDepth depth (levels + 1) >>= fun _ ↦ r := by
  by_cases hd : depth < maxDepth
  · rw [enter, if_pos hd, ok_bind, h hd, checkRoom_succ]
  · have hl : ¬ depth + (levels + 1) ≤ maxDepth := by omega
    rw [enter, if_neg hd, checkRoom, if_neg hl]
    rfl

theorem openContainer_of_due {n : Nat} (hn : n < UInt64.size) {indefinite : Bool}
    (h : indefinite = true ∨ n ≠ 0) (slot : Slot) (stack : List Slot) (depth : Nat) :
    openContainer maxDepth slot (Wire.count indefinite n) stack depth =
      enter maxDepth depth >>= fun inside ↦ .ok (false, ⟨slot :: stack, inside⟩) := by
  simp only [openContainer, count_ne_zero hn h, if_false, pure_eq_ok]

theorem openContainer_empty (slot : Slot) (stack : List Slot) (depth : Nat) (ls : List Lexeme) :
    openContainer maxDepth slot (Wire.count false 0) stack depth >>= resume maxDepth ls =
      checkRoom maxDepth depth 1 >>= fun _ ↦ resume maxDepth ls (fill stack depth) := by
  rw [openContainer, bind_assoc]
  refine enter_bind fun hd ↦ ?_
  exact (checkRoom_zero_bind hd _).symm

theorem pushAll_chunks (isText : Bool) (stack : List Slot) (depth : Nat) (parts : List Octets)
    (ls : List Lexeme) :
    pushAll maxDepth ⟨.chunks isText :: stack, depth⟩
        (parts.map (.ofString isText) ++ .stop :: ls) =
      resume maxDepth ls (fill stack depth) := by
  induction parts with
  | nil => rfl
  | cons b parts ih =>
    have hp : push maxDepth ⟨.chunks isText :: stack, depth⟩ (.ofString isText b) =
        .ok (false, ⟨.chunks isText :: stack, depth⟩) := by
      cases isText <;> rfl
    rw [List.map_cons, List.cons_append, pushAll_cons, hp]
    exact ih

theorem outside_array (remaining : Option Nat) (stack : List Slot) :
    Outside (.array remaining :: stack) := by
  intro isText rest h
  cases h

theorem outside_map (remaining : Option Nat) (isKey : Bool) (stack : List Slot) :
    Outside (.map remaining isKey :: stack) := by
  intro isText rest h
  cases h

theorem outside_tag (stack : List Slot) : Outside (.tag :: stack) := by
  intro isText rest h
  cases h

mutual

/-- A tree is taken as one item just if its levels find room. -/
theorem pushAll_lexemes : (w : Wire) → w.octets.length < UInt64.size →
    ∀ (stack : List Slot), Outside stack → ∀ (depth : Nat), depth ≤ maxDepth →
    ∀ (ls : List Lexeme), pushAll maxDepth ⟨stack, depth⟩ (w.lexemes ++ ls) =
      checkRoom maxDepth depth w.nesting >>= fun _ ↦ resume maxDepth ls (fill stack depth)
  | .scalar a, _, stack, hs, depth, hd, ls => by
    rw [Wire.lexemes, List.singleton_append, pushAll_cons, push_of_outside hs]
    cases a <;> exact (checkRoom_zero_bind hd _).symm
  | .simple .., _, stack, hs, depth, hd, ls => by
    rw [Wire.lexemes, List.singleton_append, pushAll_cons, push_of_outside hs]
    exact (checkRoom_zero_bind hd _).symm
  | .string isText b, _, stack, hs, depth, hd, ls => by
    have hw : write maxDepth stack depth (.ofString isText b) = .ok (fill stack depth) := by
      cases isText <;> exact string_of_outside hs _ depth
    rw [Wire.lexemes, List.singleton_append, pushAll_cons, push_of_outside hs, hw]
    exact (checkRoom_zero_bind hd _).symm
  | .chunks isText parts, _, stack, hs, depth, hd, ls => by
    have hw : write maxDepth stack depth (if isText then .textStart else .bytesStart) =
        .ok (false, ⟨.chunks isText :: stack, depth⟩) := by
      cases isText <;> rfl
    rw [Wire.lexemes, List.cons_append, List.cons_append, pushAll_cons, push_of_outside hs, hw,
      List.append_assoc]
    refine (pushAll_chunks isText stack depth parts ls).trans ?_
    exact (checkRoom_zero_bind hd _).symm
  | .array indefinite items, h, stack, hs, depth, hd, ls => by
    have hall : (Wire.spell (Wire.lexemesAll items)).length < UInt64.size :=
      Nat.lt_of_le_of_lt (Wire.length_le_octets_array indefinite items) h
    have hn : items.length < UInt64.size := by
      have := Wire.length_le_lexemesAll items
      have := Wire.length_le_spell (Wire.lexemesAll items)
      omega
    rw [Wire.lexemes, List.cons_append, List.cons_append, pushAll_cons, push_of_outside hs]
    by_cases hi : indefinite = true ∨ items ≠ []
    · have hl : indefinite = true ∨ items.length ≠ 0 := by simpa using hi
      rw [write_array, openContainer_of_due hn hl, map_count hn, bind_assoc]
      refine enter_bind fun hd ↦ ?_
      exact pushAll_all items hall hi stack hs (depth + 1) hd ls
    · simp only [not_or, Bool.not_eq_true, ne_eq, Classical.not_not] at hi
      obtain ⟨rfl, rfl⟩ := hi
      exact openContainer_empty _ stack depth ls
  | .map indefinite entries, h, stack, hs, depth, hd, ls => by
    have hall : (Wire.spell (Wire.lexemesEntries entries)).length < UInt64.size :=
      Nat.lt_of_le_of_lt (Wire.length_le_octets_map indefinite entries) h
    have hn : entries.length < UInt64.size := by
      have := Wire.length_le_lexemesEntries entries
      have := Wire.length_le_spell (Wire.lexemesEntries entries)
      omega
    rw [Wire.lexemes, List.cons_append, List.cons_append, pushAll_cons, push_of_outside hs]
    by_cases hi : indefinite = true ∨ entries ≠ []
    · have hl : indefinite = true ∨ entries.length ≠ 0 := by simpa using hi
      rw [write_map, openContainer_of_due hn hl, map_count hn, bind_assoc]
      refine enter_bind fun hd ↦ ?_
      exact pushAll_entries entries hall hi stack hs (depth + 1) hd ls
    · simp only [not_or, Bool.not_eq_true, ne_eq, Classical.not_not] at hi
      obtain ⟨rfl, rfl⟩ := hi
      exact openContainer_empty _ stack depth ls
  | .tag number content, h, stack, hs, depth, hd, ls => by
    have hc : content.octets.length < UInt64.size :=
      Nat.lt_of_le_of_lt (Wire.length_le_octets_tag number content) h
    rw [Wire.lexemes, List.cons_append, pushAll_cons, push_of_outside hs, write_tag, bind_assoc]
    refine enter_bind fun hd ↦ ?_
    exact pushAll_lexemes content hc (.tag :: stack) (outside_tag stack) (depth + 1) hd ls

theorem pushAll_all : (ws : List Wire) → (Wire.spell (Wire.lexemesAll ws)).length < UInt64.size →
    ∀ {indefinite : Bool}, indefinite = true ∨ ws ≠ [] →
    ∀ (stack : List Slot), Outside stack → ∀ (depth : Nat), depth ≤ maxDepth →
    ∀ (ls : List Lexeme),
    pushAll maxDepth ⟨.array (due indefinite ws.length) :: stack, depth⟩
        (Wire.lexemesAll ws ++ Wire.ending indefinite ++ ls) =
      checkRoom maxDepth depth (nestingAll (Wire.datumAll ws)) >>= fun _ ↦
        resume maxDepth ls (fill stack (depth - 1))
  | [], _, indefinite, hi, stack, hs, depth, hd, ls => by
    obtain rfl := hi.resolve_right (fun h ↦ h rfl)
    exact (checkRoom_zero_bind hd _).symm
  | w :: ws, h, indefinite, hi, stack, hs, depth, hd, ls => by
    simp only [Wire.lexemesAll, Wire.spell_append, List.length_append] at h
    have hw : w.octets.length < UInt64.size := Nat.lt_of_le_of_lt (Nat.le_add_right ..) h
    have hws : (Wire.spell (Wire.lexemesAll ws)).length < UInt64.size := by omega
    rw [Wire.lexemesAll, List.append_assoc, List.append_assoc, ← List.append_assoc _ _ ls,
      pushAll_lexemes w hw _ (outside_array _ stack) depth hd, Wire.datumAll, nestingAll,
      checkRoom_max, bind_assoc]
    congr 1
    funext
    simp only [fill, List.length_cons, countDown?_due]
    by_cases hi : indefinite = true ∨ ws ≠ []
    · have hl : indefinite = true ∨ ws.length ≠ 0 := by simpa using hi
      rw [if_pos hl]
      exact pushAll_all ws hws hi stack hs depth hd ls
    · have hl : ¬ (indefinite = true ∨ ws.length ≠ 0) := by simpa using hi
      simp only [not_or, Bool.not_eq_true, ne_eq, Classical.not_not] at hi
      obtain ⟨rfl, rfl⟩ := hi
      rw [if_neg hl]
      exact (checkRoom_zero_bind hd _).symm

theorem pushAll_entries : (es : List (Wire × Wire)) →
    (Wire.spell (Wire.lexemesEntries es)).length < UInt64.size →
    ∀ {indefinite : Bool}, indefinite = true ∨ es ≠ [] →
    ∀ (stack : List Slot), Outside stack → ∀ (depth : Nat), depth ≤ maxDepth →
    ∀ (ls : List Lexeme),
    pushAll maxDepth ⟨.map (due indefinite es.length) true :: stack, depth⟩
        (Wire.lexemesEntries es ++ Wire.ending indefinite ++ ls) =
      checkRoom maxDepth depth (nestingEntries (Wire.datumEntries es)) >>= fun _ ↦
        resume maxDepth ls (fill stack (depth - 1))
  | [], _, indefinite, hi, stack, hs, depth, hd, ls => by
    obtain rfl := hi.resolve_right (fun h ↦ h rfl)
    exact (checkRoom_zero_bind hd _).symm
  | (k, v) :: es, h, indefinite, hi, stack, hs, depth, hd, ls => by
    simp only [Wire.lexemesEntries, Wire.spell_append, List.length_append] at h
    have hk : k.octets.length < UInt64.size := by
      simp only [Wire.octets]
      omega
    have hv : v.octets.length < UInt64.size := by
      simp only [Wire.octets]
      omega
    have hes : (Wire.spell (Wire.lexemesEntries es)).length < UInt64.size := by omega
    rw [Wire.lexemesEntries, List.append_assoc, List.append_assoc, List.append_assoc,
      ← List.append_assoc _ _ ls, pushAll_lexemes k hk _ (outside_map _ true stack) depth hd,
      Wire.datumEntries, nestingEntries, checkRoom_max, checkRoom_max, bind_assoc, bind_assoc]
    congr 1
    funext
    simp only [fill, resume]
    rw [pushAll_lexemes v hv _ (outside_map _ false stack) depth hd]
    congr 1
    funext
    simp only [fill, List.length_cons, countDown?_due]
    by_cases hi : indefinite = true ∨ es ≠ []
    · have hl : indefinite = true ∨ es.length ≠ 0 := by simpa using hi
      rw [if_pos hl]
      exact pushAll_entries es hes hi stack hs depth hd ls
    · have hl : ¬ (indefinite = true ∨ es.length ≠ 0) := by simpa using hi
      simp only [not_or, Bool.not_eq_true, ne_eq, Classical.not_not] at hi
      obtain ⟨rfl, rfl⟩ := hi
      rw [if_neg hl]
      exact (checkRoom_zero_bind hd _).symm

end

/-- What remains of `count` after `n` elements or entries, one at least. -/
inductive Remains : (count : Option UInt64) → (n : Nat) → Option Nat → Prop
  | indefinite (n : Nat) : Remains none n none
  | definite {count : UInt64} {n : Nat} (h : n < count.toNat) :
    Remains (some count) n (some (count.toNat - n))

/-- The lexemes `ls` begin an item, and `stack` is what of it is begun and not ended, the innermost
first. Before the top-level item there are none. -/
inductive Pending : (stack : List Slot) → (ls : List Lexeme) → Prop
  | top : Pending [] []
  | array {stack : List Slot} {ls : List Lexeme} {count : Option UInt64} {remaining : Option Nat}
    (h : Pending stack ls) (hs : Outside stack) (items : List Wire)
    (hr : Remains count items.length remaining) :
    Pending (.array remaining :: stack) (ls ++ .array count :: Wire.lexemesAll items)
  | key {stack : List Slot} {ls : List Lexeme} {count : Option UInt64} {remaining : Option Nat}
    (h : Pending stack ls) (hs : Outside stack) (entries : List (Wire × Wire))
    (hr : Remains count entries.length remaining) :
    Pending (.map remaining true :: stack) (ls ++ .map count :: Wire.lexemesEntries entries)
  | value {stack : List Slot} {ls : List Lexeme} {count : Option UInt64} {remaining : Option Nat}
    (h : Pending stack ls) (hs : Outside stack) (entries : List (Wire × Wire)) (key : Wire)
    (hr : Remains count entries.length remaining) :
    Pending (.map remaining false :: stack)
      (ls ++ .map count :: (Wire.lexemesEntries entries ++ key.lexemes))
  | tag {stack : List Slot} {ls : List Lexeme} (h : Pending stack ls) (hs : Outside stack)
    (number : UInt64) : Pending (.tag :: stack) (ls ++ [.tag number])
  | chunks {stack : List Slot} {ls : List Lexeme} (h : Pending stack ls) (hs : Outside stack)
    (isText : Bool) (parts : List Octets) :
    Pending (.chunks isText :: stack)
      (ls ++ (if isText then .textStart else .bytesStart) :: parts.map (.ofString isText))

def Accounts (r : Bool × Outline) (ls : List Lexeme) : Prop :=
  if r.1 then ∃ w : Wire, ls = w.lexemes else Pending r.2.stack ls

theorem Remains.next {count : Option UInt64} {n : Nat} {remaining next : Option Nat}
    (h : Remains count n remaining) (hn : countDown? remaining = some next) :
    Remains count (n + 1) next := by
  cases h with
  | indefinite n =>
    cases hn
    exact .indefinite (n + 1)
  | @definite count n h =>
    rw [countDown?] at hn
    split at hn
    case isTrue => cases hn
    case isFalse hlt =>
      cases hn
      rw [Nat.sub_sub]
      exact .definite (by omega)

theorem Remains.last {count : Option UInt64} {n : Nat} {remaining : Option Nat}
    (h : Remains count n remaining) (hn : countDown? remaining = none) :
    count = Wire.count false (n + 1) := by
  cases h with
  | indefinite => cases hn
  | @definite count n h =>
    rw [countDown?] at hn
    split at hn
    case isTrue hle =>
      have hc : count.toNat = n + 1 := by omega
      rw [Wire.count, if_neg Bool.false_ne_true, ← hc, UInt64.ofNat_toNat]
    case isFalse => cases hn

theorem remains_zero {count : Option UInt64} (hn : count ≠ some 0) :
    Remains count 0 (count.map UInt64.toNat) := by
  cases count with
  | none => exact .indefinite 0
  | some n =>
    have hpos : 0 < n.toNat := by
      refine Nat.pos_of_ne_zero fun h ↦ hn ?_
      rw [← n.ofNat_toNat, h]
      rfl
    exact .definite hpos

theorem lexemesAll_append (ws us : List Wire) :
    Wire.lexemesAll (ws ++ us) = Wire.lexemesAll ws ++ Wire.lexemesAll us := by
  induction ws with
  | nil => rfl
  | cons w ws ih => rw [List.cons_append, Wire.lexemesAll, Wire.lexemesAll, ih, List.append_assoc]

theorem lexemesEntries_append (es fs : List (Wire × Wire)) :
    Wire.lexemesEntries (es ++ fs) = Wire.lexemesEntries es ++ Wire.lexemesEntries fs := by
  induction es with
  | nil => rfl
  | cons e es ih =>
    rw [List.cons_append, Wire.lexemesEntries, Wire.lexemesEntries, ih]
    simp only [List.append_assoc]

theorem accounts_fill {stack : List Slot} {ls : List Lexeme} (h : Pending stack ls)
    (hs : Outside stack) (depth : Nat) (w : Wire) :
    Accounts (fill stack depth) (ls ++ w.lexemes) := by
  induction h generalizing depth w with
  | top => exact ⟨w, rfl⟩
  | @array stack ls count remaining h hs' items hr ih =>
    have hall : ls ++ .array count :: Wire.lexemesAll items ++ w.lexemes =
        ls ++ .array count :: Wire.lexemesAll (items ++ [w]) := by
      simp [lexemesAll_append, Wire.lexemesAll]
    rw [hall, fill]
    cases hn : countDown? remaining with
    | some next => exact .array h hs' (items ++ [w]) (by simpa using hr.next hn)
    | none =>
      have hw := ih hs' (depth - 1) (.array false (items ++ [w]))
      simpa [Wire.lexemes, Wire.ending, ← hr.last hn] using hw
  | @key stack ls count remaining h hs' entries hr ih =>
    have hv := Pending.value h hs' entries w hr
    rw [← List.cons_append, ← List.append_assoc] at hv
    exact hv
  | @value stack ls count remaining h hs' entries k hr ih =>
    have hall : ls ++ .map count :: (Wire.lexemesEntries entries ++ k.lexemes) ++ w.lexemes =
        ls ++ .map count :: Wire.lexemesEntries (entries ++ [(k, w)]) := by
      simp [lexemesEntries_append, Wire.lexemesEntries]
    rw [hall, fill]
    cases hn : countDown? remaining with
    | some next => exact .key h hs' (entries ++ [(k, w)]) (by simpa using hr.next hn)
    | none =>
      have hw := ih hs' (depth - 1) (.map false (entries ++ [(k, w)]))
      simpa [Wire.lexemes, Wire.ending, ← hr.last hn] using hw
  | @tag stack ls h hs' number ih =>
    have hw := ih hs' (depth - 1) (.tag number w)
    rw [List.append_assoc]
    exact hw
  | chunks => exact absurd rfl (hs _ _)

theorem exists_of_isLeaf {l : Lexeme} {b : Octets} (hl : l.IsLeaf) (hb : l.Form b) :
    ∃ w : Wire, w.lexemes = [l] := by
  cases l with
  | unsigned n => exact ⟨.scalar (.unsigned n), rfl⟩
  | negative n => exact ⟨.scalar (.negative n), rfl⟩
  | bytes b => exact ⟨.string false b, rfl⟩
  | text b => exact ⟨.string true b, rfl⟩
  | simple n => exact ⟨.simple n hb.1, rfl⟩
  | bool b => exact ⟨.scalar (.bool b), rfl⟩
  | null => exact ⟨.scalar .null, rfl⟩
  | undefined => exact ⟨.scalar .undefined, rfl⟩
  | float16 bits => exact ⟨.scalar (.float16 bits), rfl⟩
  | float32 bits => exact ⟨.scalar (.float32 bits), rfl⟩
  | float64 bits => exact ⟨.scalar (.float64 bits), rfl⟩
  | bytesStart | textStart | array | map | tag | stop => exact hl.elim

/-- A lexeme that is accepted takes the pending item on, or to its end. -/
theorem accounts_push {u : Outline} {l : Lexeme} {r : Bool × Outline} {ls : List Lexeme}
    {b : Octets} (h : Pending u.stack ls) (hl : l.Form b) (hp : u.push maxDepth l = .ok r) :
    Accounts r (ls ++ [l]) := by
  cases pushes_of_push hp with
  | leaf hs depth hleaf =>
    obtain ⟨w, hw⟩ := exists_of_isLeaf hleaf hl
    exact hw ▸ accounts_fill h hs depth w
  | openString hs depth isText => exact .chunks h hs isText []
  | chunk isText stack depth b =>
    cases h with
    | @chunks _ ls h hs _ parts =>
      have hc := Pending.chunks h hs isText (parts ++ [b])
      rw [List.map_append, ← List.cons_append, ← List.append_assoc] at hc
      exact hc
  | closeString isText stack depth =>
    cases h with
    | @chunks _ ls h hs _ parts =>
      have hw := accounts_fill h hs depth (.chunks isText parts)
      simpa [Wire.lexemes] using hw
  | emptyArray hs depth => exact accounts_fill h hs depth (.array false [])
  | openArray hs hn => exact .array h hs [] (remains_zero hn)
  | closeArray stack depth =>
    cases h with
    | array h hs items hr =>
      cases hr
      have hw := accounts_fill h hs (depth - 1) (.array true items)
      simpa [Wire.lexemes, Wire.count, Wire.ending] using hw
  | emptyMap hs depth => exact accounts_fill h hs depth (.map false [])
  | openMap hs hn => exact .key h hs [] (remains_zero hn)
  | closeMap stack depth =>
    cases h with
    | key h hs entries hr =>
      cases hr
      have hw := accounts_fill h hs (depth - 1) (.map true entries)
      simpa [Wire.lexemes, Wire.count, Wire.ending] using hw
  | openTag hs number => exact .tag h hs number

theorem exists_of_pushAll {u v : Outline} {before ls : List Lexeme} {b : Octets}
    (h : Pending u.stack before) (hb : Wire.Spelling ls b)
    (hp : pushAll maxDepth u ls = .ok (some [], v)) : ∃ w : Wire, before ++ ls = w.lexemes := by
  induction hb generalizing u before with
  | nil => cases hp
  | @cons l ls b c hl hb ih =>
    rw [pushAll_cons] at hp
    obtain ⟨⟨done, u'⟩, hl', hp⟩ := bind_eq_ok.1 hp
    have ha := accounts_push h hl hl'
    cases done with
    | true =>
      cases hp
      exact ha
    | false =>
      obtain ⟨w, hw⟩ := ih ha hp
      exact ⟨w, by rw [← hw, List.append_assoc, List.singleton_append]⟩

end Cbor.Diagnostic.Outline
