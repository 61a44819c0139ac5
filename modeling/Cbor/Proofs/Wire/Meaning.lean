import Cbor.Assembly
import Cbor.Proofs.Wire.Tree

namespace Cbor

open Decoder (Options)
open Assembly

def Scope.record (s : Scope) (item : Item) (length : Nat) : Scope :=
  { s with strings := StringNamespace.record item length s.strings }

namespace StringNamespace

variable {P : Item → Prop} {strings : List StringNamespace}

theorem mem_record (h : ∀ inner ∈ strings, ∀ i ∈ inner, P i) {item : Item} (hi : P item)
    (length : Nat) : ∀ inner ∈ record item length strings, ∀ i ∈ inner, P i := by
  unfold record
  rcases strings with _ | ⟨inner, outer⟩
  · nofun
  · obtain ⟨hinner, houter⟩ := List.forall_mem_cons.1 h
    refine List.forall_mem_cons.2 ⟨fun i hm ↦ ?_, houter⟩
    split at hm
    · rcases Array.mem_push.1 hm with hm | rfl
      · exact hinner i hm
      · exact hi
    · exact hinner i hm

theorem of_resolve (h : ∀ inner ∈ strings, ∀ i ∈ inner, P i) {content item : Item}
    (hr : resolve content strings = .ok item) : P item := by
  unfold resolve at hr
  split at hr
  · cases hr
  · split at hr
    · split at hr
      · rename_i hi
        cases hr
        exact h _ List.mem_cons_self _ (Array.mem_of_getElem? hi)
      · cases hr
    · cases hr

end StringNamespace

def TagRole.isShareable : TagRole → Bool
  | .shareable _ => true
  | _ => false

namespace Wire

variable (o : Options)

def joinChunks (isText : Bool) (done : Array UInt8) : List Octets → Except Fault (Array UInt8)
  | [] => .ok done
  | b :: bs => do
    if isText then checkText o b
    Lexeme.checkSize o.maxSize (done.size + b.length)
    joinChunks isText (done ++ b) bs

def growth (indefinite : Bool) (size : Nat) : Except Fault Unit :=
  if indefinite then Lexeme.checkSize o.maxSize (size + 1) else .ok ()

def entryKey (indefinite : Bool) (done : Array (Item × Item)) (key : Item) :
    Except Fault Item := do
  growth o indefinite done.size
  let key ← key.mapKey o.flags
  if o.flags.contains .mapNoDupKey ∧ done.any (fun e ↦ e.1 == key) then throw .duplicateKey
  return key

mutual

/-- The item as it is read, before it is made native, and what reading it leaves behind. -/
def meaning (shared : Bool) (s : Scope) : Wire → Except Fault (Item × Scope)
  | scalar a => .ok (a.item, s)
  | simple _ _ => .error .unsupportedType
  | string isText b => do
    if isText then checkText o b
    return (.ofString isText b, s.record (.ofString isText b) b.length)
  | chunks isText parts => do
    let octets ← joinChunks o isText #[] parts
    return (.ofString isText octets.toList, s)
  | array indefinite items => do
    let s ← s.enter o.maxDepth
    let (items, s) ← meaningAll indefinite #[] s items
    return (.array items.toList, s.leave)
  | map indefinite entries => do
    let s ← s.enter o.maxDepth
    let (entries, s) ← meaningEntries indefinite #[] s entries
    return (.map entries.toList, s.leave)
  | tag number content => do
    let s ← s.enter o.maxDepth
    let (role, s) ← openRole o shared number s
    let (item, s) ← meaning role.isShareable s content
    closeTag o number role item s.leave

def meaningAll (indefinite : Bool) (done : Array Item) (s : Scope) :
    List Wire → Except Fault (Array Item × Scope)
  | [] => .ok (done, s)
  | w :: ws => do
    let (item, s) ← meaning false s w
    growth o indefinite done.size
    meaningAll indefinite (done.push (item.native o.flags)) s ws

def meaningEntries (indefinite : Bool) (done : Array (Item × Item)) (s : Scope) :
    List (Wire × Wire) → Except Fault (Array (Item × Item) × Scope)
  | [] => .ok (done, s)
  | (k, v) :: es => do
    let (key, s) ← meaning false s k
    let key ← entryKey o indefinite done key
    let (value, s) ← meaning false s v
    meaningEntries indefinite (insertEntry o.flags done key (value.native o.flags)) s es

end

theorem meaning_string (isText : Bool) (b : Octets) (shared : Bool) (s : Scope) :
    (string isText b).meaning o shared s =
      (if isText then checkText o b else .ok ()) >>= fun _ ↦
        .ok (.ofString isText b, s.record (.ofString isText b) b.length) := by
  cases isText <;> rfl

end Wire

def Tag.references : List UInt64 :=
  [Tag.stringRefNamespace, Tag.stringRef, Tag.shareable, Tag.sharedRef]

namespace Assembly

theorem openRole_unrelated {o : Options} {number : UInt64} (h : number ∉ Tag.references)
    (shared : Bool) (s : Scope) : openRole o shared number s = .ok (.plain, s) := by
  simp only [Tag.references, List.mem_cons, List.not_mem_nil, or_false, not_or] at h
  simp [openRole, h]

theorem openRole_shareable {o : Options} (h : o.sharedRef ≠ .off) (s : Scope) :
    openRole o false Tag.shareable s =
      .ok (.shareable s.shared.size, { s with shared := s.shared.push none }) := by
  simp +decide [openRole, h]

theorem openRole_sharedRef {o : Options} (h : o.sharedRef ≠ .off) (shared : Bool) (s : Scope) :
    openRole o shared Tag.sharedRef s = .ok (.sharedRef, s) := by
  simp +decide [openRole, h]

theorem openRole_stringNamespace {o : Options} (hr : o.stringRef = true) (shared : Bool)
    (s : Scope) : openRole o shared Tag.stringRefNamespace s =
      .ok (.stringNamespace, { s with strings := #[] :: s.strings }) := by
  simp [openRole, hr]

theorem openRole_stringRef {o : Options} (hr : o.stringRef = true) (shared : Bool) (s : Scope) :
    openRole o shared Tag.stringRef s = .ok (.stringRef, s) := by
  simp +decide [openRole, hr]

theorem openRole_plain {o : Options} {number : UInt64} (hns : number ≠ Tag.stringRefNamespace)
    (hsr : number ≠ Tag.stringRef) (hsh : o.sharedRef = .off) (shared : Bool) (s : Scope) :
    openRole o shared number s = .ok (.plain, s) := by
  simp [openRole, hns, hsr, hsh]

variable (o : Options)

def tagged (number : UInt64) (content : Item) : Except Fault Item := do
  match ← Tag.interpret o.groups number content with
  | some item => return item
  | none => return .tag number (content.native o.flags)

theorem closeTag_plain (number : UInt64) (content : Item) (s : Scope) :
    closeTag o number .plain content s = (·, s) <$> tagged o number content := by
  simp only [closeTag, tagged]
  rcases Tag.interpret o.groups number content with _ | _ | _ <;> rfl

theorem fst_closeTag_plain (number : UInt64) (r : Except Fault (Item × Scope)) :
    Prod.fst <$> (r >>= fun r ↦ closeTag o number .plain r.1 r.2.leave) =
      Prod.fst <$> r >>= tagged o number := by
  cases r with
  | error e => rfl
  | ok r =>
    simp only [ok_bind, map_ok, closeTag_plain]
    cases tagged o number r.1 <;> rfl

/-- Takes lexemes until a top-level item is complete; the answer is that item, if any, with the
lexemes behind it. -/
def assemble (a : Assembly) :
    List Lexeme → Except Fault (Option (Item × List Lexeme) × Assembly)
  | [] => .ok (none, a)
  | l :: ls => do
    match ← a.push o l with
    | (some item, a) => return (some (item, ls), a)
    | (none, a) => assemble a ls

def resume (ls : List Lexeme) :
    Option Item × Assembly → Except Fault (Option (Item × List Lexeme) × Assembly)
  | (some item, a) => .ok (some (item, ls), a)
  | (none, a) => assemble o a ls

theorem assemble_cons (a : Assembly) (l : Lexeme) (ls : List Lexeme) :
    assemble o a (l :: ls) = a.push o l >>= resume o ls := rfl

def Outside (stack : List Frame) : Prop :=
  ∀ isText octets rest, stack ≠ .chunks isText octets :: rest

theorem push_of_outside {stack : List Frame} (h : Outside stack) (s : Scope) (l : Lexeme) :
    push o ⟨stack, s⟩ l = pushItem o stack s l := by
  cases stack with
  | nil => rfl
  | cons f stack =>
    cases f with
    | chunks isText octets => exact absurd rfl (h isText octets stack)
    | _ => rfl

theorem inShareable_tag (number : UInt64) (role : TagRole) (stack : List Frame) :
    inShareable (.tag number role :: stack) = role.isShareable := by
  cases role <;> rfl

def due (indefinite : Bool) (n : Nat) : Option Nat := if indefinite then none else some n

theorem checkGrowth_due (indefinite : Bool) (n size : Nat) :
    checkGrowth o (due indefinite n) size = Wire.growth o indefinite size := by
  cases indefinite <;> rfl

theorem push_chunk (isText : Bool) (done : Array UInt8) (stack : List Frame) (s : Scope)
    (b : Octets) :
    push o ⟨.chunks isText done :: stack, s⟩ (.ofString isText b) = do
      if isText then checkText o b
      Lexeme.checkSize o.maxSize (done.size + b.length)
      return (none, ⟨.chunks isText (done ++ b) :: stack, s⟩) := by
  cases isText <;> simp [push, pushChunk, addChunk, Lexeme.ofString]

theorem assemble_chunks (isText : Bool) (done : Array UInt8) (stack : List Frame) (s : Scope)
    (parts : List Octets) (ls : List Lexeme) :
    assemble o ⟨.chunks isText done :: stack, s⟩
        (parts.map (.ofString isText) ++ .stop :: ls) =
      Wire.joinChunks o isText done parts >>= fun octets ↦
        complete o stack s (.ofString isText octets.toList) >>= resume o ls := by
  induction parts generalizing done with
  | nil => cases isText <;> rfl
  | cons b parts ih =>
    rw [List.map_cons, List.cons_append, assemble_cons, push_chunk, Wire.joinChunks]
    cases isText <;>
      simp only [if_true, Bool.false_eq_true, if_false, bind_assoc, pure_eq_ok, ok_bind, resume, ih]

theorem count_ne_zero {n : Nat} (hn : n < UInt64.size) {indefinite : Bool}
    (h : indefinite = true ∨ n ≠ 0) : Wire.count indefinite n ≠ some 0 := by
  cases indefinite with
  | true => exact nofun
  | false =>
    have hn0 : n ≠ 0 := h.resolve_left Bool.false_ne_true
    rw [Wire.count, if_neg Bool.false_ne_true, ne_eq, Option.some.injEq, ← UInt64.toNat_inj,
      UInt64.toNat_ofNat_of_lt' hn]
    exact hn0

theorem map_count {n : Nat} (hn : n < UInt64.size) (indefinite : Bool) :
    (Wire.count indefinite n).map UInt64.toNat = due indefinite n := by
  cases indefinite with
  | false => exact congrArg some (UInt64.toNat_ofNat_of_lt' hn)
  | true => rfl

theorem openArray_of_due {n : Nat} (hn : n < UInt64.size) {indefinite : Bool}
    (h : indefinite = true ∨ n ≠ 0) (stack : List Frame) (s : Scope) :
    openArray o (Wire.count indefinite n) ⟨stack, s⟩ =
      s.enter o.maxDepth >>= fun s ↦ .ok (none, ⟨.array #[] (due indefinite n) :: stack, s⟩) := by
  simp only [openArray, count_ne_zero hn h, if_false, map_count hn, pure_eq_ok]

theorem openMap_of_due {n : Nat} (hn : n < UInt64.size) {indefinite : Bool}
    (h : indefinite = true ∨ n ≠ 0) (stack : List Frame) (s : Scope) :
    openMap o (Wire.count indefinite n) ⟨stack, s⟩ =
      s.enter o.maxDepth >>= fun s ↦
        .ok (none, ⟨.map .empty none (due indefinite n) :: stack, s⟩) := by
  simp only [openMap, count_ne_zero hn h, if_false, map_count hn, pure_eq_ok]

theorem countDown?_due (indefinite : Bool) (n : Nat) :
    countDown? (due indefinite (n + 1)) =
      if indefinite = true ∨ n ≠ 0 then some (due indefinite n) else none := by
  cases indefinite with
  | true => rfl
  | false => cases n <;> simp [countDown?, due]

theorem complete_key (indefinite : Bool) (n : Nat) (done : Entries)
    (stack : List Frame) (s : Scope) (item : Item) :
    complete o (.map done none (due indefinite n) :: stack) s item =
      Wire.entryKey o indefinite done.items item >>= fun key ↦
        .ok (none, ⟨.map done (some key) (due indefinite n) :: stack, s⟩) := by
  simp only [complete, checkGrowth_due, Wire.entryKey, bind_assoc, Entries.contains_eq]
  congr 1
  funext
  congr 1
  funext key
  split <;> rfl

variable {o}

mutual

/-- Assembling the lexemes of a tree is completing the item that the tree means. -/
theorem assemble_lexemes : (w : Wire) → w.octets.length < UInt64.size →
    ∀ (stack : List Frame), Outside stack → ∀ (s : Scope) (ls : List Lexeme),
    assemble o ⟨stack, s⟩ (w.lexemes ++ ls) =
      w.meaning o (inShareable stack) s >>= fun r ↦ complete o stack r.2 r.1 >>= resume o ls
  | .scalar a, _, stack, hs, s, ls => by
    rw [Wire.lexemes, List.singleton_append, assemble_cons, push_of_outside o hs]
    cases a <;> rfl
  | .simple .., _, stack, hs, s, ls => by
    rw [Wire.lexemes, List.singleton_append, assemble_cons, push_of_outside o hs]
    rfl
  | .string isText b, _, stack, hs, s, ls => by
    rw [Wire.lexemes, List.singleton_append, assemble_cons, push_of_outside o hs]
    cases isText with
    | false => rfl
    | true =>
      simp only [Lexeme.ofString, pushItem, Wire.meaning, if_true, bind_assoc, pure_eq_ok, ok_bind]
      rfl
  | .chunks isText parts, _, stack, hs, s, ls => by
    have hp : pushItem o stack s (if isText then .textStart else .bytesStart) =
        .ok (none, ⟨.chunks isText #[] :: stack, s⟩) := by cases isText <;> rfl
    rw [Wire.lexemes, List.cons_append, List.cons_append, assemble_cons, push_of_outside o hs, hp,
      ok_bind, resume, List.append_assoc, List.singleton_append, assemble_chunks]
    simp only [Wire.meaning, bind_assoc, pure_eq_ok, ok_bind]
  | .array indefinite items, h, stack, hs, s, ls => by
    simp only [Wire.octets, Wire.lexemes, List.cons_append, Wire.spell_cons, Wire.spell_append,
      List.length_append] at h
    have hall : (Wire.spell (Wire.lexemesAll items)).length < UInt64.size := by omega
    have hn : items.length < UInt64.size := by
      have := Wire.length_le_lexemesAll items
      have := Wire.length_le_spell (Wire.lexemesAll items)
      omega
    rw [Wire.lexemes, List.cons_append, List.cons_append, assemble_cons, push_of_outside o hs,
      pushItem, Wire.meaning]
    by_cases hi : indefinite = true ∨ items ≠ []
    · have hl : indefinite = true ∨ items.length ≠ 0 := by simpa using hi
      simp only [openArray_of_due o hn hl, bind_assoc, ok_bind, resume, assemble_all items hall hi,
        pure_eq_ok]
    · simp only [not_or, Bool.not_eq_true, ne_eq, Classical.not_not] at hi
      obtain ⟨rfl, rfl⟩ := hi
      have h0 : Wire.count false ([] : List Wire).length = some 0 := rfl
      simp only [openArray, h0, if_true, Wire.meaningAll, bind_assoc, ok_bind, pure_eq_ok]
      rfl
  | .map indefinite entries, h, stack, hs, s, ls => by
    simp only [Wire.octets, Wire.lexemes, List.cons_append, Wire.spell_cons, Wire.spell_append,
      List.length_append] at h
    have hall : (Wire.spell (Wire.lexemesEntries entries)).length < UInt64.size := by omega
    have hn : entries.length < UInt64.size := by
      have := Wire.length_le_lexemesEntries entries
      have := Wire.length_le_spell (Wire.lexemesEntries entries)
      omega
    rw [Wire.lexemes, List.cons_append, List.cons_append, assemble_cons, push_of_outside o hs,
      pushItem, Wire.meaning]
    by_cases hi : indefinite = true ∨ entries ≠ []
    · have hl : indefinite = true ∨ entries.length ≠ 0 := by simpa using hi
      simp only [openMap_of_due o hn hl, bind_assoc, ok_bind, resume,
        assemble_entries entries hall hi, Entries.items_empty, pure_eq_ok]
    · simp only [not_or, Bool.not_eq_true, ne_eq, Classical.not_not] at hi
      obtain ⟨rfl, rfl⟩ := hi
      have h0 : Wire.count false ([] : List (Wire × Wire)).length = some 0 := rfl
      simp only [openMap, h0, if_true, Wire.meaningEntries, bind_assoc, ok_bind, pure_eq_ok]
      rfl
  | .tag number content, h, stack, hs, s, ls => by
    have hc : content.octets.length < UInt64.size := by
      simp only [Wire.octets, Wire.lexemes, Wire.spell_cons, List.length_append] at h ⊢
      omega
    have ih := fun role s ↦
      assemble_lexemes content hc (.tag number role :: stack) (by simp [Outside]) s ls
    rw [Wire.lexemes, List.cons_append, assemble_cons, push_of_outside o hs]
    simp only [pushItem, openTag, Wire.meaning, bind_assoc, pure_eq_ok, ok_bind, resume, ih,
      inShareable_tag, complete]

theorem assemble_all : (ws : List Wire) → (Wire.spell (Wire.lexemesAll ws)).length < UInt64.size →
    ∀ {indefinite : Bool}, indefinite = true ∨ ws ≠ [] →
    ∀ (done : Array Item) (stack : List Frame) (s : Scope) (ls : List Lexeme),
    assemble o ⟨.array done (due indefinite ws.length) :: stack, s⟩
        (Wire.lexemesAll ws ++ Wire.ending indefinite ++ ls) =
      Wire.meaningAll o indefinite done s ws >>= fun r ↦
        complete o stack r.2.leave (.array r.1.toList) >>= resume o ls
  | [], _, indefinite, hi, done, stack, s, ls => by
    obtain rfl := hi.resolve_right (fun h ↦ h rfl)
    rfl
  | w :: ws, h, indefinite, hi, done, stack, s, ls => by
    simp only [Wire.lexemesAll, Wire.spell_append, List.length_append] at h
    have hw : w.octets.length < UInt64.size := Nat.lt_of_le_of_lt (Nat.le_add_right ..) h
    have hws : (Wire.spell (Wire.lexemesAll ws)).length < UInt64.size := by omega
    rw [Wire.lexemesAll, List.append_assoc, List.append_assoc, ← List.append_assoc _ _ ls,
      assemble_lexemes w hw _ (by simp [Outside])]
    simp only [Wire.meaningAll, complete, checkGrowth_due, List.length_cons, countDown?_due,
      bind_assoc]
    by_cases hi : indefinite = true ∨ ws ≠ []
    · have hl : indefinite = true ∨ ws.length ≠ 0 := by simpa using hi
      simp only [if_pos hl, pure_eq_ok, ok_bind, resume, assemble_all ws hws hi]
      rfl
    · have hl : ¬ (indefinite = true ∨ ws.length ≠ 0) := by simpa using hi
      simp only [not_or, Bool.not_eq_true, ne_eq, Classical.not_not] at hi
      obtain ⟨rfl, rfl⟩ := hi
      simp only [if_neg hl, Wire.meaningAll, ok_bind]
      rfl

theorem assemble_entries : (es : List (Wire × Wire)) →
    (Wire.spell (Wire.lexemesEntries es)).length < UInt64.size →
    ∀ {indefinite : Bool}, indefinite = true ∨ es ≠ [] →
    ∀ (done : Entries) (stack : List Frame) (s : Scope) (ls : List Lexeme),
    assemble o ⟨.map done none (due indefinite es.length) :: stack, s⟩
        (Wire.lexemesEntries es ++ Wire.ending indefinite ++ ls) =
      Wire.meaningEntries o indefinite done.items s es >>= fun r ↦
        complete o stack r.2.leave (.map r.1.toList) >>= resume o ls
  | [], _, indefinite, hi, done, stack, s, ls => by
    obtain rfl := hi.resolve_right (fun h ↦ h rfl)
    rfl
  | (k, v) :: es, h, indefinite, hi, done, stack, s, ls => by
    simp only [Wire.lexemesEntries, Wire.spell_append, List.length_append] at h
    have hk : k.octets.length < UInt64.size := by
      simp only [Wire.octets]
      omega
    have hv : v.octets.length < UInt64.size := by
      simp only [Wire.octets]
      omega
    have hes : (Wire.spell (Wire.lexemesEntries es)).length < UInt64.size := by omega
    have hkey := fun s ls ↦ assemble_lexemes k hk
      (.map done none (due indefinite (es.length + 1)) :: stack) (by simp [Outside]) s ls
    have hvalue := fun key s ls ↦ assemble_lexemes v hv
      (.map done (some key) (due indefinite (es.length + 1)) :: stack) (by simp [Outside]) s ls
    simp only [Wire.lexemesEntries, List.append_assoc, List.length_cons, hkey, complete_key,
      Wire.meaningEntries, bind_assoc, ok_bind, resume, hvalue]
    simp only [complete, countDown?_due, ← Entries.items_insert]
    by_cases hi : indefinite = true ∨ es ≠ []
    · have hl : indefinite = true ∨ es.length ≠ 0 := by simpa using hi
      have ih := assemble_entries es hes hi
      simp only [List.append_assoc] at ih
      simp only [if_pos hl, ok_bind, resume, ih]
      rfl
    · have hl : ¬ (indefinite = true ∨ es.length ≠ 0) := by simpa using hi
      simp only [not_or, Bool.not_eq_true, ne_eq, Classical.not_not] at hi
      obtain ⟨rfl, rfl⟩ := hi
      simp only [if_neg hl, Wire.meaningEntries, ok_bind]
      rfl

end

end Assembly

namespace Wire

variable {o : Options} {s : Scope} (hd : s.depth < o.maxDepth) {shared : Bool}

include hd

theorem fst_meaning_plain {number : UInt64}
    (hr : ∀ s, openRole o shared number s = .ok (.plain, s)) (w : Wire) :
    Prod.fst <$> (tag number w).meaning o shared s =
      Prod.fst <$> w.meaning o false { s with depth := s.depth + 1 } >>= tagged o number := by
  have he : s.enter o.maxDepth = .ok { s with depth := s.depth + 1 } := if_pos hd
  simp only [meaning, he, ok_bind, hr]
  exact fst_closeTag_plain o number _

theorem fst_meaning_namespace (hr : o.stringRef = true) (w : Wire) :
    Prod.fst <$> (tag Tag.stringRefNamespace w).meaning o shared s = Prod.fst <$>
      w.meaning o false { s with depth := s.depth + 1, strings := #[] :: s.strings } := by
  have he : s.enter o.maxDepth = .ok { s with depth := s.depth + 1 } := if_pos hd
  rw [meaning, he, ok_bind, openRole_stringNamespace hr, ok_bind]
  dsimp only [TagRole.isShareable, closeTag]
  cases w.meaning o false _ with
  | error e => rfl
  | ok r => rfl

end Wire

end Cbor
