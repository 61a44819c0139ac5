import Cbor.Proofs.Wire.Datum
import Cbor.Proofs.Wire.Decode

namespace Cbor

open Decoder (Options)
open Assembly

/-- The nesting or the size is beyond what the options allow. -/
def Fault.IsLimit : Fault → Prop
  | depth | unsupportedSize => True
  | _ => False

/-- The same fault, or results in the relation `R`; but if there is no room, the left side may meet
a limit instead. -/
inductive UpTo {α β : Type} (room : Prop) (R : α → β → Prop) :
    Except Fault α → Except Fault β → Prop
  | ok {a : α} {b : β} (h : R a b) : UpTo room R (.ok a) (.ok b)
  | error (e : Fault) : UpTo room R (.error e) (.error e)
  | limit {e : Fault} (he : e.IsLimit) (hr : ¬ room) (y : Except Fault β) : UpTo room R (.error e) y

namespace UpTo

variable {α β γ δ : Type} {room : Prop} {R : α → β → Prop} {S : γ → δ → Prop}
  {x : Except Fault α} {y : Except Fault β}

theorem bind {f : α → Except Fault γ} {g : β → Except Fault δ} (h : UpTo room R x y)
    (hf : ∀ a b, R a b → UpTo room S (f a) (g b)) : UpTo room S (x >>= f) (y >>= g) := by
  cases h with
  | ok h => exact hf _ _ h
  | error e => exact .error e
  | limit he hr => exact .limit he hr _

theorem step {f : α → Except Fault γ} {g : α → Except Fault δ} (x : Except Fault α)
    (hf : ∀ a, x = .ok a → UpTo room S (f a) (g a)) : UpTo room S (x >>= f) (x >>= g) := by
  cases x with
  | error e => exact .error e
  | ok a => exact hf a rfl

theorem guard {f : α → Except Fault γ} {y : Except Fault δ}
    (hx : ∀ e, x = .error e → e.IsLimit ∧ ¬ room) (hf : ∀ a, x = .ok a → UpTo room S (f a) y) :
    UpTo room S (x >>= f) y := by
  cases x with
  | error e => exact .limit (hx e rfl).1 (hx e rfl).2 y
  | ok a => exact hf a rfl

theorem checkSize {maxSize n : Nat} (h : room → n ≤ maxSize) :
    ∀ e, Lexeme.checkSize maxSize n = .error e → e.IsLimit ∧ ¬ room := by
  intro e he
  unfold Lexeme.checkSize at he
  split at he
  case isTrue => cases he
  case isFalse hn =>
    cases he
    exact ⟨trivial, fun hr ↦ hn (h hr)⟩

theorem enter {s : Scope} {maxDepth : Nat} (h : room → s.depth < maxDepth) :
    ∀ e, s.enter maxDepth = .error e → e.IsLimit ∧ ¬ room := by
  intro e he
  unfold Scope.enter at he
  split at he
  case isTrue => cases he
  case isFalse hn =>
    cases he
    exact ⟨trivial, fun hr ↦ hn (h hr)⟩

theorem mono {R' : α → β → Prop} (h : UpTo room R x y) (hR : ∀ a b, R a b → R' a b) :
    UpTo room R' x y := by
  cases h with
  | ok h => exact .ok (hR _ _ h)
  | error e => exact .error e
  | limit he hr => exact .limit he hr _

theorem and_eq (h : UpTo room R x y) : UpTo room (fun a b ↦ R a b ∧ y = .ok b) x y := by
  cases h with
  | ok h => exact .ok ⟨h, rfl⟩
  | error e => exact .error e
  | limit he hr => exact .limit he hr _

theorem map_eq_of_room {f : α → γ} {g : β → γ} (h : UpTo room R x y)
    (hf : ∀ a b, R a b → f a = g b) (hr : room) : f <$> x = g <$> y := by
  cases h with
  | ok h => exact congrArg Except.ok (hf _ _ h)
  | error => rfl
  | limit _ hn => exact absurd hr hn

theorem map_eq {s : Scope} {x : Except Fault (α × Scope)} {y : Except Fault α}
    (h : UpTo True (fun r a ↦ r = (a, s)) x y) (f : α → β) : (fun r ↦ f r.1) <$> x = f <$> y :=
  h.map_eq_of_room (fun _ _ h ↦ by rw [h]) trivial

theorem map_eq_of_unlimited {f : α → γ} {g : β → γ} (h : UpTo room R x y)
    (hf : ∀ a b, R a b → f a = g b) (hx : ∀ e, f <$> x = .error e → ¬ e.IsLimit) :
    f <$> x = g <$> y := by
  cases h with
  | ok h => exact congrArg Except.ok (hf _ _ h)
  | error => rfl
  | limit he => exact absurd he (hx _ rfl)

end UpTo

namespace Datum

variable (o : Options)

def join (isText : Bool) : List Octets → Except Fault Octets
  | [] => .ok []
  | b :: bs => do
    if isText then checkText o b
    let rest ← join isText bs
    return b ++ rest

mutual

/-- The item before it is made native. -/
def read : Datum → Except Fault Item
  | scalar a => .ok a.item
  | simple _ => .error .unsupportedType
  | string isText chunks => do return .ofString isText (← join o isText chunks)
  | array items => do return .array (← readAll items)
  | map entries => do return .map (← readEntries #[] entries).toList
  | tag number content => do tagged o number (← read content)

def readAll : List Datum → Except Fault (List Item)
  | [] => .ok []
  | t :: ts => do
    let item ← read t
    let items ← readAll ts
    return item.native o.flags :: items

def readEntries (done : Array (Item × Item)) :
    List (Datum × Datum) → Except Fault (Array (Item × Item))
  | [] => .ok done
  | (k, v) :: es => do
    let key ← (← read k).mapKey o.flags
    if o.flags.contains .mapNoDupKey ∧ done.any (fun e ↦ e.1 == key) then throw .duplicateKey
    let value ← read v
    readEntries (insertEntry o.flags done key (value.native o.flags)) es

end

variable {o} {p : Options}

theorem join_congr (hf : p.flags = o.flags) (isText : Bool) (chunks : List Octets) :
    join p isText chunks = join o isText chunks := by
  induction chunks with
  | nil => rfl
  | cons b bs ih => rw [join, join, ih, checkText, checkText, hf]

mutual

theorem read_congr (hf : p.flags = o.flags) (hg : p.groups = o.groups) :
    (t : Datum) → t.read p = t.read o
  | scalar _ | simple _ => rfl
  | string isText chunks => by rw [read, read, join_congr hf]
  | array items => by rw [read, read, readAll_congr hf hg items]
  | map entries => by rw [read, read, readEntries_congr hf hg entries #[]]
  | tag number content => by
    rw [read, read, read_congr hf hg content]
    simp only [tagged, hf, hg]

theorem readAll_congr (hf : p.flags = o.flags) (hg : p.groups = o.groups) :
    (ts : List Datum) → readAll p ts = readAll o ts
  | [] => rfl
  | t :: ts => by rw [readAll, readAll, read_congr hf hg t, readAll_congr hf hg ts, hf]

theorem readEntries_congr (hf : p.flags = o.flags) (hg : p.groups = o.groups) :
    (es : List (Datum × Datum)) → ∀ (done : Array (Item × Item)),
    readEntries p done es = readEntries o done es
  | [], _ => rfl
  | (k, v) :: es, done => by
    rw [readEntries, readEntries, read_congr hf hg k, read_congr hf hg v]
    simp only [hf, readEntries_congr hf hg es]

end

end Datum

namespace Wire

variable {o : Options} {room : Prop} {s : Scope}

theorem enter_eq_ok {t : Scope} (h : s.enter o.maxDepth = .ok t) :
    t = { s with depth := s.depth + 1 } := by
  unfold Scope.enter at h
  split at h <;> cases h
  rfl

theorem length_flatten_le_spell (isText : Bool) (parts : List Octets) :
    parts.flatten.length ≤ (spell (parts.map (.ofString isText))).length := by
  induction parts with
  | nil => exact Nat.le_refl _
  | cons b parts ih =>
    have := length_le_write_ofString isText b
    simp only [List.flatten_cons, List.map_cons, spell_cons, List.length_append]
    omega

theorem size_insertEntry_le (f : Flags) (entries : Array (Item × Item)) (key value : Item) :
    (insertEntry f entries key value).size ≤ entries.size + 1 := by
  unfold insertEntry
  split
  · simp
  · split <;> simp

theorem joinChunks_upTo {isText : Bool} (parts : List Octets) (done : Array UInt8)
    (hs : room → done.size + parts.flatten.length ≤ o.maxSize) :
    UpTo room (fun octets rest ↦ octets.toList = done.toList ++ rest)
      (joinChunks o isText done parts) (Datum.join o isText parts) := by
  induction parts generalizing done with
  | nil => exact .ok (by simp)
  | cons b parts ih =>
    have hb : room → done.size + b.length ≤ o.maxSize := fun hr ↦ by
      have := hs hr
      simp only [List.flatten_cons, List.length_append] at this
      omega
    have hrest : room → (done ++ b).size + parts.flatten.length ≤ o.maxSize := fun hr ↦ by
      have := hs hr
      simp only [List.flatten_cons, List.length_append] at this
      have hsize : (done ++ b).size = done.size + b.length := by
        rw [← Array.length_toList, Array.toList_appendList, List.length_append,
          Array.length_toList]
      omega
    have hparts : UpTo room (fun octets rest ↦ octets.toList = done.toList ++ rest)
        (Lexeme.checkSize o.maxSize (done.size + b.length) >>= fun _ ↦
          joinChunks o isText (done ++ b) parts)
        (Datum.join o isText parts >>= fun rest ↦ .ok (b ++ rest)) := by
      refine .guard (UpTo.checkSize hb) fun _ _ ↦ ?_
      rw [← bind_pure (joinChunks o isText (done ++ b) parts)]
      refine (ih (done ++ b) hrest).bind fun octets rest h ↦ .ok ?_
      rw [h]
      simp
    cases isText with
    | false => exact hparts
    | true => exact .step (checkText o b) fun _ _ ↦ hparts

theorem record_of_strings (hs : s.strings = []) (item : Item) (length : Nat) :
    s.record item length = s := by
  cases s
  cases hs
  rfl

theorem read_string_singleton (isText : Bool) (b : Octets) :
    (Datum.string isText [b]).read o =
      (if isText then checkText o b else .ok ()) >>= fun _ ↦ .ok (.ofString isText b) := by
  cases isText <;> simp [Datum.read, Datum.join]

theorem string_upTo (isText : Bool) (b : Octets) (shared : Bool) (hs : s.strings = []) :
    UpTo room (fun r item ↦ r = (item, s)) ((string isText b).meaning o shared s)
      ((string isText b).datum.read o) := by
  rw [meaning_string, record_of_strings hs, datum, read_string_singleton]
  exact .step _ fun _ _ ↦ .ok rfl

theorem chunks_upTo (isText : Bool) (parts : List Octets) (shared : Bool) (s : Scope)
    (hl : room → (spell (chunks isText parts).lexemes).length ≤ o.maxSize) :
    UpTo room (fun r item ↦ r = (item, s)) ((chunks isText parts).meaning o shared s)
      ((chunks isText parts).datum.read o) := by
  have hparts : room → (#[] : Array UInt8).size + parts.flatten.length ≤ o.maxSize := fun hr ↦ by
    have := hl hr
    have := length_flatten_le_spell isText parts
    simp only [lexemes, List.cons_append, spell_cons, spell_append, List.length_append] at *
    simp only [List.size_toArray, List.length_nil]
    omega
  refine (joinChunks_upTo parts #[] hparts).bind fun octets rest h ↦ .ok ?_
  rw [h]
  rfl

theorem openRole_off (hr : o.stringRef = false) (hsh : o.sharedRef = .off) (shared : Bool)
    (number : UInt64) (s : Scope) : openRole o shared number s = .ok (.plain, s) := by
  simp [openRole, hr, hsh]

theorem growth_eq_error {indefinite : Bool} {size : Nat} (h : room → size + 1 ≤ o.maxSize) :
    ∀ e, growth o indefinite size = .error e → e.IsLimit ∧ ¬ room := by
  cases indefinite with
  | true => exact UpTo.checkSize h
  | false => exact nofun

theorem unprefixed_of_datum {w : Wire} (h : o.flags.contains .selfDescribe = true ∨
    ∀ content, w.datum ≠ .tag Tag.selfDescribe content) : w.unprefixed o = w := by
  rcases skips_or_unprefixed o w with ⟨hu, hk⟩ | ⟨hu, -⟩
  · have hf : o.flags.contains .selfDescribe = false := by simpa [Decoder.skips] using hk
    have hn := h.resolve_left (by simp [hf])
    rw [hu] at hn
    exact absurd rfl (hn _)
  · exact hu.symm

theorem leave_enter (s : Scope) : ({ s with depth := s.depth + 1 } : Scope).leave = s := rfl

mutual

/-- A tree means what its datum is read as, and reading leaves no trace, if nothing in it refers to
anything. -/
theorem meaning_upTo (hr : o.stringRef = false) (hsh : o.sharedRef = .off) :
    (w : Wire) → ∀ (shared : Bool) (s : Scope), s.strings = [] →
    (room → s.depth + w.nesting ≤ o.maxDepth) → (room → (spell w.lexemes).length ≤ o.maxSize) →
    UpTo room (fun r item ↦ r = (item, s)) (w.meaning o shared s) (w.datum.read o)
  | scalar a, shared, s, hs, hd, hl => .ok rfl
  | simple .., shared, s, hs, hd, hl => .error _
  | string isText b, shared, s, hs, hd, hl => string_upTo isText b shared hs
  | chunks isText parts, shared, s, hs, hd, hl => chunks_upTo isText parts shared s hl
  | array indefinite items, shared, s, hs, hd, hl => by
    have hd' : room → s.depth + 1 + Datum.nestingAll (datumAll items) ≤ o.maxDepth := fun hr ↦ by
      have : s.depth + (Datum.nestingAll (datumAll items) + 1) ≤ o.maxDepth := hd hr
      omega
    have hl' : room → (#[] : Array Item).size + (spell (lexemesAll items)).length ≤ o.maxSize :=
      fun hr ↦ by
        rw [Array.size_empty, Nat.zero_add]
        exact Nat.le_trans (length_le_octets_array indefinite items) (hl hr)
    refine .guard (UpTo.enter fun hr ↦ by have := hd' hr; omega) fun t ht ↦ ?_
    obtain rfl := enter_eq_ok ht
    refine (meaningAll_upTo hr hsh items #[] { s with depth := s.depth + 1 } hs hd' hl').bind
      fun r rest h ↦ .ok ?_
    subst h
    simp [leave_enter]
  | map indefinite entries, shared, s, hs, hd, hl => by
    have hd' : room → s.depth + 1 + Datum.nestingEntries (datumEntries entries) ≤ o.maxDepth :=
      fun hr ↦ by
        have : s.depth + (Datum.nestingEntries (datumEntries entries) + 1) ≤ o.maxDepth := hd hr
        omega
    have hl' : room →
        (#[] : Array (Item × Item)).size + (spell (lexemesEntries entries)).length ≤ o.maxSize :=
      fun hr ↦ by
        rw [Array.size_empty, Nat.zero_add]
        exact Nat.le_trans (length_le_octets_map indefinite entries) (hl hr)
    refine .guard (UpTo.enter fun hr ↦ by have := hd' hr; omega) fun t ht ↦ ?_
    obtain rfl := enter_eq_ok ht
    refine (meaningEntries_upTo hr hsh entries #[] { s with depth := s.depth + 1 } hs hd' hl').bind
      fun r rest h ↦ .ok ?_
    subst h
    simp [leave_enter]
  | tag number content, shared, s, hs, hd, hl => by
    have hd' : room → s.depth + 1 + content.nesting ≤ o.maxDepth := fun hr ↦ by
      have : s.depth + (content.nesting + 1) ≤ o.maxDepth := hd hr
      omega
    have hl' : room → (spell content.lexemes).length ≤ o.maxSize := fun hr ↦
      Nat.le_trans (length_le_octets_tag number content) (hl hr)
    refine .guard (UpTo.enter fun hr ↦ by have := hd' hr; omega) fun t ht ↦ ?_
    obtain rfl := enter_eq_ok ht
    rw [openRole_off hr hsh, ok_bind]
    refine (meaning_upTo hr hsh content _ { s with depth := s.depth + 1 } hs hd' hl').bind
      fun r raw h ↦ ?_
    subst h
    dsimp only
    rw [closeTag_plain, leave_enter]
    cases tagged o number raw with
    | error e => exact .error e
    | ok item => exact .ok rfl

theorem meaningAll_upTo (hr : o.stringRef = false) (hsh : o.sharedRef = .off)
    {indefinite : Bool} : (ws : List Wire) → ∀ (done : Array Item) (s : Scope), s.strings = [] →
    (room → s.depth + Datum.nestingAll (datumAll ws) ≤ o.maxDepth) →
    (room → done.size + (spell (lexemesAll ws)).length ≤ o.maxSize) →
    UpTo room (fun r (items : List Item) ↦ r = (done ++ items, s))
      (meaningAll o indefinite done s ws) (Datum.readAll o (datumAll ws))
  | [], done, s, hs, hd, hl => .ok (by simp)
  | w :: ws, done, s, hs, hd, hl => by
    have hdw : room → s.depth + w.nesting ≤ o.maxDepth := fun hr ↦
      Nat.le_trans (Nat.add_le_add_left (Nat.le_max_left ..) _) (hd hr)
    have hdws : room → s.depth + Datum.nestingAll (datumAll ws) ≤ o.maxDepth := fun hr ↦
      Nat.le_trans (Nat.add_le_add_left (Nat.le_max_right ..) _) (hd hr)
    have hlen : room → done.size + (spell w.lexemes).length + (spell (lexemesAll ws)).length ≤
        o.maxSize := fun hr ↦ by
      have := hl hr
      rw [lexemesAll, spell_append, List.length_append] at this
      omega
    have hpos : 0 < (spell w.lexemes).length := w.length_octets_pos
    rw [meaningAll, datumAll, Datum.readAll]
    refine (meaning_upTo hr hsh w false s hs hdw fun hr ↦ ?_).bind fun r raw h ↦ ?_
    · have := hlen hr
      omega
    subst h
    refine .guard (growth_eq_error fun hr ↦ ?_) fun _ _ ↦ ?_
    · have := hlen hr
      omega
    rw [← bind_pure (meaningAll o indefinite _ s ws)]
    refine (meaningAll_upTo hr hsh ws (done.push (raw.native o.flags)) s hs hdws fun hr ↦ ?_).bind
      fun r items h ↦ .ok ?_
    · have := hlen hr
      rw [Array.size_push]
      omega
    · subst h
      simp

theorem meaningEntries_upTo (hr : o.stringRef = false) (hsh : o.sharedRef = .off)
    {indefinite : Bool} : (es : List (Wire × Wire)) → ∀ (done : Array (Item × Item)) (s : Scope),
    s.strings = [] →
    (room → s.depth + Datum.nestingEntries (datumEntries es) ≤ o.maxDepth) →
    (room → done.size + (spell (lexemesEntries es)).length ≤ o.maxSize) →
    UpTo room (fun r entries ↦ r = (entries, s)) (meaningEntries o indefinite done s es)
      (Datum.readEntries o done (datumEntries es))
  | [], done, s, hs, hd, hl => .ok rfl
  | (k, v) :: es, done, s, hs, hd, hl => by
    have hdk : room → s.depth + k.nesting ≤ o.maxDepth := fun hr ↦ by
      have : s.depth + max (max k.nesting v.nesting) _ ≤ o.maxDepth := hd hr
      omega
    have hdv : room → s.depth + v.nesting ≤ o.maxDepth := fun hr ↦ by
      have : s.depth + max (max k.nesting v.nesting) _ ≤ o.maxDepth := hd hr
      omega
    have hdes : room → s.depth + Datum.nestingEntries (datumEntries es) ≤ o.maxDepth := fun hr ↦
      Nat.le_trans (Nat.add_le_add_left (Nat.le_max_right ..) _) (hd hr)
    have hlen : room → done.size + (spell k.lexemes).length + (spell v.lexemes).length +
        (spell (lexemesEntries es)).length ≤ o.maxSize := fun hr ↦ by
      have := hl hr
      rw [lexemesEntries, spell_append, spell_append, List.length_append,
        List.length_append] at this
      omega
    have hpos : 0 < (spell k.lexemes).length := k.length_octets_pos
    rw [meaningEntries, datumEntries, Datum.readEntries]
    refine (meaning_upTo hr hsh k false s hs hdk fun hr ↦ ?_).bind fun r raw h ↦ ?_
    · have := hlen hr
      omega
    subst h
    dsimp only
    rw [entryKey, bind_assoc]
    refine .guard (growth_eq_error fun hr ↦ ?_) fun _ _ ↦ ?_
    · have := hlen hr
      omega
    rw [bind_assoc]
    refine .step _ fun key _ ↦ ?_
    split
    case isTrue => exact .error _
    case isFalse =>
      refine (meaning_upTo hr hsh v false s hs hdv fun hr ↦ ?_).bind fun r value h ↦ ?_
      · have := hlen hr
        omega
      subst h
      dsimp only
      refine meaningEntries_upTo hr hsh es _ s hs hdes fun hr ↦ ?_
      have := hlen hr
      have := size_insertEntry_le o.flags done key (value.native o.flags)
      omega

end

end Wire

/-- Decoding any serialization of a datum comes to reading the datum by recursion, where depth and
size suffice. So two serializations are decoded alike. -/
theorem decode_serialized {o : Options} {t : Datum} {data : Octets} (hc : o.check = .ok ())
    (hv : o.flags.contains .edn = false) (hr : o.stringRef = false) (hsh : o.sharedRef = .off)
    (hm : o.maxSize < UInt64.size) (ht : t.Serialized (data.window o.offset o.length))
    (hs : (data.window o.offset o.length).length ≤ o.maxSize) (hd : t.nesting ≤ o.maxDepth)
    (hsd : o.flags.contains .selfDescribe = true ∨ ∀ content, t ≠ .tag Tag.selfDescribe content) :
    decode data o = Item.native o.flags <$> t.read o := by
  obtain ⟨w, rfl, hw⟩ := ht
  have hup : UpTo True (fun r item ↦ r = (item, {})) (w.meaning o false {}) (w.datum.read o) := by
    refine Wire.meaning_upTo hr hsh w false {} rfl (fun _ ↦ ?_) fun _ ↦ ?_
    · rw [Nat.zero_add]
      exact hd
    · exact Nat.le_trans hw.length_spell_le hs
  rw [Wire.decode_meaning hw hs hm hv, hc, Wire.unprefixed_of_datum hsd, ok_bind]
  exact hup.map_eq _

/-- A map of indefinite length whose key comes in two chunks, with a value of a wide head. -/
theorem decode_serialized_chunks :
    let o : Options := { stringRef := false }
    let data : Octets := [0xBF, 0x5F, 0x41, 0x61, 0x41, 0x62, 0xFF, 0x18, 0x05, 0xFF]
    let t : Datum := .map [(.string false [[0x61], [0x62]], .scalar (.unsigned 5))]
    o.check = .ok () ∧ o.flags.contains .edn = false ∧ o.maxSize < UInt64.size ∧
      t.Serialized (data.window o.offset o.length) ∧
      (data.window o.offset o.length).length ≤ o.maxSize ∧ t.nesting ≤ o.maxDepth ∧
      (∀ content, t ≠ .tag Tag.selfDescribe content) ∧
      decode data o = .ok (.map [(.string [0x61, 0x62], .unsigned 5)]) := by
  have ht : Datum.Serialized (.map [(.string false [[0x61], [0x62]], .scalar (.unsigned 5))])
      [0xBF, 0x5F, 0x41, 0x61, 0x41, 0x62, 0xFF, 0x18, 0x05, 0xFF] := by
    refine ⟨.map true [(.chunks false [[0x61], [0x62]], .scalar (.unsigned 5))], rfl, ?_⟩
    refine .cons (b := [0xBF]) rfl (.cons (b := [0x5F]) rfl ?_)
    refine .cons (b := [0x41, 0x61]) ⟨[0x41], @Head.Form.short 2 1 (by decide), rfl⟩ ?_
    refine .cons (b := [0x41, 0x62]) ⟨[0x41], @Head.Form.short 2 1 (by decide), rfl⟩ ?_
    refine .cons (b := [0xFF]) rfl (.cons (b := [0x18, 0x05]) ?_ (.cons (b := [0xFF]) rfl .nil))
    exact @Head.Form.wide 0 24 1 5 (by decide) (by decide)
  refine ⟨rfl, rfl, by decide, ht, by decide, by decide, nofun, ?_⟩
  refine (decode_serialized (o := { stringRef := false }) rfl rfl rfl rfl (by decide) ht
    (by decide) (by decide) (.inr nofun)).trans ?_
  have hno : Flags.standard.contains .mapNoDupKey = false := by decide
  have hkey : (Item.bytes [0x61, 0x62]).mapKey .standard = .ok (.string [0x61, 0x62]) := rfl
  simp [Datum.read, Datum.readEntries, Datum.join, hno, hkey, insertEntry, Item.lastPlace?,
    Item.ofString, Scalar.item, Item.native]

end Cbor
