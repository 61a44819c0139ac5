import Cbor.Proofs.Item.Footprint
import Cbor.Proofs.Unsharing

namespace Cbor

open Decoder (Options)
open Assembly

/-- A string that is read takes the next number of the innermost namespace, if that is worth it. -/
def StringTable.record (isText : Bool) (b : Octets) : List StringTable → List StringTable
  | [] => []
  | inner :: outer =>
    (if worthReferencing inner.size b.length then inner.push (isText, b) else inner) :: outer

namespace Wire

mutual

/-- The tree without namespaces, and with the strings in the place of the references. `tables` holds
the strings that have numbers so far, the innermost namespace first. There is no answer if a
reference stands outside of all namespaces or names no string. -/
def expand (tables : List StringTable) : Wire → Option (Wire × List StringTable)
  | scalar a => some (scalar a, tables)
  | simple n valid => some (simple n valid, tables)
  | string isText b => some (string isText b, StringTable.record isText b tables)
  | chunks isText parts => some (chunks isText parts, tables)
  | array indefinite items => do
    let (items, tables) ← expandAll tables items
    return (array indefinite items, tables)
  | map indefinite entries => do
    let (entries, tables) ← expandEntries tables entries
    return (map indefinite entries, tables)
  | tag number content =>
    if number = Tag.stringRefNamespace then do
      let (content, tables) ← expand (#[] :: tables) content
      return (content, tables.tail)
    else if number = Tag.stringRef then do
      let inner ← tables.head?
      let (isText, b) ← inner[← content.datum.index?]?
      return (string isText b, tables)
    else do
      let (content, tables) ← expand tables content
      return (tag number content, tables)

def expandAll (tables : List StringTable) : List Wire → Option (List Wire × List StringTable)
  | [] => some ([], tables)
  | w :: ws => do
    let (w, tables) ← expand tables w
    let (ws, tables) ← expandAll tables ws
    return (w :: ws, tables)

def expandEntries (tables : List StringTable) :
    List (Wire × Wire) → Option (List (Wire × Wire) × List StringTable)
  | [] => some ([], tables)
  | (k, v) :: es => do
    let (k, tables) ← expand tables k
    let (v, tables) ← expand tables v
    let (es, tables) ← expandEntries tables es
    return ((k, v) :: es, tables)

end

mutual

/-- What the strings in a tree come to as copies, each with an octet more than it has. -/
def strings : Wire → Nat
  | string _ b => 1 + b.length
  | array _ items => stringsAll items
  | map _ entries => stringsEntries entries
  | tag _ content => strings content
  | _ => 0

def stringsAll : List Wire → Nat
  | [] => 0
  | w :: ws => strings w + stringsAll ws

def stringsEntries : List (Wire × Wire) → Nat
  | [] => 0
  | (k, v) :: es => strings k + (strings v + stringsEntries es)

end

theorem expand_tag {number : UInt64} {content w' : Wire} {tables tables' : List StringTable}
    (h : (tag number content).expand tables = some (w', tables')) :
    (number = Tag.stringRefNamespace ∧
      ∃ inner, content.expand (#[] :: tables) = some (w', inner) ∧ tables' = inner.tail) ∨
    (number = Tag.stringRef ∧ ∃ inner outer index isText b, tables = inner :: outer ∧
      content = scalar (.unsigned index) ∧ inner[index.toNat]? = some (isText, b) ∧
        w' = string isText b ∧ tables' = tables) ∨
    (number ≠ Tag.stringRefNamespace ∧ number ≠ Tag.stringRef ∧
      ∃ content', content.expand tables = some (content', tables') ∧
        w' = tag number content') := by
  rw [expand] at h
  split at h
  case isTrue hn =>
    simp only [Option.bind_eq_bind, Option.bind_eq_some_iff] at h
    obtain ⟨⟨content', inner⟩, he, h⟩ := h
    cases h
    exact .inl ⟨hn, inner, he, rfl⟩
  case isFalse hn =>
    split at h
    case isTrue hn' =>
      simp only [Option.bind_eq_bind, Option.bind_eq_some_iff] at h
      obtain ⟨inner, ht, index, hi, ⟨isText, b⟩, hb, h⟩ := h
      obtain ⟨outer, rfl⟩ := List.head?_eq_some_iff.1 ht
      obtain ⟨index, rfl, rfl⟩ := eq_of_index? hi
      cases h
      exact .inr (.inl ⟨hn', inner, outer, index, isText, b, rfl, rfl, hb, rfl, rfl⟩)
    case isFalse hn' =>
      simp only [Option.bind_eq_bind, Option.bind_eq_some_iff] at h
      obtain ⟨⟨content', inner⟩, he, h⟩ := h
      cases h
      exact .inr (.inr ⟨hn, hn', content', he, rfl⟩)

mutual

theorem strings_le_of_expand : (w : Wire) → ∀ {tables tables' : List StringTable} {w' : Wire},
    w.expand tables = some (w', tables') → w.strings ≤ w'.strings
  | scalar _, _, _, _, h | simple .., _, _, _, h | string .., _, _, _, h
  | chunks .., _, _, _, h => by
    cases h
    exact Nat.le_refl _
  | array _ items, _, _, _, h => by
    simp only [expand, Option.bind_eq_bind, Option.bind_eq_some_iff] at h
    obtain ⟨_, hi, h⟩ := h
    cases h
    exact stringsAll_le_of_expand items hi
  | map _ entries, _, _, _, h => by
    simp only [expand, Option.bind_eq_bind, Option.bind_eq_some_iff] at h
    obtain ⟨_, hi, h⟩ := h
    cases h
    exact stringsEntries_le_of_expand entries hi
  | tag _ content, _, _, _, h => by
    rcases expand_tag h with ⟨rfl, inner, hc, rfl⟩ |
      ⟨rfl, inner, outer, index, isText, b, rfl, rfl, hi, rfl, rfl⟩ | ⟨_, _, content', hc, rfl⟩
    · exact strings_le_of_expand content hc
    · exact Nat.zero_le _
    · have hle : content.strings ≤ content'.strings := strings_le_of_expand content hc
      exact hle

theorem stringsAll_le_of_expand : (ws : List Wire) → ∀ {tables tables' : List StringTable}
    {ws' : List Wire}, expandAll tables ws = some (ws', tables') → stringsAll ws ≤ stringsAll ws'
  | [], _, _, _, h => by
    cases h
    exact Nat.le_refl _
  | w :: ws, _, _, _, h => by
    simp only [expandAll, Option.bind_eq_bind, Option.bind_eq_some_iff] at h
    obtain ⟨_, hw, _, hws, h⟩ := h
    cases h
    exact Nat.add_le_add (strings_le_of_expand w hw) (stringsAll_le_of_expand ws hws)

theorem stringsEntries_le_of_expand : (es : List (Wire × Wire)) →
    ∀ {tables tables' : List StringTable} {es' : List (Wire × Wire)},
    expandEntries tables es = some (es', tables') → stringsEntries es ≤ stringsEntries es'
  | [], _, _, _, h => by
    cases h
    exact Nat.le_refl _
  | (k, v) :: es, _, _, _, h => by
    simp only [expandEntries, Option.bind_eq_bind, Option.bind_eq_some_iff] at h
    obtain ⟨_, hk, _, hv, _, hes, h⟩ := h
    cases h
    exact Nat.add_le_add (strings_le_of_expand k hk)
      (Nat.add_le_add (strings_le_of_expand v hv) (stringsEntries_le_of_expand es hes))

end

/-- What the copies come to that stand for the references of a tree, if all of them name strings. -/
def copies (w : Wire) : Nat :=
  match w.expand [] with
  | some (w', _) => w'.strings - w.strings
  | none => 0

end Wire

def namespaces (tables : List StringTable) : List StringNamespace :=
  tables.map fun table ↦ table.map fun e ↦ Item.ofString e.1 e.2

theorem namespaces_record (isText : Bool) (b : Octets) (tables : List StringTable) :
    namespaces (StringTable.record isText b tables) =
      StringNamespace.record (.ofString isText b) b.length (namespaces tables) := by
  cases tables with
  | nil => rfl
  | cons inner outer =>
    simp only [namespaces, StringTable.record, StringNamespace.record, List.map_cons,
      Array.size_map]
    split
    · simp
    · rfl

/-- The reader has the strings of `tables`, and the texts among them have passed its check. -/
structure Numbers (o : Options) (tables : List StringTable) (s : Scope) : Prop where
  strings : s.strings = namespaces tables
  checked : ∀ table ∈ tables, ∀ e ∈ table, e.1 = true → checkText o e.2 = .ok ()

variable {o : Options} {tables : List StringTable} {s : Scope}

namespace Numbers

theorem enter (h : Numbers o tables s) : Numbers o tables { s with depth := s.depth + 1 } :=
  { h with }

theorem leave (h : Numbers o tables s) : Numbers o tables s.leave := { h with }

theorem push (h : Numbers o tables s) :
    Numbers o (#[] :: tables) { s with strings := #[] :: s.strings } where
  strings := by simp [namespaces, h.strings]
  checked := by
    intro table ht
    rcases List.mem_cons.1 ht with rfl | ht
    · simp
    · exact h.checked table ht

theorem tail (h : Numbers o tables s) :
    Numbers o tables.tail { s with strings := s.strings.tail } where
  strings := by simp [namespaces, h.strings]
  checked := fun table ht ↦ h.checked table (List.mem_of_mem_tail ht)

theorem record (h : Numbers o tables s) {isText : Bool} {b : Octets}
    (hb : isText = true → checkText o b = .ok ()) :
    Numbers o (StringTable.record isText b tables) (s.record (.ofString isText b) b.length) where
  strings := by rw [namespaces_record, ← h.strings, Scope.record]
  checked := by
    cases tables with
    | nil => nofun
    | cons inner outer =>
      obtain ⟨hinner, houter⟩ := List.forall_mem_cons.1 h.checked
      refine List.forall_mem_cons.2 ⟨fun e he ↦ ?_, houter⟩
      split at he
      · rcases Array.mem_push.1 he with he | rfl
        · exact hinner e he
        · exact hb
      · exact hinner e he

theorem nil : Numbers o [] {} := ⟨rfl, nofun⟩

theorem resolve {inner : StringTable} {outer : List StringTable}
    (h : Numbers o (inner :: outer) s) {index : UInt64} {isText : Bool} {b : Octets}
    (hi : inner[index.toNat]? = some (isText, b)) :
    StringNamespace.resolve (.unsigned index) s.strings = .ok (.ofString isText b) := by
  simp [h.strings, namespaces, StringNamespace.resolve, hi]

end Numbers

/-- The levels and the octets that reading may take, and the copies, if the strings come to `after`
with them and to `before` without. -/
structure Allows (o : Options) (s : Scope) (levels octets before after : Nat) : Prop where
  depth : s.depth + levels ≤ o.maxDepth
  octets : octets ≤ o.maxSize
  expanded : s.expanded + after ≤ o.maxSize + before

/-- From `s` to `t` no level has been entered for good, and copies have been made with which strings
that come to `before` come to `after`. -/
structure Copied (s t : Scope) (before after : Nat) : Prop where
  depth : t.depth = s.depth
  expanded : t.expanded + before = s.expanded + after

theorem Copied.refl (s : Scope) (n : Nat) : Copied s s n n := ⟨rfl, rfl⟩

namespace Copied

variable {t u : Scope} {before after before' after' : Nat}

theorem trans (h : Copied s t before after) (h' : Copied t u before' after') :
    Copied s u (before + before') (after + after') where
  depth := h'.depth.trans h.depth
  expanded := by
    have := h.expanded
    have := h'.expanded
    omega

theorem leave (h : Copied { s with depth := s.depth + 1 } t before after) :
    Copied s t.leave before after where
  depth := by rw [Scope.leave, h.depth, Nat.add_sub_cancel]
  expanded := h.expanded

end Copied

namespace Allows

variable {levels levels' octets octets' before before' after after' : Nat}

theorem depth_lt (h : Allows o s (levels + 1) octets before after) : s.depth < o.maxDepth := by
  have := h.depth
  omega

theorem enter (h : Allows o s (levels + 1) octets before after) (ho : octets' ≤ octets) :
    Allows o { s with depth := s.depth + 1 } levels octets' before after where
  depth := by
    have := h.depth
    simp only
    omega
  octets := Nat.le_trans ho h.octets
  expanded := h.expanded

theorem first (h : Allows o s levels octets (before + before') (after + after'))
    (hl : levels' ≤ levels) (ho : octets' ≤ octets) (hs : before' ≤ after') :
    Allows o s levels' octets' before after where
  depth := Nat.le_trans (Nat.add_le_add_left hl _) h.depth
  octets := Nat.le_trans ho h.octets
  expanded := by
    have := h.expanded
    omega

theorem rest (h : Allows o s levels octets (before + before') (after + after'))
    (hl : levels' ≤ levels) (ho : octets' ≤ octets) {t : Scope} (ht : Copied s t before after) :
    Allows o t levels' octets' before' after' where
  depth := by
    rw [ht.depth]
    exact Nat.le_trans (Nat.add_le_add_left hl _) h.depth
  octets := Nat.le_trans ho h.octets
  expanded := by
    have := h.expanded
    have := ht.expanded
    omega

end Allows

namespace Wire

variable {room : Prop}

structure Lines {α β : Type} (R : α → β → Prop) (o : Options) (tables : List StringTable)
    (s : Scope) (before after : Nat) (r : α × Scope) (b : β) : Prop where
  value : R r.1 b
  numbers : Numbers o tables r.2
  copied : Copied s r.2 before after

theorem string_numbered (isText : Bool) (b : Octets) (shared : Bool) (hs : Numbers o tables s)
    (n : Nat) :
    UpTo room (Lines Eq o (StringTable.record isText b tables) s n n)
      ((string isText b).meaning o shared s) ((string isText b).datum.read o) := by
  rw [meaning_string, datum, read_string_singleton]
  refine .step _ fun u hu ↦ .ok ⟨rfl, hs.record fun ht ↦ ?_, ⟨rfl, rfl⟩⟩
  rwa [if_pos ht] at hu

theorem meaning_namespace (hr : o.stringRef = true) {content w' : Wire}
    {inner : List StringTable} {before after : Nat} (shared : Bool)
    (hd : room → s.depth < o.maxDepth)
    (hc : ∀ t : Scope, t = { s with depth := s.depth + 1, strings := #[] :: s.strings } →
      UpTo room (Lines Eq o inner t before after) (content.meaning o false t) (w'.datum.read o)) :
    UpTo room (Lines Eq o inner.tail s before after)
      ((tag Tag.stringRefNamespace content).meaning o shared s) (w'.datum.read o) := by
  rw [meaning]
  refine .guard (UpTo.enter hd) fun t ht ↦ ?_
  obtain rfl := enter_eq_ok ht
  rw [openRole_stringNamespace hr, ok_bind, ← bind_pure (w'.datum.read o)]
  refine (hc _ rfl).bind fun r raw h ↦ ?_
  exact .ok ⟨h.value, h.numbers.leave.tail,
    ⟨by simp [Scope.leave, h.copied.depth], h.copied.expanded⟩⟩

theorem meaning_reference (hr : o.stringRef = true) {inner : StringTable}
    {outer : List StringTable} {index : UInt64} {isText : Bool} {b : Octets}
    (hi : inner[index.toNat]? = some (isText, b)) (shared : Bool)
    (hs : Numbers o (inner :: outer) s) {octets : Nat}
    (ha : room → Allows o s 1 octets 0 (1 + b.length)) :
    UpTo room (Lines Eq o (inner :: outer) s 0 (1 + b.length))
      ((tag Tag.stringRef (scalar (.unsigned index))).meaning o shared s)
      ((string isText b).datum.read o) := by
  have hread : (string isText b).datum.read o = .ok (.ofString isText b) := by
    rw [datum, read_string_singleton]
    cases isText with
    | false => rfl
    | true =>
      have hb := hs.checked inner List.mem_cons_self _ (Array.mem_of_getElem? hi) rfl
      rw [if_pos rfl, hb, ok_bind]
  rw [hread, meaning]
  refine .guard (UpTo.enter fun hm ↦ (ha hm).depth_lt) fun t ht ↦ ?_
  obtain rfl := enter_eq_ok ht
  rw [openRole_stringRef hr, ok_bind]
  show UpTo _ _ (closeTag o Tag.stringRef .stringRef (.unsigned index) s) _
  rw [closeTag, hs.resolve hi, ok_bind]
  simp only [Scope.charge, bind_assoc, Item.footprint_ofString]
  refine .guard (UpTo.checkSize fun hm ↦ (ha hm).expanded) fun _ _ ↦ ?_
  exact .ok ⟨rfl, { hs with }, ⟨rfl, rfl⟩⟩

mutual

/-- A tree with references means what the tree without them is read as. With room for its levels
and its copies no limit is in the way. -/
theorem meaning_expand (hr : o.stringRef = true) (hsh : o.sharedRef = .off) :
    (w : Wire) → ∀ (shared : Bool) (s : Scope) (tables tables' : List StringTable) (w' : Wire),
    w.expand tables = some (w', tables') → Numbers o tables s →
    (room → Allows o s w.nesting w.octets.length w.strings w'.strings) →
    UpTo room (Lines Eq o tables' s w.strings w'.strings) (w.meaning o shared s) (w'.datum.read o)
  | scalar a, shared, s, tables, tables', w', he, hs, _ => by
    cases he
    exact .ok ⟨rfl, hs, .refl s _⟩
  | simple .., shared, s, tables, tables', w', he, hs, _ => by
    cases he
    exact .error _
  | string isText b, shared, s, tables, tables', w', he, hs, _ => by
    cases he
    exact string_numbered isText b shared hs _
  | chunks isText parts, shared, s, tables, tables', w', he, hs, ha => by
    cases he
    refine (chunks_upTo isText parts shared s fun hm ↦ (ha hm).octets).mono fun r raw h ↦ ?_
    subst h
    exact ⟨rfl, hs, .refl s _⟩
  | array indefinite items, shared, s, tables, tables', w', he, hs, ha => by
    simp only [expand, Option.bind_eq_bind, Option.bind_eq_some_iff] at he
    obtain ⟨⟨items', after⟩, he, h⟩ := he
    cases h
    refine .guard (UpTo.enter fun hm ↦ (ha hm).depth_lt) fun t ht ↦ ?_
    obtain rfl := enter_eq_ok ht
    have hall : (#[] : Array Item).size + (spell (lexemesAll items)).length ≤
        (array indefinite items).octets.length := by
      simpa using length_le_octets_array indefinite items
    refine (meaningAll_expand hr hsh items #[] _ tables after items' he hs.enter
      fun hm ↦ (ha hm).enter hall).bind fun r rest h ↦ .ok ⟨?_, h.numbers.leave, h.copied.leave⟩
    rw [h.value]
    simp
  | map indefinite entries, shared, s, tables, tables', w', he, hs, ha => by
    simp only [expand, Option.bind_eq_bind, Option.bind_eq_some_iff] at he
    obtain ⟨⟨entries', after⟩, he, h⟩ := he
    cases h
    refine .guard (UpTo.enter fun hm ↦ (ha hm).depth_lt) fun t ht ↦ ?_
    obtain rfl := enter_eq_ok ht
    have hall : (#[] : Array (Item × Item)).size + (spell (lexemesEntries entries)).length ≤
        (map indefinite entries).octets.length := by
      simpa using length_le_octets_map indefinite entries
    refine (meaningEntries_expand hr hsh entries #[] _ tables after entries' he hs.enter
      fun hm ↦ (ha hm).enter hall).bind fun r rest h ↦ .ok ⟨?_, h.numbers.leave, h.copied.leave⟩
    rw [h.value]
  | tag number content, shared, s, tables, tables', w', he, hs, ha => by
    have hlen := length_le_octets_tag number content
    rcases expand_tag he with ⟨rfl, inner, hc, rfl⟩ |
      ⟨rfl, inner, outer, index, isText, b, rfl, rfl, hi, rfl, rfl⟩ | ⟨hns, hsr, content', hc, rfl⟩
    · refine meaning_namespace hr shared (fun hm ↦ (ha hm).depth_lt) fun t ht ↦ ?_
      subst ht
      exact meaning_expand hr hsh content false _ _ inner w' hc hs.enter.push
        fun hm ↦ { (ha hm).enter hlen with }
    · exact meaning_reference hr hi shared hs ha
    · rw [meaning, datum, Datum.read]
      refine .guard (UpTo.enter fun hm ↦ (ha hm).depth_lt) fun t ht ↦ ?_
      obtain rfl := enter_eq_ok ht
      rw [openRole_plain hns hsr hsh, ok_bind]
      refine (meaning_expand hr hsh content _ _ tables tables' content' hc hs.enter
        fun hm ↦ (ha hm).enter hlen).bind fun r raw h ↦ ?_
      dsimp only
      rw [closeTag_plain, h.value]
      cases tagged o number raw with
      | error e => exact .error e
      | ok item => exact .ok ⟨rfl, h.numbers.leave, h.copied.leave⟩

theorem meaningAll_expand (hr : o.stringRef = true) (hsh : o.sharedRef = .off)
    {indefinite : Bool} : (ws : List Wire) → ∀ (done : Array Item) (s : Scope)
    (tables tables' : List StringTable) (ws' : List Wire),
    expandAll tables ws = some (ws', tables') → Numbers o tables s →
    (room → Allows o s (Datum.nestingAll (datumAll ws))
      (done.size + (spell (lexemesAll ws)).length) (stringsAll ws) (stringsAll ws')) →
    UpTo room (Lines (fun r (items : List Item) ↦ r = done ++ items) o tables' s (stringsAll ws)
        (stringsAll ws'))
      (meaningAll o indefinite done s ws) (Datum.readAll o (datumAll ws'))
  | [], done, s, tables, tables', ws', he, hs, _ => by
    cases he
    exact .ok ⟨by simp, hs, .refl s _⟩
  | w :: ws, done, s, tables, tables', ws', he, hs, ha => by
    simp only [expandAll, Option.bind_eq_bind, Option.bind_eq_some_iff] at he
    obtain ⟨⟨w', between⟩, hw, ⟨ws', after⟩, hws, h⟩ := he
    cases h
    have hlen : (spell (lexemesAll (w :: ws))).length =
        w.octets.length + (spell (lexemesAll ws)).length := by
      rw [lexemesAll, spell_append, List.length_append]
      rfl
    have hpos := w.length_octets_pos
    rw [meaningAll, datumAll, Datum.readAll]
    refine (meaning_expand hr hsh w false s tables between w' hw hs fun hm ↦
      (ha hm).first (Nat.le_max_left ..) (by omega) (stringsAll_le_of_expand ws hws)).bind
      fun r raw h ↦ ?_
    refine .guard (growth_eq_error fun hm ↦ ?_) fun _ _ ↦ ?_
    · have := (ha hm).octets
      omega
    rw [h.value, ← bind_pure (meaningAll o indefinite _ r.2 ws)]
    refine (meaningAll_expand hr hsh ws _ r.2 between after ws' hws h.numbers fun hm ↦
      (ha hm).rest (Nat.le_max_right ..) ?_ h.copied).bind fun r items h' ↦
      .ok ⟨?_, h'.numbers, h.copied.trans h'.copied⟩
    · rw [Array.size_push]
      omega
    · rw [h'.value]
      simp

theorem meaningEntries_expand (hr : o.stringRef = true) (hsh : o.sharedRef = .off)
    {indefinite : Bool} : (es : List (Wire × Wire)) → ∀ (done : Array (Item × Item)) (s : Scope)
    (tables tables' : List StringTable) (es' : List (Wire × Wire)),
    expandEntries tables es = some (es', tables') → Numbers o tables s →
    (room → Allows o s (Datum.nestingEntries (datumEntries es))
      (done.size + (spell (lexemesEntries es)).length) (stringsEntries es) (stringsEntries es')) →
    UpTo room (Lines Eq o tables' s (stringsEntries es) (stringsEntries es'))
      (meaningEntries o indefinite done s es) (Datum.readEntries o done (datumEntries es'))
  | [], done, s, tables, tables', es', he, hs, _ => by
    cases he
    exact .ok ⟨rfl, hs, .refl s _⟩
  | (k, v) :: es, done, s, tables, tables', es', he, hs, ha => by
    simp only [expandEntries, Option.bind_eq_bind, Option.bind_eq_some_iff] at he
    obtain ⟨⟨k', afterKey⟩, hk, ⟨v', between⟩, hv, ⟨es', after⟩, hes, h⟩ := he
    cases h
    have hlen : (spell (lexemesEntries ((k, v) :: es))).length =
        k.octets.length + v.octets.length + (spell (lexemesEntries es)).length := by
      rw [lexemesEntries, spell_append, spell_append, List.length_append, List.length_append]
      rfl
    have hpos := k.length_octets_pos
    have hvs := strings_le_of_expand v hv
    have hess := stringsEntries_le_of_expand es hes
    rw [meaningEntries, datumEntries, Datum.readEntries]
    refine (meaning_expand hr hsh k false s tables afterKey k' hk hs fun hm ↦
      (ha hm).first (Nat.le_trans (Nat.le_max_left ..) (Nat.le_max_left ..)) (by omega)
        (Nat.add_le_add hvs hess)).bind fun r raw h ↦ ?_
    have harest := fun hm ↦ (ha hm).rest (Nat.le_refl _) (Nat.le_refl _) h.copied
    dsimp only
    rw [entryKey, bind_assoc, h.value]
    refine .guard (growth_eq_error fun hm ↦ ?_) fun _ _ ↦ ?_
    · have := (ha hm).octets
      omega
    rw [bind_assoc]
    refine .step _ fun key _ ↦ ?_
    split
    case isTrue => exact .error _
    case isFalse =>
      refine (meaning_expand hr hsh v false r.2 afterKey between v' hv h.numbers fun hm ↦
        (harest hm).first (Nat.le_trans (Nat.le_max_right ..) (Nat.le_max_left ..)) (by omega)
          hess).bind fun r' value h' ↦ ?_
      rw [h'.value]
      refine (meaningEntries_expand hr hsh es _ r'.2 between after es' hes h'.numbers fun hm ↦
        (harest hm).rest (Nat.le_max_right ..) ?_ h'.copied).mono fun r'' entries h'' ↦
        ⟨h''.value, h''.numbers, h.copied.trans (h'.copied.trans h''.copied)⟩
      have := size_insertEntry_le o.flags done key (value.native o.flags)
      omega

end

end Wire
end Cbor
