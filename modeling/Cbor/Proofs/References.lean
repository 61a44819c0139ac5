import Mathlib
import Cbor.Proofs.Encoder.Cells
import Cbor.Proofs.Encoder.Encode
import Cbor.Proofs.Encoder.Plain
import Cbor.Proofs.Item.Footprint
import Cbor.Proofs.Wire.Decode

namespace Cbor

open Decoder (Options)
open Assembly
open Encoder (plain_tree)
open Wire (meaning_string)

/-- Reading without references stands at `s`, and reading with references at `s'`, beside the tables
of the writer. There is room for `room` more levels and for `left` more octets of the tree without
references. -/
structure InStep (o : Options) (room left : Nat) (tables : List StringTable) (s s' : Scope) :
    Prop where
  depth : s.depth + room ≤ o.maxDepth
  depth' : s'.depth + room < o.maxDepth
  strings : s'.strings = tables.map fun t ↦ t.map fun e ↦ Item.ofString e.1 e.2
  checked : ∀ t ∈ tables, ∀ e ∈ t, e.1 = true → checkText o e.2 = .ok ()
  sizes : ∀ t ∈ tables, t.size + left < UInt64.size
  expanded : s'.expanded + left ≤ o.maxSize

inductive Agree {α : Type} (o : Options) (room left : Nat) (tables : List StringTable) :
    Except Fault (α × Scope) → Except Fault (α × Scope) → Prop
  | ok {a : α} {s s' : Scope} (step : InStep o room left tables s s') :
    Agree o room left tables (.ok (a, s)) (.ok (a, s'))
  | error {e : Fault} : Agree o room left tables (.error e) (.error e)

variable {o : Options} {room left : Nat} {tables : List StringTable} {s s' : Scope} {α β : Type}

theorem Agree.bind {room' left' : Nat} {tables' : List StringTable}
    {r r' : Except Fault (α × Scope)} {f f' : α × Scope → Except Fault (β × Scope)}
    (h : Agree o room' left' tables' r r')
    (hf : ∀ a s s', InStep o room' left' tables' s s' →
      Agree o room left tables (f (a, s)) (f' (a, s'))) :
    Agree o room left tables (r >>= f) (r' >>= f') := by
  cases h with
  | ok step => exact hf _ _ _ step
  | error => exact .error

theorem Agree.check {r r' : α → Except Fault (β × Scope)} (x : Except Fault α)
    (h : ∀ a, x = .ok a → Agree o room left tables (r a) (r' a)) :
    Agree o room left tables (x >>= r) (x >>= r') := by
  cases x with
  | error => exact .error
  | ok a => exact h a rfl

namespace InStep

theorem mono {left' : Nat} (h : InStep o room left tables s s') (hl : left' ≤ left) :
    InStep o room left' tables s s' :=
  { h with
    sizes := fun t ht ↦ by
      have := h.sizes t ht
      omega
    expanded := by
      have := h.expanded
      omega }

theorem lt_size (h : InStep o room left tables s s') (hm : o.maxSize < UInt64.size) :
    left < UInt64.size := by
  have := h.expanded
  omega

theorem record_left (h : InStep o room left tables s s') (item : Item) (length : Nat) :
    InStep o room left tables (s.record item length) s' :=
  { h with }

theorem enter (h : InStep o room left tables s s') (hr : 0 < room) :
    s.enter o.maxDepth = .ok { s with depth := s.depth + 1 } ∧
      s'.enter o.maxDepth = .ok { s' with depth := s'.depth + 1 } ∧
      InStep o (room - 1) left tables { s with depth := s.depth + 1 }
        { s' with depth := s'.depth + 1 } := by
  have hd := h.depth
  have hd' := h.depth'
  exact ⟨if_pos (by omega), if_pos (by omega),
    { h with depth := by simp only; omega, depth' := by simp only; omega }⟩

theorem leave {left' : Nat} {tables' : List StringTable} {t t' : Scope}
    (h : InStep o room left tables s s') (hl : InStep o (room - 1) left' tables' t t') :
    InStep o room left' tables' t.leave t'.leave :=
  { hl with
    depth := by
      have := h.depth
      have := hl.depth
      simp only [Scope.leave]
      omega
    depth' := by
      have := h.depth'
      have := hl.depth'
      simp only [Scope.leave]
      omega }

theorem push (h : InStep o room left tables s s') (hm : o.maxSize < UInt64.size) :
    InStep o room left (#[] :: tables) { s with strings := #[] :: s.strings }
      { s' with strings := #[] :: s'.strings } :=
  { h with
    strings := by simp [h.strings]
    checked := fun t ht ↦ by
      rcases List.mem_cons.1 ht with rfl | ht
      · simp
      · exact h.checked t ht
    sizes := fun t ht ↦ by
      rcases List.mem_cons.1 ht with rfl | ht
      · simpa using h.lt_size hm
      · exact h.sizes t ht }

theorem tail (h : InStep o room left tables s s') :
    InStep o room left tables.tail { s with strings := s.strings.tail }
      { s' with strings := s'.strings.tail } :=
  { h with
    strings := by simp [h.strings]
    checked := fun t ht ↦ h.checked t (List.mem_of_mem_tail ht)
    sizes := fun t ht ↦ h.sizes t (List.mem_of_mem_tail ht) }

end InStep

theorem StringTable.getElem?_of_lookup {table table' : StringTable} {isText : Bool} {b : Octets}
    {index : Nat} (h : table.lookup isText b = (some index, table')) :
    table' = table ∧ table[index]? = some (isText, b) := by
  unfold lookup at h
  split at h
  · rename_i i hi
    cases h
    exact ⟨rfl, getElem?_of_idxOf? hi⟩
  · cases h

theorem StringTable.eq_of_lookup_none {table table' : StringTable} {isText : Bool} {b : Octets}
    (h : table.lookup isText b = (none, table')) :
    table' = if worthReferencing table.size b.length then table.push (isText, b) else table := by
  unfold lookup at h
  split at h <;> cases h
  rfl

/-- A string that is written in full is recorded on both sides or on neither. -/
theorem InStep.record {isText : Bool} {b : Octets} {inner inner' : StringTable}
    {outer : List StringTable} (h : InStep o room (1 + b.length + left) (inner :: outer) s s')
    (hc : isText = true → checkText o b = .ok ())
    (hl : inner.lookup isText b = (none, inner')) :
    InStep o room left (inner' :: outer) s (s'.record (.ofString isText b) b.length) :=
  { h with
    strings := by
      have hs := h.strings
      rw [List.map_cons] at hs
      simp only [Scope.record, hs, StringNamespace.record, Array.size_map, List.map_cons,
        StringTable.eq_of_lookup_none hl]
      split <;> simp
    checked := fun t ht e he ↦ by
      rcases List.mem_cons.1 ht with rfl | ht
      · rw [StringTable.eq_of_lookup_none hl] at he
        split at he
        · rcases Array.mem_push.1 he with he | rfl
          · exact h.checked inner List.mem_cons_self e he
          · exact hc
        · exact h.checked inner List.mem_cons_self e he
      · exact h.checked t (List.mem_cons_of_mem _ ht) e he
    sizes := fun t ht ↦ by
      rcases List.mem_cons.1 ht with rfl | ht
      · have := h.sizes inner List.mem_cons_self
        rw [StringTable.eq_of_lookup_none hl]
        split
        · rw [Array.size_push]
          omega
        · omega
      · have := h.sizes t (List.mem_cons_of_mem _ ht)
        omega
    expanded := by
      have := h.expanded
      simp only [Scope.record]
      omega }

theorem meaning_stringRef {isText : Bool} {b : Octets} {shared : Bool} {inner : StringTable}
    {outer : List StringTable} {index : Nat} (hr : o.stringRef = true)
    (h : InStep o room (1 + b.length + left) (inner :: outer) s s')
    (hi : inner[index]? = some (isText, b)) :
    (Wire.tag Tag.stringRef (.scalar (.unsigned (.ofNat index)))).meaning o shared s' =
      .ok (.ofString isText b, { s' with expanded := s'.expanded + (1 + b.length) }) := by
  have hlt : index < inner.size := by
    obtain ⟨hlt, _⟩ := Array.getElem?_eq_some_iff.1 hi
    exact hlt
  have hsize := h.sizes inner List.mem_cons_self
  have hn : (UInt64.ofNat index).toNat = index := UInt64.toNat_ofNat_of_lt' (by omega)
  have hd : s'.depth < o.maxDepth := by
    have := h.depth'
    omega
  have hfits : s'.expanded + (1 + b.length) ≤ o.maxSize := by
    have := h.expanded
    omega
  have hne : Tag.stringRef ≠ Tag.stringRefNamespace := by decide
  simp only [Wire.meaning, Scope.enter, hd, if_true, openRole, hne, hr, false_and, and_self,
    if_false, ok_bind, closeTag, Scope.leave, h.strings, List.map_cons, Scalar.item,
    StringNamespace.resolve, hn, Array.getElem?_map, hi, Option.map_some, Scope.charge,
    Item.footprint_ofString, Lexeme.checkSize, hfits, pure_eq_ok]
  simp

theorem agree_string {isText : Bool} {b : Octets} {shared : Bool} (hr : o.stringRef = true)
    (h : InStep o room (1 + b.length + left) tables s s') :
    Agree o room left (Wire.referString isText b tables).2
      ((Wire.string isText b).meaning o shared s)
      ((Wire.referString isText b tables).1.meaning o shared s') := by
  cases tables with
  | nil =>
    rw [Wire.referString, meaning_string, meaning_string]
    refine .check _ fun _ _ ↦ .ok ?_
    have hs : s'.strings = [] := h.strings
    have hrecord : s'.record (.ofString isText b) b.length = s' := by
      simp only [Scope.record, hs, StringNamespace.record]
      rw [← hs]
    rw [hrecord]
    exact (h.mono (by omega)).record_left _ _
  | cons inner outer =>
    rw [Wire.referString]
    rcases hl : inner.lookup isText b with ⟨_ | index, inner'⟩
    · simp only [meaning_string]
      refine .check _ fun _ hc ↦ .ok ((h.record (fun ht ↦ ?_) hl).record_left _ _)
      rwa [if_pos ht] at hc
    · obtain ⟨rfl, hi⟩ := StringTable.getElem?_of_lookup hl
      have hc : (if isText then checkText o b else .ok ()) = .ok () := by
        split
        · rename_i ht
          exact h.checked _ List.mem_cons_self _ (Array.mem_of_getElem? hi) ht
        · rfl
      simp only []
      rw [meaning_string, hc, ok_bind, meaning_stringRef hr h hi]
      have hs := (h.mono (Nat.le_add_left left _)).record_left (.ofString isText b) b.length
      -- the copy costs no more than the octets that the string itself would have taken
      exact .ok
        { hs with
          expanded := by
            have := h.expanded
            simp only
            omega }

theorem agree_tag {number : UInt64} (hns : number ≠ Tag.stringRefNamespace)
    (hsr : number ≠ Tag.stringRef) (hsh : o.sharedRef = .off) {left' : Nat}
    {tables' : List StringTable} {w w' : Wire} {shared : Bool} (hroom : 0 < room)
    (h : InStep o room left' tables' s s')
    (hw : ∀ s s', InStep o (room - 1) left' tables' s s' →
      Agree o (room - 1) left tables (w.meaning o false s) (w'.meaning o false s')) :
    Agree o room left tables ((Wire.tag number w).meaning o shared s)
      ((Wire.tag number w').meaning o shared s') := by
  obtain ⟨he, he', hi⟩ := h.enter hroom
  simp only [Wire.meaning, he, he', ok_bind, openRole_plain hns hsr hsh]
  refine .bind (hw _ _ hi) fun item _ _ hs ↦ ?_
  refine .check (Tag.interpret o.groups number item) fun item _ ↦ ?_
  cases item <;> exact .ok (h.leave hs)

/-- The reader resolves references to strings, and no others. -/
structure Follows (o : Options) : Prop where
  stringRef : o.stringRef = true
  sharedRef : o.sharedRef = .off
  maxSize : o.maxSize < UInt64.size

mutual

theorem agree_meaning (ho : Follows o) : (w : Wire) → ∀ {room left : Nat} {tables : List StringTable}
    {s s' : Scope} {shared : Bool}, w.Plain room →
    InStep o room (w.octets.length + left) tables s s' →
    Agree o room left (w.refer true tables).2 (w.meaning o shared s)
      ((w.refer true tables).1.meaning o shared s')
  | .scalar a, _, _, _, _, _, _, _, h => .ok (h.mono (by omega))
  | .simple _ _, _, _, _, _, _, _, _, _ => .error
  | .string isText b, _, _, _, _, _, _, _, h => by
    have hl := Wire.length_le_octets_string isText b
    exact agree_string ho.stringRef (h.mono (by omega))
  | .chunks isText parts, _, _, _, _, _, _, _, h => by
    simp only [Wire.refer, Wire.meaning]
    exact .check _ fun _ _ ↦ .ok (h.mono (by omega))
  | .array indefinite items, _, left, _, _, _, _, ⟨h0, hp⟩, h => by
    have hl := Wire.length_le_octets_array indefinite items
    obtain ⟨he, he', hi⟩ := (h.mono (Nat.add_le_add_right hl left)).enter h0
    simp only [Wire.refer, Wire.meaning, he, he', ok_bind]
    exact .bind (agree_meaningAll ho items hp hi) fun _ _ _ hs ↦ .ok (h.leave hs)
  | .map indefinite entries, _, left, _, _, _, _, ⟨h0, hp⟩, h => by
    have hl := Wire.length_le_octets_map indefinite entries
    obtain ⟨he, he', hi⟩ := (h.mono (Nat.add_le_add_right hl left)).enter h0
    simp only [Wire.refer, Wire.meaning, he, he', ok_bind]
    exact .bind (agree_meaningEntries ho entries hp hi) fun _ _ _ hs ↦ .ok (h.leave hs)
  | .tag number content, _, left, _, _, _, _, ⟨h0, hn, hp⟩, h => by
    have hl := Wire.length_le_octets_tag number content
    have hc := h.mono (Nat.add_le_add_right hl left)
    simp only [Wire.refer]
    by_cases hns : number = Tag.stringRefNamespace
    · subst hns
      obtain ⟨he, he', hi⟩ := hc.enter h0
      simp only [and_self, if_true, Wire.meaning, he, he', ok_bind,
        openRole_stringNamespace ho.stringRef]
      refine .bind (agree_meaning ho content hp (hi.push ho.maxSize)) fun _ _ _ hs ↦ ?_
      exact .ok (h.leave hs).tail
    · simp only [hns, false_and, if_false]
      exact agree_tag hns hn ho.sharedRef h0 hc fun _ _ hi ↦ agree_meaning ho content hp hi

theorem agree_meaningAll (ho : Follows o) : (ws : List Wire) → ∀ {room left : Nat}
    {tables : List StringTable} {s s' : Scope} {indefinite : Bool} {done : Array Item},
    Wire.PlainAll room ws →
    InStep o room ((Wire.spell (Wire.lexemesAll ws)).length + left) tables s s' →
    Agree o room left (Wire.referAll true tables ws).2 (Wire.meaningAll o indefinite done s ws)
      (Wire.meaningAll o indefinite done s' (Wire.referAll true tables ws).1)
  | [], _, _, _, _, _, _, _, _, h => .ok (h.mono (by omega))
  | w :: ws, _, _, _, _, _, _, _, ⟨hp, hps⟩, h => by
    simp only [Wire.lexemesAll, Wire.spell_append, List.length_append, Nat.add_assoc] at h
    simp only [Wire.referAll, Wire.meaningAll]
    refine .bind (agree_meaning ho w hp h) fun item _ _ hs ↦ ?_
    exact .check _ fun _ _ ↦ agree_meaningAll ho ws hps hs

theorem agree_meaningEntries (ho : Follows o) : (es : List (Wire × Wire)) → ∀ {room left : Nat}
    {tables : List StringTable} {s s' : Scope} {indefinite : Bool} {done : Array (Item × Item)},
    Wire.PlainEntries room es →
    InStep o room ((Wire.spell (Wire.lexemesEntries es)).length + left) tables s s' →
    Agree o room left (Wire.referEntries true tables es).2
      (Wire.meaningEntries o indefinite done s es)
      (Wire.meaningEntries o indefinite done s' (Wire.referEntries true tables es).1)
  | [], _, _, _, _, _, _, _, _, h => .ok (h.mono (by omega))
  | (k, w) :: es, _, _, _, _, _, _, _, ⟨hk, hp, hps⟩, h => by
    simp only [Wire.lexemesEntries, Wire.spell_append, List.length_append, Nat.add_assoc] at h
    simp only [Wire.referEntries, Wire.meaningEntries]
    refine .bind (agree_meaning ho k hk h) fun key _ _ hs ↦ ?_
    refine .check _ fun _ _ ↦ .bind (agree_meaning ho w hp hs) fun item _ _ hs ↦ ?_
    exact agree_meaningEntries ho es hps hs

end

theorem Agree.fst_eq {r r' : Except Fault (α × Scope)} (h : Agree o room left tables r r') :
    Prod.fst <$> r = Prod.fst <$> r' := by
  cases h <;> rfl

theorem fst_meaning_referring (ho : Follows o) {mode : Encoder.StringRef} (hmode : mode ≠ .off)
    {w : Wire} (hp : w.Plain room) (h : InStep o (room + 1) w.octets.length [] s s') :
    Prod.fst <$> (w.referring mode).meaning o false s' = Prod.fst <$> w.meaning o false s := by
  have hd := h.depth
  have hd' := h.depth'
  cases mode with
  | off => exact absurd rfl hmode
  | explicit =>
    have hin : InStep o room (w.octets.length + 0) [] s s' :=
      { h with depth := by omega, depth' := by omega }
    exact (agree_meaning ho w hp hin).fst_eq.symm
  | on =>
    have hin : InStep o room (w.octets.length + 0) [#[]] s
        { s' with depth := s'.depth + 1, strings := [#[]] } :=
      { h with
        depth := by omega
        depth' := by simp only; omega
        strings := by simp
        checked := by simp
        sizes := by simpa using h.lt_size ho.maxSize }
    have hs : s'.strings = [] := h.strings
    have ha := (agree_meaning ho w hp hin : Agree o room 0 _ (w.meaning o false s) _).fst_eq
    rw [Wire.referring, Wire.fst_meaning_namespace (by omega) ho.stringRef, hs, ha]

theorem fst_meaning_tag {number : UInt64} (hns : number ≠ Tag.stringRefNamespace)
    (hsr : number ≠ Tag.stringRef) (hsh : o.sharedRef = .off) {w w' : Wire} {shared : Bool}
    (hd : s.depth < o.maxDepth)
    (hw : Prod.fst <$> w'.meaning o false { s with depth := s.depth + 1 } =
      Prod.fst <$> w.meaning o false { s with depth := s.depth + 1 }) :
    Prod.fst <$> (Wire.tag number w').meaning o shared s =
      Prod.fst <$> (Wire.tag number w).meaning o shared s := by
  have hr := openRole_plain hns hsr hsh shared
  rw [Wire.fst_meaning_plain hd hr, Wire.fst_meaning_plain hd hr, hw]

/-- The encodings with and without references read as the same item, behind a self-describe tag
also. -/
theorem fst_meaning_announced (ho : Follows o) (mode : Encoder.StringRef) {e : Encoder.Options}
    {w : Wire} (hp : w.Plain e.maxDepth) (hd : e.maxDepth + 3 ≤ o.maxDepth)
    (hs : w.octets.length ≤ o.maxSize) :
    Prod.fst <$> ((w.referring mode).announced e).meaning o false {} =
      Prod.fst <$> (w.announced e).meaning o false {} := by
  by_cases hmode : mode = .off
  · rw [hmode, Wire.referring]
  have h0 (depth : Nat) (hdepth : depth ≤ 1) :
      InStep o (e.maxDepth + 1) w.octets.length [] { depth } { depth } :=
    { depth := by simp only; omega
      depth' := by simp only; omega
      strings := rfl
      checked := fun _ h ↦ absurd h List.not_mem_nil
      sizes := fun _ h ↦ absurd h List.not_mem_nil
      expanded := by simpa using hs }
  unfold Wire.announced
  split
  · exact fst_meaning_tag (by decide) (by decide) ho.sharedRef (by simp only; omega)
      (fst_meaning_referring ho hmode hp (h0 1 (by decide)))
  · exact fst_meaning_referring ho hmode hp (h0 0 (by decide))

theorem length_le_announced (e : Encoder.Options) (w : Wire) :
    w.octets.length ≤ (w.announced e).octets.length := by
  unfold Wire.announced
  split
  · exact Wire.length_le_octets_tag _ w
  · exact Nat.le_refl _

theorem Wire.unprefixed_announced {e : Encoder.Options}
    (h : e.flags.contains .selfDescribe = true → o.flags.contains .selfDescribe = false) {w : Wire}
    (hw : w.unprefixed o = w) : (w.announced e).unprefixed o = w := by
  unfold announced
  split
  case isTrue hd => exact if_pos ⟨rfl, h hd⟩
  case isFalse => exact hw

/-- Repeated strings of `v` are written in full, or the reader resolves references to them and has
room for all that they stand for. -/
def Recalls (o : Options) (e : Encoder.Options) (v : Item) : Prop :=
  e.stringRef = .off ∨ v.NoStringRef ∧ Follows o ∧ o.flags.contains .selfDescribe = true ∧
    e.maxDepth + 3 ≤ o.maxDepth ∧
    ∀ plain, encode v (e.referring .off) = .ok plain → plain.length ≤ o.maxSize

theorem exists_tree_of_recalls {v : Item} {e : Encoder.Options} (h : Recalls o e v)
    (hannounced : e.flags.contains .selfDescribe = true →
      o.flags.contains .selfDescribe = false)
    (hm : o.maxSize < UInt64.size) (hedn : o.flags.contains .edn = false) {b data : Octets}
    (he : encode v e = .ok b) (hi : data.window o.offset o.length = b) (hs : b.length ≤ o.maxSize) :
    e.check = .ok () ∧ ∃ r, Encoder.tree e false v 0 #[] = .ok r ∧ (r.1.unprefixed o = r.1 →
      decode data o = o.check >>= fun _ ↦ Item.native o.flags <$> Prod.fst <$>
        r.1.meaning o false {}) := by
  have hv : e.stringRef = .off ∨ v.NoStringRef := h.imp_right And.left
  rw [encode_eq_referring hv] at he
  obtain ⟨_, hc, he⟩ := bind_eq_ok.1 he
  obtain ⟨r, hr, rfl⟩ := map_eq_ok.1 he
  refine ⟨hc, r, hr, fun hu ↦ ?_⟩
  rw [Wire.decode_octets hi hs hm hedn]
  refine congrArg _ (funext fun _ ↦ ?_)
  rcases h with hoff | ⟨hv, ho, hsd, hdepth, hplain⟩
  · rw [hoff, Wire.referring, Wire.unprefixed_announced hannounced hu, Functor.map_map]
  · have hw : r.1.announced e = r.1 := by
      rw [Wire.announced, if_neg fun h ↦ by simp [hannounced h] at hsd]
    have hsize : r.1.octets.length ≤ o.maxSize := by
      refine hplain _ ?_
      rw [encode_eq (.inl rfl), hc, ok_bind, hr, map_ok, Wire.referring, hw]
    have hfst := fst_meaning_announced ho e.stringRef (plain_tree v hv hr) hdepth hsize
    rw [hw] at hfst
    rw [Wire.unprefixed_of_contains hsd, ← hfst, Functor.map_map]

/-- How repeated strings are treated changes neither whether an item can be encoded nor what its
encoding reads as. -/
theorem decode_referring {v : Item} (hv : v.NoStringRef) (e : Encoder.Options)
    (mode : Encoder.StringRef) :
    (∀ fault, encode v (e.referring mode) = .error fault ↔
      encode v (e.referring .off) = .error fault) ∧
    ∀ b plain, encode v (e.referring mode) = .ok b → encode v (e.referring .off) = .ok plain →
      ∀ o : Options, Follows o → o.flags.contains .edn = false →
      o.flags.contains .selfDescribe = true → e.maxDepth + 3 ≤ o.maxDepth →
      b.length ≤ o.maxSize → plain.length ≤ o.maxSize →
      ∀ data data' : Octets, data.window o.offset o.length = b →
      data'.window o.offset o.length = plain → decode data o = decode data' o := by
  rw [encode_eq (.inr hv), encode_eq (.inl rfl)]
  cases e.check with
  | error fault => simp
  | ok _ =>
    cases ht : Encoder.tree e false v 0 #[] with
    | error fault => simp
    | ok r =>
      refine ⟨by simp, ?_⟩
      rintro _ _ ⟨⟩ ⟨⟩ o ho hedn hsd hdepth hb hplain data data' hdata hdata'
      have hs : r.1.octets.length ≤ o.maxSize :=
        Nat.le_trans (length_le_announced e r.1) hplain
      have hfst := fst_meaning_announced ho mode (plain_tree v hv ht) hdepth hs
      rw [Wire.decode_octets hdata hb ho.maxSize hedn,
        Wire.decode_octets hdata' hplain ho.maxSize hedn, Wire.unprefixed_of_contains hsd,
        Wire.unprefixed_of_contains hsd]
      refine congrArg _ (funext fun _ ↦ ?_)
      simpa [show r.1.referring .off = r.1 from rfl] using
        congrArg (Item.native o.flags <$> ·) hfst

/-- Two times the text `ping`. -/
theorem decode_referring_repeated :
    let ping : Octets := [0x70, 0x69, 0x6E, 0x67]
    let pings : Item := .array [.text ping, .text ping]
    let o : Options := { flags := Flags.standard ||| .selfDescribe, maxDepth := 67 }
    let referred : Octets := [0xD9, 0x01, 0x00, 0x82, 0x64] ++ ping ++ [0xD8, 0x19, 0x00]
    let plain : Octets := [0x82, 0x64] ++ ping ++ [0x64] ++ ping
    encode pings { stringRef := .on } = .ok referred ∧ encode pings {} = .ok plain ∧
      decode referred o = decode plain o := by
  intro ping pings o referred plain
  have hr : encode pings { stringRef := .on } = .ok referred := by cbv
  have hp : encode pings {} = .ok plain := by decide +kernel
  refine ⟨hr, hp, ?_⟩
  exact (decode_referring (v := pings) ⟨trivial, trivial, trivial⟩ {} .on).2 referred plain hr hp o
    ⟨rfl, rfl, by decide⟩ (by decide) (by decide) (by decide) (by decide) (by decide) referred plain
    rfl rfl

end Cbor
