import Mathlib
import Cbor.Proofs.Encoder.Encoding
import Cbor.Proofs.Encoder.Frame

namespace Cbor.Encoder

variable {o inner changed : Options} {e : Encoder}

theorem check_override {p : Overrides} (h : o.override p = .ok inner) : inner.check = .ok () := by
  unfold Options.override at h
  split at h
  · cases h
  · obtain ⟨⟨⟩, hc, h⟩ := bind_eq_ok.1 h
    cases h
    exact hc

theorem encode_eq_encoding (ho : o.stringRef = .off) (hs : o.sharedRef = false) (v : Item) :
    encode v o = o.check >>= fun _ ↦
      ((if o.flags.contains .selfDescribe then Tag.selfDescribeHead else []) ++ ·) <$>
        encoding o false v o.maxDepth := by
  have h := octets_tree v ho hs false 0 #[]
  rw [Nat.sub_zero] at h
  rw [encode_eq_of_off ho, ← h]
  refine congrArg _ (funext fun _ ↦ ?_)
  cases tree o false v 0 #[] with
  | error f => rfl
  | ok r => exact congrArg Except.ok (Wire.octets_announced o r.1)

/-- What an encoder adds to what it has written is what the recursion gives. -/
theorem emit_eq_encoding (ho : o.stringRef = .off) (hs : o.sharedRef = false) {s : Sink}
    (hd : s.depth = 0) (hn : s.strings = []) (v : Item) :
    (((o.encoder s).emit v).1 >>= fun _ ↦ .ok ((o.encoder s).emit v).2.octets) =
      ((o.encoder s).octets ++ ·) <$> encoding o false v o.maxDepth := by
  have h := octets_tree v ho hs false s.depth s.cells
  rw [hd, Nat.sub_zero] at h
  have hoff : o.referring .off = o := by rw [Options.referring, ← ho]
  have hw := octets_after_whole (.inl rfl : StringRef.off = .off ∨ v.NoStringRef) o s hn
  rw [hoff] at hw
  rw [octets_emit, whole, ho, hw, ← h, hd]
  cases tree o false v 0 s.cells <;> rfl

/-- `w` is a part of `v`, as a key or not, and if the options are `o` at `v` they are `inner`
there. -/
inductive Governs : (o : Options) → (asKey : Bool) → (v : Item) →
    (inner : Options) → (asKey' : Bool) → (w : Item) → Prop
  | here (o : Options) (asKey : Bool) (v : Item) : Governs o asKey v o asKey v
  | element {o inner : Options} {asKey asKey' : Bool} {items : List Item} {i w : Item} :
      i ∈ items → Governs o false i inner asKey' w → Governs o asKey (.array items) inner asKey' w
  | key {o inner : Options} {asKey asKey' : Bool} {entries : List (Item × Item)}
      {entry : Item × Item} {w : Item} :
      entry ∈ entries → Governs o true entry.1 inner asKey' w →
      Governs o asKey (.map entries) inner asKey' w
  | value {o inner : Options} {asKey asKey' : Bool} {entries : List (Item × Item)}
      {entry : Item × Item} {w : Item} :
      entry ∈ entries → Governs o false entry.2 inner asKey' w →
      Governs o asKey (.map entries) inner asKey' w
  | tag {o inner : Options} {asKey asKey' : Bool} {number : UInt64} {content w : Item} :
      Governs o false content inner asKey' w →
      Governs o asKey (.tag number content) inner asKey' w
  | shareable {o inner : Options} {asKey asKey' : Bool} {cell : Nat} {content w : Item} :
      Governs o false content inner asKey' w →
      Governs o asKey (.shareable cell content) inner asKey' w
  | custom {o inner : Options} {asKey asKey' : Bool} {hook : Nat} {i w : Item} :
      Governs o false i inner asKey' w → Governs o asKey (.custom hook (.ok i)) inner asKey' w
  | params {o changed inner : Options} {asKey asKey' : Bool} {p : Overrides} {content w : Item} :
      o.override p = .ok changed → Governs changed asKey content inner asKey' w →
      Governs o asKey (.params p content) inner asKey' w

/-- Options stay valid, and what is not for overrides to change stays as it is. -/
structure Options.Inherits (o inner : Options) : Prop where
  check : o.check = .ok () → inner.check = .ok ()
  cde : o.flags.contains .cde = true → inner.flags.contains .cde = true
  maxDepth : inner.maxDepth = o.maxDepth
  stringRef : inner.stringRef = o.stringRef
  sharedRef : inner.sharedRef = o.sharedRef

theorem inherits_override {p : Overrides} (h : o.override p = .ok changed) : o.Inherits changed :=
  ⟨fun _ ↦ check_override h, contains_cde_override h, maxDepth_override h, stringRef_override h,
    sharedRef_override h⟩

theorem Options.Inherits.trans (h : o.Inherits changed) (h' : changed.Inherits inner) :
    o.Inherits inner where
  check hc := h'.check (h.check hc)
  cde hc := h'.cde (h.cde hc)
  maxDepth := h'.maxDepth.trans h.maxDepth
  stringRef := h'.stringRef.trans h.stringRef
  sharedRef := h'.sharedRef.trans h.sharedRef

theorem Governs.inherits {asKey asKey' : Bool} {v w : Item}
    (h : Governs o asKey v inner asKey' w) : o.Inherits inner := by
  induction h with
  | here => exact ⟨id, id, rfl, rfl, rfl⟩
  | element _ _ ih | key _ _ ih | value _ _ ih | tag _ ih | shareable _ ih | custom _ ih => exact ih
  | params hp _ ih => exact (inherits_override hp).trans ih

theorem level_eq_ok {room : Nat} {content : Nat → Except Fault Octets} {b : Octets}
    (h : level room content = .ok b) : ∃ room', room = room' + 1 ∧ content room' = .ok b := by
  cases room with
  | zero => cases h
  | succ room => exact ⟨room, rfl, h⟩

theorem infix_of_joinPairs {es : List (Except Fault Octets × Except Fault Octets)} {b : Octets}
    (h : joinPairs es = .ok b) : ∀ e ∈ es, ∃ k v, e.1 = .ok k ∧ e.2 = .ok v ∧ k ++ v <:+: b := by
  induction es generalizing b with
  | nil => exact nofun
  | cons e es ih =>
    rw [joinPairs_cons] at h
    obtain ⟨c, hc, h⟩ := bind_eq_ok.1 h
    obtain ⟨rest, hrest, rfl⟩ := map_eq_ok.1 h
    obtain ⟨k, hk, hc⟩ := bind_eq_ok.1 hc
    obtain ⟨v, hv, hc⟩ := bind_eq_ok.1 hc
    cases hc
    refine List.forall_mem_cons.2 ⟨⟨k, v, hk, hv, (List.prefix_append _ _).isInfix⟩, ?_⟩
    intro e he
    obtain ⟨k', v', hk', hv', hi⟩ := ih hrest e he
    exact ⟨k', v', hk', hv', hi.trans (List.suffix_append _ _).isInfix⟩

theorem infix_of_joinSorted {es : List (Except Fault Octets × Except Fault Octets)} {b : Octets}
    (h : joinSorted es = .ok b) : ∀ e ∈ es, ∃ k v, e.1 = .ok k ∧ e.2 = .ok v ∧ k ++ v <:+: b := by
  obtain ⟨ks, hks, h⟩ := bind_eq_ok.1 h
  intro e he
  rw [← map_snd_of_keyed hks] at he
  obtain ⟨z, hz, rfl⟩ := List.mem_map.1 he
  exact infix_of_joinPairs h z.2 (List.mem_map_of_mem (mem_sortKeyed.2 hz))

theorem infix_of_encodingAll {items : List Item} {room : Nat} {b : Octets}
    (h : encodingAll o items room = .ok b) :
    ∀ i ∈ items, ∃ c, encoding o false i room = .ok c ∧ c <:+: b := by
  induction items generalizing b with
  | nil => exact nofun
  | cons i items ih =>
    simp only [encodingAll, bind_eq_ok] at h
    obtain ⟨c, hc, rest, hrest, h⟩ := h
    cases h
    refine List.forall_mem_cons.2 ⟨⟨c, hc, (List.prefix_append _ _).isInfix⟩, fun i hi ↦ ?_⟩
    obtain ⟨c', hc', hinfix⟩ := ih hrest i hi
    exact ⟨c', hc', hinfix.trans (List.suffix_append _ _).isInfix⟩

theorem infix_of_map {asKey : Bool} {entries : List (Item × Item)} {room : Nat} {b : Octets}
    (h : encoding o asKey (.map entries) room = .ok b) :
    ∃ room', room = room' + 1 ∧ ∀ entry ∈ entries, ∃ k v, encoding o true entry.1 room' = .ok k ∧
      encoding o false entry.2 room' = .ok v ∧ k ++ v <:+: b := by
  rw [encoding] at h
  obtain ⟨room', rfl, h⟩ := level_eq_ok h
  obtain ⟨c, hc, rfl⟩ := map_eq_ok.1 h
  refine ⟨room', rfl, fun entry he ↦ ?_⟩
  have hmem := List.mem_map_of_mem (f := fun e : Item × Item ↦
    (encoding o true e.1 room', encoding o false e.2 room')) he
  rw [encodingPairs_eq_map] at hc
  have hpair : ∃ k v, encoding o true entry.1 room' = .ok k ∧
      encoding o false entry.2 room' = .ok v ∧ k ++ v <:+: c := by
    split at hc
    · exact infix_of_joinSorted hc _ hmem
    · exact infix_of_joinPairs hc _ hmem
  obtain ⟨k, v, hk, hv, hi⟩ := hpair
  exact ⟨k, v, hk, hv, hi.trans (List.suffix_append _ _).isInfix⟩

/-- Each part of an item is encoded under the options that govern it, and stands in the encoding of
the item. -/
theorem Governs.infix {asKey asKey' : Bool} {v w : Item} (h : Governs o asKey v inner asKey' w)
    {room : Nat} {b : Octets} (hb : encoding o asKey v room = .ok b) :
    ∃ room' c, room' ≤ room ∧ encoding inner asKey' w room' = .ok c ∧ c <:+: b := by
  induction h generalizing room b with
  | here => exact ⟨room, b, Nat.le_refl _, hb, List.infix_refl b⟩
  | element hi _ ih =>
    rw [encoding] at hb
    obtain ⟨room, rfl, hb⟩ := level_eq_ok hb
    obtain ⟨c, hc, rfl⟩ := map_eq_ok.1 hb
    obtain ⟨d, hd, hdc⟩ := infix_of_encodingAll hc _ hi
    obtain ⟨room', f, hr, hf, hfd⟩ := ih hd
    exact ⟨room', f, by omega, hf, (hfd.trans hdc).trans (List.suffix_append _ _).isInfix⟩
  | key he _ ih =>
    obtain ⟨room, rfl, hentries⟩ := infix_of_map hb
    obtain ⟨k, v, hk, -, hi⟩ := hentries _ he
    obtain ⟨room', c, hr, hc, hck⟩ := ih hk
    exact ⟨room', c, by omega, hc, (hck.trans (List.prefix_append _ _).isInfix).trans hi⟩
  | value he _ ih =>
    obtain ⟨room, rfl, hentries⟩ := infix_of_map hb
    obtain ⟨k, v, -, hv, hi⟩ := hentries _ he
    obtain ⟨room', c, hr, hc, hcv⟩ := ih hv
    exact ⟨room', c, by omega, hc, (hcv.trans (List.suffix_append _ _).isInfix).trans hi⟩
  | tag _ ih =>
    rw [encoding] at hb
    obtain ⟨room, rfl, hb⟩ := level_eq_ok hb
    obtain ⟨c, hc, rfl⟩ := map_eq_ok.1 hb
    obtain ⟨room', d, hr, hd, hdc⟩ := ih hc
    exact ⟨room', d, by omega, hd, hdc.trans (List.suffix_append _ _).isInfix⟩
  | @shareable _ _ asKey _ _ _ _ _ ih =>
    rw [encoding] at hb
    split at hb <;> [cases hb; skip]
    split at hb <;> [cases hb; skip]
    split at hb <;> [cases hb; skip]
    obtain ⟨room, rfl, hb⟩ := level_eq_ok hb
    obtain ⟨c, hc, rfl⟩ := map_eq_ok.1 hb
    obtain ⟨room', d, hr, hd, hdc⟩ := ih hc
    exact ⟨room', d, by omega, hd, hdc.trans (List.suffix_append _ _).isInfix⟩
  | custom _ ih =>
    rw [encoding] at hb
    split at hb <;> [cases hb; skip]
    obtain ⟨room, rfl, hb⟩ := level_eq_ok hb
    obtain ⟨room', c, hr, hc, hcb⟩ := ih hb
    exact ⟨room', c, by omega, hc, hcb⟩
  | params hp _ ih =>
    rw [encoding, hp, ok_bind] at hb
    obtain ⟨room, rfl, hb⟩ := level_eq_ok hb
    obtain ⟨room', c, hr, hc, hcb⟩ := ih hb
    exact ⟨room', c, by omega, hc, hcb⟩

/-- Overrides in overrides apply from the outside in, with a level for each. -/
theorem encoding_foldr_params (o : Options) (asKey : Bool) (ps : List Overrides) (v : Item)
    (room : Nat) : encoding o asKey (ps.foldr .params v) (room + ps.length) =
      ps.foldlM Options.override o >>= fun inner ↦ encoding inner asKey v room := by
  induction ps generalizing o with
  | nil => rfl
  | cons p ps ih =>
    rw [List.foldr_cons, encoding, List.foldlM_cons, bind_assoc]
    exact congrArg _ (funext fun inner ↦ ih inner)

theorem encodingAll_append (o : Options) (is js : List Item) (room : Nat) :
    encodingAll o (is ++ js) room = do
      return (← encodingAll o is room) ++ (← encodingAll o js room) := by
  induction is with
  | nil => cases h : encodingAll o js room <;> simp [encodingAll, h]
  | cons i is ih =>
    rw [List.cons_append, encodingAll, encodingAll, ih]
    cases encoding o false i room with
    | error e => rfl
    | ok b =>
      cases encodingAll o is room with
      | error e => rfl
      | ok c => cases h : encodingAll o js room <;> simp

/-- Without references, items are encoded as the recursion on the item gives, one after the other and
with the same faults. So overrides in overrides apply from the outside in, what stands beside an item
does not change what it is encoded as, and each part of an item is encoded under the options that
govern it, with deterministic encoding wherever it is on further out. -/
theorem emit_scoped (ho : o.stringRef = .off) (hs : o.sharedRef = false) (v : Item) :
    (encode v o = o.check >>= fun _ ↦
      ((if o.flags.contains .selfDescribe then Tag.selfDescribeHead else []) ++ ·) <$>
        encoding o false v o.maxDepth) ∧
    (∀ (e d : Encoder) (items : List Item), new o = .ok e → e.emitAll items = (.ok (), d) →
      ((d.emit v).1 >>= fun _ ↦ .ok (d.emit v).2.octets) =
        (d.octets ++ ·) <$> encoding o false v o.maxDepth ∧
      (d.emit v).2.options = o ∧ (d.emit v).2.groups = o.groups) ∧
    (∀ (asKey : Bool) (ps : List Overrides) (room : Nat),
      encoding o asKey (ps.foldr .params v) (room + ps.length) =
        ps.foldlM Options.override o >>= fun inner ↦ encoding inner asKey v room) ∧
    (∀ (is js : List Item) (room : Nat), encodingAll o (is ++ v :: js) room = do
      let before ← encodingAll o is room
      let b ← encoding o false v room
      return before ++ (b ++ (← encodingAll o js room))) ∧
    ∀ (inner : Options) (asKey asKey' : Bool) (w : Item), Governs o asKey v inner asKey' w →
      o.Inherits inner ∧ ∀ (room : Nat) (b : Octets), encoding o asKey v room = .ok b →
        ∃ room' c, room' ≤ room ∧ encoding inner asKey' w room' = .ok c ∧ c <:+: b := by
  refine ⟨encode_eq_encoding ho hs v, fun e d items hn hall ↦ ?_,
    fun asKey ps room ↦ encoding_foldr_params o asKey ps v room, fun is js room ↦ ?_,
    fun inner asKey asKey' w h ↦ ⟨h.inherits, fun room b hb ↦ h.infix hb⟩⟩
  · obtain ⟨s, rfl, hdepth, hstrings, -⟩ := empty_of_new hn
    obtain ⟨rfl, hd⟩ := depth_emitAll hall
    obtain ⟨t, ht, he⟩ := exists_emitEach (o := o) hstrings items
    rw [he] at hd ⊢
    have hencoder := emit_eq_encoder o t v
    exact ⟨emit_eq_encoding ho hs (hd.trans hdepth) ht v, congrArg Encoder.options hencoder,
      congrArg Encoder.groups hencoder⟩
  · rw [encodingAll_append, encodingAll]
    simp only [bind_assoc, pure_bind]

/-- Overrides of a string, of a map in it that is put in order, and of a key behind them. -/
theorem emit_scoped_nested :
    let o : Options := {}
    let map : Item := .map [(.unsigned 2, .string [0x62]), (.unsigned 1, .null)]
    let v : Item := .array [
      .params { flags := .text } (.array [.string [0x61], .params { flags := .cde } map]),
      .map [(.params { flags := .keyText } (.string [0x6B]), .string [0x63])]]
    let b : Octets := [0x82, 0x82, 0x61, 0x61, 0xA2, 0x01, 0xF6, 0x02, 0x61, 0x62,
      0xA1, 0x61, 0x6B, 0x41, 0x63]
    encode v o = .ok b ∧ ∃ inner : Options, Governs o false v inner false map ∧
      inner.flags = .text ||| .keyByte ||| .cde ∧
      ∃ room c, room ≤ 64 ∧ encoding inner false map room = .ok c ∧ c <:+: b := by
  intro o map v b
  have hb : encoding o false v 64 = .ok b := by cbv
  have h := emit_scoped (o := o) rfl rfl v
  let text : Options := { o with flags := .text ||| .keyByte }
  let inner : Options := { o with flags := .text ||| .keyByte ||| .cde }
  have htext : o.override { flags := .text } = .ok text := by cbv
  have hinner : text.override { flags := .cde } = .ok inner := by cbv
  have hg : Governs o false v inner false map :=
    .element (List.mem_cons_self) (.params htext
      (.element (List.mem_cons_of_mem _ List.mem_cons_self) (.params hinner (.here ..))))
  refine ⟨?_, inner, hg, rfl, (h.2.2.2.2 inner false false map hg).2 64 b hb⟩
  rw [h.1, show encoding o false v o.maxDepth = .ok b from hb]
  cbv

end Cbor.Encoder
