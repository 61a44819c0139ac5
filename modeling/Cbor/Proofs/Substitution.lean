import Cbor.Proofs.Wire.Substitution

namespace Cbor

open Decoder (Options)
open Assembly

variable {o : Options} {tables : List StringTable} {s : Scope}

theorem UpTo.exists_of_ok {α β : Type} {room : Prop} {R : α → β → Prop} {a : α}
    {y : Except Fault β} (h : UpTo room R (.ok a) y) : ∃ b, y = .ok b ∧ R a b := by
  cases h with
  | ok h => exact ⟨_, rfl, h⟩

namespace Wire

mutual

/-- Every tag 25 holds an unsigned integer, with no other tag between them. -/
def Direct : Wire → Prop
  | array _ items => DirectAll items
  | map _ entries => DirectEntries entries
  | tag number content => (number = Tag.stringRef → content.datum.index?.isSome) ∧ Direct content
  | _ => True

def DirectAll : List Wire → Prop
  | [] => True
  | w :: ws => Direct w ∧ DirectAll ws

def DirectEntries : List (Wire × Wire) → Prop
  | [] => True
  | (k, v) :: es => Direct k ∧ Direct v ∧ DirectEntries es

end

section

variable {w w' : Wire} {shared : Bool} {tables' : List StringTable}

theorem numbers_of_meaning (hr : o.stringRef = true) (hsh : o.sharedRef = .off)
    {r : Item × Scope} (hm : w.meaning o shared s = .ok r) (hs : Numbers o tables s)
    (he : w.expand tables = some (w', tables')) : Numbers o tables' r.2 := by
  have h := meaning_expand hr hsh w shared s tables tables' w' he hs False.elim
  rw [hm] at h
  obtain ⟨_, _, hl⟩ := h.exists_of_ok
  exact hl.numbers

theorem expand_of_reference {content : Wire} {r : Item × Scope} (hr : o.stringRef = true)
    (hd : content.datum.index?.isSome) (hs : Numbers o tables s)
    (hm : (tag Tag.stringRef content).meaning o shared s = .ok r) :
    ∃ e, (tag Tag.stringRef content).expand tables = some e := by
  obtain ⟨n, hn⟩ := Option.isSome_iff_exists.1 hd
  obtain ⟨index, rfl, rfl⟩ := eq_of_index? hn
  rw [meaning] at hm
  obtain ⟨t, ht, hm⟩ := bind_eq_ok.1 hm
  obtain rfl := enter_eq_ok ht
  rw [openRole_stringRef hr, ok_bind] at hm
  obtain ⟨_, hitem, hm⟩ := bind_eq_ok.1 hm
  cases hitem
  obtain ⟨item, hitem, -⟩ := bind_eq_ok.1 hm
  have hres : StringNamespace.resolve (.unsigned index) (namespaces tables) = .ok item :=
    hs.strings ▸ hitem
  cases tables with
  | nil => cases hres
  | cons inner outer =>
    cases hi : inner[index.toNat]? with
    | none => simp [StringNamespace.resolve, namespaces, hi] at hres
    | some e => exact ⟨_, by simp +decide [expand, hn, hi]; rfl⟩

end

mutual

/-- If a tree means anything, all its references name a string. -/
theorem expand_of_meaning (hr : o.stringRef = true) (hsh : o.sharedRef = .off) :
    (w : Wire) → w.Direct → ∀ (shared : Bool) (s : Scope) (tables : List StringTable)
    (r : Item × Scope), Numbers o tables s → w.meaning o shared s = .ok r →
    ∃ e, w.expand tables = some e
  | scalar _, _, _, _, _, _, _, _ => ⟨_, rfl⟩
  | simple .., _, _, _, _, _, _, _ => ⟨_, rfl⟩
  | string .., _, _, _, _, _, _, _ => ⟨_, rfl⟩
  | chunks .., _, _, _, _, _, _, _ => ⟨_, rfl⟩
  | array indefinite items, hd, shared, s, tables, r, hs, hm => by
    obtain ⟨t, ht, hm⟩ := bind_eq_ok.1 hm
    obtain rfl := enter_eq_ok ht
    obtain ⟨r, hm, -⟩ := bind_eq_ok.1 hm
    obtain ⟨e, he⟩ := expandAll_of_meaning hr hsh items hd #[] _ tables r hs.enter hm
    exact ⟨_, by rw [expand, he]; rfl⟩
  | map indefinite entries, hd, shared, s, tables, r, hs, hm => by
    obtain ⟨t, ht, hm⟩ := bind_eq_ok.1 hm
    obtain rfl := enter_eq_ok ht
    obtain ⟨r, hm, -⟩ := bind_eq_ok.1 hm
    obtain ⟨e, he⟩ := expandEntries_of_meaning hr hsh entries hd #[] _ tables r hs.enter hm
    exact ⟨_, by rw [expand, he]; rfl⟩
  | tag number content, hd, shared, s, tables, r, hs, hm => by
    by_cases hsr : number = Tag.stringRef
    · subst hsr
      exact expand_of_reference hr (hd.1 rfl) hs hm
    rw [meaning] at hm
    obtain ⟨t, ht, hm⟩ := bind_eq_ok.1 hm
    obtain rfl := enter_eq_ok ht
    by_cases hns : number = Tag.stringRefNamespace
    · subst hns
      rw [openRole_stringNamespace hr, ok_bind] at hm
      obtain ⟨r, hm, -⟩ := bind_eq_ok.1 hm
      obtain ⟨e, he⟩ := expand_of_meaning hr hsh content hd.2 _ _ _ r hs.enter.push hm
      exact ⟨_, by rw [expand, if_pos rfl, he]; rfl⟩
    · rw [openRole_plain hns hsr hsh, ok_bind] at hm
      obtain ⟨r, hm, -⟩ := bind_eq_ok.1 hm
      obtain ⟨e, he⟩ := expand_of_meaning hr hsh content hd.2 _ _ _ r hs.enter hm
      exact ⟨_, by rw [expand, if_neg hns, if_neg hsr, he]; rfl⟩

theorem expandAll_of_meaning (hr : o.stringRef = true) (hsh : o.sharedRef = .off)
    {indefinite : Bool} : (ws : List Wire) → DirectAll ws → ∀ (done : Array Item) (s : Scope)
    (tables : List StringTable) (r : Array Item × Scope), Numbers o tables s →
    meaningAll o indefinite done s ws = .ok r → ∃ e, expandAll tables ws = some e
  | [], _, _, _, _, _, _, _ => ⟨_, rfl⟩
  | w :: ws, hd, done, s, tables, r, hs, hm => by
    rw [meaningAll] at hm
    obtain ⟨r₁, hw, hm⟩ := bind_eq_ok.1 hm
    obtain ⟨_, -, hm⟩ := bind_eq_ok.1 hm
    obtain ⟨e, he⟩ := expand_of_meaning hr hsh w hd.1 false s tables r₁ hs hw
    have hs₁ := numbers_of_meaning hr hsh hw hs he
    obtain ⟨e', he'⟩ := expandAll_of_meaning hr hsh ws hd.2 _ r₁.2 e.2 r hs₁ hm
    refine ⟨(e.1 :: e'.1, e'.2), ?_⟩
    simp only [expandAll, he, he', Option.bind_eq_bind, Option.bind_some, pure]

theorem expandEntries_of_meaning (hr : o.stringRef = true) (hsh : o.sharedRef = .off)
    {indefinite : Bool} : (es : List (Wire × Wire)) → DirectEntries es →
    ∀ (done : Array (Item × Item)) (s : Scope) (tables : List StringTable)
    (r : Array (Item × Item) × Scope), Numbers o tables s →
    meaningEntries o indefinite done s es = .ok r → ∃ e, expandEntries tables es = some e
  | [], _, _, _, _, _, _, _ => ⟨_, rfl⟩
  | (k, v) :: es, hd, done, s, tables, r, hs, hm => by
    rw [meaningEntries] at hm
    obtain ⟨r₁, hk, hm⟩ := bind_eq_ok.1 hm
    obtain ⟨_, -, hm⟩ := bind_eq_ok.1 hm
    obtain ⟨r₂, hv, hm⟩ := bind_eq_ok.1 hm
    obtain ⟨e, he⟩ := expand_of_meaning hr hsh k hd.1 false s tables r₁ hs hk
    have hs₁ := numbers_of_meaning hr hsh hk hs he
    obtain ⟨e', he'⟩ := expand_of_meaning hr hsh v hd.2.1 false r₁.2 e.2 r₂ hs₁ hv
    have hs₂ := numbers_of_meaning hr hsh hv hs₁ he'
    obtain ⟨e'', he''⟩ := expandEntries_of_meaning hr hsh es hd.2.2 _ r₂.2 e'.2 r hs₂ hm
    refine ⟨((e.1, e'.1) :: e''.1, e''.2), ?_⟩
    simp only [expandEntries, he, he', he'', Option.bind_eq_bind, Option.bind_some, pure]

end

/-- The copies in a tree are what the reader has counted when the tree is read. -/
theorem expanded_of_meaning (hr : o.stringRef = true) (hsh : o.sharedRef = .off) {w : Wire}
    (hd : w.Direct) {shared : Bool} {r : Item × Scope} (hm : w.meaning o shared {} = .ok r) :
    r.2.expanded = w.copies := by
  obtain ⟨⟨w', tables'⟩, he⟩ := expand_of_meaning hr hsh w hd shared {} [] r .nil hm
  have h := meaning_expand hr hsh w shared {} [] tables' w' he .nil False.elim
  rw [hm] at h
  obtain ⟨_, _, hl⟩ := h.exists_of_ok
  have hx := hl.copied.expanded
  simp only [copies, he]
  simp only [Nat.zero_add] at hx
  omega

end Wire

/-- With the flags that keep a self-describe tag, what decodes is what the tree in front of the
decoder means. -/
theorem decode_undescribed {w : Wire} {data : Octets} (hc : o.check = .ok ())
    (hv : o.flags.contains .edn = false) (hsd : o.flags.contains .selfDescribe = true)
    (hm : o.maxSize < UInt64.size) (hw : w.Spelled (data.window o.offset o.length))
    (hs : (data.window o.offset o.length).length ≤ o.maxSize) :
    decode data o = (fun r ↦ r.1.native o.flags) <$> w.meaning o false {} := by
  rw [Wire.decode_meaning hw hs hm hv, hc, ok_bind, Wire.unprefixed_of_contains hsd]

/-- Decoding with references to strings fails if one of them names no string. Otherwise it comes to
decoding the strings in the place of the references, as long as neither decoding meets a limit. -/
theorem decode_expand {w : Wire} {data : Octets} (hc : o.check = .ok ())
    (hv : o.flags.contains .edn = false) (hsd : o.flags.contains .selfDescribe = true)
    (hr : o.stringRef = true) (hsh : o.sharedRef = .off) (hm : o.maxSize < UInt64.size)
    (hw : w.Spelled (data.window o.offset o.length)) (hd : w.Direct) :
    (w.expand [] = none → ∃ e, decode data o = .error e) ∧
      ∀ w' tables data', w.expand [] = some (w', tables) →
        w'.Spelled (data'.window o.offset o.length) →
        (∀ e, decode data o = .error e → ¬ e.IsLimit) →
        (∀ e, decode data' { o with stringRef := false } = .error e → ¬ e.IsLimit) →
        decode data o = decode data' { o with stringRef := false } := by
  constructor
  · intro he
    cases hdec : decode data o with
    | error e => exact ⟨e, rfl⟩
    | ok v =>
      have hs : (data.window o.offset o.length).length ≤ o.maxSize :=
        Nat.not_lt.1 fun hlt ↦ by cases hdec.symm.trans (decode_of_oversized hc hlt)
      rw [decode_undescribed hc hv hsd hm hw hs] at hdec
      obtain ⟨r, hmean, -⟩ := map_eq_ok.1 hdec
      obtain ⟨e, hsome⟩ := Wire.expand_of_meaning hr hsh w hd false {} [] r .nil hmean
      cases he.symm.trans hsome
  · intro w' tables data' he hw' hl hl'
    have hs : (data.window o.offset o.length).length ≤ o.maxSize :=
      Nat.not_lt.1 fun hlt ↦ hl _ (decode_of_oversized hc hlt) trivial
    have hs' : (data'.window o.offset o.length).length ≤ o.maxSize :=
      Nat.not_lt.1 fun hlt ↦ hl' _ (decode_of_oversized hc hlt) trivial
    have hdec := decode_undescribed hc hv hsd hm hw hs
    have hdec' := decode_undescribed (o := { o with stringRef := false }) hc hv hsd hm hw' hs'
    rw [hdec] at hl
    rw [hdec'] at hl'
    have hon := Wire.meaning_expand hr hsh w false {} [] tables w' he .nil False.elim
    have hoff : UpTo False _ _ _ := Wire.meaning_upTo (o := { o with stringRef := false }) rfl hsh
      w' false {} rfl False.elim False.elim
    rw [Datum.read_congr (p := { o with stringRef := false }) (o := o) rfl rfl] at hoff
    calc decode data o = Item.native o.flags <$> w'.datum.read o := hdec.trans
          (hon.map_eq_of_unlimited (fun r raw h ↦ by rw [h.value]) hl)
      _ = decode data' { o with stringRef := false } := (hdec'.trans
          (hoff.map_eq_of_unlimited (fun r raw h ↦ by rw [h]) hl')).symm

def Decoder.naming : Options := { flags := .standard ||| .selfDescribe }

open Decoder (naming)

/-- A string with a reference to it, also in a namespace within the namespace, which has strings of
its own; and a reference without a namespace. -/
theorem decode_expand_nested :
    let a : Wire := .string false [0x61, 0x61, 0x61]
    let b : Wire := .string false [0x62, 0x62, 0x62]
    let first : Wire := .tag Tag.stringRef (.scalar (.unsigned 0))
    let w : Wire := .tag Tag.stringRefNamespace (.array false
      [a, .tag Tag.stringRefNamespace (.array false [b, first]), first])
    let data : Octets := [0xD9, 0x01, 0x00, 0x83, 0x43, 0x61, 0x61, 0x61, 0xD9, 0x01, 0x00, 0x82,
      0x43, 0x62, 0x62, 0x62, 0xD8, 0x19, 0x00, 0xD8, 0x19, 0x00]
    let data' : Octets := [0x83, 0x43, 0x61, 0x61, 0x61, 0x82, 0x43, 0x62, 0x62, 0x62, 0x43, 0x62,
      0x62, 0x62, 0x43, 0x61, 0x61, 0x61]
    w.Direct ∧ w.expand [] = some (.array false [a, .array false [b, b], a], []) ∧
      decode data naming = decode data' { naming with stringRef := false } ∧
      (∃ v, decode data naming = .ok v) ∧
      first.Direct ∧ first.expand [] = none ∧
      ∃ e, decode [0xD8, 0x19, 0x00] naming = .error e := by
  intro a b first w data data'
  have hfirst : first.Direct := ⟨fun _ ↦ rfl, trivial⟩
  have hdirect : w.Direct := by
    simp +decide [w, a, b, hfirst, Wire.Direct, Wire.DirectAll]
  let w' : Wire := .array false [a, .array false [b, b], a]
  have hex : w.expand [] = some (w', []) := rfl
  let v : Item := .array [.string [0x61, 0x61, 0x61],
    .array [.string [0x62, 0x62, 0x62], .string [0x62, 0x62, 0x62]], .string [0x61, 0x61, 0x61]]
  have hdec : decode data naming = .ok v :=
    (Wire.decode_octets (w := w) rfl (by decide) (by decide) (by decide)).trans rfl
  have hdec' : decode data' { naming with stringRef := false } = .ok v :=
    (Wire.decode_octets (w := w') rfl (by decide) (by decide) (by decide)).trans rfl
  have hw : w.Spelled data :=
    .of_fits (Wire.fits_of_mem (n := data.length) w (by decide)) (by decide)
  have hw' : w'.Spelled data' :=
    .of_fits (Wire.fits_of_mem (n := data'.length) w' (by decide)) (by decide)
  have hwf : first.Spelled [0xD8, 0x19, 0x00] :=
    .of_fits (Wire.fits_of_mem (n := 3) first (by decide)) (by decide)
  refine ⟨hdirect, hex, ?_, ⟨_, hdec⟩, hfirst, rfl, ?_⟩
  · exact (decode_expand rfl rfl rfl rfl rfl (by decide) hw hdirect).2 w' [] data' hex hw'
      (not_isLimit_of_ok hdec) (not_isLimit_of_ok hdec')
  · exact (decode_expand rfl rfl rfl rfl rfl (by decide) hwf hfirst).1 rfl

end Cbor
