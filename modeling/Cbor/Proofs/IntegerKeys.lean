import Mathlib
import Cbor.Proofs.Encoder.Order
import Cbor.Proofs.Keys
import Cbor.Proofs.References
import Cbor.Proofs.Text.Decimal

namespace Cbor

open Assembly
open Encoder (tree textTree keyTree treeEntries EntryTrees entryTrees entriesInTurn sortedTrees
  Options)
open Encoder.Emit (integerKey?)
open Encoder.Writing (item)
open Item (named)

namespace Encoder

theorem integerKey?_eq_some_iff {b : Octets} {n : Int} : integerKey? b = some n ↔
    Numeral.Canonical b n ∧ -18446744073709551616 ≤ n ∧ n < 18446744073709551616 := by
  rw [Numeral.canonical_iff]
  constructor
  · intro h
    obtain ⟨hb, hr⟩ := integerKey?_eq_some h
    exact ⟨hb.symm, hr⟩
  · rintro ⟨rfl, hr⟩
    simp only [integerKey?, Utf8.decode?_encode, Option.bind_eq_bind, Option.bind_some,
      Numeral.canonicalInt?_ofInt, if_pos hr]

/-- To read any numeral of 128 bits and to compare it with what its number is printed as comes to
the same. -/
theorem integerKey?_eq_printed (b : Octets) :
    integerKey? b = ((Utf8.decode? b).bind Numeral.int128?).filter fun n ↦
      Utf8.encode (Numeral.ofInt n) = b ∧
        -18446744073709551616 ≤ n ∧ n < 18446744073709551616 := by
  ext n
  rw [integerKey?_eq_some_iff, Numeral.canonical_iff]
  simp only [Option.filter_eq_some_iff, decide_eq_true_eq]
  constructor
  · rintro ⟨rfl, hl, hh⟩
    rw [Utf8.decode?_encode, Option.bind_some, Numeral.int128?_ofInt (by omega) (by omega)]
    exact ⟨rfl, rfl, hl, hh⟩
  · rintro ⟨-, hb, hr⟩
    exact ⟨hb.symm, hr⟩

theorem run_item_integerKey {e : Encoder} (hf : e.options.flags.contains .intKey = true) {b : Octets}
    {n : Int} (h : integerKey? b = some n) :
    (item true (.string b)).run.run e = (item true (.ofInt n)).run.run e := by
  have hkey : Emit.keyString e.options b = Emit.integer n := by
    rw [Emit.keyString, if_pos hf, h]
  have hrun : (item true (.string b)).run.run e =
      (liftM (Emit.keyString e.options b) : Writing Unit).run.run e := rfl
  rw [hrun, hkey]
  cases n <;> rfl

end Encoder

namespace Item

/-- Where keys are strings an integer key is its numeral, elsewhere it is left as it is. -/
theorem mapKey_of_integerKey {f : Flags} (hf : f.contains .intKey = true) {b : Octets} {n : Int}
    (h : integerKey? b = some n) :
    (ofInt n).mapKey f = .ok (if f.contains .mapAsArray then ofInt n else .string b) := by
  obtain ⟨rfl, hl, hh⟩ := Encoder.integerKey?_eq_some h
  cases ha : f.contains .mapAsArray with
  | false => exact mapKey_ofInt ha hf hl hh
  | true =>
    rw [mapKey, if_pos ha]
    cases n <;> rfl

theorem exists_integerKey {f : Flags} {n : Int} (hf : f.contains .intKey = true)
    (ha : f.contains .mapAsArray = false) (hl : -18446744073709551616 ≤ n)
    (hh : n < 18446744073709551616) :
    ∃ b, (ofInt n).mapKey f = .ok (.string b) ∧ integerKey? b = some n :=
  ⟨_, mapKey_ofInt ha hf hl hh,
    Encoder.integerKey?_eq_some_iff.2 ⟨Numeral.canonical_iff.2 rfl, hl, hh⟩⟩

end Item

variable {o : Options} {p : Decoder.Options}

/-- The key is an integer, if these are to be written as such, or a string of a kind that keys may
be. -/
def Encoder.Options.AcceptsKey (o : Options) (b : Octets) : Prop :=
  (o.flags.contains .intKey = true ∧ ∃ n, integerKey? b = some n) ∨
    if o.flags.contains .keyText = true then
      o.flags.contains .uncheckedText = true ∨ Utf8.isValid b = true
    else o.flags.contains .keyByte = true

namespace Encoder

theorem exists_keyTree {b : Octets} (h : o.AcceptsKey b) : ∃ w, keyTree o b = .ok w := by
  unfold keyTree
  split
  case h_1 n _ => exact ⟨_, rfl⟩
  case h_2 hn =>
    rcases h with ⟨hf, n, hb⟩ | h
    · rw [if_pos hf, hb] at hn
      cases hn
    · split at h
      case isTrue ht =>
        rw [if_pos ht, textTree, if_neg (by simpa [Decidable.or_iff_not_imp_left] using h)]
        exact ⟨_, rfl⟩
      case isFalse ht =>
        rw [if_neg ht, if_pos h]
        exact ⟨_, rfl⟩

end Encoder

/-- Options of reading that make string keys of all keys that other options write. -/
structure ReadsKeys (o : Options) (p : Decoder.Options) : Prop where
  keyed : p.flags.contains .mapAsArray = false
  integers : o.flags.contains .intKey = true → p.flags.contains .intKey = true
  texts : o.flags.contains .keyText = true → p.flags.contains .keyText = true
  octets : o.flags.contains .keyByte = true → p.flags.contains .keyByte = true
  unchecked : o.flags.contains .uncheckedText = true → p.flags.contains .uncheckedText = true

namespace Wire

/-- What a key is written as is read as that key, if it is read at all. -/
theorem eq_string_of_mapKey (hk : p.flags.contains .mapAsArray = false) {b : Octets} {w : Wire}
    (hw : keyTree o b = .ok w) {shared : Bool} {s s' : Scope} {raw key : Item}
    (hm : w.meaning p shared s = .ok (raw, s')) (hkey : raw.mapKey p.flags = .ok key) :
    key = .string b := by
  have string {isText : Bool} (hm : (Wire.string isText b).meaning p shared s = .ok (raw, s')) :
      key = .string b := by
    rw [meaning_string] at hm
    obtain ⟨_, _, hm⟩ := bind_eq_ok.1 hm
    cases hm
    exact Item.string_of_mapKey_ofString hk hkey
  rcases Encoder.keyTree_cases hw with ⟨n, rfl, -, hb⟩ | ⟨rfl, -⟩ | ⟨rfl, -⟩
  · cases hm
    obtain ⟨rfl, hl, hh⟩ := Encoder.integerKey?_eq_some hb
    rw [Item.item_integer] at hkey
    cases hf : p.flags.contains .intKey with
    | true => exact Except.ok.inj (hkey.symm.trans (Item.mapKey_ofInt hk hf hl hh))
    | false =>
      rw [Item.mapKey, hk] at hkey
      cases n <;> simp [Item.ofInt, Item.keyOctets, hf] at hkey
  · exact string hm
  · exact string hm

/-- Where the reader takes all kinds of keys that are written, every key is read that does not start
with a zero octet. -/
theorem exists_mapKey (h : ReadsKeys o p) {b : Octets} (hb : b.head? ≠ some 0) {w : Wire}
    (hw : keyTree o b = .ok w) (shared : Bool) (s : Scope) :
    ∃ raw s', w.meaning p shared s = .ok (raw, s') ∧ raw.mapKey p.flags = .ok (.string b) := by
  rcases Encoder.keyTree_cases hw with ⟨n, rfl, hf, hn⟩ | ⟨rfl, ht, hc⟩ | ⟨rfl, hf⟩
  · refine ⟨_, s, rfl, ?_⟩
    obtain ⟨rfl, hl, hh⟩ := Encoder.integerKey?_eq_some hn
    rw [Item.item_integer]
    exact Item.mapKey_ofInt h.keyed (h.integers hf) hl hh
  · refine ⟨.text b, s.record (.text b) b.length, ?_, ?_⟩
    · rw [meaning_string, if_pos rfl, checkText, if_pos (hc.imp_left h.unchecked)]
      rfl
    · simp [Item.mapKey, h.keyed, Item.keyOctets, h.texts ht, hb]
  · refine ⟨.bytes b, s.record (.bytes b) b.length, rfl, ?_⟩
    simp [Item.mapKey, h.keyed, Item.keyOctets, h.octets hf, hb]

def WritesEntry (o : Options) (depth : Nat) (e : Octets × Item) (w : Wire × Wire) : Prop :=
  keyTree o e.1 = .ok w.1 ∧ ∃ cells cells', tree o false e.2 depth cells = .ok (w.2, cells')

variable {depth : Nat} {es : List (Octets × Item)} {ws : List (Wire × Wire)}

theorem keys_of_pairs (hk : p.flags.contains .mapAsArray = false)
    (h : List.Forall₂ (WritesEntry o depth) es ws) {s u : Scope} {ps : List (Item × Item)}
    (hp : pairs p s ws = .ok (ps, u)) :
    ∃ qs : List (Octets × Item), ps = qs.map named ∧ qs.map Prod.fst = es.map Prod.fst := by
  induction h generalizing s ps with
  | nil =>
    cases hp
    exact ⟨[], rfl, rfl⟩
  | @cons e _ _ _ he _ ih =>
    obtain ⟨raw, s₁, key, value, s₂, ps', hraw, hkey, -, hes, rfl⟩ := pairs_cons hp
    obtain ⟨qs, rfl, hqs⟩ := ih hes
    obtain rfl := eq_string_of_mapKey hk he.1 hraw hkey
    exact ⟨(e.1, value.native p.flags) :: qs, rfl, congrArg (e.1 :: ·) hqs⟩

theorem exists_pairs (h : ReadsKeys o p) (hw : List.Forall₂ (WritesEntry o depth) es ws)
    (hb : ∀ e ∈ es, e.1.head? ≠ some 0)
    (hv : ∀ e ∈ ws, ∀ s, ∃ r, e.2.meaning p false s = .ok r) (s : Scope) :
    ∃ r, pairs p s ws = .ok r := by
  induction hw generalizing s with
  | nil => exact ⟨_, rfl⟩
  | @cons e w es ws he _ ih =>
    obtain ⟨hb, hbs⟩ := List.forall_mem_cons.1 hb
    obtain ⟨hv, hvs⟩ := List.forall_mem_cons.1 hv
    obtain ⟨raw, s₁, hraw, hkey⟩ := exists_mapKey h hb he.1 false s
    obtain ⟨⟨value, s₂⟩, hvalue⟩ := hv s₁
    obtain ⟨r, hr⟩ := ih hbs hvs s₂
    refine ⟨((.string e.1, value.native p.flags) :: r.1, r.2), ?_⟩
    simp only [pairs, hraw, hkey, hvalue, hr, ok_bind, pure_eq_ok]

/-- Where a map is read with string keys, these are the ones that it was written with, each once. -/
theorem keys_of_meaning (hk : p.flags.contains .mapAsArray = false)
    (h : List.Forall₂ (WritesEntry o depth) es ws) {shared : Bool} {s : Scope} {r : Item × Scope}
    (hr : (map false ws).meaning p shared s = .ok r) :
    ∃ es' : List (Octets × Item), r.1 = .map (es'.map named) ∧
      es'.map Prod.fst = (es.map Prod.fst).eraseDups := by
  simp only [meaning, bind_eq_ok] at hr
  obtain ⟨_, _, entries, hentries, hr⟩ := hr
  cases hr
  obtain ⟨ps, hps, he⟩ := pairs_of_meaningEntries hentries
  obtain ⟨qs, rfl, hqs⟩ := keys_of_pairs hk h hps
  obtain ⟨es', hes', hm⟩ := Item.exists_gather_named hk qs
  exact ⟨es', by rw [he, hes'], by rw [hm.keys, hqs]⟩

theorem exists_meaning_map (h : ReadsKeys o p) (hw : List.Forall₂ (WritesEntry o depth) es ws)
    (hb : ∀ e ∈ es, e.1.head? ≠ some 0)
    (hu : p.flags.contains .mapNoDupKey = true → (es.map Prod.fst).Nodup)
    (hv : ∀ e ∈ ws, ∀ s, ∃ r, e.2.meaning p false s = .ok r) (shared : Bool) {s : Scope}
    (hd : s.depth < p.maxDepth) : ∃ r, (map false ws).meaning p shared s = .ok r := by
  have ht : s.enter p.maxDepth = .ok { s with depth := s.depth + 1 } := if_pos hd
  obtain ⟨⟨ps, u⟩, hps⟩ := exists_pairs h hw hb hv { s with depth := s.depth + 1 }
  obtain ⟨qs, rfl, hqs⟩ := keys_of_pairs h.keyed hw hps
  rw [meaning_map ht hps (fun h ↦ absurd h Bool.false_ne_true), Item.ofPairs, if_neg]
  · exact ⟨_, rfl⟩
  · rintro ⟨hf, hn⟩
    refine hn ?_
    rw [Item.Unrepeated, List.pairwise_map]
    have hd := hu hf
    rw [← hqs, List.Nodup, List.pairwise_map] at hd
    exact hd.imp fun hne ↦ (Item.named_beq _ _).trans (decide_eq_false hne)

end Wire

namespace Encoder

open Wire (WritesEntry)

variable {depth : Nat} {cells : CellTable}

theorem entryTrees_named (es : List (Octets × Item)) :
    entryTrees o (es.map named) = es.map fun e ↦ entryTree o (named e) := by
  rw [entryTrees_eq_map, List.map_map]
  rfl

theorem writes_entriesInTurn {zs : List (Octets × Octets × Item)} {r : List (Wire × Wire) × CellTable}
    (h : entriesInTurn depth (zs.map fun z ↦ (z.1, entryTree o (named z.2))) cells = .ok r) :
    List.Forall₂ (WritesEntry o depth) (zs.map Prod.snd) r.1 := by
  induction zs generalizing cells r with
  | nil =>
    cases h
    exact .nil
  | cons z zs ih =>
    obtain ⟨e, he, es, hes, rfl⟩ := entriesInTurn_cons_eq_ok.1 h
    refine .cons ?_ (ih hes)
    simp only [entryTree, named, tree, if_true, bind_eq_ok] at he
    obtain ⟨_, ⟨w, hw, hk⟩, _, hv, he⟩ := he
    cases hk
    cases he
    exact ⟨hw, _, _, hv⟩

/-- Entries are written in turn, or in another order under deterministic encoding. -/
theorem exists_writes_of_tree {es : List (Octets × Item)} {asKey : Bool} {r : Wire × CellTable}
    (h : tree o asKey (.map (es.map named)) depth cells = .ok r) :
    ∃ ws es', r.1 = .map false ws ∧ List.Forall₂ (WritesEntry o (depth + 1)) es' ws ∧
      es'.Perm es ∧ (o.flags.contains .cde = false → es' = es) := by
  rw [tree] at h
  cases hc : o.flags.contains .cde with
  | false =>
    rw [hc, if_neg Bool.false_ne_true] at h
    obtain ⟨_, _, h⟩ := bind_eq_ok.1 h
    obtain ⟨⟨ws, cells'⟩, hws, h⟩ := bind_eq_ok.1 h
    cases h
    rw [treeEntries_eq, entryTrees_named, List.map_map] at hws
    have hturn : entriesInTurn (depth + 1) ((es.map fun e ↦ (([] : Octets), e)).map
        fun z ↦ (z.1, entryTree o (named z.2))) cells = .ok (ws, cells') := by
      simpa [Function.comp_def] using hws
    have hw := writes_entriesInTurn hturn
    rw [List.map_map, Function.comp_def, List.map_id'] at hw
    exact ⟨ws, es, rfl, hw, .refl _, fun _ ↦ rfl⟩
  | true =>
    rw [hc, if_pos rfl] at h
    obtain ⟨_, _, h⟩ := bind_eq_ok.1 h
    obtain ⟨⟨ws, cells'⟩, hws, h⟩ := bind_eq_ok.1 h
    cases h
    rw [sortedTrees_eq, entryTrees_named, keyed_map] at hws
    obtain ⟨ks, hks, hws⟩ := bind_eq_ok.1 hws
    obtain ⟨zs, hzs, rfl⟩ := map_eq_ok.1 hks
    rw [sortKeyed_map (fun k ↦ (k.1, entryTree o (named k.2))) fun _ ↦ rfl] at hws
    refine ⟨ws, _, rfl, writes_entriesInTurn hws, ?_, nofun⟩
    have hes : zs.map Prod.snd = es := map_snd_of_keyed hzs
    exact hes ▸ (zs.mergeSort_perm _).map Prod.snd

theorem exists_tree_scalar (a : Scalar) :
    ∃ a', ∀ depth cells, tree o false a.item depth cells = .ok (.scalar a', cells) := by
  cases a <;> exact ⟨_, fun _ _ ↦ rfl⟩

theorem exists_yields_named (depth : Nat) {es : List (Octets × Item)}
    (h : ∀ e ∈ es, o.AcceptsKey e.1 ∧ ∃ a : Scalar, e.2 = a.item) :
    ∃ ws, List.Forall₂ (EntryTrees.Yields depth) (es.map fun e ↦ entryTree o (named e)) ws := by
  induction es with
  | nil => exact ⟨[], .nil⟩
  | cons e es ih =>
    obtain ⟨⟨hkey, a, ha⟩, hes⟩ := List.forall_mem_cons.1 h
    obtain ⟨ws, hws⟩ := ih hes
    obtain ⟨k, hk⟩ := exists_keyTree hkey
    obtain ⟨a', ha'⟩ := exists_tree_scalar (o := o) a
    have hkeyed (cells : CellTable) : tree o true (.string e.1) depth cells = .ok (k, cells) := by
      rw [tree, if_pos rfl, hk]
      rfl
    have halone : tree o.withoutReferences true (.string e.1) depth #[] = .ok (k, #[]) := by
      rw [← hkeyed]
      rfl
    refine ⟨(k, .scalar a') :: ws, .cons ⟨?_, fun cells ↦ ?_⟩ hws⟩
    · simp only [entryTree, named, halone, map_ok]
    · simp only [entryTree, named, hkeyed, ha, ha', ok_bind, pure_eq_ok]

theorem exists_tree_named {es : List (Octets × Item)}
    (h : ∀ e ∈ es, o.AcceptsKey e.1 ∧ ∃ a : Scalar, e.2 = a.item) (hd : depth < o.maxDepth)
    (asKey : Bool) (cells : CellTable) :
    ∃ r, tree o asKey (.map (es.map named)) depth cells = .ok r := by
  obtain ⟨ws, hys⟩ := exists_yields_named (depth + 1) h
  rw [tree, checkDepth_eq_ok (u := ()).2 hd, ok_bind]
  split
  · obtain ⟨ws', -, hs⟩ := exists_sortedTrees_of_yields hys
    rw [entryTrees_named, hs]
    exact ⟨_, rfl⟩
  · have hturn : List.Forall₂ (fun k e ↦ k.2.Yields (depth + 1) e)
        ((es.map fun e ↦ entryTree o (named e)).map fun t ↦ (([] : Octets), t)) ws := by
      simpa [List.forall₂_map_left_iff] using hys
    rw [treeEntries_eq, entryTrees_named, entriesInTurn_of_yields hturn]
    exact ⟨_, rfl⟩

theorem exists_scalar_of_writes {es : List (Octets × Item)} {ws : List (Wire × Wire)} {depth : Nat}
    (h : List.Forall₂ (WritesEntry o depth) es ws) (hs : ∀ e ∈ es, ∃ a : Scalar, e.2 = a.item) :
    ∀ w ∈ ws, ∃ a, w.2 = .scalar a := by
  induction h with
  | nil => exact nofun
  | cons he _ ih =>
    obtain ⟨⟨a, ha⟩, hs⟩ := List.forall_mem_cons.1 hs
    obtain ⟨a', ha'⟩ := exists_tree_scalar (o := o) a
    obtain ⟨-, _, _, hw⟩ := he
    rw [ha, ha'] at hw
    exact List.forall_mem_cons.2 ⟨⟨a', (Prod.mk.inj (Except.ok.inj hw)).1.symm⟩, ih hs⟩

theorem noStringRef_named {es : List (Octets × Item)} (h : ∀ e ∈ es, ∃ a : Scalar, e.2 = a.item) :
    Item.NoStringRefEntries (es.map named) := by
  induction es with
  | nil => trivial
  | cons e es ih =>
    obtain ⟨⟨a, ha⟩, hes⟩ := List.forall_mem_cons.1 h
    refine ⟨trivial, ?_, ih hes⟩
    show e.2.NoStringRef
    rw [ha]
    cases a <;> trivial

end Encoder

open Encoder

theorem exists_encode_named {es : List (Octets × Item)} (hc : o.check = .ok ())
    (hd : 0 < o.maxDepth) (h : ∀ e ∈ es, o.AcceptsKey e.1 ∧ ∃ a : Scalar, e.2 = a.item) :
    ∃ b, encode (.map (es.map named)) o = .ok b := by
  obtain ⟨r, hr⟩ := exists_tree_named h hd false #[]
  have hv : (Item.map (es.map named)).NoStringRef := noStringRef_named fun e he ↦ (h e he).2
  rw [encode_eq_preamble hv, hc, ok_bind, hr]
  exact ⟨_, rfl⟩

/-- `item` is a map with the string keys of `es`, each where it is written first. -/
def KeepsKeys (o : Options) (es : List (Octets × Item)) (item : Item) : Prop :=
  ∃ (bs : List Octets) (es' : List (Octets × Item)), bs.Perm (es.map Prod.fst) ∧
    (o.flags.contains .cde = false → bs = es.map Prod.fst) ∧ item = .map (es'.map named) ∧
    es'.map Prod.fst = bs.eraseDups

theorem keepsKeys_of_meaning (hk : p.flags.contains .mapAsArray = false)
    {es : List (Octets × Item)} {asKey : Bool} {depth : Nat} {cells : CellTable}
    {r : Wire × CellTable} (h : tree o asKey (.map (es.map named)) depth cells = .ok r)
    {shared : Bool} {s : Scope} {r' : Item × Scope} (hm : r.1.meaning p shared s = .ok r') :
    KeepsKeys o es r'.1 := by
  obtain ⟨ws, es', hws, hw, hp, hcde⟩ := exists_writes_of_tree h
  rw [hws] at hm
  obtain ⟨es'', he, hkeys⟩ := Wire.keys_of_meaning hk hw hm
  exact ⟨es'.map Prod.fst, es'', hp.map _, fun hf ↦ by rw [hcde hf], he, hkeys⟩

section Decode

variable {es : List (Octets × Item)} {b data : Octets} (hedn : p.flags.contains .edn = false)
  (hm : p.maxSize < UInt64.size)
  (hann : o.flags.contains .selfDescribe = true → p.flags.contains .selfDescribe = false)
  (hrec : Recalls p o (.map (es.map named))) (he : encode (.map (es.map named)) o = .ok b)
  (hi : data.window p.offset p.length = b) (hs : b.length ≤ p.maxSize)

include hedn hm hann hrec he hi hs

theorem exists_tree_of_named : ∃ r, tree o false (.map (es.map named)) 0 #[] = .ok r ∧
    decode data p = p.check >>= fun _ ↦
      Item.native p.flags <$> Prod.fst <$> r.1.meaning p false {} := by
  obtain ⟨-, r, hr, hd⟩ := exists_tree_of_recalls hrec hann hm hedn he hi hs
  obtain ⟨ws, -, hws, -⟩ := exists_writes_of_tree hr
  exact ⟨r, hr, hd (by rw [hws]; rfl)⟩

theorem keepsKeys_of_decode (hk : p.flags.contains .mapAsArray = false) {item : Item}
    (hitem : decode data p = .ok item) : KeepsKeys o es item := by
  obtain ⟨r, hr, hd⟩ := exists_tree_of_named hedn hm hann hrec he hi hs
  rw [hd] at hitem
  obtain ⟨_, _, hitem⟩ := bind_eq_ok.1 hitem
  obtain ⟨raw, hraw, rfl⟩ := map_eq_ok.1 hitem
  obtain ⟨u, hu, rfl⟩ := map_eq_ok.1 hraw
  obtain ⟨bs, es', hbs, hcde, hmap, hkeys⟩ := keepsKeys_of_meaning hk hr hu
  exact ⟨bs, es', hbs, hcde, by rw [hmap]; rfl, hkeys⟩

theorem exists_decode_named (h : ReadsKeys o p) (hc : p.check = .ok ()) (hd0 : 0 < p.maxDepth)
    (hnodup : p.flags.contains .mapNoDupKey = true → (es.map Prod.fst).Nodup)
    (hes : ∀ e ∈ es, e.1.head? ≠ some 0 ∧ ∃ a : Scalar, e.2 = a.item) :
    ∃ item, decode data p = .ok item := by
  obtain ⟨r, hr, hd⟩ := exists_tree_of_named hedn hm hann hrec he hi hs
  obtain ⟨ws, es', hws, hw, hp, -⟩ := exists_writes_of_tree hr
  have hes' : ∀ e ∈ es', e.1.head? ≠ some 0 ∧ ∃ a : Scalar, e.2 = a.item :=
    fun e he ↦ hes e (hp.mem_iff.1 he)
  have hv : ∀ w ∈ ws, ∀ s, ∃ r, w.2.meaning p false s = .ok r := by
    intro w hmem s
    obtain ⟨a, ha⟩ := exists_scalar_of_writes hw (fun e he ↦ (hes' e he).2) w hmem
    exact ⟨_, by rw [ha]; rfl⟩
  obtain ⟨i, hmeaning⟩ := Wire.exists_meaning_map h hw (fun e he ↦ (hes' e he).1)
    (fun hf ↦ (hp.map Prod.fst).nodup_iff.2 (hnodup hf)) hv false (s := {}) hd0
  rw [hd, hc, ok_bind, hws, hmeaning]
  exact ⟨_, rfl⟩

end Decode

/-- Just the canonical numerals of the integers on the wire are taken for integers, and such an
integer is read as its numeral again. So maps that are read with string keys have the keys that they
were written with, each once, and they are read where both sides take integers for keys and the
reader takes the strings that are written. -/
theorem integer_keys :
    (∀ (b : Octets) (n : Int), integerKey? b = some n ↔
      Numeral.Canonical b n ∧ -18446744073709551616 ≤ n ∧ n < 18446744073709551616) ∧
    (∀ (e : Encoder) (b : Octets) (n : Int), e.options.flags.contains .intKey = true →
      integerKey? b = some n →
      (item true (.string b)).run.run e = (item true (.ofInt n)).run.run e) ∧
    (∀ (f : Flags) (b : Octets) (n : Int), f.contains .intKey = true → integerKey? b = some n →
      (Item.ofInt n).mapKey f = .ok (if f.contains .mapAsArray then .ofInt n else .string b)) ∧
    (∀ (f : Flags) (n : Int), f.contains .intKey = true → f.contains .mapAsArray = false →
      -18446744073709551616 ≤ n → n < 18446744073709551616 →
      ∃ b, (Item.ofInt n).mapKey f = .ok (.string b) ∧ integerKey? b = some n) ∧
    (∀ (o : Options) (es : List (Octets × Item)), o.check = .ok () → 0 < o.maxDepth →
      (∀ e ∈ es, o.AcceptsKey e.1 ∧ ∃ a : Scalar, e.2 = a.item) →
      ∃ b, encode (.map (es.map named)) o = .ok b) ∧
    (∀ (o : Options) (p : Decoder.Options) (es : List (Octets × Item)) (asKey shared : Bool)
      (depth : Nat) (cells : CellTable) (r : Wire × CellTable) (s : Scope) (r' : Item × Scope),
      p.flags.contains .mapAsArray = false →
      tree o asKey (.map (es.map named)) depth cells = .ok r → r.1.meaning p shared s = .ok r' →
      KeepsKeys o es r'.1) ∧
    ∀ (o : Options) (p : Decoder.Options) (es : List (Octets × Item)) (b data : Octets),
      p.flags.contains .edn = false → p.flags.contains .mapAsArray = false →
      p.maxSize < UInt64.size →
      (o.flags.contains .selfDescribe = true → p.flags.contains .selfDescribe = false) →
      Recalls p o (.map (es.map named)) → encode (.map (es.map named)) o = .ok b →
      data.window p.offset p.length = b → b.length ≤ p.maxSize →
      (∀ item, decode data p = .ok item → KeepsKeys o es item) ∧
      (ReadsKeys o p → p.check = .ok () → 0 < p.maxDepth →
        (p.flags.contains .mapNoDupKey = true → (es.map Prod.fst).Nodup) →
        (∀ e ∈ es, e.1.head? ≠ some 0 ∧ ∃ a : Scalar, e.2 = a.item) →
        ∃ item, decode data p = .ok item) := by
  refine ⟨fun _ _ ↦ integerKey?_eq_some_iff, fun e b n hf hn ↦ run_item_integerKey hf hn,
    fun f b n hf hn ↦ Item.mapKey_of_integerKey hf hn,
    fun f n hf ha hl hh ↦ Item.exists_integerKey hf ha hl hh, fun o es ↦ exists_encode_named,
    fun o p es _ _ _ _ r _ r' hk ht hm ↦ keepsKeys_of_meaning hk ht hm,
    fun o p es b data hedn hk hm hann hrec he hi hs ↦ ⟨fun item hitem ↦ ?_, ?_⟩⟩
  · exact keepsKeys_of_decode hedn hm hann hrec he hi hs hk hitem
  · exact exists_decode_named hedn hm hann hrec he hi hs

/-- The keys `-1`, which is an integer on the wire, and `-0`, which is a string there. -/
theorem integer_keys_negative :
    let o : Options := { flags := .standard ||| .intKey }
    let p : Decoder.Options := { flags := .standard ||| .intKey }
    let es : List (Octets × Item) := [([0x2D, 0x31], .null), ([0x2D, 0x30], .bool true)]
    let b : Octets := [0xA2, 0x20, 0xF6, 0x42, 0x2D, 0x30, 0xF5]
    integerKey? [0x2D, 0x31] = some (-1) ∧ integerKey? [0x2D, 0x30] = none ∧
      encode (.map (es.map named)) o = .ok b ∧
      ∃ item, decode b p = .ok item ∧ KeepsKeys o es item := by
  intro o p es b
  have he : encode (.map (es.map named)) o = .ok b := by cbv
  have hes : ∀ e ∈ es, e.1.head? ≠ some 0 ∧ ∃ a : Scalar, e.2 = a.item := by
    refine List.forall_mem_cons.2 ⟨⟨by decide, .null, rfl⟩, ?_⟩
    exact List.forall_mem_cons.2 ⟨⟨by decide, .bool true, rfl⟩, List.forall_mem_nil _⟩
  have h := integer_keys.2.2.2.2.2.2 o p es b b (by decide) (by decide) (by decide)
    (fun h ↦ absurd h (by decide)) (.inl rfl) he rfl (by decide)
  have hread : ReadsKeys o p := ⟨by decide, fun _ ↦ by decide, fun h ↦ absurd h (by decide),
    fun _ ↦ by decide, fun h ↦ absurd h (by decide)⟩
  obtain ⟨item, hitem⟩ := h.2 hread (by decide) (by decide) (fun h ↦ absurd h (by decide)) hes
  exact ⟨by cbv, by cbv, he, item, hitem, h.1 item hitem⟩

/-- Where keys may be any items, an integer key is left as it is. -/
theorem mapKey_asArray :
    ¬ ∀ (f : Flags) (b : Octets) (n : Int), f.contains .intKey = true → integerKey? b = some n →
      (Item.ofInt n).mapKey f = .ok (.string b) := by
  intro h
  have hkey : integerKey? [0x31] = some 1 := by cbv
  have h := h (.intKey ||| .mapAsArray) [0x31] 1 (by decide) hkey
  cases h

end Cbor
