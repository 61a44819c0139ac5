import Cbor.Command.Compose
import Cbor.Proofs.Encoder.Order
import Cbor.Proofs.Json.Valid
import Cbor.Proofs.Text.Utf8
import Cbor.Proofs.Wire.Literal
import Cbor.Proofs.Wire.Reading

namespace Cbor

open Command (Inspect)
open Encoder (Options EntryTrees checkDepth entryTrees sortedTrees tree treeAll treeEntries)

/-- Native strings are text, also as keys, and no float is made shorter that would lose anything. -/
structure Encoder.Options.Textual (o : Options) : Prop where
  text : o.flags.contains .text = true
  keyText : o.flags.contains .keyText = true
  intKey : o.flags.contains .intKey = false
  float16 : o.flags.contains .float16 = false
  float32 : o.flags.contains .float32 = false

namespace Json

/-- What is read from a tree, as JSON, without regard to limits. -/
def ReadFrom (w : Wire) (j : Json) : Prop :=
  ∃ raw, w.datum.read Inspect.defaults = .ok raw ∧ (raw.native Inspect.defaults.flags).toJson = j

/-- `w` stands for `j`: it is read as `j` and takes no more levels. -/
structure Carries (j : Json) (w : Wire) : Prop where
  literal : w.Literal
  nesting_le : w.nesting ≤ j.nesting
  readFrom : ReadFrom w j

theorem carries_scalar {j : Json} {a : Scalar}
    (h : (a.item.native Inspect.defaults.flags).toJson = j) : Carries j (.scalar a) :=
  ⟨Wire.literal_scalar a, Nat.zero_le _, _, rfl, h⟩

theorem carries_int {n : Int} (hl : -9223372036854775808 ≤ n) (hh : n < 18446744073709551616) :
    Carries (number (.int n)) (.scalar (.integer n)) := by
  refine carries_scalar ?_
  cases n with
  | ofNat n =>
    have hn : (UInt64.ofNat n).toNat = n := UInt64.toNat_ofNat_of_lt' (Int.ofNat_lt.1 hh)
    show ofInt (UInt64.ofNat n).toNat = _
    rw [hn]
    exact if_pos ⟨hl, hh⟩
  | negSucc n =>
    have hn : (UInt64.ofNat n).toNat = n := UInt64.toNat_ofNat_of_lt' (by simp [UInt64.size]; omega)
    show ofInt (-1 - (UInt64.ofNat n).toNat) = _
    rw [hn, show (-1 - n : Int) = .negSucc n by omega]
    exact if_pos ⟨hl, hh⟩

/-- A finite double is what it is read as, however few octets it takes. -/
theorem toJson_shortestFloat {bits : UInt64} (h : Binary.double.isFinite bits.toNat = true) :
    ((Scalar.shortestFloat bits).item.native Inspect.defaults.flags).toJson =
      number (.double bits) := by
  have hnan : Binary.double.isNaN bits.toNat = false := by
    simp only [Binary.Format.isFinite, Binary.Format.isNaN, decide_eq_true_eq,
      decide_eq_false_iff_not] at h ⊢
    omega
  have hd : ofDouble bits = number (.double bits) := if_pos h
  simp only [Scalar.shortestFloat, hnan, Bool.false_eq_true, if_false]
  split
  case isTrue hw => exact (congrArg ofDouble hw).trans hd
  case isFalse =>
    split
    case isTrue hw => exact (congrArg ofDouble hw).trans hd
    case isFalse => exact hd

theorem carries_double {o : Options} (ho : o.Textual) {bits : UInt64}
    (h : Binary.double.isFinite bits.toNat = true) :
    Carries (number (.double bits)) (.scalar (.nativeFloat o bits)) := by
  refine carries_scalar ?_
  simp only [Scalar.nativeFloat, ho.float16, ho.float32, Bool.false_and, Bool.or_false,
    Bool.false_eq_true, if_false]
  split
  · exact toJson_shortestFloat h
  · exact if_pos h

theorem readFrom_text (s : String) :
    (Wire.string true (Utf8.encode s.toList)).datum.read Inspect.defaults =
      .ok (.text (Utf8.encode s.toList)) := by
  have hc : Assembly.checkText Inspect.defaults (Utf8.encode s.toList) = .ok () :=
    if_pos (.inr (Utf8.isValid_encode _))
  rw [Wire.datum, Wire.read_string_singleton, if_pos rfl, hc]
  rfl

theorem toJson_string (s : String) : (Item.string (Utf8.encode s.toList)).toJson = .string s := by
  rw [Item.toJson, Utf8.decode?_encode]
  exact congrArg Json.string String.ofList_toList

theorem carries_string (s : String) :
    Carries (.string s) (.string true (Utf8.encode s.toList)) :=
  ⟨Wire.literal_string true _, Nat.zero_le _, _, readFrom_text s, toJson_string s⟩

theorem carries_all {js : List Json} {ws : List Wire} (h : List.Forall₂ Carries js ws) :
    (∀ w ∈ ws, w.Literal) ∧ Datum.nestingAll (Wire.datumAll ws) ≤ nestingAll js ∧
      ∃ items, Datum.readAll Inspect.defaults (Wire.datumAll ws) = .ok items ∧
        Item.toJsons items = js := by
  induction h with
  | nil => exact ⟨nofun, Nat.le_refl _, [], rfl, rfl⟩
  | cons hw _ ih =>
    obtain ⟨hl, hn, items, hrs, hjs⟩ := ih
    obtain ⟨raw, hr, hj⟩ := hw.readFrom
    refine ⟨List.forall_mem_cons.2 ⟨hw.literal, hl⟩, max_le_max hw.nesting_le hn,
      raw.native Inspect.defaults.flags :: items, ?_, by rw [Item.toJsons, hj, hjs]⟩
    rw [Wire.datumAll, Datum.readAll, hr, ok_bind, hrs]
    rfl

theorem carries_array {js : List Json} {ws : List Wire} (h : List.Forall₂ Carries js ws) :
    Carries (.array js) (.array false ws) := by
  obtain ⟨hl, hn, items, hr, hj⟩ := carries_all h
  refine ⟨Wire.literal_array hl, Nat.succ_le_succ hn, .array items, ?_, congrArg Json.array hj⟩
  rw [Wire.datum, Datum.read, hr]
  rfl

def entryKey (m : String × Json) : Item := .string (Utf8.encode m.1.toList)

def CarriesMember (m : String × Json) (e : Wire × Wire) : Prop :=
  e.1 = .string true (Utf8.encode m.1.toList) ∧ Carries m.2 e.2

theorem readEntries_cons_of_carries {m : String × Json} {e : Wire × Wire} (h : CarriesMember m e)
    {done : Array (Item × Item)} (hz : (Utf8.encode m.1.toList).head? ≠ some 0)
    (hd : ∀ e ∈ done, (e.1 == entryKey m) = false) :
    ∃ item : Item, item.toJson = m.2 ∧ ∀ es,
      Datum.readEntries Inspect.defaults done ((e.1.datum, e.2.datum) :: es) =
        Datum.readEntries Inspect.defaults (done.push (entryKey m, item)) es := by
  have ha : Inspect.defaults.flags.contains .mapAsArray = false := by decide
  have hu : Inspect.defaults.flags.contains .mapNoDupKey = false := by decide
  have ht : Inspect.defaults.flags.contains .keyText = true := by decide
  obtain ⟨raw, hr, hj⟩ := h.2.readFrom
  have hkey : (Item.text (Utf8.encode m.1.toList)).mapKey Inspect.defaults.flags =
      .ok (entryKey m) := by
    simp only [Item.mapKey, ha, Item.keyOctets, ht, if_true, ok_bind, if_neg hz,
      Bool.false_eq_true, if_false]
    rfl
  refine ⟨raw.native Inspect.defaults.flags, hj, fun es ↦ ?_⟩
  simp only [Datum.readEntries, h.1, readFrom_text, ok_bind, hkey, hu, Bool.false_eq_true,
    false_and, if_false, hr, Assembly.insertEntry_of_new ha hd]

theorem readEntries_of_carries {ms : List (String × Json)} {es : List (Wire × Wire)}
    (h : List.Forall₂ CarriesMember ms es) (done : Array (Item × Item))
    (hk : Item.Keyed (done.toList.map Prod.fst ++ ms.map entryKey)) :
    ∃ entries, Datum.readEntries Inspect.defaults done (Wire.datumEntries es) =
      .ok (done ++ entries) ∧ Item.toMembers entries.toList = ms := by
  induction h generalizing done with
  | nil => exact ⟨#[], by simp [Wire.datumEntries, Datum.readEntries], rfl⟩
  | @cons m e ms es hm _ ih =>
    have hd : ∀ e ∈ done, (e.1 == entryKey m) = false := fun e he ↦
      hk.ne_of_mem e.1 (List.mem_map_of_mem he.val)
    obtain ⟨b, hb, hz⟩ := hk.string_of_mem (entryKey m) (by simp)
    obtain rfl := Item.string.inj hb
    obtain ⟨item, hj, hread⟩ := readEntries_cons_of_carries hm hz hd
    obtain ⟨entries, hrs, hms⟩ := ih (done.push (entryKey m, item)) (by simpa using hk)
    refine ⟨#[(entryKey m, item)] ++ entries, ?_, ?_⟩
    · rw [Wire.datumEntries, hread, hrs]
      simp
    · simp only [Array.toList_append, List.cons_append, List.nil_append, Item.toMembers, hms, hj,
        entryKey, toJson_string, keyText]

theorem carries_members {ms : List (String × Json)} {es : List (Wire × Wire)}
    (h : List.Forall₂ CarriesMember ms es) : (∀ e ∈ es, e.1.Literal ∧ e.2.Literal) ∧
      Datum.nestingEntries (Wire.datumEntries es) ≤ nestingMembers ms := by
  induction h with
  | nil => exact ⟨nofun, Nat.le_refl _⟩
  | @cons m e ms es hm _ ih =>
    have hk : e.1.Literal := hm.1 ▸ Wire.literal_string true _
    have hn : e.1.datum.nesting = 0 := by rw [hm.1]; rfl
    have hv : e.2.datum.nesting ≤ m.2.nesting := hm.2.nesting_le
    refine ⟨List.forall_mem_cons.2 ⟨⟨hk, hm.2.literal⟩, ih.1⟩, ?_⟩
    simp only [Wire.datumEntries, Datum.nestingEntries, nestingMembers, hn]
    omega

theorem nestingMembers_perm {ms ms' : List (String × Json)} (h : ms.Perm ms') :
    nestingMembers ms = nestingMembers ms' := by
  induction h with
  | nil => rfl
  | cons m _ ih => rw [nestingMembers, nestingMembers, ih]
  | swap m n ms => simp only [nestingMembers, Nat.max_left_comm]
  | trans _ _ ih ih' => exact ih.trans ih'

theorem keyed_of_ne {ms : List (String × Json)} (hd : ms.Pairwise fun m n ↦ m.1 ≠ n.1)
    (hz : ∀ m ∈ ms, m.1.toList.head? ≠ some (Char.ofNat 0)) : Item.Keyed (ms.map entryKey) := by
  refine ⟨ms.map fun m ↦ Utf8.encode m.1.toList, by simp [entryKey], ?_, ?_⟩
  · rw [List.nodup_iff_pairwise_ne, List.pairwise_map]
    exact hd.imp fun hne h ↦ hne (String.toList_inj.1 (Utf8.encode_inj h))
  · intro b hb
    obtain ⟨m, hm, rfl⟩ := List.mem_map.1 hb
    exact Utf8.head?_encode_ne_zero (hz m hm)

theorem carries_object {ms : List (String × Json)} (hr : Rising ms) (hv : ValidMembers ms)
    {es es' : List (Wire × Wire)} (h : List.Forall₂ CarriesMember ms es) (hp : es'.Perm es) :
    Carries (.object ms) (.map false es') := by
  -- the members in the order of the entries on the wire, which sorting by octets may have changed
  obtain ⟨ms', h', hp'⟩ := List.perm_comp_forall₂ hp h.flip
  have h' := h'.flip
  obtain ⟨hl, hn⟩ := carries_members h'
  have hk : Item.Keyed (ms'.map entryKey) :=
    keyed_of_ne ((hp'.pairwise_iff fun h ↦ h.symm).2 hr.ne) fun m hm ↦
      hv.head?_ne m (hp'.mem_iff.1 hm)
  obtain ⟨entries, hread, hms⟩ := readEntries_of_carries h' #[] (by simpa using hk)
  refine ⟨Wire.literal_map hl, Nat.succ_le_succ (nestingMembers_perm hp' ▸ hn),
    .map entries.toList, ?_, ?_⟩
  · rw [Wire.datum, Datum.read, hread]
    simp
  · show ofMembers (Item.toMembers entries.toList) = _
    rw [hms, ofMembers_of_perm hp' hr]

end Json

namespace Encoder

variable {o : Options}

theorem Options.Textual.withoutReferences (ho : o.Textual) : o.withoutReferences.Textual :=
  { ho with }

theorem tree_key (ho : o.Textual) (s : String) (depth : Nat) (cells : CellTable) :
    tree o true (.string (Utf8.encode s.toList)) depth cells =
      .ok (.string true (Utf8.encode s.toList), cells) := by
  simp [tree, keyTree, textTree, ho.intKey, ho.keyText, Utf8.isValid_encode]

theorem tree_text (ho : o.Textual) (s : String) (depth : Nat) (cells : CellTable) :
    tree o false (.string (Utf8.encode s.toList)) depth cells =
      .ok (.string true (Utf8.encode s.toList), cells) := by
  simp [tree, nativeTree, textTree, ho.text, Utf8.isValid_encode]

mutual

/-- A JSON value whose levels have room is written as a tree that stands for it. -/
theorem exists_tree_toItem (ho : o.Textual) : (j : Json) → j.Valid → ∀ {depth : Nat},
    depth + j.nesting ≤ o.maxDepth →
    ∃ w, (∀ cells, tree o false j.toItem depth cells = .ok (w, cells)) ∧ j.Carries w
  | .null, _, _, _ => ⟨_, fun _ ↦ rfl, Json.carries_scalar rfl⟩
  | .bool _, _, _, _ => ⟨_, fun _ ↦ rfl, Json.carries_scalar rfl⟩
  | .number (.int n), ⟨hl, hh⟩, _, _ =>
    ⟨_, fun _ ↦ by cases n <;> rfl, Json.carries_int hl hh⟩
  | .number (.double _), hf, _, _ => ⟨_, fun _ ↦ rfl, Json.carries_double ho hf⟩
  | .string s, _, _, _ => ⟨_, tree_text ho s _, Json.carries_string s⟩
  | .array items, hj, depth, hd => by
    have hd : depth + 1 + Json.nestingAll items ≤ o.maxDepth := by
      rw [Json.nesting] at hd
      omega
    have hlt : checkDepth o depth = .ok () := checkDepth_eq_ok.2 (by omega)
    obtain ⟨ws, hws, hc⟩ := exists_treeAll_toItems ho items hj hd
    refine ⟨_, fun cells ↦ ?_, Json.carries_array hc⟩
    rw [Json.toItem, tree, hlt, ok_bind, hws]
    rfl
  | .object members, ⟨hr, hj⟩, depth, hd => by
    have hd : depth + 1 + Json.nestingMembers members ≤ o.maxDepth := by
      rw [Json.nesting] at hd
      omega
    have hlt : checkDepth o depth = .ok () := checkDepth_eq_ok.2 (by omega)
    obtain ⟨es, hes, hys, hc⟩ := exists_treeEntries_toEntries ho members hj hd
    obtain ⟨es', hp, hs⟩ := exists_sortedTrees_of_yields hys
    by_cases hcde : o.flags.contains .cde = true
    · refine ⟨_, fun cells ↦ ?_, Json.carries_object hr hj hc hp⟩
      rw [Json.toItem, tree, hlt, ok_bind, if_pos hcde, hs]
      rfl
    · refine ⟨_, fun cells ↦ ?_, Json.carries_object hr hj hc (.refl es)⟩
      rw [Json.toItem, tree, hlt, ok_bind, if_neg hcde, hes]
      rfl

theorem exists_treeAll_toItems (ho : o.Textual) : (js : List Json) → Json.ValidAll js →
    ∀ {depth : Nat}, depth + Json.nestingAll js ≤ o.maxDepth →
    ∃ ws, (∀ cells, treeAll o (Json.toItems js) depth cells = .ok (ws, cells)) ∧
      List.Forall₂ Json.Carries js ws
  | [], _, _, _ => ⟨[], fun _ ↦ rfl, .nil⟩
  | j :: js, ⟨hj, hjs⟩, depth, hd => by
    obtain ⟨hdj, hdjs⟩ : depth + j.nesting ≤ o.maxDepth ∧
        depth + Json.nestingAll js ≤ o.maxDepth := by
      rw [Json.nestingAll] at hd
      omega
    obtain ⟨w, hw, hc⟩ := exists_tree_toItem ho j hj hdj
    obtain ⟨ws, hws, hcs⟩ := exists_treeAll_toItems ho js hjs hdjs
    refine ⟨w :: ws, fun cells ↦ ?_, .cons hc hcs⟩
    simp only [Json.toItems, treeAll, hw, hws, ok_bind]
    rfl

theorem exists_treeEntries_toEntries (ho : o.Textual) : (ms : List (String × Json)) →
    Json.ValidMembers ms → ∀ {depth : Nat}, depth + Json.nestingMembers ms ≤ o.maxDepth →
    ∃ es, (∀ cells, treeEntries o (Json.toEntries ms) depth cells = .ok (es, cells)) ∧
      List.Forall₂ (EntryTrees.Yields depth) (entryTrees o (Json.toEntries ms)) es ∧
      List.Forall₂ Json.CarriesMember ms es
  | [], _, _, _ => ⟨[], fun _ ↦ rfl, .nil, .nil⟩
  | (key, j) :: ms, ⟨_, hj, hms⟩, depth, hd => by
    obtain ⟨hdj, hdms⟩ : depth + j.nesting ≤ o.maxDepth ∧
        depth + Json.nestingMembers ms ≤ o.maxDepth := by
      rw [Json.nestingMembers] at hd
      omega
    obtain ⟨w, hw, hc⟩ := exists_tree_toItem ho j hj hdj
    obtain ⟨es, hes, hys, hcs⟩ := exists_treeEntries_toEntries ho ms hms hdms
    refine ⟨(.string true (Utf8.encode key.toList), w) :: es, fun cells ↦ ?_,
      .cons ⟨?_, fun cells ↦ ?_⟩ hys, .cons ⟨rfl, hc⟩ hcs⟩
    · simp only [Json.toEntries, treeEntries, tree_key ho, hw, hes, ok_bind]
      rfl
    · simp only [tree_key ho.withoutReferences]
      rfl
    · simp only [tree_key ho, ok_bind, hw]
      rfl

end

end Encoder
end Cbor
