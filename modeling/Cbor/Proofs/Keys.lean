import Mathlib
import Cbor.Proofs.Atom
import Cbor.Proofs.Decoder.Formed
import Cbor.Proofs.Item.Entries

namespace Cbor

open Decoder (Options)
open Assembly

namespace Item

instance (ps : List (Item × Item)) : Decidable (Unrepeated ps) :=
  inferInstanceAs (Decidable (ps.Pairwise fun p q ↦ (p.1 == q.1) = false))

def ofPairs (f : Flags) (ps : List (Item × Item)) : Except Fault Item :=
  if f.contains .mapNoDupKey ∧ ¬ Unrepeated ps then .error .duplicateKey
  else .ok (.map (gather f #[] ps).toList)

/-- `r` is right as the outcome of reading a map with the pairs `ps`. -/
structure Gathers (f : Flags) (ps : List (Item × Item)) (r : Except Fault Item) : Prop where
  accepted : (∃ item, r = .ok item) ↔ (f.contains .mapNoDupKey = true → Unrepeated ps)
  refused : f.contains .mapNoDupKey = true → ¬ Unrepeated ps → r = .error .duplicateKey
  merged : f.contains .mapAsArray = false → ∃ qs : List (Octets × Item), ps = qs.map named ∧
    ∀ item, r = .ok item → ∃ es, item = .map (es.map named) ∧ Merges qs es
  kept : f.contains .mapAsArray = true → ∀ item, r = .ok item → item = .map ps

theorem gathers_ofPairs {f : Flags} {ps : List (Item × Item)}
    (hn : f.contains .mapAsArray = false → ∃ qs : List (Octets × Item), ps = qs.map named) :
    Gathers f ps (ofPairs f ps) where
  accepted := by
    unfold ofPairs
    split
    · rename_i h
      simpa using h
    · rename_i h
      simpa using h
  refused hf hu := if_pos ⟨hf, hu⟩
  merged hf := by
    obtain ⟨qs, rfl⟩ := hn hf
    refine ⟨qs, rfl, fun item hi ↦ ?_⟩
    obtain ⟨es, he, hm⟩ := exists_gather_named hf qs
    unfold ofPairs at hi
    split at hi
    · cases hi
    · cases hi
      exact ⟨es, by rw [he], hm⟩
  kept hf item hi := by
    unfold ofPairs at hi
    split at hi
    · cases hi
    · cases hi
      simp [gather_of_mapAsArray hf]

theorem head?_encode_ofInt (n : Int) : (Utf8.encode (Numeral.ofInt n)).head? ≠ some 0 := by
  refine Utf8.head?_encode_ne_zero ?_
  cases n with
  | ofNat n =>
    intro h
    have hd := Numeral.isDigit_of_mem_ofNat _ (List.mem_of_head? h)
    exact absurd hd (by decide)
  | negSucc n =>
    rw [Numeral.ofInt, List.head?_cons]
    decide

theorem item_integer (n : Int) : (Scalar.integer n).item = ofInt n := by cases n <;> rfl

theorem mapKey_ofInt {f : Flags} (ha : f.contains .mapAsArray = false)
    (hf : f.contains .intKey = true) {n : Int} (hl : -18446744073709551616 ≤ n)
    (hh : n < 18446744073709551616) :
    (ofInt n).mapKey f = .ok (.string (Utf8.encode (Numeral.ofInt n))) := by
  rw [mapKey, ha, ← item_integer, Encoder.keyOctets_integer hf hl hh]
  simp [head?_encode_ofInt]

theorem string_of_mapKey_ofString {f : Flags} (ha : f.contains .mapAsArray = false)
    {isText : Bool} {b : Octets} {key : Item} (h : (ofString isText b).mapKey f = .ok key) :
    key = .string b := by
  rw [mapKey, ha, if_neg Bool.false_ne_true] at h
  obtain ⟨c, hc, h⟩ := bind_eq_ok.1 h
  have hb : b = c := by
    cases isText <;>
    · simp only [ofString, keyOctets] at hc
      split at hc
      · exact Except.ok.inj hc
      · cases hc
  split at h
  · cases h
  · rw [hb]
    exact (Except.ok.inj h).symm

theorem mapKey_ofInt_eq_iff {f : Flags} (ha : f.contains .mapAsArray = false)
    (hf : f.contains .intKey = true) {n : Int} (hl : -18446744073709551616 ≤ n)
    (hh : n < 18446744073709551616) {isText : Bool} {b : Octets} {key : Item}
    (h : (ofString isText b).mapKey f = .ok key) :
    (ofInt n).mapKey f = .ok key ↔ b = Utf8.encode (Numeral.ofInt n) := by
  rw [mapKey_ofInt ha hf hl hh, string_of_mapKey_ofString ha h, Except.ok.injEq, string.injEq]
  exact eq_comm

end Item

namespace Wire

variable {o : Options}

/-- The pairs of a map, with keys as entries have them, if each key and value is accepted where it
stands. -/
def pairs (o : Options) (s : Scope) :
    List (Wire × Wire) → Except Fault (List (Item × Item) × Scope)
  | [] => .ok ([], s)
  | (k, v) :: es => do
    let (key, s) ← k.meaning o false s
    let key ← key.mapKey o.flags
    let (value, s) ← v.meaning o false s
    let (ps, s) ← pairs o s es
    return ((key, value.native o.flags) :: ps, s)

theorem pairs_cons {k v : Wire} {es : List (Wire × Wire)} {s u : Scope} {ps : List (Item × Item)}
    (h : pairs o s ((k, v) :: es) = .ok (ps, u)) :
    ∃ raw s₁ key value s₂ ps', k.meaning o false s = .ok (raw, s₁) ∧
      raw.mapKey o.flags = .ok key ∧ v.meaning o false s₁ = .ok (value, s₂) ∧
      pairs o s₂ es = .ok (ps', u) ∧ ps = (key, value.native o.flags) :: ps' := by
  simp only [pairs, bind_eq_ok] at h
  obtain ⟨⟨raw, s₁⟩, hk, key, hkey, ⟨value, s₂⟩, hv, ⟨ps', u'⟩, hes, h⟩ := h
  cases h
  exact ⟨raw, s₁, key, value, s₂, ps', hk, hkey, hv, hes, rfl⟩

theorem exists_named_of_pairs (ha : o.flags.contains .mapAsArray = false)
    {es : List (Wire × Wire)} {s u : Scope} {ps : List (Item × Item)}
    (h : pairs o s es = .ok (ps, u)) : ∃ qs : List (Octets × Item), ps = qs.map Item.named := by
  induction es generalizing s ps with
  | nil =>
    cases h
    exact ⟨[], rfl⟩
  | cons e es ih =>
    obtain ⟨raw, s₁, key, value, s₂, ps', -, hkey, -, hes, rfl⟩ := pairs_cons h
    obtain ⟨b, rfl, -⟩ := string_of_mapKey ha hkey
    obtain ⟨qs, rfl⟩ := ih hes
    exact ⟨(b, value.native o.flags) :: qs, rfl⟩

theorem length_of_pairs {es : List (Wire × Wire)} {s u : Scope} {ps : List (Item × Item)}
    (h : pairs o s es = .ok (ps, u)) : ps.length = es.length := by
  induction es generalizing s ps with
  | nil =>
    cases h
    rfl
  | cons e es ih =>
    obtain ⟨raw, s₁, key, value, s₂, ps', -, -, -, hes, rfl⟩ := pairs_cons h
    rw [List.length_cons, List.length_cons, ih hes]

theorem growth_of_lt {indefinite : Bool} {size : Nat}
    (h : indefinite = true → size < o.maxSize) : growth o indefinite size = .ok () := by
  unfold growth
  split
  · exact if_pos (h ‹_›)
  · rfl

theorem entryKey_eq {indefinite : Bool} {done : Array (Item × Item)} {raw key : Item}
    (hg : indefinite = true → done.size < o.maxSize) (hkey : raw.mapKey o.flags = .ok key) :
    entryKey o indefinite done raw =
      if o.flags.contains .mapNoDupKey = true ∧ done.any (fun e ↦ e.1 == key) then
        .error .duplicateKey
      else .ok key := by
  rw [entryKey, growth_of_lt hg, ok_bind, hkey, ok_bind]
  split <;> rfl

theorem meaningEntries_repeated (hf : o.flags.contains .mapNoDupKey = true) {indefinite : Bool}
    {done : Array (Item × Item)} {s s' : Scope} {k v : Wire} {es : List (Wire × Wire)}
    {raw key : Item} (hg : indefinite = true → done.size < o.maxSize)
    (hk : k.meaning o false s = .ok (raw, s')) (hkey : raw.mapKey o.flags = .ok key)
    (hd : ∃ e ∈ done, (e.1 == key) = true) :
    meaningEntries o indefinite done s ((k, v) :: es) = .error .duplicateKey := by
  have ha : done.any (fun e ↦ e.1 == key) = true := Array.any_eq_true'.2 hd
  simp only [meaningEntries, hk, ok_bind, entryKey_eq hg hkey, if_pos (And.intro hf ha), error_bind]

/-- Entry by entry the pairs are gathered; the room that the last one finds was there for all. -/
theorem meaningEntries_eq {indefinite : Bool} {done : Array (Item × Item)}
    {es : List (Wire × Wire)} {s u : Scope} {ps : List (Item × Item)}
    (h : pairs o s es = .ok (ps, u))
    (hd : o.flags.contains .mapNoDupKey = true → Item.Unrepeated done.toList)
    (hroom : indefinite = true → ps ≠ [] →
      (Item.gather o.flags done ps.dropLast).size < o.maxSize) :
    meaningEntries o indefinite done s es =
      if o.flags.contains .mapNoDupKey = true ∧ ¬ Item.Unrepeated (done.toList ++ ps) then
        .error .duplicateKey
      else .ok (Item.gather o.flags done ps, u) := by
  induction es generalizing done s ps with
  | nil =>
    cases h
    rw [if_neg (by simpa using hd)]
    rfl
  | cons e es ih =>
    obtain ⟨raw, s₁, key, value, s₂, ps, hk, hkey, hv, hes, rfl⟩ := pairs_cons h
    have hg : indefinite = true → done.size < o.maxSize := fun hi ↦
      Nat.lt_of_le_of_lt (Item.size_le_gather done _) (hroom hi (by simp))
    by_cases hr : o.flags.contains .mapNoDupKey = true ∧ done.any (fun e ↦ e.1 == key) = true
    · obtain ⟨hf, ha⟩ := hr
      obtain ⟨e, he, hek⟩ := Array.any_eq_true'.1 ha
      have hrep : ¬ Item.Unrepeated (done.toList ++ (key, value.native o.flags) :: ps) := by
        intro hu
        have := (List.pairwise_append.1 hu).2.2 e (Array.mem_toList_iff.2 he) _ List.mem_cons_self
        exact Bool.false_ne_true (this.symm.trans hek)
      rw [meaningEntries_repeated hf hg hk hkey ⟨e, he, hek⟩, if_pos ⟨hf, hrep⟩]
    · have hfresh : o.flags.contains .mapNoDupKey = true → ∀ e ∈ done, (e.1 == key) = false :=
        fun hf e he ↦ Bool.eq_false_iff.2 fun hek ↦ hr ⟨hf, Array.any_eq_true'.2 ⟨e, he, hek⟩⟩
      have hnew : o.flags.contains .mapNoDupKey = true →
          insertEntry o.flags done key (value.native o.flags) =
            done.push (key, value.native o.flags) := fun hf ↦
        Item.insertEntry_of_unrepeated (p := (key, _)) (hfresh hf)
      have hiff : (o.flags.contains .mapNoDupKey = true ∧ ¬ Item.Unrepeated
          ((insertEntry o.flags done key (value.native o.flags)).toList ++ ps)) ↔
          o.flags.contains .mapNoDupKey = true ∧
            ¬ Item.Unrepeated (done.toList ++ (key, value.native o.flags) :: ps) :=
        and_congr_right fun hf ↦ by rw [hnew hf]; simp
      simp only [meaningEntries, hk, ok_bind, entryKey_eq hg hkey, if_neg hr, hv]
      rw [ih hes, if_congr hiff rfl rfl]
      · rfl
      · intro hf
        rw [hnew hf, Array.toList_push, Item.Unrepeated, List.pairwise_append]
        exact ⟨hd hf, by simp, by simpa using hfresh hf⟩
      · intro hi hne
        have := hroom hi (by simp)
        rwa [List.dropLast_cons_of_ne_nil hne] at this

theorem pairs_of_meaningEntries {indefinite : Bool} {done : Array (Item × Item)}
    {es : List (Wire × Wire)} {s : Scope} {r : Array (Item × Item) × Scope}
    (h : meaningEntries o indefinite done s es = .ok r) :
    ∃ ps, pairs o s es = .ok (ps, r.2) ∧ r.1 = Item.gather o.flags done ps := by
  induction es generalizing done s with
  | nil =>
    cases h
    exact ⟨[], rfl, rfl⟩
  | cons e es ih =>
    simp only [meaningEntries, bind_eq_ok] at h
    obtain ⟨⟨raw, s₁⟩, hk, key, hkey, ⟨value, s₂⟩, hv, h⟩ := h
    obtain ⟨ps, hps, hr⟩ := ih h
    simp only [entryKey, bind_eq_ok] at hkey
    obtain ⟨_, _, key', hkey', hkey⟩ := hkey
    split at hkey
    · cases hkey
    · cases hkey
      refine ⟨(key, value.native o.flags) :: ps, ?_, hr⟩
      simp only [pairs, hk, hkey', hv, hps, ok_bind, pure_eq_ok]

theorem meaningEntries_append (indefinite : Bool) (done : Array (Item × Item)) (s : Scope)
    (es es' : List (Wire × Wire)) :
    meaningEntries o indefinite done s (es ++ es') = meaningEntries o indefinite done s es >>=
      fun r ↦ meaningEntries o indefinite r.1 r.2 es' := by
  induction es generalizing done s with
  | nil => rfl
  | cons e es ih => simp only [List.cons_append, meaningEntries, ih, bind_assoc]

/-- The pairs decide what a map is, if the last one finds room. -/
theorem meaning_map {indefinite : Bool} {es : List (Wire × Wire)} {s t u : Scope}
    {ps : List (Item × Item)} (ht : s.enter o.maxDepth = .ok t) (h : pairs o t es = .ok (ps, u))
    (hroom : indefinite = true → ps ≠ [] →
      (Item.gather o.flags #[] ps.dropLast).size < o.maxSize) (shared : Bool) :
    (map indefinite es).meaning o shared s = (·, u.leave) <$> Item.ofPairs o.flags ps := by
  simp only [meaning, ht, ok_bind, meaningEntries_eq h (fun _ ↦ List.Pairwise.nil) hroom,
    Item.ofPairs, List.nil_append]
  split <;> rfl

theorem meaning_map_repeated (hf : o.flags.contains .mapNoDupKey = true) {indefinite : Bool}
    {before after : List (Wire × Wire)} {k v : Wire} {s t u u' : Scope} {ps : List (Item × Item)}
    {raw key : Item} (ht : s.enter o.maxDepth = .ok t) (h : pairs o t before = .ok (ps, u))
    (hps : Item.Unrepeated ps) (hk : k.meaning o false u = .ok (raw, u'))
    (hkey : raw.mapKey o.flags = .ok key) (hd : ∃ e ∈ ps, (e.1 == key) = true)
    (hroom : indefinite = true → ps.length < o.maxSize) (shared : Bool) :
    (map indefinite (before ++ (k, v) :: after)).meaning o shared s = .error .duplicateKey := by
  have hg : indefinite = true → ps ≠ [] →
      (Item.gather o.flags #[] ps.dropLast).size < o.maxSize := by
    intro hi _
    refine Nat.lt_of_le_of_lt (Item.size_gather_le _ _) ?_
    have := hroom hi
    simp only [List.length_dropLast, List.size_toArray, List.length_nil]
    omega
  have hbefore : meaningEntries o indefinite #[] t before = .ok (ps.toArray, u) := by
    rw [meaningEntries_eq h (fun _ ↦ List.Pairwise.nil) hg, if_neg (by simpa using fun _ ↦ hps),
      Item.gather_of_unrepeated (by simpa using hps)]
    simp
  have hrest : meaningEntries o indefinite ps.toArray u ((k, v) :: after) = .error .duplicateKey :=
    meaningEntries_repeated hf (by simpa using hroom) hk hkey (by simpa using hd)
  simp only [meaning, ht, ok_bind, meaningEntries_append, hbefore, hrest, error_bind]

end Wire

open Wire

variable {o : Options}

/-- Octets that are held have room for all pairs. -/
theorem decode_map_gathers (hm : o.maxSize < UInt64.size) {indefinite : Bool} {data : Octets}
    {es : List (Wire × Wire)} {ps : List (Item × Item)} {u : Scope} (hc : o.check = .ok ())
    (hv : o.flags.contains .edn = false) (hd : 0 < o.maxDepth)
    (hs : (data.window o.offset o.length).length ≤ o.maxSize)
    (hw : (map indefinite es).Spelled (data.window o.offset o.length))
    (h : pairs o { depth := 1 } es = .ok (ps, u)) : Item.Gathers o.flags ps (decode data o) := by
  have ht : ({} : Scope).enter o.maxDepth = .ok { depth := 1 } := if_pos hd
  have hroom : indefinite = true → ps ≠ [] →
      (Item.gather o.flags #[] ps.dropLast).size < o.maxSize := by
    intro _ hne
    have hes := length_le_lexemesEntries es
    have hall : (lexemesEntries es).length ≤ (map indefinite es).lexemes.length := by
      simp only [lexemes, List.length_append, List.length_cons]
      omega
    have hlex := length_le_spell (map indefinite es).lexemes
    have hspell := hw.length_spell_le
    have hlen := length_of_pairs h
    have hpos := List.length_pos_iff.2 hne
    refine Nat.lt_of_le_of_lt (Item.size_gather_le _ _) ?_
    simp only [List.length_dropLast, List.size_toArray, List.length_nil]
    omega
  have hu : (map indefinite es).unprefixed o = map indefinite es := rfl
  have hr : decode data o = Item.ofPairs o.flags ps := by
    rw [decode_meaning hw hs hm hv, hc, ok_bind, hu, meaning_map ht h hroom, Item.ofPairs]
    split <;> rfl
  exact hr ▸ Item.gathers_ofPairs fun ha ↦ exists_named_of_pairs ha h

theorem assemble_map_gathers {indefinite : Bool} {es : List (Wire × Wire)} {ps : List (Item × Item)}
    {stack : List Frame} {s t u : Scope} (hl : (map indefinite es).octets.length < UInt64.size)
    (hout : Outside stack) (ht : s.enter o.maxDepth = .ok t) (h : pairs o t es = .ok (ps, u))
    (hroom : indefinite = true → ps ≠ [] → (Item.gather o.flags #[] ps.dropLast).size < o.maxSize) :
    ∃ r, Item.Gathers o.flags ps r ∧ ∀ ls : List Lexeme,
      assemble o ⟨stack, s⟩ ((map indefinite es).lexemes ++ ls) =
        r >>= fun item ↦ complete o stack u.leave item >>= resume o ls := by
  refine ⟨Item.ofPairs o.flags ps, Item.gathers_ofPairs fun ha ↦ exists_named_of_pairs ha h,
    fun ls ↦ ?_⟩
  rw [assemble_lexemes _ hl stack hout, meaning_map ht h hroom, Item.ofPairs]
  split <;> rfl

theorem assemble_map_repeated {indefinite : Bool} {before after : List (Wire × Wire)} {k v : Wire}
    {ps : List (Item × Item)} {raw key : Item} {stack : List Frame} {s t u u' : Scope}
    (hf : o.flags.contains .mapNoDupKey = true)
    (hl : (map indefinite (before ++ (k, v) :: after)).octets.length < UInt64.size)
    (hout : Outside stack) (ht : s.enter o.maxDepth = .ok t)
    (h : pairs o t before = .ok (ps, u)) (hps : Item.Unrepeated ps)
    (hk : k.meaning o false u = .ok (raw, u')) (hkey : raw.mapKey o.flags = .ok key)
    (hd : ∃ e ∈ ps, (e.1 == key) = true) (hroom : indefinite = true → ps.length < o.maxSize)
    (ls : List Lexeme) :
    assemble o ⟨stack, s⟩ ((map indefinite (before ++ (k, v) :: after)).lexemes ++ ls) =
      .error .duplicateKey := by
  rw [assemble_lexemes _ hl stack hout, meaning_map_repeated hf ht h hps hk hkey hd hroom,
    error_bind]

/-- A map is made of the pairs that stand in it, both as the one item of its octets and inside of
whatever is open when its lexemes come. Where no key may come twice, nothing behind the first
repetition counts. -/
theorem map_gathers (hm : o.maxSize < UInt64.size) (indefinite : Bool) :
    (∀ (data : Octets) (es : List (Wire × Wire)) (ps : List (Item × Item)) (u : Scope),
      o.check = .ok () → o.flags.contains .edn = false → 0 < o.maxDepth →
      (data.window o.offset o.length).length ≤ o.maxSize →
      (map indefinite es).Spelled (data.window o.offset o.length) →
      pairs o { depth := 1 } es = .ok (ps, u) → Item.Gathers o.flags ps (decode data o)) ∧
    (∀ (es : List (Wire × Wire)) (ps : List (Item × Item)) (stack : List Frame) (s t u : Scope),
      (map indefinite es).octets.length < UInt64.size → Outside stack →
      s.enter o.maxDepth = .ok t → pairs o t es = .ok (ps, u) →
      (indefinite = true → ps ≠ [] → (Item.gather o.flags #[] ps.dropLast).size < o.maxSize) →
      ∃ r, Item.Gathers o.flags ps r ∧ ∀ ls : List Lexeme,
        assemble o ⟨stack, s⟩ ((map indefinite es).lexemes ++ ls) =
          r >>= fun item ↦ complete o stack u.leave item >>= resume o ls) ∧
    (∀ (before after : List (Wire × Wire)) (k v : Wire) (ps : List (Item × Item)) (raw key : Item)
      (stack : List Frame) (s t u u' : Scope) (ls : List Lexeme),
      o.flags.contains .mapNoDupKey = true →
      (map indefinite (before ++ (k, v) :: after)).octets.length < UInt64.size → Outside stack →
      s.enter o.maxDepth = .ok t → pairs o t before = .ok (ps, u) → Item.Unrepeated ps →
      k.meaning o false u = .ok (raw, u') → raw.mapKey o.flags = .ok key →
      (∃ e ∈ ps, (e.1 == key) = true) → (indefinite = true → ps.length < o.maxSize) →
      assemble o ⟨stack, s⟩ ((map indefinite (before ++ (k, v) :: after)).lexemes ++ ls) =
        .error .duplicateKey) ∧
    ∀ (n : Int) (isText : Bool) (b : Octets) (key : Item),
      o.flags.contains .mapAsArray = false → o.flags.contains .intKey = true →
      -18446744073709551616 ≤ n → n < 18446744073709551616 →
      (Item.ofString isText b).mapKey o.flags = .ok key →
      ((Item.ofInt n).mapKey o.flags = .ok key ↔ b = Utf8.encode (Numeral.ofInt n)) := by
  exact ⟨fun data es ps u hc hv hd hs hw h ↦ decode_map_gathers hm hc hv hd hs hw h,
    fun es ps stack s t u hl hout ht h hroom ↦ assemble_map_gathers hl hout ht h hroom,
    fun before after k v ps raw key stack s t u u' ls hf hl hout ht h hps hk hkey hd hroom ↦
      assemble_map_repeated hf hl hout ht h hps hk hkey hd hroom ls,
    fun n isText b key ha hf hl hh h ↦ Item.mapKey_ofInt_eq_iff ha hf hl hh h⟩

/-- The keys `1`, `"1"` and `"b"`, of which the first two are one. -/
theorem map_gathers_spelled :
    let o : Options := { flags := .text ||| .keyText ||| .intKey }
    let unrepeated : Options := { flags := .text ||| .keyText ||| .intKey ||| .mapNoDupKey }
    let data : Octets := [0xBF, 0x01, 0x00, 0x61, 0x31, 0x02, 0x61, 0x62, 0xF5, 0xFF]
    let ps : List (Item × Item) :=
      [(.string [0x31], .unsigned 0), (.string [0x31], .unsigned 2), (.string [0x62], .bool true)]
    Item.Gathers o.flags ps (decode data o) ∧ (∃ item, decode data o = .ok item) ∧
      decode data unrepeated = .error .duplicateKey := by
  intro o unrepeated data ps
  let es : List (Wire × Wire) := [(.scalar (.unsigned 1), .scalar (.unsigned 0)),
    (.string true [0x31], .scalar (.unsigned 2)), (.string true [0x62], .scalar (.bool true))]
  have hw : (map true es).Spelled data :=
    Spelling.of_fits (n := 10) (fits_of_mem (map true es) (by decide)) (by decide)
  have hg := (map_gathers (o := o) (by decide) true).1 data es ps { depth := 1 } (by decide)
    (by decide) (by decide) (by decide) hw (by cbv)
  have hr := (map_gathers (o := unrepeated) (by decide) true).1 data es ps { depth := 1 }
    (by decide) (by decide) (by decide) (by decide) hw (by cbv)
  exact ⟨hg, hg.accepted.2 (fun hf ↦ absurd hf (by decide)),
    hr.refused (by decide) (by decide)⟩

end Cbor
