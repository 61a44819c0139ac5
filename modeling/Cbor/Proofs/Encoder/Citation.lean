import Cbor.Proofs.Encoder.Reference

namespace Cbor.Wire

def named? (tables : List StringTable) (content : Wire) : Option (Bool × Octets) :=
  match tables, content with
  | inner :: _, scalar (.unsigned index) => inner[index.toNat]?
  | _, _ => none

mutual

/-- The tree without namespaces, and with what they name in the place of the references in it.
`tables` holds the strings that the writer has numbered so far, the innermost namespace first. There
is no answer if a reference stands outside of all namespaces or names no string. -/
def cite (tables : List StringTable) : Wire → Option (Wire × List StringTable)
  | scalar a => some (scalar a, tables)
  | simple n valid => some (simple n valid, tables)
  | string isText b => some (string isText b, (referString isText b tables).2)
  | chunks isText parts => some (chunks isText parts, tables)
  | array indefinite items => do
    let (items, tables) ← citeAll tables items
    return (array indefinite items, tables)
  | map indefinite entries => do
    let (entries, tables) ← citeEntries tables entries
    return (map indefinite entries, tables)
  | tag number content =>
    if number = Tag.stringRefNamespace then do
      let (content, tables) ← cite (#[] :: tables) content
      return (content, tables.tail)
    else if number = Tag.stringRef then do
      let (isText, b) ← named? tables content
      return (string isText b, tables)
    else do
      let (content, tables) ← cite tables content
      return (tag number content, tables)

def citeAll (tables : List StringTable) : List Wire → Option (List Wire × List StringTable)
  | [] => some ([], tables)
  | w :: ws => do
    let (w, tables) ← cite tables w
    let (ws, tables) ← citeAll tables ws
    return (w :: ws, tables)

def citeEntries (tables : List StringTable) :
    List (Wire × Wire) → Option (List (Wire × Wire) × List StringTable)
  | [] => some ([], tables)
  | (k, v) :: es => do
    let (k, tables) ← cite tables k
    let (v, tables) ← cite tables v
    let (es, tables) ← citeEntries tables es
    return ((k, v) :: es, tables)

end

theorem exists_of_named? {tables : List StringTable} {content : Wire} {e : Bool × Octets}
    (h : named? tables content = some e) :
    ∃ inner outer index, tables = inner :: outer ∧ content = scalar (.unsigned index) ∧
      inner[index.toNat]? = some e := by
  unfold named? at h
  split at h
  · exact ⟨_, _, _, rfl, rfl, h⟩
  · cases h

theorem cite_tag {number : UInt64} {content w' : Wire} {tables tables' : List StringTable}
    (h : (tag number content).cite tables = some (w', tables')) :
    (number = Tag.stringRefNamespace ∧
      ∃ inner, content.cite (#[] :: tables) = some (w', inner) ∧ tables' = inner.tail) ∨
    (number = Tag.stringRef ∧ ∃ inner outer index isText b, tables = inner :: outer ∧
      content = scalar (.unsigned index) ∧ inner[index.toNat]? = some (isText, b) ∧
        w' = string isText b ∧ tables' = tables) ∨
    (number ≠ Tag.stringRefNamespace ∧ number ≠ Tag.stringRef ∧
      ∃ content', content.cite tables = some (content', tables') ∧ w' = tag number content') := by
  rw [cite] at h
  split at h
  case isTrue hn =>
    simp only [Option.bind_eq_bind, Option.bind_eq_some_iff] at h
    obtain ⟨⟨content', inner⟩, hc, h⟩ := h
    cases h
    exact .inl ⟨hn, inner, hc, rfl⟩
  case isFalse hn =>
    split at h
    case isTrue hn' =>
      simp only [Option.bind_eq_bind, Option.bind_eq_some_iff] at h
      obtain ⟨⟨isText, b⟩, hb, h⟩ := h
      obtain ⟨inner, outer, index, rfl, rfl, hi⟩ := exists_of_named? hb
      cases h
      exact .inr (.inl ⟨hn', inner, outer, index, isText, b, rfl, rfl, hi, rfl, rfl⟩)
    case isFalse hn' =>
      simp only [Option.bind_eq_bind, Option.bind_eq_some_iff] at h
      obtain ⟨⟨content', inner⟩, hc, h⟩ := h
      cases h
      exact .inr (.inr ⟨hn, hn', content', hc, rfl⟩)

mutual

/-- The references that replace repeated strings make no difference to the tables. -/
theorem snd_refer : (w : Wire) → ∀ {tables tables' : List StringTable} {w' : Wire},
    w.cite tables = some (w', tables') → (w.refer true tables).2 = tables'
  | scalar _, _, _, _, h | simple _ _, _, _, _, h | string _ _, _, _, _, h
  | chunks _ _, _, _, _, h => by
    cases h
    rfl
  | array _ items, tables, _, _, h => by
    simp only [cite, Option.bind_eq_bind, Option.bind_eq_some_iff] at h
    obtain ⟨⟨items', _⟩, hi, h⟩ := h
    cases h
    exact snd_referAll items hi
  | map _ entries, tables, _, _, h => by
    simp only [cite, Option.bind_eq_bind, Option.bind_eq_some_iff] at h
    obtain ⟨⟨entries', _⟩, hi, h⟩ := h
    cases h
    exact snd_referEntries entries hi
  | tag number content, tables, tables', w', h => by
    rcases cite_tag h with ⟨rfl, inner, hc, rfl⟩ |
      ⟨rfl, inner, outer, index, isText, b, rfl, rfl, hi, rfl, rfl⟩ | ⟨hns, hsr, content', hc, rfl⟩
    · rw [refer, if_pos ⟨rfl, rfl⟩]
      exact congrArg List.tail (snd_refer content hc)
    · rfl
    · rw [refer, if_neg fun hn ↦ hns hn.1]
      exact snd_refer content hc

theorem snd_referAll : (ws : List Wire) → ∀ {tables tables' : List StringTable} {ws' : List Wire},
    citeAll tables ws = some (ws', tables') → (referAll true tables ws).2 = tables'
  | [], _, _, _, h => by
    cases h
    rfl
  | w :: ws, tables, _, _, h => by
    simp only [citeAll, Option.bind_eq_bind, Option.bind_eq_some_iff] at h
    obtain ⟨⟨w', between⟩, hw, ⟨ws', after⟩, hws, h⟩ := h
    cases h
    rw [referAll, snd_refer w hw, snd_referAll ws hws]

theorem snd_referEntries : (es : List (Wire × Wire)) → ∀ {tables tables' : List StringTable}
    {es' : List (Wire × Wire)}, citeEntries tables es = some (es', tables') →
    (referEntries true tables es).2 = tables'
  | [], _, _, _, h => by
    cases h
    rfl
  | (k, v) :: es, tables, _, _, h => by
    simp only [citeEntries, Option.bind_eq_bind, Option.bind_eq_some_iff] at h
    obtain ⟨⟨k', afterKey⟩, hk, ⟨v', between⟩, hv, ⟨es', after⟩, hes, h⟩ := h
    cases h
    rw [referEntries, snd_refer k hk, snd_refer v hv, snd_referEntries es hes]

end

variable {tables : List StringTable}

theorem isSome_citeAll_cons {w : Wire} {ws : List Wire} (hw : (w.cite tables).isSome)
    (hws : (citeAll (w.refer true tables).2 ws).isSome) : (citeAll tables (w :: ws)).isSome := by
  obtain ⟨⟨w', between⟩, hw⟩ := Option.isSome_iff_exists.1 hw
  rw [snd_refer w hw] at hws
  obtain ⟨r, hr⟩ := Option.isSome_iff_exists.1 hws
  simp [citeAll, hw, hr]

theorem isSome_citeEntry {k v : Wire} (hk : (k.cite tables).isSome)
    (hv : (v.cite (k.refer true tables).2).isSome) : (citeEntries tables [(k, v)]).isSome := by
  obtain ⟨⟨k', afterKey⟩, hk⟩ := Option.isSome_iff_exists.1 hk
  rw [snd_refer k hk] at hv
  obtain ⟨r, hv⟩ := Option.isSome_iff_exists.1 hv
  simp [citeEntries, hk, hv]

theorem isSome_citeEntries_cons {e : Wire × Wire} {es : List (Wire × Wire)}
    (he : (citeEntries tables [e]).isSome)
    (hes : (citeEntries (referEntries true tables [e]).2 es).isSome) :
    (citeEntries tables (e :: es)).isSome := by
  obtain ⟨r, hr⟩ := Option.isSome_iff_exists.1 he
  rw [snd_referEntries [e] hr] at hes
  obtain ⟨rs, hrs⟩ := Option.isSome_iff_exists.1 hes
  simp only [citeEntries, Option.bind_eq_bind, Option.bind_eq_some_iff] at hr
  obtain ⟨⟨k', afterKey⟩, hk, ⟨v', between⟩, hv, ⟨_, _⟩, hnil, hr⟩ := hr
  cases hnil
  cases hr
  simp [citeEntries, hk, hv, hrs]

theorem isSome_cite_array {indefinite : Bool} {ws : List Wire} (h : (citeAll tables ws).isSome) :
    ((array indefinite ws).cite tables).isSome := by
  obtain ⟨r, hr⟩ := Option.isSome_iff_exists.1 h
  simp [cite, hr]

theorem isSome_cite_map {indefinite : Bool} {es : List (Wire × Wire)}
    (h : (citeEntries tables es).isSome) : ((map indefinite es).cite tables).isSome := by
  obtain ⟨r, hr⟩ := Option.isSome_iff_exists.1 h
  simp [cite, hr]

theorem isSome_cite_namespace {content : Wire} (h : (content.cite (#[] :: tables)).isSome) :
    ((tag Tag.stringRefNamespace content).cite tables).isSome := by
  obtain ⟨r, hr⟩ := Option.isSome_iff_exists.1 h
  simp [cite, hr]

theorem isSome_cite_tag {number : UInt64} {content : Wire} (hn : number ≠ Tag.stringRefNamespace)
    (hr : number = Tag.stringRef → (named? tables content).isSome)
    (h : (content.cite tables).isSome) : ((tag number content).cite tables).isSome := by
  obtain ⟨r, hc⟩ := Option.isSome_iff_exists.1 h
  rw [cite, if_neg hn]
  split
  case isTrue hsr =>
    obtain ⟨e, he⟩ := Option.isSome_iff_exists.1 (hr hsr)
    simp [he]
  case isFalse => simp [hc]

mutual

theorem isSome_cite : (w : Wire) → ∀ {room : Nat} (tables : List StringTable), w.Plain room →
    (w.cite tables).isSome
  | scalar _, _, _, _ | simple _ _, _, _, _ | string _ _, _, _, _ | chunks _ _, _, _, _ => rfl
  | array _ items, _, tables, ⟨_, h⟩ => isSome_cite_array (isSome_citeAll items tables h)
  | map _ entries, _, tables, ⟨_, h⟩ => isSome_cite_map (isSome_citeEntries entries tables h)
  | tag number content, _, tables, ⟨_, hn, h⟩ => by
    by_cases hns : number = Tag.stringRefNamespace
    · subst hns
      exact isSome_cite_namespace (isSome_cite content _ h)
    · exact isSome_cite_tag hns (fun hsr ↦ absurd hsr hn) (isSome_cite content tables h)

theorem isSome_citeAll : (ws : List Wire) → ∀ {room : Nat} (tables : List StringTable),
    PlainAll room ws → (citeAll tables ws).isSome
  | [], _, _, _ => rfl
  | w :: ws, _, tables, ⟨hw, hws⟩ =>
    isSome_citeAll_cons (isSome_cite w tables hw) (isSome_citeAll ws _ hws)

theorem isSome_citeEntries : (es : List (Wire × Wire)) → ∀ {room : Nat}
    (tables : List StringTable), PlainEntries room es → (citeEntries tables es).isSome
  | [], _, _, _ => rfl
  | (k, v) :: es, _, tables, ⟨hk, hv, hes⟩ =>
    isSome_citeEntries_cons (isSome_citeEntry (isSome_cite k tables hk) (isSome_cite v _ hv))
      (isSome_citeEntries es _ hes)

end

end Cbor.Wire
