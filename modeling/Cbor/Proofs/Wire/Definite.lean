import Cbor.Proofs.Wire.Verbatim

namespace Cbor

namespace Head

theorem Form.eq_write {major n : Nat} {h : Octets} (hf : Form major n h)
    (hl : h.length ≤ (write major (.ofNat n)).length) : h = write major (.ofNat n) := by
  have hn : (UInt64.ofNat n).toNat = n := UInt64.toNat_ofNat_of_lt' hf.lt_size
  simp only [write, hn] at hl ⊢
  cases hf with
  | short hlt => rw [if_pos hlt]
  | wide hw hlt =>
    simp only [List.mem_cons, List.not_mem_nil, or_false, Prod.mk.injEq] at hw
    rcases hw with ⟨rfl, rfl⟩ | ⟨rfl, rfl⟩ | ⟨rfl, rfl⟩ | ⟨rfl, rfl⟩
    all_goals
      simp only [Nat.pow_eq, Nat.reducePow] at hlt
      grind [Octets.length_ofNat]

end Head

namespace Lexeme

def Definite : Lexeme → Prop
  | bytesStart | textStart | array none | map none | stop => False
  | _ => True

def Shortest (l : Lexeme) (b : Octets) : Prop := l.Form b ∧ ∀ c, l.Form c → b.length ≤ c.length

theorem Form.eq_write {l : Lexeme} {b : Octets} (h : l.Form b)
    (hl : b.length ≤ l.write.length) : b = l.write := by
  cases l with
  | unsigned n | negative n | tag n =>
    have hw := Head.Form.eq_write h
    rw [UInt64.ofNat_toNat] at hw
    exact hw hl
  | bytes p | text p =>
    obtain ⟨d, hd, rfl⟩ := h
    simp only [write, List.length_append, Nat.add_le_add_iff_right] at hl
    rw [hd.eq_write hl]
    rfl
  | array count | map count =>
    cases count with
    | none => exact h
    | some n =>
      have hw := Head.Form.eq_write h
      rw [UInt64.ofNat_toNat] at hw
      exact hw hl
  | simple n => exact h.2
  | _ => exact h

theorem shortest_iff {n : Nat} {l : Lexeme} (hf : l.Fits n) (hn : n < UInt64.size) {b : Octets} :
    l.Shortest b ↔ b = l.write := by
  have hw := form_write hf hn
  constructor
  · rintro ⟨hb, hs⟩
    exact hb.eq_write (hs _ hw)
  · rintro rfl
    exact ⟨hw, fun c hc ↦ hc.length_write_le⟩

end Lexeme

namespace Wire

inductive ShortSpelling : List Lexeme → Octets → Prop
  | nil : ShortSpelling [] []
  | cons {l : Lexeme} {ls : List Lexeme} {b c : Octets} (h : l.Shortest b)
    (hs : ShortSpelling ls c) : ShortSpelling (l :: ls) (b ++ c)

theorem shortSpelling_iff {n : Nat} {ls : List Lexeme} (hf : ∀ l ∈ ls, l.Fits n)
    (hn : n < UInt64.size) {b : Octets} : ShortSpelling ls b ↔ b = spell ls := by
  induction ls generalizing b with
  | nil =>
    constructor
    · rintro ⟨⟩
      rfl
    · rintro rfl
      exact .nil
  | cons l ls ih =>
    have hl := fun b ↦ Lexeme.shortest_iff (hf l List.mem_cons_self) hn (b := b)
    have ih := fun b ↦ ih (fun m hm ↦ hf m (List.mem_cons_of_mem _ hm)) (b := b)
    constructor
    · rintro (_ | @⟨_, _, b, c, hb, hs⟩)
      rw [spell_cons, (hl b).1 hb, (ih c).1 hs]
    · rintro rfl
      exact .cons ((hl _).2 rfl) ((ih _).2 rfl)

mutual

def definite : Wire → Wire
  | scalar a => scalar a
  | simple n valid => simple n valid
  | string isText b => string isText b
  | chunks isText parts => string isText parts.flatten
  | array _ items => array false (definiteAll items)
  | map _ entries => map false (definiteEntries entries)
  | tag number content => tag number (definite content)

def definiteAll : List Wire → List Wire
  | [] => []
  | w :: ws => definite w :: definiteAll ws

def definiteEntries : List (Wire × Wire) → List (Wire × Wire)
  | [] => []
  | (k, v) :: es => (definite k, definite v) :: definiteEntries es

end

mutual

theorem nesting_definite : (w : Wire) → w.definite.nesting = w.nesting
  | scalar _ | simple .. | string .. | chunks .. => rfl
  | array _ items => congrArg (· + 1) (nesting_definiteAll items)
  | map _ entries => congrArg (· + 1) (nesting_definiteEntries entries)
  | tag _ content => congrArg (· + 1) (nesting_definite content)

theorem nesting_definiteAll : (ws : List Wire) →
    Datum.nestingAll (datumAll (definiteAll ws)) = Datum.nestingAll (datumAll ws)
  | [] => rfl
  | w :: ws => by
    have hw : w.definite.datum.nesting = w.datum.nesting := nesting_definite w
    simp only [definiteAll, datumAll, Datum.nestingAll, hw, nesting_definiteAll ws]

theorem nesting_definiteEntries : (es : List (Wire × Wire)) →
    Datum.nestingEntries (datumEntries (definiteEntries es)) =
      Datum.nestingEntries (datumEntries es)
  | [] => rfl
  | (k, v) :: es => by
    have hk : k.definite.datum.nesting = k.datum.nesting := nesting_definite k
    have hv : v.definite.datum.nesting = v.datum.nesting := nesting_definite v
    simp only [definiteEntries, datumEntries, Datum.nestingEntries, hk, hv,
      nesting_definiteEntries es]

end

mutual

theorem verbatim_definite : (w : Wire) → w.definite.datum.verbatim = w.datum.verbatim
  | scalar _ | simple .. | string .. => rfl
  | chunks isText parts => by simp [definite, datum, Datum.verbatim]
  | array _ items => by simp only [definite, datum, Datum.verbatim, verbatim_definiteAll items]
  | map _ entries => by
    simp only [definite, datum, Datum.verbatim, verbatim_definiteEntries entries]
  | tag _ content => by simp only [definite, datum, Datum.verbatim, verbatim_definite content]

theorem verbatim_definiteAll : (ws : List Wire) →
    Datum.verbatimAll (datumAll (definiteAll ws)) = Datum.verbatimAll (datumAll ws)
  | [] => rfl
  | w :: ws => by
    simp only [definiteAll, datumAll, Datum.verbatimAll, verbatim_definite w,
      verbatim_definiteAll ws]

theorem verbatim_definiteEntries : (es : List (Wire × Wire)) →
    Datum.verbatimEntries (datumEntries (definiteEntries es)) =
      Datum.verbatimEntries (datumEntries es)
  | [] => rfl
  | (k, v) :: es => by
    simp only [definiteEntries, datumEntries, Datum.verbatimEntries, verbatim_definite k,
      verbatim_definite v, verbatim_definiteEntries es]

end

theorem definite_ofString (isText : Bool) (b : Octets) : (Lexeme.ofString isText b).Definite := by
  cases isText <;> trivial

mutual

theorem definite_of_mem : (w : Wire) → ∀ l ∈ w.definite.lexemes, l.Definite
  | scalar a, l, hl => by
    cases List.mem_singleton.1 hl
    cases a <;> trivial
  | simple n valid, l, hl => by
    cases List.mem_singleton.1 hl
    trivial
  | string isText b, l, hl => by
    cases List.mem_singleton.1 hl
    exact definite_ofString isText b
  | chunks isText parts, l, hl => by
    cases List.mem_singleton.1 hl
    exact definite_ofString isText _
  | array _ items, l, hl => by
    simp only [definite, lexemes, ending, Bool.false_eq_true, if_false, List.append_nil] at hl
    rcases List.mem_cons.1 hl with rfl | hl
    · trivial
    · exact definite_of_mem_all items l hl
  | map _ entries, l, hl => by
    simp only [definite, lexemes, ending, Bool.false_eq_true, if_false, List.append_nil] at hl
    rcases List.mem_cons.1 hl with rfl | hl
    · trivial
    · exact definite_of_mem_entries entries l hl
  | tag number content, l, hl => by
    rcases List.mem_cons.1 hl with rfl | hl
    · trivial
    · exact definite_of_mem content l hl

theorem definite_of_mem_all : (ws : List Wire) → ∀ l ∈ lexemesAll (definiteAll ws), l.Definite
  | w :: ws, l, hl => by
    rcases List.mem_append.1 hl with hl | hl
    · exact definite_of_mem w l hl
    · exact definite_of_mem_all ws l hl

theorem definite_of_mem_entries : (es : List (Wire × Wire)) →
    ∀ l ∈ lexemesEntries (definiteEntries es), l.Definite
  | (k, v) :: es, l, hl => by
    simp only [definiteEntries, lexemesEntries, List.mem_append] at hl
    rcases hl with (hl | hl) | hl
    · exact definite_of_mem k l hl
    · exact definite_of_mem v l hl
    · exact definite_of_mem_entries es l hl

end

mutual

theorem definite_eq_self : (w : Wire) → (∀ l ∈ w.lexemes, l.Definite) → w.definite = w
  | scalar _, _ | simple .., _ | string .., _ => rfl
  | chunks isText parts, h => by
    have hstart := h _ List.mem_cons_self
    cases isText <;> cases hstart
  | array indefinite items, h => by
    have hhead := h _ List.mem_cons_self
    cases indefinite with
    | true => cases hhead
    | false =>
      simp only [lexemes, ending, Bool.false_eq_true, if_false, List.append_nil] at h
      rw [definite, definiteAll_eq_self items fun l hl ↦ h l (List.mem_cons_of_mem _ hl)]
  | map indefinite entries, h => by
    have hhead := h _ List.mem_cons_self
    cases indefinite with
    | true => cases hhead
    | false =>
      simp only [lexemes, ending, Bool.false_eq_true, if_false, List.append_nil] at h
      rw [definite, definiteEntries_eq_self entries fun l hl ↦ h l (List.mem_cons_of_mem _ hl)]
  | tag number content, h => by
    rw [definite, definite_eq_self content fun l hl ↦ h l (List.mem_cons_of_mem _ hl)]

theorem definiteAll_eq_self : (ws : List Wire) → (∀ l ∈ lexemesAll ws, l.Definite) →
    definiteAll ws = ws
  | [], _ => rfl
  | w :: ws, h => by
    have hw := fun l hl ↦ h l (List.mem_append.2 (.inl hl))
    have hws := fun l hl ↦ h l (List.mem_append.2 (.inr hl))
    rw [definiteAll, definite_eq_self w hw, definiteAll_eq_self ws hws]

theorem definiteEntries_eq_self : (es : List (Wire × Wire)) →
    (∀ l ∈ lexemesEntries es, l.Definite) → definiteEntries es = es
  | [], _ => rfl
  | (k, v) :: es, h => by
    simp only [lexemesEntries, List.mem_append] at h
    have hk := fun l hl ↦ h l (.inl (.inl hl))
    have hv := fun l hl ↦ h l (.inl (.inr hl))
    have hes := fun l hl ↦ h l (.inr hl)
    rw [definiteEntries, definite_eq_self k hk, definite_eq_self v hv,
      definiteEntries_eq_self es hes]

end

/-- Nothing is of indefinite length just if making lengths definite changes nothing. -/
theorem definite_eq_iff {w : Wire} : w.definite = w ↔ ∀ l ∈ w.lexemes, l.Definite :=
  ⟨fun h ↦ h ▸ w.definite_of_mem, w.definite_eq_self⟩

end Wire
end Cbor
