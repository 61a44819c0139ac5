import Cbor.Proofs.Assembly.Turns

namespace Cbor

open Decoder (Options)

/-- What has become of the tags 28 so far, which are counted from 0 in the order in which they
open. -/
structure Ancestry where
  opened : Nat := 0
  /-- Those that are not yet closed, from the innermost outwards. -/
  enclosing : List Nat := []
  completed : List (Nat × Item) := []

namespace Ancestry

variable (t : Ancestry)

def opens : Ancestry := ⟨t.opened + 1, t.opened :: t.enclosing, t.completed⟩

/-- The innermost one is complete. -/
def closes (item : Item) : Ancestry :=
  match t.enclosing with
  | [] => t
  | n :: outer => ⟨t.opened, outer, (n, item) :: t.completed⟩

open Assembly (Turn)

def meets (l : Lexeme) : Ancestry := if l = .tag Tag.shareable then t.opens else t

def places : List Frame → Turn → Ancestry
  | .tag number _ :: _, .finished item _ => if number = Tag.shareable then t.closes item else t
  | _, _ => t

def slot? (n : Nat) : Option (Option (Item × Nat)) :=
  if n < t.opened then some ((t.completed.lookup n).map fun item ↦ (item, item.footprint))
  else none

/-- Each tag 28 so far is either open or complete, in its own cell if cells are wanted. -/
structure Sound (o : Options) : Prop where
  lt : ∀ n ∈ t.enclosing, n < t.opened
  nodup : t.enclosing.Nodup
  lookup : ∀ n, t.completed.lookup n = none ↔ n ∈ t.enclosing ∨ t.opened ≤ n
  cell : o.sharedRef = .shareable → ∀ n item, t.completed.lookup n = some item →
    ∃ content, item = .shareable n content

variable {t} {o : Options}

theorem Sound.start : Sound {} o where
  lt := nofun
  nodup := .nil
  lookup n := by simp
  cell _ := nofun

theorem Sound.opens (h : t.Sound o) : t.opens.Sound o where
  lt n hn := by
    rcases List.mem_cons.1 hn with rfl | hn
    · exact Nat.lt_succ_self _
    · exact Nat.lt_succ_of_lt (h.lt n hn)
  nodup := List.nodup_cons.2 ⟨fun hn ↦ Nat.lt_irrefl _ (h.lt _ hn), h.nodup⟩
  lookup n := by
    rw [Ancestry.opens, h.lookup, List.mem_cons]
    dsimp only
    grind
  cell := h.cell

theorem Sound.closes (h : t.Sound o) {n : Nat} {outer : List Nat} (ht : t.enclosing = n :: outer)
    {item : Item} (hi : o.sharedRef = .shareable → ∃ content, item = .shareable n content) :
    (t.closes item).Sound o := by
  have hn := h.nodup
  have hlt := h.lt
  rw [ht] at hn hlt
  rw [Ancestry.closes, ht]
  refine ⟨fun m hm ↦ hlt m (List.mem_cons_of_mem _ hm), hn.of_cons, fun m ↦ ?_, fun hs m i hm ↦ ?_⟩
  · have hm := h.lookup m
    rw [ht, List.mem_cons] at hm
    have hnot := (List.nodup_cons.1 hn).1
    have hopened := hlt n List.mem_cons_self
    rw [List.lookup_cons]
    by_cases hmn : m = n
    · subst hmn
      simp [hnot, hopened]
    · rw [beq_false_of_ne hmn]
      simpa [hmn] using hm
  · rw [List.lookup_cons] at hm
    split at hm
    · rename_i heq
      cases hm
      rw [beq_iff_eq.1 heq]
      exact hi hs
    · exact h.cell hs m i hm

end Ancestry

namespace Assembly

variable {o : Options} {t : Ancestry} {a b : Assembly} {stack : List Frame} {s u : Scope}

def Fits (tag : UInt64 × TagRole) : Prop :=
  (tag.1 = Tag.shareable ↔ ∃ cell, tag.2 = .shareable cell) ∧
    (tag.1 = Tag.sharedRef ↔ tag.2 = .sharedRef)

def cell? : UInt64 × TagRole → Option Nat
  | (_, .shareable cell) => some cell
  | _ => none

/-- The open tags are those that the lexemes have opened, and the table holds what is complete. -/
structure Tracks (o : Options) (t : Ancestry) (a : Assembly) : Prop where
  fits : ∀ tag ∈ openTags a.stack, Fits tag
  enclosing : (openTags a.stack).filterMap cell? = t.enclosing
  slots : ∀ n, a.scope.shared[n]? = t.slot? n
  sound : t.Sound o

namespace Tracks

theorem start : Tracks o {} {} where
  fits := nofun
  enclosing := rfl
  slots n := by simp [Ancestry.slot?]
  sound := .start

theorem keeps (h : Tracks o t a) (hk : Keeps a b) : Tracks o t b where
  fits := hk.tags ▸ h.fits
  enclosing := hk.tags ▸ h.enclosing
  slots := hk.shared ▸ h.slots
  sound := h.sound

theorem size (h : Tracks o t a) : a.scope.shared.size = t.opened := by
  have hs (n : Nat) : a.scope.shared.size ≤ n ↔ t.opened ≤ n := by
    rw [← Array.getElem?_eq_none_iff, h.slots, Ancestry.slot?]
    split <;> simp <;> omega
  exact Nat.le_antisymm ((hs _).2 (Nat.le_refl _)) ((hs _).1 (Nat.le_refl _))

end Tracks

theorem fits_of_ne {number : UInt64} {role : TagRole} (hn : number ≠ Tag.shareable)
    (hc : cell? (number, role) = none) (hr : number = Tag.sharedRef ↔ role = .sharedRef) :
    Fits (number, role) := by
  refine ⟨⟨fun h ↦ absurd h hn, ?_⟩, hr⟩
  rintro ⟨cell, rfl⟩
  cases hc

theorem openRole_cases (ho : o.sharedRef ≠ .off) {inShareable : Bool} {number : UInt64}
    {role : TagRole} (h : openRole o inShareable number s = .ok (role, u)) :
    (number = Tag.shareable ∧ role = .shareable s.shared.size ∧
      u.shared = s.shared.push none) ∨
    (number ≠ Tag.shareable ∧ Fits (number, role) ∧ cell? (number, role) = none ∧
      u.shared = s.shared) := by
  unfold openRole at h
  split at h
  · rename_i hn
    cases h
    have hne : number ≠ Tag.shareable := hn.1 ▸ by decide
    exact .inr ⟨hne, fits_of_ne hne rfl (hn.1 ▸ by decide), rfl, rfl⟩
  split at h
  · rename_i hn
    cases h
    have hne : number ≠ Tag.shareable := hn.1 ▸ by decide
    exact .inr ⟨hne, fits_of_ne hne rfl (hn.1 ▸ by decide), rfl, rfl⟩
  split at h
  · rename_i hn
    split at h <;> cases h
    exact .inl ⟨hn.1, rfl, rfl⟩
  rename_i hs
  have hne : number ≠ Tag.shareable := fun hn ↦ hs ⟨hn, ho⟩
  split at h
  · rename_i hn
    cases h
    exact .inr ⟨hne, fits_of_ne hne rfl (by simp [hn.1]), rfl, rfl⟩
  · rename_i hn
    cases h
    exact .inr ⟨hne, fits_of_ne hne rfl (by simpa using fun h ↦ hn ⟨h, ho⟩), rfl, rfl⟩

theorem closeTag_cases {number : UInt64} {role : TagRole} {content item : Item}
    (h : closeTag o number role content s = .ok (item, u)) :
    (∃ cell, role = .shareable cell ∧
      u.shared = s.shared.setIfInBounds cell (some (item, item.footprint)) ∧
      (o.sharedRef = .shareable → ∃ content, item = .shareable cell content)) ∨
    (cell? (number, role) = none ∧ u.shared = s.shared) := by
  have hcharge {n : Nat} {t : Scope} (ht : s.charge o.maxSize n = .ok t) :
      t.shared = s.shared := by
    obtain ⟨_, _, ht⟩ := bind_eq_ok.1 ht
    cases ht
    rfl
  cases role with
  | stringNamespace =>
    cases h
    exact .inr ⟨rfl, rfl⟩
  | stringRef =>
    simp only [closeTag, bind_eq_ok] at h
    obtain ⟨found, _, t, ht, h⟩ := h
    cases h
    exact .inr ⟨rfl, hcharge ht⟩
  | shareable cell =>
    cases h
    exact .inl ⟨cell, rfl, rfl, fun hs ↦ ⟨content.native o.flags, if_pos hs⟩⟩
  | sharedRef =>
    simp only [closeTag, bind_eq_ok] at h
    obtain ⟨found, _, t, ht, h⟩ := h
    cases h
    exact .inr ⟨rfl, hcharge ht⟩
  | plain =>
    obtain ⟨found, _, h⟩ := bind_eq_ok.1 h
    cases found <;> cases h <;> exact .inr ⟨rfl, rfl⟩

namespace Tracks

variable {number : UInt64} {role : TagRole}

theorem openTag (h : Tracks o t ⟨stack, s⟩) (ho : o.sharedRef ≠ .off) {inShareable : Bool}
    (hr : openRole o inShareable number s = .ok (role, u)) :
    Tracks o (t.meets (.tag number)) ⟨.tag number role :: stack, u⟩ := by
  rcases openRole_cases ho hr with ⟨rfl, rfl, hu⟩ | ⟨hn, hf, hc, hu⟩
  · have hsize : s.shared.size = t.opened := h.size
    have hfits : Fits (Tag.shareable, .shareable s.shared.size) :=
      ⟨⟨fun _ ↦ ⟨_, rfl⟩, fun _ ↦ rfl⟩, ⟨fun hn ↦ absurd hn (show Tag.shareable ≠ Tag.sharedRef by decide), nofun⟩⟩
    rw [Ancestry.meets, if_pos rfl]
    refine ⟨List.forall_mem_cons.2 ⟨hfits, h.fits⟩, ?_, fun n ↦ ?_, h.sound.opens⟩
    · rw [Ancestry.opens, ← h.enclosing, ← hsize]
      rfl
    · rw [hu, Array.getElem?_push, hsize, Ancestry.opens, Ancestry.slot?]
      dsimp only
      split
      · rename_i hn
        rw [if_pos (hn ▸ Nat.lt_succ_self _), (h.sound.lookup n).2 (.inr (Nat.le_of_eq hn.symm))]
        rfl
      · rename_i hn
        have hlt : n < t.opened + 1 ↔ n < t.opened := by omega
        have hslot : s.shared[n]? = t.slot? n := h.slots n
        simp only [hslot, Ancestry.slot?, hlt]
  · have hmeets : t.meets (.tag number) = t := if_neg (by simpa using hn)
    rw [hmeets]
    refine ⟨List.forall_mem_cons.2 ⟨hf, h.fits⟩, ?_, fun n ↦ hu ▸ h.slots n, h.sound⟩
    rw [← h.enclosing]
    exact List.filterMap_cons_none hc

theorem closeTag (h : Tracks o t ⟨.tag number role :: stack, s⟩) {content item : Item}
    (hc : closeTag o number role content s.leave = .ok (item, u)) :
    Tracks o (t.places (.tag number role :: stack) (.finished item ⟨stack, u⟩)) ⟨stack, u⟩ := by
  obtain ⟨⟨hshareable, -⟩, hfits⟩ := List.forall_mem_cons.1 h.fits
  have henclosing : ((number, role) :: openTags stack).filterMap cell? = t.enclosing := h.enclosing
  have hslot (n : Nat) : s.shared[n]? = t.slot? n := h.slots n
  rcases closeTag_cases hc with ⟨cell, rfl, hu, hi⟩ | ⟨hrole, hu⟩
  · obtain rfl : number = Tag.shareable := hshareable.2 ⟨cell, rfl⟩
    have ht : t.enclosing = cell :: (openTags stack).filterMap cell? := henclosing.symm
    have hcell : cell < t.opened := h.sound.lt cell (ht ▸ List.mem_cons_self)
    rw [Ancestry.places, if_pos rfl]
    refine ⟨hfits, by rw [Ancestry.closes, ht], fun n ↦ ?_, h.sound.closes ht hi⟩
    have hs : s.leave.shared = s.shared := rfl
    rw [hu, Array.getElem?_setIfInBounds, hs, h.size, hslot, Ancestry.closes, ht,
      Ancestry.slot?, Ancestry.slot?]
    dsimp only
    split
    · rename_i hn
      subst hn
      simp [hcell]
    · rename_i hn
      rw [List.lookup_cons, beq_false_of_ne (Ne.symm hn)]
  · have hn : number ≠ Tag.shareable := by
      intro hn
      obtain ⟨cell, rfl⟩ := hshareable.1 hn
      cases hrole
    rw [Ancestry.places, if_neg hn]
    refine ⟨hfits, ?_, fun n ↦ ?_, h.sound⟩
    · rw [← henclosing, List.filterMap_cons_none hrole]
    · rw [hu]
      exact hslot n

theorem begins (h : Tracks o t a) (ho : o.sharedRef ≠ .off) {l : Lexeme} {turn : Turn}
    (hb : begin o a l = .ok turn) : Tracks o (t.meets l) turn.assembly := by
  by_cases hl : ∃ number, l = .tag number
  · obtain ⟨number, rfl⟩ := hl
    obtain ⟨s, u, role, hs, hr, rfl⟩ := begin_tag hb
    have hk : Tracks o t ⟨a.stack, s⟩ := h.keeps ⟨rfl, hs⟩
    exact hk.openTag ho hr
  · have hmeets : t.meets l = t := if_neg fun hn ↦ hl ⟨_, hn⟩
    rw [hmeets]
    exact h.keeps (keeps_of_begin (fun number hn ↦ hl ⟨number, hn⟩) hb)

theorem places (h : Tracks o t ⟨stack, s⟩) {item : Item} {turn : Turn}
    (hp : place o stack s item = .ok turn) : Tracks o (t.places stack turn) turn.assembly := by
  by_cases hs : ∃ number role rest, stack = .tag number role :: rest
  · obtain ⟨number, role, rest, rfl⟩ := hs
    obtain ⟨found, u, hc, rfl⟩ := place_tag hp
    exact h.closeTag hc
  · have hne : ∀ number role rest, stack ≠ .tag number role :: rest :=
      fun number role rest heq ↦ hs ⟨number, role, rest, heq⟩
    have hplaces : t.places stack turn = t := by
      unfold Ancestry.places
      split
      · exact absurd rfl (hne _ _ _)
      · rfl
    rw [hplaces]
    exact h.keeps (keeps_of_place hne hp)

theorem charge_eq (s : Scope) (maxSize n : Nat) : s.charge maxSize n =
    if s.expanded + n ≤ maxSize then .ok { s with expanded := s.expanded + n }
    else .error .unsupportedSize := by
  unfold Scope.charge Lexeme.checkSize
  dsimp only
  split <;> rfl

theorem closeTag_sharedRef (h : Tracks o t ⟨.tag Tag.sharedRef role :: stack, s⟩) (i : UInt64) :
    let closed := Assembly.closeTag o Tag.sharedRef role (.unsigned i) s.leave
    (closed = .error .recursion ↔ i.toNat ∈ t.enclosing) ∧
      (closed = .error (.tagValue Tag.sharedRef) ↔ t.opened < i.toNat + 1) ∧
      (i.toNat ∉ t.enclosing → i.toNat < t.opened →
        ∃ item, t.completed.lookup i.toNat = some item ∧
          (o.sharedRef = .shareable → ∃ content, item = .shareable i.toNat content) ∧
          closed =
            if s.expanded + item.footprint ≤ o.maxSize then
              .ok (item, { s.leave with expanded := s.expanded + item.footprint })
            else .error .unsupportedSize) := by
  intro closed
  obtain ⟨⟨-, hrole⟩, -⟩ := List.forall_mem_cons.1 h.fits
  obtain rfl : role = .sharedRef := hrole.1 rfl
  have hslot : s.leave.shared[i.toNat]? = t.slot? i.toNat := h.slots _
  have hclosed : closed = s.leave.shared.resolve (.unsigned i) >>= fun r ↦
      s.leave.charge o.maxSize r.2 >>= fun u ↦ .ok (r.1, u) := rfl
  rw [SharedItems.resolve, hslot, Ancestry.slot?] at hclosed
  have hl := h.sound.lookup i.toNat
  by_cases hn : i.toNat < t.opened
  · rw [if_pos hn] at hclosed
    cases hitem : t.completed.lookup i.toNat with
    | none =>
      rw [hitem] at hclosed
      have hmem : i.toNat ∈ t.enclosing := (hl.1 hitem).resolve_right (Nat.not_le.2 hn)
      have hr : closed = .error .recursion := hclosed
      rw [hr]
      exact ⟨iff_of_true rfl hmem, iff_of_false nofun (by omega), fun hnot ↦ absurd hmem hnot⟩
    | some item =>
      rw [hitem] at hclosed
      have hnot : i.toNat ∉ t.enclosing := fun hmem ↦ by
        rw [hl.2 (.inl hmem)] at hitem
        cases hitem
      have hr : closed =
          if s.expanded + item.footprint ≤ o.maxSize then
            .ok (item, { s.leave with expanded := s.expanded + item.footprint })
          else .error .unsupportedSize := by
        refine hclosed.trans ?_
        simp only [Option.map_some, ok_bind, charge_eq]
        show (if s.expanded + item.footprint ≤ o.maxSize then _ else _) >>= _ = _
        split <;> rfl
      refine ⟨iff_of_false ?_ hnot, iff_of_false ?_ (by omega), fun _ _ ↦
        ⟨item, rfl, fun hs ↦ h.sound.cell hs _ _ hitem, hr⟩⟩
      all_goals
        rw [hr]
        split <;> nofun
  · rw [if_neg hn] at hclosed
    have hr : closed = .error (.tagValue Tag.sharedRef) := hclosed
    have hnot : i.toNat ∉ t.enclosing := fun hmem ↦ hn (h.sound.lt _ hmem)
    rw [hr]
    exact ⟨iff_of_false nofun hnot, iff_of_true rfl (by omega), fun _ hlt ↦ absurd hlt hn⟩

end Tracks

end Assembly

end Cbor
