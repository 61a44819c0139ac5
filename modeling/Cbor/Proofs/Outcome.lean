namespace Cbor

variable {ε α β : Type}

@[simp] theorem ok_bind (a : α) (f : α → Except ε β) : (Except.ok a >>= f) = f a := rfl

@[simp] theorem error_bind (e : ε) (f : α → Except ε β) : (Except.error e >>= f) = .error e := rfl

@[simp] theorem pure_eq_ok (a : α) : (pure a : Except ε α) = .ok a := rfl

@[simp] theorem throw_eq_error (e : ε) : (throw e : Except ε α) = .error e := rfl

@[simp] theorem map_ok (f : α → β) (a : α) : (f <$> Except.ok a : Except ε β) = .ok (f a) := rfl

@[simp] theorem map_error (f : α → β) (e : ε) : (f <$> Except.error e : Except ε β) = .error e := rfl

theorem bind_eq_ok {x : Except ε α} {f : α → Except ε β} {b : β} :
    (x >>= f) = .ok b ↔ ∃ a, x = .ok a ∧ f a = .ok b := by
  cases x <;> simp

theorem map_eq_ok {x : Except ε α} {f : α → β} {b : β} :
    f <$> x = .ok b ↔ ∃ a, x = .ok a ∧ f a = b := by
  cases x <;> simp

theorem map_eq_error {x : Except ε α} {f : α → β} {e : ε} : f <$> x = .error e ↔ x = .error e := by
  cases x <;> simp

theorem map_eq_bind (f : α → β) (x : Except ε α) : f <$> x = x >>= fun a ↦ .ok (f a) := by
  cases x <;> rfl

/-- A relation between runs that is kept when both go on in the same way. -/
structure Congruence (R : ∀ α, Except ε α → Except ε α → Prop) : Prop where
  refl : ∀ {α : Type} (x : Except ε α), R α x x
  bind : ∀ {α β : Type} {x y : Except ε α} {f g : α → Except ε β}, R α x y →
    (∀ a, R β (f a) (g a)) → R β (x >>= f) (y >>= g)

namespace Congruence

variable {R : ∀ α, Except ε α → Except ε α → Prop} (hR : Congruence R)

include hR

theorem map {x y : Except ε α} (f : α → β) (h : R α x y) : R β (f <$> x) (f <$> y) := by
  rw [map_eq_bind, map_eq_bind]
  exact hR.bind h fun a ↦ hR.refl _

theorem mapM {f g : α → Except ε β} {l : List α} (h : ∀ a ∈ l, R β (f a) (g a)) :
    R (List β) (l.mapM f) (l.mapM g) := by
  induction l with
  | nil => exact hR.refl _
  | cons a l ih =>
    rw [List.mapM_cons, List.mapM_cons]
    refine hR.bind (h a List.mem_cons_self) fun b ↦ ?_
    exact hR.bind (ih fun a ha ↦ h a (List.mem_cons_of_mem _ ha)) fun bs ↦ hR.refl _

end Congruence

/-- Whatever `x` succeeds with, `y` succeeds with too. -/
def Implies (x y : Except ε α) : Prop := ∀ a, x = .ok a → y = .ok a

namespace Implies

theorem refl (x : Except ε α) : Implies x x := fun _ h ↦ h

theorem bind {x y : Except ε α} {f g : α → Except ε β} (h : Implies x y)
    (hf : ∀ a, Implies (f a) (g a)) : Implies (x >>= f) (y >>= g) := by
  intro b hb
  obtain ⟨a, ha, hb⟩ := bind_eq_ok.1 hb
  exact bind_eq_ok.2 ⟨a, h a ha, hf a b hb⟩

theorem congruence : Congruence fun α ↦ @Implies ε α := ⟨refl, bind⟩

theorem map {x y : Except ε α} (f : α → β) (h : Implies x y) : Implies (f <$> x) (f <$> y) :=
  congruence.map f h

theorem ite {p : Prop} [Decidable p] {x y x' y' : Except ε α} (h : Implies x y)
    (h' : Implies x' y') : Implies (if p then x else x') (if p then y else y') := by
  split
  · exact h
  · exact h'

theorem mapM {f g : α → Except ε β} {l : List α} (h : ∀ a ∈ l, Implies (f a) (g a)) :
    Implies (l.mapM f) (l.mapM g) :=
  congruence.mapM h

end Implies

/-- Both succeed, with the same result, or both fail. -/
def SameResult (x y : Except ε α) : Prop := ∀ a, x = .ok a ↔ y = .ok a

namespace SameResult

theorem refl (x : Except ε α) : SameResult x x := fun _ ↦ Iff.rfl

theorem symm {x y : Except ε α} (h : SameResult x y) : SameResult y x := fun a ↦ (h a).symm

theorem trans {x y z : Except ε α} (h : SameResult x y) (h' : SameResult y z) : SameResult x z :=
  fun a ↦ (h a).trans (h' a)

theorem of_implies {x y : Except ε α} (h : Implies x y) (h' : Implies y x) : SameResult x y :=
  fun a ↦ ⟨h a, h' a⟩

theorem implies {x y : Except ε α} (h : SameResult x y) : Implies x y := fun a ↦ (h a).1

theorem bind {x y : Except ε α} {f g : α → Except ε β} (h : SameResult x y)
    (hf : ∀ a, SameResult (f a) (g a)) : SameResult (x >>= f) (y >>= g) :=
  .of_implies (.bind h.implies fun a ↦ (hf a).implies)
    (.bind h.symm.implies fun a ↦ (hf a).symm.implies)

theorem congruence : Congruence fun α ↦ @SameResult ε α := ⟨refl, bind⟩

theorem map {x y : Except ε α} (f : α → β) (h : SameResult x y) : SameResult (f <$> x) (f <$> y) :=
  congruence.map f h

end SameResult

/-- `x` is `y`, unless a fault that `P` allows cuts it off. -/
def CutOff (P : ε → Prop) (x y : Except ε α) : Prop := x = y ∨ ∃ e, P e ∧ x = .error e

namespace CutOff

variable {P : ε → Prop} {x y : Except ε α}

theorem refl (x : Except ε α) : CutOff P x x := .inl rfl

theorem error {e : ε} (h : P e) (y : Except ε α) : CutOff P (.error e) y := .inr ⟨e, h, rfl⟩

theorem guard {p q : Prop} [Decidable p] [Decidable q] (hpq : p → q) {e : ε} (he : P e)
    (h : CutOff P x y) : CutOff P (if p then x else .error e) (if q then y else .error e) := by
  by_cases hp : p
  · rw [if_pos hp, if_pos (hpq hp)]
    exact h
  · rw [if_neg hp]
    exact error he _

theorem step {f g : α → Except ε β} (h : CutOff P x y)
    (hf : ∀ a, y = .ok a → CutOff P (f a) (g a)) : CutOff P (x >>= f) (y >>= g) := by
  rcases h with rfl | ⟨e, he, rfl⟩
  · cases x with
    | error e => exact refl _
    | ok a => exact hf a rfl
  · exact error he _

theorem bind {f g : α → Except ε β} (h : CutOff P x y) (hf : ∀ a, CutOff P (f a) (g a)) :
    CutOff P (x >>= f) (y >>= g) :=
  h.step fun a _ ↦ hf a

theorem congruence : Congruence fun _ ↦ CutOff P := ⟨refl, bind⟩

theorem map (f : α → β) (h : CutOff P x y) : CutOff P (f <$> x) (f <$> y) := congruence.map f h

theorem mapM {f g : α → Except ε β} {l : List α} (h : ∀ a ∈ l, CutOff P (f a) (g a)) :
    CutOff P (l.mapM f) (l.mapM g) :=
  congruence.mapM h

theorem ite {p : Prop} [Decidable p] {x' y' : Except ε α} (h : CutOff P x y)
    (h' : CutOff P x' y') : CutOff P (if p then x else x') (if p then y else y') := by
  split
  · exact h
  · exact h'

end CutOff

theorem length_of_mapM {f : α → Except ε β} {l : List α} {bs : List β}
    (h : l.mapM f = .ok bs) : bs.length = l.length := by
  induction l generalizing bs with
  | nil =>
    cases h
    rfl
  | cons a l ih =>
    simp only [List.mapM_cons, bind_eq_ok] at h
    obtain ⟨b, _, bs, hbs, h⟩ := h
    cases h
    exact congrArg (· + 1) (ih hbs)

theorem exists_mapM {f : α → Except ε β} {l : List α} (h : ∀ a ∈ l, ∃ b, f a = .ok b) :
    ∃ bs, l.mapM f = .ok bs := by
  induction l with
  | nil => exact ⟨[], rfl⟩
  | cons a l ih =>
    obtain ⟨b, hb⟩ := h a List.mem_cons_self
    obtain ⟨bs, hbs⟩ := ih fun a ha ↦ h a (List.mem_cons_of_mem _ ha)
    simp only [List.mapM_cons, bind_eq_ok]
    exact ⟨b :: bs, b, hb, bs, hbs, rfl⟩

theorem exists_of_mem_mapM {f : α → Except ε β} {l : List α} {bs : List β}
    (h : l.mapM f = .ok bs) {b : β} (hb : b ∈ bs) : ∃ a ∈ l, f a = .ok b := by
  induction l generalizing bs with
  | nil =>
    cases h
    cases hb
  | cons a l ih =>
    simp only [List.mapM_cons, bind_eq_ok] at h
    obtain ⟨c, hc, cs, hcs, h⟩ := h
    cases h
    rcases List.mem_cons.1 hb with rfl | hb
    · exact ⟨a, List.mem_cons_self, hc⟩
    · obtain ⟨x, hx, hxb⟩ := ih hcs hb
      exact ⟨x, List.mem_cons_of_mem _ hx, hxb⟩

theorem pairwise_of_mapM {f : α → Except ε β} {R : α → α → Prop} {S : β → β → Prop}
    (hf : ∀ {a a' b b'}, f a = .ok b → f a' = .ok b' → R a a' → S b b') {l : List α}
    (hl : l.Pairwise R) {bs : List β} (h : l.mapM f = .ok bs) : bs.Pairwise S := by
  induction hl generalizing bs with
  | nil =>
    cases h
    exact .nil
  | cons ha _ ih =>
    simp only [List.mapM_cons, bind_eq_ok] at h
    obtain ⟨b, hb, bs, hbs, h⟩ := h
    cases h
    refine .cons (fun b' hb' ↦ ?_) (ih hbs)
    obtain ⟨a', ha', hab'⟩ := exists_of_mem_mapM hbs hb'
    exact hf hb hab' (ha a' ha')

theorem exists_perm_of_mapM {f : α → Except ε β} {l l' : List α} (hl : l.Perm l') {bs : List β}
    (h : l.mapM f = .ok bs) : ∃ cs, bs.Perm cs ∧ l'.mapM f = .ok cs := by
  induction hl generalizing bs with
  | nil => exact ⟨bs, .refl _, h⟩
  | cons a _ ih =>
    simp only [List.mapM_cons, bind_eq_ok] at h ⊢
    obtain ⟨b, hb, bs, hbs, h⟩ := h
    cases h
    obtain ⟨cs, hp, hcs⟩ := ih hbs
    exact ⟨b :: cs, hp.cons b, b, hb, cs, hcs, rfl⟩
  | swap a a' l =>
    simp only [List.mapM_cons, bind_eq_ok] at h ⊢
    obtain ⟨b', hb', _, ⟨b, hb, bs, hbs, h'⟩, h⟩ := h
    cases h'
    cases h
    exact ⟨b :: b' :: bs, .swap b b' bs, b, hb, _, ⟨b', hb', bs, hbs, rfl⟩, rfl⟩
  | trans _ _ ih ih' =>
    obtain ⟨cs, hp, hcs⟩ := ih h
    obtain ⟨ds, hp', hds⟩ := ih' hcs
    exact ⟨ds, hp.trans hp', hds⟩

end Cbor
