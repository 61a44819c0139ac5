import Cbor.Proofs.Encoder.Depth
import Cbor.Proofs.Encoder.Emit
import Mathlib.Data.List.Perm.Basic

namespace Cbor

namespace Octets

theorem ble_iff {b c : Octets} : ble b c = true ↔ b ≤ c := by
  induction b generalizing c with
  | nil => simp [ble]
  | cons x b ih =>
    cases c with
    | nil => simp [ble]
    | cons y c => simp [ble, ih, List.cons_le_cons_iff]

end Octets

variable {α β : Type}

def sortKeyed (l : List (Octets × α)) : List (Octets × α) :=
  l.mergeSort fun a b ↦ Octets.ble a.1 b.1

theorem mem_sortKeyed {l : List (Octets × α)} {a : Octets × α} : a ∈ sortKeyed l ↔ a ∈ l :=
  List.mem_mergeSort

theorem sortKeyed_map (f : Octets × α → Octets × β) (hf : ∀ a, (f a).1 = a.1)
    (l : List (Octets × α)) : sortKeyed (l.map f) = (sortKeyed l).map f :=
  (List.map_mergeSort fun a _ b _ ↦ by rw [hf, hf]).symm

theorem forM_sortKeyed_map {m : Type → Type} [Monad m] [LawfulMonad m] (f : α → β)
    (act : Octets × β → m PUnit) (ks : List (Octets × α)) :
    (sortKeyed (ks.map fun k ↦ (k.1, f k.2))).forM act =
      (sortKeyed ks).forM fun k ↦ act (k.1, f k.2) := by
  rw [sortKeyed_map (fun k ↦ (k.1, f k.2)) (fun _ ↦ rfl), List.forM_eq_forM, List.forM_map]
  rfl

theorem sortKeyed_left (zs : List (Octets × α × β)) :
    sortKeyed (zs.map fun z ↦ (z.1, z.2.1)) = (sortKeyed zs).map fun z ↦ (z.1, z.2.1) :=
  sortKeyed_map (fun z ↦ (z.1, z.2.1)) (fun _ ↦ rfl) zs

theorem sortKeyed_right (zs : List (Octets × α × β)) :
    sortKeyed (zs.map fun z ↦ (z.1, z.2.2)) = (sortKeyed zs).map fun z ↦ (z.1, z.2.2) :=
  sortKeyed_map (fun z ↦ (z.1, z.2.2)) (fun _ ↦ rfl) zs

theorem pairwise_sortKeyed (l : List (Octets × α)) :
    (sortKeyed l).Pairwise fun a b ↦ a.1 ≤ b.1 := by
  have htrans (a b c : Octets × α) (hab : Octets.ble a.1 b.1 = true)
      (hbc : Octets.ble b.1 c.1 = true) : Octets.ble a.1 c.1 = true :=
    Octets.ble_iff.2 (List.le_trans (Octets.ble_iff.1 hab) (Octets.ble_iff.1 hbc))
  have htotal (a b : Octets × α) : (Octets.ble a.1 b.1 || Octets.ble b.1 a.1) = true := by
    simpa only [Bool.or_eq_true, Octets.ble_iff] using List.le_total a.1 b.1
  exact (List.pairwise_mergeSort htrans htotal l).imp Octets.ble_iff.1

theorem sortKeyed_of_pairwise {l : List (Octets × α)} (h : l.Pairwise fun a b ↦ a.1 ≤ b.1) :
    sortKeyed l = l :=
  List.mergeSort_of_pairwise (h.imp Octets.ble_iff.2)

/-- Where all keys are different, there is one order only. -/
theorem sortKeyed_eq_of_perm {l l' : List (Octets × α)} (hp : l.Perm l')
    (hd : l.Pairwise fun a b ↦ a.1 ≠ b.1) : sortKeyed l = sortKeyed l' := by
  have strict {m : List (Octets × α)} (hm : m.Pairwise fun a b ↦ a.1 ≠ b.1) :
      (sortKeyed m).Pairwise fun a b ↦ a.1 < b.1 := by
    have hm' : (sortKeyed m).Pairwise fun a b ↦ a.1 ≠ b.1 :=
      ((m.mergeSort_perm _).pairwise_iff fun h ↦ h.symm).2 hm
    refine ((pairwise_sortKeyed m).and hm').imp fun ⟨hle, hne⟩ ↦ List.not_le.1 fun hge ↦ ?_
    exact hne (List.le_antisymm hle hge)
  have hd' : l'.Pairwise fun a b ↦ a.1 ≠ b.1 := (hp.pairwise_iff fun h ↦ h.symm).1 hd
  refine List.Perm.eq_of_pairwise (fun a b _ _ hab hba ↦ ?_) (strict hd) (strict hd')
    ((l.mergeSort_perm _).trans (hp.trans (l'.mergeSort_perm _).symm))
  exact absurd (List.lt_trans hab hba) (List.lt_irrefl _)

def keyed (key : α → Except Fault Octets) (l : List α) : Except Fault (List (Octets × α)) :=
  l.mapM fun a ↦ (·, a) <$> key a

theorem keyed_cons (key : α → Except Fault Octets) (a : α) (l : List α) :
    keyed key (a :: l) = key a >>= fun k ↦ ((k, a) :: ·) <$> keyed key l := by
  rw [keyed, List.mapM_cons, ← keyed]
  cases key a with
  | error e => rfl
  | ok k => cases keyed key l <;> rfl

theorem keyed_map (key : β → Except Fault Octets) (f : α → β) (l : List α) :
    keyed key (l.map f) = List.map (fun k ↦ (k.1, f k.2)) <$> keyed (fun a ↦ key (f a)) l := by
  induction l with
  | nil => rfl
  | cons a l ih =>
    rw [List.map_cons, keyed_cons, keyed_cons, ih]
    cases key (f a) with
    | error e => rfl
    | ok k => cases keyed (fun a ↦ key (f a)) l <;> rfl

theorem mem_of_keyed {key : α → Except Fault Octets} {l : List α} {ks : List (Octets × α)}
    (h : keyed key l = .ok ks) {k : Octets × α} (hk : k ∈ ks) : k.2 ∈ l := by
  obtain ⟨a, ha, hak⟩ := exists_of_mem_mapM h hk
  obtain ⟨_, _, rfl⟩ := map_eq_ok.1 hak
  exact ha

theorem keyed_congr {key key' : α → Except Fault Octets} {l : List α}
    (h : ∀ a ∈ l, key a = key' a) : keyed key l = keyed key' l := by
  induction l with
  | nil => rfl
  | cons a l ih =>
    obtain ⟨ha, hl⟩ := List.forall_mem_cons.1 h
    rw [keyed_cons, keyed_cons, ha, ih hl]

theorem map_snd_of_keyed {key : α → Except Fault Octets} {l : List α} {ks : List (Octets × α)}
    (h : keyed key l = .ok ks) : ks.map Prod.snd = l := by
  induction l generalizing ks with
  | nil =>
    cases h
    rfl
  | cons a l ih =>
    rw [keyed_cons] at h
    obtain ⟨k, _, h⟩ := bind_eq_ok.1 h
    obtain ⟨ks, hks, rfl⟩ := map_eq_ok.1 h
    exact congrArg (a :: ·) (ih hks)

theorem exists_of_keyed {R : α → β → Prop} {key : α → Except Fault Octets}
    {key' : β → Except Fault Octets} (hk : ∀ a b, R a b → Implies (key a) (key' b)) {l : List α}
    {l' : List β} (h : List.Forall₂ R l l') {ks : List (Octets × α)} (hks : keyed key l = .ok ks) :
    ∃ zs : List (Octets × α × β), (∀ z ∈ zs, key z.2.1 = .ok z.1 ∧ R z.2.1 z.2.2) ∧
      ks = zs.map (fun z ↦ (z.1, z.2.1)) ∧ keyed key' l' = .ok (zs.map fun z ↦ (z.1, z.2.2)) := by
  induction h generalizing ks with
  | nil =>
    cases hks
    exact ⟨[], nofun, rfl, rfl⟩
  | @cons a b l l' hab _ ih =>
    rw [keyed_cons] at hks
    obtain ⟨c, hc, hks⟩ := bind_eq_ok.1 hks
    obtain ⟨ks, hrest, rfl⟩ := map_eq_ok.1 hks
    obtain ⟨zs, hzs, rfl, hl'⟩ := ih hrest
    refine ⟨(c, a, b) :: zs, ?_, rfl, ?_⟩
    · rintro z (_ | ⟨_, hz⟩)
      · exact ⟨hc, hab⟩
      · exact hzs z hz
    · rw [keyed_cons, hk a b hab c hc, hl']
      rfl

namespace Encoder

theorem sortedTrees_eq (ts : List EntryTrees) (depth : Nat) (cells : CellTable) :
    sortedTrees ts depth cells =
      keyed (·.key depth) ts >>= fun ks ↦ entriesInTurn depth (sortKeyed ks) cells := rfl

/-- The entry is written as `e`, whatever cells have been written before. -/
def EntryTrees.Yields (depth : Nat) (t : EntryTrees) (e : Wire × Wire) : Prop :=
  t.key depth = .ok e.1.octets ∧ ∀ cells, t.entry depth cells = .ok (e, cells)

theorem entriesInTurn_of_yields {depth : Nat} {ks : List (Octets × EntryTrees)}
    {es : List (Wire × Wire)} (h : List.Forall₂ (fun k e ↦ k.2.Yields depth e) ks es)
    (cells : CellTable) : entriesInTurn depth ks cells = .ok (es, cells) := by
  induction h with
  | nil => rfl
  | cons he _ ih =>
    simp only [entriesInTurn, he.2, ih, ok_bind, pure_eq_ok]

theorem exists_keyed_of_yields {depth : Nat} {ts : List EntryTrees} {es : List (Wire × Wire)}
    (h : List.Forall₂ (EntryTrees.Yields depth) ts es) :
    ∃ ks, keyed (·.key depth) ts = .ok ks ∧ ks.map Prod.fst = es.map (fun e ↦ e.1.octets) ∧
      List.Forall₂ (fun k e ↦ k.2.Yields depth e) ks es := by
  induction h with
  | nil => exact ⟨[], rfl, rfl, .nil⟩
  | @cons t e ts es he _ ih =>
    obtain ⟨ks, hks, hfst, hys⟩ := ih
    refine ⟨(e.1.octets, t) :: ks, ?_, congrArg (_ :: ·) hfst, .cons he hys⟩
    rw [keyed_cons, he.1, hks]
    rfl

theorem sortedTrees_of_yields {depth : Nat} {ts : List EntryTrees} {es : List (Wire × Wire)}
    (h : List.Forall₂ (EntryTrees.Yields depth) ts es)
    (hs : (es.map fun e ↦ e.1.octets).Pairwise (· ≤ ·)) (cells : CellTable) :
    sortedTrees ts depth cells = .ok (es, cells) := by
  obtain ⟨ks, hks, hfst, hys⟩ := exists_keyed_of_yields h
  rw [← hfst, List.pairwise_map] at hs
  rw [sortedTrees_eq, hks, ok_bind, sortKeyed_of_pairwise hs, entriesInTurn_of_yields hys]

theorem exists_sortedTrees_of_yields {depth : Nat} {ts : List EntryTrees} {es : List (Wire × Wire)}
    (h : List.Forall₂ (EntryTrees.Yields depth) ts es) :
    ∃ es', es'.Perm es ∧ ∀ cells, sortedTrees ts depth cells = .ok (es', cells) := by
  obtain ⟨ks, hks, -, hys⟩ := exists_keyed_of_yields h
  obtain ⟨es', hys', hp⟩ := List.perm_comp_forall₂ (ks.mergeSort_perm _) hys
  exact ⟨es', hp, fun cells ↦ by
    rw [sortedTrees_eq, hks, ok_bind, sortKeyed, entriesInTurn_of_yields hys']⟩

namespace Emit

/-- The writings succeed on the same sinks and leave the same behind. -/
def Alike (a a' : Emit Unit) : Prop := ∀ s, SameResult (after a s) (after a' s)

namespace Alike

theorem refl (a : Emit Unit) : Alike a a := fun _ ↦ .refl _

theorem symm {a a' : Emit Unit} (h : Alike a a') : Alike a' a := fun s ↦ (h s).symm

theorem trans {a b c : Emit Unit} (h : Alike a b) (h' : Alike b c) : Alike a c :=
  fun s ↦ (h s).trans (h' s)

theorem seq {a a' : Emit Unit} {b b' : Unit → Emit Unit} (h : Alike a a')
    (h' : Alike (b ()) (b' ())) : Alike (a >>= b) (a' >>= b') :=
  Along.seq SameResult.congruence h h'

theorem ite {p : Prop} [Decidable p] {a a' b b' : Emit Unit} (h : Alike a a')
    (h' : Alike b b') : Alike (if p then a else b) (if p then a' else b') :=
  Along.ite h h'

theorem nested (o : Options) {a a' : Emit Unit} (h : Alike a a') :
    Alike (nested o a) (nested o a') := by
  intro s
  rw [after_nested, after_nested]
  split
  · exact (h _).bind fun _ ↦ .refl _
  · exact .refl _

theorem tagged (o : Options) (number : UInt64) {a a' : Emit Unit} (h : Alike a a') :
    Alike (tagged o number a) (tagged o number a') :=
  .nested o (.seq (.refl _) h)

theorem inNamespace {a a' : Emit Unit} (h : Alike a a') :
    Alike (inNamespace a) (inNamespace a') :=
  Along.inNamespace SameResult.congruence h

theorem keyOctets {a a' : Emit Unit} (h : Alike a a') (depth : Nat) :
    SameResult (keyOctets a depth) (keyOctets a' depth) :=
  Along.keyOctets SameResult.congruence h depth

end Alike

theorem sortedEntries_eq (plans : List EntryPlan) :
    sortedEntries plans = get >>= fun s ↦
      liftM (keyed (fun p ↦ keyOctets p.key s.depth) plans) >>= fun ks ↦
        (sortKeyed ks).forM fun k ↦ k.2.entry := by
  unfold sortedEntries
  refine congrArg (get >>= ·) (funext fun s ↦ ?_)
  have hk : (plans.mapM fun p ↦ do return (← keyOctets p.key s.depth, p.entry) :
      Emit (List (Octets × Emit Unit))) = liftM
        (List.map (fun k ↦ (k.1, k.2.entry)) <$> keyed (fun p ↦ keyOctets p.key s.depth) plans) := by
    induction plans with
    | nil => rfl
    | cons p plans ih =>
      rw [keyed_cons, List.mapM_cons, ih]
      cases keyOctets p.key s.depth with
      | error e => rfl
      | ok k => cases keyed (fun p ↦ keyOctets p.key s.depth) plans <;> rfl
  dsimp only
  rw [hk]
  cases keyed (fun p ↦ keyOctets p.key s.depth) plans with
  | error e => rfl
  | ok ks => exact forM_sortKeyed_map (·.entry) Prod.snd ks

theorem sortedEntries_map {ι : Type} (f : ι → EntryPlan) (l : List ι) :
    sortedEntries (l.map f) = get >>= fun s ↦
      liftM (keyed (fun i ↦ keyOctets (f i).key s.depth) l) >>= fun ks ↦
        (sortKeyed ks).forM fun k ↦ (f k.2).entry := by
  rw [sortedEntries_eq]
  refine congrArg (get >>= ·) (funext fun s ↦ ?_)
  rw [keyed_map]
  cases keyed (fun i ↦ keyOctets (f i).key s.depth) l with
  | error e => rfl
  | ok ks => exact forM_sortKeyed_map f (fun k ↦ k.2.entry) ks

theorem after_sortedEntries (plans : List EntryPlan) (s : Sink) :
    after (sortedEntries plans) s =
      keyed (fun p ↦ keyOctets p.key s.depth) plans >>= fun ks ↦
        after ((sortKeyed ks).forM fun k ↦ k.2.entry) s := by
  rw [sortedEntries_eq, after_get_bind, after_liftExcept_bind]

def EntryPlan.Alike (p q : EntryPlan) : Prop :=
  Emit.Alike p.key q.key ∧ Emit.Alike p.entry q.entry

theorem alike_sortedEntries {ps qs : List EntryPlan} (h : List.Forall₂ EntryPlan.Alike ps qs) :
    Alike (sortedEntries ps) (sortedEntries qs) := by
  have half {ps qs : List EntryPlan} (h : List.Forall₂ EntryPlan.Alike ps qs) (s : Sink) :
      Implies (after (sortedEntries ps) s) (after (sortedEntries qs) s) := by
    intro t ht
    rw [after_sortedEntries] at ht ⊢
    obtain ⟨ks, hks, ht⟩ := bind_eq_ok.1 ht
    obtain ⟨zs, hzs, rfl, hqs⟩ := exists_of_keyed
      (fun p q hpq ↦ (hpq.1.keyOctets s.depth).implies) h hks
    rw [sortKeyed_left] at ht
    rw [hqs, ok_bind, sortKeyed_right]
    simp only [List.forM_eq_forM, List.forM_map] at ht ⊢
    exact (Along.forM SameResult.congruence (fun z hz ↦ (hzs z (mem_sortKeyed.1 hz)).2.2) s t).1 ht
  intro s
  refine .of_implies (half h s) (half ?_ s)
  exact h.flip.imp fun _ _ h ↦ ⟨h.1.symm, h.2.symm⟩

/-- There is no depth at which both keys are written as the same. -/
def EntryPlan.Distinct (p q : EntryPlan) : Prop :=
  ∀ depth b, keyOctets p.key depth = .ok b → keyOctets q.key depth ≠ .ok b

theorem alike_sortedEntries_of_perm {ps qs : List EntryPlan} (hp : ps.Perm qs)
    (hd : ps.Pairwise EntryPlan.Distinct) : Alike (sortedEntries ps) (sortedEntries qs) := by
  have half {ps qs : List EntryPlan} (hp : ps.Perm qs) (hd : ps.Pairwise EntryPlan.Distinct)
      (s : Sink) : Implies (after (sortedEntries ps) s) (after (sortedEntries qs) s) := by
    intro t ht
    rw [after_sortedEntries] at ht ⊢
    obtain ⟨ks, hks, ht⟩ := bind_eq_ok.1 ht
    obtain ⟨ls, hkl, hls⟩ := exists_perm_of_mapM hp hks
    have hne : ks.Pairwise fun k l ↦ k.1 ≠ l.1 := by
      refine pairwise_of_mapM (fun {p q _ _} hk hl hpq ↦ ?_) hd hks
      obtain ⟨b, hb, rfl⟩ := map_eq_ok.1 hk
      obtain ⟨c, hc, rfl⟩ := map_eq_ok.1 hl
      rintro rfl
      exact hpq s.depth _ hb hc
    rw [keyed, hls, ok_bind, ← sortKeyed_eq_of_perm hkl hne]
    exact ht
  have hd' : qs.Pairwise EntryPlan.Distinct :=
    (hp.pairwise_iff fun h depth b hb hb' ↦ h depth b hb' hb).1 hd
  exact fun s ↦ .of_implies (half hp hd s) (half hp.symm hd' s)

end Emit

theorem entryPlans_eq_map (o : Options) (es : List (Item × Item)) :
    entryPlans o es = es.map fun e ↦
      ⟨write o.withoutReferences true e.1, do write o true e.1; write o false e.2⟩ := by
  induction es with
  | nil => rfl
  | cons e es ih => rw [entryPlans, ih, List.map_cons]

def entryTree (o : Options) (i : Item × Item) : EntryTrees where
  key depth := (fun r ↦ r.1.octets) <$> tree o.withoutReferences true i.1 depth #[]
  entry depth cells := do
    let (k, cells) ← tree o true i.1 depth cells
    let (w, cells) ← tree o false i.2 depth cells
    return ((k, w), cells)

theorem entryTrees_eq_map (o : Options) (is : List (Item × Item)) :
    entryTrees o is = is.map (entryTree o) := by
  induction is with
  | nil => rfl
  | cons i is ih => exact congrArg (_ :: ·) ih

end Encoder
end Cbor
