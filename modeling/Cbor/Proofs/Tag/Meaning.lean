import Cbor.Proofs.Bignum
import Cbor.Proofs.Calendar.Rfc3339
import Cbor.Proofs.Encoder.Tree
import Cbor.Proofs.Item.Formed

namespace Cbor.Tag

theorem interpret_eq_none {number : UInt64} (h : number ∉ Item.interpreted) (groups : Groups)
    (content : Item) : interpret groups number content = .ok none := by
  simp only [Item.interpreted, List.mem_cons, not_or] at h
  simp [interpret, h]

theorem interpret_stamp {groups : Groups} (hg : groups.dateTime = true) {t : Moment} {b : Octets}
    (h : Rfc3339.parse? b = some t) :
    interpret groups dateTime (.text b) = .ok (some (.dateTime t)) := by
  simp [interpret, hg, stampMeaning, textContent, h, orValueFault]

theorem interpret_bignum {groups : Groups} (hg : groups.bignum = true) (b : Bignum) :
    interpret groups (if b.negative then negativeBignum else positiveBignum)
      (.bytes b.magnitude) = .ok (some (.bignum b)) := by
  have hb := b.ofOctets_magnitude
  cases hn : b.negative <;> rw [hn] at hb
  · simpa [interpret, hg, bignumMeaning, show positiveBignum ≠ dateTime by decide,
      show positiveBignum ≠ epoch by decide,
      show positiveBignum ≠ negativeBignum by decide] using hb
  · simpa [interpret, hg, bignumMeaning, show negativeBignum ≠ dateTime by decide,
      show negativeBignum ≠ epoch by decide] using hb

theorem interpret_bignum_off {groups : Groups} (hg : groups.bignum = false) {number : UInt64}
    (hn : number = positiveBignum ∨ number = negativeBignum) (content : Item) :
    interpret groups number content = .ok none := by
  rcases hn with rfl | rfl <;>
    simp [interpret, hg, positiveBignum, negativeBignum, dateTime, epoch, decimal, bigFloat, uri]

theorem interpret_uri {groups : Groups} (hg : groups.uri = true) (u : Uri) :
    interpret groups uri (.text u.octets) = .ok (some (.uri u)) := by
  have hu : Uri.ofOctets? u.octets = some u := dif_pos u.valid
  have hm : uriMeaning (.text u.octets) = .ok u := by
    simp [uriMeaning, textContent, hu, orValueFault]
  simp [interpret, hg, hm, show uri ≠ dateTime by decide, show uri ≠ epoch by decide,
    show uri ≠ positiveBignum by decide, show uri ≠ negativeBignum by decide,
    show uri ≠ decimal by decide, show uri ≠ bigFloat by decide]

theorem exponentMeaning_integer (number : UInt64) (e : Int64) :
    exponentMeaning number (Scalar.integer e.toInt).item = .ok e := by
  have hl : -9223372036854775808 ≤ e.toInt := e.le_toInt
  have hh : e.toInt < 9223372036854775808 := e.toInt_lt
  cases hn : e.toInt with
  | ofNat n =>
    rw [hn] at hh
    have hlt : n < 9223372036854775808 := Int.ofNat_lt.1 hh
    have hw : (UInt64.ofNat n).toNat = n := UInt64.toNat_ofNat_of_lt' (by simp [UInt64.size]; omega)
    have he : Int64.ofNat n = e := by
      rw [← Int64.ofInt_toInt e, hn]
      rfl
    simp [exponentMeaning, Scalar.integer, Scalar.item, Item.int64?, hw, hlt, he, orValueFault]
  | negSucc n =>
    rw [hn] at hl
    have hlt : n < 9223372036854775808 := by omega
    have hw : (UInt64.ofNat n).toNat = n := UInt64.toNat_ofNat_of_lt' (by simp [UInt64.size]; omega)
    have he : Int64.ofInt (-1 - n) = e := by
      rw [← Int64.ofInt_toInt e, hn, Int.negSucc_eq]
      congr 1
      omega
    simp only [exponentMeaning, Scalar.integer, Scalar.item, Item.int64?, hw, if_pos hlt, he,
      orValueFault]

theorem mantissaMeaning_ofBignum (number : UInt64) (b : Bignum) :
    mantissaMeaning number (.ofBignum b) = .ok b := by
  unfold Item.ofBignum Item.ofBignum?
  cases hw : b.word? with
  | none => rfl
  | some n =>
    have hb := Bignum.ofOctets_word hw
    cases hn : b.negative <;> rw [hn] at hb <;>
      simp [mantissaMeaning, hb]

theorem fractionMeaning_array (number : UInt64) (q : Fraction) :
    fractionMeaning number
      (.array [(Scalar.integer q.exponent.toInt).item, .ofBignum q.mantissa]) = .ok q := by
  simp [fractionMeaning, exponentMeaning_integer, mantissaMeaning_ofBignum]

theorem interpret_decimal {groups : Groups} (hg : groups.decimal = true) (content : Item) :
    interpret groups decimal content = some <$> .decimal <$> fractionMeaning decimal content := by
  simp [interpret, hg, show decimal ≠ dateTime by decide, show decimal ≠ epoch by decide,
    show decimal ≠ positiveBignum by decide, show decimal ≠ negativeBignum by decide]

theorem interpret_bigFloat {groups : Groups} (hg : groups.decimal = true) (content : Item) :
    interpret groups bigFloat content = some <$> .bigFloat <$> fractionMeaning bigFloat content := by
  simp [interpret, hg, show bigFloat ≠ dateTime by decide, show bigFloat ≠ epoch by decide,
    show bigFloat ≠ positiveBignum by decide, show bigFloat ≠ negativeBignum by decide,
    show bigFloat ≠ decimal by decide]

theorem orValueFault_eq_ok {α : Type} {tag : UInt64} {x : Option α} {a : α} :
    orValueFault tag x = .ok a ↔ x = some a := by
  cases x <;> simp [orValueFault]

theorem isOffset_of_stamp {content : Item} {t : Moment} (h : stampMeaning content = .ok t) :
    Rfc3339.IsOffset t.offset := by
  obtain ⟨b, _, h⟩ := bind_eq_ok.1 h
  exact Rfc3339.isOffset_of_parse? (orValueFault_eq_ok.1 h)

theorem offset_of_seconds {n : Int} {t : Moment} (h : Moment.ofSeconds? n = some t) :
    t.offset = 0 := by
  unfold Moment.ofSeconds? at h
  split at h <;> cases h
  rfl

theorem offset_of_double {bits : UInt64} {t : Moment} (h : Moment.ofDouble? bits = some t) :
    t.offset = 0 := by
  simp only [Moment.ofDouble?] at h
  split at h
  · split at h
    · unfold Moment.ofNanos? at h
      simp only [Option.ite_none_right_eq_some, Option.some.injEq] at h
      obtain ⟨_, rfl⟩ := h
      rfl
    · cases h
  · cases h

theorem offset_of_epoch {content : Item} {t : Moment} (h : epochMeaning content = .ok t) :
    t.offset = 0 := by
  unfold epochMeaning at h
  split at h
  case h_1 | h_2 => exact offset_of_seconds (orValueFault_eq_ok.1 h)
  case h_3 | h_4 | h_5 => exact offset_of_double (orValueFault_eq_ok.1 h)
  case h_6 => cases h

theorem exists_of_made {α : Type} {x : Except Fault α} {make : α → Item} {item : Item}
    (h : some <$> make <$> x = .ok (some item)) : ∃ a, x = .ok a ∧ make a = item := by
  simp only [map_eq_ok] at h
  obtain ⟨_, ⟨a, ha, rfl⟩, h⟩ := h
  exact ⟨a, ha, Option.some.inj h⟩

theorem made_ne_none {α : Type} {x : Except Fault α} {make : α → Item} :
    some <$> make <$> x ≠ .ok none := by
  cases x <;> nofun

theorem cases_of_interpret {groups : Groups} {number : UInt64} {content item : Item}
    (h : interpret groups number content = .ok (some item)) :
    (∃ t, Rfc3339.IsOffset t.offset ∧ groups.dateTime = true ∧ item = .dateTime t) ∨
      (∃ b, bignumMeaning number content = .ok b ∧ groups.bignum = true ∧ item = .bignum b) ∨
      (∃ f, fractionMeaning number content = .ok f ∧ groups.decimal = true ∧
        (item = .decimal f ∨ item = .bigFloat f)) ∨
      ∃ u, uriMeaning content = .ok u ∧ groups.uri = true ∧ item = .uri u := by
  unfold interpret at h
  split at h
  · obtain ⟨t, ht, rfl⟩ := exists_of_made h
    exact .inl ⟨t, isOffset_of_stamp ht, ‹_ ∧ _›.2, rfl⟩
  split at h
  · obtain ⟨t, ht, rfl⟩ := exists_of_made h
    exact .inl ⟨t, offset_of_epoch ht ▸ ⟨by decide, rfl⟩, ‹_ ∧ _›.2, rfl⟩
  split at h
  · obtain ⟨b, hb, rfl⟩ := exists_of_made h
    exact .inr (.inl ⟨b, hb, ‹_ ∧ _›.2, rfl⟩)
  split at h
  · obtain ⟨f, hf, rfl⟩ := exists_of_made h
    exact .inr (.inr (.inl ⟨f, hf, ‹_ ∧ _›.2, .inl rfl⟩))
  split at h
  · obtain ⟨f, hf, rfl⟩ := exists_of_made h
    exact .inr (.inr (.inl ⟨f, hf, ‹_ ∧ _›.2, .inr rfl⟩))
  split at h
  · obtain ⟨u, hu, rfl⟩ := exists_of_made h
    exact .inr (.inr (.inr ⟨u, hu, ‹_ ∧ _›.2, rfl⟩))
  · cases h

theorem formed_of_interpret {groups : Groups} {number : UInt64} {content item : Item}
    (h : interpret groups number content = .ok (some item)) (f : Flags) :
    (item.native f).Formed f Item.Dated := by
  obtain ⟨t, ht, -, rfl⟩ | ⟨_, _, _, rfl⟩ | ⟨_, _, _, rfl | rfl⟩ | ⟨_, _, _, rfl⟩ :=
    cases_of_interpret h
  · exact ht.1
  all_goals trivial

theorem not_mem_of_interpret {number : UInt64} {content : Item}
    (h : interpret {} number content = .ok none) (hsr : number ≠ stringRef)
    (hns : number ≠ stringRefNamespace) : number ∉ Item.interpreted := by
  unfold interpret at h
  split at h
  · exact absurd h made_ne_none
  split at h
  · exact absurd h made_ne_none
  split at h
  · exact absurd h made_ne_none
  split at h
  · exact absurd h made_ne_none
  split at h
  · exact absurd h made_ne_none
  split at h
  · exact absurd h made_ne_none
  · simp_all [Item.interpreted]

end Cbor.Tag
