import Cbor.Proofs.Substitution
import Cbor.Proofs.Wire.Decode

namespace Cbor

open Decoder (Options)
open Assembly

def Fault.tag? : Fault → Option UInt64
  | .tagSyntax tag | .tagType tag | .tagValue tag => some tag
  | _ => none

/-- If `x` fails, it is not for a reference to a string, and if it succeeds, `P` holds. -/
inductive Resolves {α : Type} (P : α → Prop) : Except Fault α → Prop
  | ok {a : α} (h : P a) : Resolves P (.ok a)
  | error {e : Fault} (h : e.tag? ≠ some Tag.stringRef) : Resolves P (.error e)

namespace Resolves

variable {α β : Type} {P : α → Prop} {Q : β → Prop} {x : Except Fault α}

theorem bind {f : α → Except Fault β} (h : Resolves P x) (hf : ∀ a, P a → Resolves Q (f a)) :
    Resolves Q (x >>= f) := by
  cases h with
  | ok h => exact hf _ h
  | error h => exact .error h

theorem map {f : α → β} (h : Resolves P x) (hf : ∀ a, P a → Q (f a)) : Resolves Q (f <$> x) := by
  cases h with
  | ok h => exact .ok (hf _ h)
  | error h => exact .error h

theorem mono {P' : α → Prop} (h : Resolves P x) (hp : ∀ a, P a → P' a) : Resolves P' x := by
  cases h with
  | ok h => exact .ok (hp _ h)
  | error h => exact .error h

theorem tag_ne (h : Resolves P x) {e : Fault} (he : x = .error e) :
    e.tag? ≠ some Tag.stringRef := by
  cases h with
  | ok => cases he
  | error h =>
    cases he
    exact h

theorem ite {p : Prop} [Decidable p] {y : Except Fault α} (h : p → Resolves P x)
    (h' : ¬ p → Resolves P y) : Resolves P (if p then x else y) := by
  split
  case isTrue hp => exact h hp
  case isFalse hp => exact h' hp

theorem untagged {e : Fault} (h : e.tag? = none) : Resolves P (.error e) :=
  .error fun he ↦ Option.some_ne_none _ (he.symm.trans h)

theorem type {tag : UInt64} (h : tag ≠ Tag.stringRef) : Resolves P (.error (.tagType tag)) :=
  .error fun he ↦ h (Option.some.inj he)

theorem value {tag : UInt64} (h : tag ≠ Tag.stringRef) : Resolves P (.error (.tagValue tag)) :=
  .error fun he ↦ h (Option.some.inj he)

end Resolves

namespace Tag

variable {number : UInt64} (hn : number ≠ stringRef)

include hn

theorem resolves_orValueFault {α : Type} (a? : Option α) :
    Resolves (fun _ ↦ True) (orValueFault number a?) := by
  cases a? with
  | none => exact .value hn
  | some a => exact .ok trivial

theorem resolves_textContent (content : Item) :
    Resolves (fun _ ↦ True) (textContent number content) := by
  unfold textContent
  split
  · exact .ok trivial
  · exact .type hn

theorem resolves_bignumMeaning (content : Item) :
    Resolves (fun _ ↦ True) (bignumMeaning number content) := by
  unfold bignumMeaning
  split
  · exact .ok trivial
  · exact .type hn

theorem resolves_fractionMeaning (content : Item) :
    Resolves (fun _ ↦ True) (fractionMeaning number content) := by
  unfold fractionMeaning
  split
  · rename_i exponent mantissa
    have hexponent : Resolves (fun _ ↦ True) (exponentMeaning number exponent) := by
      unfold exponentMeaning
      split
      · exact resolves_orValueFault hn _
      · exact resolves_orValueFault hn _
      · exact .type hn
    have hmantissa : Resolves (fun _ ↦ True) (mantissaMeaning number mantissa) := by
      unfold mantissaMeaning
      split
      · exact .ok trivial
      · exact .ok trivial
      · exact .ok trivial
      · exact .type hn
    exact hexponent.bind fun _ _ ↦ hmantissa.bind fun _ _ ↦ .ok trivial
  · exact .value hn
  · exact .type hn

theorem resolves_interpret (groups : Groups) (content : Item) :
    Resolves (fun _ ↦ True) (interpret groups number content) := by
  have hstamp : Resolves (fun _ ↦ True) (stampMeaning content) :=
    (resolves_textContent (by decide) content).bind fun _ _ ↦ resolves_orValueFault (by decide) _
  have hepoch : Resolves (fun _ ↦ True) (epochMeaning content) := by
    unfold epochMeaning
    split
    case h_6 => exact .type (by decide)
    all_goals exact resolves_orValueFault (by decide) _
  have huri : Resolves (fun _ ↦ True) (uriMeaning content) :=
    (resolves_textContent (by decide) content).bind fun _ _ ↦ resolves_orValueFault (by decide) _
  have hmade {α : Type} {x : Except Fault α} (f : α → Item) (h : Resolves (fun _ ↦ True) x) :
      Resolves (fun _ ↦ True) (some <$> f <$> x) :=
    (h.map (Q := fun _ ↦ True) fun _ _ ↦ trivial).map fun _ _ ↦ trivial
  unfold interpret
  refine .ite (fun _ ↦ hmade _ hstamp) fun _ ↦ ?_
  refine .ite (fun _ ↦ hmade _ hepoch) fun _ ↦ ?_
  refine .ite (fun _ ↦ hmade _ (resolves_bignumMeaning hn content)) fun _ ↦ ?_
  refine .ite (fun _ ↦ hmade _ (resolves_fractionMeaning hn content)) fun _ ↦ ?_
  refine .ite (fun _ ↦ hmade _ (resolves_fractionMeaning hn content)) fun _ ↦ ?_
  exact .ite (fun _ ↦ hmade _ huri) fun _ ↦ .ok trivial

end Tag

variable {o : Options} {s : Scope} {tables tables' : List StringTable}

theorem resolves_checkSize (maxSize n : Nat) :
    Resolves (fun _ ↦ True) (Lexeme.checkSize maxSize n) :=
  .ite (fun _ ↦ .ok trivial) fun _ ↦ .untagged rfl

theorem resolves_checkText (o : Options) (b : Octets) :
    Resolves (fun _ ↦ True) (checkText o b) :=
  .ite (fun _ ↦ .ok trivial) fun _ ↦ .untagged rfl

theorem resolves_enter (o : Options) (s : Scope) :
    Resolves (fun t ↦ t.strings = s.strings) (s.enter o.maxDepth) :=
  .ite (fun _ ↦ .ok rfl) fun _ ↦ .untagged rfl

theorem resolves_charge (s : Scope) (maxSize n : Nat) :
    Resolves (fun t ↦ t.strings = s.strings) (s.charge maxSize n) :=
  (resolves_checkSize maxSize _).bind fun _ _ ↦ .ok rfl

theorem resolves_mapKey (flags : Flags) (key : Item) :
    Resolves (fun _ ↦ True) (key.mapKey flags) := by
  have hoctets : Resolves (fun _ ↦ True) (key.keyOctets flags) := by
    unfold Item.keyOctets
    split
    case h_5 => exact .untagged rfl
    all_goals exact .ite (fun _ ↦ .ok trivial) fun _ ↦ .untagged rfl
  unfold Item.mapKey
  refine .ite (fun _ ↦ .ok trivial) fun _ ↦ hoctets.bind fun b _ ↦ ?_
  exact .ite (fun _ ↦ .untagged rfl) fun _ ↦ .ok trivial

theorem resolves_joinChunks (o : Options) (isText : Bool) (done : Array UInt8)
    (parts : List Octets) : Resolves (fun _ ↦ True) (Wire.joinChunks o isText done parts) := by
  induction parts generalizing done with
  | nil => exact .ok trivial
  | cons b parts ih =>
    have hrest : Resolves (fun _ ↦ True) (Lexeme.checkSize o.maxSize (done.size + b.length) >>=
        fun _ ↦ Wire.joinChunks o isText (done ++ b) parts) :=
      (resolves_checkSize _ _).bind fun _ _ ↦ ih _
    cases isText with
    | false => exact hrest
    | true => exact (resolves_checkText o b).bind fun _ _ ↦ hrest

theorem resolves_growth (o : Options) (indefinite : Bool) (size : Nat) :
    Resolves (fun _ ↦ True) (Wire.growth o indefinite size) :=
  .ite (fun _ ↦ resolves_checkSize _ _) fun _ ↦ .ok trivial

theorem resolves_entryKey (o : Options) (indefinite : Bool) (done : Array (Item × Item))
    (key : Item) : Resolves (fun _ ↦ True) (Wire.entryKey o indefinite done key) := by
  refine (resolves_growth o indefinite done.size).bind fun _ _ ↦ ?_
  refine (resolves_mapKey o.flags key).bind fun _ _ ↦ ?_
  exact .ite (fun _ ↦ .untagged rfl) fun _ ↦ .ok trivial

theorem resolves_openRole {number : UInt64} (hns : number ≠ Tag.stringRefNamespace)
    (hsr : number ≠ Tag.stringRef) (shared : Bool) :
    Resolves (fun r ↦ r.2.strings = s.strings ∧ r.1 ≠ .stringNamespace ∧ r.1 ≠ .stringRef)
      (openRole o shared number s) := by
  unfold openRole
  rw [if_neg fun h ↦ hns h.1, if_neg fun h ↦ hsr h.1]
  refine .ite (fun _ ↦ .ite (fun _ ↦ .error (by decide)) fun _ ↦ .ok ⟨rfl, nofun, nofun⟩)
    fun _ ↦ ?_
  exact .ite (fun _ ↦ .ok ⟨rfl, nofun, nofun⟩) fun _ ↦ .ok ⟨rfl, nofun, nofun⟩

theorem resolves_closeTag {number : UInt64} (hsr : number ≠ Tag.stringRef) {role : TagRole}
    (hrole : role ≠ .stringNamespace) (hrole' : role ≠ .stringRef) (content : Item) :
    Resolves (fun r ↦ r.2.strings = s.strings) (closeTag o number role content s) := by
  cases role with
  | stringNamespace => exact absurd rfl hrole
  | stringRef => exact absurd rfl hrole'
  | shareable cell => exact .ok rfl
  | sharedRef =>
    have hresolve : Resolves (fun _ ↦ True) (s.shared.resolve content) := by
      unfold SharedItems.resolve
      split
      · split
        · exact .ok trivial
        · exact .untagged rfl
        · exact .value (by decide)
      · exact .type (by decide)
    exact hresolve.bind fun _ _ ↦ (resolves_charge s _ _).bind fun _ ht ↦ .ok ht
  | plain =>
    refine (Tag.resolves_interpret hsr o.groups content).bind fun found _ ↦ ?_
    cases found <;> exact .ok rfl

theorem resolves_stringRef (hr : o.stringRef = true) {inner : StringTable}
    {outer : List StringTable} {index : UInt64} {e : Bool × Octets}
    (hi : inner[index.toNat]? = some e) (hs : s.strings = namespaces (inner :: outer))
    (shared : Bool) :
    Resolves (fun r ↦ r.2.strings = namespaces (inner :: outer))
      ((Wire.tag Tag.stringRef (.scalar (.unsigned index))).meaning o shared s) := by
  refine (resolves_enter o s).bind fun t ht ↦ ?_
  rw [openRole_stringRef hr, ok_bind]
  have hresolve : StringNamespace.resolve (.unsigned index) t.leave.strings =
      .ok (.ofString e.1 e.2) := by
    have hstrings : t.leave.strings = namespaces (inner :: outer) := ht.trans hs
    rw [hstrings]
    simp [StringNamespace.resolve, namespaces, hi]
  show Resolves _ (StringNamespace.resolve (.unsigned index) t.leave.strings >>= _)
  rw [hresolve, ok_bind]
  exact (resolves_charge t.leave _ _).bind fun u hu ↦ .ok (hu.trans (ht.trans hs))

namespace Wire

mutual

/-- A tree in which all references name strings is never read as one with a wrong reference,
whatever else may be wrong, and reading it leaves the strings that are numbered. -/
theorem resolves_meaning (hr : o.stringRef = true) : (w : Wire) → ∀ {shared : Bool} {s : Scope}
    {tables tables' : List StringTable} {w' : Wire}, w.expand tables = some (w', tables') →
    s.strings = namespaces tables →
    Resolves (fun r ↦ r.2.strings = namespaces tables') (w.meaning o shared s)
  | scalar _, _, _, _, _, _, he, hs => by
    cases he
    exact .ok hs
  | simple _ _, _, _, _, _, _, _, _ => .untagged rfl
  | string isText b, _, s, tables, _, _, he, hs => by
    cases he
    have hrecord : (s.record (.ofString isText b) b.length).strings =
        namespaces (StringTable.record isText b tables) := by
      rw [namespaces_record, ← hs]
      rfl
    rw [meaning_string]
    exact Resolves.bind (.ite (fun _ ↦ resolves_checkText o b) fun _ ↦ .ok trivial)
      fun _ _ ↦ .ok hrecord
  | chunks isText parts, _, _, _, _, _, he, hs => by
    cases he
    exact (resolves_joinChunks o isText #[] parts).bind fun _ _ ↦ .ok hs
  | array indefinite items, _, s, _, _, _, he, hs => by
    simp only [expand, Option.bind_eq_bind, Option.bind_eq_some_iff] at he
    obtain ⟨_, hi, he⟩ := he
    cases he
    refine (resolves_enter o s).bind fun t ht ↦ ?_
    exact (resolves_meaningAll hr items hi (ht.trans hs)).bind fun _ h ↦ .ok h
  | map indefinite entries, _, s, _, _, _, he, hs => by
    simp only [expand, Option.bind_eq_bind, Option.bind_eq_some_iff] at he
    obtain ⟨_, hi, he⟩ := he
    cases he
    refine (resolves_enter o s).bind fun t ht ↦ ?_
    exact (resolves_meaningEntries hr entries hi (ht.trans hs)).bind fun _ h ↦ .ok h
  | tag number content, shared, s, tables, tables', w', he, hs => by
    rcases expand_tag he with ⟨rfl, inner, hin, rfl⟩ |
      ⟨rfl, inner, outer, index, isText, b, rfl, rfl, hi, rfl, rfl⟩ | ⟨hns, hsr, content', hin, rfl⟩
    · refine (resolves_enter o s).bind fun t ht ↦ ?_
      have hpush : #[] :: t.strings = namespaces (#[] :: tables) := by
        simp [ht, hs, namespaces]
      rw [openRole_stringNamespace hr, ok_bind]
      refine (resolves_meaning hr content hin hpush).bind fun r h ↦ .ok ?_
      show r.2.strings.tail = _
      rw [h, namespaces, namespaces, List.map_tail]
    · exact resolves_stringRef hr hi hs shared
    · refine (resolves_enter o s).bind fun t ht ↦ ?_
      refine (resolves_openRole hns hsr shared).bind fun ⟨role, u⟩ ⟨hu, hrole, hrole'⟩ ↦ ?_
      refine (resolves_meaning hr content hin (hu.trans (ht.trans hs))).bind fun r h ↦ ?_
      exact (resolves_closeTag hsr hrole hrole' r.1).mono fun q hq ↦ hq.trans h

theorem resolves_meaningAll (hr : o.stringRef = true) {indefinite : Bool} : (ws : List Wire) →
    ∀ {done : Array Item} {s : Scope} {tables tables' : List StringTable} {ws' : List Wire},
    expandAll tables ws = some (ws', tables') → s.strings = namespaces tables →
    Resolves (fun r ↦ r.2.strings = namespaces tables') (meaningAll o indefinite done s ws)
  | [], _, _, _, _, _, he, hs => by
    cases he
    exact .ok hs
  | w :: ws, _, _, _, _, _, he, hs => by
    simp only [expandAll, Option.bind_eq_bind, Option.bind_eq_some_iff] at he
    obtain ⟨_, hw, _, hws, he⟩ := he
    cases he
    refine (resolves_meaning hr w hw hs).bind fun r h ↦ ?_
    refine (resolves_growth o indefinite _).bind fun _ _ ↦ ?_
    exact resolves_meaningAll hr ws hws h

theorem resolves_meaningEntries (hr : o.stringRef = true) {indefinite : Bool} :
    (es : List (Wire × Wire)) → ∀ {done : Array (Item × Item)} {s : Scope}
    {tables tables' : List StringTable} {es' : List (Wire × Wire)},
    expandEntries tables es = some (es', tables') → s.strings = namespaces tables →
    Resolves (fun r ↦ r.2.strings = namespaces tables') (meaningEntries o indefinite done s es)
  | [], _, _, _, _, _, he, hs => by
    cases he
    exact .ok hs
  | (k, v) :: es, _, _, _, _, _, he, hs => by
    simp only [expandEntries, Option.bind_eq_bind, Option.bind_eq_some_iff] at he
    obtain ⟨_, hk, _, hv, _, hes, he⟩ := he
    cases he
    refine (resolves_meaning hr k hk hs).bind fun key h ↦ ?_
    refine (resolves_entryKey o indefinite _ key.1).bind fun _ _ ↦ ?_
    refine (resolves_meaning hr v hv h).bind fun r h ↦ ?_
    exact resolves_meaningEntries hr es hes h

end

end Wire

theorem resolves_styleCheck (st : Diagnostic.Style) : Resolves (fun _ ↦ True) st.check := by
  have hok : Resolves (fun _ ↦ True) (.ok () : Except Fault Unit) := .ok trivial
  have hthrow {p : Prop} [Decidable p] {name : String} {x : Except Fault Unit}
      (hx : Resolves (fun _ ↦ True) x) :
      Resolves (fun _ ↦ True) (if p then .error (.invalidOption name) else x) :=
    .ite (fun _ ↦ .untagged rfl) fun _ ↦ hx
  unfold Diagnostic.Style.check
  cases st.byteWrap with
  | none =>
    cases st.indent with
    | none | tab => exact hthrow hok
    | spaces n => exact hthrow (hthrow hok)
  | some w =>
    cases st.indent with
    | none | tab => exact hthrow (hthrow hok)
    | spaces n => exact hthrow (hthrow (hthrow hok))

theorem resolves_check (o : Options) : Resolves (fun _ ↦ True) o.check := by
  have hflags : Resolves (fun _ ↦ True) o.flags.checkReading := by
    refine Resolves.bind (P := fun _ ↦ True) ?_ fun _ _ ↦ ?_
    · exact .ite (fun _ ↦ .ok trivial) fun _ ↦ .untagged rfl
    · exact .ite (fun _ ↦ .untagged rfl) fun _ ↦ .ok trivial
  refine hflags.bind fun _ _ ↦ ?_
  dsimp only
  refine .ite (fun _ ↦ .untagged rfl) fun _ ↦ .ite (fun _ ↦ .untagged rfl) fun _ ↦ ?_
  exact .ite (fun _ ↦ resolves_styleCheck o.edn) fun _ ↦ .ok trivial

theorem resolves_decode {w w' : Wire} {data : Octets} (hr : o.stringRef = true)
    (hv : o.flags.contains .edn = false) (hm : o.maxSize < UInt64.size)
    (hw : w.Spelled (data.window o.offset o.length)) (he : w.expand [] = some (w', tables)) :
    Resolves (fun _ ↦ True) (decode data o) := by
  have hcheck := resolves_check o
  cases hc : o.check with
  | error e =>
    rw [hc] at hcheck
    cases hcheck with
    | error h =>
      have hdec : decode data o = .error e := by
        rw [decode, Decoder.new, hc]
        rfl
      exact hdec ▸ .error h
  | ok =>
    by_cases hs : (data.window o.offset o.length).length ≤ o.maxSize
    · have hu : ∃ w', (w.unprefixed o).expand [] = some (w', tables) := by
        rcases Wire.skips_or_unprefixed o w with ⟨hu, -⟩ | ⟨hu, -⟩
        · generalize w.unprefixed o = content at hu
          subst hu
          rw [Wire.expand, if_neg (by decide), if_neg (by decide)] at he
          simp only [Option.bind_eq_bind, Option.bind_eq_some_iff] at he
          obtain ⟨⟨content', _⟩, hin, he⟩ := he
          cases he
          exact ⟨content', hin⟩
        · exact ⟨w', hu ▸ he⟩
      obtain ⟨w', hu⟩ := hu
      rw [Wire.decode_meaning hw hs hm hv, hc, ok_bind]
      exact (Wire.resolves_meaning hr _ hu rfl).map fun _ _ ↦ trivial
    · rw [decode_of_oversized hc (Nat.not_le.1 hs)]
      exact .untagged rfl

end Cbor
