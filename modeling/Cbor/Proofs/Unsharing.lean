import Cbor.Proofs.Item.Native
import Cbor.Proofs.Tag.Meaning
import Cbor.Proofs.Wire.Recursion

namespace Cbor

open Decoder (Options)
open Assembly

namespace Datum

def index? : Datum → Option Nat
  | scalar (.unsigned n) => some n.toNat
  | _ => none

mutual

/-- The datum without tags 28, and with what they name in the place of tags 29. `named` holds what
is named so far, in the order in which the tags 28 open; an item is missing from it until its tag
closes. There is no answer if a tag 28 is directly inside a tag 28, or a tag 29 names nothing. -/
def unshare (inShareable : Bool) (named : Array (Option Datum)) :
    Datum → Option (Datum × Array (Option Datum))
  | scalar a => some (scalar a, named)
  | simple n => some (simple n, named)
  | string isText chunks => some (string isText chunks, named)
  | array items => do
    let (items, named) ← unshareAll named items
    return (array items, named)
  | map entries => do
    let (entries, named) ← unshareEntries named entries
    return (map entries, named)
  | tag number content =>
    if number = Tag.shareable then
      if inShareable then none
      else do
        let (content, inner) ← unshare true (named.push none) content
        return (content, inner.setIfInBounds named.size (some content))
    else if number = Tag.sharedRef then do
      let found ← named[← content.index?]?
      return (← found, named)
    else do
      let (content, named) ← unshare false named content
      return (tag number content, named)

def unshareAll (named : Array (Option Datum)) :
    List Datum → Option (List Datum × Array (Option Datum))
  | [] => some ([], named)
  | t :: ts => do
    let (t, named) ← unshare false named t
    let (ts, named) ← unshareAll named ts
    return (t :: ts, named)

def unshareEntries (named : Array (Option Datum)) :
    List (Datum × Datum) → Option (List (Datum × Datum) × Array (Option Datum))
  | [] => some ([], named)
  | (k, v) :: es => do
    let (k, named) ← unshare false named k
    let (v, named) ← unshare false named v
    let (es, named) ← unshareEntries named es
    return ((k, v) :: es, named)

end

def content : Datum → Datum
  | tag _ content => content
  | t => t

def isShared : Datum → Bool
  | tag number _ => number = Tag.shareable || number = Tag.sharedRef
  | _ => false

def Undisturbed (f : Flags) (wanted : Bool → Prop) : Datum → Prop
  | string isText _ => wanted isText → f.contains (.nativeString isText) = false
  | _ => True

section

variable (o : Options)

mutual

/-- Of a datum `t` that is `t'` without sharing: in the places where strings are wanted as they were
read, which are string keys and the content of tags with a meaning, no shared string stands that the
flags make native. -/
def Sheltered : (t t' : Datum) → Prop
  | array items, array items' => ShelteredAll items items'
  | map entries, map entries' => ShelteredEntries entries entries'
  | tag number content, t' =>
    if number = Tag.shareable then Sheltered content t'
    else if number = Tag.sharedRef then True
    else
      (content.isShared = true → t'.content.Undisturbed o.flags fun isText ↦
        Tag.stringContent? o.groups number = some isText) ∧ Sheltered content t'.content
  | _, _ => True

def ShelteredAll : (ts ts' : List Datum) → Prop
  | t :: ts, t' :: ts' => Sheltered t t' ∧ ShelteredAll ts ts'
  | _, _ => True

def ShelteredEntries : (es es' : List (Datum × Datum)) → Prop
  | (k, v) :: es, (k', v') :: es' =>
    (k.isShared = true → k'.Undisturbed o.flags fun isText ↦
      o.flags.contains .mapAsArray = false ∧ o.flags.contains (.keyString isText) = true) ∧
      Sheltered k k' ∧ Sheltered v v' ∧ ShelteredEntries es es'
  | _, _ => True

end

end

variable {o : Options}

theorem unshare_tag {number : UInt64} {content t' : Datum} {inShareable : Bool}
    {named named' : Array (Option Datum)}
    (h : (tag number content).unshare inShareable named = some (t', named')) :
    (number = Tag.shareable ∧ inShareable = false ∧
      ∃ inner, content.unshare true (named.push none) = some (t', inner) ∧
        named' = inner.setIfInBounds named.size (some t')) ∨
    (number = Tag.sharedRef ∧
      ∃ index, content.index? = some index ∧ named[index]? = some (some t') ∧ named' = named) ∨
    (number ≠ Tag.shareable ∧ number ≠ Tag.sharedRef ∧
      ∃ content', content.unshare false named = some (content', named') ∧
        t' = tag number content') := by
  rw [unshare] at h
  split at h
  case isTrue hn =>
    split at h
    case isTrue => cases h
    case isFalse hi =>
      simp only [Option.bind_eq_bind, Option.bind_eq_some_iff] at h
      obtain ⟨⟨content', inner⟩, hu, h⟩ := h
      cases h
      exact .inl ⟨hn, Bool.eq_false_iff.2 hi, inner, hu, rfl⟩
  case isFalse hn =>
    split at h
    case isTrue hn' =>
      simp only [Option.bind_eq_bind, Option.bind_eq_some_iff] at h
      obtain ⟨index, hi, found, hf, t', hfound, h⟩ := h
      cases h
      subst hfound
      exact .inr (.inl ⟨hn', index, hi, hf, rfl⟩)
    case isFalse hn' =>
      simp only [Option.bind_eq_bind, Option.bind_eq_some_iff] at h
      obtain ⟨⟨content', inner⟩, hu, h⟩ := h
      cases h
      exact .inr (.inr ⟨hn, hn', content', hu, rfl⟩)

theorem ofString_ne_of_interpret {groups : Tag.Groups} {number : UInt64} {content item : Item}
    (h : Tag.interpret groups number content = .ok (some item)) (isText : Bool) (b : Octets) :
    item ≠ .ofString isText b := by
  have made {α : Type} {x : Except Fault α} {make : α → Item}
      (h : some <$> make <$> x = .ok (some item)) (hm : ∀ a, make a ≠ .ofString isText b) :
      item ≠ .ofString isText b := by
    obtain ⟨a, _, rfl⟩ := Tag.exists_of_made h
    exact hm a
  unfold Tag.interpret at h
  repeat' split at h
  case isFalse => cases h
  all_goals exact made h fun _ ↦ by cases isText <;> nofun

theorem ofString_ne_of_tagged {number : UInt64} {raw item : Item}
    (h : tagged o number raw = .ok item) (isText : Bool) (b : Octets) :
    item ≠ .ofString isText b := by
  obtain ⟨made, hm, h⟩ := bind_eq_ok.1 h
  cases made with
  | none =>
    cases h
    cases isText <;> nofun
  | some made =>
    cases h
    exact ofString_ne_of_interpret hm isText b

theorem ofString_inj {isText isText' : Bool} {b b' : Octets}
    (h : Item.ofString isText b = Item.ofString isText' b') : isText = isText' := by
  cases isText <;> cases isText' <;> first | rfl | cases h

theorem undisturbed_of_read {wanted : Bool → Prop} {t : Datum} {raw : Item}
    (h : t.Undisturbed o.flags wanted) (hr : t.read o = .ok raw) :
    raw.Undisturbed o.flags wanted := by
  intro isText b hraw hw
  cases t with
  | string isText' chunks =>
    obtain ⟨_, _, hr⟩ := bind_eq_ok.1 hr
    cases hr
    obtain rfl := ofString_inj hraw
    exact h hw
  | scalar a =>
    cases hr
    cases a <;> cases isText <;> cases hraw
  | simple => cases hr
  | array items =>
    obtain ⟨_, _, hr⟩ := bind_eq_ok.1 hr
    cases hr
    cases isText <;> cases hraw
  | map entries =>
    obtain ⟨_, _, hr⟩ := bind_eq_ok.1 hr
    cases hr
    cases isText <;> cases hraw
  | tag number content =>
    obtain ⟨_, _, hr⟩ := bind_eq_ok.1 hr
    exact absurd hraw (ofString_ne_of_tagged hr isText b)

end Datum

/-- What is closed in `named` is closed in the table of the reader, made native. -/
structure Holds (o : Options) (named : Array (Option Datum)) (s : Scope) : Prop where
  strings : s.strings = []
  size : s.shared.size = named.size
  closed : ∀ (i : Nat) (t : Datum), named[i]? = some (some t) →
    ∃ raw, t.read o = .ok raw ∧
      s.shared[i]? = some (some (raw.native o.flags, (raw.native o.flags).footprint))

variable {o : Options} {named : Array (Option Datum)} {s : Scope}

namespace Holds

theorem enter (h : Holds o named s) : Holds o named { s with depth := s.depth + 1 } := { h with }

theorem leave (h : Holds o named s) : Holds o named s.leave := { h with }

theorem reserve (h : Holds o named s) :
    Holds o (named.push none) { s with shared := s.shared.push none } where
  strings := h.strings
  size := by simp [h.size]
  closed := by
    intro i t hi
    rw [Array.getElem?_push] at hi
    split at hi
    case isTrue => cases hi
    case isFalse hne =>
      obtain ⟨raw, hr, hs⟩ := h.closed i t hi
      rw [← h.size] at hne
      exact ⟨raw, hr, by rw [Array.getElem?_push, if_neg hne, hs]⟩

theorem close (h : Holds o named s) {cell : Nat} {t : Datum} {raw : Item}
    (hr : t.read o = .ok raw) {slot : Option (Item × Nat)}
    (hs : slot = some (raw.native o.flags, (raw.native o.flags).footprint)) :
    Holds o (named.setIfInBounds cell (some t))
      { s with shared := s.shared.setIfInBounds cell slot } where
  strings := h.strings
  size := by simp [h.size]
  closed := by
    intro i u hi
    rw [Array.getElem?_setIfInBounds] at hi ⊢
    by_cases hc : cell = i
    · rw [if_pos hc] at hi ⊢
      rw [h.size]
      split at hi
      case isTrue hlt =>
        cases hi
        exact ⟨raw, hr, by rw [if_pos hlt, hs]⟩
      case isFalse => cases hi
    · rw [if_neg hc] at hi ⊢
      exact h.closed i u hi

end Holds

namespace Wire

theorem eq_of_index? {w : Wire} {n : Nat} (h : w.datum.index? = some n) :
    ∃ m : UInt64, w = scalar (.unsigned m) ∧ m.toNat = n := by
  cases w with
  | scalar a =>
    cases a <;> cases h
    exact ⟨_, rfl, rfl⟩
  | simple | string | chunks | array | map | tag => cases h

def taken (f : Flags) (shared : Bool) (raw : Item) : Item := if shared then raw.native f else raw

theorem native_taken (f : Flags) (shared : Bool) (raw : Item) :
    (taken f shared raw).native f = raw.native f := by
  cases shared with
  | true => exact raw.native_native f
  | false => rfl

theorem mapKey_taken {f : Flags} {shared : Bool} {raw : Item}
    (h : shared = true → raw.Undisturbed f fun isText ↦
      f.contains .mapAsArray = false ∧ f.contains (.keyString isText) = true) :
    (taken f shared raw).mapKey f = raw.mapKey f := by
  cases shared with
  | true => exact Item.mapKey_native (h rfl)
  | false => rfl

theorem tagged_taken {shared : Bool} {number : UInt64} {raw : Item}
    (h : shared = true → raw.Undisturbed o.flags fun isText ↦
      Tag.stringContent? o.groups number = some isText) :
    tagged o number (taken o.flags shared raw) = tagged o number raw := by
  cases shared with
  | true => simp only [tagged, taken, if_true, Item.interpret_native (h rfl), Item.native_native]
  | false => rfl

def Lands (o : Options) (shared : Bool) (named : Array (Option Datum)) (r : Item × Scope)
    (raw : Item) : Prop := r.1 = taken o.flags shared raw ∧ Holds o named r.2

theorem limit_of_enter (o : Options) (s : Scope) :
    ∀ e, s.enter o.maxDepth = .error e → e.IsLimit ∧ ¬ False := UpTo.enter False.elim

theorem meaning_shareable (hsh : o.sharedRef = .on) {content : Wire} {content' : Datum}
    {inner : Array (Option Datum)}
    (hc : ∀ t, Holds o (named.push none) t →
      UpTo False (Lands o content.datum.isShared inner) (content.meaning o true t)
        (content'.read o)) (hs : Holds o named s) :
    UpTo False (Lands o true (inner.setIfInBounds named.size (some content')))
      ((tag Tag.shareable content).meaning o false s) (content'.read o) := by
  rw [meaning]
  refine .guard (limit_of_enter o s) fun t ht ↦ ?_
  obtain rfl := enter_eq_ok ht
  have hlive : o.sharedRef ≠ .off := by simp [hsh]
  rw [openRole_shareable hlive, ok_bind, ← bind_pure (content'.read o)]
  refine (hc _ hs.enter.reserve).and_eq.bind fun r raw h ↦ ?_
  obtain ⟨⟨hr1, hh⟩, hraw⟩ := h
  have hne : o.sharedRef ≠ .shareable := by simp [hsh]
  simp only [closeTag, if_neg hne, hr1, native_taken]
  refine .ok ⟨rfl, ?_⟩
  rw [← hs.size]
  exact hh.leave.close hraw rfl

theorem meaning_sharedRef (hsh : o.sharedRef = .on) {index : UInt64} {t' : Datum}
    (hf : named[index.toNat]? = some (some t')) (inShareable : Bool) (hs : Holds o named s) :
    UpTo False (Lands o true named)
      ((tag Tag.sharedRef (scalar (.unsigned index))).meaning o inShareable s) (t'.read o) := by
  have hlive : o.sharedRef ≠ .off := by simp [hsh]
  obtain ⟨raw, hraw, hslot⟩ := hs.closed _ _ hf
  rw [meaning]
  refine .guard (limit_of_enter o s) fun t ht ↦ ?_
  obtain rfl := enter_eq_ok ht
  have hres : s.shared.resolve (.unsigned index) =
      .ok (raw.native o.flags, (raw.native o.flags).footprint) := by
    rw [SharedItems.resolve, hslot]
  rw [openRole_sharedRef hlive, ok_bind, hraw]
  show UpTo _ _ (closeTag o Tag.sharedRef .sharedRef (.unsigned index) s) _
  rw [closeTag, hres, ok_bind]
  simp only [Scope.charge, bind_assoc]
  refine .guard (UpTo.checkSize False.elim) fun _ _ ↦ ?_
  exact .ok ⟨rfl, { hs with }⟩

theorem meaning_unsharedTag (hr : o.stringRef = false) {number : UInt64}
    (hn : number ≠ Tag.shareable) (hn' : number ≠ Tag.sharedRef) {content : Wire}
    {content' : Datum} {inner : Array (Option Datum)} (inShareable : Bool)
    (hp : content.datum.isShared = true → content'.Undisturbed o.flags fun isText ↦
      Tag.stringContent? o.groups number = some isText)
    (hc : ∀ t, Holds o named t →
      UpTo False (Lands o content.datum.isShared inner) (content.meaning o false t)
        (content'.read o)) (hs : Holds o named s) :
    UpTo False (Lands o false inner) ((tag number content).meaning o inShareable s)
      ((Datum.tag number content').read o) := by
  have hrole (t : Scope) : openRole o inShareable number t = .ok (.plain, t) := by
    simp [openRole, hr, hn, hn']
  rw [meaning, Datum.read]
  refine .guard (limit_of_enter o s) fun t ht ↦ ?_
  obtain rfl := enter_eq_ok ht
  rw [hrole, ok_bind]
  refine (hc _ hs.enter).and_eq.bind fun r raw h ↦ ?_
  obtain ⟨item, t⟩ := r
  obtain ⟨⟨hr1, hh⟩, hraw⟩ := h
  dsimp only at hr1 ⊢
  rw [closeTag_plain, hr1, tagged_taken fun hs ↦ Datum.undisturbed_of_read (hp hs) hraw]
  cases tagged o number raw with
  | error e => exact .error e
  | ok item => exact .ok ⟨rfl, hh.leave⟩

mutual

/-- A tree with sharing means what its datum without sharing is read as. -/
theorem meaning_unshared (hsh : o.sharedRef = .on) (hr : o.stringRef = false) :
    (w : Wire) → ∀ (inShareable : Bool) (s : Scope) (named named' : Array (Option Datum))
    (t' : Datum),
    w.datum.unshare inShareable named = some (t', named') → w.datum.Sheltered o t' →
    Holds o named s →
    UpTo False (Lands o w.datum.isShared named') (w.meaning o inShareable s) (t'.read o)
  | scalar a, inShareable, s, named, named', t', hu, hp, hs => by
    cases hu
    exact .ok ⟨rfl, hs⟩
  | simple .., inShareable, s, named, named', t', hu, hp, hs => by
    cases hu
    exact .error _
  | string isText b, inShareable, s, named, named', t', hu, hp, hs => by
    cases hu
    refine (string_upTo isText b inShareable hs.strings).mono fun r raw h ↦ ?_
    subst h
    exact ⟨rfl, hs⟩
  | chunks isText parts, inShareable, s, named, named', t', hu, hp, hs => by
    cases hu
    refine (chunks_upTo isText parts inShareable s False.elim).mono fun r raw h ↦ ?_
    subst h
    exact ⟨rfl, hs⟩
  | array indefinite items, inShareable, s, named, named', t', hu, hp, hs => by
    simp only [datum, Datum.unshare, Option.bind_eq_bind, Option.bind_eq_some_iff] at hu
    obtain ⟨⟨items', after⟩, hu, h⟩ := hu
    cases h
    refine .guard (limit_of_enter o s) fun t ht ↦ ?_
    obtain rfl := enter_eq_ok ht
    refine (meaningAll_unshared hsh hr items #[] _ named after items' hu hp hs.enter).bind
      fun r rest h ↦ .ok ⟨?_, h.2.leave⟩
    rw [h.1]
    simp [taken, datum, Datum.isShared]
  | map indefinite entries, inShareable, s, named, named', t', hu, hp, hs => by
    simp only [datum, Datum.unshare, Option.bind_eq_bind, Option.bind_eq_some_iff] at hu
    obtain ⟨⟨entries', after⟩, hu, h⟩ := hu
    cases h
    refine .guard (limit_of_enter o s) fun t ht ↦ ?_
    obtain rfl := enter_eq_ok ht
    refine (meaningEntries_unshared hsh hr entries #[] _ named after entries' hu hp hs.enter).bind
      fun r rest h ↦ .ok ⟨?_, h.2.leave⟩
    rw [h.1]
    simp [taken, datum, Datum.isShared]
  | tag number content, inShareable, s, named, named', t', hu, hp, hs => by
    rw [datum, Datum.Sheltered] at hp
    rcases Datum.unshare_tag hu with ⟨rfl, rfl, inner, hc, rfl⟩ | ⟨rfl, index, hi, hf, rfl⟩ |
      ⟨hn, hn', content', hc, rfl⟩
    · rw [if_pos rfl] at hp
      exact meaning_shareable hsh
        (fun t ht ↦ meaning_unshared hsh hr content true t _ inner t' hc hp ht) hs
    · obtain ⟨index, rfl, rfl⟩ := eq_of_index? hi
      exact meaning_sharedRef hsh hf inShareable hs
    · rw [if_neg hn, if_neg hn'] at hp
      have hshared : (tag number content).datum.isShared = false := by
        simp [datum, Datum.isShared, hn, hn']
      rw [hshared]
      exact meaning_unsharedTag hr hn hn' inShareable hp.1
        (fun t ht ↦ meaning_unshared hsh hr content false t _ named' content' hc hp.2 ht) hs

theorem meaningAll_unshared (hsh : o.sharedRef = .on) (hr : o.stringRef = false)
    {indefinite : Bool} : (ws : List Wire) → ∀ (done : Array Item) (s : Scope)
    (named named' : Array (Option Datum)) (ts' : List Datum),
    Datum.unshareAll named (datumAll ws) = some (ts', named') →
    Datum.ShelteredAll o (datumAll ws) ts' → Holds o named s →
    UpTo False (fun r (items : List Item) ↦ r.1 = done ++ items ∧ Holds o named' r.2)
      (meaningAll o indefinite done s ws) (Datum.readAll o ts')
  | [], done, s, named, named', ts', hu, hp, hs => by
    cases hu
    exact .ok ⟨by simp, hs⟩
  | w :: ws, done, s, named, named', ts', hu, hp, hs => by
    simp only [datumAll, Datum.unshareAll, Option.bind_eq_bind, Option.bind_eq_some_iff] at hu
    obtain ⟨⟨t', between⟩, hw, ⟨ts', after⟩, hws, h⟩ := hu
    cases h
    rw [datumAll, Datum.ShelteredAll] at hp
    rw [meaningAll, Datum.readAll]
    refine (meaning_unshared hsh hr w false s named between t' hw hp.1 hs).bind fun r raw h ↦ ?_
    refine .guard (growth_eq_error False.elim) fun _ _ ↦ ?_
    rw [h.1, native_taken, ← bind_pure (meaningAll o indefinite _ r.2 ws)]
    refine (meaningAll_unshared hsh hr ws _ r.2 between after ts' hws hp.2 h.2).bind
      fun r items h ↦ .ok ⟨?_, h.2⟩
    rw [h.1]
    simp

theorem meaningEntries_unshared (hsh : o.sharedRef = .on) (hr : o.stringRef = false)
    {indefinite : Bool} : (es : List (Wire × Wire)) → ∀ (done : Array (Item × Item)) (s : Scope)
    (named named' : Array (Option Datum)) (es' : List (Datum × Datum)),
    Datum.unshareEntries named (datumEntries es) = some (es', named') →
    Datum.ShelteredEntries o (datumEntries es) es' → Holds o named s →
    UpTo False (fun r entries ↦ r.1 = entries ∧ Holds o named' r.2)
      (meaningEntries o indefinite done s es) (Datum.readEntries o done es')
  | [], done, s, named, named', es', hu, hp, hs => by
    cases hu
    exact .ok ⟨rfl, hs⟩
  | (k, v) :: es, done, s, named, named', es', hu, hp, hs => by
    simp only [datumEntries, Datum.unshareEntries, Option.bind_eq_bind,
      Option.bind_eq_some_iff] at hu
    obtain ⟨⟨k', afterKey⟩, hk, ⟨v', between⟩, hv, ⟨es', after⟩, hes, h⟩ := hu
    cases h
    rw [datumEntries, Datum.ShelteredEntries] at hp
    obtain ⟨hkey, hpk, hpv, hpes⟩ := hp
    rw [meaningEntries, Datum.readEntries]
    have hread := meaning_unshared hsh hr k false s named afterKey k' hk hpk hs
    refine hread.and_eq.bind fun r raw h ↦ ?_
    obtain ⟨⟨hr1, hh⟩, hraw⟩ := h
    dsimp only
    rw [entryKey, bind_assoc, hr1, mapKey_taken (fun hs ↦ Datum.undisturbed_of_read (hkey hs) hraw)]
    refine .guard (growth_eq_error False.elim) fun _ _ ↦ ?_
    rw [bind_assoc]
    refine .step _ fun key _ ↦ ?_
    split
    case isTrue => exact .error _
    case isFalse =>
      have hread := meaning_unshared hsh hr v false r.2 afterKey between v' hv hpv hh
      refine hread.bind fun r value h ↦ ?_
      rw [h.1, native_taken]
      exact meaningEntries_unshared hsh hr es _ r.2 between after es' hes hpes h.2

end

end Wire

/-- Copying shared items to the references comes to decoding the datum without sharing, as long as
neither decoding meets a limit and no string stands shared where it is wanted as it was read. -/
theorem decode_unshared {t t' : Datum} {data data' : Octets} (hc : o.check = .ok ())
    (hv : o.flags.contains .edn = false) (hsd : o.flags.contains .selfDescribe = true)
    (hr : o.stringRef = false) (hsh : o.sharedRef = .on) (hm : o.maxSize < UInt64.size)
    (ht : t.Serialized (data.window o.offset o.length))
    (ht' : t'.Serialized (data'.window o.offset o.length))
    (hu : t.unshare false #[] = some (t', named)) (hp : t.Sheltered o t')
    (hl : ∀ e, decode data o = .error e → ¬ e.IsLimit)
    (hl' : ∀ e, decode data' { o with sharedRef := .off } = .error e → ¬ e.IsLimit) :
    decode data o = decode data' { o with sharedRef := .off } := by
  obtain ⟨w, rfl, hw⟩ := ht
  obtain ⟨w', rfl, hw'⟩ := ht'
  have hs : (data.window o.offset o.length).length ≤ o.maxSize :=
    Nat.not_lt.1 fun hlt ↦ hl _ (decode_of_oversized hc hlt) trivial
  have hs' : (data'.window o.offset o.length).length ≤ o.maxSize :=
    Nat.not_lt.1 fun hlt ↦ hl' _ (decode_of_oversized hc hlt) trivial
  have hd := Wire.decode_meaning hw hs hm hv
  have hd' := Wire.decode_meaning (o := { o with sharedRef := .off }) hw' hs' hm hv
  rw [hc, ok_bind, Wire.unprefixed_of_contains hsd] at hd
  rw [show Options.check { o with sharedRef := .off } = .ok () from hc, ok_bind,
    Wire.unprefixed_of_contains (o := { o with sharedRef := .off }) hsd] at hd'
  rw [hd] at hl
  rw [hd'] at hl'
  have hon := (Wire.meaning_unshared hsh hr w false {} #[] named _ hu hp ⟨rfl, rfl, by simp⟩)
  have hoff : UpTo False _ _ _ := Wire.meaning_upTo (o := { o with sharedRef := .off }) hr rfl w'
    false {} rfl False.elim False.elim
  rw [Datum.read_congr (p := { o with sharedRef := .off }) (o := o) rfl rfl] at hoff
  calc decode data o = Item.native o.flags <$> w'.datum.read o := hd.trans
        (hon.map_eq_of_unlimited (fun r raw h ↦ by rw [h.1, Wire.native_taken]) hl)
    _ = decode data' { o with sharedRef := .off } := (hd'.trans
        (hoff.map_eq_of_unlimited (fun r raw h ↦ by rw [h]) hl')).symm

def Decoder.copying : Options :=
  { flags := .standard ||| .selfDescribe, stringRef := false, sharedRef := .on }

open Decoder (copying)

theorem not_isLimit_of_ok {α : Type} {x : Except Fault α} {a : α} (h : x = .ok a) :
    ∀ e, x = .error e → ¬ e.IsLimit := by
  intro e he
  cases h.symm.trans he

/-- An array that stands shared beside a reference to it. -/
theorem decode_unshared_twice :
    let five : Datum := .array [.scalar (.unsigned 5)]
    let t : Datum := .array [.tag Tag.shareable five, .tag Tag.sharedRef (.scalar (.unsigned 0))]
    t.unshare false #[] = some (.array [five, five], #[some five]) ∧
      t.Sheltered copying (.array [five, five]) ∧
      decode [0x82, 0xD8, 0x1C, 0x81, 0x05, 0xD8, 0x1D, 0x00] copying =
        decode [0x82, 0x81, 0x05, 0x81, 0x05] { copying with sharedRef := .off } := by
  intro five t
  let inner : Wire := .array false [.scalar (.unsigned 5)]
  let w : Wire :=
    .array false [.tag Tag.shareable inner, .tag Tag.sharedRef (.scalar (.unsigned 0))]
  let w' : Wire := .array false [inner, inner]
  have hd : decode [0x82, 0xD8, 0x1C, 0x81, 0x05, 0xD8, 0x1D, 0x00] copying =
      .ok (.array [.array [.unsigned 5], .array [.unsigned 5]]) :=
    (Wire.decode_octets (w := w) rfl (by decide) (by decide) (by decide)).trans rfl
  have hd' : decode [0x82, 0x81, 0x05, 0x81, 0x05] { copying with sharedRef := .off } =
      .ok (.array [.array [.unsigned 5], .array [.unsigned 5]]) :=
    (Wire.decode_octets (w := w') rfl (by decide) (by decide) (by decide)).trans rfl
  have hp : t.Sheltered copying (.array [five, five]) := by
    simp [t, five, Datum.Sheltered, Datum.ShelteredAll]
  refine ⟨rfl, hp, ?_⟩
  exact decode_unshared rfl rfl rfl rfl rfl (by decide) (Wire.serialized_octets w (by decide))
    (Wire.serialized_octets w' (by decide)) rfl hp (not_isLimit_of_ok hd) (not_isLimit_of_ok hd')

/-- A shared byte string is no magnitude any more. -/
theorem decode_shared_magnitude :
    let magnitude : Datum := .string false [[0x05]]
    (Datum.tag Tag.positiveBignum (.tag Tag.shareable magnitude)).unshare false #[] =
        some (.tag Tag.positiveBignum magnitude, #[some magnitude]) ∧
      (Datum.tag Tag.positiveBignum (.tag Tag.shareable magnitude)).Serialized
        [0xC2, 0xD8, 0x1C, 0x41, 0x05] ∧
      (Datum.tag Tag.positiveBignum magnitude).Serialized [0xC2, 0x41, 0x05] ∧
      decode [0xC2, 0xD8, 0x1C, 0x41, 0x05] copying = .error (.tagType Tag.positiveBignum) ∧
      decode [0xC2, 0x41, 0x05] { copying with sharedRef := .off } =
        .ok (.bignum (.ofOctets false [0x05])) := by
  let w : Wire := .tag Tag.positiveBignum (.tag Tag.shareable (.string false [0x05]))
  let w' : Wire := .tag Tag.positiveBignum (.string false [0x05])
  refine ⟨rfl, Wire.serialized_octets w (by decide), Wire.serialized_octets w' (by decide), ?_, ?_⟩
  · exact (Wire.decode_octets (w := w) rfl (by decide) (by decide) (by decide)).trans rfl
  · exact (Wire.decode_octets (w := w') rfl (by decide) (by decide) (by decide)).trans rfl

end Cbor
