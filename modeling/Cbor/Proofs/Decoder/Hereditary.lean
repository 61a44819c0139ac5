import Cbor.Proofs.Assembly.Steps
import Cbor.Proofs.Decoder.Run

namespace Cbor

open Decoder (Options)
open Assembly

theorem Assembly.forall_mem_insertEntry {f : Flags} (hm : f.contains .mapAsArray = false)
    {entries : Array (Item × Item)} {P : Item × Item → Prop} {key value : Item}
    (he : ∀ e ∈ entries.toList, P e) (hnew : P (key, value))
    (hvalue : ∀ e, P e → P (e.1, value)) :
    ∀ e ∈ (insertEntry f entries key value).toList, P e := by
  rw [insertEntry, hm, if_neg Bool.false_ne_true]
  split
  · intro e hmem
    obtain ⟨i, hi⟩ := Array.mem_iff_getElem?.1 (Array.mem_toList_iff.1 hmem)
    rw [Array.getElem?_modify] at hi
    split at hi
    · obtain ⟨d, hd, rfl⟩ := Option.map_eq_some_iff.1 hi
      exact hvalue d (he d (Array.mem_toList_iff.2 (Array.mem_of_getElem? hd)))
    · exact he e (Array.mem_toList_iff.2 (Array.mem_of_getElem? hi))
  · intro e hmem
    rcases Array.mem_push.1 (Array.mem_toList_iff.1 hmem) with hmem | rfl
    · exact he e (Array.mem_toList_iff.2 hmem)
    · exact hnew

/-- A property of items that reading passes on: `read` says what it comes to for an item as it is
read, `kept` for one in a container, where it is native, `entries` for the entries of a map, and
`key` for a key whose value is still to come. -/
structure Hereditary (o : Options) (read kept : Item → Prop)
    (entries : List (Item × Item) → Prop) (key : Item → Prop) : Prop where
  scalar (a : Scalar) : read a.item
  bytes (b : Octets) : read (.bytes b)
  text {b : Octets} : checkText o b = .ok () → read (.text b)
  chunk {a b : Octets} : read (.text a) → checkText o b = .ok () → read (.text (a ++ b))
  native {i : Item} : read i → kept (i.native o.flags)
  array {is : List Item} : (∀ i ∈ is, kept i) → read (.array is)
  noEntries : entries []
  entry {es : Array (Item × Item)} {k i : Item} : entries es.toList → key k → kept i →
    entries (insertEntry o.flags es k i).toList
  map {es : List (Item × Item)} : entries es → read (.map es)
  mapKey {i k : Item} : read i → i.mapKey o.flags = .ok k → key k
  interpreted {number : UInt64} {content i : Item} :
    Tag.interpret o.groups number content = .ok (some i) → read i
  tag {number : UInt64} {content : Item} {inShareable : Bool} {s t : Scope} :
    openRole o inShareable number s = .ok (.plain, t) →
    Tag.interpret o.groups number content = .ok none → read content →
    read (.tag number (content.native o.flags))
  shareable {i : Item} (cell : Nat) : o.sharedRef ≠ .off → read i →
    read (if o.sharedRef = .shareable then .shareable cell (i.native o.flags)
      else i.native o.flags)

namespace Hereditary

section

variable (o : Options) (read kept : Item → Prop) (entries : List (Item × Item) → Prop)
  (key : Item → Prop)

def Within : Frame → Prop
  | .array items _ => ∀ i ∈ items.toList, kept i
  | .map es waiting _ => entries es.items.toList ∧ ∀ k ∈ waiting, key k
  | .tag number role => ∃ inShareable s t, openRole o inShareable number s = .ok (role, t)
  | .chunks isText octets => isText = true → read (.text octets.toList)

structure Known (s : Scope) : Prop where
  strings : ∀ inner ∈ s.strings, ∀ i ∈ inner, read i
  shared : ∀ slot ∈ s.shared, ∀ found ∈ slot, read found.1

structure Throughout (a : Assembly) : Prop where
  stack : ∀ frame ∈ a.stack, Within o read kept entries key frame
  scope : Known read a.scope

def Leaves (r : Option Item × Assembly) : Prop :=
  (∀ i ∈ r.1, kept i) ∧ Throughout o read kept entries key r.2

end

variable {o : Options} {read kept : Item → Prop} {entries : List (Item × Item) → Prop}
  {key : Item → Prop} {s t : Scope} {stack : List Frame}

namespace Known

theorem record (h : Known read s) {item : Item} (hi : read item) (length : Nat) :
    Known read { s with strings := StringNamespace.record item length s.strings } :=
  ⟨StringNamespace.mem_record h.strings hi length, h.shared⟩

theorem enter (h : Known read s) {maxDepth : Nat} (ht : s.enter maxDepth = .ok t) :
    Known read t := by
  unfold Scope.enter at ht
  split at ht <;> cases ht
  exact ⟨h.strings, h.shared⟩

theorem leave (h : Known read s) : Known read s.leave := ⟨h.strings, h.shared⟩

theorem charge (h : Known read s) {maxSize n : Nat} (ht : s.charge maxSize n = .ok t) :
    Known read t := by
  obtain ⟨_, _, ht⟩ := bind_eq_ok.1 ht
  cases ht
  exact ⟨h.strings, h.shared⟩

theorem resolve (h : Known read s) {content item : Item} {cost : Nat}
    (hr : s.shared.resolve content = .ok (item, cost)) : read item := by
  unfold SharedItems.resolve at hr
  split at hr
  · split at hr <;> cases hr
    rename_i hi
    exact h.shared _ (Array.mem_of_getElem? hi) _ rfl
  · cases hr

theorem openRole (h : Known read s) {inShareable : Bool} {number : UInt64} {role : TagRole}
    (hr : openRole o inShareable number s = .ok (role, t)) : Known read t := by
  unfold Assembly.openRole at hr
  split at hr
  · cases hr
    exact ⟨List.forall_mem_cons.2 ⟨fun i hi ↦ absurd hi (Array.not_mem_empty i), h.strings⟩,
      h.shared⟩
  split at hr
  · cases hr
    exact h
  split at hr
  · split at hr <;> cases hr
    refine ⟨h.strings, fun slot hm found hfound ↦ ?_⟩
    rcases Array.mem_push.1 hm with hm | rfl
    · exact h.shared slot hm found hfound
    · cases hfound
  split at hr <;> cases hr <;> exact h

end Known

theorem opens {frame : Frame} (hf : Within o read kept entries key frame)
    (hst : ∀ frame ∈ stack, Within o read kept entries key frame) (hs : Known read s) :
    Leaves o read kept entries key (none, ⟨frame :: stack, s⟩) :=
  ⟨nofun, List.forall_mem_cons.2 ⟨hf, hst⟩, hs⟩

theorem sharedRef_of_openRole {inShareable : Bool} {number : UInt64} {cell : Nat}
    (h : openRole o inShareable number s = .ok (.shareable cell, t)) : o.sharedRef ≠ .off := by
  unfold openRole at h
  split at h
  · cases h
  split at h
  · cases h
  split at h
  · rename_i hs
    exact hs.2
  split at h <;> cases h

variable (h : Hereditary o read kept entries key)

include h

theorem ofString {isText : Bool} {b : Octets}
    (ht : isText = true → checkText o b = .ok ()) : read (.ofString isText b) := by
  cases isText with
  | true => exact h.text (ht rfl)
  | false => exact h.bytes b

theorem push {items : Array Item} (hitems : ∀ i ∈ items.toList, kept i) {item : Item}
    (hi : read item) : ∀ i ∈ (items.push (item.native o.flags)).toList, kept i := by
  intro i hm
  rw [Array.toList_push] at hm
  rcases List.mem_append.1 hm with hm | hm
  · exact hitems i hm
  · rw [List.mem_singleton.1 hm]
    exact h.native hi

theorem insert {es : Entries} {k i : Item} (hes : entries es.items.toList) (hk : key k)
    (hi : read i) : entries (es.insert o.flags k (i.native o.flags)).items.toList :=
  es.items_insert _ _ _ ▸ h.entry hes hk (h.native hi)

theorem closeTag {number : UInt64} {role : TagRole}
    (hr : Within o read kept entries key (.tag number role)) {content item : Item}
    (hc : read content) (hs : Known read s)
    (hclose : closeTag o number role content s = .ok (item, t)) : read item ∧ Known read t := by
  obtain ⟨_, _, _, hopen⟩ := hr
  cases role with
  | stringNamespace =>
    cases hclose
    exact ⟨hc, fun inner hi ↦ hs.strings inner (List.mem_of_mem_tail hi), hs.shared⟩
  | stringRef =>
    simp only [Assembly.closeTag, bind_eq_ok] at hclose
    obtain ⟨found, hf, u, hu, hclose⟩ := hclose
    cases hclose
    exact ⟨StringNamespace.of_resolve hs.strings hf, hs.charge hu⟩
  | shareable cell =>
    have hitem := h.shareable cell (sharedRef_of_openRole hopen) hc
    cases hclose
    refine ⟨hitem, hs.strings, fun slot hm found hfound ↦ ?_⟩
    rcases Array.mem_or_eq_of_mem_setIfInBounds hm with hm | rfl
    · exact hs.shared slot hm found hfound
    · cases hfound
      exact hitem
  | sharedRef =>
    simp only [Assembly.closeTag, bind_eq_ok] at hclose
    obtain ⟨⟨found, cost⟩, hf, u, hu, hclose⟩ := hclose
    cases hclose
    exact ⟨hs.resolve hf, hs.charge hu⟩
  | plain =>
    simp only [Assembly.closeTag, bind_eq_ok] at hclose
    obtain ⟨found, hf, hclose⟩ := hclose
    cases found with
    | some item =>
      cases hclose
      exact ⟨h.interpreted hf, hs⟩
    | none =>
      cases hclose
      exact ⟨h.tag hopen hf hc, hs⟩

theorem of_completes {item : Item} {r : Option Item × Assembly} (hr : Completes o stack s item r)
    (hst : ∀ frame ∈ stack, Within o read kept entries key frame) (hs : Known read s)
    (hi : read item) : Leaves o read kept entries key r := by
  induction hr with
  | top s item =>
    refine ⟨fun i hm ↦ ?_, nofun, hs.strings, hs.shared⟩
    obtain rfl := Option.some.inj hm
    exact h.native hi
  | element hg hn =>
    obtain ⟨hframe, hrest⟩ := List.forall_mem_cons.1 hst
    exact opens (h.push hframe hi) hrest hs
  | lastElement hg hn hr ih =>
    obtain ⟨hframe, hrest⟩ := List.forall_mem_cons.1 hst
    exact ih hrest hs.leave (h.array (h.push hframe hi))
  | key hg hk hd =>
    obtain ⟨⟨hentries, _⟩, hrest⟩ := List.forall_mem_cons.1 hst
    refine opens ⟨hentries, fun k hkey ↦ ?_⟩ hrest hs
    obtain rfl := Option.some.inj hkey
    exact h.mapKey hi hk
  | value hn =>
    obtain ⟨⟨hentries, hkey⟩, hrest⟩ := List.forall_mem_cons.1 hst
    exact opens ⟨h.insert hentries (hkey _ rfl) hi, nofun⟩ hrest hs
  | lastValue hn hr ih =>
    obtain ⟨⟨hentries, hkey⟩, hrest⟩ := List.forall_mem_cons.1 hst
    exact ih hrest hs.leave (h.map (h.insert hentries (hkey _ rfl) hi))
  | tag hc hr ih =>
    obtain ⟨hframe, hrest⟩ := List.forall_mem_cons.1 hst
    obtain ⟨hcontent, ht⟩ := h.closeTag hframe hi hs.leave hc
    exact ih hrest ht hcontent

theorem of_pushes {a : Assembly} {l : Lexeme} {r : Option Item × Assembly}
    (hr : Pushes o a l r) (ha : Throughout o read kept entries key a) :
    Leaves o read kept entries key r := by
  obtain ⟨hst, hs⟩ := ha
  cases hr with
  | scalar hr => exact h.of_completes hr hst hs (h.scalar _)
  | string isText ht hr =>
    have hi := h.ofString ht
    exact h.of_completes hr hst (hs.record hi _) hi
  | openString =>
    have hnil : checkText o [] = .ok () := if_pos (.inr rfl)
    exact opens (fun _ ↦ h.text hnil) hst hs
  | chunk ht hb =>
    obtain ⟨hframe, hrest⟩ := List.forall_mem_cons.1 hst
    refine opens (fun htext ↦ ?_) hrest hs
    have happend := h.chunk (hframe htext) (ht htext)
    simpa using happend
  | @closeString isText octets stack s r hr =>
    obtain ⟨hframe, hrest⟩ := List.forall_mem_cons.1 hst
    have hstring : read (.ofString isText octets.toList) := by
      cases isText with
      | true => exact hframe rfl
      | false => exact h.bytes _
    exact h.of_completes hr hrest hs hstring
  | emptyArray he hr => exact h.of_completes hr hst (hs.enter he).leave (h.array nofun)
  | openArray _ _ he => exact opens nofun hst (hs.enter he)
  | closeArray hr =>
    obtain ⟨hframe, hrest⟩ := List.forall_mem_cons.1 hst
    exact h.of_completes hr hrest hs.leave (h.array hframe)
  | emptyMap he hr => exact h.of_completes hr hst (hs.enter he).leave (h.map h.noEntries)
  | openMap _ _ he => exact opens ⟨h.noEntries, nofun⟩ hst (hs.enter he)
  | closeMap hr =>
    obtain ⟨⟨hentries, _⟩, hrest⟩ := List.forall_mem_cons.1 hst
    exact h.of_completes hr hrest hs.leave (h.map hentries)
  | openTag _ he hr => exact opens ⟨_, _, _, hr⟩ hst ((hs.enter he).openRole hr)

theorem of_decode (he : o.flags.contains .edn = false) {data : Octets} {v : Item}
    (hd : decode data o = .ok v) : kept v := by
  obtain ⟨product, hr⟩ := run_of_decode hd
  rw [Decoder.Product.start, he, if_neg Bool.false_ne_true] at hr
  have hstart : Throughout o read kept entries key {} := ⟨nofun, nofun, nofun⟩
  exact Decoder.keeps_of_run (fun ha hl ↦ h.of_pushes (pushes_of_push hl) ha) hstart hr

end Hereditary
end Cbor
