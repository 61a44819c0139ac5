import Cbor.Proofs.Wire.Meaning

namespace Cbor.Assembly

open Decoder (Options)

/-- The item goes into the innermost container, and each container that this completes is closed. -/
inductive Completes (o : Options) :
    List Frame → Scope → Item → Option Item × Assembly → Prop
  | top (s : Scope) (item : Item) :
    Completes o [] s item (some (item.native o.flags), ⟨[], s.nextItem⟩)
  | element {items : Array Item} {remaining next : Option Nat} {stack : List Frame} {s : Scope}
    {item : Item} (hg : checkGrowth o remaining items.size = .ok ())
    (hn : countDown? remaining = some next) :
    Completes o (.array items remaining :: stack) s item
      (none, ⟨.array (items.push (item.native o.flags)) next :: stack, s⟩)
  | lastElement {items : Array Item} {remaining : Option Nat} {stack : List Frame} {s : Scope}
    {item : Item} {r : Option Item × Assembly} (hg : checkGrowth o remaining items.size = .ok ())
    (hn : countDown? remaining = none)
    (h : Completes o stack s.leave (.array (items.push (item.native o.flags)).toList) r) :
    Completes o (.array items remaining :: stack) s item r
  | key {entries : Entries} {remaining : Option Nat} {stack : List Frame} {s : Scope}
    {item key : Item} (hg : checkGrowth o remaining entries.items.size = .ok ())
    (hk : item.mapKey o.flags = .ok key)
    (hd : ¬ (o.flags.contains .mapNoDupKey ∧ entries.contains key)) :
    Completes o (.map entries none remaining :: stack) s item
      (none, ⟨.map entries (some key) remaining :: stack, s⟩)
  | value {entries : Entries} {key : Item} {remaining next : Option Nat}
    {stack : List Frame} {s : Scope} {item : Item} (hn : countDown? remaining = some next) :
    Completes o (.map entries (some key) remaining :: stack) s item
      (none, ⟨.map (entries.insert o.flags key (item.native o.flags)) none next :: stack, s⟩)
  | lastValue {entries : Entries} {key : Item} {remaining : Option Nat}
    {stack : List Frame} {s : Scope} {item : Item} {r : Option Item × Assembly}
    (hn : countDown? remaining = none)
    (h : Completes o stack s.leave
      (.map (entries.insert o.flags key (item.native o.flags)).items.toList) r) :
    Completes o (.map entries (some key) remaining :: stack) s item r
  | tag {number : UInt64} {role : TagRole} {stack : List Frame} {s t : Scope} {item found : Item}
    {r : Option Item × Assembly} (hc : closeTag o number role item s.leave = .ok (found, t))
    (h : Completes o stack t found r) : Completes o (.tag number role :: stack) s item r

inductive Pushes (o : Options) : Assembly → Lexeme → Option Item × Assembly → Prop
  | scalar {stack : List Frame} {s : Scope} {a : Scalar} {r : Option Item × Assembly}
    (h : Completes o stack s a.item r) : Pushes o ⟨stack, s⟩ a.lexeme r
  | string {stack : List Frame} {s : Scope} (isText : Bool) {b : Octets}
    {r : Option Item × Assembly} (ht : isText = true → checkText o b = .ok ())
    (h : Completes o stack
      { s with strings := StringNamespace.record (.ofString isText b) b.length s.strings }
      (.ofString isText b) r) : Pushes o ⟨stack, s⟩ (.ofString isText b) r
  | openString {stack : List Frame} (hs : Outside stack) (s : Scope) (isText : Bool) :
    Pushes o ⟨stack, s⟩ (if isText then .textStart else .bytesStart)
      (none, ⟨.chunks isText #[] :: stack, s⟩)
  | chunk {isText : Bool} {octets : Array UInt8} {stack : List Frame} {s : Scope} {b : Octets}
    (ht : isText = true → checkText o b = .ok ())
    (hb : Lexeme.checkSize o.maxSize (octets.size + b.length) = .ok ()) :
    Pushes o ⟨.chunks isText octets :: stack, s⟩ (.ofString isText b)
      (none, ⟨.chunks isText (octets ++ b) :: stack, s⟩)
  | closeString {isText : Bool} {octets : Array UInt8} {stack : List Frame} {s : Scope}
    {r : Option Item × Assembly} (h : Completes o stack s (.ofString isText octets.toList) r) :
    Pushes o ⟨.chunks isText octets :: stack, s⟩ .stop r
  | emptyArray {stack : List Frame} {s t : Scope} {r : Option Item × Assembly}
    (he : s.enter o.maxDepth = .ok t) (h : Completes o stack t.leave (.array []) r) :
    Pushes o ⟨stack, s⟩ (.array (some 0)) r
  | openArray {stack : List Frame} (hs : Outside stack) {s t : Scope} {count : Option UInt64}
    (hn : count ≠ some 0) (he : s.enter o.maxDepth = .ok t) :
    Pushes o ⟨stack, s⟩ (.array count) (none, ⟨.array #[] (count.map UInt64.toNat) :: stack, t⟩)
  | closeArray {items : Array Item} {stack : List Frame} {s : Scope} {r : Option Item × Assembly}
    (h : Completes o stack s.leave (.array items.toList) r) :
    Pushes o ⟨.array items none :: stack, s⟩ .stop r
  | emptyMap {stack : List Frame} {s t : Scope} {r : Option Item × Assembly}
    (he : s.enter o.maxDepth = .ok t) (h : Completes o stack t.leave (.map []) r) :
    Pushes o ⟨stack, s⟩ (.map (some 0)) r
  | openMap {stack : List Frame} (hs : Outside stack) {s t : Scope} {count : Option UInt64}
    (hn : count ≠ some 0) (he : s.enter o.maxDepth = .ok t) :
    Pushes o ⟨stack, s⟩ (.map count)
      (none, ⟨.map .empty none (count.map UInt64.toNat) :: stack, t⟩)
  | closeMap {entries : Entries} {stack : List Frame} {s : Scope}
    {r : Option Item × Assembly} (h : Completes o stack s.leave (.map entries.items.toList) r) :
    Pushes o ⟨.map entries none none :: stack, s⟩ .stop r
  | openTag {stack : List Frame} (hs : Outside stack) {s t u : Scope} {number : UInt64}
    {role : TagRole} (he : s.enter o.maxDepth = .ok t)
    (hr : openRole o (inShareable stack) number t = .ok (role, u)) :
    Pushes o ⟨stack, s⟩ (.tag number) (none, ⟨.tag number role :: stack, u⟩)

variable {o : Options} {r : Option Item × Assembly}

theorem completes_of_complete {stack : List Frame} {s : Scope} {item : Item}
    (h : complete o stack s item = .ok r) : Completes o stack s item r := by
  induction stack generalizing s item with
  | nil =>
    cases h
    exact .top s item
  | cons frame stack ih =>
    cases frame with
    | array items remaining =>
      simp only [complete, bind_eq_ok] at h
      obtain ⟨_, hg, h⟩ := h
      split at h
      · rename_i hn
        cases h
        exact .element hg hn
      · rename_i hn
        exact .lastElement hg hn (ih h)
    | map entries key remaining =>
      cases key with
      | none =>
        simp only [complete, bind_eq_ok] at h
        obtain ⟨_, hg, key, hk, h⟩ := h
        split at h
        · cases h
        · rename_i hd
          cases h
          exact .key hg hk hd
      | some key =>
        simp only [complete] at h
        split at h
        · rename_i hn
          cases h
          exact .value hn
        · rename_i hn
          exact .lastValue hn (ih h)
    | tag number role =>
      simp only [complete, bind_eq_ok] at h
      obtain ⟨⟨found, t⟩, hc, h⟩ := h
      exact .tag hc (ih h)
    | chunks => cases h

theorem pushes_of_addChunk {isText chunkIsText : Bool} {octets : Array UInt8}
    {stack : List Frame} {s : Scope} {b : Octets}
    (h : addChunk o isText octets stack s chunkIsText b = .ok r) :
    Pushes o ⟨.chunks isText octets :: stack, s⟩ (.ofString chunkIsText b) r := by
  cases chunkIsText <;> cases isText
  case false.true => cases h
  case true.false =>
    obtain ⟨_, _, h⟩ := bind_eq_ok.1 h
    cases h
  case false.false =>
    obtain ⟨_, hb, h⟩ := bind_eq_ok.1 h
    cases h
    exact .chunk nofun hb
  case true.true =>
    obtain ⟨_, ht, h⟩ := bind_eq_ok.1 h
    obtain ⟨_, hb, h⟩ := bind_eq_ok.1 h
    cases h
    exact .chunk (fun _ ↦ ht) hb

theorem pushes_of_pushChunk {isText : Bool} {octets : Array UInt8} {stack : List Frame}
    {s : Scope} {l : Lexeme} (h : pushChunk o isText octets stack s l = .ok r) :
    Pushes o ⟨.chunks isText octets :: stack, s⟩ l r := by
  unfold pushChunk at h
  split at h
  case h_1 | h_2 => exact pushes_of_addChunk h
  case h_3 =>
    refine .closeString (completes_of_complete ?_)
    cases isText <;> exact h
  all_goals cases h

theorem pushes_of_closeIndefinite {stack : List Frame} {s : Scope}
    (h : closeIndefinite o stack s = .ok r) : Pushes o ⟨stack, s⟩ .stop r := by
  unfold closeIndefinite at h
  split at h
  case h_2 => exact .closeArray (completes_of_complete h)
  case h_3 => exact .closeMap (completes_of_complete h)
  all_goals cases h

theorem pushes_of_pushItem {stack : List Frame} (hs : Outside stack) {s : Scope} {l : Lexeme}
    (h : pushItem o stack s l = .ok r) : Pushes o ⟨stack, s⟩ l r := by
  cases l with
  | unsigned n => exact .scalar (a := .unsigned n) (completes_of_complete h)
  | negative n => exact .scalar (a := .negative n) (completes_of_complete h)
  | bool b => exact .scalar (a := .bool b) (completes_of_complete h)
  | null => exact .scalar (a := .null) (completes_of_complete h)
  | undefined => exact .scalar (a := .undefined) (completes_of_complete h)
  | float16 bits => exact .scalar (a := .float16 bits) (completes_of_complete h)
  | float32 bits => exact .scalar (a := .float32 bits) (completes_of_complete h)
  | float64 bits => exact .scalar (a := .float64 bits) (completes_of_complete h)
  | bytes b => exact .string false nofun (completes_of_complete h)
  | text b =>
    simp only [pushItem, bind_eq_ok] at h
    obtain ⟨_, ht, h⟩ := h
    exact .string true (fun _ ↦ ht) (completes_of_complete h)
  | bytesStart =>
    cases h
    exact .openString hs s false
  | textStart =>
    cases h
    exact .openString hs s true
  | array count =>
    simp only [pushItem, Assembly.openArray, bind_eq_ok] at h
    obtain ⟨t, he, h⟩ := h
    split at h
    · rename_i hn
      subst hn
      exact .emptyArray he (completes_of_complete h)
    · rename_i hn
      cases h
      exact .openArray hs hn he
  | map count =>
    simp only [pushItem, Assembly.openMap, bind_eq_ok] at h
    obtain ⟨t, he, h⟩ := h
    split at h
    · rename_i hn
      subst hn
      exact .emptyMap he (completes_of_complete h)
    · rename_i hn
      cases h
      exact .openMap hs hn he
  | tag number =>
    simp only [pushItem, Assembly.openTag, bind_eq_ok] at h
    obtain ⟨t, he, ⟨role, u⟩, hr, h⟩ := h
    cases h
    exact .openTag hs he hr
  | simple n => cases h
  | stop => exact pushes_of_closeIndefinite h

theorem pushes_of_push {a : Assembly} {l : Lexeme} (h : a.push o l = .ok r) :
    Pushes o a l r := by
  unfold push at h
  split at h
  · exact pushes_of_pushChunk h
  · rename_i hs
    exact pushes_of_pushItem hs h

theorem stack_ne_nil_of_completes {stack : List Frame} {s : Scope} {item : Item}
    (h : Completes o stack s item r) (hr : r.1 = none) : r.2.stack ≠ [] := by
  induction h with
  | top => cases hr
  | element | key | value => exact List.cons_ne_nil _ _
  | lastElement _ _ _ ih | lastValue _ _ ih | tag _ _ ih => exact ih hr

theorem stack_ne_nil_of_push {a b : Assembly} {l : Lexeme} (h : a.push o l = .ok (none, b)) :
    b.stack ≠ [] := by
  cases pushes_of_push h with
  | scalar h | string _ _ h | closeString h | emptyArray _ h | closeArray h | emptyMap _ h
  | closeMap h => exact stack_ne_nil_of_completes h rfl
  | openString | chunk | openArray | openMap | openTag => exact List.cons_ne_nil _ _

theorem stack_eq_nil_of_completes {stack : List Frame} {s : Scope} {item : Item}
    (h : Completes o stack s item r) (hr : r.1.isSome = true) : r.2.stack = [] := by
  induction h with
  | top => rfl
  | element | key | value => cases hr
  | lastElement _ _ _ ih | lastValue _ _ ih | tag _ _ ih => exact ih hr

theorem stack_eq_nil_of_push {a b : Assembly} {l : Lexeme} {item : Item}
    (h : a.push o l = .ok (some item, b)) : b.stack = [] := by
  cases pushes_of_push h with
  | scalar h | string _ _ h | closeString h | emptyArray _ h | closeArray h | emptyMap _ h
  | closeMap h => exact stack_eq_nil_of_completes h rfl

end Cbor.Assembly
