import Cbor.Proofs.Assembly.Levels

namespace Cbor

open Decoder (Options)

/-- If this fails, it is not by a fault of the program itself. -/
def Blameless {α : Type} (x : Except Fault α) : Prop := ∀ detail, x ≠ .error (.internal detail)

def FailsBy {α : Type} (P : Fault → Prop) (x : Except Fault α) : Prop := ∀ e, x = .error e → P e

namespace FailsBy

variable {α β : Type} {P Q : Fault → Prop} {x y : Except Fault α}

theorem ok (a : α) : FailsBy P (.ok a) := nofun

theorem error {e : Fault} (h : P e) : FailsBy P (.error e : Except Fault α) := by
  rintro _ ⟨⟩
  exact h

theorem bind {f : α → Except Fault β} (h : FailsBy P x) (hf : ∀ a, FailsBy P (f a)) :
    FailsBy P (x >>= f) := by
  cases x with
  | error e => exact error (h e rfl)
  | ok a => exact hf a

theorem map {f : α → β} (h : FailsBy P x) : FailsBy P (f <$> x) := by
  rw [map_eq_bind]
  exact h.bind fun a ↦ ok _

theorem ite {p : Prop} [Decidable p] (hx : FailsBy P x) (hy : FailsBy P y) :
    FailsBy P (if p then x else y) := by
  split
  · exact hx
  · exact hy

theorem mono (h : FailsBy P x) (hPQ : ∀ e, P e → Q e) : FailsBy Q x := fun e hx ↦ hPQ e (h e hx)

end FailsBy

def Fault.IsExternal : Fault → Prop
  | internal _ => False
  | _ => True

def Fault.IsOrdinary : Fault → Prop
  | internal _ | recursion => False
  | _ => True

abbrev External {α : Type} (x : Except Fault α) : Prop := FailsBy Fault.IsExternal x

abbrev Ordinary {α : Type} (x : Except Fault α) : Prop := FailsBy Fault.IsOrdinary x

theorem Ordinary.external {α : Type} {x : Except Fault α} (h : Ordinary x) : External x := by
  refine h.mono fun e he ↦ ?_
  cases e with
  | internal => exact he
  | _ => trivial

namespace Tag

variable (tag : UInt64) (content : Item)

theorem ordinary_textContent : Ordinary (textContent tag content) := by
  cases content with
  | text b => exact .ok b
  | _ => exact .error trivial

theorem ordinary_orValueFault {α : Type} (x : Option α) : Ordinary (orValueFault tag x) := by
  cases x with
  | none => exact .error trivial
  | some a => exact .ok a

theorem ordinary_epochMeaning : Ordinary (epochMeaning content) := by
  unfold epochMeaning
  split
  case h_6 => exact .error trivial
  all_goals exact ordinary_orValueFault _ _

theorem ordinary_bignumMeaning : Ordinary (bignumMeaning tag content) := by
  cases content with
  | bytes b => exact .ok _
  | _ => exact .error trivial

theorem ordinary_exponentMeaning : Ordinary (exponentMeaning tag content) := by
  unfold exponentMeaning
  split
  case h_3 => exact .error trivial
  all_goals exact ordinary_orValueFault _ _

theorem ordinary_mantissaMeaning : Ordinary (mantissaMeaning tag content) := by
  cases content with
  | unsigned | negative | bignum => exact .ok _
  | _ => exact .error trivial

theorem ordinary_fractionMeaning : Ordinary (fractionMeaning tag content) := by
  unfold fractionMeaning
  split
  · exact .bind (ordinary_exponentMeaning _ _) fun _ ↦
      .bind (ordinary_mantissaMeaning _ _) fun _ ↦ .ok _
  all_goals exact .error trivial

theorem ordinary_interpret (groups : Groups) : Ordinary (interpret groups tag content) := by
  unfold interpret
  refine .ite (.map (.map ?_)) (.ite (.map (.map (ordinary_epochMeaning _)))
    (.ite (.map (.map (ordinary_bignumMeaning _ _)))
      (.ite (.map (.map (ordinary_fractionMeaning _ _)))
        (.ite (.map (.map (ordinary_fractionMeaning _ _))) (.ite (.map (.map ?_)) (.ok _))))))
  · exact .bind (ordinary_textContent _ _) fun _ ↦ ordinary_orValueFault _ _
  · exact .bind (ordinary_textContent _ _) fun _ ↦ ordinary_orValueFault _ _

end Tag

namespace Lexeme

theorem ordinary_checkSize (maxSize n : Nat) : Ordinary (checkSize maxSize n) :=
  .ite (.ok _) (.error trivial)

theorem ordinary_readString (maxSize : Nat) (make : Octets → Lexeme) (n : UInt64) (b : Octets) :
    Ordinary (readString maxSize make n b) :=
  .bind (ordinary_checkSize _ _) fun _ ↦ .ite (.ok _) (.ok _)

theorem ordinary_ofSimple (minor : Nat) (n : UInt64) : Ordinary (ofSimple minor n) := by
  unfold ofSimple
  split
  case h_5 => exact .ite (.error trivial) (.ok _)
  all_goals exact .ok _

theorem ordinary_ofHead (maxSize major minor : Nat) (n : UInt64) (b : Octets) :
    Ordinary (ofHead maxSize major minor n b) := by
  unfold ofHead
  split
  case h_3 | h_4 => exact ordinary_readString _ _ _ _
  case h_5 | h_6 => exact .bind (ordinary_checkSize _ _) fun _ ↦ .ok _
  case h_8 => exact .bind (ordinary_ofSimple _ _) fun _ ↦ .ok _
  all_goals exact .ok _

theorem ordinary_read (maxSize : Nat) (b : Octets) : Ordinary (read maxSize b) := by
  unfold read
  split
  · exact .ok _
  dsimp only
  split
  · split
    · exact .ok _
    · exact .error trivial
  split
  · exact .error trivial
  split
  · exact .ok _
  · exact ordinary_ofHead _ _ _ _ _

end Lexeme

namespace Assembly

open Lexeme (ordinary_checkSize)

variable (o : Options) {stack : List Frame} {s : Scope}

theorem ordinary_checkText (b : Octets) : Ordinary (checkText o b) :=
  .ite (.ok _) (.error trivial)

theorem ordinary_checkGrowth (remaining : Option Nat) (size : Nat) :
    Ordinary (checkGrowth o remaining size) :=
  .ite (ordinary_checkSize _ _) (.ok _)

theorem ordinary_enter (maxDepth : Nat) : Ordinary (s.enter maxDepth) :=
  .ite (.ok _) (.error trivial)

theorem ordinary_charge (maxSize n : Nat) : Ordinary (s.charge maxSize n) :=
  .bind (ordinary_checkSize _ _) fun _ ↦ .ok _

theorem ordinary_mapKey (flags : Flags) (item : Item) : Ordinary (item.mapKey flags) := by
  refine .ite (.ok _) (.bind ?_ fun b ↦ .ite (.error trivial) (.ok _))
  cases item with
  | unsigned | negative | bytes | text => exact .ite (.ok _) (.error trivial)
  | _ => exact .error trivial

theorem ordinary_openRole (inShareable : Bool) (number : UInt64) :
    Ordinary (openRole o inShareable number s) :=
  .ite (.ok _) (.ite (.ok _) (.ite (.ite (.error trivial) (.ok _)) (.ite (.ok _) (.ok _))))

theorem ordinary_stringRef (content : Item) (tables : List StringNamespace) :
    Ordinary (StringNamespace.resolve content tables) := by
  unfold StringNamespace.resolve
  split
  · exact .error trivial
  split
  · split
    · exact .ok _
    · exact .error trivial
  · exact .error trivial

theorem ordinary_closeTag (number : UInt64) {role : TagRole} (hr : role ≠ .sharedRef)
    (content : Item) : Ordinary (closeTag o number role content s) := by
  cases role with
  | stringNamespace | shareable => exact .ok _
  | stringRef =>
    exact .bind (ordinary_stringRef _ _) fun item ↦ .bind (ordinary_charge _ _) fun _ ↦ .ok _
  | sharedRef => exact absurd rfl hr
  | plain =>
    refine .bind (Tag.ordinary_interpret _ _ _) fun found ↦ ?_
    cases found <;> exact .ok _

theorem external_closeTag (number : UInt64) (role : TagRole) (content : Item) :
    External (closeTag o number role content s) := by
  by_cases hr : role = .sharedRef
  · subst hr
    refine .bind ?_ fun item ↦ (ordinary_charge _ _).external.bind fun _ ↦ .ok _
    unfold SharedItems.resolve
    split
    · split
      · exact .ok _
      · exact .error trivial
      · exact .error trivial
    · exact .error trivial
  · exact (ordinary_closeTag o number hr content).external

theorem external_complete (hs : ∀ frame ∈ stack, isLevel frame = true) (item : Item) :
    External (complete o stack s item) := by
  induction stack generalizing s item with
  | nil => exact .ok _
  | cons frame stack ih =>
    obtain ⟨hf, hrest⟩ := List.forall_mem_cons.1 hs
    cases frame with
    | array items remaining =>
      refine (ordinary_checkGrowth o _ _).external.bind fun _ ↦ ?_
      cases countDown? remaining with
      | some next => exact .ok _
      | none => exact ih hrest _
    | map entries key remaining =>
      cases key with
      | none =>
        refine (ordinary_checkGrowth o _ _).external.bind fun _ ↦ ?_
        exact (ordinary_mapKey _ _).external.bind fun _ ↦ .ite (.error trivial) (.ok _)
      | some key =>
        rw [complete]
        cases countDown? remaining with
        | some next => exact .ok _
        | none => exact ih hrest _
    | tag number role => exact .bind (external_closeTag _ _ _ _) fun _ ↦ ih hrest _
    | chunks => cases hf

theorem ordinary_addChunk (isText : Bool) (octets : Array UInt8) (chunkIsText : Bool)
    (chunk : Octets) : Ordinary (addChunk o isText octets stack s chunkIsText chunk) := by
  have hrest : Ordinary (do
      if chunkIsText ≠ isText then throw (.grammar .inconsistentStringType)
      Lexeme.checkSize o.maxSize (octets.size + chunk.length)
      return ((none, ⟨.chunks isText (octets ++ chunk) :: stack, s⟩) : Option Item × Assembly)) :=
    .ite (.error trivial) (.bind (ordinary_checkSize _ _) fun _ ↦ .ok _)
  exact .ite (.bind (ordinary_checkText o chunk) fun _ ↦ hrest) hrest

theorem external_pushItem (hs : ∀ frame ∈ stack, isLevel frame = true) (l : Lexeme) :
    External (pushItem o stack s l) := by
  have hc : ∀ s item, External (complete o stack s item) := fun s item ↦
    external_complete o hs item
  cases l with
  | unsigned | negative | bool | null | undefined | float16 | float32 | float64 => exact hc _ _
  | bytes b => exact hc _ _
  | text b => exact (ordinary_checkText o b).external.bind fun _ ↦ hc _ _
  | bytesStart | textStart => exact .ok _
  | simple => exact .error trivial
  | array count => exact (ordinary_enter _).external.bind fun _ ↦ .ite (hc _ _) (.ok _)
  | map count => exact (ordinary_enter _).external.bind fun _ ↦ .ite (hc _ _) (.ok _)
  | tag number =>
    exact (ordinary_enter _).external.bind fun _ ↦
      (ordinary_openRole o _ _).external.bind fun _ ↦ .ok _
  | stop =>
    rw [pushItem, closeIndefinite.eq_def]
    split
    case h_2 | h_3 => exact external_complete o (List.forall_mem_cons.1 hs).2 _
    all_goals exact .error trivial

/-- Where only the innermost container is a string, no lexeme finds the program at fault. -/
theorem blameless_push {a : Assembly} (hs : ∀ frame ∈ a.stack.tail, isLevel frame = true)
    (l : Lexeme) : Blameless (a.push o l) := by
  suffices External (a.push o l) from fun detail hx ↦ this _ hx
  unfold push
  split
  · unfold pushChunk
    split
    case h_1 | h_2 => exact (ordinary_addChunk o _ _ _ _).external
    case h_3 => exact external_complete o hs _
    all_goals exact .error trivial
  · rename_i hchunks
    exact external_pushItem o (forall_isLevel hchunks hs) l

end Assembly
end Cbor
