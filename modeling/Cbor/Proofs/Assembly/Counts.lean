import Cbor.Proofs.Assembly.Levels
import Cbor.Proofs.Diagnostic.Grammar

namespace Cbor.Assembly

open Decoder (Options)
open Diagnostic.Outline (Remains remains_zero lexemesAll_append lexemesEntries_append)

/-- The lexemes `ls` begin an item, and `stack` is what of it is open, the innermost first. Behind
the head of a container stand the elements or pairs that have come whole; they and what remains make
the count in the head. -/
inductive Holds : (stack : List Frame) → (ls : List Lexeme) → Prop
  | top : Holds [] []
  | array {stack : List Frame} {ls : List Lexeme} {items : Array Item} {count : Option UInt64}
    {remaining : Option Nat} (h : Holds stack ls) (hs : Outside stack) (elements : List Wire)
    (hn : items.size = elements.length) (hr : Remains count elements.length remaining) :
    Holds (.array items remaining :: stack) (ls ++ .array count :: Wire.lexemesAll elements)
  | key {stack : List Frame} {ls : List Lexeme} {entries : Entries} {count : Option UInt64}
    {remaining : Option Nat} (h : Holds stack ls) (hs : Outside stack)
    (pairs : List (Wire × Wire)) (hr : Remains count pairs.length remaining) :
    Holds (.map entries none remaining :: stack)
      (ls ++ .map count :: Wire.lexemesEntries pairs)
  | value {stack : List Frame} {ls : List Lexeme} {entries : Entries} {key : Item}
    {count : Option UInt64} {remaining : Option Nat} (h : Holds stack ls) (hs : Outside stack)
    (pairs : List (Wire × Wire)) (k : Wire) (hr : Remains count pairs.length remaining) :
    Holds (.map entries (some key) remaining :: stack)
      (ls ++ .map count :: (Wire.lexemesEntries pairs ++ k.lexemes))
  | tag {stack : List Frame} {ls : List Lexeme} (h : Holds stack ls) (hs : Outside stack)
    (number : UInt64) (role : TagRole) : Holds (.tag number role :: stack) (ls ++ [.tag number])
  | chunks {stack : List Frame} {ls : List Lexeme} (h : Holds stack ls) (hs : Outside stack)
    (isText : Bool) (octets : Array UInt8) (parts : List Octets) :
    Holds (.chunks isText octets :: stack)
      (ls ++ (if isText then .textStart else .bytesStart) :: parts.map (.ofString isText))

def Accounts (r : Option Item × Assembly) (ls : List Lexeme) : Prop :=
  if r.1.isSome then ∃ w : Wire, ls = w.lexemes else Holds r.2.stack ls

variable {o : Options} {stack : List Frame} {s : Scope} {ls : List Lexeme}
  {r : Option Item × Assembly}

theorem accounts_of_completes {item : Item} (h : Completes o stack s item r)
    (hl : Holds stack ls) (w : Wire) : Accounts r (ls ++ w.lexemes) := by
  induction h generalizing ls w with
  | top =>
    cases hl
    exact ⟨w, rfl⟩
  | @element items _ _ _ _ item _ hn =>
    cases hl with
    | @array _ ls _ count _ hl hs elements hsize hr =>
      have hpush : (items.push (item.native o.flags)).size = (elements ++ [w]).length := by
        simp [hsize]
      have hw := Holds.array hl hs (elements ++ [w]) hpush (by simpa using hr.next hn)
      simpa [Accounts, lexemesAll_append, Wire.lexemesAll] using hw
  | lastElement _ hn _ ih =>
    cases hl with
    | @array _ ls _ count _ hl hs elements hsize hr =>
      have hw := ih hl (.array false (elements ++ [w]))
      simpa [Wire.lexemes, Wire.ending, ← hr.last hn, lexemesAll_append, Wire.lexemesAll] using hw
  | @key entries remaining stack _ _ key =>
    cases hl with
    | @key _ ls _ count _ hl hs pairs hr =>
      have hw : Holds (.map entries (some key) remaining :: stack) _ := .value hl hs pairs w hr
      simpa [Accounts] using hw
  | @value entries key _ next stack _ item hn =>
    cases hl with
    | @value _ ls _ _ count _ hl hs pairs k hr =>
      have hlen : Remains count (pairs ++ [(k, w)]).length next := by simpa using hr.next hn
      have hw : Holds (.map (entries.insert o.flags key (item.native o.flags)) none next :: stack)
        _ := .key hl hs (pairs ++ [(k, w)]) hlen
      simpa [Accounts, lexemesEntries_append, Wire.lexemesEntries] using hw
  | lastValue hn _ ih =>
    cases hl with
    | @value _ ls _ _ count _ hl hs pairs k hr =>
      have hw := ih hl (.map false (pairs ++ [(k, w)]))
      simpa [Wire.lexemes, Wire.ending, ← hr.last hn, lexemesEntries_append, Wire.lexemesEntries]
        using hw
  | @tag number _ _ _ _ _ _ _ _ _ ih =>
    cases hl with
    | @tag _ ls hl hs =>
      rw [List.append_assoc]
      exact ih hl (.tag number w)

/-- A lexeme that is accepted takes what is held on, or to its end. -/
theorem accounts_of_push {a : Assembly} {l : Lexeme} (hl : Holds a.stack ls)
    (h : a.push o l = .ok r) : Accounts r (ls ++ [l]) := by
  cases pushes_of_push h with
  | @scalar _ _ a _ h => exact accounts_of_completes h hl (.scalar a)
  | @string _ _ isText b _ _ h => exact accounts_of_completes h hl (.string isText b)
  | openString hs s isText => exact .chunks hl hs isText #[] []
  | @chunk isText octets stack s b =>
    cases hl with
    | @chunks _ ls hl hs _ _ parts =>
      have hc := Holds.chunks hl hs isText (octets ++ b) (parts ++ [b])
      simpa [Accounts] using hc
  | @closeString isText _ _ _ _ h =>
    cases hl with
    | @chunks _ ls hl hs _ _ parts =>
      have hw := accounts_of_completes h hl (.chunks isText parts)
      simpa [Wire.lexemes] using hw
  | emptyArray _ h => exact accounts_of_completes h hl (.array false [])
  | openArray hs hn => exact .array hl hs [] rfl (remains_zero hn)
  | closeArray h =>
    cases hl with
    | array hl hs elements _ hr =>
      cases hr
      have hw := accounts_of_completes h hl (.array true elements)
      simpa [Wire.lexemes, Wire.count, Wire.ending] using hw
  | emptyMap _ h => exact accounts_of_completes h hl (.map false [])
  | openMap hs hn => exact .key hl hs [] (remains_zero hn)
  | closeMap h =>
    cases hl with
    | key hl hs pairs hr =>
      cases hr
      have hw := accounts_of_completes h hl (.map true pairs)
      simpa [Wire.lexemes, Wire.count, Wire.ending] using hw
  | openTag hs _ _ => exact .tag hl hs _ _

end Cbor.Assembly
