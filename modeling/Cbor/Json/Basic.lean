namespace Cbor

namespace Json

/-- An integer that 64 bits can hold, with or without sign, or a finite double. -/
inductive Number where
  | int (n : Int)
  | double (bits : UInt64)
  deriving DecidableEq, Repr

end Json

inductive Json where
  | null
  | bool (b : Bool)
  | number (n : Json.Number)
  | string (s : String)
  | array (items : List Json)
  | object (members : List (String × Json))
  deriving Repr

namespace Json

instance : Inhabited Json := ⟨null⟩

/-- Puts a member in its place, or in place of the one with the same key. -/
def insertMember (key : String) (value : Json) : List (String × Json) → List (String × Json)
  | [] => [(key, value)]
  | (k, v) :: rest =>
    if key < k then (key, value) :: (k, v) :: rest
    else if key = k then (key, value) :: rest
    else (k, v) :: insertMember key value rest

def ofMembers (members : List (String × Json)) : Json :=
  object (members.foldl (fun ms (k, v) ↦ insertMember k v ms) [])

def int (n : Int) : Json := number (.int n)

def ofChars (s : List Char) : Json := string (String.ofList s)

end Json
end Cbor
