import Cbor.Proofs.Encoder.Emit
import Cbor.Proofs.Encoder.Tree

namespace Cbor

namespace Wire

def referString (isText : Bool) (b : Octets) : List StringTable → Wire × List StringTable
  | [] => (string isText b, [])
  | inner :: outer =>
    match inner.lookup isText b with
    | (some index, inner) => (tag Tag.stringRef (scalar (.unsigned (.ofNat index))), inner :: outer)
    | (none, inner) => (string isText b, inner :: outer)

mutual

/-- Replaces strings that are in the innermost table. If `live`, a tag 256 has a table of its
own. -/
def refer (live : Bool) (tables : List StringTable) : Wire → Wire × List StringTable
  | scalar a => (scalar a, tables)
  | simple n valid => (simple n valid, tables)
  | string isText b => referString isText b tables
  | chunks isText parts => (chunks isText parts, tables)
  | array indefinite items =>
    let r := referAll live tables items
    (array indefinite r.1, r.2)
  | map indefinite entries =>
    let r := referEntries live tables entries
    (map indefinite r.1, r.2)
  | tag number content =>
    if number = Tag.stringRefNamespace ∧ live then
      let r := refer live (#[] :: tables) content
      (tag number r.1, r.2.tail)
    else
      let r := refer live tables content
      (tag number r.1, r.2)

def referAll (live : Bool) (tables : List StringTable) : List Wire → List Wire × List StringTable
  | [] => ([], tables)
  | w :: ws =>
    let r := refer live tables w
    let rs := referAll live r.2 ws
    (r.1 :: rs.1, rs.2)

def referEntries (live : Bool) (tables : List StringTable) :
    List (Wire × Wire) → List (Wire × Wire) × List StringTable
  | [] => ([], tables)
  | (k, w) :: es =>
    let key := refer live tables k
    let r := refer live key.2 w
    let rs := referEntries live r.2 es
    ((key.1, r.1) :: rs.1, rs.2)

end

mutual

theorem refer_off : (w : Wire) → w.refer false [] = (w, [])
  | scalar _ | simple _ _ | string _ _ | chunks _ _ => rfl
  | array _ items => by simp only [refer, refer_off_all items]
  | map _ entries => by simp only [refer, refer_off_entries entries]
  | tag _ content => by simp [refer, refer_off content]

theorem refer_off_all : (ws : List Wire) → referAll false [] ws = (ws, [])
  | [] => rfl
  | w :: ws => by simp only [referAll, refer_off w, refer_off_all ws]

theorem refer_off_entries : (es : List (Wire × Wire)) → referEntries false [] es = (es, [])
  | [] => rfl
  | (k, w) :: es => by simp only [referEntries, refer_off k, refer_off w, refer_off_entries es]

end

theorem length_referAll (live : Bool) (tables : List StringTable) (ws : List Wire) :
    (referAll live tables ws).1.length = ws.length := by
  induction ws generalizing tables with
  | nil => rfl
  | cons w ws ih => simp only [referAll, List.length_cons, ih]

theorem length_referEntries (live : Bool) (tables : List StringTable) (es : List (Wire × Wire)) :
    (referEntries live tables es).1.length = es.length := by
  induction es generalizing tables with
  | nil => rfl
  | cons e es ih => simp only [referEntries, List.length_cons, ih]

def referring (mode : Encoder.StringRef) (w : Wire) : Wire :=
  match mode with
  | .off => w
  | .on => tag Tag.stringRefNamespace (w.refer true [#[]]).1
  | .explicit => (w.refer true []).1

def announced (o : Encoder.Options) (w : Wire) : Wire :=
  if o.flags.contains .selfDescribe then tag Tag.selfDescribe w else w

end Wire

namespace Item

mutual

/-- There is no tag 25 in the item, nor in what the hooks in it give. -/
def NoStringRef : Item → Prop
  | .array items => NoStringRefAll items
  | .map entries => NoStringRefEntries entries
  | .tag number content => number ≠ Tag.stringRef ∧ NoStringRef content
  | .shareable _ content => NoStringRef content
  | .custom _ result => NoStringRefResult result
  | .params _ content => NoStringRef content
  | _ => True

def NoStringRefAll : List Item → Prop
  | [] => True
  | i :: is => NoStringRef i ∧ NoStringRefAll is

def NoStringRefEntries : List (Item × Item) → Prop
  | [] => True
  | (k, i) :: is => NoStringRef k ∧ NoStringRef i ∧ NoStringRefEntries is

def NoStringRefResult : Except Fault Item → Prop
  | .error _ => True
  | .ok i => NoStringRef i

end

end Item

end Cbor
