import Cbor.Item.Basic

namespace Cbor.Item

mutual

def same : Item → Item → Bool
  | unsigned a, unsigned b => a = b
  | negative a, negative b => a = b
  | bytes a, bytes b => a = b
  | text a, text b => a = b
  | string a, string b => a = b
  | array a, array b => sameAll a b
  | map a, map b => sameEntries a b
  | tag m a, tag n b => m = n && same a b
  | bool a, bool b => a = b
  | null, null => true
  | undefined, undefined => true
  | float16 a, float16 b => a = b
  | float32 a, float32 b => a = b
  | float64 a, float64 b => a = b
  | dateTime a, dateTime b => a.sameInstant b
  | bignum a, bignum b => a = b
  | decimal a, decimal b => a = b
  | bigFloat a, bigFloat b => a = b
  | uri a, uri b => a = b
  | shareable _ a, shareable _ b => same a b
  | custom a _, custom b _ => a = b
  | params p a, params q b => p = q && same a b
  | _, _ => false

def sameAll : List Item → List Item → Bool
  | [], [] => true
  | a :: as, b :: bs => same a b && sameAll as bs
  | _, _ => false

def sameEntries : List (Item × Item) → List (Item × Item) → Bool
  | [], [] => true
  | (k, a) :: as, (l, b) :: bs => same k l && same a b && sameEntries as bs
  | _, _ => false

end

instance : BEq Item := ⟨same⟩

def digestOctets (h : UInt64) (b : Octets) : UInt64 := b.foldl (fun h x ↦ mixHash h (hash x)) h

def digestBignum (h : UInt64) (b : Bignum) : UInt64 :=
  digestOctets (mixHash h (hash b.negative)) b.magnitude

def digestOverrides (h : UInt64) (p : Encoder.Overrides) : UInt64 :=
  [hash p.flags.bits, hash p.flagsClear.bits, hash p.dateTime, hash p.bignum, hash p.decimal,
    hash p.uri].foldl mixHash h

mutual

def digest (h : UInt64) : Item → UInt64
  | unsigned n => mixHash (mixHash h 0) (hash n)
  | negative n => mixHash (mixHash h 1) (hash n)
  | bytes b => digestOctets (mixHash h 2) b
  | text b => digestOctets (mixHash h 3) b
  | string b => digestOctets (mixHash h 4) b
  | array items => digestAll (mixHash h 5) items
  | map entries => digestEntries (mixHash h 6) entries
  | tag n content => digest (mixHash (mixHash h 7) (hash n)) content
  | bool b => mixHash (mixHash h 8) (hash b)
  | null => mixHash h 9
  | undefined => mixHash h 10
  | float16 bits => mixHash (mixHash h 11) (hash bits)
  | float32 bits => mixHash (mixHash h 12) (hash bits)
  | float64 bits => mixHash (mixHash h 13) (hash bits)
  | dateTime t => mixHash (mixHash (mixHash h 14) (hash t.seconds)) (hash t.nanos)
  | bignum b => digestBignum (mixHash h 15) b
  | decimal f => digestBignum (mixHash (mixHash h 16) (hash f.exponent)) f.mantissa
  | bigFloat f => digestBignum (mixHash (mixHash h 17) (hash f.exponent)) f.mantissa
  | uri u => digestOctets (mixHash h 18) u.octets
  | shareable _ content => digest (mixHash h 19) content
  | custom hook _ => mixHash (mixHash h 20) (hash hook)
  | params p content => digest (digestOverrides (mixHash h 21) p) content

def digestAll (h : UInt64) : List Item → UInt64
  | [] => h
  | a :: as => digestAll (digest h a) as

def digestEntries (h : UInt64) : List (Item × Item) → UInt64
  | [] => h
  | (k, a) :: as => digestEntries (digest (digest h k) a) as

end

instance : Hashable Item := ⟨digest 7⟩

mutual

/-- The item without what equality does not see: names of cells, results of hooks and offsets of
local time. -/
def core : Item → Item
  | array items => array (coreAll items)
  | map entries => map (coreEntries entries)
  | tag n content => tag n (core content)
  | dateTime t => dateTime { t with offset := 0 }
  | shareable _ content => shareable 0 (core content)
  | custom hook _ => custom hook (.ok null)
  | params p content => params p (core content)
  | i => i

def coreAll : List Item → List Item
  | [] => []
  | i :: is => core i :: coreAll is

def coreEntries : List (Item × Item) → List (Item × Item)
  | [] => []
  | (k, i) :: es => (core k, core i) :: coreEntries es

end

mutual

theorem same_iff : (a b : Item) → (same a b = true ↔ core a = core b)
  | array as, b => by cases b <;> simp [same, core, sameAll_iff as]
  | map as, b => by cases b <;> simp [same, core, sameEntries_iff as]
  | tag m a, b => by cases b <;> simp [same, core, same_iff a]
  | shareable c a, b => by cases b <;> simp [same, core, same_iff a]
  | params p a, b => by cases b <;> simp [same, core, same_iff a]
  | dateTime t, b => by cases b <;> simp [same, core, Moment.sameInstant]
  | unsigned _, b | negative _, b | bytes _, b | text _, b | string _, b | bool _, b | null, b
  | undefined, b | float16 _, b | float32 _, b | float64 _, b | bignum _, b | decimal _, b
  | bigFloat _, b | uri _, b | custom .., b => by
    cases b <;> simp [same, core]

theorem sameAll_iff : (as bs : List Item) → (sameAll as bs = true ↔ coreAll as = coreAll bs)
  | [], bs => by cases bs <;> simp [sameAll, coreAll]
  | a :: as, bs => by cases bs <;> simp [sameAll, coreAll, same_iff a, sameAll_iff as]

theorem sameEntries_iff : (as bs : List (Item × Item)) →
    (sameEntries as bs = true ↔ coreEntries as = coreEntries bs)
  | [], bs => by cases bs <;> simp [sameEntries, coreEntries]
  | (k, a) :: as, bs => by
    cases bs <;>
      simp [sameEntries, coreEntries, same_iff k, same_iff a, sameEntries_iff as]

end

mutual

theorem digest_core (h : UInt64) : (a : Item) → digest h (core a) = digest h a
  | array as => by rw [core, digest, digest, digestAll_core _ as]
  | map as => by rw [core, digest, digest, digestEntries_core _ as]
  | tag _ a | shareable _ a | params _ a => by rw [core, digest, digest, digest_core _ a]
  | unsigned _ | negative _ | bytes _ | text _ | string _ | bool _ | null | undefined | float16 _
  | float32 _ | float64 _ | bignum _ | decimal _ | bigFloat _ | uri _ => rfl
  | dateTime _ | custom .. => by rw [core, digest, digest]

theorem digestAll_core (h : UInt64) : (as : List Item) → digestAll h (coreAll as) = digestAll h as
  | [] => rfl
  | a :: as => by rw [coreAll, digestAll, digestAll, digest_core _ a, digestAll_core _ as]

theorem digestEntries_core (h : UInt64) : (as : List (Item × Item)) →
    digestEntries h (coreEntries as) = digestEntries h as
  | [] => rfl
  | (k, a) :: as => by
    rw [coreEntries, digestEntries, digestEntries, digest_core _ k, digest_core _ a,
      digestEntries_core _ as]

end

theorem beq_iff {a b : Item} : (a == b) = true ↔ core a = core b := same_iff a b

instance : EquivBEq Item where
  rfl := beq_iff.2 rfl
  symm h := beq_iff.2 (beq_iff.1 h).symm
  trans h h' := beq_iff.2 ((beq_iff.1 h).trans (beq_iff.1 h'))

instance : LawfulHashable Item where
  hash_eq a b h := by
    have hd := congrArg (digest 7) (beq_iff.1 h)
    rwa [digest_core, digest_core] at hd

end Cbor.Item
