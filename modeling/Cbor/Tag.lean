namespace Cbor

namespace Tag

def dateTime : UInt64 := 0
def epoch : UInt64 := 1
def positiveBignum : UInt64 := 2
def negativeBignum : UInt64 := 3
def decimal : UInt64 := 4
def bigFloat : UInt64 := 5
def expectBase64Url : UInt64 := 21
def expectBase64 : UInt64 := 22
def expectBase16 : UInt64 := 23
def embeddedCbor : UInt64 := 24
def stringRef : UInt64 := 25
def shareable : UInt64 := 28
def sharedRef : UInt64 := 29
def uri : UInt64 := 32
def base64Url : UInt64 := 33
def base64 : UInt64 := 34
def regexp : UInt64 := 35
def mime : UInt64 := 36
def stringRefNamespace : UInt64 := 256
def selfDescribe : UInt64 := 55799

def selfDescribeHead : List UInt8 := [0xD9, 0xD9, 0xF7]

/-- Which groups of tags are mapped to items of their own. -/
structure Groups where
  dateTime : Bool := true
  bignum : Bool := true
  decimal : Bool := true
  uri : Bool := true
  deriving DecidableEq, Repr, Inhabited

end Tag
end Cbor
