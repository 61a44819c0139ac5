namespace Cbor

inductive FlagsFault where
  | bothString
  | bothKeyString
  | noString
  | noKeyString
  | bothFloat
  | unknown (bits : UInt32)
  | clearCde
  deriving DecidableEq, Repr

inductive GrammarFault where
  | breakUnderflow
  | breakUnexpected
  | inconsistentStringType
  | nestedIndefiniteString
  deriving DecidableEq, Repr

inductive Fault where
  | invalidFlags (cause : FlagsFault)
  | invalidOption (option : String)
  | depth
  | recursion
  | grammar (cause : GrammarFault)
  | utf8
  | unsupportedType
  | unsupportedValue
  | unsupportedSize
  | unsupportedKeyType
  | unsupportedKeyValue
  | unsupportedKeySize
  | duplicateKey
  | truncatedData
  | malformedData
  | extraneousData
  | tagSyntax (tag : UInt64)
  | tagType (tag : UInt64)
  | tagValue (tag : UInt64)
  | internal (detail : String)
  deriving DecidableEq, Repr

def FlagsFault.message : FlagsFault → String
  | .bothString => "both BYTE and TEXT are set"
  | .bothKeyString => "both KEY_BYTE and KEY_TEXT are set"
  | .noString => "neither BYTE nor TEXT is set"
  | .noKeyString => "neither KEY_BYTE nor KEY_TEXT is set"
  | .bothFloat => "both FLOAT16 and FLOAT32 are set"
  | .unknown bits => "unknown flag bits 0x" ++ String.ofList (Nat.toDigits 16 bits.toNat)
  | .clearCde => "CDE cannot be cleared inside an encode"

def GrammarFault.message : GrammarFault → String
  | .breakUnderflow => "break with no open indefinite-length item"
  | .breakUnexpected => "break inside a definite-length item"
  | .inconsistentStringType => "chunk of another string type inside an indefinite-length string"
  | .nestedIndefiniteString => "indefinite-length chunk inside an indefinite-length string"

namespace Fault

def code : Fault → Nat
  | invalidFlags _ => 1
  | invalidOption _ => 2
  | depth => 3
  | recursion => 4
  | grammar _ => 5
  | utf8 => 6
  | unsupportedType => 17
  | unsupportedValue => 18
  | unsupportedSize => 19
  | unsupportedKeyType => 25
  | unsupportedKeyValue => 26
  | unsupportedKeySize => 27
  | duplicateKey => 28
  | truncatedData => 33
  | malformedData => 34
  | extraneousData => 35
  | tagSyntax _ => 41
  | tagType _ => 42
  | tagValue _ => 43
  | internal _ => 241

def name : Fault → String
  | invalidFlags _ => "invalid-flags"
  | invalidOption _ => "invalid-options"
  | depth => "depth"
  | recursion => "recursion"
  | grammar _ => "syntax"
  | utf8 => "utf8"
  | unsupportedType => "unsupported-type"
  | unsupportedValue => "unsupported-value"
  | unsupportedSize => "unsupported-size"
  | unsupportedKeyType => "unsupported-key-type"
  | unsupportedKeyValue => "unsupported-key-value"
  | unsupportedKeySize => "unsupported-key-size"
  | duplicateKey => "duplicate-key"
  | truncatedData => "truncated-data"
  | malformedData => "malformed-data"
  | extraneousData => "extraneous-data"
  | tagSyntax _ => "tag-syntax"
  | tagType _ => "tag-type"
  | tagValue _ => "tag-value"
  | internal _ => "internal"

def message : Fault → String
  | invalidFlags cause => "Invalid flags: " ++ cause.message
  | invalidOption option => "Invalid value for option '" ++ option ++ "'"
  | depth => "Maximum nesting depth exceeded"
  | recursion => "Recursive reference detected"
  | grammar cause => "Syntax error: " ++ cause.message
  | utf8 => "Invalid UTF-8 sequence in text string"
  | unsupportedType => "Unsupported type"
  | unsupportedValue => "Unsupported value"
  | unsupportedSize => "Unsupported size"
  | unsupportedKeyType => "Unsupported map key type"
  | unsupportedKeyValue => "Unsupported map key value"
  | unsupportedKeySize => "Unsupported map key size"
  | duplicateKey => "Duplicate map key"
  | truncatedData => "Not enough data for encoded value"
  | malformedData => "Malformed data"
  | extraneousData => "Additional data after end of item"
  | tagSyntax tag => "Tag " ++ tag.toNat.repr ++ " is not permitted here"
  | tagType tag => "Tag " ++ tag.toNat.repr ++ " has content of an incorrect type"
  | tagValue tag => "Tag " ++ tag.toNat.repr ++ " has an invalid content value"
  | internal detail => "Internal error: " ++ detail

end Fault
end Cbor
