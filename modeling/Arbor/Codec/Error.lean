import Arbor.Codec.Record

/-! Faults of codecs. -/
namespace Arbor

inductive CodecError where
  | fault (fault : Fault)
  /-- A text that the format cannot carry. -/
  | text (format : String) (kind payload : Bytes) (objection : Objection)
  /-- Bytes that are not in the format, or a value that it has no form for. -/
  | encoding
  | noFormat (error : FormatError)
  deriving DecidableEq, Repr

def Objection.message : Objection → String
  | notUtf8 => "is not valid UTF-8"
  | character c =>
    let digits := Nat.toDigits 16 c.toNat
    "has character U+" ++ String.ofList (List.replicate (4 - digits.length) '0' ++
      digits.map Char.toUpper)

def CodecError.message : CodecError → String
  | fault f => f.message
  | text format kind payload objection =>
    "encoding error: " ++ format ++ ": " ++ kind.toStringD ++ " payload " ++ quoted payload ++ " " ++
      objection.message
  | encoding => "encoding error"
  | noFormat e => e.message

end Arbor
