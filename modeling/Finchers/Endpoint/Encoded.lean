import Finchers.Error
import Finchers.Lib.Percent

/-!
# Percent-encoded strings

A segment of a path, and what remains of a path, are percent-encoded strings; `FromEncodedStr` is
the conversion to the type of a parameter.
-/

set_option autoImplicit false

namespace Finchers

/-- `Utf8Error`: its text. -/
def displayUtf8Error (err : Utf8.Utf8Error) : String :=
  match err.errorLen with
  | some n => "invalid utf-8 sequence of " ++ toString n ++ " bytes from index " ++
      toString err.validUpTo
  | none => "incomplete utf-8 byte sequence from index " ++ toString err.validUpTo

/-- `EncodedStr::percent_decode`. -/
def EncodedStr.percentDecode (s : Str) : Except Utf8.Utf8Error Str :=
  Utf8.decode (Percent.decode (Utf8.bytes s))

theorem EncodedStr.percentDecode_eq_ok_iff {raw s : Str} :
    percentDecode raw = .ok s ↔ Percent.decode (Utf8.bytes raw) = Utf8.bytes s :=
  Utf8.decode_eq_ok_iff

/-- `FromEncodedStr`; the errors are those of the application's `Error`. -/
class FromEncodedStr (ε T : Type) where
  fromEncodedStr : Str → Except (Error ε) T

/-- `DecodeEncodedStrError`. -/
def decodeEncodedStrError {ε : Type} : Error ε :=
  .badRequest "failed to decode a percent encoded string to UTF-8"

/-- `FromEncodedStr for String`. -/
instance {ε : Type} : FromEncodedStr ε Str where
  fromEncodedStr s := (EncodedStr.percentDecode s).mapError fun _ => decodeEncodedStrError

end Finchers
