/-!
# Text from bytes

Bytes are read as UTF-8 text, strictly: an overlong form, a lone half of a pair and a sequence that
is cut off encode no character. Where bytes are no text, the length of their longest beginning that
is text tells where they stop being one.
-/

namespace SymbolicRegression

namespace Text

def firstChar? (bytes : List UInt8) : Option Char :=
  (bytes.take 4).toByteArray.utf8DecodeChar? 0

/-- The number of bytes before the first place where no character is encoded. -/
def validBytes : List UInt8 → Nat
  | [] => 0
  | b :: bs =>
    match firstChar? (b :: bs) with
    | none => 0
    | some c => c.utf8Size + validBytes (bs.drop (c.utf8Size - 1))
termination_by bytes => bytes.length
decreasing_by simp only [List.length_drop, List.length_cons]; omega

/-- The text that bytes encode, or how many of them encode text before the first that does not. -/
def ofUtf8 (bytes : List UInt8) : Except Nat String :=
  match String.fromUTF8? bytes.toByteArray with
  | some s => .ok s
  | none => .error (validBytes bytes)

end Text

end SymbolicRegression
