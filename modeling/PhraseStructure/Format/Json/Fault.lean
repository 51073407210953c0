import PhraseStructure.Decimal.Shortest
import PhraseStructure.Text.Quoted

/-!
# What can be wrong with a JSON text

A text can end too early, it can be malformed, or it can be proper JSON that does not fit what is asked for.
Only the last kind has a message of its own.
-/

namespace PhraseStructure.Json

/-- A value that was found where another kind of value was asked for. -/
inductive Found where
  /-- The null value. -/
  | null
  /-- A truth value. -/
  | boolean (b : Bool)
  /-- A whole number. -/
  | integer (n : Int)
  /-- A number with a fraction or an exponent, or one that is too large for 64 bits. -/
  | floating (text : String)
  /-- A string. -/
  | string (s : String)
  /-- An array. -/
  | sequence
  /-- An object. -/
  | map
deriving DecidableEq, Repr

/-- How a value that was found is told. -/
def Found.text : Found → String
  | null => "null"
  | boolean true => "boolean `true`"
  | boolean false => "boolean `false`"
  | integer n => s!"integer `{n}`"
  | floating text => "floating point `" ++ text ++ "`"
  | string s => "string " ++ Text.quoted s
  | sequence => "sequence"
  | map => "map"

/-- How proper JSON fails to fit. -/
inductive Mismatch where
  /-- A value of another kind was asked for. -/
  | type (found : Found) (expected : String)
  /-- A value of this kind but not this value was asked for. -/
  | value (found : Found) (expected : String)
  /-- An array has too few elements. -/
  | length (count : Nat) (expected : String)
  /-- A required field is missing. -/
  | missing (field : String)
  /-- A field is given twice. -/
  | duplicate (field : String)
  /-- A name is none of the names allowed. -/
  | variant (name : String) (allowed : String)
deriving DecidableEq, Repr

/-- The wording of a mismatch. -/
def Mismatch.message : Mismatch → String
  | type found expected => "invalid type: " ++ found.text ++ ", expected " ++ expected
  | value found expected => "invalid value: " ++ found.text ++ ", expected " ++ expected
  | length count expected => s!"invalid length {count}, expected {expected}"
  | missing field => "missing field `" ++ field ++ "`"
  | duplicate field => "duplicate field `" ++ field ++ "`"
  | variant name allowed => "unknown variant `" ++ name ++ "`, expected " ++ allowed

/-- What is wrong with a JSON text. -/
inductive Fault where
  /-- The text is proper JSON so far and does not fit. -/
  | mismatch (m : Mismatch)
  /-- The text is not proper JSON. -/
  | malformed
  /-- The text ends too early. -/
  | endsEarly
deriving DecidableEq, Repr

end PhraseStructure.Json
