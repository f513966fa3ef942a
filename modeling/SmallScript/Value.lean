import SmallScript.Decimal

/-!
The values of the language, their truth, equality and text.
-/
namespace SmallScript

inductive Value where
  | boolean (b : Bool)
  | nil
  | number (x : Float)
  | string (s : String)
  deriving DecidableEq, Repr

namespace Value

def typeName : Value → String
  | boolean _ => "boolean"
  | nil => "nil"
  | number _ => "number"
  | string _ => "string"

/-- Only `nil` and `false` are false. -/
def isTruthy : Value → Bool
  | boolean b => b
  | nil => false
  | _ => true

/-- Equality of the language. Values of different types differ; numbers compare as binary64 does,
so that zeros of either sign are equal and a NaN equals nothing. -/
def equals : Value → Value → Bool
  | boolean a, boolean b => a == b
  | nil, nil => true
  | number a, number b => a == b
  | string a, string b => a == b
  | _, _ => false

/-- The text that printing a value gives. -/
def text : Value → String
  | boolean true => "true"
  | boolean false => "false"
  | nil => "nil"
  | number x => String.ofList (numberText x)
  | string s => s

end Value
end SmallScript
