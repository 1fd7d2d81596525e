/-!
# Reasons

Why a document is rejected. Each reason has a number, which is what a compiled program returns (zero
is kept for acceptance), a name for listings and a sentence for people.
-/

namespace JsonSieve

inductive Reason where
  | unexpectedToken
  | notInteger
  | numberOutOfRange
  | tooFewProperties
  | tooManyProperties
  | missingRequiredProperties
  | invalidSplitCondition
  | badPropertyName
  | invalidMatchCase
  | notMultiple
  | lengthTooShort
  | lengthTooLong
  | tooFewItems
  | tooManyItems
  | arrayNotUnique
  | containsUnsatisfied
  | patternMismatch
  | invalidJson
  deriving DecidableEq, Repr, Inhabited

namespace Reason

def all : List Reason := [
  .unexpectedToken, .notInteger, .numberOutOfRange, .tooFewProperties, .tooManyProperties,
  .missingRequiredProperties, .invalidSplitCondition, .badPropertyName, .invalidMatchCase,
  .notMultiple, .lengthTooShort, .lengthTooLong, .tooFewItems, .tooManyItems, .arrayNotUnique,
  .containsUnsatisfied, .patternMismatch, .invalidJson]

/-- The number of a reason; never zero. -/
def code : Reason → Nat
  | .unexpectedToken => 1
  | .notInteger => 2
  | .numberOutOfRange => 3
  | .tooFewProperties => 4
  | .tooManyProperties => 5
  | .missingRequiredProperties => 6
  | .invalidSplitCondition => 7
  | .badPropertyName => 8
  | .invalidMatchCase => 9
  | .notMultiple => 10
  | .lengthTooShort => 11
  | .lengthTooLong => 12
  | .tooFewItems => 13
  | .tooManyItems => 14
  | .arrayNotUnique => 15
  | .containsUnsatisfied => 16
  | .patternMismatch => 17
  | .invalidJson => 18

def word (r : Reason) : Int64 := Int64.ofNat r.code

/-- The reason with a given word; zero and unknown words have none. -/
def ofWord? (w : Int64) : Option Reason := all.find? (·.word = w)

def name : Reason → String
  | .unexpectedToken => "UNEXPECTED_TOKEN"
  | .notInteger => "NOT_INTEGER"
  | .numberOutOfRange => "NUMBER_OUT_OF_RANGE"
  | .tooFewProperties => "TOO_FEW_PROPERTIES"
  | .tooManyProperties => "TOO_MANY_PROPERTIES"
  | .missingRequiredProperties => "MISSING_REQUIRED_PROPERTIES"
  | .invalidSplitCondition => "INVALID_SPLIT_CONDITION"
  | .badPropertyName => "BAD_PROPERTY_NAME"
  | .invalidMatchCase => "INVALID_MATCH_CASE"
  | .notMultiple => "NOT_MULTIPLE"
  | .lengthTooShort => "LENGTH_TOO_SHORT"
  | .lengthTooLong => "LENGTH_TOO_LONG"
  | .tooFewItems => "TOO_FEW_ITEMS"
  | .tooManyItems => "TOO_MANY_ITEMS"
  | .arrayNotUnique => "ARRAY_NOT_UNIQUE"
  | .containsUnsatisfied => "CONTAINS_UNSATISFIED"
  | .patternMismatch => "PATTERN_MISMATCH"
  | .invalidJson => "INVALID_JSON"

def ofName? (name : String) : Option Reason := all.find? (·.name = name)

def message : Reason → String
  | .unexpectedToken => "unexpected token"
  | .notInteger => "number is not an integer"
  | .numberOutOfRange => "number is out of range"
  | .tooFewProperties => "too few properties"
  | .tooManyProperties => "too many properties"
  | .missingRequiredProperties => "missing required properties"
  | .invalidSplitCondition => "invalid split condition"
  | .badPropertyName => "bad property name"
  | .invalidMatchCase => "invalid match case"
  | .notMultiple => "number is not a multiple of divisor"
  | .lengthTooShort => "length is too short"
  | .lengthTooLong => "length is too long"
  | .tooFewItems => "too few items"
  | .tooManyItems => "too many items"
  | .arrayNotUnique => "array elements are not unique"
  | .containsUnsatisfied => "array does not contain a required item"
  | .patternMismatch => "string does not match pattern"
  | .invalidJson => "document is not well-formed JSON"

end Reason

end JsonSieve
