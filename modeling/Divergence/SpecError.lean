/-
# `Divergence.SpecError` — what can be wrong with a specification

One constructor for each cause, and two that say where it was found: in which
field of the file, and for which parameter.  A specification is rejected
before anything is generated or run, always with the first thing found wrong.
-/
import Divergence.Kind
import Divergence.Text.Numeral

namespace Divergence

/-- What is wrong with a type token that starts like a type. -/
inductive TypeFault where
  | textAfterClose
  | noTypeName
  | emptyElement
  | notAPair
  deriving DecidableEq, Repr

def TypeFault.reason : TypeFault → String
  | .textAfterClose => "unexpected text after closing ')'"
  | .noTypeName => "missing type name before '('"
  | .emptyElement => "empty element type"
  | .notAPair => "dict needs '<key type>:<value type>'"

inductive DomainFault where
  | textAfterClose
  | elementsNotExpected
  | noElements
  | noCounts
  | emptyElements
  | notAPair
  | empty
  | unbalanced
  deriving DecidableEq, Repr

def DomainFault.reason : DomainFault → String
  | .textAfterClose => "unexpected text after closing ')'"
  | .elementsNotExpected => "element domain given for a type without elements"
  | .noElements => "expected '<counts>(<element domain>)'"
  | .noCounts => "'(' at the start of the domain"
  | .emptyElements => "empty element domain"
  | .notAPair => "expected '<key domain>:<value domain>'"
  | .empty => "expected 'lower~upper' or '[v1,v2,...]'"
  | .unbalanced => "unbalanced '[' or ']'"

inductive Bound where
  | lower | upper
  deriving DecidableEq, Repr

def Bound.label : Bound → String
  | .lower => "lower"
  | .upper => "upper"

/-- The containers whose elements have to be hashable. -/
inductive HashedContainer where
  | set | dict
  deriving DecidableEq, Repr

def HashedContainer.kind : HashedContainer → Kind
  | .set => .set
  | .dict => .dict

/-- What an expansion is counted for. -/
inductive Scope where
  /-- One node of a parameter's domain tree. -/
  | node (kind : Kind)
  /-- All parameters together. -/
  | baseSet
  deriving DecidableEq, Repr

def Scope.label : Scope → String
  | .node kind => kind.label
  | .baseSet => "base set"

/-- What a field should have held. -/
inductive Expected where
  | string | strings | natural
  deriving DecidableEq, Repr

def Expected.label : Expected → String
  | .string => "String"
  | .strings => "Array of strings"
  | .natural => "a non-negative integer"

/-- The number of values above which a range is refused. -/
def maxRange : Nat := 65536

/-- The number of values above which an exhaustive expansion is refused, for a node and
for the base set. -/
def maxExhaustive : Nat := 1000000

inductive SpecError where
  | unreadable (path reason : String)
  | notJson
  | notAnObject
  | missingFields (fields : List Field)
  | wrongFieldType (field : Field) (expected : Expected)
  | lengthMismatch (types exhaustive random : Nat)
  | unknownType (token : String)
  | malformedType (token : String) (fault : TypeFault)
  | unhashable (container : HashedContainer) (element : Kind)
  | malformedDomain (domain : String) (fault : DomainFault)
  | notAnInteger (range : String) (bound : Bound)
  | invertedRange (lower upper : Int)
  | rangeTooLarge (lower upper : Int)
  | tooManyValues (scope : Scope) (count : Nat)
  | invalidValue (kind : ScalarKind) (value : String)
  /-- The cause was found in one field. -/
  | inField (field : Field) (cause : SpecError)
  /-- The cause was found for one parameter, counted from zero. -/
  | atParameter (index : Nat) (cause : SpecError)
  deriving DecidableEq, Repr

namespace SpecError

/-- The cause without the places it was found at. -/
def root : SpecError → SpecError
  | .inField _ cause => cause.root
  | .atParameter _ cause => cause.root
  | e => e

/-- The decimal text of a number in a message. -/
def showInt (i : Int) : String :=
  String.ofList (Text.ofInt i)

def message : SpecError → String
  | .unreadable path reason => s!"cannot read spec file '{path}': {reason}"
  | .notJson => "invalid JSON"
  | .notAnObject => "spec must be a JSON object"
  | .missingFields fields =>
    "JSON missing fields: " ++ ", ".intercalate (fields.map Field.label)
  | .wrongFieldType field expected =>
    "wrong \"" ++ field.label ++ "\" type; should be " ++ expected.label
  | .lengthMismatch types exhaustive random =>
    s!"inconsistent lengths: {types} types, {exhaustive} exhaustive domains, " ++
      s!"{random} random domains"
  | .unknownType token => s!"unknown type '{token}'"
  | .malformedType token fault => s!"malformed type '{token}': " ++ fault.reason
  | .unhashable container element =>
    container.kind.label ++ " cannot hold unhashable " ++ element.label ++ " values"
  | .malformedDomain domain fault => s!"malformed domain '{domain}': " ++ fault.reason
  | .notAnInteger range bound =>
    s!"invalid range '{range}': " ++ bound.label ++ " bound is not an integer"
  | .invertedRange lower upper =>
    "invalid range: upper bound " ++ showInt upper ++ " is below lower bound " ++
      showInt lower
  | .rangeTooLarge lower upper =>
    "range " ++ showInt lower ++ "~" ++ showInt upper ++ s!" has more than {maxRange} values"
  | .tooManyValues scope count =>
    scope.label ++ s!" expands to {count} exhaustive values, above the limit of {maxExhaustive}"
  | .invalidValue kind value =>
    "invalid " ++ kind.label ++ s!" domain value '{value}'"
  | .inField field cause => field.label ++ ": " ++ cause.message
  | .atParameter index cause => s!"parameter {index}: " ++ cause.message

/-- The wording of an error and of each of its causes, outermost first. -/
def messages : SpecError → List String
  | .inField field cause => (SpecError.inField field cause).message :: cause.messages
  | .atParameter index cause => (SpecError.atParameter index cause).message :: cause.messages
  | .unreadable path reason => [(SpecError.unreadable path reason).message, reason]
  | e => [e.message]

end SpecError

end Divergence
