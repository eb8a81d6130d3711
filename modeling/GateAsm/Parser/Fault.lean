import GateAsm.Attr.Text
import GateAsm.Operation.Fault
import GateAsm.Token.Basic

/-!
# Errors in a text

A parse error has a cause and the position of the token that caused it. `ParseCause.message` is its
wording; the classes that a caller tells apart are those of `ParseCause.category`.
-/

namespace GateAsm

inductive ArgumentFault
  | shape
  | registerSize (n : Int)
  | controlCount (n : Int)
  deriving DecidableEq, Repr

inductive ParseCause
  | unexpectedCharacter (c : Char)
  | unexpectedToken (wanted : String) (found : Token)
  | missingDelimiter (wanted : String) (found : Token)
  | unknownType (keyword : String)
  | malformedType (keyword : String) (fault : ArgumentFault)
  | invalidBase (base : Ty)
  | noComponent (found : Token)
  | componentTooLarge (n : Int)
  | typeCount (expected got : Nat)
  | tooManyOperands (kind : String) (most : Nat)
  | tooFewOperands (kind : String) (least got : Nat)
  | noAngle (kind : String)
  | unknownOperation (name : String)
  | otherOperation (expected found : String)
  | reservedTag (key : String)
  | repeatedTag (key : String)
  | floatTooLarge (found : Token)
  | badString (found : Token)
  | noAttribute (found : Token)
  | resultCount (defined bound : Nat)
  | redefinition (name : String)
  | typeConflict (name given prior : String)
  deriving Repr

inductive ParseCategory
  | unexpectedCharacter
  | unexpectedToken
  | missingDelimiter
  | unknownType
  | malformedType
  | invalidBaseType
  | expectedOperandOrInteger
  | operandTypeCountMismatch
  | operandCountMismatch
  | missingRotationParameter
  | unknownOperation
  | invalidAttribute
  | resultCountMismatch
  | redefinedValue
  | valueTypeMismatch
  deriving DecidableEq, Repr

def ParseCategory.name : ParseCategory → String
  | unexpectedCharacter => "UnexpectedCharacter"
  | unexpectedToken => "UnexpectedToken"
  | missingDelimiter => "MissingDelimiter"
  | unknownType => "UnknownType"
  | malformedType => "MalformedType"
  | invalidBaseType => "InvalidBaseType"
  | expectedOperandOrInteger => "ExpectedOperandOrInteger"
  | operandTypeCountMismatch => "OperandTypeCountMismatch"
  | operandCountMismatch => "OperandCountMismatch"
  | missingRotationParameter => "MissingRotationParameter"
  | unknownOperation => "UnknownOperation"
  | invalidAttribute => "InvalidAttribute"
  | resultCountMismatch => "ResultCountMismatch"
  | redefinedValue => "RedefinedValue"
  | valueTypeMismatch => "ValueTypeMismatch"

namespace ParseCause

def category : ParseCause → ParseCategory
  | unexpectedCharacter _ => .unexpectedCharacter
  | unexpectedToken .. => .unexpectedToken
  | missingDelimiter .. => .missingDelimiter
  | unknownType _ => .unknownType
  | malformedType .. => .malformedType
  | invalidBase _ => .invalidBaseType
  | noComponent _ | componentTooLarge _ => .expectedOperandOrInteger
  | typeCount .. => .operandTypeCountMismatch
  | tooManyOperands .. | tooFewOperands .. => .operandCountMismatch
  | noAngle _ => .missingRotationParameter
  | unknownOperation _ | otherOperation .. => .unknownOperation
  | reservedTag _ | repeatedTag _ | floatTooLarge _ | badString _ | noAttribute _ => .invalidAttribute
  | resultCount .. => .resultCountMismatch
  | redefinition _ => .redefinedValue
  | typeConflict .. => .valueTypeMismatch

def message : ParseCause → String
  | unexpectedCharacter c => "unexpected character " ++ Text.quoted c.toString
  | unexpectedToken wanted found => s!"expected {wanted}, found {found.shown}"
  | missingDelimiter wanted found => s!"expected {wanted}, found {found.shown}"
  | unknownType keyword => s!"unrecognized type '{keyword}'"
  | malformedType keyword .shape => s!"error during '{keyword}' type parsing"
  | malformedType _ (.registerSize n) => s!"register size must be > 1, got {n}"
  | malformedType _ (.controlCount n) => s!"number of controls must be > 0, got {n}"
  | invalidBase base => s!"base type of controlled gate must be gate1, gate2 or circuit, got '{base.text}'"
  | noComponent found => s!"expected SSA value or integer, found {found.shown}"
  | componentTooLarge n => s!"integer {n} does not fit in int64"
  | typeCount expected got =>
    s!"number of provided operand types ({got}) doesn't match expected ({expected})"
  | tooManyOperands kind most => s!"'{kind}' expects at most {most} operands"
  | tooFewOperands kind least got => s!"'{kind}' expects at least {least} operands, got {got}"
  | noAngle kind => s!"'{kind}' expects a rotation angle or value inside '()'"
  | unknownOperation name => s!"unknown operation '{name}'"
  | otherOperation expected found => s!"expected '{expected}', found '{found}'"
  | reservedTag key => s!"attribute '{key}' is reserved by the instruction format"
  | repeatedTag key => s!"attribute '{key}' occurs more than once"
  | floatTooLarge found => s!"floating point literal {found.shown} is out of range"
  | badString found => s!"invalid string literal {found.shown}"
  | noAttribute found => s!"expected attribute value, found {found.shown}"
  | resultCount defined bound => s!"operation defines {defined} results but was provided {bound} to bind"
  | redefinition name => s!"redefinition of value '{name}'"
  | typeConflict name given prior =>
    s!"use of value '{name}' expects different type than prior uses: '{given}' vs '{prior}'"

end ParseCause

structure ParseError where
  cause : ParseCause
  location : Location
  deriving Repr

def ParseError.message (e : ParseError) : String := e.cause.message

/-- Why a parser stops. Only an error in the text is reported; the others are limits of numbers, refusals
of the block, and types of loaded values that cannot be compared or shown. -/
inductive ParseFailure
  | error (e : ParseError)
  | integerTooLong
  | segmentTooLarge
  | lengthMismatch
  | block (f : BlockFault)
  | type (e : OperationError)
  deriving Repr

end GateAsm
