import RegionCompiler.Layout
import RegionCompiler.Program

/-! What can be wrong with a program that could be read. -/
namespace RegionCompiler.Typing

inductive Problem
  | alreadyExists (name : String)
  | unknownType (ty : Ty)
  | letTypeMismatch (expected actual : Ty)
  | variableDoesntExist (name : String)
  | noReturn (name : String) (ty : Ty)
  | returnEmpty (expected : Ty)
  | returnValueInVoid
  | retTypeMismatch (expected actual : Ty)
  | typeMismatch (expected actual : Ty)
  | typeMismatchMany (expected actual : Ty)
  | binaryUndefined (op : BinaryOp) (ty : Ty)
  | unaryUndefined (op : UnaryOp) (ty : Ty)
  | noEntryPoint
  | invalidEntryPoint
  | cantAccess (ty : Ty) (access : String)
  | argumentCount (name : String) (expected actual : Nat) (variadic : Bool)
  | argumentType (position : Nat) (expected actual : Ty)
  | functionNotCalled (name : String)
  | dynamicToFixedArray (ty : Ty)
  | allocationWithoutHint
  | emptyArrayWithoutHint
  | nullWithoutPointerHint
  | invalidVariadicPosition
  | constructorFormat
  | constructorCount (ty : Ty) (expected actual : Nat)
  | constructorUnknownMember (ty : Ty) (member : String)
  | cantFigureTypes (name : String)
  | notPointerType (ty : Ty)
  | invalidPointerTarget
  | mutOfCall
  | invalidConversion (source target : Ty)
  | notInLoop (keyword : String)
  | embedNotFound (path : String)
  | notACall
  /-- The size of a record is not a word. This ends the compiler and is not shown. -/
  | overflow

namespace Problem

def name : Problem → String
  | .alreadyExists _ => "already-exists"
  | .unknownType _ => "unknown-type"
  | .letTypeMismatch _ _ => "let-type-mismatch"
  | .variableDoesntExist _ => "variable-doesnt-exist"
  | .noReturn _ _ => "no-return"
  | .returnEmpty _ => "return-empty"
  | .returnValueInVoid => "return-value-in-void"
  | .retTypeMismatch _ _ => "ret-type-mismatch"
  | .typeMismatch _ _ => "type-mismatch"
  | .typeMismatchMany _ _ => "type-mismatch-many"
  | .binaryUndefined _ _ => "binary-operator-undefined"
  | .unaryUndefined _ _ => "unary-operator-undefined"
  | .noEntryPoint => "no-entry-point"
  | .invalidEntryPoint => "invalid-entry-point"
  | .cantAccess _ _ => "cant-access"
  | .argumentCount _ _ _ _ => "fn-call-args-count"
  | .argumentType _ _ _ => "fn-call-arg-type"
  | .functionNotCalled _ => "function-not-called"
  | .dynamicToFixedArray _ => "dynamic-to-fixed-array"
  | .allocationWithoutHint => "array-allocation-without-hint"
  | .emptyArrayWithoutHint => "empty-array-without-hint"
  | .nullWithoutPointerHint => "null-without-pointer-hint"
  | .invalidVariadicPosition => "invalid-vararg-position"
  | .constructorFormat => "constructor-arguments-format"
  | .constructorCount _ _ _ => "constructor-not-enough-args"
  | .constructorUnknownMember _ _ => "constructor-unknown-member"
  | .cantFigureTypes _ => "cant-figure-types"
  | .notPointerType _ => "not-pointer-type"
  | .invalidPointerTarget => "invalid-pointer-target"
  | .mutOfCall => "mut-destination-acc"
  | .invalidConversion _ _ => "invalid-conversion"
  | .notInLoop _ => "not-in-loop"
  | .embedNotFound _ => "embed-not-found"
  | .notACall => "not-a-call"
  | .overflow => "overflow"

def code (text : String) : String :=
  "`" ++ text ++ "`"

def message : Problem → String
  | .alreadyExists name => code name ++ " already exists"
  | .unknownType ty => "Type " ++ code ty.display ++ " is unknown"
  | .letTypeMismatch expected actual =>
    "Variable is declared as " ++ code expected.display ++ " but is assigned a value of type "
      ++ code actual.display
  | .variableDoesntExist name => "Variable " ++ code name ++ " doesn't exist in this scope"
  | .noReturn name ty =>
    "Function " ++ code name ++ " returns " ++ code ty.display ++ " but doesn't end with `ret`"
  | .returnEmpty expected => "Function must return a value of type " ++ code expected.display
  | .returnValueInVoid => "Function returns `void` and can't return a value"
  | .retTypeMismatch expected actual =>
    "Function returns " ++ code expected.display ++ " but `ret` gives " ++ code actual.display
  | .typeMismatch expected actual =>
    "Expected a value of type " ++ code expected.display ++ ", but got " ++ code actual.display
  | .typeMismatchMany expected actual =>
    "Array elements must all be of type " ++ code expected.display ++ ", but one is "
      ++ code actual.display
  | .binaryUndefined op ty =>
    "Operator " ++ code op.text ++ " is not defined for " ++ code ty.display
  | .unaryUndefined op ty =>
    "Operator " ++ code op.text ++ " is not defined for " ++ code ty.display
  | .noEntryPoint => "Program has no `fn main()` entry point"
  | .invalidEntryPoint => "`main` must take no parameters and return `void` or an integer type"
  | .cantAccess ty access => "Can't " ++ access ++ " a value of type " ++ code ty.display
  | .argumentCount name expected actual variadic =>
    "Function " ++ code name ++ " takes " ++ toString expected
      ++ (if variadic then " or more" else "") ++ " arguments, but " ++ toString actual
      ++ " were given"
  | .argumentType position expected actual =>
    "Argument " ++ toString position ++ " should be of type " ++ code expected.display
      ++ ", but is " ++ code actual.display
  | .functionNotCalled name => "Function " ++ code name ++ " must be called"
  | .dynamicToFixedArray ty =>
    "Can't allocate a dynamic array into the fixed array type " ++ code ty.display
  | .allocationWithoutHint => "Array allocation needs an array type from its context"
  | .emptyArrayWithoutHint => "Empty array needs an array type from its context"
  | .nullWithoutPointerHint => "`null` can only be used where a pointer or array is expected"
  | .invalidVariadicPosition => "The variadic `*` must be the last parameter"
  | .constructorFormat => "Constructor arguments must be either all named or all positional"
  | .constructorCount ty expected actual =>
    "Type " ++ code ty.display ++ " has " ++ toString expected ++ " members, but "
      ++ toString actual ++ " were initialized"
  | .constructorUnknownMember ty member =>
    "Type " ++ code ty.display ++ " has no member called " ++ code member
  | .cantFigureTypes name =>
    "Can't figure out the layout of " ++ code name ++ ", its members depend on each other"
  | .notPointerType ty => "Expected a pointer or array, but got " ++ code ty.display
  | .invalidPointerTarget => "Can't take the address of a function call result"
  | .mutOfCall => "Can't assign to the result of a function call"
  | .invalidConversion source target =>
    "Can't convert from " ++ code source.display ++ " to " ++ code target.display
  | .notInLoop keyword => code keyword ++ " can only be used inside a loop"
  | .embedNotFound path => "Embedded file " ++ code path ++ " was not found"
  | .notACall => "`call` must be followed by a function call"
  | .overflow => LayoutError.overflow.message

def isOverflow : Problem → Bool
  | .overflow => true
  | _ => false

end Problem

/-- What a declaration elsewhere has to do with a problem. -/
inductive Remark
  | firstDeclared (name : String)
  | functionDeclared (name : String)
  | returnTypeDeclared (ty : Ty)

def Remark.message : Remark → String
  | .firstDeclared name => Problem.code name ++ " was first declared here"
  | .functionDeclared name => "function " ++ Problem.code name ++ " is declared here"
  | .returnTypeDeclared ty => "return type " ++ Problem.code ty.display ++ " is declared here"

structure Diagnostic where
  span : Span
  problem : Problem
  related : List (Located Remark)

def problemAt (span : Span) (problem : Problem) : Diagnostic :=
  ⟨span, problem, []⟩

end RegionCompiler.Typing
