import Handheld.Source.Token
import Handheld.Text.Lines
import Handheld.Text.Numeral

/-!
Errors in a source text: their kinds, their wording, and the report that shows the line with a caret.
-/
namespace Handheld.Source

inductive ErrorCode where
  | syntaxError | undefinedName | undefinedFunction | redeclared | argumentCount | missingSize
  | notAddressable | typeMismatch | overflow | outOfMemory | noMain | misplaced | internalError
  deriving DecidableEq, Repr

namespace ErrorCode

def all : List ErrorCode :=
  [syntaxError, undefinedName, undefinedFunction, redeclared, argumentCount, missingSize,
    notAddressable, typeMismatch, overflow, outOfMemory, noMain, misplaced, internalError]

def number : ErrorCode → Nat
  | syntaxError => 1
  | undefinedName => 2
  | undefinedFunction => 3
  | redeclared => 4
  | argumentCount => 5
  | missingSize => 6
  | notAddressable => 7
  | typeMismatch => 8
  | overflow => 9
  | outOfMemory => 10
  | noMain => 11
  | misplaced => 12
  | internalError => 51

def ofNumber? (n : Nat) : Option ErrorCode :=
  all.find? (·.number == n)

def text : ErrorCode → String
  | syntaxError => "syntax error"
  | undefinedName => "undefined name"
  | undefinedFunction => "undefined function"
  | redeclared => "redeclared"
  | argumentCount => "wrong argument count"
  | missingSize => "missing array size"
  | notAddressable => "not addressable"
  | typeMismatch => "type mismatch"
  | overflow => "overflow"
  | outOfMemory => "out of memory"
  | noMain => "no main function"
  | misplaced => "misplaced statement"
  | internalError => "internal error"

end ErrorCode

structure Error where
  code : ErrorCode
  span : Span := {}
  detail : String := ""
  deriving DecidableEq, Repr

namespace Error

def message (e : Error) : String :=
  e.code.text ++
    (if e.span.line != 0 then s!" in line {e.span.line}" else "") ++
    (if (e.span.start, e.span.stop) != (0, 0) then s!" ({e.span.start}..{e.span.stop})" else "") ++
    (if e.detail.isEmpty then "" else "; " ++ e.detail)

def headline (e : Error) : String :=
  if e.detail.isEmpty then e.code.text else e.code.text ++ "; " ++ e.detail

def spaces (n : Nat) : String :=
  String.ofList (List.replicate n ' ')

def excerpt (e : Error) (line : String) : String :=
  let number := String.ofList (Text.padLeft 4 ' ' (toString e.span.line).toList)
  let shown := String.ofList (line.toList.reverse.dropWhile (· == '\r')).reverse
  let carets := String.ofList (List.replicate (max (e.span.stop - e.span.start) 1) '^')
  "     |\n" ++ number ++ " | " ++ shown ++ "\n     | " ++ spaces e.span.start ++ carets ++ "\n"

def diagnostic (e : Error) (source : String) : String :=
  let headline := "error: " ++ e.headline ++ "\n"
  if e.span.line == 0 then headline
  else
    let position := s!" --> {e.span.line}:{e.span.start + 1}\n"
    match (Text.lines source)[e.span.line - 1]? with
    | some line => headline ++ position ++ e.excerpt line
    | none => headline ++ position

end Error

inductive Problem where
  | expected (wanted : String) (found : Token)
  | unterminatedComment
  | unterminatedLiteral
  | badHexEscape
  | unknownEscape
  | longCharacter
  | unexpectedCharacter (text : String)
  | malformedNumber (text : String)
  | numberTooLarge
  | unnamedParameter
  | stringMacro (name : String)
  | notConstant (name : String)
  | badDimension (n : Int32)
  | openDimension (name : String)
  | undefinedName (name : String)
  | undefinedFunction (name : String)
  | redeclared (name : String)
  | duplicateCase (value : Int32)
  | duplicateDefault
  | arguments (name : String) (wanted got : Nat)
  | parameters (name : String) (declared : Nat)
  | notAddressable
  | voidParameter
  | voidVariable
  | voidValue
  | stringInitializer
  | stringTooLong
  | tooManyInitializers
  | globalsTooLarge
  | frameTooLarge
  | noMain
  | mainParameters
  | nestedFunction
  | outsideSwitch (w : Word)
  | outsideLoop (w : Word)
  | internal
  deriving DecidableEq, Repr

namespace Problem

def code : Problem → ErrorCode
  | expected _ _ | unterminatedComment | unterminatedLiteral | badHexEscape | unknownEscape
  | longCharacter | unexpectedCharacter _ | malformedNumber _ | unnamedParameter => .syntaxError
  | numberTooLarge | stringTooLong => .overflow
  | stringMacro _ | voidParameter | voidVariable | voidValue | stringInitializer
  | tooManyInitializers => .typeMismatch
  | notConstant _ | undefinedName _ => .undefinedName
  | undefinedFunction _ => .undefinedFunction
  | badDimension _ | openDimension _ => .missingSize
  | redeclared _ | duplicateCase _ | duplicateDefault => .redeclared
  | arguments _ _ _ | parameters _ _ => .argumentCount
  | notAddressable => .notAddressable
  | globalsTooLarge | frameTooLarge => .outOfMemory
  | noMain | mainParameters => .noMain
  | nestedFunction | outsideSwitch _ | outsideLoop _ => .misplaced
  | internal => .internalError

def ticked (s : String) : String :=
  "`" ++ s ++ "`"

def detail : Problem → String
  | expected wanted found => "expected " ++ wanted ++ ", found " ++ ticked found.text
  | unterminatedComment => "unterminated comment"
  | unterminatedLiteral => "unterminated literal"
  | badHexEscape => "bad hex escape"
  | unknownEscape => "unknown escape"
  | longCharacter => "character literal must hold one byte"
  | unexpectedCharacter text => "unexpected character " ++ ticked text
  | malformedNumber text => "malformed number " ++ ticked text
  | unnamedParameter => "parameter needs a name"
  | stringMacro name => ticked name ++ " is a string"
  | notConstant name => ticked name ++ " is not a constant"
  | badDimension n => s!"bad dimension {n.toInt}"
  | openDimension name | undefinedName name | undefinedFunction name | redeclared name => ticked name
  | duplicateCase value => s!"case {value.toInt}"
  | duplicateDefault => "default"
  | arguments name wanted got => ticked name ++ s!" takes {wanted} arguments, got {got}"
  | parameters name declared => ticked name ++ s!" declared with {declared} parameters"
  | voidParameter => "void parameter"
  | voidVariable => "void variable"
  | voidValue => "void value"
  | stringInitializer => "string initializer"
  | stringTooLong => "string longer than array"
  | tooManyInitializers => "too many initializers"
  | globalsTooLarge => "globals exceed data space"
  | frameTooLarge => "frame too large"
  | mainParameters => ticked "main" ++ " takes no parameters"
  | nestedFunction => "functions are declared at the top level"
  | outsideSwitch w => ticked w.text ++ " outside " ++ ticked "switch"
  | outsideLoop w => ticked w.text ++ " outside a loop"
  | numberTooLarge | notAddressable | noMain | internal => ""

def inSpan (p : Problem) (span : Span) : Error where
  code := p.code
  span := span
  detail := p.detail

def anywhere (p : Problem) : Error :=
  p.inSpan {}

end Problem

namespace Lexeme

def unexpected (l : Lexeme) (wanted : String) : Error :=
  (Problem.expected wanted l.token).inSpan l.span

end Lexeme
end Handheld.Source
