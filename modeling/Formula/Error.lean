import Formula.Operator
import Formula.Token
/-!
# Errors

Why a formula has no value: its text is malformed, a name in it stands for nothing, a function got
too few or too many arguments, or an operator is none of the five. Errors are causes; `message` is
the one place that words them.
-/

namespace Formula

/-- Why a text is not a formula. -/
inductive SyntaxError where
  /-- A character that no token holds, and how many bytes of UTF-8 stand before it. -/
  | strayCharacter (character : Char) (offset : Nat)
  /-- Digits and points that are no numeral. -/
  | badNumeral (text : String)
  /-- An operand has to come where this token stands. -/
  | unexpectedToken (token : Token)
  /-- An operand has to come where the text ends. -/
  | unexpectedEnd
  /-- A parenthesis is still open at this token, or at the end. -/
  | unclosed (found : Option Token)
  /-- The expression is complete, and yet this token follows. -/
  | trailing (token : Token)
  /-- The expression is deeper than the limit. -/
  | tooDeep (limit : Nat)
  deriving DecidableEq

/-- A name that stands for nothing. -/
inductive NameError where
  | unboundVariable (name : String)
  | unknownFunction (name : String)
  deriving DecidableEq

/-- Why a formula has no value. -/
inductive Error where
  | malformed (cause : SyntaxError)
  | unresolved (cause : NameError)
  /-- The function takes from `min` to `max` arguments, and `found` were given. -/
  | arity (function : String) (min max found : Nat)
  /-- A fault of the program and not of the formula. -/
  | internal (text : String)
  deriving DecidableEq

namespace SyntaxError

/-- What is wrong with the text, in words. -/
def message : SyntaxError → String
  | strayCharacter c offset => "unexpected character '" ++ c.toString ++ "' at position " ++ toString offset
  | badNumeral text => "invalid number literal '" ++ text ++ "'"
  | unexpectedToken t => "unexpected token " ++ t.quoted
  | unexpectedEnd => "unexpected end of expression"
  | unclosed (some t) => "missing closing parenthesis, found " ++ t.quoted
  | unclosed none => "missing closing parenthesis, found end of expression"
  | trailing t => "trailing tokens starting at " ++ t.quoted
  | tooDeep limit => "expression nested deeper than " ++ toString limit ++ " levels"

end SyntaxError

namespace NameError

/-- What is wrong with the name, in words. -/
def message : NameError → String
  | unboundVariable name => "undefined variable '" ++ name ++ "'"
  | unknownFunction name => "unknown function '" ++ name ++ "'"

end NameError

/-- How many arguments a function takes, in words. -/
def arityText (min max : Nat) : String :=
  if min = max then
    if min = 1 then "1 argument" else toString min ++ " arguments"
  else toString min ++ " to " ++ toString max ++ " arguments"

namespace Error

/-- The whole message, with the class of the error in front. -/
def message : Error → String
  | malformed e => "SyntaxError: " ++ e.message
  | unresolved e => "ReferenceError: " ++ e.message
  | arity function min max found =>
    function ++ "() takes " ++ arityText min max ++ " but " ++ toString found ++ " were supplied"
  | internal text => "internal error: " ++ text

/-- Whether the text of the formula is at fault. -/
def isSyntax : Error → Bool
  | malformed _ => true
  | _ => false

/-- Whether a name is at fault. -/
def isReference : Error → Bool
  | unresolved _ => true
  | _ => false

end Error

/-- The operator written with a character, which has to be one of the five. -/
def Operator.ofSymbol (c : Char) : Except Error Operator :=
  match ofSymbol? c with
  | some op => .ok op
  | none => .error (.internal ("Unknown operator: " ++ c.toString))

end Formula
