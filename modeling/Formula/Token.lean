import Formula.Decimal.Layout
/-!
# Tokens

What a formula is made of. An operator token may hold any character: which of them are operators
is for the reader of expressions to say.
-/

namespace Formula

/-- A smallest part of a formula that means something. -/
inductive Token where
  | number (value : Float)
  | identifier (name : String)
  | openParen
  | closeParen
  | comma
  | operator (symbol : Char)
  deriving DecidableEq

namespace Token

/-- The text of a token, as it stands in a formula. -/
def write : Token → List Char
  | number x => writeNumber .plain x
  | identifier name => name.toList
  | openParen => ['(']
  | closeParen => [')']
  | comma => [',']
  | operator c => [c]

/-- The text of a token between quotes, as messages show it. -/
def quoted (t : Token) : String := "'" ++ .ofList t.write ++ "'"

end Token

end Formula
