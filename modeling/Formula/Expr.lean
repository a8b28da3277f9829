import Formula.Operator
import Formula.Decimal.Layout
/-!
# Expressions

The tree of a formula, and its text: every operation stands in parentheses of its own, so the text
tells the tree without any rule of precedence.
-/

namespace Formula

/-- An expression: a number, a variable, an operation, or a call with its arguments. -/
inductive Expr where
  | literal (value : Float)
  | var (name : String)
  | binary (left : Expr) (op : Operator) (right : Expr)
  | call (function : String) (arguments : List Expr)

namespace Expr

mutual

/-- The text of an expression, written in front of `rest`. -/
def write : Expr → List Char → List Char
  | literal x, rest => writeNumber .plain x ++ rest
  | var name, rest => name.toList ++ rest
  | binary l op r, rest => '(' :: l.write (' ' :: op.symbol :: ' ' :: r.write (')' :: rest))
  | call function es, rest => function.toList ++ '(' :: writeList es (')' :: rest)

/-- The texts of arguments with a comma between them, written in front of `rest`. -/
def writeList : List Expr → List Char → List Char
  | [], rest => rest
  | [e], rest => e.write rest
  | e :: e' :: es, rest => e.write (',' :: ' ' :: writeList (e' :: es) rest)

end

/-- The text of an expression. -/
def text (e : Expr) : String := .ofList (e.write [])

mutual

/-- Whether two expressions have the same shape and names, and equal numbers at the same places.
Numbers are equal as numbers: zero equals its negative, and what is no number does not equal itself. -/
def same : Expr → Expr → Bool
  | literal x, literal y => x == y
  | var a, var b => a == b
  | binary l op r, binary l' op' r' => l.same l' && op == op' && r.same r'
  | call f es, call f' es' => f == f' && sameList es es'
  | _, _ => false

/-- `same`, argument by argument. -/
def sameList : List Expr → List Expr → Bool
  | [], [] => true
  | e :: es, e' :: es' => e.same e' && sameList es es'
  | _, _ => false

end

end Expr

end Formula
