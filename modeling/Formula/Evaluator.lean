import Formula.Expr.Eval
import Formula.Expr.Reading
import Formula.Token.Scan
/-!
# Evaluators

An evaluator holds the values of variables and a limit on depth, and takes formulas as text: it reads
the tokens, then the expression, then finds its value.
-/

namespace Formula

namespace Expr

/-- The expression of a text. -/
def ofText (limit : Nat) (text : String) : Except SyntaxError Expr := do
  let tokens ← tokenize text
  ofTokens limit tokens

end Expr

/-- Evaluates formulas under fixed values of variables. -/
structure Evaluator where
  vars : Bindings := ∅
  limit : Nat := Expr.defaultLimit

namespace Evaluator

/-- The expression of a formula. -/
def parse (v : Evaluator) (formula : String) : Except Error Expr :=
  (Expr.ofText v.limit formula).mapError .malformed

/-- The value of an expression. -/
def evaluate (v : Evaluator) (e : Expr) : Except Error Float := e.eval v.vars

/-- The value of a formula. -/
def evaluateText (v : Evaluator) (formula : String) : Except Error Float := do
  let e ← v.parse formula
  v.evaluate e

/-- The values of several formulas, in their order. -/
def evaluateAll (v : Evaluator) (formulas : List String) : List (Except Error Float) :=
  formulas.map v.evaluateText

end Evaluator

end Formula
