import Formula.Evaluator
/-!
# The log of an evaluation

What an evaluator notes while it works on a formula, in order: the formula, every token, every call as
its closing parenthesis is read, the expression and the value. Where the formula fails the log ends.
-/

namespace Formula

/-- How much a line of the log matters: errors most, every token least. -/
inductive Level where
  | error
  | debug
  | trace
  deriving DecidableEq, Repr

/-- A line of the log. -/
structure Record where
  level : Level
  message : String
  deriving DecidableEq, Repr

namespace Record

def error (message : String) : Record := ⟨.error, message⟩

def debug (message : String) : Record := ⟨.debug, message⟩

def trace (message : String) : Record := ⟨.trace, message⟩

end Record

/-- The kind of a token and what it holds. -/
def Token.detailed : Token → String
  | number x => "Number(" ++ .ofList (writeNumber .detailed x) ++ ")"
  | identifier name => "Identifier(\"" ++ name ++ "\")"
  | openParen => "LParen"
  | closeParen => "RParen"
  | comma => "Comma"
  | operator c => "Operator('" ++ c.toString ++ "')"

/-- The line for a token that has been read. -/
def Token.record (t : Token) : Record := .trace ("Token: " ++ t.detailed)

/-- The line for a call that has been closed. -/
def Call.record (c : Call) : Record :=
  .debug ("Function call: " ++ c.function ++ " with " ++ toString c.arity ++ " arguments")

/-- The line for the value of a formula. -/
def Record.result (formula : String) (x : Float) : Record :=
  .debug ("Result of " ++ formula ++ ": " ++ numberText x)

namespace Evaluator

/-- The log of `evaluate`, from the expression of a formula on. -/
def logExpr (v : Evaluator) (formula : String) (e : Expr) : List Record :=
  .debug ("Parse result: " ++ e.text) ::
    match v.evaluate e with
    | .ok x => [.result formula x]
    | .error _ => []

/-- The log from the tokens of a formula on. -/
def logTokens (v : Evaluator) (formula : String) (tokens : List Token) : List Record :=
  let reading := Expr.read v.limit tokens
  .debug ("Produced " ++ toString tokens.length ++ " tokens") :: reading.calls.map Call.record ++
    match reading.result with
    | .ok e => v.logExpr formula e
    | .error _ => []

/-- The log of `evaluateText`. -/
def log (v : Evaluator) (formula : String) : List Record :=
  let scan := Scan.ofText formula.toList
  .debug ("Evaluating expression: " ++ formula) :: .debug ("Tokenizing expression: " ++ formula) ::
    scan.tokens.map Token.record ++
    match Scan.fault? formula.toList scan.rest with
    | none => v.logTokens formula scan.tokens
    | some _ => []

end Evaluator

end Formula
