import Formula.Log
/-!
# Demonstrations

Three small programs over the library: single formulas, a batch of formulas, and one expression under
several bindings. Each is what it prints and the errors it logs.
-/

namespace Formula.Demo

/-- What a program prints, line by line, and what it logs. -/
structure Output where
  lines : List String
  log : List Record

/-- The result of a formula, with the value in the detailed layout. -/
def resultText : Except Error Float → String
  | .ok x => "Ok(" ++ .ofList (writeNumber .detailed x) ++ ")"
  | .error e => "Err(" ++ e.message ++ ")"

/-- Prices and volumes. -/
def market (price volume : Float) : Bindings := .ofList [("price", price), ("volume", volume)]

/-- Some have no value: a variable, a function and a parenthesis are missing. -/
def simpleFormulas : List String :=
  ["column1 + column2 * 2", "column1 % column2 * column3", "round((column2 / column1) * column1, 2)",
    "ceil(column2 / column1 * 10)", "floor(42.9)", "round(2.5)", "unknownVar + 1", "sqrt(4)", "(1+2"]

/-- Evaluates formulas one by one: values are printed, errors logged. -/
def simple : Output :=
  let v : Evaluator := { vars := .ofList [("column1", 100.0), ("column2", 233.0), ("column3", 35.0)] }
  let results := simpleFormulas.map fun formula => (formula, v.evaluateText formula)
  { lines := results.filterMap fun
      | (formula, .ok x) => some (formula ++ " = " ++ numberText x)
      | (_, .error _) => none
    log := results.filterMap fun
      | (_, .ok _) => none
      | (formula, .error e) => some (.error (formula ++ ": " ++ e.message)) }

/-- The turnover in eight parts, to two places. -/
def batchFormulas : List String :=
  (List.range 8).map fun i => "round(price * volume / " ++ toString ((i + 1) * 7) ++ ", 2)"

/-- Evaluates formulas in one go and prints the results. -/
def batch : Output :=
  let v : Evaluator := { vars := market 120 3000 }
  let results := batchFormulas.zip (v.evaluateAll batchFormulas)
  { lines := results.map fun (formula, r) => formula ++ ": " ++ resultText r
    log := [] }

/-- A formula worth reading once for many markets. -/
def parsedFormula : String := "floor(price * volume / 1000) % 7"

/-- Reads one formula and evaluates its expression under several bindings. -/
def parsed : Output :=
  match ({} : Evaluator).parse parsedFormula with
  | .error _ => ⟨[], []⟩
  | .ok e =>
    let line (vars : Bindings) (i : Nat) : String :=
      match ({ vars := vars } : Evaluator).evaluate e with
      | .ok x => "Result " ++ toString i ++ ": " ++ numberText x
      | .error err => "Error " ++ toString i ++ ": " ++ err.message
    let markets := [market 120 3000, market 80 6000]
    { lines := ("Parsed: " ++ e.text) :: markets.zipIdx.map fun (vars, i) => line vars i
      log := [] }

end Formula.Demo
