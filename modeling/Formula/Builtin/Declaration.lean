import Formula.Builtin
/-!
# Declarations of builtins

A builtin is declared as a function of numbers and of numbers that may be left out. What is called is generated
from that (`Declaration.expand`): it counts the arguments, binds each parameter to the argument at its place, and runs
the body with these bindings (`Generated.run`). Declarations of any other kind are refused.
-/

namespace Formula

/-- A type as it is written: a name with a path in front of it and with arguments behind it. -/
inductive TypeExpr where
  | named (path : List String) (name : String) (arguments : List TypeExpr)
  /-- A reference, a tuple, a function or the like. -/
  | other

namespace TypeExpr

/-- The type of numbers. -/
def isFloat : TypeExpr → Bool
  | named [] "f64" [] => true
  | _ => false

/-- The type of what is there or not, by whatever path it is named. -/
def ofOption? : TypeExpr → Option TypeExpr
  | named _ "Option" (t :: _) => some t
  | _ => none

/-- The type of numbers that may be left out. -/
def isOptionalFloat (t : TypeExpr) : Bool := t.ofOption?.any isFloat

end TypeExpr

/-- A parameter of a declared function. -/
inductive Parameter where
  /-- The object that a method is called on. -/
  | receiver
  /-- A pattern that takes the argument apart. -/
  | pattern (type : TypeExpr)
  | plain (name : String) (type : TypeExpr)

/-- What a parameter stands for in the body. -/
inductive Binding where
  | required (value : Float)
  | optional (value : Option Float)

/-- A function to be called from formulas. -/
structure Declaration where
  name : String
  parameters : List Parameter
  /-- The type of the result, if there is one. -/
  result : Option TypeExpr
  body : List (String × Binding) → Float

/-- A line of generated code that binds a parameter. -/
inductive Extraction where
  /-- The argument at this index, which has to be there. -/
  | index (parameter : String) (i : Nat)
  /-- The argument at this index, if it is there. -/
  | get (parameter : String) (i : Nat)

/-- The code generated from a declaration. -/
structure Generated where
  name : String
  min : Nat
  max : Nat
  extractions : List Extraction
  body : List (String × Binding) → Float

/-- What has been generated from the parameters in front of one. -/
structure Expansion where
  /-- The place of the next parameter. -/
  index : Nat := 0
  required : Nat := 0
  optional : Nat := 0
  extractions : List Extraction := []

namespace Expansion

/-- Adds a parameter. -/
def add (x : Expansion) : Parameter → Except String Expansion
  | .receiver => .error "builtins cannot take `self`"
  | .pattern _ => .error "expected a plain argument name"
  | .plain name type =>
    if type.isFloat then
      if 0 < x.optional then .error "required arguments must come before optional ones"
      else .ok { x with
        index := x.index + 1
        required := x.required + 1
        extractions := x.extractions ++ [.index name x.index] }
    else if type.isOptionalFloat then
      .ok { x with
        index := x.index + 1
        optional := x.optional + 1
        extractions := x.extractions ++ [.get name x.index] }
    else .error "builtin arguments must be f64 or Option<f64>"

end Expansion

/-- Generates the code of a declared function. -/
def Declaration.expand (d : Declaration) : Except String Generated :=
  if d.result.any TypeExpr.isFloat then do
    let x ← d.parameters.foldlM Expansion.add {}
    return ⟨d.name, x.required, x.required + x.optional, x.extractions, d.body⟩
  else .error "builtins must return f64"

/-- Binds a parameter; an index that is out of range gives nothing. -/
def Extraction.eval (args : List Float) : Extraction → Option (String × Binding)
  | index parameter i => args[i]?.map fun x => (parameter, .required x)
  | get parameter i => some (parameter, .optional args[i]?)

/-- Runs generated code. There is no result at all if an index is out of range. -/
def Generated.run (g : Generated) (args : List Float) : Option (Except Error Float) :=
  if args.length < g.min ∨ g.max < args.length then some (.error (.arity g.name g.min g.max args.length))
  else (g.extractions.mapM (Extraction.eval args)).map fun bindings => .ok (g.body bindings)

/-! ## The declarations of the standard builtins -/

namespace TypeExpr

/-- The type of numbers, as it is mostly written. -/
def number : TypeExpr := named [] "f64" []

/-- The type of numbers that may be left out, as it is mostly written. -/
def optionalNumber : TypeExpr := named [] "Option" [number]

end TypeExpr

namespace Declaration

-- A body is only run on bindings of its own parameters; its value on others is never looked at.

def ceil : Declaration where
  name := "ceil"
  parameters := [.plain "x" .number]
  result := some .number
  body
    | [(_, .required x)] => Rounding.ceil x
    | _ => 0

def floor : Declaration where
  name := "floor"
  parameters := [.plain "x" .number]
  result := some .number
  body
    | [(_, .required x)] => Rounding.floor x
    | _ => 0

def round : Declaration where
  name := "round"
  parameters := [.plain "x" .number, .plain "precision" .optionalNumber]
  result := some .number
  body
    | [(_, .required x), (_, .optional precision)] => Rounding.round x precision
    | _ => 0

/-- The functions that are declared for every formula, in the order of their names. -/
def standard : List Declaration := [ceil, floor, round]

end Declaration

end Formula
