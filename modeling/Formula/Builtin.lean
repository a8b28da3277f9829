import Formula.Error
/-!
# Builtin functions

A builtin is declared by its name, how many arguments it needs, how many more it takes, and a body
that gets the needed ones and, where they are given, the others. `Builtin.call` counts the arguments
and passes them on. `standard` holds the builtins every formula may call, which round numbers
(`Rounding`).
-/

namespace Formula

namespace Rounding

/-- The least whole number that is not below `x`. -/
def ceil (x : Float) : Float := Binary64.ceil x

/-- The greatest whole number that is not above `x`. -/
def floor (x : Float) : Float := Binary64.floor x

/-- `x` to as many decimal places as `precision` says, to whole numbers without it; halves go away from zero. -/
def round (x : Float) (precision : Option Float) : Float :=
  let factor := Float.pow 10 (precision.getD 0)
  Binary64.round (x * factor) / factor

end Rounding

/-- A function that formulas may call. -/
structure Builtin where
  name : String
  required : Nat
  optional : Nat
  body : (Fin required → Float) → (Fin optional → Option Float) → Float

namespace Builtin

/-- Calls a builtin. Required arguments come first, then optional ones; those not given are `none`. -/
def call (b : Builtin) (args : List Float) : Except Error Float :=
  if h : b.required ≤ args.length ∧ args.length ≤ b.required + b.optional then
    .ok (b.body (fun i => args.get ⟨i, Nat.lt_of_lt_of_le i.isLt h.1⟩) (fun i => args[b.required + i]?))
  else .error (.arity b.name b.required (b.required + b.optional) args.length)

/-- `Rounding.ceil` of the argument. -/
def ceil : Builtin where
  name := "ceil"
  required := 1
  optional := 0
  body x _ := Rounding.ceil (x 0)

/-- `Rounding.floor` of the argument. -/
def floor : Builtin where
  name := "floor"
  required := 1
  optional := 0
  body x _ := Rounding.floor (x 0)

/-- `Rounding.round` of the first argument, to as many places as the second says. -/
def round : Builtin where
  name := "round"
  required := 1
  optional := 1
  body x precision := Rounding.round (x 0) (precision 0)

/-- The builtins of every formula, in the order of their names. -/
def standard : List Builtin := [ceil, floor, round]

/-- The names of the builtins, in order. -/
def names : List String := standard.map name

/-- The builtin of a name. -/
def find? (name : String) : Option Builtin := standard.find? (·.name == name)

/-- Calls the builtin of a name. -/
def callNamed (name : String) (args : List Float) : Except Error Float :=
  match find? name with
  | some b => b.call args
  | none => .error (.unresolved (.unknownFunction name))

end Builtin

end Formula
