import Formula.Builtin
import Formula.Expr
import Std.Data.TreeMap
/-!
# The value of an expression

An expression has a value under values of its variables, or an error that says why not.
-/

namespace Formula

/-- The values of variables, in the order of their names. -/
abbrev Bindings := Std.TreeMap String Float

namespace Expr

mutual

/-- The value of an expression. Operands and arguments are evaluated from left to right, and the first
error is the one that counts. -/
def eval (vars : Bindings) : Expr → Except Error Float
  | literal x => .ok x
  | var name =>
    match vars[name]? with
    | some x => .ok x
    | none => .error (.unresolved (.unboundVariable name))
  | binary l op r => do
    let x ← l.eval vars
    let y ← r.eval vars
    return op.apply x y
  | call function es => do
    let xs ← evalList vars es
    Builtin.callNamed function xs

/-- The values of arguments. -/
def evalList (vars : Bindings) : List Expr → Except Error (List Float)
  | [] => .ok []
  | e :: es => do
    let x ← e.eval vars
    let xs ← evalList vars es
    return x :: xs

end

end Expr

end Formula
