import Formula.Error
import Formula.Expr
/-!
# Reading by recursive descent

Another way to read an expression, with one function for each line of the grammar and two loops:

    expression     := addition
    addition       := multiplication (('+' | '-') multiplication)*
    multiplication := operand (('*' | '/' | '%') operand)*
    operand        := number | name | name '(' [expression (',' expression)*] ')' | '(' expression ')'

Each is handed the depth and the tokens that are left, and hands both on with what it has read (`Part`). An operator is
told by the symbols of its line and only then converted, which would be a fault of the program if it failed.
-/

namespace Formula

/-- What has been read and where that leads: to fewer than `n` tokens. -/
structure Part (α : Type) (n : Nat) where
  value : α
  depth : Nat
  rest : List Token
  lt : rest.length < n

namespace Part

variable {α β : Type} {m n : Nat}

def map (f : α → β) (p : Part α n) : Part β n := ⟨f p.value, p.depth, p.rest, p.lt⟩

/-- The part, of more tokens than it was known to be one of. -/
def widen (h : n ≤ m) (p : Part α n) : Part α m := { p with lt := Nat.lt_of_lt_of_le p.lt h }

/-- The part with the closing parenthesis that has to follow. -/
def closed (p : Part α n) : Except Error (Part α n) :=
  match h : p.rest with
  | .closeParen :: rest => .ok { p with rest, lt := Nat.lt_of_succ_lt (by simpa [h] using p.lt) }
  | t :: _ => .error (.malformed (.unclosed (some t)))
  | [] => .error (.malformed (.unclosed none))

end Part

namespace Descent

/-- The symbols of an addition. -/
def sumSymbols : List Char := ['+', '-']

/-- The symbols of a multiplication. -/
def productSymbols : List Char := ['*', '/', '%']

/-- The operator of a token that is one of the symbols. -/
def operator? (symbols : List Char) : Token → Except Error (Option Operator)
  | .operator c => if c ∈ symbols then (Operator.ofSymbol c).map some else .ok none
  | _ => .ok none

/-- One level deeper. -/
def deepen (limit depth : Nat) : Except Error Nat :=
  if depth + 1 ≤ limit then .ok (depth + 1) else .error (.malformed (.tooDeep limit))

mutual

def expression (limit depth : Nat) (ts : List Token) : Except Error (Part Expr ts.length) := do
  let depth ← deepen limit depth
  let p ← addition limit depth ts
  return { p with depth := p.depth - 1 }
termination_by 8 * ts.length + 3

def addition (limit depth : Nat) (ts : List Token) : Except Error (Part Expr ts.length) := do
  let p ← multiplication limit depth ts
  have hp := p.lt
  let q ← sums limit p.value p.depth p.rest
  return { q.widen hp with depth }
termination_by 8 * ts.length + 2

/-- The rest of an addition that starts with `e`. Chains fold to the left, and each operator is a level deeper. -/
def sums (limit : Nat) (e : Expr) (depth : Nat) : (ts : List Token) → Except Error (Part Expr (ts.length + 1))
  | [] => .ok ⟨e, depth, [], Nat.lt_succ_self _⟩
  | t :: ts => do
    match ← operator? sumSymbols t with
    | none => return ⟨e, depth, t :: ts, Nat.lt_succ_self _⟩
    | some op =>
      let depth ← deepen limit depth
      let p ← multiplication limit depth ts
      have hp := p.lt
      let q ← sums limit (.binary e op p.value) p.depth p.rest
      return q.widen (by simp; omega)
termination_by ts => 8 * ts.length

def multiplication (limit depth : Nat) (ts : List Token) : Except Error (Part Expr ts.length) := do
  let p ← operand limit depth ts
  have hp := p.lt
  let q ← products limit p.value p.depth p.rest
  return { q.widen hp with depth }
termination_by 8 * ts.length + 1

/-- The rest of a multiplication that starts with `e`. -/
def products (limit : Nat) (e : Expr) (depth : Nat) : (ts : List Token) → Except Error (Part Expr (ts.length + 1))
  | [] => .ok ⟨e, depth, [], Nat.lt_succ_self _⟩
  | t :: ts => do
    match ← operator? productSymbols t with
    | none => return ⟨e, depth, t :: ts, Nat.lt_succ_self _⟩
    | some op =>
      let depth ← deepen limit depth
      let p ← operand limit depth ts
      have hp := p.lt
      let q ← products limit (.binary e op p.value) p.depth p.rest
      return q.widen (by simp; omega)
termination_by ts => 8 * ts.length

def operand (limit depth : Nat) : (ts : List Token) → Except Error (Part Expr ts.length)
  | .number x :: ts => .ok ⟨.literal x, depth, ts, Nat.lt_succ_self _⟩
  | .identifier f :: .openParen :: ts => do
    let p ← call limit f depth ts
    return p.widen (by simp; omega)
  | .identifier name :: ts => .ok ⟨.var name, depth, ts, Nat.lt_succ_self _⟩
  | .openParen :: ts => do
    let p ← expression limit depth ts
    let p ← p.closed
    return p.widen (Nat.le_succ _)
  | t :: _ => .error (.malformed (.unexpectedToken t))
  | [] => .error (.malformed .unexpectedEnd)
termination_by ts => 8 * ts.length

/-- A call, behind its opening parenthesis. -/
def call (limit : Nat) (function : String) (depth : Nat) : (ts : List Token) → Except Error (Part Expr ts.length)
  | .closeParen :: ts => .ok ⟨.call function [], depth, ts, Nat.lt_succ_self _⟩
  | ts => do
    let p ← arguments limit [] depth ts
    return p.map (.call function)
termination_by ts => 8 * ts.length + 5

/-- Arguments behind the arguments `es`, and the closing parenthesis. -/
def arguments (limit : Nat) (es : List Expr) (depth : Nat) (ts : List Token) :
    Except Error (Part (List Expr) ts.length) := do
  match ← expression limit depth ts with
  | ⟨e, depth, .comma :: rest, hp⟩ =>
    have hrest := Nat.lt_of_succ_lt hp
    let q ← arguments limit (es ++ [e]) depth rest
    return q.widen (Nat.le_of_lt hrest)
  | p =>
    let p ← p.closed
    return p.map fun e => es ++ [e]
termination_by 8 * ts.length + 4

end

/-- Reads all tokens. -/
def read (limit : Nat) (ts : List Token) : Except Error Expr := do
  let p ← expression limit 0 ts
  match p.rest with
  | [] => return p.value
  | t :: _ => .error (.malformed (.trailing t))

end Descent

end Formula
