import Formula.Error
import Formula.Expr
/-!
# Reading expressions

A draft is an expression of which only the first tokens have been read. It takes one token after the
other (`Draft.push`) and holds what is still open: the level it stands on with the operations there
that wait for their right operand, and the levels around it, each behind a parenthesis. Sums wait for
a whole term, products for a single operand, so products bind tighter and both fold to the left.

Depth is bounded by a limit. A level is one deeper than the operand it stands for. On a level every sum
of its expression makes the next operand one deeper, and so does every product of the current term.
-/

namespace Formula

/-- A call whose closing parenthesis has been read. -/
structure Call where
  function : String
  arity : Nat
  deriving DecidableEq, Repr

/-- The expression that is being read on one level. -/
structure Chain where
  /-- The depth at which the expression starts. -/
  base : Nat
  /-- How many sums it holds so far. -/
  sums : Nat := 0
  /-- How many products its last term holds so far. -/
  products : Nat := 0
  /-- The terms read so far and the operator that joins the next one to them. -/
  sum : Option (Expr × Operator) := none
  /-- The operands of the last term read so far and the operator that joins the next one to them. -/
  product : Option (Expr × Operator) := none

namespace Chain

/-- The depth at which the next operand stands. -/
def depth (c : Chain) : Nat := c.base + c.sums + c.products

/-- Joins an operand to what waits for it. -/
def join : Option (Expr × Operator) → Expr → Expr
  | none, e => e
  | some (l, op), e => .binary l op e

/-- The last term, once `e` is its last operand. -/
def term (c : Chain) (e : Expr) : Expr := join c.product e

/-- The whole expression, once `e` is its last operand. -/
def expr (c : Chain) (e : Expr) : Expr := join c.sum (c.term e)

/-- Puts an operator behind the operand `e`. -/
def extend (c : Chain) (e : Expr) (op : Operator) : Chain :=
  if op.isSum then { base := c.base, sums := c.sums + 1, sum := some (c.expr e, op) }
  else { c with products := c.products + 1, product := some (c.term e, op) }

end Chain

/-- What a level stands for on the level around it. -/
inductive Opener where
  /-- An operand in parentheses. -/
  | group
  /-- An argument of a call, behind the arguments read so far, the last of them first. -/
  | call (function : String) (arguments : List Expr)

/-- A level around the current one: what opened the level inside it, and its expression up to there. -/
structure Frame where
  opener : Opener
  chain : Chain

/-- What may come next. -/
inductive Phase where
  /-- An operand. -/
  | operand
  /-- The first argument of a call, or its closing parenthesis. -/
  | argument (function : String)
  /-- An opening parenthesis if the name is that of a call, or else what may follow a variable. -/
  | name (name : String)
  /-- What may follow this operand. -/
  | complete (operand : Expr)

/-- An expression of which the first tokens have been read. -/
structure Draft where
  chain : Chain
  frames : List Frame
  phase : Phase
  /-- The calls closed so far, the last of them first. -/
  calls : List Call

namespace Draft

/-- Refuses a draft whose next operand stands too deep. -/
def checked (limit : Nat) (d : Draft) : Except SyntaxError Draft :=
  if d.chain.depth ≤ limit then .ok d else .error (.tooDeep limit)

/-- Nothing has been read. -/
def start (limit : Nat) : Except SyntaxError Draft :=
  checked limit ⟨{ base := 1 }, [], .operand, []⟩

/-- Opens a level one deeper than the operand it stands for. -/
def descend (limit : Nat) (opener : Opener) (d : Draft) : Except SyntaxError Draft :=
  checked limit ⟨{ base := d.chain.depth + 1 }, ⟨opener, d.chain⟩ :: d.frames, .operand, d.calls⟩

/-- Reads a token where an operand has to come. -/
def pushOperand (limit : Nat) (d : Draft) (t : Token) : Except SyntaxError Draft :=
  match t with
  | .number x => .ok { d with phase := .complete (.literal x) }
  | .identifier name => .ok { d with phase := .name name }
  | .openParen => d.descend limit .group
  | _ => .error (.unexpectedToken t)

/-- Why the expression cannot go on with a token. -/
def obstacle (d : Draft) (found : Token) : SyntaxError :=
  if d.frames.isEmpty then .trailing found else .unclosed (some found)

/-- Closes a call, which is then an operand. -/
def close (d : Draft) (function : String) (arguments : List Expr) : Draft :=
  { d with
    phase := .complete (.call function arguments)
    calls := ⟨function, arguments.length⟩ :: d.calls }

/-- Reads a token behind the operand `e`. -/
def pushComplete (limit : Nat) (d : Draft) (e : Expr) (t : Token) : Except SyntaxError Draft :=
  match t, d.frames with
  | .operator c, _ =>
    match Operator.ofSymbol? c with
    | some op => checked limit { d with chain := d.chain.extend e op, phase := .operand }
    | none => .error (d.obstacle t)
  | .comma, ⟨.call function es, chain⟩ :: frames =>
    .ok { d with
      chain := { base := d.chain.base }
      frames := ⟨.call function (d.chain.expr e :: es), chain⟩ :: frames
      phase := .operand }
  | .closeParen, ⟨.group, chain⟩ :: frames =>
    .ok { d with chain, frames, phase := .complete (d.chain.expr e) }
  | .closeParen, ⟨.call function es, chain⟩ :: frames =>
    .ok ({ d with chain, frames }.close function (d.chain.expr e :: es).reverse)
  | _, _ => .error (d.obstacle t)

/-- Reads one token. -/
def push (limit : Nat) (d : Draft) (t : Token) : Except SyntaxError Draft :=
  match d.phase, t with
  | .operand, _ => d.pushOperand limit t
  | .argument function, .closeParen => .ok (d.close function [])
  | .argument function, _ =>
    match d.descend limit (.call function []) with
    | .ok d => d.pushOperand limit t
    | .error e => .error e
  | .name name, .openParen => .ok { d with phase := .argument name }
  | .name name, _ => d.pushComplete limit (.var name) t
  | .complete e, _ => d.pushComplete limit e t

/-- The expression that ends with the operand `e`, unless a level is still open. -/
def whole (d : Draft) (e : Expr) : Except SyntaxError Expr :=
  if d.frames.isEmpty then .ok (d.chain.expr e) else .error (.unclosed none)

/-- The expression, when no token is left. -/
def finish (limit : Nat) (d : Draft) : Except SyntaxError Expr :=
  match d.phase with
  | .operand => .error .unexpectedEnd
  | .argument function =>
    match d.descend limit (.call function []) with
    | .ok _ => .error .unexpectedEnd
    | .error e => .error e
  | .name name => d.whole (.var name)
  | .complete e => d.whole e

end Draft

end Formula
