import Formula.Expr.Descent
/-!
# Reading in place

The recursive descent as a machine runs it. The tokens stay where they are, and all functions share two counters: the
cursor, in front of which every token has been consumed, and the depth. Counters are words of the machine, so a walk
stops (`Stop`) where one would pass the greatest word or fall below zero.

Nothing in these functions says that they end. They are handed a number of calls and rounds of loops that may be open at
a time, and a walk that goes deeper has no result, `none`. A trail keeps all values that the counters have had, so it
tells every moment of a walk, also of one that fails.
-/

namespace Formula

/-- How many tokens have been consumed, and how deep the walk is. -/
structure Counters where
  cursor : Nat := 0
  depth : Nat := 0
  deriving DecidableEq, Repr

/-- The counters of a walk, and the values they have had before, the last ones first. -/
structure Trail where
  now : Counters := {}
  past : List Counters := []

namespace Trail

def move (c : Counters) (s : Trail) : Trail := ⟨c, s.now :: s.past⟩

/-- The values of the counters at all moments. -/
def moments (s : Trail) : List Counters := s.now :: s.past

end Trail

/-- Why a walk stops without a result. -/
inductive Stop where
  | failed (err : Error)
  /-- A counter would pass the greatest word. -/
  | overflow
  /-- A counter would fall below zero. -/
  | underflow
  deriving DecidableEq

/-- What is done on a trail. -/
abbrev Steps := ExceptT Stop (StateT Trail Option)

namespace Steps

def counters : Steps Counters := do return (← get).now

def assign (c : Counters) : Steps Unit := modify (·.move c)

def fail {α : Type} (e : SyntaxError) : Steps α := throw (.failed (.malformed e))

/-- More is open than may be. -/
def unfinished {α : Type} : Steps α := ExceptT.mk fun _ => none

/-- Back to a depth that has been kept. -/
def restore (depth : Nat) : Steps Unit := do assign { ← counters with depth }

/-- One level less deep. -/
def ascend : Steps Unit := do
  let c ← counters
  if c.depth = 0 then throw .underflow
  assign { c with depth := c.depth - 1 }

end Steps

open Steps

/-- Tokens to be read in place, under a limit on the depth, and the greatest word of the machine. -/
structure Walk where
  tokens : List Token
  limit : Nat
  word : Nat

namespace Walk

variable (w : Walk)

/-- The number after `n`, if it is a word. -/
def succ (n : Nat) : Steps Nat := if n < w.word then return n + 1 else throw .overflow

def peek : Steps (Option Token) := do return w.tokens[(← counters).cursor]?

def consume : Steps Unit := do
  let c ← counters
  assign { c with cursor := ← w.succ c.cursor }

def advance : Steps (Option Token) := do
  match ← w.peek with
  | some t =>
    w.consume
    return some t
  | none => return none

def expectClosing : Steps Unit := do
  match ← w.advance with
  | some .closeParen => return
  | found => fail (.unclosed found)

/-- The operator of the next token, which is consumed if it is one of the symbols. -/
def operator? (symbols : List Char) : Steps (Option Operator) := do
  match ← w.peek with
  | some (.operator c) =>
    if c ∈ symbols then
      w.consume
      match Operator.ofSymbol c with
      | .ok op => return some op
      | .error e => throw (.failed e)
    else return none
  | _ => return none

/-- One level deeper. The counter goes up before it is compared with the limit. -/
def descend : Steps Unit := do
  let c ← counters
  let depth ← w.succ c.depth
  assign { c with depth }
  if w.limit < depth then fail (.tooDeep w.limit)

mutual

def expression : Nat → Steps Expr
  | 0 => unfinished
  | n + 1 => do
    w.descend
    let e ← addition n
    ascend
    return e

def addition : Nat → Steps Expr
  | 0 => unfinished
  | n + 1 => do
    let c ← counters
    let e ← multiplication n
    let e ← sums n e
    restore c.depth
    return e

/-- The loop over the sums behind `e`. -/
def sums : Nat → Expr → Steps Expr
  | 0, _ => unfinished
  | n + 1, e => do
    match ← w.operator? Descent.sumSymbols with
    | none => return e
    | some op =>
      w.descend
      let r ← multiplication n
      sums n (.binary e op r)

def multiplication : Nat → Steps Expr
  | 0 => unfinished
  | n + 1 => do
    let c ← counters
    let e ← operand n
    let e ← products n e
    restore c.depth
    return e

/-- The loop over the products behind `e`. -/
def products : Nat → Expr → Steps Expr
  | 0, _ => unfinished
  | n + 1, e => do
    match ← w.operator? Descent.productSymbols with
    | none => return e
    | some op =>
      w.descend
      let r ← operand n
      products n (.binary e op r)

def operand : Nat → Steps Expr
  | 0 => unfinished
  | n + 1 => do
    match ← w.advance with
    | some (.number x) => return .literal x
    | some (.identifier name) =>
      match ← w.peek with
      | some .openParen =>
        w.consume
        call n name
      | _ => return .var name
    | some .openParen =>
      let e ← expression n
      w.expectClosing
      return e
    | some t => fail (.unexpectedToken t)
    | none => fail .unexpectedEnd

/-- A call, behind its opening parenthesis. -/
def call : Nat → String → Steps Expr
  | 0, _ => unfinished
  | n + 1, function => do
    match ← w.peek with
    | some .closeParen =>
      w.consume
      return .call function []
    | _ =>
      let es ← arguments n []
      return .call function es

/-- The loop over the arguments behind the arguments `es`. -/
def arguments : Nat → List Expr → Steps (List Expr)
  | 0, _ => unfinished
  | n + 1, es => do
    let e ← expression n
    match ← w.peek with
    | some .comma =>
      w.consume
      arguments n (es ++ [e])
    | _ =>
      w.expectClosing
      return es ++ [e]

end

/-- Reads all tokens. -/
def read (n : Nat) : Steps Expr := do
  let e ← w.expression n
  match ← w.peek with
  | some t => fail (.trailing t)
  | none => return e

/-- What comes of reading all tokens, and the trail that is left behind. -/
def run (n : Nat) : Option (Except Stop Expr × Trail) := (w.read n).run.run {}

end Walk

end Formula
