import Formula.Evaluator
import Formula.Proofs.Limit
import Formula.Proofs.Reading
/-!
# Flat formulas in one pass

Where a formula is a row of numbers with operators between them, its value can be found in one pass from left to
right, with no tree: a term grows by `*`, `/` and `%`, and at `+` and `-` it joins the terms before it. The pass
here works on any values under any operations (`Pass.run`). A level of a draft stands where the pass stands, over
expressions (`Chain.Agrees`), so the expression that is read is what the pass makes of the bare operations, and
its value is what the pass finds among numbers: `ofTokens_flat`. No law of the operations is used.
-/

namespace Formula

/-- What the pass remembers. -/
structure Pass (α : Type) where
  /-- The terms before the current one. -/
  sum : Option α := none
  /-- The operator that joins the current term to them. -/
  pending : Operator := .add
  /-- The current term so far. -/
  term : α

namespace Pass

variable {α : Type} (apply : Operator → α → α → α)

/-- The current term joined to those before it. -/
def total (p : Pass α) : α :=
  match p.sum, p.pending with
  | none, _ => p.term
  | some s, .add => apply .add s p.term
  | some s, _ => apply .subtract s p.term

/-- Goes past an operator and the value behind it. -/
def step (p : Pass α) : Operator × α → Pass α
  | (.multiply, y) => { p with term := apply .multiply p.term y }
  | (.divide, y) => { p with term := apply .divide p.term y }
  | (.remainder, y) => { p with term := apply .remainder p.term y }
  | (op, y) => { sum := some (p.total apply), pending := op, term := y }

/-- The result for the value `x` and a row of operators, each with the value behind it. -/
def run (x : α) (ys : List (Operator × α)) : α := (ys.foldl (step apply) { term := x }).total apply

theorem step_of_isSum {op : Operator} (h : op.isSum) (p : Pass α) (y : α) :
    p.step apply (op, y) = { sum := some (p.total apply), pending := op, term := y } := by
  cases op with
  | add | subtract => rfl
  | multiply | divide | remainder => cases h

theorem step_of_not_isSum {op : Operator} (h : op.isSum = false) (p : Pass α) (y : α) :
    p.step apply (op, y) = { p with term := apply op p.term y } := by
  cases op with
  | add | subtract => cases h
  | multiply | divide | remainder => rfl

end Pass

namespace Expr

/-- An operation that is not carried out. -/
def operation (op : Operator) (l r : Expr) : Expr := binary l op r

/-- A row of numbers as the pass over expressions takes them. -/
def literals (ys : List (Operator × Float)) : List (Operator × Expr) := ys.map fun y => (y.1, literal y.2)

/-- The tree of a row of numbers, which the pass leans to the left. -/
def flat (x : Float) (ys : List (Operator × Float)) : Expr := Pass.run operation (literal x) (literals ys)

end Expr

/-- Operators, each with the number behind it. -/
def Token.row (ys : List (Operator × Float)) : List Token :=
  ys.flatMap fun y => [.operator y.1.symbol, .number y.2]

/-! ## The reader makes the pass over expressions -/

namespace Chain

/-- The level, with `e` for its last operand, stands where the pass stands. -/
structure Agrees (c : Chain) (e : Expr) (p : Pass Expr) : Prop where
  term : c.term e = p.term
  sum : c.sum = p.sum.map (·, p.pending)
  pending : p.pending.isSum

variable {c : Chain} {e : Expr} {p : Pass Expr}

theorem Agrees.expr (h : c.Agrees e p) : c.expr e = p.total Expr.operation := by
  obtain ⟨sum, pending, term⟩ := p
  obtain ⟨hterm, hsum, hpending⟩ := h
  rw [Chain.expr, hterm, hsum]
  cases sum with
  | none => rfl
  | some s =>
    cases pending with
    | add | subtract => rfl
    | multiply | divide | remainder => cases hpending

theorem Agrees.extend (h : c.Agrees e p) (op : Operator) (y : Expr) :
    (c.extend e op).Agrees y (p.step Expr.operation (op, y)) := by
  cases hop : op.isSum with
  | true =>
    rw [extend_of_isSum hop, Pass.step_of_isSum _ hop, h.expr]
    exact ⟨rfl, rfl, hop⟩
  | false =>
    rw [extend_of_not_isSum hop, Pass.step_of_not_isSum _ hop, h.term]
    exact ⟨rfl, h.sum, h.pending⟩

end Chain

namespace Draft

variable {limit : Nat}

/-- Every operator adds at most one to the depth. -/
theorem pushAll_row (ys : List (Operator × Float)) {d : Draft} {e : Expr} {p : Pass Expr}
    (ho : d.phase.operand? = some e) (h : d.chain.Agrees e p) (hd : d.chain.depth + ys.length ≤ limit) :
    ∃ d' o, d.pushAll limit (Token.row ys) = .ok d' ∧ d'.phase.operand? = some o ∧ d'.frames = d.frames ∧
      d'.chain.Agrees o ((Expr.literals ys).foldl (Pass.step Expr.operation) p) := by
  induction ys generalizing d e p with
  | nil => exact ⟨d, e, rfl, ho, rfl, h⟩
  | cons y ys ih =>
    obtain ⟨op, y⟩ := y
    have hext := d.chain.depth_extend_le e op
    rw [List.length_cons] at hd
    let next : Draft := { d with chain := d.chain.extend e op, phase := .operand }
    have hnext : next.chain.depth + ys.length ≤ limit := by
      change (d.chain.extend e op).depth + ys.length ≤ limit
      omega
    have hoperator : d.push limit (.operator op.symbol) = .ok next :=
      (push_operator ho).trans (if_pos (Nat.le_of_add_right_le hnext))
    have hnumber : next.push limit (.number y) = .ok { next with phase := .complete (.literal y) } := rfl
    obtain ⟨d', o, hrow, ho', hframes, hagrees⟩ := @ih { next with phase := .complete (.literal y) } (.literal y) _ rfl
      (h.extend op (.literal y)) hnext
    refine ⟨d', o, ?_, ho', hframes, hagrees⟩
    calc d.pushAll limit (Token.row ((op, y) :: ys))
      _ = next.pushAll limit (.number y :: Token.row ys) := pushAll_cons_of_push hoperator _
      _ = .ok d' := (pushAll_cons_of_push hnumber _).trans hrow

end Draft

/-! ## The value is that of the pass over numbers -/

namespace Pass

/-- The expressions of one pass have the values of the other. -/
structure Evaluates (vars : Bindings) (p : Pass Expr) (q : Pass Float) : Prop where
  sum : p.sum.map (Expr.eval vars) = q.sum.map .ok
  pending : p.pending = q.pending
  term : p.term.eval vars = .ok q.term

variable {vars : Bindings} {p : Pass Expr} {q : Pass Float}

theorem eval_operation {l r : Expr} {x y : Float} (op : Operator) (hl : l.eval vars = .ok x)
    (hr : r.eval vars = .ok y) : (Expr.operation op l r).eval vars = .ok (op.apply x y) := by
  rw [Expr.operation, Expr.eval, hl, hr]
  rfl

theorem Evaluates.total (h : p.Evaluates vars q) :
    (p.total Expr.operation).eval vars = .ok (q.total Operator.apply) := by
  obtain ⟨sum, pending, term⟩ := p
  obtain ⟨sum', pending', term'⟩ := q
  obtain ⟨hsum, hpending, hterm⟩ := h
  dsimp only at hsum hpending hterm
  subst hpending
  cases sum with
  | none =>
    cases sum' with
    | none => exact hterm
    | some s' => cases hsum
  | some s =>
    cases sum' with
    | none => cases hsum
    | some s' =>
      have hs : s.eval vars = .ok s' := Option.some.inj hsum
      cases pending with
      | add => exact eval_operation .add hs hterm
      | subtract | multiply | divide | remainder => exact eval_operation .subtract hs hterm

theorem Evaluates.step (h : p.Evaluates vars q) (op : Operator) (y : Float) :
    (p.step Expr.operation (op, .literal y)).Evaluates vars (q.step Operator.apply (op, y)) := by
  cases hop : op.isSum with
  | true =>
    rw [step_of_isSum _ hop, step_of_isSum _ hop]
    exact ⟨congrArg some h.total, rfl, rfl⟩
  | false =>
    rw [step_of_not_isSum _ hop, step_of_not_isSum _ hop]
    exact ⟨h.sum, h.pending, eval_operation op h.term rfl⟩

theorem Evaluates.foldl (h : p.Evaluates vars q) (ys : List (Operator × Float)) :
    ((Expr.literals ys).foldl (Pass.step Expr.operation) p).Evaluates vars (ys.foldl (Pass.step Operator.apply) q) := by
  induction ys generalizing p q with
  | nil => exact h
  | cons y ys ih => exact ih (h.step y.1 y.2)

end Pass

/-- An expression that a pass makes has the value that the pass finds. -/
theorem Expr.eval_flat (vars : Bindings) (x : Float) (ys : List (Operator × Float)) :
    (flat x ys).eval vars = .ok (Pass.run Operator.apply x ys) := by
  have hstart : Pass.Evaluates vars { term := literal x } { term := x } := ⟨rfl, rfl, rfl⟩
  exact (hstart.foldl ys).total

/-! ## Main theorem -/

theorem ofTokens_row {limit : Nat} (x : Float) (ys : List (Operator × Float)) (h : ys.length + 1 ≤ limit) :
    Expr.ofTokens limit (.number x :: Token.row ys) = .ok (Expr.flat x ys) := by
  let first : Draft := ⟨{ base := 1 }, [], .complete (.literal x), []⟩
  have hfirst : first.chain.Agrees (.literal x) { term := .literal x } := ⟨rfl, rfl, rfl⟩
  have hdepth : first.chain.depth + ys.length ≤ limit := by
    rw [show first.chain.depth = 1 from rfl]
    omega
  obtain ⟨d, o, hrow, ho, hframes, hagrees⟩ := Draft.pushAll_row ys rfl hfirst hdepth
  have hrun : Draft.run limit (.number x :: Token.row ys) = .ok d := by
    rw [Draft.run_of_pos (by omega)]
    exact hrow
  rw [Draft.ofTokens_eq, hrun]
  exact Draft.finish_eq_ok_iff.2 ⟨o, ho, hframes, hagrees.expr⟩

/-- A row of numbers is read as what the pass makes of them without carrying any operation out, if the limit allows
one more than there are operators, and in parentheses under a limit one higher. Its value is what the pass finds. -/
theorem ofTokens_flat {limit : Nat} (x : Float) (ys : List (Operator × Float)) (h : ys.length + 1 ≤ limit) :
    Expr.ofTokens limit (.number x :: Token.row ys) = .ok (Expr.flat x ys) ∧
      Expr.ofTokens (limit + 1) (.openParen :: .number x :: Token.row ys ++ [.closeParen]) = .ok (Expr.flat x ys) ∧
      ∀ vars, (Expr.flat x ys).eval vars = .ok (Pass.run Operator.apply x ys) := by
  have hread := ofTokens_row x ys h
  obtain ⟨n, k, hd, hk⟩ := ofTokens_eq_ok_iff_depth.1 hread
  refine ⟨hread, ofTokens_eq_ok_iff_depth.2 ⟨0, k + 1, ?_, by omega⟩, fun vars => Expr.eval_flat vars x ys⟩
  exact .term (.operand (.group hd))

/-- In `7 - 2 * 3 % 4 - 5` the product is a term of its own, and the differences are taken from the left. -/
theorem ofTokens_flat_of_differences :
    let ys : List (Operator × Float) := [(.subtract, 2), (.multiply, 3), (.remainder, 4), (.subtract, 5)]
    ys.length + 1 ≤ 5 ∧
      Expr.ofTokens 5 [.number 7, .operator '-', .number 2, .operator '*', .number 3, .operator '%', .number 4,
        .operator '-', .number 5] = .ok (Expr.flat 7 ys) ∧
      (Expr.flat 7 ys).eval ∅ = .ok (7 - Operator.apply .remainder (2 * 3) 4 - 5) := by
  intro ys
  have h : ys.length + 1 ≤ 5 := by decide
  obtain ⟨hread, -, hvalue⟩ := ofTokens_flat 7 ys h
  have hpass : Pass.run Operator.apply 7 ys = 7 - Operator.apply .remainder (2 * 3) 4 - 5 := by
    simp [Pass.run, ys, Pass.step, Pass.total, Operator.apply]
  refine ⟨h, hread, ?_⟩
  rw [hvalue ∅, hpass]

end Formula
