import Formula.Evaluator
import Formula.Proofs.Height
/-!
# How deep evaluation and writing go

To evaluate an expression its parts are evaluated first, and to write it its parts are written, so as many evaluations
are open at a time as expressions stand one in the other (`Expr.nesting`). `evalWithin` and `writeWithin` are evaluation
and writing that give up where more than `n` would be open. Given enough they come to the same as without
(`Expr.evalWithin_of_nesting_le`, `Expr.writeWithin_eq`).

The limit of a reader therefore bounds both, by its square and by nothing less: `nesting_le_square`.
-/

namespace Formula

namespace Expr

mutual

/-- The value of an expression, unless more than `n` evaluations would be open at a time. -/
def evalWithin (vars : Bindings) : Nat → Expr → ExceptT Error Option Float
  | 0, _ => ExceptT.mk none
  | _ + 1, literal x => return x
  | _ + 1, var name =>
    match vars[name]? with
    | some x => return x
    | none => throw (.unresolved (.unboundVariable name))
  | n + 1, binary l op r => do
    let x ← evalWithin vars n l
    let y ← evalWithin vars n r
    return op.apply x y
  | n + 1, call f es => do
    let xs ← evalListWithin vars n es
    MonadExcept.ofExcept (Builtin.callNamed f xs)

/-- The values of arguments, each within `n`. -/
def evalListWithin (vars : Bindings) : Nat → List Expr → ExceptT Error Option (List Float)
  | _, [] => return []
  | n, e :: es => do
    let x ← evalWithin vars n e
    let xs ← evalListWithin vars n es
    return x :: xs

end

mutual

/-- The text of an expression in front of `rest`, unless the texts of more than `n` would be open at a time. -/
def writeWithin : Nat → Expr → List Char → Option (List Char)
  | 0, _, _ => none
  | _ + 1, literal x, rest => return writeNumber .plain x ++ rest
  | _ + 1, var name, rest => return name.toList ++ rest
  | n + 1, binary l op r, rest => do
    let right ← writeWithin n r (')' :: rest)
    let left ← writeWithin n l (' ' :: op.symbol :: ' ' :: right)
    return '(' :: left
  | n + 1, call f es, rest => do
    let arguments ← writeListWithin n es (')' :: rest)
    return f.toList ++ '(' :: arguments

/-- The texts of arguments, each within `n`. -/
def writeListWithin : Nat → List Expr → List Char → Option (List Char)
  | _, [], rest => return rest
  | n, [e], rest => writeWithin n e rest
  | n, e :: e' :: es, rest => do
    let others ← writeListWithin n (e' :: es) rest
    writeWithin n e (',' :: ' ' :: others)

end

theorem mk_some_bind {α β : Type} {x : Except Error α} {f : α → ExceptT Error Option β} {g : α → Except Error β}
    (h : ∀ a, f a = ExceptT.mk (some (g a))) : (ExceptT.mk (some x) >>= f) = ExceptT.mk (some (x >>= g)) := by
  cases x with
  | ok a => exact h a
  | error err => rfl

variable {vars : Bindings}

/-! ## Enough -/

theorem nesting_pos (e : Expr) : 1 ≤ e.nesting := by
  cases e with
  | literal _ | var _ => exact Nat.le_refl 1
  | binary _ _ _ | call _ _ => exact Nat.le_add_right 1 _

mutual

theorem evalWithin_of_nesting_le : ∀ (n : Nat) (e : Expr), e.nesting ≤ n →
    evalWithin vars n e = ExceptT.mk (some (e.eval vars))
  | 0, e, h => absurd h (Nat.not_le_of_lt e.nesting_pos)
  | n + 1, literal x, _ => by
    rw [evalWithin, eval]
    rfl
  | n + 1, var name, _ => by
    rw [evalWithin, eval]
    cases vars[name]? <;> rfl
  | n + 1, binary l op r, h => by
    rw [nesting] at h
    rw [evalWithin, eval, evalWithin_of_nesting_le n l (by omega)]
    refine mk_some_bind fun x => ?_
    rw [evalWithin_of_nesting_le n r (by omega)]
    exact mk_some_bind fun y => rfl
  | n + 1, call f es, h => by
    rw [nesting] at h
    rw [evalWithin, eval, evalListWithin_of_nestingList_le n es (by omega)]
    refine mk_some_bind fun xs => ?_
    cases Builtin.callNamed f xs <;> rfl

theorem evalListWithin_of_nestingList_le : ∀ (n : Nat) (es : List Expr), nestingList es ≤ n →
    evalListWithin vars n es = ExceptT.mk (some (evalList vars es))
  | n, [], _ => by
    rw [evalListWithin, evalList]
    rfl
  | n, e :: es, h => by
    rw [nestingList] at h
    rw [evalListWithin, evalList, evalWithin_of_nesting_le n e (by omega)]
    refine mk_some_bind fun x => ?_
    rw [evalListWithin_of_nestingList_le n es (by omega)]
    exact mk_some_bind fun xs => rfl

end

mutual

theorem writeWithin_eq : ∀ (n : Nat) (e : Expr) (rest : List Char),
    writeWithin n e rest = if e.nesting ≤ n then some (e.write rest) else none
  | 0, e, rest => by
    have he := e.nesting_pos
    rw [writeWithin, if_neg (by omega)]
  | n + 1, literal x, rest => by
    rw [writeWithin, nesting, if_pos (by omega), write]
    rfl
  | n + 1, var name, rest => by
    rw [writeWithin, nesting, if_pos (by omega), write]
    rfl
  | n + 1, binary l op r, rest => by
    rw [writeWithin, nesting, write, writeWithin_eq n r]
    by_cases hr : r.nesting ≤ n
    · rw [if_pos hr, Option.bind_eq_bind, Option.bind_some, writeWithin_eq n l]
      by_cases hl : l.nesting ≤ n
      · rw [if_pos hl, if_pos (by omega)]
        rfl
      · rw [if_neg hl, if_neg (by omega)]
        rfl
    · rw [if_neg hr, if_neg (by omega)]
      rfl
  | n + 1, call f es, rest => by
    rw [writeWithin, nesting, write, writeListWithin_eq n es]
    by_cases hes : nestingList es ≤ n
    · rw [if_pos hes, if_pos (by omega)]
      rfl
    · rw [if_neg hes, if_neg (by omega)]
      rfl

theorem writeListWithin_eq : ∀ (n : Nat) (es : List Expr) (rest : List Char),
    writeListWithin n es rest = if nestingList es ≤ n then some (writeList es rest) else none
  | n, [], rest => by
    rw [writeListWithin, nestingList, if_pos (Nat.zero_le n), writeList]
    rfl
  | n, [e], rest => by
    rw [writeListWithin, nestingList, nestingList, Nat.max_zero, writeList, writeWithin_eq n e]
  | n, e :: e' :: es, rest => by
    rw [writeListWithin, nestingList, writeList, writeListWithin_eq n (e' :: es)]
    by_cases hes : nestingList (e' :: es) ≤ n
    · rw [if_pos hes, Option.bind_eq_bind, Option.bind_some, writeWithin_eq n e]
      by_cases he : e.nesting ≤ n
      · rw [if_pos he, if_pos (by omega)]
      · rw [if_neg he, if_neg (by omega)]
    · rw [if_neg hes, if_neg (by omega)]
      rfl

end

/-! ## Too little -/

theorem evalWithin_eq_none {b : Nat} {e : Expr} (h : e.Leans b) {n : Nat} (hn : n < b) :
    evalWithin vars n e = ExceptT.mk none := by
  induction h generalizing n with
  | constant f =>
    obtain rfl : n = 0 := by omega
    rw [evalWithin]
  | left op r _ ih =>
    cases n with
    | zero => rw [evalWithin]
    | succ n =>
      rw [evalWithin, ih (by omega)]
      rfl
  | argument f es _ ih =>
    cases n with
    | zero => rw [evalWithin]
    | succ n =>
      rw [evalWithin, evalListWithin, ih (by omega)]
      rfl

end Expr

/-! ## Main theorem -/

/-- What is accepted under a limit is nested no deeper than its square, and its evaluation and its text go no deeper
either. Under every limit but zero an expression is accepted that is nested just as deep, and neither its evaluation,
whatever is bound, nor its text can do with less. -/
theorem nesting_le_square (limit : Nat) :
    (∀ ts e, Expr.ofTokens limit ts = .ok e → e.nesting ≤ limit * limit ∧
      (∀ vars, (e.evalWithin vars (limit * limit)).run = some (e.eval vars)) ∧
      ∀ rest, e.writeWithin (limit * limit) rest = some (e.write rest)) ∧
    (1 ≤ limit → ∃ ts e, Expr.ofTokens limit ts = .ok e ∧ e.nesting = limit * limit ∧
      ∀ n, n < limit * limit →
        (∀ vars, (e.evalWithin vars n).run = none) ∧ ∀ rest, e.writeWithin n rest = none) := by
  constructor
  · intro ts e h
    have hnesting := nesting_le_of_ofTokens h
    refine ⟨hnesting, fun vars => ?_, fun rest => ?_⟩
    · exact Expr.evalWithin_of_nesting_le _ e hnesting
    · rw [Expr.writeWithin_eq, if_pos hnesting]
  · intro hlimit
    obtain ⟨ts, e, h, hl⟩ := exists_ofTokens_leaning hlimit
    obtain ⟨hnesting, -⟩ := cost_eq_of_leaning h hl
    refine ⟨ts, e, h, hnesting, fun n hn => ⟨fun vars => ?_, fun rest => ?_⟩⟩
    · exact Expr.evalWithin_eq_none hl.leans hn
    · rw [Expr.writeWithin_eq, if_neg (by omega)]

/-- Under the limit two, `f(1) * 2 + 3` is accepted, and four is just enough for its evaluation. -/
theorem nesting_le_square_of_two :
    let ts : List Token := [.identifier "f", .openParen, .number 1, .closeParen, .operator '*', .number 2,
      .operator '+', .number 3]
    let e : Expr := .binary (.binary (.call "f" [.literal 1]) .multiply (.literal 2)) .add (.literal 3)
    Expr.ofTokens 2 ts = .ok e ∧ e.nesting = 4 ∧ ∀ vars, (e.evalWithin vars (2 * 2)).run = some (e.eval vars) := by
  intro ts e
  have hread : Expr.ofTokens 2 ts = .ok e := rfl
  exact ⟨hread, by decide, ((nesting_le_square 2).1 ts e hread).2.1⟩

end Formula
