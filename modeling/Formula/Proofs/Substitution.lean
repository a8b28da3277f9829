import Formula.Evaluator
import Formula.Proofs.Reading
/-!
# Definitions in place of variables

A variable can be bound to a value, or its definition can be written in its place, in parentheses. Both come
to the same: `ofTokens_substitute`. On tokens, a name in front of a parenthesis is that of a function and stays.
The parentheses are an operand wherever a variable is, and what they hold stands one level deeper
(`SumDepth.substitute`). In an expression they leave no trace, and evaluation comes to the definition at the very
point at which it would have looked the variable up (`Expr.eval_subst`).
-/

namespace Formula

/-- Writes the tokens `us`, in parentheses, for every variable `x`. -/
def Token.substitute (x : String) (us : List Token) : List Token → List Token
  | [] => []
  | t :: ts =>
    (if t = .identifier x ∧ ts.head? ≠ some .openParen then .openParen :: us ++ [.closeParen] else [t])
      ++ substitute x us ts

namespace Expr

mutual

/-- Puts the expression `u` for every variable `x`. -/
def subst (x : String) (u : Expr) : Expr → Expr
  | literal y => literal y
  | var name => if name = x then u else var name
  | binary l op r => binary (subst x u l) op (subst x u r)
  | call f es => call f (substList x u es)

/-- `subst` in all arguments. -/
def substList (x : String) (u : Expr) : List Expr → List Expr
  | [] => []
  | e :: es => subst x u e :: substList x u es

end

end Expr

/-! ## The value -/

namespace Expr

variable {x : String} {u : Expr} {vars : Bindings} {v : Float}

mutual

theorem eval_subst (hu : u.eval vars = .ok v) : ∀ e : Expr, (subst x u e).eval vars = e.eval (vars.insert x v)
  | literal y => rfl
  | var name => by
    by_cases hname : name = x
    · subst hname
      rw [subst, if_pos rfl, hu, eval, Std.TreeMap.getElem?_insert_self]
    · rw [subst, if_neg hname, eval, eval, Std.TreeMap.getElem?_insert, if_neg]
      simpa using Ne.symm hname
  | binary l op r => by rw [subst, eval, eval, eval_subst hu l, eval_subst hu r]
  | call f es => by rw [subst, eval, eval, evalList_substList hu es]

theorem evalList_substList (hu : u.eval vars = .ok v) :
    ∀ es : List Expr, evalList vars (substList x u es) = evalList (vars.insert x v) es
  | [] => rfl
  | e :: es => by rw [substList, evalList, evalList, eval_subst hu e, evalList_substList hu es]

end

end Expr

/-! ## The tokens -/

namespace Token

variable {x : String} {us : List Token}

/-- Tokens can be told apart where no parenthesis follows a name. -/
theorem substitute_append (ts : List Token) {vs : List Token} (h : vs.head? ≠ some .openParen) :
    substitute x us (ts ++ vs) = substitute x us ts ++ substitute x us vs := by
  induction ts with
  | nil => rfl
  | cons t ts ih =>
    have hhead : (ts ++ vs).head? = some .openParen ↔ ts.head? = some .openParen := by
      cases ts with
      | nil => simpa using h
      | cons _ _ => rfl
    rw [List.cons_append, substitute, substitute, ih, List.append_assoc]
    simp only [ne_eq, hhead]

theorem substitute_cons (t : Token) (h : t ≠ .identifier x) (ts : List Token) :
    substitute x us (t :: ts) = t :: substitute x us ts := by
  rw [substitute, if_neg fun ht => h ht.1]
  rfl

theorem substitute_function (f : String) (ts : List Token) :
    substitute x us (.identifier f :: .openParen :: ts) = .identifier f :: .openParen :: substitute x us ts := by
  rw [substitute, if_neg (by simp), substitute_cons .openParen nofun]
  rfl

theorem substitute_operator (ts vs : List Token) (op : Operator) :
    substitute x us (ts ++ .operator op.symbol :: vs) =
      substitute x us ts ++ .operator op.symbol :: substitute x us vs := by
  rw [substitute_append ts (by simp), substitute_cons (.operator _) nofun]

theorem substitute_concat (ts : List Token) :
    substitute x us (ts ++ [.closeParen]) = substitute x us ts ++ [.closeParen] := by
  rw [substitute_append ts (by simp), substitute_cons .closeParen nofun]
  rfl

end Token

open Token

section

variable {x : String} {us : List Token} {u : Expr} {k : Nat}

-- The definition in its parentheses is an operand. No more is needed of it.
mutual

theorem SumDepth.substitute (hu : OperandDepth k (.openParen :: us ++ [.closeParen]) u) {n i : Nat} {ts : List Token}
    {e : Expr} : SumDepth n i ts e →
    ∃ i', i' ≤ i + k ∧ SumDepth n i' (Token.substitute x us ts) (Expr.subst x u e)
  | .term h => by
    obtain ⟨i', hi, h'⟩ := TermDepth.substitute hu h
    exact ⟨i', hi, .term h'⟩
  | .join hl hop hr => by
    obtain ⟨i', hi, hl'⟩ := SumDepth.substitute hu hl
    obtain ⟨i'', hi', hr'⟩ := TermDepth.substitute hu hr
    rw [substitute_operator, Expr.subst]
    exact ⟨_, by omega, .join hl' hop hr'⟩

theorem TermDepth.substitute (hu : OperandDepth k (.openParen :: us ++ [.closeParen]) u) {m i : Nat} {ts : List Token}
    {e : Expr} : TermDepth m i ts e →
    ∃ i', i' ≤ i + k ∧ TermDepth m i' (Token.substitute x us ts) (Expr.subst x u e)
  | .operand h => by
    obtain ⟨i', hi, h'⟩ := OperandDepth.substitute hu h
    exact ⟨i', hi, .operand h'⟩
  | .join hl hop hr => by
    obtain ⟨i', hi, hl'⟩ := TermDepth.substitute hu hl
    obtain ⟨i'', hi', hr'⟩ := OperandDepth.substitute hu hr
    rw [substitute_operator, Expr.subst]
    exact ⟨_, by omega, .join hl' hop hr'⟩

theorem OperandDepth.substitute (hu : OperandDepth k (.openParen :: us ++ [.closeParen]) u) {i : Nat} {ts : List Token}
    {e : Expr} : OperandDepth i ts e →
    ∃ i', i' ≤ i + k ∧ OperandDepth i' (Token.substitute x us ts) (Expr.subst x u e)
  | .number y => by
    rw [substitute_cons (.number y) nofun, Expr.subst]
    exact ⟨0, Nat.zero_le _, .number y⟩
  | .var name => by
    rw [Token.substitute, Token.substitute, List.append_nil, Expr.subst]
    by_cases hname : name = x
    · rw [if_pos ⟨congrArg identifier hname, nofun⟩, if_pos hname]
      exact ⟨k, Nat.le_add_left _ _, hu⟩
    · rw [if_neg fun h => hname (identifier.inj h.1), if_neg hname]
      exact ⟨0, Nat.zero_le _, .var name⟩
  | .group h => by
    obtain ⟨i', hi, h'⟩ := SumDepth.substitute hu h
    rw [List.cons_append, substitute_cons .openParen nofun, substitute_concat]
    exact ⟨i' + 1, by omega, .group h'⟩
  | .constant f => by
    rw [substitute_function, substitute_cons .closeParen nofun, Expr.subst, Expr.substList]
    exact ⟨0, Nat.zero_le _, .constant f⟩
  | .call f h => by
    obtain ⟨i', hi, h'⟩ := ArgumentsDepth.substitute hu h
    rw [List.cons_append, List.cons_append, substitute_function, substitute_concat, Expr.subst]
    exact ⟨i' + 1, by omega, .call f h'⟩

theorem ArgumentsDepth.substitute (hu : OperandDepth k (.openParen :: us ++ [.closeParen]) u) {i : Nat}
    {ts : List Token} {es : List Expr} : ArgumentsDepth i ts es →
    ∃ i', i' ≤ i + k ∧ ArgumentsDepth i' (Token.substitute x us ts) (Expr.substList x u es)
  | .last h => by
    obtain ⟨i', hi, h'⟩ := SumDepth.substitute hu h
    exact ⟨i', hi, .last h'⟩
  | .more h hs => by
    obtain ⟨i', hi, h'⟩ := SumDepth.substitute hu h
    obtain ⟨i'', hi', hs'⟩ := ArgumentsDepth.substitute hu hs
    rw [substitute_append _ (by simp), substitute_cons .comma nofun, Expr.substList]
    exact ⟨_, by omega, .more h' hs'⟩

end

end

/-! ## Main theorem -/

/-- Where tokens are an expression and other tokens its definition of a variable, the definition can be written for the
variable, if both limits are put together. Its value is then that of the expression, once the variable is bound to
the value of the definition. -/
theorem ofTokens_substitute {limit limit' : Nat} {ts us : List Token} {e u : Expr} (x : String)
    (h : Expr.ofTokens limit ts = .ok e) (hu : Expr.ofTokens limit' us = .ok u) :
    Expr.ofTokens (limit + limit') (Token.substitute x us ts) = .ok (Expr.subst x u e) ∧
      ∀ (vars : Bindings) (v : Float), u.eval vars = .ok v →
        (Expr.subst x u e).eval vars = e.eval (vars.insert x v) := by
  obtain ⟨n, i, hd, hi⟩ := ofTokens_eq_ok_iff_depth.1 h
  obtain ⟨j, k, hud, hk⟩ := ofTokens_eq_ok_iff_depth.1 hu
  obtain ⟨i', hi', hd'⟩ := SumDepth.substitute (OperandDepth.group hud) hd
  refine ⟨ofTokens_eq_ok_iff_depth.2 ⟨n, i', hd', ?_⟩, fun vars v hv => Expr.eval_subst hv e⟩
  omega

/-- With `y + 1` for `ceil`, `ceil(ceil) * ceil` is `ceil((y + 1)) * (y + 1)`: the function keeps its name. -/
theorem ofTokens_substitute_of_function :
    let ts : List Token := [.identifier "ceil", .openParen, .identifier "ceil", .closeParen, .operator '*',
      .identifier "ceil"]
    let us : List Token := [.identifier "y", .operator '+', .number 1]
    let e : Expr := .binary (.call "ceil" [.var "ceil"]) .multiply (.var "ceil")
    let u : Expr := .binary (.var "y") .add (.literal 1)
    let vars : Bindings := Std.TreeMap.empty.insert "y" 3
    Expr.ofTokens 2 ts = .ok e ∧ Expr.ofTokens 2 us = .ok u ∧ u.eval vars = .ok (3 + 1) ∧
      Expr.ofTokens 4 ([.identifier "ceil", .openParen, .openParen] ++ us ++ [.closeParen, .closeParen, .operator '*',
        .openParen] ++ us ++ [.closeParen]) = .ok (.binary (.call "ceil" [u]) .multiply u) ∧
      (Expr.binary (.call "ceil" [u]) .multiply u).eval vars = e.eval (vars.insert "ceil" (3 + 1)) := by
  intro ts us e u vars
  have hts : Expr.ofTokens 2 ts = .ok e := rfl
  have hus : Expr.ofTokens 2 us = .ok u := rfl
  have hvalue : u.eval vars = .ok (3 + 1) := by
    have hy : (Expr.var "y").eval vars = .ok 3 := by rw [Expr.eval, Std.TreeMap.getElem?_insert_self]
    rw [Expr.eval, hy]
    rfl
  obtain ⟨hread, heval⟩ := ofTokens_substitute "ceil" hts hus
  exact ⟨hts, hus, hvalue, hread, heval vars _ hvalue⟩

end Formula
