import Formula.Expr
import Formula.Token
/-!
# The grammar of expressions

Which tokens make up which expression, said without a reader. A sum joins terms and a term joins
operands, both from the left, so `-` and `/` fold as they are read; an operand is a number, a variable,
an expression in parentheses, which leave no trace, or a call.

The operands of an expression stand at different depths. On one level every sum puts the operands
behind it one deeper, and every product those behind it in its term; a group or an argument is a level
of its own, one deeper than the operand it stands in. `SumDepth`, `TermDepth` and `OperandDepth` are
the grammar with that depth written along.
-/

namespace Formula

mutual

/-- Terms joined by `+` and `-`: a whole expression. -/
inductive IsSum : List Token → Expr → Prop
  | term {ts e} : IsTerm ts e → IsSum ts e
  | join {ts us l r} {op : Operator} : IsSum ts l → op.isSum → IsTerm us r →
    IsSum (ts ++ .operator op.symbol :: us) (.binary l op r)

/-- Operands joined by `*`, `/` and `%`. -/
inductive IsTerm : List Token → Expr → Prop
  | operand {ts e} : IsOperand ts e → IsTerm ts e
  | join {ts us l r} {op : Operator} : IsTerm ts l → op.isSum = false → IsOperand us r →
    IsTerm (ts ++ .operator op.symbol :: us) (.binary l op r)

/-- What stands between two operators. -/
inductive IsOperand : List Token → Expr → Prop
  | number (x) : IsOperand [.number x] (.literal x)
  | var (name) : IsOperand [.identifier name] (.var name)
  | group {ts e} : IsSum ts e → IsOperand (.openParen :: ts ++ [.closeParen]) e
  | constant (f) : IsOperand [.identifier f, .openParen, .closeParen] (.call f [])
  | call {ts es} (f) : IsArguments ts es →
    IsOperand (.identifier f :: .openParen :: ts ++ [.closeParen]) (.call f es)

/-- Expressions with commas between them, at least one. -/
inductive IsArguments : List Token → List Expr → Prop
  | last {ts e} : IsSum ts e → IsArguments ts [e]
  | more {ts us e es} : IsSum ts e → IsArguments us es → IsArguments (ts ++ .comma :: us) (e :: es)

end

/-! ## Depth -/

mutual

/-- A sum of `n + 1` terms whose deepest operand stands `k` deeper than the first. -/
inductive SumDepth : Nat → Nat → List Token → Expr → Prop
  | term {m k ts e} : TermDepth m k ts e → SumDepth 0 k ts e
  | join {n k m k' ts us l r} {op : Operator} : SumDepth n k ts l → op.isSum → TermDepth m k' us r →
    SumDepth (n + 1) (max k (n + 1 + k')) (ts ++ .operator op.symbol :: us) (.binary l op r)

/-- A term of `m + 1` operands whose deepest operand stands `k` deeper than the first. -/
inductive TermDepth : Nat → Nat → List Token → Expr → Prop
  | operand {k ts e} : OperandDepth k ts e → TermDepth 0 k ts e
  | join {m k k' ts us l r} {op : Operator} : TermDepth m k ts l → op.isSum = false →
    OperandDepth k' us r →
    TermDepth (m + 1) (max k (m + 1 + k')) (ts ++ .operator op.symbol :: us) (.binary l op r)

/-- An operand that holds operands up to `k` deeper than itself. -/
inductive OperandDepth : Nat → List Token → Expr → Prop
  | number (x) : OperandDepth 0 [.number x] (.literal x)
  | var (name) : OperandDepth 0 [.identifier name] (.var name)
  | group {n k ts e} : SumDepth n k ts e → OperandDepth (k + 1) (.openParen :: ts ++ [.closeParen]) e
  | constant (f) : OperandDepth 0 [.identifier f, .openParen, .closeParen] (.call f [])
  | call {k ts es} (f) : ArgumentsDepth k ts es →
    OperandDepth (k + 1) (.identifier f :: .openParen :: ts ++ [.closeParen]) (.call f es)

/-- Arguments whose deepest operand stands `k` deeper than the first of any of them. -/
inductive ArgumentsDepth : Nat → List Token → List Expr → Prop
  | last {n k ts e} : SumDepth n k ts e → ArgumentsDepth k ts [e]
  | more {n k k' ts us e es} : SumDepth n k ts e → ArgumentsDepth k' us es →
    ArgumentsDepth (max k k') (ts ++ .comma :: us) (e :: es)

end

mutual

theorem IsSum.exists_depth {ts : List Token} {e : Expr} : IsSum ts e → ∃ n k, SumDepth n k ts e
  | .term h => by
    obtain ⟨_, _, ht⟩ := h.exists_depth
    exact ⟨_, _, .term ht⟩
  | .join hl hop hr => by
    obtain ⟨_, _, hl⟩ := hl.exists_depth
    obtain ⟨_, _, hr⟩ := hr.exists_depth
    exact ⟨_, _, .join hl hop hr⟩

theorem IsTerm.exists_depth {ts : List Token} {e : Expr} : IsTerm ts e → ∃ m k, TermDepth m k ts e
  | .operand h => by
    obtain ⟨_, ho⟩ := h.exists_depth
    exact ⟨_, _, .operand ho⟩
  | .join hl hop hr => by
    obtain ⟨_, _, hl⟩ := hl.exists_depth
    obtain ⟨_, hr⟩ := hr.exists_depth
    exact ⟨_, _, .join hl hop hr⟩

theorem IsOperand.exists_depth {ts : List Token} {e : Expr} : IsOperand ts e → ∃ k, OperandDepth k ts e
  | .number x => ⟨_, .number x⟩
  | .var name => ⟨_, .var name⟩
  | .group h => by
    obtain ⟨_, _, h⟩ := h.exists_depth
    exact ⟨_, .group h⟩
  | .constant f => ⟨_, .constant f⟩
  | .call f h => by
    obtain ⟨_, h⟩ := h.exists_depth
    exact ⟨_, .call f h⟩

theorem IsArguments.exists_depth {ts : List Token} {es : List Expr} :
    IsArguments ts es → ∃ k, ArgumentsDepth k ts es
  | .last h => by
    obtain ⟨_, _, h⟩ := h.exists_depth
    exact ⟨_, .last h⟩
  | .more h hs => by
    obtain ⟨_, _, h⟩ := h.exists_depth
    obtain ⟨_, hs⟩ := hs.exists_depth
    exact ⟨_, .more h hs⟩

end

mutual

theorem SumDepth.isSum {n k : Nat} {ts : List Token} {e : Expr} : SumDepth n k ts e → IsSum ts e
  | .term h => .term h.isTerm
  | .join hl hop hr => .join hl.isSum hop hr.isTerm

theorem TermDepth.isTerm {m k : Nat} {ts : List Token} {e : Expr} : TermDepth m k ts e → IsTerm ts e
  | .operand h => .operand h.isOperand
  | .join hl hop hr => .join hl.isTerm hop hr.isOperand

theorem OperandDepth.isOperand {k : Nat} {ts : List Token} {e : Expr} : OperandDepth k ts e → IsOperand ts e
  | .number x => .number x
  | .var name => .var name
  | .group h => .group h.isSum
  | .constant f => .constant f
  | .call f h => .call f h.isArguments

theorem ArgumentsDepth.isArguments {k : Nat} {ts : List Token} {es : List Expr} :
    ArgumentsDepth k ts es → IsArguments ts es
  | .last h => .last h.isSum
  | .more h hs => .more h.isSum hs.isArguments

end

/-! ## What a derivation costs in tokens -/

mutual

/-- One more level takes one more token at least. -/
theorem SumDepth.depth_lt_length {n k : Nat} {ts : List Token} {e : Expr} :
    SumDepth n k ts e → k < ts.length ∧ n < ts.length
  | .term h => by
    have := h.depth_lt_length
    omega
  | .join hl _ hr => by
    have := hl.depth_lt_length
    have := hr.depth_lt_length
    simp only [List.length_append, List.length_cons]
    omega

theorem TermDepth.depth_lt_length {m k : Nat} {ts : List Token} {e : Expr} :
    TermDepth m k ts e → k < ts.length ∧ m < ts.length
  | .operand h => by
    have := h.depth_lt_length
    omega
  | .join hl _ hr => by
    have := hl.depth_lt_length
    have := hr.depth_lt_length
    simp only [List.length_append, List.length_cons]
    omega

theorem OperandDepth.depth_lt_length {k : Nat} {ts : List Token} {e : Expr} :
    OperandDepth k ts e → k < ts.length
  | .number _ | .var _ | .constant _ => by simp
  | .group h | .call _ h => by
    have := h.depth_lt_length
    simp only [List.length_append, List.length_cons]
    omega

theorem ArgumentsDepth.depth_lt_length {k : Nat} {ts : List Token} {es : List Expr} :
    ArgumentsDepth k ts es → k < ts.length
  | .last h => h.depth_lt_length.1
  | .more h hs => by
    have := h.depth_lt_length
    have := hs.depth_lt_length
    simp only [List.length_append, List.length_cons]
    omega

end

/-- The tokens that an expression may start with. -/
def Token.Opens : Token → Prop
  | .number _ | .identifier _ | .openParen => True
  | .closeParen | .comma | .operator _ => False

mutual

theorem SumDepth.opens {n k : Nat} {ts : List Token} {e : Expr} :
    SumDepth n k ts e → ∃ t us, ts = t :: us ∧ t.Opens
  | .term h => h.opens
  | .join hl _ _ => by
    obtain ⟨t, us, rfl, ht⟩ := hl.opens
    exact ⟨t, _, rfl, ht⟩

theorem TermDepth.opens {m k : Nat} {ts : List Token} {e : Expr} :
    TermDepth m k ts e → ∃ t us, ts = t :: us ∧ t.Opens
  | .operand h => h.opens
  | .join hl _ _ => by
    obtain ⟨t, us, rfl, ht⟩ := hl.opens
    exact ⟨t, _, rfl, ht⟩

theorem OperandDepth.opens {k : Nat} {ts : List Token} {e : Expr} :
    OperandDepth k ts e → ∃ t us, ts = t :: us ∧ t.Opens
  | .number _ | .var _ | .group _ | .constant _ | .call _ _ => ⟨_, _, rfl, trivial⟩

end

theorem ArgumentsDepth.opens {k : Nat} {ts : List Token} {es : List Expr} (h : ArgumentsDepth k ts es) :
    ∃ t us, ts = t :: us ∧ t.Opens := by
  cases h with
  | last h => exact h.opens
  | more h _ =>
    obtain ⟨t, us, rfl, ht⟩ := h.opens
    exact ⟨t, _, rfl, ht⟩

/-- The tokens that an expression may end with. -/
def Token.Closes : Token → Prop
  | .number _ | .identifier _ | .closeParen => True
  | .openParen | .comma | .operator _ => False

mutual

theorem IsSum.closes {ts : List Token} {e : Expr} : IsSum ts e → ∃ t, ts.getLast? = some t ∧ t.Closes
  | .term h => h.closes
  | .join _ _ hr => by
    obtain ⟨t, hlast, ht⟩ := hr.closes
    exact ⟨t, by simp [List.getLast?_cons, hlast], ht⟩

theorem IsTerm.closes {ts : List Token} {e : Expr} : IsTerm ts e → ∃ t, ts.getLast? = some t ∧ t.Closes
  | .operand h => h.closes
  | .join _ _ hr => by
    obtain ⟨t, hlast, ht⟩ := hr.closes
    exact ⟨t, by simp [List.getLast?_cons, hlast], ht⟩

theorem IsOperand.closes {ts : List Token} {e : Expr} : IsOperand ts e → ∃ t, ts.getLast? = some t ∧ t.Closes
  | .number _ | .var _ | .constant _ => ⟨_, rfl, trivial⟩
  | .group _ | .call _ _ => ⟨.closeParen, List.getLast?_concat, trivial⟩

end

mutual

/-- An expression closes the parentheses it opens. -/
theorem IsSum.count_parens {ts : List Token} {e : Expr} :
    IsSum ts e → ts.count .openParen = ts.count .closeParen
  | .term h => h.count_parens
  | .join hl _ hr => by simp [hl.count_parens, hr.count_parens]

theorem IsTerm.count_parens {ts : List Token} {e : Expr} :
    IsTerm ts e → ts.count .openParen = ts.count .closeParen
  | .operand h => h.count_parens
  | .join hl _ hr => by simp [hl.count_parens, hr.count_parens]

theorem IsOperand.count_parens {ts : List Token} {e : Expr} :
    IsOperand ts e → ts.count .openParen = ts.count .closeParen
  | .number _ | .var _ | .constant _ => by simp
  | .group h => by simp [h.count_parens]
  | .call _ h => by simp [h.count_parens]

theorem IsArguments.count_parens {ts : List Token} {es : List Expr} :
    IsArguments ts es → ts.count .openParen = ts.count .closeParen
  | .last h => h.count_parens
  | .more h hs => by simp [h.count_parens, hs.count_parens]

end

end Formula
