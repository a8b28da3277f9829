import Formula.Proofs.Completeness
import Formula.Proofs.Leaves
/-!
# The tokens of a text

The text of an expression puts every operation in parentheses. So the expression that its tokens make up
is known before they are read, and so is the depth that reading takes: `ofTokens_tokens`. It is the
expression itself but for infinity, which is written like a name and read as one.
-/

namespace Formula

open Binary64

namespace Expr

mutual

/-- How much deeper than the first operand of its own text an expression gets. -/
def cost : Expr → Nat
  | literal _ | var _ => 0
  | binary l _ r => max (1 + l.cost) (2 + r.cost)
  | call _ es => costList es

/-- Every argument is a level of its own. -/
def costList : List Expr → Nat
  | [] => 0
  | e :: es => max (1 + e.cost) (costList es)

end

mutual

/-- The tokens of the text of an expression. -/
def tokens : Expr → List Token
  | literal x => [if magnitude x = infinity then .identifier "inf" else .number x]
  | var name => [.identifier name]
  | binary l op r => .openParen :: (l.tokens ++ .operator op.symbol :: r.tokens) ++ [.closeParen]
  | call f es => .identifier f :: .openParen :: tokensList es ++ [.closeParen]

def tokensList : List Expr → List Token
  | [] => []
  | [e] => e.tokens
  | e :: e' :: es => e.tokens ++ .comma :: tokensList (e' :: es)

end

mutual

/-- What the text of an expression says: in place of infinity stands a variable. -/
def reread : Expr → Expr
  | literal x => if magnitude x = infinity then .var "inf" else .literal x
  | var name => .var name
  | binary l op r => .binary l.reread op r.reread
  | call f es => .call f (rereadList es)

def rereadList : List Expr → List Expr
  | [] => []
  | e :: es => e.reread :: rereadList es

end

/-! ## The derivation of a text -/

theorem sumDepth_of_operand {k : Nat} {ts : List Token} {e : Expr} (h : OperandDepth k ts e) : SumDepth 0 k ts e :=
  .term (.operand h)

/-- In parentheses the left operand stands one deeper, and the right one two. -/
theorem operandDepth_binary {j k : Nat} {ts us : List Token} {l r : Expr} (op : Operator) (hl : OperandDepth j ts l)
    (hr : OperandDepth k us r) :
    OperandDepth (max (1 + j) (2 + k)) (.openParen :: (ts ++ .operator op.symbol :: us) ++ [.closeParen])
      (.binary l op r) := by
  have hdepth : max j (0 + 1 + k) + 1 = max (1 + j) (2 + k) := by omega
  cases hop : op.isSum with
  | true => exact hdepth ▸ .group (.join (.term (.operand hl)) hop (.operand hr))
  | false => exact hdepth ▸ .group (.term (.join (.operand hl) hop hr))

mutual

theorem operandDepth : ∀ e : Expr, OperandDepth e.cost e.tokens e.reread
  | literal x => by
    rw [cost, tokens, reread]
    split
    · exact .var _
    · exact .number x
  | var name => by
    rw [cost, tokens, reread]
    exact .var name
  | binary l op r => by
    rw [cost, tokens, reread]
    exact operandDepth_binary op (operandDepth l) (operandDepth r)
  | call f es => by
    have hargs := argumentsDepth es
    rw [cost, tokens, reread]
    cases es with
    | nil => exact .constant f
    | cons e es =>
      obtain ⟨k, hk, h⟩ := hargs (by simp)
      rw [hk]
      exact .call f h

theorem argumentsDepth : ∀ es : List Expr, es ≠ [] →
    ∃ k, costList es = k + 1 ∧ ArgumentsDepth k (tokensList es) (rereadList es)
  | [], h => absurd rfl h
  | [e], _ => by
    refine ⟨e.cost, by rw [costList, costList]; omega, ?_⟩
    exact .last (sumDepth_of_operand (operandDepth e))
  | e :: e' :: es, _ => by
    obtain ⟨k, hk, h⟩ := argumentsDepth (e' :: es) (by simp)
    refine ⟨max e.cost k, by rw [costList, hk]; omega, ?_⟩
    rw [tokensList, rereadList]
    exact .more (sumDepth_of_operand (operandDepth e)) h

end

theorem ofTokens_tokens (e : Expr) (limit : Nat) :
    ofTokens limit e.tokens = if e.cost + 1 ≤ limit then .ok e.reread else .error (.tooDeep limit) :=
  ofTokens_of_depth (sumDepth_of_operand e.operandDepth) limit

/-! ## What is lost -/

mutual

/-- Only infinity is lost. -/
theorem same_reread_iff : ∀ e : Expr, e.IsWritable → (e.reread.same e ↔ e.IsFinite)
  | literal x, h => by
    rw [IsWritable, Every] at h
    obtain ⟨hx, -⟩ := h
    rw [reread, IsFinite, Every]
    split
    · next hinf => simp [same, hinf]
    · next hinf =>
      rw [same, beq_self hx]
      exact ⟨fun _ => by omega, fun _ => rfl⟩
  | var name, _ => by
    rw [reread, IsFinite, Every, same]
    simp
  | binary l op r, h => by
    rw [IsWritable, Every] at h
    rw [reread, IsFinite, Every, same, Bool.and_eq_true, Bool.and_eq_true, same_reread_iff l h.1,
      same_reread_iff r h.2]
    simp [IsFinite]
  | call f es, h => by
    rw [IsWritable, Every] at h
    rw [reread, IsFinite, Every, same, Bool.and_eq_true, sameList_rereadList_iff es h.2]
    simp

theorem sameList_rereadList_iff : ∀ es : List Expr, EveryList IsUnsigned IsName es →
    (sameList (rereadList es) es ↔ EveryList (magnitude · < infinity) (fun _ => True) es)
  | [], _ => by
    rw [rereadList, EveryList, sameList]
    simp
  | e :: es, h => by
    rw [EveryList] at h
    rw [rereadList, EveryList, sameList, Bool.and_eq_true, same_reread_iff e h.1, sameList_rereadList_iff es h.2]
    rfl

end

end Expr

end Formula
