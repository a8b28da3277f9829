import Formula.Proofs.Reading
import Formula.Proofs.RoundTrip
import Formula.Proofs.Spacing
/-!
# Height

The limit counts the depth at which operands stand, which is not the height of the expression. Operators
make the operands behind them deeper, while folding to the left puts the operands in front of them lower
in the tree: the first operand of a chain sinks by one with every operator and is never charged for it.
Where chains begin with a call whose argument begins with such a chain again, the two drift apart at every
level. A limit bounds the height by its square, and some expression attains that: `height_le_limit_iff`.

The same bound holds of what the text of an expression costs (`cost_lt_of_ofTokens`), which no measure of height
exceeds, and the same expressions attain it (`exists_leans`).
-/

namespace Formula

namespace Expr

mutual

/-- The most operations and calls on a path from an expression down to a leaf. -/
def height : Expr → Nat
  | literal _ | var _ => 0
  | binary l _ r => 1 + max l.height r.height
  | call _ es => 1 + heightList es

def heightList : List Expr → Nat
  | [] => 0
  | e :: es => max e.height (heightList es)

end

mutual

/-- The most expressions that stand one in the other, down to one without parts. -/
def nesting : Expr → Nat
  | literal _ | var _ => 1
  | binary l _ r => 1 + max l.nesting r.nesting
  | call _ es => 1 + nestingList es

def nestingList : List Expr → Nat
  | [] => 0
  | e :: es => max e.nesting (nestingList es)

end

mutual

theorem height_le_nesting : ∀ e : Expr, e.height ≤ e.nesting
  | literal _ | var _ => Nat.zero_le _
  | binary l op r => by
    have hl := height_le_nesting l
    have hr := height_le_nesting r
    rw [height, nesting]
    omega
  | call f es => by
    rw [height, nesting]
    exact Nat.add_le_add_left (heightList_le_nestingList es) 1

theorem heightList_le_nestingList : ∀ es : List Expr, heightList es ≤ nestingList es
  | [] => Nat.le_refl _
  | e :: es => by
    have he := height_le_nesting e
    have hes := heightList_le_nestingList es
    rw [heightList, nestingList]
    omega

end

mutual

theorem nesting_le_cost : ∀ e : Expr, e.nesting ≤ e.cost + 1
  | literal _ | var _ => Nat.le_refl _
  | binary l op r => by
    have hl := nesting_le_cost l
    have hr := nesting_le_cost r
    rw [nesting, cost]
    omega
  | call f es => by
    rw [nesting, cost, Nat.add_comm]
    exact Nat.add_le_add_right (nestingList_le_costList es) 1

theorem nestingList_le_costList : ∀ es : List Expr, nestingList es ≤ costList es
  | [] => Nat.le_refl _
  | e :: es => by
    have he := nesting_le_cost e
    have hes := nestingList_le_costList es
    rw [nestingList, costList]
    omega

end

end Expr

/-! ## The bound -/

theorem square_succ (k : Nat) : (k + 1) * (k + 1) = k * k + 2 * k + 1 := by
  simp only [Nat.add_mul, Nat.mul_add]
  omega

/-- What stands in a chain is no deeper than the chain, nor are the squares of the depths. -/
theorem exists_max_squares (k k' n : Nat) : ∃ j, max k (n + 1 + k') = j ∧ k ≤ j ∧ n + 1 + k' ≤ j ∧
    k * k ≤ j * j ∧ k' * k' + 2 * k' + 1 ≤ j * j := by
  refine ⟨_, rfl, Nat.le_max_left _ _, Nat.le_max_right _ _, Nat.mul_self_le_mul_self (by omega), ?_⟩
  rw [← square_succ]
  exact Nat.mul_self_le_mul_self (by omega)

theorem cost_binary_le {l r : Expr} (op : Operator) {b : Nat} (hl : 1 + l.cost ≤ b) (hr : 2 + r.cost ≤ b) :
    (Expr.binary l op r).cost ≤ b := by
  rw [Expr.cost]
  omega

mutual

/-- Every term behind the first costs one in depth and puts the terms in front of it into parentheses. -/
theorem SumDepth.cost_le {n k : Nat} {ts : List Token} {e : Expr} :
    SumDepth n k ts e → n ≤ k ∧ e.cost ≤ k * k + k + n
  | .term h => by
    obtain ⟨hm, hc⟩ := h.cost_le
    exact ⟨Nat.zero_le _, by omega⟩
  | @SumDepth.join n k m k' _ _ _ _ _ hl _ hr => by
    obtain ⟨hn, hlc⟩ := hl.cost_le
    obtain ⟨hm, hrc⟩ := hr.cost_le
    obtain ⟨j, hj, hk, hk', hsquare, hsquare'⟩ := exists_max_squares k k' n
    rw [hj]
    -- The terms so far sink by one, the new one cannot come so low.
    exact ⟨by omega, cost_binary_le _ (by omega) (by omega)⟩

theorem TermDepth.cost_le {m k : Nat} {ts : List Token} {e : Expr} :
    TermDepth m k ts e → m ≤ k ∧ e.cost ≤ k * k + m
  | .operand h => ⟨Nat.zero_le _, h.cost_le⟩
  | @TermDepth.join m k k' _ _ _ _ _ hl _ hr => by
    obtain ⟨hm, hlc⟩ := hl.cost_le
    have hrc := hr.cost_le
    obtain ⟨j, hj, hk, hk', hsquare, hsquare'⟩ := exists_max_squares k k' m
    rw [hj]
    exact ⟨by omega, cost_binary_le _ (by omega) (by omega)⟩

theorem OperandDepth.cost_le {k : Nat} {ts : List Token} {e : Expr} :
    OperandDepth k ts e → e.cost ≤ k * k
  | .number _ | .var _ | .constant _ => Nat.zero_le _
  | @OperandDepth.group n k _ _ h => by
    obtain ⟨hn, hc⟩ := h.cost_le
    have := square_succ k
    omega
  | .call _ h => h.cost_le

theorem ArgumentsDepth.cost_le {k : Nat} {ts : List Token} {es : List Expr} :
    ArgumentsDepth k ts es → Expr.costList es ≤ (k + 1) * (k + 1)
  | @ArgumentsDepth.last n k _ _ h => by
    obtain ⟨hn, hc⟩ := h.cost_le
    have := square_succ k
    rw [Expr.costList, Expr.costList]
    omega
  | @ArgumentsDepth.more n k k' _ _ _ _ h hs => by
    obtain ⟨hn, hc⟩ := h.cost_le
    have hcs := hs.cost_le
    have hk : (k + 1) * (k + 1) ≤ (max k k' + 1) * (max k k' + 1) := Nat.mul_self_le_mul_self (by omega)
    have hk' : (k' + 1) * (k' + 1) ≤ (max k k' + 1) * (max k k' + 1) := Nat.mul_self_le_mul_self (by omega)
    have := square_succ k
    rw [Expr.costList]
    omega

end

/-- The text of an expression costs less than the square of the limit. -/
theorem cost_lt_of_ofTokens {limit : Nat} {ts : List Token} {e : Expr} (h : Expr.ofTokens limit ts = .ok e) :
    e.cost < limit * limit := by
  obtain ⟨n, k, hd, hk⟩ := ofTokens_eq_ok_iff_depth.1 h
  obtain ⟨hn, hc⟩ := hd.cost_le
  have hsquare := Nat.mul_self_le_mul_self hk
  have := square_succ k
  omega

theorem nesting_le_of_ofTokens {limit : Nat} {ts : List Token} {e : Expr} (h : Expr.ofTokens limit ts = .ok e) :
    e.nesting ≤ limit * limit :=
  Nat.le_trans e.nesting_le_cost (cost_lt_of_ofTokens h)

theorem height_le_of_ofTokens {limit : Nat} {ts : List Token} {e : Expr} (h : Expr.ofTokens limit ts = .ok e) :
    e.height ≤ limit * limit :=
  Nat.le_trans e.height_le_nesting (nesting_le_of_ofTokens h)

/-! ## Expressions as high as that -/

/-- `n` expressions stand one in the other, each at the beginning of the one around it, down to a call without
arguments. -/
inductive Expr.Leans : Nat → Expr → Prop
  | constant (f) : Leans 1 (.call f [])
  | left {n l} (op r) : Leans n l → Leans (n + 1) (.binary l op r)
  | argument {n e} (f es) : Leans n e → Leans (n + 1) (.call f (e :: es))

theorem Expr.Leans.le_height {n : Nat} {e : Expr} (h : e.Leans n) : n ≤ e.height := by
  induction h with
  | constant f => exact Nat.le_refl 1
  | left op r _ ih =>
    rw [height]
    omega
  | argument f es _ ih =>
    rw [height, heightList]
    omega

/-- Tokens that can be written, of an expression that leans. -/
structure Leaning (n : Nat) (ts : List Token) (e : Expr) : Prop where
  isWritable : ∀ t ∈ ts, t.IsWritable
  leans : e.Leans n

section

variable {x : String} {n m k : Nat} {ts : List Token} {e : Expr}

theorem Leaning.join (h : Leaning n ts e) (hx : IsName x) (op : Operator) :
    Leaning (n + 1) (ts ++ .operator op.symbol :: [.identifier x]) (.binary e op (.var x)) := by
  refine ⟨?_, h.leans.left op (.var x)⟩
  simp only [List.forall_mem_append, List.forall_mem_cons]
  exact ⟨h.isWritable, ⟨op, rfl⟩, hx, List.forall_mem_nil _⟩

theorem Leaning.call (h : Leaning n ts e) (hx : IsName x) :
    Leaning (n + 1) (.identifier x :: .openParen :: ts ++ [.closeParen]) (.call x [e]) := by
  refine ⟨?_, h.leans.argument x []⟩
  simp only [List.forall_mem_append, List.forall_mem_cons]
  exact ⟨⟨hx, trivial, h.isWritable⟩, trivial, List.forall_mem_nil _⟩

/-- Up to the depth of the first operand, further operands come without depth. -/
theorem OperandDepth.exists_term (h : OperandDepth k ts e) (hleaning : Leaning n ts e) (hx : IsName x) (hm : m ≤ k) :
    ∃ us e', TermDepth m k us e' ∧ Leaning (n + m) us e' := by
  induction m with
  | zero => exact ⟨ts, e, .operand h, hleaning⟩
  | succ m ih =>
    obtain ⟨us, e', ht, hl⟩ := ih (by omega)
    have hj := @TermDepth.join _ _ _ _ _ _ _ .multiply ht rfl (.var x)
    rw [Nat.max_eq_left (by omega)] at hj
    exact ⟨_, _, hj, hl.join hx .multiply⟩

theorem TermDepth.exists_sum (h : TermDepth m k ts e) (hleaning : Leaning n ts e) (hx : IsName x) {i : Nat}
    (hi : i ≤ k) : ∃ us e', SumDepth i k us e' ∧ Leaning (n + i) us e' := by
  induction i with
  | zero => exact ⟨ts, e, .term h, hleaning⟩
  | succ i ih =>
    obtain ⟨us, e', hs, hl⟩ := ih (by omega)
    have hj := @SumDepth.join _ _ _ _ _ _ _ _ .add hs rfl (.operand (.var x))
    rw [Nat.max_eq_left (by omega)] at hj
    exact ⟨_, _, hj, hl.join hx .add⟩

end

theorem exists_leans (k : Nat) : ∃ n ts e, SumDepth n k ts e ∧ Leaning ((k + 1) * (k + 1)) ts e := by
  have hx : IsName "x" := isName_x
  induction k with
  | zero =>
    refine ⟨0, _, _, .term (.operand (.constant "x")), ?_, .constant "x"⟩
    simp only [List.forall_mem_cons]
    exact ⟨hx, trivial, trivial, List.forall_mem_nil _⟩
  | succ k ih =>
    -- The expression so far as the argument of a call, which then begins a chain of products and sums.
    obtain ⟨n, ts, e, h, hl⟩ := ih
    obtain ⟨us, e', ht, hl⟩ := (OperandDepth.call "x" (.last h)).exists_term (hl.call hx) hx (Nat.le_refl _)
    obtain ⟨vs, e'', hs, hl⟩ := ht.exists_sum hl hx (Nat.le_refl _)
    have hsquare : (k + 1) * (k + 1) + 1 + (k + 1) + (k + 1) = (k + 1 + 1) * (k + 1 + 1) := by
      rw [square_succ (k + 1)]
      omega
    exact ⟨_, _, _, hs, hsquare ▸ hl⟩

theorem exists_height_eq (k : Nat) : ∃ n ts e, SumDepth n k ts e ∧ e.height = (k + 1) * (k + 1) := by
  obtain ⟨n, ts, e, hd, hl⟩ := exists_leans k
  have hread := ofTokens_eq_ok_iff_depth.2 ⟨n, k, hd, Nat.le_refl _⟩
  exact ⟨n, ts, e, hd, Nat.le_antisymm (height_le_of_ofTokens hread) hl.leans.le_height⟩

/-- An expression that is accepted and leans as far as it can costs as much as it can. -/
theorem cost_eq_of_leaning {limit : Nat} {ts : List Token} {e : Expr} (h : Expr.ofTokens limit ts = .ok e)
    (hl : Leaning (limit * limit) ts e) : e.nesting = limit * limit ∧ e.cost + 1 = limit * limit := by
  have hbound := cost_lt_of_ofTokens h
  have hheight := hl.leans.le_height
  have hnesting := e.height_le_nesting
  have hcost := e.nesting_le_cost
  omega

theorem exists_ofTokens_leaning {limit : Nat} (h : 0 < limit) :
    ∃ ts e, Expr.ofTokens limit ts = .ok e ∧ Leaning (limit * limit) ts e := by
  obtain ⟨k, rfl⟩ := Nat.exists_eq_add_of_le' h
  obtain ⟨n, ts, e, hd, hl⟩ := exists_leans k
  exact ⟨ts, e, ofTokens_eq_ok_iff_depth.2 ⟨n, k, hd, Nat.le_refl _⟩, hl⟩

/-! ## Main theorem -/

/-- The square of the limit is the greatest height of an expression that is accepted, and the limit itself
is a bound just for limits up to one. -/
theorem height_le_limit_iff (limit : Nat) :
    (∀ ts e, Expr.ofTokens limit ts = .ok e → e.height ≤ limit * limit) ∧
    (0 < limit → ∃ ts e, Expr.ofTokens limit ts = .ok e ∧ e.height = limit * limit) ∧
    ((∀ ts e, Expr.ofTokens limit ts = .ok e → e.height ≤ limit) ↔ limit ≤ 1) := by
  have hbound : ∀ ts e, Expr.ofTokens limit ts = .ok e → e.height ≤ limit * limit := fun _ _ => height_le_of_ofTokens
  have hattained : 0 < limit → ∃ ts e, Expr.ofTokens limit ts = .ok e ∧ e.height = limit * limit := by
    intro hpos
    obtain ⟨k, rfl⟩ := Nat.exists_eq_add_of_le' hpos
    obtain ⟨n, ts, e, h, hh⟩ := exists_height_eq k
    exact ⟨ts, e, ofTokens_eq_ok_iff_depth.2 ⟨n, k, h, Nat.le_refl _⟩, hh⟩
  refine ⟨hbound, hattained, fun h => ?_, fun hlimit ts e he => ?_⟩
  · refine Nat.le_of_not_lt fun hlimit => ?_
    obtain ⟨ts, e, he, hh⟩ := hattained (by omega)
    have := h ts e he
    have : 2 * limit ≤ limit * limit := Nat.mul_le_mul_right limit (by omega)
    omega
  · have := hbound ts e he
    have : limit * limit ≤ 1 * limit := Nat.mul_le_mul_right limit hlimit
    omega

/-- Under the limit two, `f(1) * 2 + 3` is accepted: two operators and a call stand above the one. -/
theorem not_height_le_limit :
    ∃ e, Expr.ofTokens 2 [.identifier "f", .openParen, .number 1, .closeParen, .operator '*', .number 2,
      .operator '+', .number 3] = .ok e ∧ ¬ e.height ≤ 2 :=
  ⟨_, rfl, by decide⟩

end Formula
