import Formula.Expr.Walk
/-!
# Room for calls

The functions of a walk are told how many calls and rounds may be open at a time. That decides no more than whether they
end: what has ended ends alike with more room, `Steps.run_of_le`. Additions and multiplications, which differ in their
symbols and parts only, are treated as one (`Walk.IsChain`), here and wherever walks are reasoned about.
-/

namespace Formula

namespace Steps

/-! ## What comes of steps -/

variable {α β : Type} {x y : Steps α} {f g : α → Steps β} {s s' : Trail}

theorem run_bind_of_ok {a : α} (h : x.run.run s = some (.ok a, s')) : (x >>= f).run.run s = (f a).run.run s' := by
  rw [ExceptT.run_bind, StateT.run_bind, h]
  rfl

theorem run_bind_of_error {stop : Stop} (h : x.run.run s = some (.error stop, s')) :
    (x >>= f).run.run s = some (.error stop, s') := by
  rw [ExceptT.run_bind, StateT.run_bind, h]
  rfl

theorem run_bind_of_none (h : x.run.run s = none) : (x >>= f).run.run s = none := by
  rw [ExceptT.run_bind, StateT.run_bind, h]
  rfl

/-- Wherever `x` ends, `y` ends with the same. -/
def Below (x y : Steps α) : Prop := ∀ s res, x.run.run s = some res → y.run.run s = some res

namespace Below

theorem refl (x : Steps α) : Below x x := fun _ _ h => h

theorem unfinished : Below unfinished y := by
  intro s res h
  cases h

theorem bind (hx : Below x y) (hf : ∀ a, Below (f a) (g a)) : Below (x >>= f) (y >>= g) := by
  intro s res h
  cases hrun : x.run.run s with
  | none =>
    rw [run_bind_of_none hrun] at h
    cases h
  | some res₁ =>
    obtain ⟨r, s'⟩ := res₁
    cases r with
    | error stop =>
      rw [run_bind_of_error hrun] at h
      rw [run_bind_of_error (hx s _ hrun), h]
    | ok a =>
      rw [run_bind_of_ok hrun] at h
      rw [run_bind_of_ok (hx s _ hrun)]
      exact hf a s' res h

end Below

/-- If one more never makes a difference, any number more does not. -/
theorem run_of_le {x : Nat → Steps α} (hx : ∀ n, Below (x n) (x (n + 1))) {res : Except Stop α × Trail} {m n : Nat}
    (hle : m ≤ n) (h : (x m).run.run s = some res) : (x n).run.run s = some res := by
  induction hle with
  | refl => exact h
  | step _ ih => exact hx _ s res ih

end Steps

namespace Walk

open Steps

variable {w : Walk}

/-! ## Chains -/

/-- An addition or a multiplication: a part, the loop over the parts behind it, and the depth that has been kept. -/
structure IsChain (w : Walk) (symbols : List Char) (part chain : Nat → Steps Expr) (loop : Nat → Expr → Steps Expr) :
    Prop where
  chain_succ : ∀ n, chain (n + 1) = do
    let c ← counters
    let e ← part n
    let e ← loop n e
    restore c.depth
    return e
  loop_zero : ∀ e, loop 0 e = unfinished
  loop_succ : ∀ n e, loop (n + 1) e = do
    match ← w.operator? symbols with
    | none => return e
    | some op =>
      w.descend
      let r ← part n
      loop n (.binary e op r)

theorem isChain_addition (w : Walk) : w.IsChain Descent.sumSymbols w.multiplication w.addition w.sums :=
  ⟨fun _ => rfl, fun _ => rfl, fun _ _ => rfl⟩

theorem isChain_multiplication (w : Walk) : w.IsChain Descent.productSymbols w.operand w.multiplication w.products :=
  ⟨fun _ => rfl, fun _ => rfl, fun _ _ => rfl⟩

namespace IsChain

variable {symbols : List Char} {part chain : Nat → Steps Expr} {loop : Nat → Expr → Steps Expr}

theorem loop_below (hc : w.IsChain symbols part chain loop) : ∀ n : Nat,
    (∀ m ≤ n, Below (part m) (part (m + 1))) → ∀ e, Below (loop n e) (loop (n + 1) e)
  | 0, _, e => by
    rw [hc.loop_zero]
    exact .unfinished
  | n + 1, hpart, e => by
    rw [hc.loop_succ n, hc.loop_succ (n + 1)]
    refine .bind (.refl _) fun op => ?_
    cases op with
    | none => exact .refl _
    | some op =>
      refine .bind (.refl _) fun _ => .bind (hpart n (Nat.le_succ n)) fun r => ?_
      exact loop_below hc n (fun m hm => hpart m (Nat.le_succ_of_le hm)) _

theorem chain_below (hc : w.IsChain symbols part chain loop) (n : Nat)
    (hpart : ∀ m ≤ n, Below (part m) (part (m + 1))) : Below (chain (n + 1)) (chain (n + 2)) := by
  rw [hc.chain_succ n, hc.chain_succ (n + 1)]
  refine .bind (.refl _) fun c => .bind (hpart n (Nat.le_refl n)) fun e => ?_
  exact .bind (hc.loop_below n hpart e) fun _ => .refl _

end IsChain

/-! ## More room -/

mutual

theorem expression_below (w : Walk) : ∀ n : Nat, Below (w.expression n) (w.expression (n + 1))
  | 0 => .unfinished
  | n + 1 => .bind (.refl _) fun _ => .bind (addition_below w n) fun _ => .refl _

theorem addition_below (w : Walk) : ∀ n : Nat, Below (w.addition n) (w.addition (n + 1))
  | 0 => .unfinished
  | n + 1 => (isChain_addition w).chain_below n fun m _ => multiplication_below w m

theorem multiplication_below (w : Walk) : ∀ n : Nat, Below (w.multiplication n) (w.multiplication (n + 1))
  | 0 => .unfinished
  | n + 1 => (isChain_multiplication w).chain_below n fun m _ => operand_below w m

theorem operand_below (w : Walk) : ∀ n : Nat, Below (w.operand n) (w.operand (n + 1))
  | 0 => .unfinished
  | n + 1 => by
    refine .bind (.refl _) fun t => ?_
    split
    · exact .refl _
    · refine .bind (.refl _) fun t => ?_
      split
      · exact .bind (.refl _) fun _ => call_below w n _
      · exact .refl _
    · exact .bind (expression_below w n) fun _ => .refl _
    · exact .refl _
    · exact .refl _

theorem call_below (w : Walk) : ∀ (n : Nat) (f : String), Below (w.call n f) (w.call (n + 1) f)
  | 0, _ => .unfinished
  | n + 1, f => by
    refine .bind (.refl _) fun t => ?_
    split
    · exact .refl _
    · exact .bind (arguments_below w n []) fun _ => .refl _

theorem arguments_below (w : Walk) : ∀ (n : Nat) (es : List Expr), Below (w.arguments n es) (w.arguments (n + 1) es)
  | 0, _ => .unfinished
  | n + 1, es => by
    refine .bind (expression_below w n) fun e => .bind (.refl _) fun t => ?_
    split
    · exact .bind (.refl _) fun _ => arguments_below w n _
    · exact .refl _

end

theorem read_below (w : Walk) (n : Nat) : Below (w.read n) (w.read (n + 1)) :=
  .bind (expression_below w n) fun _ => .refl _

end Walk

end Formula
