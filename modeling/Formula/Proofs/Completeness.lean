import Formula.Proofs.Draft
import Formula.Proofs.Grammar
/-!
# The reader follows the grammar

What the grammar derives is read, and needs exactly the depth of its derivation: `ofTokens_of_depth`.
The proof goes along the derivation. An operand leaves the draft where it stood, a term leaves the sums
of its level alone, and a sum leaves the levels around it alone.
-/

namespace Formula

namespace Draft

/-- From `d` the operand `e` has been read. -/
structure AfterOperand (d : Draft) (e : Expr) (d' : Draft) : Prop where
  operand : d'.phase.operand? = some e
  chain : d'.chain = d.chain
  frames : d'.frames = d.frames

/-- From `d` the term `e`, with `m` products, has been read up to its last operand. -/
structure AfterTerm (d : Draft) (m : Nat) (e : Expr) (d' : Draft) : Prop where
  operand : ∃ o, d'.phase.operand? = some o ∧ d'.chain.term o = e
  chain : d'.chain = { d.chain with products := m, product := d'.chain.product }
  frames : d'.frames = d.frames

/-- From `d` the expression `e`, with `n` sums, has been read up to its last operand. -/
structure AfterSum (d : Draft) (n : Nat) (e : Expr) (d' : Draft) : Prop where
  operand : ∃ o, d'.phase.operand? = some o ∧ d'.chain.expr o = e
  base : d'.chain.base = d.chain.base
  sums : d'.chain.sums = n
  frames : d'.frames = d.frames

end Draft

open Draft

variable {limit : Nat}

mutual

theorem SumDepth.takes {n k : Nat} {ts : List Token} {e : Expr} :
    SumDepth n k ts e → ∀ d : Draft, d.phase = .operand → d.chain = { base := d.chain.base } →
      d.chain.base ≤ limit → d.Takes limit ts (d.chain.base + k) (d.AfterSum n e)
  | .term h => by
    intro d hp hc hd
    have hdepth : d.chain.depth = d.chain.base := by rw [hc]; rfl
    have ht := h.takes d hp (by rw [hc]) (by rw [hc]) (by omega)
    rw [hdepth] at ht
    refine ht.mono fun d' h' => ?_
    obtain ⟨o, ho, he⟩ := h'.operand
    have hc' := h'.chain
    rw [hc] at hc'
    refine ⟨⟨o, ho, ?_⟩, by rw [hc'], by rw [hc'], h'.frames⟩
    rw [Chain.expr, he, hc']; rfl
  | @SumDepth.join n k m k' ts us l r op hl hop hr => by
    intro d hp hc hd
    have ht := hl.takes d hp hc hd
    rw [show d.chain.base + max k (n + 1 + k') = max (d.chain.base + k) (d.chain.base + (n + 1) + k') by omega]
    refine ht.append fun _ d₁ h₁ => ?_
    obtain ⟨o, ho, he⟩ := h₁.operand
    -- A sum ends the products of the term in front of it, so only the sums count from here on.
    have hext : d₁.chain.extend o op = { base := d.chain.base, sums := n + 1, sum := some (l, op) } := by
      rw [Chain.extend_of_isSum hop, h₁.base, h₁.sums, he]
    refine Takes.operator ho ?_ fun hd' => ?_
    · rw [hext]
      exact Nat.le_add_right _ _
    · rw [hext] at hd' ⊢
      refine (hr.takes _ rfl rfl rfl hd').mono fun d₂ h₂ => ?_
      obtain ⟨o₂, ho₂, he₂⟩ := h₂.operand
      refine ⟨⟨o₂, ho₂, ?_⟩, by rw [h₂.chain], by rw [h₂.chain], h₂.frames.trans h₁.frames⟩
      rw [Chain.expr, he₂, h₂.chain]; rfl

theorem TermDepth.takes {m k : Nat} {ts : List Token} {e : Expr} :
    TermDepth m k ts e → ∀ d : Draft, d.phase = .operand → d.chain.products = 0 → d.chain.product = none →
      d.chain.depth ≤ limit → d.Takes limit ts (d.chain.depth + k) (d.AfterTerm m e)
  | .operand h => by
    intro d hp h0 hn hd
    refine (h.takes d hp hd).mono fun d' h' => ?_
    refine ⟨⟨_, h'.operand, ?_⟩, ?_, h'.frames⟩
    · rw [Chain.term, h'.chain, hn]; rfl
    · rw [h'.chain, ← h0]
  | @TermDepth.join m k k' ts us l r op hl hop hr => by
    intro d hp h0 hn hd
    have ht := hl.takes d hp h0 hn hd
    rw [show d.chain.depth + max k (m + 1 + k') = max (d.chain.depth + k) (d.chain.depth + (m + 1) + k') by omega]
    refine ht.append fun _ d₁ h₁ => ?_
    obtain ⟨o, ho, he⟩ := h₁.operand
    have hext : d₁.chain.extend o op = { d.chain with products := m + 1, product := some (l, op) } := by
      rw [Chain.extend_of_not_isSum hop, he, h₁.chain]
    have hdepth : (d₁.chain.extend o op).depth = d.chain.depth + (m + 1) := by
      rw [hext, Chain.depth, Chain.depth, h0]; rfl
    refine Takes.operator ho (by rw [hdepth]; omega) fun hd' => ?_
    rw [← hdepth]
    refine (hr.takes _ rfl hd').mono fun d₂ h₂ => ?_
    refine ⟨⟨_, h₂.operand, ?_⟩, ?_, h₂.frames.trans h₁.frames⟩
    · rw [Chain.term, h₂.chain]
      simp only [hext]; rfl
    · rw [h₂.chain]
      simp only [hext]

theorem OperandDepth.takes {k : Nat} {ts : List Token} {e : Expr} :
    OperandDepth k ts e → ∀ d : Draft, d.phase = .operand → d.chain.depth ≤ limit →
      d.Takes limit ts (d.chain.depth + k) (d.AfterOperand e)
  | .number x => by
    intro d hp hd
    exact .of_push (push_of_phase_operand hp _) hd ⟨rfl, rfl, rfl⟩
  | .var name => by
    intro d hp hd
    exact .of_push (push_of_phase_operand hp _) hd ⟨rfl, rfl, rfl⟩
  | @OperandDepth.group n k ts e h => by
    intro d hp hd
    refine takes_of_checked (push_of_phase_operand hp .openParen) (by simp only [Chain.depth]; omega) rfl fun hd' => ?_
    rw [show d.chain.depth + (k + 1) = max (d.chain.depth + 1 + k) d.chain.depth by omega]
    refine Takes.append (h.takes _ rfl rfl hd') fun _ d₁ h₁ => ?_
    obtain ⟨o, ho, he⟩ := h₁.operand
    exact .of_push (push_closeParen_of_group ho h₁.frames) hd ⟨by rw [he]; rfl, rfl, rfl⟩
  | .constant f => by
    intro d hp hd
    exact .cons_of_push (push_of_phase_operand hp _) (.cons_of_push rfl (.of_push rfl hd ⟨rfl, rfl, rfl⟩))
  | @OperandDepth.call k ts es f h => by
    intro d hp hd
    refine .cons_of_push (push_of_phase_operand hp _) (.cons_of_push rfl ?_)
    -- The level of the arguments opens at their first token, which is not the parenthesis of an empty call.
    have hopens : ∃ t us, ts ++ [.closeParen] = t :: us ∧ t ≠ .closeParen := by
      obtain ⟨t, us, rfl, ht⟩ := h.opens
      exact ⟨t, _, rfl, by rintro rfl; exact ht⟩
    refine takes_of_checked rfl (by simp only [Chain.depth]; omega) (pushAll_of_phase_argument rfl hopens) fun hd' => ?_
    rw [show d.chain.depth + (k + 1) = d.chain.depth + 1 + k by omega]
    exact h.takes _ d f [] rfl rfl rfl hd'

theorem ArgumentsDepth.takes {k : Nat} {ts : List Token} {es : List Expr} :
    ArgumentsDepth k ts es → ∀ (d d₀ : Draft) (f : String) (es₀ : List Expr), d.phase = .operand →
      d.chain = { base := d.chain.base } → d.frames = ⟨.call f es₀, d₀.chain⟩ :: d₀.frames →
      d.chain.base ≤ limit →
      d.Takes limit (ts ++ [.closeParen]) (d.chain.base + k) (d₀.AfterOperand (.call f (es₀.reverse ++ es)))
  | @ArgumentsDepth.last n k ts e h => by
    intro d d₀ f es₀ hp hc hf hd
    rw [show d.chain.base + k = max (d.chain.base + k) d.chain.base by omega]
    refine (h.takes d hp hc hd).append fun _ d₁ h₁ => ?_
    obtain ⟨o, ho, he⟩ := h₁.operand
    refine .of_push (push_closeParen_of_call ho (h₁.frames.trans hf)) hd ⟨?_, rfl, rfl⟩
    rw [he, List.reverse_cons]; rfl
  | @ArgumentsDepth.more n k k' ts us e es h hs => by
    intro d d₀ f es₀ hp hc hf hd
    rw [show d.chain.base + max k k' = max (d.chain.base + k) (d.chain.base + k') by omega, List.append_assoc]
    refine (h.takes d hp hc hd).append fun _ d₁ h₁ => ?_
    obtain ⟨o, ho, he⟩ := h₁.operand
    refine .cons_of_push (push_comma ho (h₁.frames.trans hf)) ?_
    rw [he, h₁.base]
    have ht := hs.takes ⟨{ base := d.chain.base }, ⟨.call f (e :: es₀), d₀.chain⟩ :: d₀.frames, .operand, d₁.calls⟩
      d₀ f (e :: es₀) rfl rfl rfl hd
    rwa [List.reverse_cons, List.append_assoc] at ht

end

/-- A derived expression is read under the limits that allow its depth, and refused under the others. -/
theorem ofTokens_of_depth {n k : Nat} {ts : List Token} {e : Expr} (h : SumDepth n k ts e) (limit : Nat) :
    Expr.ofTokens limit ts = if k + 1 ≤ limit then .ok e else .error (.tooDeep limit) := by
  rw [ofTokens_eq]
  by_cases hlimit : 1 ≤ limit
  · rw [run_of_pos hlimit]
    have ht := h.takes ⟨{ base := 1 }, [], .operand, []⟩ rfl rfl hlimit
    rw [Takes] at ht
    rw [Nat.add_comm k 1]
    split at ht
    · next hk =>
      obtain ⟨d', hd', h'⟩ := ht
      obtain ⟨o, ho, he⟩ := h'.operand
      rw [hd', if_pos hk]
      exact finish_eq_ok_iff.2 ⟨o, ho, h'.frames, he⟩
    · next hk => rw [ht, if_neg hk]; rfl
  · -- Not even the first operand is let in.
    have hstart : start limit = .error (.tooDeep limit) := if_neg hlimit
    rw [run, hstart, if_neg (by omega)]
    rfl

end Formula
