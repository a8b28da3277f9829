import Formula.Proofs.Reading
import Formula.Proofs.Tail
/-!
# Tokens that can go on

Tokens are viable if some expression begins with them. A draft can always be completed, so the tokens that a
reader gets past are the viable ones (`Draft.isViable_of_run`, `Draft.exists_run_of_isViable`). How an expression
goes on behind viable tokens is then told by the draft they lead to: it needs an operand, or it is
complete up to an open parenthesis, or as a whole.
-/

namespace Formula

/-- Some expression begins with the tokens. -/
def IsViable (ts : List Token) : Prop := ∃ us e, IsSum (ts ++ us) e

/-- An operand has to come: expressions go on with a token that begins one. Only the parentheses of a
call may instead be closed at once. -/
def AwaitsOperand (ts : List Token) : Prop :=
  ∀ t, IsViable (ts ++ [t]) → t.Opens ∨ t = .closeParen ∧ ∃ us f, ts = us ++ [.identifier f, .openParen]

/-- All that stands behind the last open parenthesis, or behind the last comma in it, is an expression. -/
def EndsInside (ts : List Token) : Prop :=
  ∃ us t vs e, ts = us ++ t :: vs ∧ (t = .openParen ∨ t = .comma) ∧ IsSum vs e

theorem IsViable.of_append {ts us : List Token} (h : IsViable (ts ++ us)) : IsViable ts := by
  obtain ⟨vs, e, h⟩ := h
  rw [List.append_assoc] at h
  exact ⟨us ++ vs, e, h⟩

theorem IsViable.take {ts : List Token} (h : IsViable ts) (n : Nat) : IsViable (ts.take n) := by
  rw [← List.take_append_drop n ts] at h
  exact h.of_append

/-! ## Viable tokens are those a reader gets past -/

namespace Draft

variable {limit : Nat} {d d' : Draft} {t : Token} {ts us : List Token} {e : Expr}

theorem exists_finish_of_push (h : d.push limit t = .ok d')
    (h' : ∃ us e, (d'.pushAll limit us >>= finish limit) = .ok e) :
    ∃ us e, (d.pushAll limit us >>= finish limit) = .ok e := by
  obtain ⟨us, e, h'⟩ := h'
  exact ⟨t :: us, e, by rwa [pushAll_cons_of_push h]⟩

theorem opens_of_pushOperand (h : d.pushOperand limit t = .ok d') : t.Opens := by
  cases t with
  | number _ | identifier _ | openParen => trivial
  | closeParen | comma | operator _ => cases h

/-- Behind an operand only the open levels have to be closed, and that takes no depth. -/
theorem exists_finish_of_operand? (fs : List Frame) (hf : d.frames = fs) (h : d.phase.operand? = some e) :
    ∃ us e, (d.pushAll limit us >>= finish limit) = .ok e := by
  induction fs generalizing d e with
  | nil => exact ⟨[], d.chain.expr e, finish_eq_ok_iff.2 ⟨e, h, hf, rfl⟩⟩
  | cons f fs ih =>
    obtain ⟨opener, c⟩ := f
    cases opener with
    | group => exact exists_finish_of_push (push_closeParen_of_group h hf) (ih rfl rfl)
    | call f es => exact exists_finish_of_push (push_closeParen_of_call h hf) (ih rfl rfl)

theorem exists_finish (limit : Nat) (d : Draft) : ∃ us e, (d.pushAll limit us >>= finish limit) = .ok e := by
  cases hp : d.phase with
  | operand => exact exists_finish_of_push (push_of_phase_operand hp (.number 0)) (exists_finish_of_operand? _ rfl rfl)
  | argument f =>
    have hpush : d.push limit .closeParen = .ok (d.close f []) := by simp only [push, hp]
    exact exists_finish_of_push hpush (exists_finish_of_operand? _ rfl rfl)
  | name x | complete e => exact exists_finish_of_operand? _ rfl (by rw [hp]; rfl)

theorem exists_run_of_append (h : run limit (ts ++ us) = .ok d) : ∃ d', run limit ts = .ok d' := by
  rw [run_append] at h
  obtain ⟨d', hrun, _⟩ := bind_eq_ok.1 h
  exact ⟨d', hrun⟩

theorem exists_ofTokens_of_run (h : run limit ts = .ok d) : ∃ us e, Expr.ofTokens limit (ts ++ us) = .ok e := by
  obtain ⟨us, e, hfinish⟩ := d.exists_finish limit
  refine ⟨us, e, ?_⟩
  rw [ofTokens_eq, run_append_of_run h]
  exact hfinish

theorem exists_run_of_ofTokens (h : Expr.ofTokens limit (ts ++ us) = .ok e) : ∃ d, run limit ts = .ok d := by
  rw [ofTokens_eq] at h
  obtain ⟨d, hrun, -⟩ := bind_eq_ok.1 h
  exact exists_run_of_append hrun

theorem isViable_of_run (h : run limit ts = .ok d) : IsViable ts := by
  obtain ⟨us, e, hread⟩ := exists_ofTokens_of_run h
  exact ⟨us, e, isSum_of_ofTokens hread⟩

theorem exists_run_of_isViable (hlimit : ts.length + 1 ≤ limit) (h : IsViable ts) : ∃ d, run limit ts = .ok d := by
  obtain ⟨us, e, h⟩ := h
  -- The whole expression may need a higher limit, but the tokens do not.
  have hread := ofTokens_of_isSum (Nat.le_add_left _ limit) h
  obtain ⟨d', hd'⟩ := exists_run_of_ofTokens hread
  exact ⟨d', ((cuts_run ts).eq_of_le hlimit (Nat.le_add_right_of_le hlimit)).trans hd'⟩

/-- Above the number of tokens the draft does not depend on the limit. -/
theorem run_of_le {limit' : Nat} (hlimit : ts.length + 1 ≤ limit) (hle : limit ≤ limit') (h : run limit ts = .ok d) :
    run limit' ts = .ok d :=
  ((cuts_run ts).eq_of_le (Nat.le_trans hlimit hle) hlimit).trans h

/-! ## What the tokens so far ask for -/

/-- Behind an operand there may be an operator. -/
theorem isViable_operator (hlimit : ts.length + 1 ≤ limit) (h : run limit ts = .ok d) (ho : d.phase.operand? = some e)
    (op : Operator) : IsViable (ts ++ [.operator op.symbol]) := by
  let next : Draft := { d with chain := d.chain.extend e op, phase := .operand }
  have hpush : d.push (limit + next.chain.depth) (.operator op.symbol) = .ok next :=
    (push_operator ho).trans (if_pos (Nat.le_add_left _ _))
  have hrun := run_append_of_run (run_of_le hlimit (Nat.le_add_right limit next.chain.depth) h) [.operator op.symbol]
  rw [pushAll_singleton, hpush] at hrun
  exact isViable_of_run hrun

theorem opens_of_push (ho : d.phase.operand? = none) (h : d.push limit t = .ok d') :
    t.Opens ∨ t = .closeParen ∧ ∃ f, d.phase = .argument f := by
  obtain ⟨k, hk, hpush⟩ := d.exists_reads t
  rw [hpush] at h
  cases hk with
  | operand _ t => exact .inl (opens_of_pushOperand h)
  | constant f hp => exact .inr ⟨rfl, f, hp⟩
  | argument f _ _ =>
    obtain ⟨d₁, _, h⟩ := bind_eq_ok.1 h
    exact .inl (opens_of_pushOperand h)
  | function f hp => rw [hp] at ho; cases ho
  | complete ho' t => rw [ho'] at ho; cases ho

theorem awaitsOperand_iff (hlimit : ts.length + 1 ≤ limit) (h : run limit ts = .ok d) :
    AwaitsOperand ts ↔ d.phase.operand? = none := by
  constructor
  · intro hawaits
    refine Option.eq_none_iff_forall_not_mem.2 fun e ho => ?_
    rcases hawaits _ (isViable_operator hlimit h ho .add) with ht | ⟨ht, -⟩
    · exact ht.elim
    · cases ht
  · intro ho t ht
    have hnext : (ts ++ [t]).length + 1 ≤ limit + 1 := by simpa using hlimit
    obtain ⟨d', hrun⟩ := exists_run_of_isViable hnext ht
    rw [run_append_of_run (run_of_le hlimit (Nat.le_succ limit) h), pushAll_singleton] at hrun
    rcases opens_of_push ho hrun with ht | ⟨ht, f, hp⟩
    · exact .inl ht
    · obtain ⟨us, hus⟩ := (holds_of_run h).getLast?_of_phase_argument hp
      exact .inr ⟨ht, us, f, hus⟩

theorem exists_isSum_iff (hlimit : ts.length + 1 ≤ limit) (h : run limit ts = .ok d) :
    (∃ e, IsSum ts e) ↔ (∃ e, d.phase.operand? = some e) ∧ d.frames = [] := by
  constructor
  · rintro ⟨e, he⟩
    have hread := ofTokens_of_isSum hlimit he
    rw [ofTokens_eq, h] at hread
    obtain ⟨o, ho, hf, -⟩ := finish_eq_ok_iff.1 hread
    exact ⟨⟨o, ho⟩, hf⟩
  · rintro ⟨⟨e, ho⟩, hf⟩
    exact ⟨_, isSum_of_operand? (holds_of_run h) ho hf⟩

theorem endsInside_iff (h : run limit ts = .ok d) :
    EndsInside ts ↔ (∃ e, d.phase.operand? = some e) ∧ d.frames ≠ [] := by
  have hd := holds_of_run h
  constructor
  · rintro ⟨us, t, vs, e, rfl, ht, hs⟩
    obtain ⟨u, hu, hcloses⟩ := hs.closes
    obtain ⟨o, ho⟩ := hd.closes_iff.1 ⟨u, by simp [List.getLast?_cons, hu], hcloses⟩
    refine ⟨⟨o, ho⟩, fun hframes => ?_⟩
    -- The parenthesis in front of the expression is open, and the expression closes none but its own.
    rw [List.append_cons] at h hd
    obtain ⟨d₁, hd₁⟩ := exists_run_of_append h
    have hlt := (holds_of_run hd₁).count_lt ht
    have hcount := hd.count_parens
    simp only [List.count_append, hs.count_parens, hframes, Phase.ahead_of_operand? ho, List.length_nil] at hcount hlt
    omega
  · rintro ⟨⟨e, ho⟩, hframes⟩
    obtain ⟨us, vs, hus, hs, rfl⟩ := hd.exists_isSum ho
    obtain ⟨f, fs, hf⟩ := List.exists_cons_of_ne_nil hframes
    rw [hf] at hus
    obtain ⟨us₁, us₂, us₃, -, -, hopener, rfl⟩ := hus
    obtain ⟨t, hlast, ht⟩ := hopener.getLast?
    obtain ⟨us₄, rfl⟩ := List.getLast?_eq_some_iff.1 hlast
    exact ⟨us₁ ++ us₂ ++ us₄, t, vs, _, by simp, ht, hs⟩

end Draft

end Formula
