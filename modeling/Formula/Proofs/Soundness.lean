import Formula.Proofs.Draft
import Formula.Proofs.Grammar
/-!
# What is read is in the grammar

A draft accounts for the tokens it has read, each of them once and in their order: `Draft.Holds d ts`.
The levels around it hold those up to their parentheses, its own level those of the operations that
wait, and its phase the last operand. Every push keeps the account (`holds_of_push`), so the expression
at the end is derived from all the tokens: `isSum_of_ofTokens`.
-/

namespace Formula

inductive SumHolds : Option (Expr × Operator) → List Token → Prop
  | none : SumHolds none []
  | some {ts l} {op : Operator} : IsSum ts l → op.isSum → SumHolds (some (l, op)) (ts ++ [.operator op.symbol])

inductive ProductHolds : Option (Expr × Operator) → List Token → Prop
  | none : ProductHolds none []
  | some {ts l} {op : Operator} : IsTerm ts l → op.isSum = false →
    ProductHolds (some (l, op)) (ts ++ [.operator op.symbol])

def Chain.Holds (c : Chain) (ts : List Token) : Prop :=
  ∃ us vs, SumHolds c.sum us ∧ ProductHolds c.product vs ∧ ts = us ++ vs

/-- The arguments in front of the current one, the last of them first, each with its comma. -/
inductive ArgumentsHold : List Expr → List Token → Prop
  | nil : ArgumentsHold [] []
  | cons {ts us e es} : ArgumentsHold es ts → IsSum us e → ArgumentsHold (e :: es) (ts ++ us ++ [.comma])

inductive Opener.Holds : Opener → List Token → Prop
  | group : Opener.group.Holds [.openParen]
  | call {ts es} (f) : ArgumentsHold es ts → (Opener.call f es).Holds (.identifier f :: .openParen :: ts)

def FramesHold : List Frame → List Token → Prop
  | [], ts => ts = []
  | f :: fs, ts => ∃ us vs ws, FramesHold fs us ∧ f.chain.Holds vs ∧ f.opener.Holds ws ∧ ts = us ++ vs ++ ws

inductive Phase.Holds : Phase → List Token → Prop
  | operand : Phase.operand.Holds []
  | argument (f) : (Phase.argument f).Holds [.identifier f, .openParen]
  | name (x) : (Phase.name x).Holds [.identifier x]
  | complete {ts e} : IsOperand ts e → (Phase.complete e).Holds ts

/-- The draft is what the tokens make. -/
def Draft.Holds (d : Draft) (ts : List Token) : Prop :=
  ∃ us vs ws, FramesHold d.frames us ∧ d.chain.Holds vs ∧ d.phase.Holds ws ∧ ts = us ++ vs ++ ws

/-! ## Putting pieces together -/

theorem Chain.holds_fresh (b : Nat) : ({ base := b } : Chain).Holds [] := ⟨[], [], .none, .none, rfl⟩

theorem ProductHolds.isTerm {p : Option (Expr × Operator)} {ts us : List Token} {e : Expr} (h : ProductHolds p ts)
    (he : IsOperand us e) : IsTerm (ts ++ us) (Chain.join p e) := by
  cases h with
  | none => exact .operand he
  | some hl hop => rw [List.append_assoc]; exact .join hl hop he

theorem SumHolds.isSum {s : Option (Expr × Operator)} {ts us : List Token} {e : Expr} (h : SumHolds s ts)
    (he : IsTerm us e) : IsSum (ts ++ us) (Chain.join s e) := by
  cases h with
  | none => exact .term he
  | some hl hop => rw [List.append_assoc]; exact .join hl hop he

/-- The whole level is an expression, once its last operand is there. -/
theorem Chain.Holds.isSum {c : Chain} {ts us : List Token} {e : Expr} (h : c.Holds ts) (he : IsOperand us e) :
    IsSum (ts ++ us) (c.expr e) := by
  obtain ⟨ss, ps, hs, hp, rfl⟩ := h
  rw [List.append_assoc]
  exact hs.isSum (hp.isTerm he)

theorem Chain.Holds.extend {c : Chain} {ts us : List Token} {e : Expr} (h : c.Holds ts) (he : IsOperand us e)
    (op : Operator) : (c.extend e op).Holds (ts ++ us ++ [.operator op.symbol]) := by
  cases hop : op.isSum with
  | true =>
    rw [extend_of_isSum hop]
    exact ⟨_, [], .some (h.isSum he) hop, .none, by simp⟩
  | false =>
    obtain ⟨ss, ps, hs, hp, rfl⟩ := h
    rw [extend_of_not_isSum hop]
    exact ⟨ss, _, hs, .some (hp.isTerm he) hop, by simp⟩

theorem ArgumentsHold.isArguments {es es' : List Expr} {ts us : List Token} (h : ArgumentsHold es ts)
    (h' : IsArguments us es') : IsArguments (ts ++ us) (es.reverse ++ es') := by
  induction h generalizing es' us with
  | nil => exact h'
  | cons _ he ih =>
    rw [List.reverse_cons, List.append_assoc, List.append_assoc, List.append_assoc]
    exact ih (.more he h')

theorem Phase.Holds.isOperand {p : Phase} {ts : List Token} {e : Expr} (h : p.Holds ts) (ho : p.operand? = some e) :
    IsOperand ts e := by
  cases h with
  | operand | argument _ => cases ho
  | name x => cases ho; exact .var x
  | complete he => cases ho; exact he

/-! ## A push keeps the account -/

namespace Draft

variable {limit : Nat} {d d' : Draft} {t : Token} {ts us vs : List Token} {e : Expr}

theorem holds_of_pushOperand (hf : FramesHold d.frames ts) (hc : d.chain.Holds us)
    (h : d.pushOperand limit t = .ok d') : d'.Holds (ts ++ us ++ [t]) := by
  cases t with
  | number x => cases h; exact ⟨ts, us, _, hf, hc, .complete (.number x), rfl⟩
  | identifier name => cases h; exact ⟨ts, us, _, hf, hc, .name name, rfl⟩
  | openParen =>
    obtain rfl := eq_of_descend h
    exact ⟨_, [], [], ⟨ts, us, _, hf, hc, .group, rfl⟩, Chain.holds_fresh _, .operand, by simp⟩
  | closeParen | comma | operator c => cases h

theorem holds_of_pushComplete (hf : FramesHold d.frames ts) (hc : d.chain.Holds us) (he : IsOperand vs e)
    (h : d.pushComplete limit e t = .ok d') : d'.Holds (ts ++ us ++ vs ++ [t]) := by
  obtain ⟨k, hk, hpush⟩ := d.exists_follows e t
  rw [hpush] at h
  cases hk with
  | operator op =>
    obtain rfl := eq_of_checked h
    exact ⟨ts, _, [], hf, hc.extend he op, .operand, by simp⟩
  | comma hframes =>
    cases h
    rw [hframes] at hf
    obtain ⟨us', vs', _, hf', hc', ho, rfl⟩ := hf
    cases ho with
    | call _ ha =>
      -- The argument in front of the comma goes to the account of its frame.
      exact ⟨_, [], [], ⟨us', vs', _, hf', hc', .call _ (ha.cons (hc.isSum he)), rfl⟩, Chain.holds_fresh _,
        .operand, by simp⟩
  | group hframes =>
    cases h
    rw [hframes] at hf
    obtain ⟨us', vs', _, hf', hc', ⟨⟩, rfl⟩ := hf
    exact ⟨us', vs', _, hf', hc', .complete (.group (hc.isSum he)), by simp⟩
  | call hframes =>
    cases h
    rw [hframes] at hf
    obtain ⟨us', vs', _, hf', hc', ho, rfl⟩ := hf
    cases ho with
    | call _ ha =>
      have hargs := ha.isArguments (.last (hc.isSum he))
      rw [← List.reverse_cons] at hargs
      exact ⟨us', vs', _, hf', hc', .complete (.call _ hargs), by simp⟩
  | obstacle t => cases h

theorem holds_of_push (hd : d.Holds ts) (h : d.push limit t = .ok d') : d'.Holds (ts ++ [t]) := by
  obtain ⟨us, vs, ws, hf, hc, hp, rfl⟩ := hd
  obtain ⟨k, hk, hpush⟩ := d.exists_reads t
  rw [hpush] at h
  cases hk with
  | operand hphase t =>
    rw [hphase] at hp
    cases hp
    rw [List.append_nil]
    exact holds_of_pushOperand hf hc h
  | constant f hphase =>
    rw [hphase] at hp
    cases hp
    cases h
    exact ⟨us, vs, _, hf, hc, .complete (.constant f), by simp⟩
  | argument f hphase _ =>
    rw [hphase] at hp
    cases hp
    -- The level of the first argument opens before its first token.
    obtain ⟨d₁, hdescend, h⟩ := bind_eq_ok.1 h
    obtain rfl := eq_of_descend hdescend
    have hf' : FramesHold (⟨.call f [], d.chain⟩ :: d.frames) _ := ⟨us, vs, _, hf, hc, .call f .nil, rfl⟩
    simpa using holds_of_pushOperand hf' (Chain.holds_fresh _) h
  | function f hphase =>
    rw [hphase] at hp
    cases hp
    cases h
    exact ⟨us, vs, _, hf, hc, .argument f, by simp⟩
  | complete ho t => exact holds_of_pushComplete hf hc (hp.isOperand ho) h

theorem holds_of_pushAll (hd : d.Holds ts) (h : d.pushAll limit us = .ok d') : d'.Holds (ts ++ us) := by
  induction us generalizing d ts with
  | nil => cases h; rwa [List.append_nil]
  | cons t us ih =>
    obtain ⟨d₁, hpush, h⟩ := bind_eq_ok.1 h
    have hd' := ih (holds_of_push hd hpush) h
    rwa [List.append_assoc] at hd'

theorem holds_of_run (h : run limit ts = .ok d) : d.Holds ts := by
  obtain ⟨d₀, hstart, h⟩ := bind_eq_ok.1 h
  have hd : d₀.Holds [] := by
    obtain rfl := eq_of_checked hstart
    exact ⟨[], [], [], rfl, Chain.holds_fresh 1, .operand, rfl⟩
  exact holds_of_pushAll hd h

/-- What has been read of the level is an expression, once there is an operand. -/
theorem Holds.exists_isSum (h : d.Holds ts) (ho : d.phase.operand? = some e) :
    ∃ us vs, FramesHold d.frames us ∧ IsSum vs (d.chain.expr e) ∧ ts = us ++ vs := by
  obtain ⟨us, vs, ws, hf, hc, hp, rfl⟩ := h
  exact ⟨us, vs ++ ws, hf, hc.isSum (hp.isOperand ho), List.append_assoc us vs ws⟩

theorem isSum_of_operand? (hd : d.Holds ts) (ho : d.phase.operand? = some e) (hf : d.frames = []) :
    IsSum ts (d.chain.expr e) := by
  obtain ⟨us, vs, hus, hs, rfl⟩ := hd.exists_isSum ho
  rw [hf] at hus
  cases hus
  exact hs

end Draft

/-- An expression that is read is derived from exactly the tokens it is read from. -/
theorem isSum_of_ofTokens {limit : Nat} {ts : List Token} {e : Expr} (h : Expr.ofTokens limit ts = .ok e) :
    IsSum ts e := by
  rw [Draft.ofTokens_eq] at h
  obtain ⟨d, hrun, hfinish⟩ := bind_eq_ok.1 h
  obtain ⟨o, ho, hf, rfl⟩ := Draft.finish_eq_ok_iff.1 hfinish
  exact Draft.isSum_of_operand? (Draft.holds_of_run hrun) ho hf

end Formula
