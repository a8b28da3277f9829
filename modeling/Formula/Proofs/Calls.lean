import Formula.Proofs.Draft
/-!
# The calls of an expression

While it reads, a draft notes each call as it closes. What it has noted is the calls of the expressions that it holds,
those in arguments before the call they are for (`Draft.Noted`), so where an expression is complete it is the calls
of that expression: `Expr.calls_read`.
-/

namespace Formula

namespace Expr

mutual

/-- The calls of an expression from left to right, each behind those in its arguments. -/
def calls : Expr → List Call
  | literal _ | var _ => []
  | binary l _ r => l.calls ++ r.calls
  | call f es => callsList es ++ [⟨f, es.length⟩]

/-- The calls in arguments. -/
def callsList : List Expr → List Call
  | [] => []
  | e :: es => e.calls ++ callsList es

end

theorem callsList_concat (es : List Expr) (e : Expr) : callsList (es ++ [e]) = callsList es ++ e.calls := by
  induction es with
  | nil => exact List.append_nil _
  | cons e' es ih => rw [List.cons_append, callsList, callsList, ih, List.append_assoc]

end Expr

/-! ## The calls of the expressions in a draft -/

/-- The calls of what an operand is joined to. -/
def Chain.joinedCalls : Option (Expr × Operator) → List Call
  | none => []
  | some (l, _) => l.calls

namespace Chain

def calls (c : Chain) : List Call := joinedCalls c.sum ++ joinedCalls c.product

variable {c : Chain} {e : Expr}

theorem calls_join (l : Option (Expr × Operator)) (e : Expr) : (join l e).calls = joinedCalls l ++ e.calls := by
  cases l with
  | none => rfl
  | some l => rw [join, Expr.calls]; rfl

theorem calls_term : (c.term e).calls = joinedCalls c.product ++ e.calls := calls_join _ _

theorem calls_expr : (c.expr e).calls = c.calls ++ e.calls := by
  rw [expr, calls_join, calls_term, calls, List.append_assoc]

theorem calls_extend (op : Operator) : (c.extend e op).calls = c.calls ++ e.calls := by
  cases hop : op.isSum with
  | true =>
    rw [extend_of_isSum hop, ← calls_expr]
    exact List.append_nil _
  | false =>
    rw [extend_of_not_isSum hop, calls, calls, List.append_assoc, ← calls_term]
    rfl

end Chain

def Opener.calls : Opener → List Call
  | group => []
  | call _ es => Expr.callsList es.reverse

def framesCalls : List Frame → List Call
  | [] => []
  | f :: fs => framesCalls fs ++ f.chain.calls ++ f.opener.calls

def Phase.calls : Phase → List Call
  | complete e => e.calls
  | operand | argument _ | name _ => []

theorem Phase.calls_of_operand? {p : Phase} {e : Expr} (h : p.operand? = some e) : p.calls = e.calls := by
  cases p with
  | operand | argument _ => cases h
  | name x => cases h; rw [calls, Expr.calls]
  | complete e' => cases h; rfl

namespace Draft

variable {limit : Nat} {d d' : Draft} {t : Token} {ts us : List Token} {e : Expr}

/-- What is noted is the calls of the expressions in the draft. -/
def Noted (d : Draft) : Prop := d.calls.reverse = framesCalls d.frames ++ d.chain.calls ++ d.phase.calls

theorem noted_of_pushOperand (hd : d.calls.reverse = framesCalls d.frames ++ d.chain.calls)
    (h : d.pushOperand limit t = .ok d') : d'.Noted := by
  cases t with
  | number _ | identifier _ => cases h; exact hd.trans (List.append_nil _).symm
  | openParen =>
    obtain rfl := eq_of_descend h
    simpa [Noted, framesCalls, Opener.calls, Chain.calls, Chain.joinedCalls, Phase.calls] using hd
  | closeParen | comma | operator _ => cases h

theorem noted_of_pushComplete (hd : d.calls.reverse = framesCalls d.frames ++ d.chain.calls ++ e.calls)
    (h : d.pushComplete limit e t = .ok d') : d'.Noted := by
  rw [List.append_assoc] at hd
  obtain ⟨k, hk, hpush⟩ := d.exists_follows e t
  rw [hpush] at h
  cases hk with
  | operator op =>
    obtain rfl := eq_of_checked h
    rw [Noted, Phase.calls, List.append_nil, Chain.calls_extend]
    exact hd
  | @comma f es c fs hf =>
    cases h
    rw [hf, framesCalls, Opener.calls, ← Chain.calls_expr, List.append_assoc, ← Expr.callsList_concat] at hd
    rw [Noted, framesCalls, Opener.calls, List.reverse_cons]
    simpa [Chain.calls, Chain.joinedCalls, Phase.calls] using hd
  | group hf =>
    cases h
    rw [hf, framesCalls, Opener.calls, List.append_nil, ← Chain.calls_expr] at hd
    exact hd
  | call hf =>
    cases h
    rw [hf, framesCalls, Opener.calls, ← Chain.calls_expr, List.append_assoc, ← Expr.callsList_concat] at hd
    rw [Noted, close, List.reverse_cons, hd, Phase.calls, Expr.calls, List.reverse_cons, List.append_assoc]
  | obstacle _ => cases h

theorem noted_of_push (hd : d.Noted) (h : d.push limit t = .ok d') : d'.Noted := by
  obtain ⟨k, hk, hpush⟩ := d.exists_reads t
  rw [hpush] at h
  rw [Noted] at hd
  cases hk with
  | operand hp t =>
    rw [hp, Phase.calls, List.append_nil] at hd
    exact noted_of_pushOperand hd h
  | constant f hp =>
    cases h
    rw [hp, Phase.calls, List.append_nil] at hd
    rw [Noted, close, List.reverse_cons, hd, Phase.calls, Expr.calls]
    rfl
  | argument f hp _ =>
    rw [hp, Phase.calls, List.append_nil] at hd
    obtain ⟨d₁, hdescend, h⟩ := bind_eq_ok.1 h
    obtain rfl := eq_of_descend hdescend
    refine noted_of_pushOperand ?_ h
    simpa [framesCalls, Opener.calls, Chain.calls, Chain.joinedCalls, Expr.callsList] using hd
  | function f hp =>
    cases h
    rw [hp] at hd
    exact hd
  | complete ho t =>
    rw [Phase.calls_of_operand? ho] at hd
    exact noted_of_pushComplete hd h

theorem noted_of_pushAll (hd : d.Noted) (h : d.pushAll limit ts = .ok d') : d'.Noted := by
  induction ts generalizing d with
  | nil => cases h; exact hd
  | cons t ts ih =>
    obtain ⟨d₁, hpush, h⟩ := bind_eq_ok.1 h
    exact ih (noted_of_push hd hpush) h

theorem noted_of_run (h : run limit ts = .ok d) : d.Noted := by
  obtain ⟨d₀, hstart, h⟩ := bind_eq_ok.1 h
  have hd : d₀.Noted := by
    obtain rfl := eq_of_checked hstart
    rfl
  exact noted_of_pushAll hd h

/-- Where an expression is complete, its calls have been noted. -/
theorem calls_of_finish (hd : d.Noted) (h : d.finish limit = .ok e) : d.calls.reverse = e.calls := by
  obtain ⟨o, ho, hf, rfl⟩ := finish_eq_ok_iff.1 h
  rw [hd, hf, framesCalls, List.nil_append, Phase.calls_of_operand? ho, Chain.calls_expr]

theorem calls_read_of_pushAll (h : d.pushAll limit ts = .ok d') : (d.read limit ts).calls = d'.calls.reverse := by
  induction ts generalizing d with
  | nil => cases h; rfl
  | cons t ts ih =>
    obtain ⟨d₁, hpush, h⟩ := bind_eq_ok.1 h
    rw [read, hpush]
    exact ih h

end Draft

open Draft

/-- What is noted of an expression that is read is its calls. -/
theorem Expr.calls_read {limit : Nat} {ts : List Token} {e : Expr} (h : ofTokens limit ts = .ok e) :
    (read limit ts).calls = e.calls := by
  rw [ofTokens_eq] at h
  obtain ⟨d, hrun, hfinish⟩ := bind_eq_ok.1 h
  rw [← calls_of_finish (noted_of_run hrun) hfinish]
  obtain ⟨d₀, hstart, hall⟩ := bind_eq_ok.1 hrun
  rw [read, hstart]
  exact calls_read_of_pushAll hall

end Formula
