import Formula.Proofs.Viable
/-!
# The first fault

A reader stops at the first token with which the tokens are viable no longer. What it says there is what the
grammar says of the tokens in front: that an operand has to come, that an expression is complete in an open
parenthesis, or that they are an expression already (`IsFault`). Tokens that are viable and no expression fail
at their end. `ofTokens_of_not_isSum` puts this together.
-/

namespace Formula

namespace Draft

variable {limit : Nat} {d d' : Draft} {t : Token} {ts us : List Token} {e : Expr}

/-! ## Where a reader stops -/

theorem error_of_checked {err : SyntaxError} (h : checked limit d = .error err) : err = .tooDeep limit := by
  unfold checked at h
  split at h
  · cases h
  · exact (Except.error.inj h).symm

theorem error_of_pushOperand {err : SyntaxError} (h : d.pushOperand limit t = .error err)
    (herr : err ≠ .tooDeep limit) : err = .unexpectedToken t := by
  cases t with
  | number _ | identifier _ => cases h
  | openParen => exact absurd (error_of_checked h) herr
  | closeParen | comma | operator _ => exact (Except.error.inj h).symm

theorem error_of_pushComplete {err : SyntaxError} (h : d.pushComplete limit e t = .error err)
    (herr : err ≠ .tooDeep limit) : err = d.obstacle t := by
  obtain ⟨k, hk, hpush⟩ := d.exists_follows e t
  rw [hpush] at h
  cases hk with
  | operator op => exact absurd (error_of_checked h) herr
  | comma _ | group _ | call _ => cases h
  | obstacle t => exact (Except.error.inj h).symm

/-- A token is refused for want of an operand, or since it cannot follow one. -/
theorem error_of_push {err : SyntaxError} (h : d.push limit t = .error err) (herr : err ≠ .tooDeep limit) :
    (d.phase.operand? = none → err = .unexpectedToken t) ∧
      ((∃ e, d.phase.operand? = some e) → err = d.obstacle t) := by
  obtain ⟨k, hk, hpush⟩ := d.exists_reads t
  rw [hpush] at h
  cases hk with
  | operand hp t =>
    rw [hp]
    exact ⟨fun _ => error_of_pushOperand h herr, by rintro ⟨_, ⟨⟩⟩⟩
  | constant f _ | function f _ => cases h
  | argument f hp _ =>
    rw [hp]
    refine ⟨fun _ => ?_, by rintro ⟨_, ⟨⟩⟩⟩
    rcases bind_eq_error.1 h with hdescend | ⟨d₁, _, h⟩
    · exact absurd (error_of_checked hdescend) herr
    · exact error_of_pushOperand h herr
  | complete ho t =>
    rw [ho]
    exact ⟨nofun, fun _ => error_of_pushComplete h herr⟩

theorem exists_of_pushAll_error {err : SyntaxError} (h : d.pushAll limit ts = .error err) :
    ∃ us t vs d', ts = us ++ t :: vs ∧ d.pushAll limit us = .ok d' ∧ d'.push limit t = .error err := by
  induction ts generalizing d with
  | nil => cases h
  | cons t ts ih =>
    rcases bind_eq_error.1 h with hpush | ⟨d₁, hpush, h⟩
    · exact ⟨[], t, ts, d, rfl, rfl, hpush⟩
    · obtain ⟨us, u, vs, d', rfl, hus, hu⟩ := ih h
      exact ⟨t :: us, u, vs, d', rfl, by rw [pushAll_cons_of_push hpush, hus], hu⟩

theorem exists_of_run_error {err : SyntaxError} (h : run limit ts = .error err) (herr : err ≠ .tooDeep limit) :
    ∃ us t vs d, ts = us ++ t :: vs ∧ run limit us = .ok d ∧ d.push limit t = .error err := by
  rcases bind_eq_error.1 h with hstart | ⟨d₀, hstart, h⟩
  · exact absurd (error_of_checked hstart) herr
  · obtain ⟨us, t, vs, d, rfl, hus, ht⟩ := exists_of_pushAll_error h
    exact ⟨us, t, vs, d, rfl, by rw [run, hstart]; exact hus, ht⟩

/-- The tokens end for want of an operand, or with a level open. -/
theorem error_of_finish {err : SyntaxError} (h : d.finish limit = .error err) (herr : err ≠ .tooDeep limit) :
    (d.phase.operand? = none → err = .unexpectedEnd) ∧ ((∃ e, d.phase.operand? = some e) → err = .unclosed none) := by
  obtain ⟨k, hk, hfinish⟩ := d.exists_ends
  rw [hfinish] at h
  cases hk with
  | operand hp =>
    rw [hp]
    exact ⟨fun _ => (Except.error.inj h).symm, by rintro ⟨_, ⟨⟩⟩⟩
  | argument f hp =>
    rw [hp]
    refine ⟨fun _ => ?_, by rintro ⟨_, ⟨⟩⟩⟩
    rcases bind_eq_error.1 h with hdescend | ⟨_, _, h⟩
    · exact absurd (error_of_checked hdescend) herr
    · exact (Except.error.inj h).symm
  | whole _ _ => cases h
  | unclosed ho _ =>
    rw [ho]
    exact ⟨nofun, fun _ => (Except.error.inj h).symm⟩

theorem exists_symbol_of_push {c : Char} (h : d.push limit (.operator c) = .ok d') :
    ∃ op : Operator, c = op.symbol := by
  obtain ⟨k, hk, hpush⟩ := d.exists_reads (.operator c)
  rw [hpush] at h
  cases hk with
  | operand _ _ => cases h
  | argument f _ _ =>
    obtain ⟨_, _, h⟩ := bind_eq_ok.1 h
    cases h
  | complete _ _ =>
    obtain ⟨k', hk', hpush'⟩ := d.exists_follows _ (.operator c)
    dsimp only at h
    rw [hpush'] at h
    cases hk' with
    | operator op => exact ⟨op, rfl⟩
    | obstacle _ => cases h

end Draft

open Draft

/-! ## What is wrong with a token -/

/-- An operator of another kind is in no expression. -/
theorem not_isViable_of_symbol {c : Char} (hc : ∀ op : Operator, c ≠ op.symbol) (us vs : List Token) :
    ¬ IsViable (us ++ .operator c :: vs) := by
  intro h
  rw [List.append_cons] at h
  obtain ⟨d, hd⟩ := exists_run_of_isViable (Nat.le_refl _) h.of_append
  rw [run_append] at hd
  obtain ⟨d₁, _, hpush⟩ := bind_eq_ok.1 hd
  rw [pushAll_singleton] at hpush
  obtain ⟨op, hop⟩ := exists_symbol_of_push hpush
  exact hc op hop

/-- The error says of the token `t` behind the tokens `us` what is wrong with it: there has to be an operand, or the
expression in front of it is complete, inside a parenthesis that is still open or as a whole. -/
structure IsFault (us : List Token) (t : Token) (err : SyntaxError) : Prop where
  asks : AwaitsOperand us ∨ EndsInside us ∨ ∃ e, IsSum us e
  operand : AwaitsOperand us → err = .unexpectedToken t
  inside : EndsInside us → err = .unclosed (some t)
  whole : (∃ e, IsSum us e) → err = .trailing t

variable {limit : Nat} {t : Token} {ts us : List Token} {err : SyntaxError}

theorem isFault_of_push {d : Draft} (hlimit : us.length + 1 ≤ limit) (hus : run limit us = .ok d)
    (ht : d.push limit t = .error err) (herr : err ≠ .tooDeep limit) : IsFault us t err := by
  obtain ⟨hoperand, hobstacle⟩ := error_of_push ht herr
  have hawaits := awaitsOperand_iff hlimit hus
  have hinside := endsInside_iff hus
  have hwhole := exists_isSum_iff hlimit hus
  refine ⟨?_, fun h => hoperand (hawaits.1 h), fun h => ?_, fun h => ?_⟩
  · rw [hawaits, hinside, hwhole]
    cases ho : d.phase.operand? with
    | none => exact .inl rfl
    | some e =>
      by_cases hframes : d.frames = []
      · exact .inr (.inr ⟨⟨e, rfl⟩, hframes⟩)
      · exact .inr (.inl ⟨⟨e, rfl⟩, hframes⟩)
  · obtain ⟨ho, hframes⟩ := hinside.1 h
    rw [hobstacle ho, obstacle, if_neg (by simpa using hframes)]
  · obtain ⟨ho, hframes⟩ := hwhole.1 h
    rw [hobstacle ho, obstacle, if_pos (by simpa using hframes)]

theorem not_isViable_of_push {d : Draft} (hlimit : (us ++ [t]).length + 1 ≤ limit) (hus : run limit us = .ok d)
    (ht : d.push limit t = .error err) : ¬ IsViable (us ++ [t]) := by
  intro h
  obtain ⟨d', hd'⟩ := exists_run_of_isViable hlimit h
  rw [run_append_of_run hus, pushAll_singleton, ht] at hd'
  cases hd'

/-! ## Main theorem -/

theorem exists_isFault (hlimit : ts.length + 1 ≤ limit) (hts : ¬ IsViable ts) :
    ∃ us t vs err, ts = us ++ t :: vs ∧ IsViable us ∧ ¬ IsViable (us ++ [t]) ∧ IsFault us t err ∧
      Expr.ofTokens limit ts = .error err := by
  have hread := (cuts_ofTokens ts).ne_tooDeep hlimit limit
  rw [ofTokens_eq] at hread ⊢
  cases hrun : run limit ts with
  | ok d => exact absurd (isViable_of_run hrun) hts
  | error err =>
    have herr : err ≠ .tooDeep limit := by
      rintro rfl
      exact hread (by rw [hrun]; rfl)
    obtain ⟨us, t, vs, d, rfl, hus, ht⟩ := exists_of_run_error hrun herr
    have hnext : (us ++ [t]).length + 1 ≤ limit := by
      simp only [List.length_append, List.length_cons, List.length_nil] at hlimit ⊢
      omega
    have hbefore : us.length + 1 ≤ limit := by
      rw [List.length_append] at hnext
      omega
    exact ⟨us, t, vs, err, rfl, isViable_of_run hus, not_isViable_of_push hnext hus ht,
      isFault_of_push hbefore hus ht herr, rfl⟩

theorem ofTokens_of_isViable (hlimit : ts.length + 1 ≤ limit) (hts : ¬ ∃ e, IsSum ts e) (h : IsViable ts) :
    (AwaitsOperand ts → Expr.ofTokens limit ts = .error .unexpectedEnd) ∧
      (¬ AwaitsOperand ts → EndsInside ts ∧ Expr.ofTokens limit ts = .error (.unclosed none)) := by
  obtain ⟨d, hrun⟩ := exists_run_of_isViable hlimit h
  have hread := (cuts_ofTokens ts).ne_tooDeep hlimit limit
  rw [ofTokens_eq, hrun] at hread ⊢
  rw [exists_isSum_iff hlimit hrun] at hts
  rw [awaitsOperand_iff hlimit hrun, endsInside_iff hrun]
  cases hfinish : d.finish limit with
  | ok e =>
    obtain ⟨o, ho, hframes, -⟩ := finish_eq_ok_iff.1 hfinish
    exact absurd ⟨⟨o, ho⟩, hframes⟩ hts
  | error err =>
    have herr : err ≠ .tooDeep limit := by
      rintro rfl
      exact hread hfinish
    obtain ⟨hoperand, hcomplete⟩ := error_of_finish hfinish herr
    refine ⟨fun ho => ?_, fun ho => ?_⟩
    · exact hfinish.trans (by rw [hoperand ho])
    · have ho := Option.ne_none_iff_exists'.1 ho
      exact ⟨⟨ho, fun hframes => hts ⟨ho, hframes⟩⟩, hfinish.trans (by rw [hcomplete ho])⟩

/-- Under a limit above the number of tokens, what is not an expression is refused at the first token with which
no expression begins any more, and for what the tokens in front of it ask for. If an expression could still go
on, it is refused at the end, for want of an operand or of a parenthesis. -/
theorem ofTokens_of_not_isSum {limit : Nat} {ts : List Token} (hlimit : ts.length + 1 ≤ limit)
    (hts : ¬ ∃ e, IsSum ts e) :
    (¬ IsViable ts → ∃ (i : Nat) (hi : i < ts.length) (err : SyntaxError),
      (∀ j < i, IsViable (ts.take (j + 1))) ∧ ¬ IsViable (ts.take (i + 1)) ∧ IsFault (ts.take i) ts[i] err ∧
      Expr.ofTokens limit ts = .error err) ∧
    (IsViable ts →
      (AwaitsOperand ts → Expr.ofTokens limit ts = .error .unexpectedEnd) ∧
      (¬ AwaitsOperand ts → EndsInside ts ∧ Expr.ofTokens limit ts = .error (.unclosed none))) ∧
    ∀ (c : Char) (us vs : List Token), (∀ op : Operator, c ≠ op.symbol) → ¬ IsViable (us ++ .operator c :: vs) := by
  refine ⟨fun hviable => ?_, ofTokens_of_isViable hlimit hts, fun c us vs hc => not_isViable_of_symbol hc us vs⟩
  obtain ⟨us, t, vs, err, rfl, hus, ht, hfault, hread⟩ := exists_isFault hlimit hviable
  have htake : (us ++ t :: vs).take (us.length + 1) = us ++ [t] := by
    rw [List.append_cons]
    exact List.take_left' (by simp)
  refine ⟨us.length, by simp, err, fun j hj => ?_, by rwa [htake], ?_, hread⟩
  · rw [List.take_append_of_le_length hj]
    exact hus.take (j + 1)
  · simpa using hfault

/-- In `f(1 2)` the second number comes where the parenthesis is still open. -/
theorem ofTokens_of_two_numbers :
    let ts : List Token := [.identifier "f", .openParen, .number 1, .number 2, .closeParen]
    ts.length + 1 ≤ 6 ∧ (¬ ∃ e, IsSum ts e) ∧ IsViable (ts.take 3) ∧ ¬ IsViable (ts.take 4) ∧ EndsInside (ts.take 3) ∧
      Expr.ofTokens 6 ts = .error (.unclosed (some (.number 2))) := by
  intro ts
  have hlimit : ts.length + 1 ≤ 6 := by decide
  have hrun : ∃ d, run 6 (ts.take 3) = .ok d := ⟨_, rfl⟩
  have hbefore : IsViable (ts.take 3) := isViable_of_run hrun.choose_spec
  have hat : ¬ IsViable (ts.take 4) := by
    intro h
    obtain ⟨d, hd⟩ := exists_run_of_isViable (Nat.le_refl _) h
    cases hd
  have hviable : ¬ IsViable ts := fun h => hat (h.take 4)
  have hts : ¬ ∃ e, IsSum ts e := fun ⟨e, he⟩ => hviable ⟨[], e, he⟩
  have hinside : EndsInside (ts.take 3) :=
    ⟨[.identifier "f"], .openParen, [.number 1], _, rfl, .inl rfl, .term (.operand (.number 1))⟩
  obtain ⟨i, hi, err, hfirst, hnext, hfault, hread⟩ := (ofTokens_of_not_isSum hlimit hts).1 hviable
  obtain rfl : i = 3 := by
    refine Nat.le_antisymm (Nat.le_of_not_lt fun h => hat (hfirst 3 h)) (Nat.le_of_not_lt fun h => hnext ?_)
    have hpart := hbefore.take (i + 1)
    rwa [List.take_take, Nat.min_eq_left h] at hpart
  rw [hfault.inside hinside] at hread
  exact ⟨hlimit, hts, hbefore, hat, hinside, hread⟩

end Formula
