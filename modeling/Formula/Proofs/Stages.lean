import Formula.Proofs.Descent
import Formula.Proofs.Failure
import Formula.Proofs.Fault
import Formula.Proofs.Misfit
/-!
# The errors of each stage

A formula is taken through three stages, and each has errors of its own: scanning the text (`IsScanError`), reading the
tokens (`IsReadError`), and finding the value (`IsValueError`). None of them is a fault of the program, although a
descent could report one where it converts an operator. Since the values of variables come in at the last stage only,
what is wrong with a text does not depend on them: `errors_of_stages`.
-/

namespace Formula

/-- What can be wrong with a text before its tokens are read. -/
inductive IsScanError : SyntaxError → Prop
  | strayCharacter (c : Char) (offset : Nat) : IsScanError (.strayCharacter c offset)
  | badNumeral (text : String) : IsScanError (.badNumeral text)

/-- What can be wrong with tokens under a limit. -/
inductive IsReadError (limit : Nat) : SyntaxError → Prop
  | unexpectedToken (t : Token) : IsReadError limit (.unexpectedToken t)
  | unexpectedEnd : IsReadError limit .unexpectedEnd
  | unclosed (found : Option Token) : IsReadError limit (.unclosed found)
  | trailing (t : Token) : IsReadError limit (.trailing t)
  | tooDeep : IsReadError limit (.tooDeep limit)

/-- What can be wrong with an expression under values of variables. -/
inductive IsValueError : Error → Prop
  | unboundVariable (name : String) : IsValueError (.unresolved (.unboundVariable name))
  | unknownFunction (name : String) : IsValueError (.unresolved (.unknownFunction name))
  | arity (function : String) (min max found : Nat) : IsValueError (.arity function min max found)

/-! ## Stage by stage -/

theorem isScanError_of_tokenize {text : String} {err : SyntaxError} (h : tokenize text = .error err) :
    IsScanError err := by
  have hfault := tokenize_eq_error.1 h
  obtain ⟨c, cs, hrest⟩ := List.exists_cons_of_ne_nil (Scan.ne_nil_of_fault? hfault)
  rw [hrest, Scan.fault?] at hfault
  split at hfault
  · obtain rfl := Option.some.inj hfault
    exact .badNumeral _
  · obtain rfl := Option.some.inj hfault
    exact .strayCharacter c _

theorem Draft.isReadError_of_push {limit : Nat} {d : Draft} {t : Token} {err : SyntaxError}
    (h : d.push limit t = .error err) : IsReadError limit err := by
  by_cases herr : err = .tooDeep limit
  · exact herr ▸ .tooDeep
  · obtain ⟨hoperand, hobstacle⟩ := error_of_push h herr
    cases ho : d.phase.operand? with
    | none =>
      rw [hoperand ho]
      exact .unexpectedToken t
    | some o =>
      rw [hobstacle ⟨o, ho⟩, obstacle]
      split
      · exact .trailing t
      · exact .unclosed (some t)

theorem Draft.isReadError_of_finish {limit : Nat} {d : Draft} {err : SyntaxError} (h : d.finish limit = .error err) :
    IsReadError limit err := by
  by_cases herr : err = .tooDeep limit
  · exact herr ▸ .tooDeep
  · obtain ⟨hoperand, hcomplete⟩ := error_of_finish h herr
    cases ho : d.phase.operand? with
    | none =>
      rw [hoperand ho]
      exact .unexpectedEnd
    | some o =>
      rw [hcomplete ⟨o, ho⟩]
      exact .unclosed none

theorem isReadError_of_ofTokens {limit : Nat} {ts : List Token} {err : SyntaxError}
    (h : Expr.ofTokens limit ts = .error err) : IsReadError limit err := by
  rw [Draft.ofTokens_eq] at h
  rcases bind_eq_error.1 h with hrun | ⟨d, _, hfinish⟩
  · by_cases herr : err = .tooDeep limit
    · exact herr ▸ .tooDeep
    · obtain ⟨_, _, _, _, _, _, hpush⟩ := Draft.exists_of_run_error hrun herr
      exact Draft.isReadError_of_push hpush
  · exact Draft.isReadError_of_finish hfinish

theorem isValueError_of_eval {vars : Bindings} {e : Expr} {err : Error} (h : e.eval vars = .error err) :
    IsValueError err := by
  rw [← failure?_eq_some_iff, Expr.failure?_eval] at h
  obtain ⟨e', _, hfault⟩ := List.exists_of_findSome?_eq_some h
  cases Expr.fault?_eq_some_iff.1 hfault with
  | unbound _ => exact .unboundVariable _
  | unknown _ => exact .unknownFunction _
  | arity _ _ => exact .arity _ _ _ _

/-! ## One stage behind the other -/

theorem mapError_eq_error {α ε ε' : Type} {x : Except ε α} {f : ε → ε'} {err : ε'} :
    x.mapError f = .error err ↔ ∃ cause, x = .error cause ∧ f cause = err := by
  cases x with
  | ok a => exact ⟨nofun, by rintro ⟨_, ⟨⟩, _⟩⟩
  | error cause => exact ⟨fun h => ⟨cause, rfl, Except.error.inj h⟩, by rintro ⟨_, ⟨⟩, h⟩; exact congrArg _ h⟩

theorem Descent.isReadError_of_read {limit : Nat} {ts : List Token} {err : Error} (h : read limit ts = .error err) :
    ∃ cause, err = .malformed cause ∧ IsReadError limit cause := by
  rw [read_eq] at h
  obtain ⟨cause, hread, rfl⟩ := mapError_eq_error.1 h
  exact ⟨cause, rfl, isReadError_of_ofTokens hread⟩

namespace Evaluator

variable {v : Evaluator} {text : String} {err : Error} {cause : SyntaxError}

theorem parse_eq_descent (v : Evaluator) (text : String) :
    v.parse text = (tokenize text).mapError .malformed >>= Descent.read v.limit := by
  rw [parse, Expr.ofText]
  cases tokenize text with
  | error cause => rfl
  | ok ts => exact (Descent.read_eq v.limit ts).symm

theorem parse_eq_error_iff : v.parse text = .error err ↔ ∃ cause, err = .malformed cause ∧
    (tokenize text = .error cause ∨ ∃ ts, tokenize text = .ok ts ∧ Expr.ofTokens v.limit ts = .error cause) := by
  rw [parse, Expr.ofText, mapError_eq_error]
  simp only [bind_eq_error, eq_comm (a := err), and_comm]

theorem evaluateText_eq_error_of_isValueError (herr : IsValueError err) :
    v.evaluateText text = .error err ↔ ∃ e, v.parse text = .ok e ∧ v.evaluate e = .error err := by
  rw [evaluateText, bind_eq_error]
  refine or_iff_right fun h => ?_
  obtain ⟨cause, rfl, _⟩ := parse_eq_error_iff.1 h
  cases herr

theorem evaluateText_eq_malformed_iff : v.evaluateText text = .error (.malformed cause) ↔
    tokenize text = .error cause ∨ ∃ ts, tokenize text = .ok ts ∧ Expr.ofTokens v.limit ts = .error cause := by
  rw [evaluateText, bind_eq_error, parse_eq_error_iff]
  constructor
  · rintro (⟨_, ⟨⟩, h⟩ | ⟨e, _, h⟩)
    · exact h
    · cases isValueError_of_eval h
  · exact fun h => .inl ⟨cause, rfl, h⟩

theorem evaluateText_ne_internal (why : String) : v.evaluateText text ≠ .error (.internal why) := by
  rw [evaluateText, ne_eq, bind_eq_error, parse_eq_error_iff]
  rintro (⟨_, ⟨⟩, _⟩ | ⟨e, _, h⟩)
  cases isValueError_of_eval h

end Evaluator

/-! ## Main theorem -/

/-- Scanning, reading and evaluation each have errors of their own, and none of them is a fault of the program, also if
the tokens are read by a descent that converts the symbols of operators. A formula is malformed exactly if its tokens
cannot be scanned or read, and that does not depend on the values of variables. Any other error is one of the
expression that it is read as. -/
theorem errors_of_stages :
    (∀ text cause, tokenize text = .error cause → IsScanError cause) ∧
    (∀ limit ts, Descent.read limit ts = (Expr.ofTokens limit ts).mapError .malformed ∧
      ∀ err, Descent.read limit ts = .error err → ∃ cause, err = .malformed cause ∧ IsReadError limit cause) ∧
    (∀ (v : Evaluator) (e : Expr) (err : Error), v.evaluate e = .error err → IsValueError err) ∧
    ∀ (v : Evaluator) (text : String),
      v.evaluateText text = (tokenize text).mapError .malformed >>= Descent.read v.limit >>= v.evaluate ∧
      (∀ why, v.evaluateText text ≠ .error (.internal why)) ∧
      (∀ cause vars, Evaluator.evaluateText { v with vars } text = .error (.malformed cause) ↔
        tokenize text = .error cause ∨ ∃ ts, tokenize text = .ok ts ∧ Expr.ofTokens v.limit ts = .error cause) ∧
      ∀ err, IsValueError err →
        (v.evaluateText text = .error err ↔ ∃ e, v.parse text = .ok e ∧ v.evaluate e = .error err) := by
  refine ⟨fun text cause => isScanError_of_tokenize, fun limit ts => ?_, fun v e err => isValueError_of_eval,
    fun v text => ⟨?_, Evaluator.evaluateText_ne_internal, fun cause vars => Evaluator.evaluateText_eq_malformed_iff,
      fun err => Evaluator.evaluateText_eq_error_of_isValueError⟩⟩
  · exact ⟨Descent.read_eq limit ts, fun err => Descent.isReadError_of_read⟩
  · rw [Evaluator.evaluateText, Evaluator.parse_eq_descent]

end Formula
