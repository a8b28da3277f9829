import Formula.Evaluator
import Formula.Proofs.Draft
/-!
# Why an expression has no value

Three things can be wrong in an expression: a variable that is not bound, a function that is no builtin, and a number of
arguments that a builtin does not take (`Expr.Fails`). Whatever the values, nothing else is, and evaluation comes upon
them with the parts of an expression before the expression itself, from left to right (`Expr.postorder`). So it
succeeds exactly if nothing is wrong, and reports what is wrong first otherwise: `evaluate_eq_error_iff`.
-/

namespace Formula

namespace Expr

mutual

/-- An expression and all that it is made of, each behind its own parts and these from left to right. -/
def postorder : Expr → List Expr
  | literal x => [literal x]
  | var name => [var name]
  | binary l op r => l.postorder ++ (r.postorder ++ [binary l op r])
  | call f es => postorderList es ++ [call f es]

def postorderList : List Expr → List Expr
  | [] => []
  | e :: es => e.postorder ++ postorderList es

end

/-- What is wrong with an expression, given that its parts have values. -/
inductive Fails (vars : Bindings) : Expr → Error → Prop
  | unbound {name} : name ∉ vars → Fails vars (var name) (.unresolved (.unboundVariable name))
  | unknown {f es} : f ∉ Builtin.names → Fails vars (call f es) (.unresolved (.unknownFunction f))
  | arity {b : Builtin} {es} : b ∈ Builtin.standard → es.length < b.required ∨ b.required + b.optional < es.length →
    Fails vars (call b.name es) (.arity b.name b.required (b.required + b.optional) es.length)

/-- The error of an expression whose parts have values. -/
def fault? (vars : Bindings) : Expr → Option Error
  | literal _ | binary _ _ _ => none
  | var name => if name ∈ vars then none else some (.unresolved (.unboundVariable name))
  | call f es =>
    match Builtin.find? f with
    | some b =>
      if b.required ≤ es.length ∧ es.length ≤ b.required + b.optional then none
      else some (.arity b.name b.required (b.required + b.optional) es.length)
    | none => some (.unresolved (.unknownFunction f))

end Expr

/-! ## Builtins and their names -/

namespace Builtin

theorem find?_eq_none_iff {f : String} : find? f = none ↔ f ∉ names := by
  simp only [find?, List.find?_eq_none, beq_iff_eq, names, List.mem_map, not_exists, not_and]

/-- No two builtins have one name. -/
theorem find?_eq_some_iff {f : String} {b : Builtin} : find? f = some b ↔ b ∈ standard ∧ b.name = f := by
  constructor
  · intro h
    exact ⟨List.mem_of_find?_eq_some h, by simpa using List.find?_some h⟩
  · rintro ⟨hb, rfl⟩
    simp only [standard, List.mem_cons, List.not_mem_nil, or_false] at hb
    rcases hb with rfl | rfl | rfl <;> rfl

end Builtin

theorem Expr.fault?_eq_some_iff {vars : Bindings} {e : Expr} {err : Error} :
    e.fault? vars = some err ↔ e.Fails vars err := by
  constructor
  · intro h
    cases e with
    | literal _ | binary _ _ _ => cases h
    | var name =>
      rw [fault?] at h
      split at h
      · cases h
      · next hname =>
        obtain rfl := Option.some.inj h
        exact .unbound hname
    | call f es =>
      rw [fault?] at h
      split at h
      · next b hb =>
        obtain ⟨hstandard, rfl⟩ := Builtin.find?_eq_some_iff.1 hb
        split at h
        · cases h
        · obtain rfl := Option.some.inj h
          exact .arity hstandard (by omega)
      · next hf =>
        obtain rfl := Option.some.inj h
        exact .unknown (Builtin.find?_eq_none_iff.1 hf)
  · intro h
    cases h with
    | unbound hname => rw [fault?, if_neg hname]
    | unknown hf => rw [fault?, Builtin.find?_eq_none_iff.2 hf]
    | arity hb hlength =>
      rw [fault?, Builtin.find?_eq_some_iff.2 ⟨hb, rfl⟩]
      exact if_neg (by omega)

theorem Expr.fault?_eq_none_iff {vars : Bindings} {e : Expr} : e.fault? vars = none ↔ ∀ err, ¬ e.Fails vars err := by
  simp only [← fault?_eq_some_iff, Option.eq_none_iff_forall_ne_some]

/-! ## The error of a computation -/

section

variable {α β : Type}

/-- The error that a computation ends with, if it does. -/
def failure? : Except Error α → Option Error
  | .ok _ => none
  | .error err => some err

theorem failure?_eq_some_iff {x : Except Error α} {err : Error} : failure? x = some err ↔ x = .error err := by
  cases x with
  | ok a => simp [failure?]
  | error err' => simp [failure?]

theorem failure?_eq_none_iff {x : Except Error α} : failure? x = none ↔ ∃ a, x = .ok a := by
  cases x with
  | ok a => simp [failure?]
  | error err => simp [failure?]

/-- What comes next can fail only where all before it has succeeded, and here fails for any value alike. -/
theorem failure?_bind {x : Except Error α} {f : α → Except Error β} {o : Option Error}
    (h : ∀ a, x = .ok a → failure? (f a) = o) : failure? (x >>= f) = (failure? x).or o := by
  cases x with
  | ok a => exact h a rfl
  | error err => rfl

theorem failure?_bind_pure (x : Except Error α) (f : α → β) : failure? (x >>= fun a => pure (f a)) = failure? x := by
  cases x <;> rfl

end

namespace Expr

variable {vars : Bindings}

theorem length_of_evalList : ∀ {es : List Expr} {xs : List Float}, evalList vars es = .ok xs → xs.length = es.length
  | [], _, h => by
    rw [evalList] at h
    cases h
    rfl
  | e :: es, _, h => by
    rw [evalList] at h
    obtain ⟨x, -, h⟩ := bind_eq_ok.1 h
    obtain ⟨xs, hes, h⟩ := bind_eq_ok.1 h
    cases h
    exact congrArg (· + 1) (length_of_evalList hes)

/-- To call a builtin goes wrong by the number of arguments alone. -/
theorem failure?_callNamed (f : String) {es : List Expr} {xs : List Float} (h : xs.length = es.length) :
    failure? (Builtin.callNamed f xs) = (call f es).fault? vars := by
  rw [Builtin.callNamed, fault?]
  cases Builtin.find? f with
  | none => rfl
  | some b =>
    simp only [Builtin.call, h]
    split <;> rfl

mutual

/-- Evaluation fails where the first expression does that fails by itself. -/
theorem failure?_eval : ∀ e : Expr, failure? (e.eval vars) = e.postorder.findSome? (fault? vars)
  | literal x => rfl
  | var name => by
    rw [eval, postorder, List.findSome?_singleton, fault?]
    simp only [Std.TreeMap.mem_iff_isSome_getElem?]
    cases vars[name]? <;> rfl
  | binary l op r => by
    have hr : ∀ x, failure? (r.eval vars >>= fun y => pure (op.apply x y)) = r.postorder.findSome? (fault? vars) :=
      fun x => (failure?_bind_pure _ _).trans (failure?_eval r)
    rw [eval, failure?_bind fun x _ => hr x, failure?_eval l, postorder, List.findSome?_append, List.findSome?_append,
      List.findSome?_singleton, fault?, Option.or_none]
  | call f es => by
    rw [eval, failure?_bind fun xs hxs => failure?_callNamed f (length_of_evalList hxs), failure?_evalList es,
      postorder, List.findSome?_append, List.findSome?_singleton]

theorem failure?_evalList : ∀ es : List Expr,
    failure? (evalList vars es) = (postorderList es).findSome? (fault? vars)
  | [] => rfl
  | e :: es => by
    have hes : ∀ x : Float, failure? (evalList vars es >>= fun xs => pure (x :: xs)) =
        (postorderList es).findSome? (fault? vars) :=
      fun x => (failure?_bind_pure _ _).trans (failure?_evalList es)
    rw [evalList, failure?_bind fun x _ => hes x, failure?_eval e, postorderList, List.findSome?_append]

end

end Expr

/-! ## Main theorem -/

/-- An expression has a value exactly if nothing that it is made of fails by itself. The error is that of the first one
that does, each coming behind its own parts. -/
theorem evaluate_eq_error_iff (v : Evaluator) (e : Expr) :
    ((∃ x, v.evaluate e = .ok x) ↔ ∀ e' ∈ e.postorder, ∀ err, ¬ e'.Fails v.vars err) ∧
    ∀ err, v.evaluate e = .error err ↔ ∃ before e' after, e.postorder = before ++ e' :: after ∧
      e'.Fails v.vars err ∧ ∀ e'' ∈ before, ∀ err', ¬ e''.Fails v.vars err' := by
  have hfailure : failure? (v.evaluate e) = e.postorder.findSome? (Expr.fault? v.vars) := e.failure?_eval
  constructor
  · rw [← failure?_eq_none_iff, hfailure, List.findSome?_eq_none_iff]
    simp only [Expr.fault?_eq_none_iff]
  · intro err
    rw [← failure?_eq_some_iff, hfailure, List.findSome?_eq_some_iff]
    simp only [Expr.fault?_eq_some_iff, Expr.fault?_eq_none_iff]

/-- Arguments come before the function, and its name before their number. -/
example : Evaluator.evaluate {} (.call "f" [.call "ceil" [], .var "x"]) = .error (.arity "ceil" 1 1 0) := rfl

end Formula
