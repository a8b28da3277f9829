import Formula.Proofs.RoundTrip
/-!
# The variables of a formula

A formula looks up the names that stand in front of no parenthesis, and no others: they are the variables of its
expression (`IsSum.variableNames_eq`). Two evaluations that find related values there come to related values, or fail
for the same reason (`Expr.eval_alike`), if the relation holds of what operations and builtins make of related values.
Equality is such a relation, and so is the one that holds of all values, for no value decides whether an evaluation
fails: `evaluateText_of_variableNames`.
-/

namespace Formula

/-- The names of variables among tokens: those in front of no parenthesis. -/
def Token.variableNames : List Token → List String
  | [] => []
  | .identifier x :: ts => if ts.head? = some .openParen then variableNames ts else x :: variableNames ts
  | _ :: ts => variableNames ts

/-- The names of variables in a text, or none if it does not fall into tokens. -/
def variableNamesOf (text : String) : List String :=
  match tokenize text with
  | .ok ts => Token.variableNames ts
  | .error _ => []

namespace Expr

mutual

/-- The variables of an expression, from left to right. -/
def variableNames : Expr → List String
  | literal _ => []
  | var name => [name]
  | binary l _ r => l.variableNames ++ r.variableNames
  | call _ es => variableNamesList es

/-- The variables of arguments. -/
def variableNamesList : List Expr → List String
  | [] => []
  | e :: es => e.variableNames ++ variableNamesList es

end

end Expr

/-! ## The tokens of variables -/

namespace Token

/-- Tokens can be told apart where no parenthesis follows a name. -/
theorem variableNames_append (ts : List Token) {us : List Token} (h : us.head? ≠ some .openParen) :
    variableNames (ts ++ us) = variableNames ts ++ variableNames us := by
  induction ts with
  | nil => rfl
  | cons t ts ih =>
    cases t with
    | number _ | openParen | closeParen | comma | operator _ => exact ih
    | identifier x =>
      have hhead : (ts ++ us).head? = some .openParen ↔ ts.head? = some .openParen := by
        cases ts with
        | nil => simpa using h
        | cons _ _ => rfl
      rw [List.cons_append, variableNames, variableNames, ih]
      simp only [hhead]
      split <;> rfl

theorem variableNames_function (f : String) (ts : List Token) :
    variableNames (.identifier f :: .openParen :: ts) = variableNames ts := by
  rw [variableNames, if_pos (by rfl), variableNames]
  nofun

theorem variableNames_operator (ts us : List Token) (c : Char) :
    variableNames (ts ++ .operator c :: us) = variableNames ts ++ variableNames us :=
  variableNames_append ts (by simp)

theorem variableNames_concat (ts : List Token) : variableNames (ts ++ [.closeParen]) = variableNames ts := by
  rw [variableNames_append ts (by simp)]
  exact List.append_nil _

end Token

open Token

mutual

theorem IsSum.variableNames_eq {ts : List Token} {e : Expr} : IsSum ts e → Token.variableNames ts = e.variableNames
  | .term h => h.variableNames_eq
  | .join hl _ hr => by rw [variableNames_operator, hl.variableNames_eq, hr.variableNames_eq, Expr.variableNames]

theorem IsTerm.variableNames_eq {ts : List Token} {e : Expr} : IsTerm ts e → Token.variableNames ts = e.variableNames
  | .operand h => h.variableNames_eq
  | .join hl _ hr => by rw [variableNames_operator, hl.variableNames_eq, hr.variableNames_eq, Expr.variableNames]

theorem IsOperand.variableNames_eq {ts : List Token} {e : Expr} :
    IsOperand ts e → Token.variableNames ts = e.variableNames
  | .number _ => rfl
  | .var _ => rfl
  | .group h => by
    rw [List.cons_append, Token.variableNames, variableNames_concat]
    · exact h.variableNames_eq
    · nofun
  | .constant f => variableNames_function f _
  | .call f h => by
    rw [List.cons_append, List.cons_append, variableNames_function, variableNames_concat, h.variableNames_eq,
      Expr.variableNames]

theorem IsArguments.variableNames_eq {ts : List Token} {es : List Expr} :
    IsArguments ts es → Token.variableNames ts = Expr.variableNamesList es
  | .last h => by rw [h.variableNames_eq, Expr.variableNamesList, Expr.variableNamesList, List.append_nil]
  | .more h hs => by
    rw [variableNames_append _ (by simp), h.variableNames_eq, Token.variableNames, hs.variableNames_eq,
      Expr.variableNamesList]
    nofun

end

theorem variableNamesOf_of_ofText {limit : Nat} {text : String} {e : Expr} (h : Expr.ofText limit text = .ok e) :
    variableNamesOf text = e.variableNames := by
  obtain ⟨ts, hts, he⟩ := Expr.exists_tokens_of_ofText h
  rw [variableNamesOf, hts]
  exact (isSum_of_ofTokens he).variableNames_eq

/-! ## Two evaluations -/

/-- Both succeed, with related values, or both fail for the same reason. -/
inductive Alike {α : Type} (R : α → α → Prop) : Except Error α → Except Error α → Prop
  | ok {x y} (h : R x y) : Alike R (.ok x) (.ok y)
  | error (err) : Alike R (.error err) (.error err)

theorem Alike.bind {α β : Type} {R : α → α → Prop} {S : β → β → Prop} {x y : Except Error α} {f g : α → Except Error β}
    (h : Alike R x y) (hfg : ∀ a b, R a b → Alike S (f a) (g b)) : Alike S (x >>= f) (y >>= g) := by
  cases h with
  | ok h => exact hfg _ _ h
  | error err => exact .error err

theorem Alike.eq {α : Type} {x y : Except Error α} (h : Alike Eq x y) : x = y := by
  cases h with
  | ok h => rw [h]
  | error err => rfl

/-- Operations and builtins make related values of related values. -/
structure IsCongruence (R : Float → Float → Prop) : Prop where
  refl : ∀ x, R x x
  apply : ∀ (op : Operator) (x x' y y' : Float), R x x' → R y y' → R (op.apply x y) (op.apply x' y')
  call : ∀ (f : String) (xs xs' : List Float), List.Forall₂ R xs xs' →
    Alike R (Builtin.callNamed f xs) (Builtin.callNamed f xs')

theorem isCongruence_eq : IsCongruence Eq where
  refl _ := rfl
  apply op x x' y y' hx hy := by rw [hx, hy]
  call f xs xs' h := by
    rw [List.forall₂_eq_eq_eq] at h
    subst h
    cases Builtin.callNamed f xs with
    | ok v => exact .ok rfl
    | error err => exact .error err

/-- Only the number of the arguments decides whether a builtin can be called. -/
theorem Builtin.call_alike (b : Builtin) {xs xs' : List Float} (h : xs.length = xs'.length) :
    Alike (fun _ _ => True) (b.call xs) (b.call xs') := by
  unfold call
  by_cases hxs : b.required ≤ xs.length ∧ xs.length ≤ b.required + b.optional
  · rw [dif_pos hxs, dif_pos (h ▸ hxs)]
    exact .ok trivial
  · rw [dif_neg hxs, dif_neg (h ▸ hxs), h]
    exact .error _

theorem isCongruence_true : IsCongruence fun _ _ => True where
  refl _ := trivial
  apply _ _ _ _ _ _ _ := trivial
  call f xs xs' h := by
    unfold Builtin.callNamed
    split
    · exact Builtin.call_alike _ h.length_eq
    · exact .error _

theorem rel_true_of_isSome {o o' : Option Float} (h : o.isSome ↔ o'.isSome) : Option.Rel (fun _ _ => True) o o' := by
  cases o with
  | none =>
    cases o' with
    | none => exact .none
    | some _ => simp at h
  | some _ =>
    cases o' with
    | none => simp at h
    | some _ => exact .some trivial

namespace Expr

variable {R : Float → Float → Prop} {vars vars' : Bindings}

mutual

theorem eval_alike (hR : IsCongruence R) : ∀ e : Expr, (∀ x ∈ e.variableNames, Option.Rel R vars[x]? vars'[x]?) →
    Alike R (e.eval vars) (e.eval vars')
  | literal y, _ => by
    rw [eval, eval]
    exact .ok (hR.refl y)
  | var name, h => by
    have hname := h name (by rw [variableNames]; exact List.mem_singleton_self name)
    rw [eval, eval]
    generalize vars[name]? = v, vars'[name]? = v' at hname
    cases hname with
    | some hv => exact .ok hv
    | none => exact .error _
  | binary l op r, h => by
    rw [variableNames] at h
    rw [eval, eval]
    refine (eval_alike hR l fun x hx => h x (List.mem_append_left _ hx)).bind fun x x' hx => ?_
    refine (eval_alike hR r fun x hx => h x (List.mem_append_right _ hx)).bind fun y y' hy => ?_
    exact .ok (hR.apply op x x' y y' hx hy)
  | call f es, h => by
    rw [variableNames] at h
    rw [eval, eval]
    exact (evalList_alike hR es h).bind fun xs xs' hxs => hR.call f xs xs' hxs

theorem evalList_alike (hR : IsCongruence R) : ∀ es : List Expr,
    (∀ x ∈ variableNamesList es, Option.Rel R vars[x]? vars'[x]?) →
    Alike (List.Forall₂ R) (evalList vars es) (evalList vars' es)
  | [], _ => by
    rw [evalList, evalList]
    exact .ok .nil
  | e :: es, h => by
    rw [variableNamesList] at h
    rw [evalList, evalList]
    refine (eval_alike hR e fun x hx => h x (List.mem_append_left _ hx)).bind fun x x' hx => ?_
    refine (evalList_alike hR es fun x hx => h x (List.mem_append_right _ hx)).bind fun xs xs' hxs => ?_
    exact .ok (.cons hx hxs)

end

end Expr

namespace Evaluator

variable {R : Float → Float → Prop} {vars vars' : Bindings} {limit : Nat} {text : String}

theorem evaluateText_alike (hR : IsCongruence R) (h : ∀ x ∈ variableNamesOf text, Option.Rel R vars[x]? vars'[x]?) :
    Alike R (evaluateText ⟨vars, limit⟩ text) (evaluateText ⟨vars', limit⟩ text) := by
  unfold evaluateText parse evaluate
  cases he : Expr.ofText limit text with
  | error err => exact .error _
  | ok e =>
    rw [variableNamesOf_of_ofText he] at h
    exact Expr.eval_alike hR e h

/-- Equal values come to equal results. -/
theorem evaluateText_congr (h : ∀ x ∈ variableNamesOf text, vars[x]? = vars'[x]?) :
    evaluateText ⟨vars, limit⟩ text = evaluateText ⟨vars', limit⟩ text := by
  have halike : Alike Eq (evaluateText ⟨vars, limit⟩ text) (evaluateText ⟨vars', limit⟩ text) := by
    refine evaluateText_alike isCongruence_eq fun x hx => ?_
    rw [h x hx]
    cases vars'[x]? with
    | none => exact .none
    | some y => exact .some rfl
  exact halike.eq

/-- Whatever the values are, they decide no failure. -/
theorem evaluateText_ok_or_error (h : ∀ x ∈ variableNamesOf text, x ∈ vars ↔ x ∈ vars') :
    (∃ y y', evaluateText ⟨vars, limit⟩ text = .ok y ∧ evaluateText ⟨vars', limit⟩ text = .ok y') ∨
      ∃ err, evaluateText ⟨vars, limit⟩ text = .error err ∧ evaluateText ⟨vars', limit⟩ text = .error err := by
  have halike : Alike (fun _ _ => True) (evaluateText ⟨vars, limit⟩ text) (evaluateText ⟨vars', limit⟩ text) := by
    refine evaluateText_alike isCongruence_true fun x hx => ?_
    refine rel_true_of_isSome ?_
    rw [← Std.TreeMap.mem_iff_isSome_getElem?, ← Std.TreeMap.mem_iff_isSome_getElem?]
    exact h x hx
  generalize evaluateText ⟨vars, limit⟩ text = r, evaluateText ⟨vars', limit⟩ text = r' at halike
  cases halike with
  | ok _ => exact .inl ⟨_, _, rfl, rfl⟩
  | error err => exact .inr ⟨err, rfl, rfl⟩

end Evaluator

/-! ## Main theorem -/

/-- Of two tables, only what they bind of the variables of a formula matters. If they bind the same of them, the formula
has a value under both, or none under both and for the same reason; if to the same values, it comes to the same.
Whatever is bound to another name, or not, has no effect. -/
theorem evaluateText_of_variableNames (limit : Nat) (text : String) (vars vars' : Bindings) :
    ((∀ x ∈ variableNamesOf text, x ∈ vars ↔ x ∈ vars') →
      (∃ y y', Evaluator.evaluateText ⟨vars, limit⟩ text = .ok y ∧ Evaluator.evaluateText ⟨vars', limit⟩ text = .ok y') ∨
      ∃ err, Evaluator.evaluateText ⟨vars, limit⟩ text = .error err ∧
        Evaluator.evaluateText ⟨vars', limit⟩ text = .error err) ∧
    ((∀ x ∈ variableNamesOf text, vars[x]? = vars'[x]?) →
      Evaluator.evaluateText ⟨vars, limit⟩ text = Evaluator.evaluateText ⟨vars', limit⟩ text) ∧
    ∀ x ∉ variableNamesOf text,
      (∀ y, Evaluator.evaluateText ⟨vars.insert x y, limit⟩ text = Evaluator.evaluateText ⟨vars, limit⟩ text) ∧
      Evaluator.evaluateText ⟨vars.erase x, limit⟩ text = Evaluator.evaluateText ⟨vars, limit⟩ text := by
  refine ⟨Evaluator.evaluateText_ok_or_error, Evaluator.evaluateText_congr, fun x hx => ?_⟩
  have hne : ∀ z ∈ variableNamesOf text, ¬ compare x z = .eq := by
    rintro z hz hxz
    rw [Std.LawfulEqCmp.eq_of_compare hxz] at hx
    exact hx hz
  refine ⟨fun y => Evaluator.evaluateText_congr fun z hz => ?_, Evaluator.evaluateText_congr fun z hz => ?_⟩
  · rw [Std.TreeMap.getElem?_insert, if_neg (hne z hz)]
  · rw [Std.TreeMap.getElem?_erase, if_neg (hne z hz)]

/-- In `ceil((ceil / y))` the name of the function is that of a variable as well, and to divide by zero is no
failure. -/
theorem evaluateText_of_variableNames_of_quotient :
    let text := "ceil((ceil / y))"
    let vars : Bindings := Std.TreeMap.empty.insert "y" 0 |>.insert "ceil" 1
    let vars' : Bindings := Std.TreeMap.empty.insert "y" 3 |>.insert "ceil" 6
    variableNamesOf text = ["ceil", "y"] ∧ (∀ x ∈ variableNamesOf text, x ∈ vars ↔ x ∈ vars') ∧
      (∃ z z', Evaluator.evaluateText ⟨vars, 4⟩ text = .ok z ∧ Evaluator.evaluateText ⟨vars', 4⟩ text = .ok z') ∧
      "floor" ∉ variableNamesOf text ∧
      Evaluator.evaluateText ⟨vars.insert "floor" 2, 4⟩ text = Evaluator.evaluateText ⟨vars, 4⟩ text := by
  intro text vars vars'
  let e : Expr := .call "ceil" [.binary (.var "ceil") .divide (.var "y")]
  have hceil : IsName "ceil" := ⟨'c', ['e', 'i', 'l'], rfl, rfl, List.all_eq_true.1 rfl⟩
  have hwritable : e.IsWritable := ⟨hceil, ⟨hceil, 'y', [], rfl, rfl, by simp⟩, trivial⟩
  have hread : Expr.ofText 4 text = .ok e := (Expr.ofText_text hwritable _).trans (if_pos (by decide))
  have hnames : variableNamesOf text = ["ceil", "y"] := variableNamesOf_of_ofText hread
  have hbound : ∀ x ∈ variableNamesOf text, x ∈ vars ↔ x ∈ vars' := by
    rw [hnames]
    simp [vars, vars']
  have hvalue : Evaluator.evaluateText ⟨vars, 4⟩ text = .ok (Binary64.ceil (1 / 0)) := by
    have hx : (Expr.var "ceil").eval vars = .ok 1 := by rw [Expr.eval, Std.TreeMap.getElem?_insert_self]
    have hy : (Expr.var "y").eval vars = .ok 0 := by
      rw [Expr.eval, Std.TreeMap.getElem?_insert, if_neg (by decide), Std.TreeMap.getElem?_insert_self]
    rw [Evaluator.evaluateText, Evaluator.parse, hread]
    change e.eval vars = _
    rw [Expr.eval, Expr.evalList, Expr.evalList, Expr.eval, hx, hy]
    rfl
  obtain ⟨hsame, -, hother⟩ := evaluateText_of_variableNames 4 text vars vars'
  have hfloor : "floor" ∉ variableNamesOf text := by
    rw [hnames]
    decide
  refine ⟨hnames, hbound, (hsame hbound).resolve_right ?_, hfloor, (hother "floor" hfloor).1 2⟩
  rintro ⟨err, herr, -⟩
  rw [hvalue] at herr
  cases herr

end Formula
