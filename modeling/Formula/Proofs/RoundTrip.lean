import Formula.Proofs.Scanning
/-!
# Reading what has been written

The text of an expression is read as the expression it says (`Expr.reread`), if the limit allows the depth
that its parentheses take, and is refused as too deep otherwise: `ofTokens_of_text`. So an expression
that was read under a limit is read again from its own text exactly if it holds no infinity and its text is
not too deep for the same limit: `exists_same_iff`.
-/

namespace Formula

open Binary64

theorem Expr.ofText_text {e : Expr} (h : e.IsWritable) (limit : Nat) :
    Expr.ofText limit e.text = if e.cost + 1 ≤ limit then .ok e.reread else .error (.tooDeep limit) := by
  rw [Expr.ofText, tokenize_text h]
  exact Expr.ofTokens_tokens e limit

/-- A text is read again from its expression if nothing is lost and the text of the expression is not too deep. -/
theorem Expr.again_iff {e : Expr} (h : e.IsWritable) (limit : Nat) :
    (∃ e', Expr.ofText limit e.text = .ok e' ∧ e'.same e) ↔ e.IsFinite ∧ e.cost + 1 ≤ limit := by
  rw [Expr.ofText_text h]
  split
  · next hlimit => simp [Expr.same_reread_iff e h, hlimit]
  · next hlimit => simp [hlimit]

/-! ## Powers of ten -/

theorem tokenize_digits {ds : List Char} (hd : ∀ c ∈ ds, c.isDigit) (hne : ds ≠ []) :
    tokenize (.ofList ds) = .ok [.number (Decimal.toFloat ⟨Nat.ofDigitChars 10 ds 0, 0⟩)] := by
  have hscan := Scan.ofText_numeral (Decimal.ofNumeral?_digits hd hne) apart_nil
  rw [List.append_nil, Scan.ofText_nil] at hscan
  simp only [tokenize, String.toList_ofList, hscan]
  rfl

/-- A one with zeros behind it is read as a power of ten. -/
theorem ofText_power {limit : Nat} (h : 1 ≤ limit) (k : Nat) :
    Expr.ofText limit (.ofList ('1' :: List.replicate k '0')) = .ok (.literal (Decimal.toFloat ⟨10 ^ k, 0⟩)) := by
  have hd : ∀ c ∈ '1' :: List.replicate k '0', c.isDigit := by
    intro c hc
    rcases List.mem_cons.1 hc with rfl | hc
    · rfl
    · rw [(List.mem_replicate.1 hc).2]
      rfl
  have hvalue : Nat.ofDigitChars 10 ('1' :: List.replicate k '0') 0 = 10 ^ k := by
    rw [Nat.ofDigitChars_cons, Nat.ofDigitChars_replicate_zero]
    exact Nat.mul_one _
  rw [Expr.ofText, tokenize_digits hd (by simp), hvalue]
  exact (ofTokens_of_depth (.term (.operand (.number _))) limit).trans (if_pos h)

/-! ## Chains -/

/-- The sum of `n + 1` variables, which leans to the left. -/
def chain : Nat → Expr
  | 0 => .var "x"
  | n + 1 => .binary (chain n) .add (.var "x")

def chainTokens : Nat → List Token
  | 0 => [.identifier "x"]
  | n + 1 => chainTokens n ++ [.operator '+', .identifier "x"]

/-- The sum as one would write it, without parentheses. -/
def chainText : Nat → List Char
  | 0 => ['x']
  | n + 1 => chainText n ++ ['+', 'x']

theorem isName_x : IsName "x" := ⟨'x', [], rfl, rfl, by simp⟩

theorem ofText_chainText (n : Nat) {rest : List Char} (hr : Apart rest) :
    Scan.ofText (chainText n ++ rest) = Scan.after (chainTokens n) (Scan.ofText rest) := by
  induction n generalizing rest with
  | zero => exact Scan.ofText_name isName_x hr
  | succ n ih =>
    calc Scan.ofText (chainText (n + 1) ++ rest)
      _ = Scan.ofText (chainText n ++ Operator.add.symbol :: ("x".toList ++ rest)) := by
        simp [chainText, Operator.symbol]
      _ = Scan.after (chainTokens n) (Scan.ofText (Operator.add.symbol :: ("x".toList ++ rest))) :=
        ih (apart_cons _ (by decide))
      _ = Scan.after (chainTokens (n + 1)) (Scan.ofText rest) := by
        rw [Scan.ofText_operator, Scan.ofText_name isName_x hr]
        simp [Scan.after, chainTokens, Operator.symbol]

theorem sumDepth_chain (n : Nat) : SumDepth n n (chainTokens n) (chain n) := by
  induction n with
  | zero => exact .term (.operand (.var "x"))
  | succ n ih =>
    have hjoin := @SumDepth.join _ _ _ _ _ _ _ _ .add ih rfl (.operand (.var "x"))
    rwa [Nat.max_eq_right (by omega)] at hjoin

theorem cost_chain (n : Nat) : (chain (n + 1)).cost = n + 2 := by
  induction n with
  | zero => rfl
  | succ n ih =>
    rw [chain, Expr.cost, ih, Expr.cost]
    omega

theorem isWritable_chain (n : Nat) : (chain n).IsWritable := by
  induction n with
  | zero => exact isName_x
  | succ n ih => exact ⟨ih, isName_x⟩

/-- Under every limit from two on, some chain is read whose own text is then too deep. -/
theorem chain_too_deep (n : Nat) :
    Expr.ofText (n + 2) (.ofList (chainText (n + 1))) = .ok (chain (n + 1)) ∧
      Expr.ofText (n + 2) (chain (n + 1)).text = .error (.tooDeep (n + 2)) := by
  have hscan := ofText_chainText (n + 1) apart_nil
  rw [List.append_nil, Scan.ofText_nil] at hscan
  have htokens : tokenize (.ofList (chainText (n + 1))) = .ok (chainTokens (n + 1)) := by
    simp only [tokenize, String.toList_ofList, hscan, Scan.after, List.append_nil]
    rfl
  constructor
  · rw [Expr.ofText, htokens]
    exact (ofTokens_of_depth (sumDepth_chain (n + 1)) (n + 2)).trans (if_pos (Nat.le_refl _))
  · rw [Expr.ofText_text (isWritable_chain _), cost_chain, if_neg (by omega)]

/-! ## Main theorems -/

/-- Every expression that a text can say can be written, and what can be written is scanned. Reading the
tokens gives the expression with a variable in place of infinity, and takes as much depth as the expression
costs and one more. -/
theorem ofTokens_of_text :
    (∀ limit text e, Expr.ofText limit text = .ok e → e.IsWritable) ∧
    ∀ e : Expr, e.IsWritable → ∃ ts, tokenize e.text = .ok ts ∧
      ∀ limit, Expr.ofTokens limit ts = if 1 + e.cost ≤ limit then .ok e.reread else .error (.tooDeep limit) := by
  refine ⟨fun _ _ _ => Expr.isWritable_of_ofText, fun e h => ⟨e.tokens, tokenize_text h, fun limit => ?_⟩⟩
  rw [Nat.add_comm, Expr.ofTokens_tokens]

/-- Infinity added to `f(x)`: read as a sum of a variable from depth four on. -/
theorem ofTokens_of_text_of_infinity :
    let inf : Float := ofMagnitude false infinity
    let e : Expr := .binary (.literal inf) .add (.call "f" [.var "x"])
    e.IsWritable ∧ ∃ ts, tokenize e.text = .ok ts ∧ Expr.ofTokens 3 ts = .error (.tooDeep 3) ∧
      Expr.ofTokens 4 ts = .ok (.binary (.var "inf") .add (.call "f" [.var "x"])) := by
  intro inf e
  have hinf : magnitude inf = infinity := magnitude_ofMagnitude (Nat.le_refl _)
  have hwritable : e.IsWritable := by
    refine ⟨⟨Nat.le_of_eq hinf, isNegative_ofMagnitude (Nat.le_refl _)⟩, ⟨'f', [], rfl, rfl, by simp⟩, ?_, trivial⟩
    exact ⟨'x', [], rfl, rfl, by simp⟩
  obtain ⟨ts, hts, hread⟩ := ofTokens_of_text.2 e hwritable
  refine ⟨hwritable, ts, hts, hread 3, (hread 4).trans ?_⟩
  rw [if_pos (by decide)]
  simp [e, Expr.reread, Expr.rereadList, hinf]

/-- An expression that was read is read again from its own text, under the same limit, exactly if it has no
infinite number and its own text is not too deep. -/
theorem exists_same_iff {limit : Nat} {text : String} {e : Expr} (h : Expr.ofText limit text = .ok e) :
    (∃ e', Expr.ofText limit e.text = .ok e' ∧ e'.same e) ↔ e.IsFinite ∧ e.cost + 1 ≤ limit :=
  Expr.again_iff (Expr.isWritable_of_ofText h) limit

/-- Where there is no number, only depth counts. -/
theorem exists_same_of_names :
    let e : Expr := .binary (.binary (.var "a") .subtract (.call "f" [])) .multiply (.var "b")
    Expr.ofText Expr.defaultLimit "((a - f()) * b)" = .ok e ∧
      ∃ e', Expr.ofText Expr.defaultLimit e.text = .ok e' ∧ e'.same e := by
  intro e
  have hwritable : e.IsWritable :=
    ⟨⟨⟨'a', [], rfl, rfl, by simp⟩, ⟨'f', [], rfl, rfl, by simp⟩, trivial⟩, ⟨'b', [], rfl, rfl, by simp⟩⟩
  have hread : Expr.ofText Expr.defaultLimit "((a - f()) * b)" = .ok e :=
    (Expr.ofText_text hwritable _).trans (if_pos (by decide))
  exact ⟨hread, (exists_same_iff hread).2 ⟨⟨⟨trivial, trivial, trivial⟩, trivial⟩, by decide⟩⟩

/-- The text of what is read from a one and 309 zeros says a variable. -/
theorem not_exists_same_of_power :
    ∃ e, Expr.ofText Expr.defaultLimit (.ofList ('1' :: List.replicate 309 '0')) = .ok e ∧
      ¬ ∃ e', Expr.ofText Expr.defaultLimit e.text = .ok e' ∧ e'.same e := by
  have hread := ofText_power (show 1 ≤ Expr.defaultLimit by decide) 309
  refine ⟨_, hread, fun h => ?_⟩
  obtain ⟨hfin, -⟩ := (Expr.again_iff (Expr.isWritable_of_ofText hread) _).1 h
  rw [Expr.IsFinite, Expr.Every, magnitude_power (Nat.le_refl _)] at hfin
  exact Nat.lt_irrefl _ hfin

end Formula
