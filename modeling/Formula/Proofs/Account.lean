import Formula.Log
import Formula.Proofs.Closing
import Formula.Proofs.Split
/-!
# The log is an exact account

What the log of a formula has to say is said here without the log (`Accounts`): the tokens of the formula up to where
its text is stuck, the calls of its expression or those that end before its first fault, the expression, and the
value. How far its tokens are read is told by the grammar, as long as an expression that is not too deep begins with
them (`Reaches`). No formula has two accounts, and its log is the one it has: `log_eq_iff_accounts`. Log and evaluation
are two functions; that they go together is `Evaluator.getLast?_log_eq_some_iff`.
-/

namespace Formula

/-! ## How far tokens are read -/

/-- Some expression that the limit allows begins with the tokens. -/
def Begins (limit : Nat) (ts : List Token) : Prop := ∃ us n k e, SumDepth n k (ts ++ us) e ∧ k + 1 ≤ limit

/-- Of the tokens `ts` those in `us` are read, and the next one is refused. -/
structure Reaches (limit : Nat) (ts us : List Token) : Prop where
  initial : us <+: ts
  begins : us = [] ∨ Begins limit us
  stops : ∀ t, us ++ [t] <+: ts → ¬ Begins limit (us ++ [t])

variable {limit : Nat} {ts us us' : List Token}

theorem Begins.of_initial (h : Begins limit us) (hus : us' <+: us) : Begins limit us' := by
  obtain ⟨vs, rfl⟩ := hus
  obtain ⟨ws, n, k, e, hd, hk⟩ := h
  rw [List.append_assoc] at hd
  exact ⟨vs ++ ws, n, k, e, hd, hk⟩

/-- A longer run would begin with a token that is refused. -/
theorem Reaches.eq_of_initial (h : Reaches limit ts us) (h' : Reaches limit ts us') (hus : us <+: us') : us = us' := by
  obtain ⟨vs, rfl⟩ := hus
  cases vs with
  | nil => exact (List.append_nil us).symm
  | cons t vs =>
    have hnext : us ++ [t] <+: us ++ t :: vs := ⟨vs, by simp⟩
    rcases h'.begins with hnil | hbegins
    · simp at hnil
    · exact absurd (hbegins.of_initial hnext) (h.stops t (hnext.trans h'.initial))

theorem Reaches.unique (h : Reaches limit ts us) (h' : Reaches limit ts us') : us = us' := by
  rcases List.prefix_or_prefix_of_prefix h.initial h'.initial with hus | hus
  · exact h.eq_of_initial h' hus
  · exact (h'.eq_of_initial h hus).symm

namespace Draft

theorem begins_iff_run : Begins limit ts ↔ ∃ d, run limit ts = .ok d := by
  constructor
  · rintro ⟨us, n, k, e, hd, hk⟩
    exact exists_run_of_ofTokens (ofTokens_eq_ok_iff_depth.2 ⟨n, k, hd, hk⟩)
  · rintro ⟨d, hrun⟩
    obtain ⟨us, e, hread⟩ := exists_ofTokens_of_run hrun
    obtain ⟨n, k, hd, hk⟩ := ofTokens_eq_ok_iff_depth.1 hread
    exact ⟨us, n, k, e, hd, hk⟩

/-- A draft is read until a token is refused, and has then noted what it had noted in front of it. -/
theorem exists_reach (limit : Nat) (d : Draft) (ts : List Token) :
    ∃ us vs d', ts = us ++ vs ∧ d.pushAll limit us = .ok d' ∧ (d.read limit ts).calls = d'.calls.reverse ∧
      ∀ t ∈ vs.head?, ∃ err, d'.push limit t = .error err := by
  induction ts generalizing d with
  | nil => exact ⟨[], [], d, rfl, rfl, rfl, nofun⟩
  | cons t ts ih =>
    cases hpush : d.push limit t with
    | error err =>
      refine ⟨[], t :: ts, d, rfl, rfl, by rw [read, hpush], ?_⟩
      rintro _ ⟨⟩
      exact ⟨err, hpush⟩
    | ok d₁ =>
      obtain ⟨us, vs, d', rfl, hus, hcalls, hvs⟩ := ih d₁
      exact ⟨t :: us, vs, d', rfl, by rwa [pushAll_cons_of_push hpush], by rw [← hcalls, read, hpush], hvs⟩

end Draft

open Draft

/-- Whatever tokens are, the calls noted are those that end before the first token that is refused. -/
theorem exists_reaches (limit : Nat) (ts : List Token) :
    ∃ us, Reaches limit ts us ∧ Closes [] us (Expr.read limit ts).calls := by
  unfold Expr.read
  cases hstart : start limit with
  | error err =>
    refine ⟨[], ⟨List.nil_prefix, .inl rfl, fun t _ h => ?_⟩, .nil⟩
    obtain ⟨d, hrun⟩ := begins_iff_run.1 h
    rw [run, hstart] at hrun
    cases hrun
  | ok d₀ =>
    obtain ⟨us, vs, d, rfl, hus, hcalls, hvs⟩ := d₀.exists_reach limit ts
    have hrun : run limit us = .ok d := by
      rw [run, hstart]
      exact hus
    refine ⟨us, ⟨List.prefix_append us vs, .inr (begins_iff_run.2 ⟨d, hrun⟩), fun t ht h => ?_⟩, ?_⟩
    · obtain ⟨d', hrun'⟩ := begins_iff_run.1 h
      rw [run_append_of_run hrun, pushAll_singleton] at hrun'
      have hhead : t ∈ vs.head? := by
        rw [List.prefix_append_right_inj] at ht
        obtain ⟨ws, rfl⟩ := ht
        rfl
      obtain ⟨err, herr⟩ := hvs t hhead
      rw [herr] at hrun'
      cases hrun'
    · dsimp only
      rw [hcalls]
      exact closes_of_run hrun

/-! ## What a log has to say -/

def tokenLine (t : Token) : Record := .trace ("Token: " ++ t.detailed)

def callLine (c : Call) : Record :=
  .debug ("Function call: " ++ c.function ++ " with " ++ toString c.arity ++ " arguments")

/-- The lines about the expression of a formula, and about its value if it has one. -/
inductive AccountsForExpr (v : Evaluator) (text : String) (e : Expr) : List Record → Prop
  | value {x} (h : v.evaluate e = .ok x) : AccountsForExpr v text e
    [.debug ("Parse result: " ++ e.text), .debug ("Result of " ++ text ++ ": " ++ numberText x)]
  | error {err} (h : v.evaluate e = .error err) : AccountsForExpr v text e [.debug ("Parse result: " ++ e.text)]

/-- The lines about the number of tokens and about calls, and about the expression if the tokens make one up. -/
inductive AccountsForTokens (v : Evaluator) (text : String) (ts : List Token) : List Record → Prop
  | expr {e rs} (h : Expr.ofTokens v.limit ts = .ok e) (hrs : AccountsForExpr v text e rs) :
    AccountsForTokens v text ts
      (.debug ("Produced " ++ toString ts.length ++ " tokens") :: e.calls.map callLine ++ rs)
  | error {err us cs} (h : Expr.ofTokens v.limit ts = .error err) (hus : Reaches v.limit ts us)
    (hcs : Closes [] us cs) :
    AccountsForTokens v text ts (.debug ("Produced " ++ toString ts.length ++ " tokens") :: cs.map callLine)

/-- The lines about a formula and its tokens, and about what they make up if the text has nothing but tokens. -/
inductive Accounts (v : Evaluator) (text : String) : List Record → Prop
  | tokens {ts rs} (h : tokenize text = .ok ts) (hrs : AccountsForTokens v text ts rs) : Accounts v text
    (.debug ("Evaluating expression: " ++ text) :: .debug ("Tokenizing expression: " ++ text) :: ts.map tokenLine ++ rs)
  | error {err s rest} (h : tokenize text = .error err) (hs : Split.Covers s text.toList rest) (hrest : IsStuck rest) :
    Accounts v text
      (.debug ("Evaluating expression: " ++ text) :: .debug ("Tokenizing expression: " ++ text) ::
        s.tokens.map tokenLine)

variable {v : Evaluator} {text : String} {e : Expr} {rs rs' : List Record}

theorem AccountsForExpr.unique (h : AccountsForExpr v text e rs) (h' : AccountsForExpr v text e rs') : rs = rs' := by
  cases h with
  | value h =>
    cases h' with
    | value h' => rw [h] at h'; cases h'; rfl
    | error h' => rw [h] at h'; cases h'
  | error h =>
    cases h' with
    | value h' => rw [h] at h'; cases h'
    | error h' => rfl

theorem AccountsForTokens.unique (h : AccountsForTokens v text ts rs) (h' : AccountsForTokens v text ts rs') :
    rs = rs' := by
  cases h with
  | expr h hrs =>
    cases h' with
    | expr h' hrs' => rw [h] at h'; cases h'; rw [hrs.unique hrs']
    | error h' _ _ => rw [h] at h'; cases h'
  | error h hus hcs =>
    cases h' with
    | expr h' _ => rw [h] at h'; cases h'
    | error h' hus' hcs' =>
      obtain rfl := hus.unique hus'
      rw [hcs.unique hcs']

/-- No formula has two accounts. -/
theorem Accounts.unique (h : Accounts v text rs) (h' : Accounts v text rs') : rs = rs' := by
  cases h with
  | tokens h hrs =>
    cases h' with
    | tokens h' hrs' => rw [h] at h'; cases h'; rw [hrs.unique hrs']
    | error h' _ _ => rw [h] at h'; cases h'
  | @error _ s rest h hs hrest =>
    cases h' with
    | tokens h' _ => rw [h] at h'; cases h'
    | @error _ s' rest' h' hs' hrest' =>
      have hscan := (Scan.ofText_eq_iff_covers hrest).2 ⟨s, hs, rfl⟩
      rw [(Scan.ofText_eq_iff_covers hrest').2 ⟨s', hs', rfl⟩] at hscan
      rw [(Scan.mk.inj hscan).1]

/-! ## Main theorem -/

theorem accountsForExpr_logExpr (v : Evaluator) (text : String) (e : Expr) :
    AccountsForExpr v text e (v.logExpr text e) := by
  unfold Evaluator.logExpr
  cases h : v.evaluate e with
  | ok x => exact .value h
  | error err => exact .error h

theorem accountsForTokens_logTokens (v : Evaluator) (text : String) (ts : List Token) :
    AccountsForTokens v text ts (v.logTokens text ts) := by
  have hresult : (Expr.read v.limit ts).result = Expr.ofTokens v.limit ts := rfl
  rw [Evaluator.logTokens, hresult]
  cases h : Expr.ofTokens v.limit ts with
  | ok e =>
    rw [Expr.calls_read h]
    exact .expr h (accountsForExpr_logExpr v text e)
  | error err =>
    obtain ⟨us, hus, hcs⟩ := exists_reaches v.limit ts
    dsimp only
    rw [List.append_nil]
    exact .error h hus hcs

theorem accounts_log (v : Evaluator) (text : String) : Accounts v text (v.log text) := by
  rw [Evaluator.log]
  cases hfault : Scan.fault? text.toList (Scan.ofText text.toList).rest with
  | none =>
    have h : tokenize text = .ok (Scan.ofText text.toList).tokens := by simp only [tokenize, hfault]
    exact .tokens h (accountsForTokens_logTokens v text _)
  | some err =>
    have h : tokenize text = .error err := by simp only [tokenize, hfault]
    obtain ⟨s, hs, htokens, hrest⟩ := Scan.exists_covers text.toList
    rw [← htokens]
    dsimp only
    rw [List.append_nil]
    exact .error h hs hrest

/-- The log of a formula is its one account: every token read and every call closed up to the first fault, each once
and in its order, then the expression, and the value if there is one. -/
theorem log_eq_iff_accounts (v : Evaluator) (text : String) (rs : List Record) :
    v.log text = rs ↔ Accounts v text rs := by
  refine ⟨?_, (accounts_log v text).unique⟩
  rintro rfl
  exact accounts_log v text

/-! ## The value at the end of a log -/

namespace Record

/-- A line on the way to a value: only the line for the value itself starts with this letter. -/
def IsProgress (l : Record) : Prop := l.message.toList.head? ≠ some 'R'

theorem not_isProgress_result (text : String) (x : Float) : ¬ (result text x).IsProgress := by
  simp [IsProgress, result, debug]

theorem IsProgress.of_token (t : Token) : t.record.IsProgress := by
  simp [IsProgress, Token.record, trace]

theorem IsProgress.of_call (c : Call) : c.record.IsProgress := by
  simp [IsProgress, Call.record, debug]

theorem result_inj {text : String} {x y : Float} : result text x = result text y ↔ x = y := by
  rw [result, result, debug, debug, mk.injEq, String.append_right_inj, numberText_injective.eq_iff]
  exact and_iff_right rfl

end Record

namespace Evaluator

/-- What the log says of a formula on the way, and then its value if it has one. -/
def EndsWithValue (text : String) (log : List Record) (r : Except Error Float) : Prop :=
  ∃ rs, log = rs ++ r.toOption.toList.map (.result text) ∧ ∀ l ∈ rs, l.IsProgress

namespace EndsWithValue

variable {log : List Record} {r : Except Error Float}

theorem append (h : EndsWithValue text log r) (hrs : ∀ l ∈ rs, l.IsProgress) : EndsWithValue text (rs ++ log) r := by
  obtain ⟨rs', rfl, hrs'⟩ := h
  refine ⟨rs ++ rs', (List.append_assoc _ _ _).symm, fun l hl => ?_⟩
  rcases List.mem_append.1 hl with hl | hl
  · exact hrs l hl
  · exact hrs' l hl

theorem error (text : String) (err : Error) : EndsWithValue text [] (.error err) := ⟨[], rfl, List.forall_mem_nil _⟩

theorem getLast?_eq_some_iff (h : EndsWithValue text log r) {x : Float} :
    log.getLast? = some (.result text x) ↔ r = .ok x := by
  obtain ⟨rs, rfl, hrs⟩ := h
  cases r with
  | ok y =>
    show (rs ++ [Record.result text y]).getLast? = _ ↔ _
    rw [List.getLast?_concat, Option.some.injEq, Record.result_inj, Except.ok.injEq]
  | error err =>
    show (rs ++ []).getLast? = _ ↔ _
    rw [List.append_nil]
    constructor
    · intro hlast
      exact absurd (hrs _ (List.mem_of_getLast? hlast)) (Record.not_isProgress_result text x)
    · rintro ⟨⟩

end EndsWithValue

theorem endsWithValue_logExpr (v : Evaluator) (text : String) (e : Expr) :
    EndsWithValue text (v.logExpr text e) (v.evaluate e) := by
  refine ⟨[.debug ("Parse result: " ++ e.text)], ?_, ?_⟩
  · rw [logExpr]
    cases v.evaluate e <;> rfl
  · simp [Record.IsProgress, Record.debug]

theorem endsWithValue_logTokens (v : Evaluator) (text : String) (ts : List Token) :
    EndsWithValue text (v.logTokens text ts) ((Expr.ofTokens v.limit ts).mapError .malformed >>= v.evaluate) := by
  have hresult : (Expr.read v.limit ts).result = Expr.ofTokens v.limit ts := rfl
  rw [logTokens, hresult]
  refine .append ?_ (List.forall_mem_cons.2 ⟨?_, List.forall_mem_map.2 fun c _ => .of_call c⟩)
  · cases Expr.ofTokens v.limit ts with
    | ok e => exact endsWithValue_logExpr v text e
    | error err => exact .error text _
  · simp [Record.IsProgress, Record.debug]

theorem endsWithValue_log (v : Evaluator) (text : String) : EndsWithValue text (v.log text) (v.evaluateText text) := by
  rw [log, evaluateText, parse, Expr.ofText, tokenize]
  have htokens : ∀ l ∈ (Scan.ofText text.toList).tokens.map Token.record, l.IsProgress :=
    List.forall_mem_map.2 fun t _ => .of_token t
  refine .append ?_ (List.forall_mem_cons.2 ⟨?_, List.forall_mem_cons.2 ⟨?_, htokens⟩⟩)
  · cases Scan.fault? text.toList (Scan.ofText text.toList).rest with
    | none => exact endsWithValue_logTokens v text _
    | some err => exact .error text _
  · simp [Record.IsProgress, Record.debug]
  · simp [Record.IsProgress, Record.debug]

/-- The log of a formula ends with the line for a value exactly if the formula has that value. -/
theorem getLast?_log_eq_some_iff (v : Evaluator) (text : String) (x : Float) :
    (v.log text).getLast? = some (.result text x) ↔ v.evaluateText text = .ok x :=
  (endsWithValue_log v text).getLast?_eq_some_iff

end Evaluator

end Formula
