import Formula.Proofs.Limit
import Formula.Proofs.Soundness
/-!
# How the tokens of a draft end

A draft accounts for its tokens (`Draft.Holds`), so two things can be told from them that it knows from its
phase and its levels: whether an operand stands at the end (`Draft.Holds.closes_iff`), and how many parentheses
are open (`Draft.Holds.count_parens`).
-/

namespace Formula

/-! ## The last token of a draft -/

theorem Chain.Holds.getLast? {c : Chain} {ts : List Token} (h : c.Holds ts) :
    ts = [] ∨ ∃ op : Operator, ts.getLast? = some (.operator op.symbol) := by
  obtain ⟨base, sums, products, sum, product⟩ := c
  obtain ⟨us, vs, hs, hp, rfl⟩ := h
  dsimp only at hs hp
  cases hp with
  | @some _ _ op _ _ => exact .inr ⟨op, by simp⟩
  | none =>
    cases hs with
    | @some _ _ op _ _ => exact .inr ⟨op, by simp⟩
    | none => exact .inl rfl

theorem Opener.Holds.getLast? {o : Opener} {ts : List Token} (h : o.Holds ts) :
    ∃ t, ts.getLast? = some t ∧ (t = .openParen ∨ t = .comma) := by
  cases h with
  | group => exact ⟨.openParen, rfl, .inl rfl⟩
  | call f h =>
    cases h with
    | nil => exact ⟨.openParen, rfl, .inl rfl⟩
    | cons _ _ => exact ⟨.comma, by rw [← List.cons_append, ← List.cons_append, List.getLast?_concat], .inr rfl⟩

namespace Draft

variable {d : Draft} {ts : List Token} {e : Expr}

/-- Where an operand has to come, the last token is an operator, a parenthesis that opens a level, or a comma. -/
theorem Holds.getLast?_of_phase_operand (h : d.Holds ts) (hp : d.phase = .operand) :
    (∃ op : Operator, ts.getLast? = some (.operator op.symbol)) ∨
      (d.frames = [] ∧ ts = [] ∨ d.frames ≠ [] ∧ ∃ t, ts.getLast? = some t ∧ (t = .openParen ∨ t = .comma)) := by
  obtain ⟨us, vs, ws, hf, hc, hp', rfl⟩ := h
  rw [hp] at hp'
  cases hp'
  rcases hc.getLast? with rfl | ⟨op, hop⟩
  · cases hframes : d.frames with
    | nil =>
      rw [hframes] at hf
      cases hf
      exact .inr (.inl ⟨rfl, rfl⟩)
    | cons f fs =>
      rw [hframes] at hf
      obtain ⟨_, _, _, _, _, ho, rfl⟩ := hf
      obtain ⟨t, hlast, ht⟩ := ho.getLast?
      exact .inr (.inr ⟨nofun, t, by simp [hlast], ht⟩)
  · exact .inl ⟨op, by simp [hop]⟩

theorem Holds.getLast?_of_phase_argument {f : String} (h : d.Holds ts) (hp : d.phase = .argument f) :
    ∃ us, ts = us ++ [.identifier f, .openParen] := by
  obtain ⟨us, vs, ws, -, -, hp', rfl⟩ := h
  rw [hp] at hp'
  cases hp'
  exact ⟨us ++ vs, rfl⟩

/-- A draft has an operand behind it exactly if its last token may end an expression. -/
theorem Holds.closes_iff (h : d.Holds ts) :
    (∃ t, ts.getLast? = some t ∧ t.Closes) ↔ ∃ e, d.phase.operand? = some e := by
  constructor
  · rintro ⟨t, hlast, ht⟩
    cases hp : d.phase with
    | name x => exact ⟨_, rfl⟩
    | complete e => exact ⟨_, rfl⟩
    | argument f =>
      obtain ⟨us, rfl⟩ := h.getLast?_of_phase_argument hp
      simp only [List.getLast?_append, List.getLast?_cons_cons, List.getLast?_singleton, Option.some_or,
        Option.some.injEq] at hlast
      subst hlast
      exact ht.elim
    | operand =>
      rcases h.getLast?_of_phase_operand hp with ⟨op, hop⟩ | ⟨-, rfl⟩ | ⟨-, u, hu, rfl | rfl⟩
      · rw [hlast] at hop; cases hop; exact ht.elim
      · cases hlast
      · rw [hlast] at hu; cases hu; exact ht.elim
      · rw [hlast] at hu; cases hu; exact ht.elim
  · rintro ⟨e, ho⟩
    obtain ⟨us, vs, -, hs, rfl⟩ := h.exists_isSum ho
    obtain ⟨t, hlast, ht⟩ := hs.closes
    exact ⟨t, by simp [hlast], ht⟩

end Draft

/-! ## The open parentheses of a draft -/

theorem Chain.Holds.count_parens {c : Chain} {ts : List Token} (h : c.Holds ts) :
    ts.count .openParen = ts.count .closeParen := by
  -- The chain is an expression when an operand follows, and that changes no count.
  have hsum := (h.isSum (.var "x")).count_parens
  simpa using hsum

theorem ArgumentsHold.count_parens {es : List Expr} {ts : List Token} (h : ArgumentsHold es ts) :
    ts.count .openParen = ts.count .closeParen := by
  induction h with
  | nil => rfl
  | cons _ he ih => simp [ih, he.count_parens]

theorem Opener.Holds.count_parens {o : Opener} {ts : List Token} (h : o.Holds ts) :
    ts.count .openParen = ts.count .closeParen + 1 := by
  cases h with
  | group => rfl
  | call f h => simp [h.count_parens]

theorem FramesHold.count_parens {fs : List Frame} {ts : List Token} (h : FramesHold fs ts) :
    ts.count .openParen = ts.count .closeParen + fs.length := by
  induction fs generalizing ts with
  | nil => cases h; rfl
  | cons f fs ih =>
    obtain ⟨us, vs, ws, hf, hc, ho, rfl⟩ := h
    simp only [List.count_append, ih hf, hc.count_parens, ho.count_parens, List.length_cons]
    omega

namespace Draft

variable {d : Draft} {t : Token} {ts us : List Token}

/-- The levels around a draft are the parentheses still open, but for that of a call which has just begun. -/
theorem Holds.count_parens (h : d.Holds ts) :
    ts.count .openParen = ts.count .closeParen + d.frames.length + d.phase.ahead := by
  obtain ⟨us, vs, ws, hf, hc, hp, rfl⟩ := h
  have hws : ws.count .openParen = ws.count .closeParen + d.phase.ahead := by
    cases hphase : d.phase with
    | operand | argument _ | name _ => rw [hphase] at hp; cases hp; rfl
    | complete e => rw [hphase] at hp; cases hp with | complete he => exact he.count_parens
  simp only [List.count_append, hf.count_parens, hc.count_parens, hws]
  omega

/-- Behind a parenthesis that opens a level, and behind a comma, some parenthesis is open. -/
theorem Holds.count_lt (h : d.Holds (us ++ [t])) (ht : t = .openParen ∨ t = .comma) :
    (us ++ [t]).count .closeParen < (us ++ [t]).count .openParen := by
  have hcount := h.count_parens
  have hlast : (us ++ [t]).getLast? = some t := List.getLast?_concat
  have hopen : ¬ ∃ e, d.phase.operand? = some e := by
    rw [← h.closes_iff, hlast]
    rintro ⟨_, ⟨⟩, hcloses⟩
    rcases ht with rfl | rfl <;> exact hcloses
  cases hp : d.phase with
  | name x => exact absurd ⟨.var x, by rw [hp]; rfl⟩ hopen
  | complete e => exact absurd ⟨e, by rw [hp]; rfl⟩ hopen
  | argument f =>
    rw [hp, Phase.ahead] at hcount
    omega
  | operand =>
    rcases h.getLast?_of_phase_operand hp with ⟨op, hop⟩ | ⟨-, hnil⟩ | ⟨hframes, -⟩
    · rw [hlast] at hop
      cases hop
      rcases ht with ht | ht <;> cases ht
    · exact absurd hnil (by simp)
    · have := List.length_pos_iff.2 hframes
      omega

end Draft

end Formula
