import Formula.Expr.Reading
/-!
# Pushing tokens

What pushing one token, or several, does to a draft. All that one token can do is listed once (`Reads`, and
`Follows` behind an operand), and so is all that the end of the tokens can do (`Ends`).

`pushAll` is the run of a reader without its end, and `Takes` says of a run how deep it goes and where it
leads: it gets there exactly under the limits that allow the depth. Runs are put together by `Takes.append`.
-/

namespace Formula

theorem bind_eq_ok {α β ε : Type} {x : Except ε α} {f : α → Except ε β} {b : β} :
    (x >>= f) = .ok b ↔ ∃ a, x = .ok a ∧ f a = .ok b := by
  cases x with
  | ok a => exact ⟨fun h => ⟨a, rfl, h⟩, by rintro ⟨_, ⟨⟩, h⟩; exact h⟩
  | error e => exact ⟨nofun, by rintro ⟨_, ⟨⟩, _⟩⟩

theorem bind_eq_error {α β ε : Type} {x : Except ε α} {f : α → Except ε β} {e : ε} :
    (x >>= f) = .error e ↔ x = .error e ∨ ∃ a, x = .ok a ∧ f a = .error e := by
  cases x with
  | ok a => exact ⟨fun h => .inr ⟨a, rfl, h⟩, by rintro (⟨⟨⟩⟩ | ⟨_, ⟨⟩, h⟩); exact h⟩
  | error e' => exact ⟨fun h => .inl (by cases h; rfl), by rintro (⟨⟨⟩⟩ | ⟨_, ⟨⟩, _⟩); rfl⟩

/-- The operand that has just been read: a name alone is a variable. -/
def Phase.operand? : Phase → Option Expr
  | .complete e => some e
  | .name x => some (.var x)
  | .operand | .argument _ => none

namespace Chain

variable {c : Chain} {op : Operator}

theorem extend_of_isSum (h : op.isSum) (e : Expr) :
    c.extend e op = { base := c.base, sums := c.sums + 1, sum := some (c.expr e, op) } := if_pos h

theorem extend_of_not_isSum (h : op.isSum = false) (e : Expr) :
    c.extend e op = { c with products := c.products + 1, product := some (c.term e, op) } :=
  if_neg (by simp [h])

end Chain

namespace Draft

/-- Pushes tokens, the first one first. -/
def pushAll (limit : Nat) (d : Draft) (ts : List Token) : Except SyntaxError Draft :=
  ts.foldlM (push limit) d

@[simp] theorem pushAll_nil (limit : Nat) (d : Draft) : d.pushAll limit [] = .ok d := rfl

theorem pushAll_cons (limit : Nat) (d : Draft) (t : Token) (ts : List Token) :
    d.pushAll limit (t :: ts) = d.push limit t >>= fun d' => d'.pushAll limit ts := rfl

theorem pushAll_append (limit : Nat) (d : Draft) (ts us : List Token) :
    d.pushAll limit (ts ++ us) = d.pushAll limit ts >>= fun d' => d'.pushAll limit us :=
  List.foldlM_append

theorem pushAll_cons_of_push {limit : Nat} {d d' : Draft} {t : Token} (h : d.push limit t = .ok d')
    (ts : List Token) : d.pushAll limit (t :: ts) = d'.pushAll limit ts := by
  rw [pushAll_cons, h]; rfl

theorem pushAll_singleton (limit : Nat) (d : Draft) (t : Token) : d.pushAll limit [t] = d.push limit t := by
  rw [pushAll_cons]
  exact bind_pure _

/-- The draft after all tokens, from the start. -/
def run (limit : Nat) (ts : List Token) : Except SyntaxError Draft := start limit >>= fun d => d.pushAll limit ts

theorem run_of_pos {limit : Nat} (h : 1 ≤ limit) (ts : List Token) :
    run limit ts = pushAll limit ⟨{ base := 1 }, [], .operand, []⟩ ts := by
  have hdepth : ({ base := 1 } : Chain).depth ≤ limit := h
  rw [run, start, checked, if_pos hdepth]
  rfl

theorem run_append (limit : Nat) (ts us : List Token) :
    run limit (ts ++ us) = run limit ts >>= fun d => d.pushAll limit us := by
  unfold run
  cases start limit with
  | ok d => exact pushAll_append limit d ts us
  | error e => rfl

theorem run_append_of_run {limit : Nat} {d : Draft} {ts : List Token} (h : run limit ts = .ok d) (us : List Token) :
    run limit (ts ++ us) = d.pushAll limit us := by
  rw [run_append, h]; rfl

/-- Reading is pushing and then finishing. -/
theorem result_read (limit : Nat) (d : Draft) (ts : List Token) :
    (d.read limit ts).result = d.pushAll limit ts >>= finish limit := by
  induction ts generalizing d with
  | nil => rfl
  | cons t ts ih =>
    rw [read, pushAll_cons]
    cases d.push limit t with
    | ok d' => exact ih d'
    | error e => rfl

theorem ofTokens_eq (limit : Nat) (ts : List Token) : Expr.ofTokens limit ts = run limit ts >>= finish limit := by
  rw [Expr.ofTokens, Expr.read, run]
  cases start limit with
  | ok d => exact result_read limit d ts
  | error e => rfl

theorem push_of_phase_operand {limit : Nat} {d : Draft} (h : d.phase = .operand) (t : Token) :
    d.push limit t = d.pushOperand limit t := by
  simp only [push, h]

/-! ## Behind an operand -/

theorem push_of_operand? {limit : Nat} {d : Draft} {e : Expr} {t : Token} (h : d.phase.operand? = some e)
    (ht : t ≠ .openParen) : d.push limit t = d.pushComplete limit e t := by
  unfold push
  cases hp : d.phase with
  | operand | argument _ => rw [hp] at h; cases h
  | complete e' => rw [hp] at h; cases h; rfl
  | name name => rw [hp] at h; cases h; cases t <;> first | rfl | exact absurd rfl ht

theorem finish_of_operand? {limit : Nat} {d : Draft} {e : Expr} (h : d.phase.operand? = some e) :
    d.finish limit = d.whole e := by
  unfold finish
  cases hp : d.phase with
  | operand | argument _ => rw [hp] at h; cases h
  | complete e' | name name => rw [hp] at h; cases h; rfl

theorem push_operator {limit : Nat} {d : Draft} {e : Expr} {op : Operator} (h : d.phase.operand? = some e) :
    d.push limit (.operator op.symbol) =
      checked limit { d with chain := d.chain.extend e op, phase := .operand } := by
  rw [push_of_operand? (t := .operator op.symbol) h nofun]
  unfold pushComplete
  dsimp only
  rw [Operator.ofSymbol?_symbol]

theorem push_closeParen_of_group {limit : Nat} {d : Draft} {e : Expr} {c : Chain} {fs : List Frame}
    (h : d.phase.operand? = some e) (hf : d.frames = ⟨.group, c⟩ :: fs) :
    d.push limit .closeParen = .ok ⟨c, fs, .complete (d.chain.expr e), d.calls⟩ := by
  rw [push_of_operand? (t := .closeParen) h nofun]
  unfold pushComplete
  rw [hf]

theorem push_closeParen_of_call {limit : Nat} {d : Draft} {e : Expr} {f : String} {es : List Expr} {c : Chain}
    {fs : List Frame} (h : d.phase.operand? = some e) (hf : d.frames = ⟨.call f es, c⟩ :: fs) :
    d.push limit .closeParen =
      .ok (close ⟨c, fs, d.phase, d.calls⟩ f (d.chain.expr e :: es).reverse) := by
  rw [push_of_operand? (t := .closeParen) h nofun]
  unfold pushComplete
  rw [hf]

theorem push_comma {limit : Nat} {d : Draft} {e : Expr} {f : String} {es : List Expr} {c : Chain}
    {fs : List Frame} (h : d.phase.operand? = some e) (hf : d.frames = ⟨.call f es, c⟩ :: fs) :
    d.push limit .comma =
      .ok ⟨{ base := d.chain.base }, ⟨.call f (d.chain.expr e :: es), c⟩ :: fs, .operand, d.calls⟩ := by
  rw [push_of_operand? (t := .comma) h nofun]
  unfold pushComplete
  rw [hf]

/-! ## Opening a level -/

theorem eq_of_checked {limit : Nat} {d d' : Draft} (h : checked limit d = .ok d') : d = d' := by
  unfold checked at h
  split at h
  · exact Except.ok.inj h
  · cases h

theorem eq_of_descend {limit : Nat} {d d' : Draft} {o : Opener} (h : d.descend limit o = .ok d') :
    ⟨{ base := d.chain.depth + 1 }, ⟨o, d.chain⟩ :: d.frames, .operand, d.calls⟩ = d' :=
  eq_of_checked h

/-- The first argument of a call opens its level before its first token is read. -/
theorem push_of_phase_argument {limit : Nat} {d : Draft} {f : String} {t : Token} (h : d.phase = .argument f)
    (ht : t ≠ .closeParen) :
    d.push limit t = d.descend limit (.call f []) >>= fun d' => d'.pushOperand limit t := by
  simp only [push, h]
  cases t with
  | closeParen => exact absurd rfl ht
  | _ => cases d.descend limit (.call f []) <;> rfl

theorem pushAll_of_phase_argument {limit : Nat} {d : Draft} {f : String} {ts : List Token}
    (h : d.phase = .argument f) (hts : ∃ t us, ts = t :: us ∧ t ≠ .closeParen) :
    d.pushAll limit ts = d.descend limit (.call f []) >>= fun d' => d'.pushAll limit ts := by
  obtain ⟨t, us, rfl, ht⟩ := hts
  rw [pushAll_cons, push_of_phase_argument h ht]
  cases hd : d.descend limit (.call f []) with
  | error e => rfl
  | ok d' =>
    obtain rfl := eq_of_descend hd
    rfl

/-! ## All that a token can do

Each case gives the outcome as a function of the limit, which is looked at only where a level or an operator is added.
-/

/-- What becomes of a draft with the operand `e` behind it when a token follows. -/
inductive Follows (d : Draft) (e : Expr) : Token → (Nat → Except SyntaxError Draft) → Prop
  | operator (op : Operator) :
    Follows d e (.operator op.symbol) (checked · { d with chain := d.chain.extend e op, phase := .operand })
  | comma {f es c fs} (h : d.frames = ⟨.call f es, c⟩ :: fs) :
    Follows d e .comma fun _ =>
      .ok ⟨{ base := d.chain.base }, ⟨.call f (d.chain.expr e :: es), c⟩ :: fs, .operand, d.calls⟩
  | group {c fs} (h : d.frames = ⟨.group, c⟩ :: fs) :
    Follows d e .closeParen fun _ => .ok ⟨c, fs, .complete (d.chain.expr e), d.calls⟩
  | call {f es c fs} (h : d.frames = ⟨.call f es, c⟩ :: fs) :
    Follows d e .closeParen fun _ => .ok (close ⟨c, fs, d.phase, d.calls⟩ f (d.chain.expr e :: es).reverse)
  | obstacle (t) : Follows d e t fun _ => .error (d.obstacle t)

theorem exists_follows (d : Draft) (e : Expr) (t : Token) :
    ∃ k, Follows d e t k ∧ ∀ limit, d.pushComplete limit e t = k limit := by
  unfold pushComplete
  cases t with
  | number _ | identifier _ | openParen => exact ⟨_, .obstacle _, fun _ => rfl⟩
  | operator c =>
    cases hop : Operator.ofSymbol? c with
    | none => exact ⟨_, .obstacle _, fun _ => by dsimp only; rw [hop]⟩
    | some op =>
      obtain rfl := Operator.ofSymbol?_eq_some_iff.1 hop
      exact ⟨_, .operator op, fun _ => by dsimp only; rw [hop]⟩
  | comma =>
    match hf : d.frames with
    | [] | ⟨.group, c⟩ :: fs => exact ⟨_, .obstacle _, fun _ => rfl⟩
    | ⟨.call f es, c⟩ :: fs => exact ⟨_, .comma hf, fun _ => rfl⟩
  | closeParen =>
    match hf : d.frames with
    | [] => exact ⟨_, .obstacle _, fun _ => rfl⟩
    | ⟨.group, c⟩ :: fs => exact ⟨_, .group hf, fun _ => rfl⟩
    | ⟨.call f es, c⟩ :: fs => exact ⟨_, .call hf, fun _ => rfl⟩

/-- What becomes of a draft when a token is pushed. -/
inductive Reads (d : Draft) : Token → (Nat → Except SyntaxError Draft) → Prop
  | operand (h : d.phase = .operand) (t) : Reads d t (d.pushOperand · t)
  | constant (f) (h : d.phase = .argument f) : Reads d .closeParen fun _ => .ok (d.close f [])
  | argument {t} (f) (h : d.phase = .argument f) (ht : t ≠ .closeParen) :
    Reads d t fun limit => d.descend limit (.call f []) >>= fun d' => d'.pushOperand limit t
  | function (f) (h : d.phase = .name f) : Reads d .openParen fun _ => .ok { d with phase := .argument f }
  | complete {e} (h : d.phase.operand? = some e) (t) : Reads d t (d.pushComplete · e t)

theorem exists_reads (d : Draft) (t : Token) : ∃ k, Reads d t k ∧ ∀ limit, d.push limit t = k limit := by
  cases hp : d.phase with
  | operand => exact ⟨_, .operand hp t, fun _ => push_of_phase_operand hp t⟩
  | argument f =>
    by_cases ht : t = .closeParen
    · subst ht
      exact ⟨_, .constant f hp, fun _ => by simp only [push, hp]⟩
    · exact ⟨_, .argument f hp ht, fun _ => push_of_phase_argument hp ht⟩
  | name x =>
    by_cases ht : t = .openParen
    · subst ht
      exact ⟨_, .function x hp, fun _ => by simp only [push, hp]⟩
    · have ho : d.phase.operand? = some (.var x) := by rw [hp]; rfl
      exact ⟨_, .complete ho t, fun _ => push_of_operand? ho ht⟩
  | complete e => exact ⟨_, .complete (by rw [hp]; rfl) t, fun _ => by simp only [push, hp]⟩

/-- What becomes of a draft when no token is left. -/
inductive Ends (d : Draft) : (Nat → Except SyntaxError Expr) → Prop
  | operand (h : d.phase = .operand) : Ends d fun _ => .error .unexpectedEnd
  | argument (f) (h : d.phase = .argument f) :
    Ends d fun limit => d.descend limit (.call f []) >>= fun _ => .error .unexpectedEnd
  | whole {e} (h : d.phase.operand? = some e) (hf : d.frames = []) : Ends d fun _ => .ok (d.chain.expr e)
  | unclosed {e} (h : d.phase.operand? = some e) (hf : d.frames ≠ []) : Ends d fun _ => .error (.unclosed none)

theorem exists_ends (d : Draft) : ∃ k, Ends d k ∧ ∀ limit, d.finish limit = k limit := by
  have hwhole {e : Expr} (h : d.phase.operand? = some e) : ∃ k, Ends d k ∧ ∀ limit, d.finish limit = k limit := by
    by_cases hf : d.frames = []
    · exact ⟨_, .whole h hf, fun _ => (finish_of_operand? h).trans (if_pos (List.isEmpty_iff.2 hf))⟩
    · exact ⟨_, .unclosed h hf, fun _ => (finish_of_operand? h).trans (if_neg (by simpa using hf))⟩
  cases hp : d.phase with
  | operand => exact ⟨_, .operand hp, fun _ => by simp only [finish, hp]⟩
  | argument f =>
    refine ⟨_, .argument f hp, fun limit => ?_⟩
    simp only [finish, hp]
    cases d.descend limit (.call f []) <;> rfl
  | name x | complete e => exact hwhole (by rw [hp]; rfl)

theorem finish_eq_ok_iff {limit : Nat} {d : Draft} {e : Expr} :
    d.finish limit = .ok e ↔ ∃ o, d.phase.operand? = some o ∧ d.frames = [] ∧ d.chain.expr o = e := by
  constructor
  · intro h
    obtain ⟨k, hk, hfinish⟩ := d.exists_ends
    rw [hfinish] at h
    cases hk with
    | operand hp => cases h
    | argument f hp =>
      obtain ⟨_, _, h⟩ := bind_eq_ok.1 h
      cases h
    | whole ho hf => exact ⟨_, ho, hf, Except.ok.inj h⟩
    | unclosed ho hf => cases h
  · rintro ⟨o, ho, hf, rfl⟩
    rw [finish_of_operand? ho, whole, hf]
    rfl

/-! ## Runs and their depth -/

/-- The tokens `ts` take `d` to a draft with `P`, if the limit allows the depth `m`; otherwise they are
refused as too deep. -/
def Takes (limit : Nat) (d : Draft) (ts : List Token) (m : Nat) (P : Draft → Prop) : Prop :=
  if m ≤ limit then ∃ d', d.pushAll limit ts = .ok d' ∧ P d'
  else d.pushAll limit ts = .error (.tooDeep limit)

variable {limit m m' : Nat} {d d' : Draft} {t : Token} {ts us : List Token} {P Q : Draft → Prop}

theorem Takes.of_push (h : d.push limit t = .ok d') (hm : m ≤ limit) (hP : P d') : Takes limit d [t] m P := by
  rw [Takes, if_pos hm]
  exact ⟨d', pushAll_cons_of_push h [], hP⟩

theorem Takes.cons_of_push (h : d.push limit t = .ok d') (ht : Takes limit d' ts m P) :
    Takes limit d (t :: ts) m P := by
  unfold Takes at ht ⊢
  rwa [pushAll_cons_of_push h]

/-- Where a push checks the depth, what follows it goes at least that deep. -/
theorem takes_of_checked {k : Except SyntaxError Draft} (hk : k = checked limit d') (hm : d'.chain.depth ≤ m)
    (hp : d.pushAll limit ts = k >>= fun d' => d'.pushAll limit us)
    (ht : d'.chain.depth ≤ limit → Takes limit d' us m P) : Takes limit d ts m P := by
  subst hk
  unfold Takes at ht ⊢
  rw [hp]
  unfold checked
  by_cases hd : d'.chain.depth ≤ limit
  · rw [if_pos hd]
    exact ht hd
  · rw [if_neg hd, if_neg (by omega)]
    rfl

theorem Takes.operator {e : Expr} {op : Operator} (h : d.phase.operand? = some e)
    (hm : (d.chain.extend e op).depth ≤ m)
    (ht : (d.chain.extend e op).depth ≤ limit →
      Takes limit { d with chain := d.chain.extend e op, phase := .operand } ts m P) :
    Takes limit d (.operator op.symbol :: ts) m P :=
  takes_of_checked (push_operator h) hm rfl ht

theorem Takes.append (h : Takes limit d ts m P) (h' : m ≤ limit → ∀ d', P d' → Takes limit d' us m' Q) :
    Takes limit d (ts ++ us) (max m m') Q := by
  unfold Takes at h ⊢
  rw [pushAll_append]
  by_cases hm : m ≤ limit
  · rw [if_pos hm] at h
    obtain ⟨d', hd, hP⟩ := h
    have := h' hm d' hP
    rw [Takes] at this
    rw [hd]
    by_cases hm' : m' ≤ limit
    · rw [if_pos (by omega)]
      rwa [if_pos hm'] at this
    · rw [if_neg (by omega)]
      rwa [if_neg hm'] at this
  · rw [if_neg hm] at h
    rw [if_neg (by omega), h]
    rfl

theorem Takes.mono (h : Takes limit d ts m P) (hPQ : ∀ d', P d' → Q d') : Takes limit d ts m Q := by
  unfold Takes at h ⊢
  split at h
  · next hm =>
    obtain ⟨d', hd, hP⟩ := h
    rw [if_pos hm]
    exact ⟨d', hd, hPQ d' hP⟩
  · next hm => rwa [if_neg hm]

end Draft

end Formula
