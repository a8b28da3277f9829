import Formula.Proofs.Draft
/-!
# The limit only cuts off

A reader asks for the limit in one place, where it refuses an operand that stands too deep. So for given
tokens there is a least limit that lets the reader come to their own outcome, an expression or a fault
of the tokens, and it comes to the same outcome under every higher limit: `exists_threshold`.

`Cuts` says this of any part of a reader, with a bound on the least limit, and `Cuts.bind` puts parts
together. The bound for a whole run is that a token makes the next operand at most one deeper
(`Draft.Within`, `Draft.cuts_push`).
-/

namespace Formula

/-- From some limit on, `n` at most, the outcome of `f` is always the same and no matter of depth, and under
all lower limits it is that something stands too deep. If `f` succeeds, then with `P`. -/
def Cuts {α : Type} (n : Nat) (f : Nat → Except SyntaxError α) (P : α → Prop) : Prop :=
  ∃ k r, k ≤ n ∧ (∀ limit, r ≠ .error (.tooDeep limit)) ∧ (∀ a, r = .ok a → P a) ∧
    ∀ limit, f limit = if k ≤ limit then r else .error (.tooDeep limit)

namespace Cuts

variable {α β : Type} {n m : Nat} {f : Nat → Except SyntaxError α} {P : α → Prop}

theorem congr {g : Nat → Except SyntaxError α} (hg : Cuts n g P) (h : ∀ limit, f limit = g limit) : Cuts n f P := by
  rwa [funext h]

/-- Success without a look at the limit. -/
theorem success {a : α} (h : P a) : Cuts n (fun _ => .ok a) P := by
  refine ⟨0, .ok a, Nat.zero_le n, nofun, ?_, fun _ => rfl⟩
  rintro _ ⟨⟩
  exact h

/-- A fault of the tokens, found without a look at the limit. -/
theorem fault {e : SyntaxError} (h : ∀ limit, e ≠ .tooDeep limit) : Cuts n (fun _ => .error e) P := by
  refine ⟨0, .error e, Nat.zero_le n, ?_, nofun, fun _ => rfl⟩
  rintro limit ⟨⟩
  exact h limit rfl

/-- Of two parts the higher demand counts, and a fault of the first one keeps the second from being made. -/
theorem bind {g : Nat → α → Except SyntaxError β} {Q : β → Prop} (hf : Cuts n f P)
    (hg : ∀ a, P a → Cuts m (g · a) Q) (h : n ≤ m) : Cuts m (fun limit => f limit >>= g limit) Q := by
  obtain ⟨k, r, hk, hr, hP, hf⟩ := hf
  cases r with
  | error e =>
    refine ⟨k, .error e, by omega, ?_, nofun, fun limit => ?_⟩
    · rintro limit ⟨⟩
      exact hr limit rfl
    · dsimp only
      rw [hf]
      split <;> rfl
  | ok a =>
    obtain ⟨k', r', hk', hr', hQ, hg⟩ := hg a (hP a rfl)
    refine ⟨max k k', r', by omega, hr', hQ, fun limit => ?_⟩
    dsimp only
    rw [hf]
    by_cases hlimit : k ≤ limit
    · rw [if_pos hlimit]
      refine (hg limit).trans ?_
      by_cases hlimit' : k' ≤ limit
      · rw [if_pos hlimit', if_pos (by omega)]
      · rw [if_neg hlimit', if_neg (by omega)]
    · rw [if_neg hlimit, if_neg (by omega)]
      rfl

/-- Above the bound the limit makes no difference. -/
theorem eq_of_le {limit limit' : Nat} (h : Cuts n f P) (hlimit : n ≤ limit) (hlimit' : n ≤ limit') :
    f limit = f limit' := by
  obtain ⟨k, r, hk, -, -, hf⟩ := h
  rw [hf, hf, if_pos (by omega), if_pos (by omega)]

theorem ne_tooDeep {limit : Nat} (h : Cuts n f P) (hlimit : n ≤ limit) (limit' : Nat) :
    f limit ≠ .error (.tooDeep limit') := by
  obtain ⟨k, r, hk, hr, -, hf⟩ := h
  rw [hf, if_pos (by omega)]
  exact hr limit'

end Cuts

/-! ## A token adds at most one to the depth -/

/-- How much deeper than the level stands what comes next: an argument is on a level of its own. -/
def Phase.ahead : Phase → Nat
  | .argument _ => 1
  | .operand | .name _ | .complete _ => 0

theorem Phase.ahead_le_one (p : Phase) : p.ahead ≤ 1 := by cases p <;> simp [ahead]

theorem Phase.ahead_of_operand? {p : Phase} {e : Expr} (h : p.operand? = some e) : p.ahead = 0 := by
  cases p with
  | operand | argument _ => cases h
  | name _ | complete _ => rfl

theorem Chain.depth_extend_le (c : Chain) (e : Expr) (op : Operator) : (c.extend e op).depth ≤ c.depth + 1 := by
  cases hop : op.isSum with
  | true =>
    rw [Chain.extend_of_isSum hop, Chain.depth, Chain.depth]
    dsimp only
    omega
  | false =>
    rw [Chain.extend_of_not_isSum hop, Chain.depth, Chain.depth]
    dsimp only
    omega

namespace Draft

/-- On no level is the next operand deeper than `n`. -/
structure Within (n : Nat) (d : Draft) : Prop where
  here : d.chain.depth + d.phase.ahead ≤ n
  around : ∀ f ∈ d.frames, f.chain.depth ≤ n

variable {n : Nat} {d : Draft}

/-- A token that leaves the levels alone. -/
theorem Within.next (h : d.Within n) (p : Phase) (calls : List Call) :
    Within (n + 1) ⟨d.chain, d.frames, p, calls⟩ := by
  have hhere := h.here
  have hp := p.ahead_le_one
  refine ⟨?_, fun f hf => Nat.le_succ_of_le (h.around f hf)⟩
  dsimp only
  omega

/-- A parenthesis that closes a level. -/
theorem Within.back {f : Frame} {fs : List Frame} (h : d.Within n) (hf : d.frames = f :: fs) (e : Expr)
    (calls : List Call) : Within (n + 1) ⟨f.chain, fs, .complete e, calls⟩ := by
  have haround := h.around
  rw [hf] at haround
  refine ⟨Nat.le_succ_of_le (haround f List.mem_cons_self), fun g hg => Nat.le_succ_of_le ?_⟩
  exact haround g (List.mem_cons_of_mem f hg)

theorem cuts_checked {P : Draft → Prop} (h : d.chain.depth ≤ n) (hP : P d) : Cuts n (checked · d) P := by
  refine ⟨d.chain.depth, .ok d, h, nofun, ?_, fun _ => rfl⟩
  rintro _ ⟨⟩
  exact hP

theorem cuts_start : Cuts 1 start (Within 1) := cuts_checked (Nat.le_refl 1) ⟨Nat.le_refl 1, nofun⟩

theorem cuts_descend (h : d.Within n) (hn : d.chain.depth + 1 ≤ n) (o : Opener) :
    Cuts n (d.descend · o) (Within n) := by
  refine cuts_checked hn ⟨hn, ?_⟩
  rintro f (_ | ⟨_, hf⟩)
  · exact Nat.le_of_succ_le hn
  · exact h.around f hf

theorem cuts_pushOperand (h : d.Within n) (t : Token) : Cuts (n + 1) (d.pushOperand · t) (Within (n + 1)) := by
  cases t with
  | number x => exact .success (h.next _ _)
  | identifier name => exact .success (h.next _ _)
  | openParen =>
    have hhere := h.here
    exact cuts_descend (h.next d.phase d.calls) (by dsimp only; omega) .group
  | closeParen | comma | operator c => exact .fault nofun

theorem obstacle_ne_tooDeep (d : Draft) (t : Token) (limit : Nat) : d.obstacle t ≠ .tooDeep limit := by
  unfold obstacle
  split <;> nofun

theorem cuts_pushComplete (h : d.Within n) (e : Expr) (t : Token) :
    Cuts (n + 1) (d.pushComplete · e t) (Within (n + 1)) := by
  have hhere := h.here
  obtain ⟨k, hk, hpush⟩ := d.exists_follows e t
  refine Cuts.congr ?_ hpush
  cases hk with
  | operator op =>
    have hdepth := Chain.depth_extend_le d.chain e op
    have hext : (d.chain.extend e op).depth ≤ n + 1 := by omega
    exact cuts_checked hext ⟨hext, (h.next .operand d.calls).around⟩
  | comma hf =>
    have hback := h.back hf e d.calls
    refine .success ⟨?_, ?_⟩
    · simp only [Chain.depth, Phase.ahead] at hhere ⊢
      omega
    · rintro g (_ | ⟨_, hg⟩)
      · exact hback.here
      · exact hback.around g hg
  | group hf | call hf => exact .success (h.back hf _ _)
  | obstacle t => exact .fault (d.obstacle_ne_tooDeep t)

theorem cuts_push (h : d.Within n) (t : Token) : Cuts (n + 1) (d.push · t) (Within (n + 1)) := by
  obtain ⟨k, hk, hpush⟩ := d.exists_reads t
  refine Cuts.congr ?_ hpush
  cases hk with
  | operand _ t => exact cuts_pushOperand h t
  | constant f _ => exact .success (h.next _ _)
  | argument f hp _ =>
    have hhere := h.here
    rw [hp] at hhere
    exact (cuts_descend h hhere (.call f [])).bind (fun d' h' => cuts_pushOperand h' t) (Nat.le_succ n)
  | function f _ => exact .success (h.next _ _)
  | complete _ t => exact cuts_pushComplete h _ t

theorem cuts_pushAll (h : d.Within n) (ts : List Token) :
    Cuts (n + ts.length) (d.pushAll · ts) (Within (n + ts.length)) := by
  induction ts generalizing n d with
  | nil => exact .success h
  | cons t ts ih =>
    rw [List.length_cons, Nat.add_comm ts.length, ← Nat.add_assoc]
    exact (cuts_push h t).bind (fun d' h' => ih h') (Nat.le_add_right _ _)

theorem cuts_finish (h : d.Within n) : Cuts n d.finish fun _ => True := by
  obtain ⟨k, hk, hfinish⟩ := d.exists_ends
  refine Cuts.congr ?_ hfinish
  cases hk with
  | operand _ | unclosed _ _ => exact .fault nofun
  | argument f hp =>
    have hhere := h.here
    rw [hp] at hhere
    exact (cuts_descend h hhere (.call f [])).bind (fun _ _ => .fault nofun) (Nat.le_refl n)
  | whole _ _ => exact .success trivial

theorem cuts_run (ts : List Token) : Cuts (ts.length + 1) (run · ts) (Within (ts.length + 1)) := by
  rw [Nat.add_comm]
  exact cuts_start.bind (fun _ h => cuts_pushAll h ts) (Nat.le_add_right _ _)

theorem cuts_ofTokens (ts : List Token) : Cuts (ts.length + 1) (Expr.ofTokens · ts) fun _ => True :=
  ((cuts_run ts).bind (fun _ => cuts_finish) (Nat.le_refl _)).congr fun limit => ofTokens_eq limit ts

end Draft

/-! ## Main theorem -/

/-- All tokens have an outcome of their own and a least limit for it, which their number bounds. A limit from there on
gives that outcome, and a lower one only the complaint that it is exceeded, so no outcome changes when the limit is
raised but that one. -/
theorem exists_threshold (ts : List Token) :
    (∃ k r, 1 ≤ k ∧ k ≤ ts.length + 1 ∧ (∀ limit, r ≠ .error (.tooDeep limit)) ∧
      ∀ limit, Expr.ofTokens limit ts = if k ≤ limit then r else .error (.tooDeep limit)) ∧
    ∀ limit limit', limit ≤ limit' → Expr.ofTokens limit ts ≠ .error (.tooDeep limit) →
      Expr.ofTokens limit' ts = Expr.ofTokens limit ts := by
  obtain ⟨k, r, hk, hr, -, hread⟩ := Draft.cuts_ofTokens ts
  refine ⟨⟨k, r, ?_, hk, hr, hread⟩, fun limit limit' hle hne => ?_⟩
  · refine Nat.pos_of_ne_zero fun hzero => hr 0 ?_
    -- Under the limit zero not even the first operand is let in.
    have hread := hread 0
    rw [if_pos (by omega)] at hread
    exact hread.symm
  · dsimp only at hread
    rw [hread, hread]
    by_cases hlimit : k ≤ limit
    · rw [if_pos hlimit, if_pos (by omega)]
    · rw [hread, if_neg hlimit] at hne
      exact absurd rfl hne

end Formula
