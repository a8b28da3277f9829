import Formula.Proofs.Counters
import Formula.Proofs.Descent
/-!
# A walk is a descent

A walk that ends does with the tokens behind its cursor what the descent does with the tokens that are left: it hands
back the same, at the depth that the descent hands on, and fails with the same errors (`Walk.Agrees`). It could stop for
another reason only where a counter leaves the words of the machine, which `Walk.Ensures` has excluded, and has shown
that it ends. So a walk reads what the reader reads: `Walk.depth_balanced`.
-/

namespace Formula

/-! ## Chains of the descent -/

namespace Descent

/-- An addition or a multiplication of the descent, with its loop. -/
structure IsChain (limit : Nat) (symbols : List Char)
    (part chain : Nat → (ts : List Token) → Except Error (Part Expr ts.length))
    (loop : Expr → Nat → (ts : List Token) → Except Error (Part Expr (ts.length + 1))) : Prop where
  chain_eq : ∀ depth ts, chain depth ts = part depth ts >>= fun p => loop p.value p.depth p.rest >>= fun q =>
    .ok { q.widen (Nat.succ_le_of_lt p.lt) with depth }
  loop_nil : ∀ e depth, loop e depth [] = .ok ⟨e, depth, [], Nat.lt_succ_self _⟩
  loop_cons : ∀ e depth t ts, loop e depth (t :: ts) = operator? symbols t >>= fun op =>
    match op with
    | none => .ok ⟨e, depth, t :: ts, Nat.lt_succ_self _⟩
    | some op => deepen limit depth >>= fun depth => part depth ts >>= fun p =>
      loop (.binary e op p.value) p.depth p.rest >>= fun q => .ok (q.widen (Nat.le_trans p.lt (Nat.le_add_right _ 2)))

theorem isChain_addition (limit : Nat) :
    IsChain limit sumSymbols (multiplication limit) (addition limit) (sums limit) where
  chain_eq depth ts := by
    rw [addition]
    rfl
  loop_nil e depth := by rw [sums]
  loop_cons e depth t ts := by
    rw [sums]
    rfl

theorem isChain_multiplication (limit : Nat) :
    IsChain limit productSymbols (operand limit) (multiplication limit) (products limit) where
  chain_eq depth ts := by
    rw [multiplication]
    rfl
  loop_nil e depth := by rw [products]
  loop_cons e depth t ts := by
    rw [products]
    rfl

end Descent

namespace Walk

open Steps

/-! ## Agreement -/

section

variable {α β γ δ : Type}

/-- If `x` ends from the trail `s` on and hands something back, it is related by `R` to what `y` gives, and if it fails,
`y` fails with the same error. -/
def Agrees (x : Steps α) (s : Trail) (y : Except Error β) (R : α → β → Counters → Prop) : Prop :=
  ∀ r s', x.run.run s = some (r, s') → (∀ a, r = .ok a → ∃ b, y = .ok b ∧ R a b s'.now) ∧
    ∀ err, r = .error (.failed err) → y = .error err

variable {w : Walk} {x : Steps α} {f : α → Steps β} {s s' : Trail} {y : Except Error γ} {k : γ → Except Error δ}
  {z : Except Error δ} {R : α → γ → Counters → Prop} {R' : β → δ → Counters → Prop}

namespace Agrees

theorem pure {a : α} {b : γ} (h : R a b s.now) : Agrees (Pure.pure a) s (.ok b) R := by
  rintro _ _ ⟨⟩
  constructor
  · rintro _ ⟨⟩
    exact ⟨b, rfl, h⟩
  · rintro _ ⟨⟩

theorem failed {err : Error} : Agrees (throw (.failed err)) s (.error err) R := by
  rintro _ _ ⟨⟩
  constructor
  · rintro _ ⟨⟩
  · rintro _ ⟨⟩
    rfl

/-- A counter that leaves the words of the machine has no counterpart. -/
theorem of_stop {r : Stop} (hr : ∀ err, r ≠ .failed err) : Agrees (throw r) s y R := by
  rintro _ _ ⟨⟩
  constructor
  · rintro _ ⟨⟩
  · rintro err ⟨⟩
    exact absurd rfl (hr err)

theorem unfinished : Agrees Steps.unfinished s y R := by
  rintro _ _ ⟨⟩

theorem bind (hx : Agrees x s y R) (hf : ∀ a b s', R a b s'.now → Agrees (f a) s' (k b) R') :
    Agrees (x >>= f) s (y >>= k) R' := by
  intro r s'' h
  cases hrun : x.run.run s with
  | none =>
    rw [run_bind_of_none hrun] at h
    cases h
  | some res =>
    obtain ⟨r', s'⟩ := res
    obtain ⟨hok, herr⟩ := hx r' s' hrun
    cases r' with
    | ok a =>
      obtain ⟨b, rfl, hR⟩ := hok a rfl
      rw [run_bind_of_ok hrun] at h
      exact hf a b s' hR r s'' h
    | error stop =>
      rw [run_bind_of_error hrun] at h
      obtain ⟨rfl, -⟩ : .error stop = r ∧ s' = s'' := by simpa using h
      constructor
      · rintro _ ⟨⟩
      · rintro err ⟨⟩
        rw [herr err rfl]
        rfl

theorem map {g : γ → δ} {R' : α → δ → Counters → Prop} (hx : Agrees x s y R) (hg : ∀ a b c, R a b c → R' a (g b) c) :
    Agrees x s (y >>= fun b => .ok (g b)) R' := by
  intro r s' h
  obtain ⟨hok, herr⟩ := hx r s' h
  refine ⟨fun a ha => ?_, fun err hr => ?_⟩
  · obtain ⟨b, rfl, hR⟩ := hok a ha
    exact ⟨g b, rfl, hg a b _ hR⟩
  · rw [herr err hr]
    rfl

/-- Steps that have no counterpart but cannot fail either. -/
theorem bind_left {P : α → Counters → Prop} (hx : Agrees x s (.ok ()) fun a _ c => P a c)
    (hf : ∀ a s', P a s'.now → Agrees (f a) s' z R') : Agrees (x >>= f) s z R' :=
  hx.bind (k := fun _ => z) fun a _ s' => hf a s'

theorem counters {f : Counters → Steps α} (h : Agrees (f s.now) s y R) : Agrees (Steps.counters >>= f) s y R := h

theorem peek {f : Option Token → Steps α} (h : Agrees (f w.tokens[s.now.cursor]?) s y R) :
    Agrees (w.peek >>= f) s y R := h

theorem assign {c : Counters} {R : Unit → Unit → Counters → Prop} (h : R () () c) :
    Agrees (Steps.assign c) s (.ok ()) R := by
  rintro _ _ ⟨⟩
  constructor
  · rintro _ ⟨⟩
    exact ⟨(), rfl, h⟩
  · rintro _ ⟨⟩

theorem succ (n : Nat) : Agrees (w.succ n) s (.ok ()) fun m _ c => m = n + 1 ∧ c = s.now := by
  rw [Walk.succ]
  by_cases hword : n < w.word
  · rw [if_pos hword]
    exact .pure ⟨rfl, rfl⟩
  · rw [if_neg hword]
    refine .of_stop ?_
    rintro _ ⟨⟩

end Agrees

end

variable {α β : Type} {w : Walk} {s : Trail} {t : Token} {ts : List Token} {f : Option Token → Steps α}
  {y : Except Error β} {R : α → β → Counters → Prop}

/-- The part is what has been handed back: its value, and the counters in front of the rest. -/
structure IsPart (w : Walk) {n : Nat} (a : α) (p : Part α n) (c : Counters) : Prop where
  value_eq : p.value = a
  depth_eq : p.depth = c.depth
  drop_eq : w.tokens.drop c.cursor = p.rest

theorem IsPart.widen {m n : Nat} {a : α} {p : Part α n} {c : Counters} (h : n ≤ m) (hp : w.IsPart a p c) :
    w.IsPart a (p.widen h) c :=
  ⟨hp.value_eq, hp.depth_eq, hp.drop_eq⟩

theorem IsPart.map {n : Nat} {a : α} {p : Part α n} {c : Counters} (g : α → β) (hp : w.IsPart a p c) :
    w.IsPart (g a) (p.map g) c :=
  ⟨congrArg g hp.value_eq, hp.depth_eq, hp.drop_eq⟩

/-! ## Steps -/

/-- The tokens that are left, as they are behind the cursor. -/
theorem getElem?_cursor (hts : w.tokens.drop s.now.cursor = ts) : w.tokens[s.now.cursor]? = ts.head? := by
  rw [← hts, List.head?_drop]

theorem drop_cursor_succ {c : Counters} (hts : w.tokens.drop s.now.cursor = t :: ts)
    (hc : c.cursor = s.now.cursor + 1) : w.tokens.drop c.cursor = ts := by
  rw [hc, ← List.tail_drop, hts, List.tail_cons]

theorem agrees_consume (hts : w.tokens.drop s.now.cursor = t :: ts) : Agrees w.consume s (.ok ()) fun _ _ c =>
    w.tokens.drop c.cursor = ts ∧ c.depth = s.now.depth := by
  rw [consume]
  refine .counters ((Agrees.succ _).bind_left ?_)
  rintro _ s₁ ⟨rfl, -⟩
  exact .assign ⟨drop_cursor_succ hts rfl, rfl⟩

theorem agrees_advance_cons (hts : w.tokens.drop s.now.cursor = t :: ts)
    (h : ∀ s', w.tokens.drop s'.now.cursor = ts → s'.now.depth = s.now.depth → Agrees (f (some t)) s' y R) :
    Agrees (w.advance >>= f) s y R := by
  rw [advance, bind_assoc]
  refine .peek ?_
  rw [getElem?_cursor hts, List.head?_cons]
  dsimp only
  rw [bind_assoc]
  refine (agrees_consume hts).bind_left ?_
  rintro _ s' ⟨hts', hdepth⟩
  exact h s' hts' hdepth

theorem agrees_advance_nil (hts : w.tokens.drop s.now.cursor = []) (h : Agrees (f none) s y R) :
    Agrees (w.advance >>= f) s y R := by
  rw [advance, bind_assoc]
  refine .peek ?_
  rw [getElem?_cursor hts]
  exact h

theorem agrees_descend : Agrees w.descend s (Descent.deepen w.limit s.now.depth) fun _ depth c =>
    c.cursor = s.now.cursor ∧ c.depth = depth := by
  rw [descend, Descent.deepen]
  refine .counters ((Agrees.succ _).bind_left ?_)
  rintro _ s₁ ⟨rfl, -⟩
  refine (Agrees.assign (R := fun _ _ c => c = _) rfl).bind_left fun _ s₂ hnow => ?_
  by_cases hlimit : s.now.depth + 1 ≤ w.limit
  · rw [if_neg (Nat.not_lt_of_le hlimit), if_pos hlimit]
    refine .pure ?_
    rw [hnow]
    exact ⟨rfl, rfl⟩
  · rw [if_pos (Nat.lt_of_not_le hlimit), if_neg hlimit]
    exact .failed

theorem agrees_ascend : Agrees ascend s (.ok ()) fun _ _ c =>
    c.cursor = s.now.cursor ∧ c.depth = s.now.depth - 1 := by
  rw [ascend]
  refine .counters ?_
  by_cases hzero : s.now.depth = 0
  · rw [if_pos hzero]
    refine .of_stop ?_
    rintro _ ⟨⟩
  · rw [if_neg hzero]
    exact .assign ⟨rfl, rfl⟩

/-- The operator of the descent, and the cursor is behind it if there is one. -/
theorem agrees_operator? (symbols : List Char) (hts : w.tokens.drop s.now.cursor = t :: ts) :
    Agrees (w.operator? symbols) s (Descent.operator? symbols t) fun op op' c => op = op' ∧
      match op with
      | some _ => w.tokens.drop c.cursor = ts ∧ c.depth = s.now.depth
      | none => c = s.now := by
  rw [operator?]
  refine .peek ?_
  rw [getElem?_cursor hts, List.head?_cons]
  cases t with
  | operator c =>
    rw [Descent.operator?]
    dsimp only
    by_cases hc : c ∈ symbols
    · rw [if_pos hc, if_pos hc]
      refine (agrees_consume hts).bind_left fun _ s' hs' => ?_
      cases Operator.ofSymbol c with
      | ok op => exact .pure ⟨rfl, hs'⟩
      | error err => exact .failed
    · rw [if_neg hc, if_neg hc]
      exact .pure ⟨rfl, rfl⟩
  | number _ | identifier _ | openParen | closeParen | comma => exact .pure ⟨rfl, rfl⟩

/-- What has been read stays as it is when a parenthesis is closed behind it. -/
theorem agrees_expectClosing {n : Nat} {a : α} {p : Part α n} (hp : w.IsPart a p s.now) :
    Agrees w.expectClosing s p.closed fun _ q c => w.IsPart a q c := by
  obtain ⟨value, depth, rest, hlt⟩ := p
  obtain ⟨hvalue, rfl, hrest⟩ := hp
  rw [expectClosing]
  cases rest with
  | nil => exact agrees_advance_nil hrest .failed
  | cons t rest =>
    refine agrees_advance_cons hrest fun s' hts hdepth => ?_
    cases t with
    | closeParen => exact .pure ⟨hvalue, hdepth.symm, hts⟩
    | number _ | identifier _ | openParen | comma | operator _ => exact .failed

/-! ## Functions -/

section

variable {symbols : List Char} {part chain : Nat → Steps Expr} {loop : Nat → Expr → Steps Expr}
  {part' chain' : Nat → (ts : List Token) → Except Error (Part Expr ts.length)}
  {loop' : Expr → Nat → (ts : List Token) → Except Error (Part Expr (ts.length + 1))}

theorem agrees_loop (hc : w.IsChain symbols part chain loop)
    (hd : Descent.IsChain w.limit symbols part' chain' loop') : ∀ n : Nat,
    (∀ m ≤ n, ∀ s ts, w.tokens.drop s.now.cursor = ts → Agrees (part m) s (part' s.now.depth ts) w.IsPart) →
    ∀ (s : Trail) (e : Expr) (ts : List Token), w.tokens.drop s.now.cursor = ts →
      Agrees (loop n e) s (loop' e s.now.depth ts) w.IsPart
  | 0, _, s, e, ts, _ => by
    rw [hc.loop_zero]
    exact .unfinished
  | n + 1, _, s, e, [], hts => by
    rw [hc.loop_succ, hd.loop_nil, operator?, bind_assoc]
    refine .peek ?_
    rw [getElem?_cursor hts]
    exact .pure ⟨rfl, rfl, hts⟩
  | n + 1, hpart, s, e, t :: ts, hts => by
    rw [hc.loop_succ, hd.loop_cons]
    refine (agrees_operator? symbols hts).bind ?_
    rintro op _ s₁ ⟨rfl, hs₁⟩
    cases op with
    | none =>
      rw [← hs₁] at hts ⊢
      exact .pure ⟨rfl, rfl, hts⟩
    | some op =>
      obtain ⟨hts₁, hdepth⟩ := hs₁
      rw [← hdepth]
      refine agrees_descend.bind ?_
      rintro _ _ s₂ ⟨hcursor, rfl⟩
      refine (hpart n (Nat.le_succ n) s₂ ts (hcursor ▸ hts₁)).bind ?_
      rintro r p s₃ ⟨hvalue, hdepth₃, hrest⟩
      rw [hvalue, hdepth₃]
      have hpart' (m : Nat) (hm : m ≤ n) := hpart m (Nat.le_succ_of_le hm)
      have hloop := agrees_loop hc hd n hpart' s₃ (.binary e op r) p.rest hrest
      exact hloop.map fun _ _ _ hq => hq.widen _

/-- Both restore the depth that they have kept. -/
theorem agrees_chain (hc : w.IsChain symbols part chain loop)
    (hd : Descent.IsChain w.limit symbols part' chain' loop') (n : Nat) (s : Trail) (ts : List Token)
    (hpart : ∀ m ≤ n, ∀ s ts, w.tokens.drop s.now.cursor = ts → Agrees (part m) s (part' s.now.depth ts) w.IsPart)
    (hts : w.tokens.drop s.now.cursor = ts) : Agrees (chain (n + 1)) s (chain' s.now.depth ts) w.IsPart := by
  rw [hc.chain_succ, hd.chain_eq]
  refine .counters ((hpart n (Nat.le_refl n) s ts hts).bind ?_)
  rintro e p s₁ ⟨hvalue, hdepth, hrest⟩
  rw [hvalue, hdepth]
  refine (agrees_loop hc hd n hpart s₁ e p.rest hrest).bind fun e q s₂ hq => ?_
  rw [restore, bind_assoc]
  refine .counters (.bind_left (.assign (R := fun _ _ c => c = _) rfl) fun _ s₃ hnow => .pure ?_)
  rw [hnow]
  exact ⟨hq.value_eq, rfl, hq.drop_eq⟩

end

mutual

theorem agrees_expression : ∀ (n : Nat) (s : Trail) (ts : List Token), w.tokens.drop s.now.cursor = ts →
    Agrees (w.expression n) s (Descent.expression w.limit s.now.depth ts) w.IsPart
  | 0, _, _, _ => .unfinished
  | n + 1, s, ts, hts => by
    rw [expression, Descent.expression]
    refine agrees_descend.bind ?_
    rintro _ _ s₁ ⟨hcursor, rfl⟩
    refine (agrees_addition n s₁ ts (hcursor ▸ hts)).bind ?_
    rintro e p s₂ ⟨hvalue, hdepth, hrest⟩
    refine agrees_ascend.bind_left ?_
    rintro _ s₃ ⟨hcursor₃, hdepth₃⟩
    refine .pure ⟨hvalue, ?_, ?_⟩
    · rw [hdepth, hdepth₃]
    · rw [hcursor₃, hrest]

theorem agrees_addition : ∀ (n : Nat) (s : Trail) (ts : List Token), w.tokens.drop s.now.cursor = ts →
    Agrees (w.addition n) s (Descent.addition w.limit s.now.depth ts) w.IsPart
  | 0, _, _, _ => .unfinished
  | n + 1, s, ts, hts => agrees_chain (isChain_addition w) (Descent.isChain_addition w.limit) n s ts
      (fun m _ => agrees_multiplication m) hts

theorem agrees_multiplication : ∀ (n : Nat) (s : Trail) (ts : List Token), w.tokens.drop s.now.cursor = ts →
    Agrees (w.multiplication n) s (Descent.multiplication w.limit s.now.depth ts) w.IsPart
  | 0, _, _, _ => .unfinished
  | n + 1, s, ts, hts => agrees_chain (isChain_multiplication w) (Descent.isChain_multiplication w.limit) n s ts
      (fun m _ => agrees_operand m) hts

theorem agrees_operand : ∀ (n : Nat) (s : Trail) (ts : List Token), w.tokens.drop s.now.cursor = ts →
    Agrees (w.operand n) s (Descent.operand w.limit s.now.depth ts) w.IsPart
  | 0, _, _, _ => .unfinished
  | n + 1, s, [], hts => by
    rw [operand, Descent.operand]
    exact agrees_advance_nil hts .failed
  | n + 1, s, .number x :: ts, hts => by
    rw [operand, Descent.operand]
    exact agrees_advance_cons hts fun s₁ hts₁ hdepth => .pure ⟨rfl, hdepth.symm, hts₁⟩
  | n + 1, s, .identifier f :: .openParen :: ts, hts => by
    rw [operand, Descent.operand]
    refine agrees_advance_cons hts fun s₁ hts₁ hdepth => .peek ?_
    rw [getElem?_cursor hts₁]
    refine (agrees_consume hts₁).bind_left ?_
    rintro _ s₂ ⟨hts₂, hdepth₂⟩
    rw [← hdepth, ← hdepth₂]
    exact (agrees_call n s₂ f ts hts₂).map fun _ _ _ hp => hp.widen _
  -- No parenthesis follows, and the name is that of a variable.
  | n + 1, s, [.identifier name], hts
  | n + 1, s, .identifier name :: .number _ :: _, hts
  | n + 1, s, .identifier name :: .identifier _ :: _, hts
  | n + 1, s, .identifier name :: .operator _ :: _, hts
  | n + 1, s, .identifier name :: .closeParen :: _, hts
  | n + 1, s, .identifier name :: .comma :: _, hts => by
    rw [operand, Descent.operand.eq_def]
    refine agrees_advance_cons hts fun s₁ hts₁ hdepth => .peek ?_
    rw [getElem?_cursor hts₁]
    exact .pure ⟨rfl, hdepth.symm, hts₁⟩
  | n + 1, s, .openParen :: ts, hts => by
    rw [operand, Descent.operand]
    refine agrees_advance_cons hts fun s₁ hts₁ hdepth => ?_
    rw [← hdepth]
    refine (agrees_expression n s₁ ts hts₁).bind fun e p s₂ hp => ?_
    exact (agrees_expectClosing hp).bind fun _ q s₃ hq => .pure (hq.widen _)
  | n + 1, s, .operator _ :: _, hts
  | n + 1, s, .closeParen :: _, hts
  | n + 1, s, .comma :: _, hts => by
    rw [operand, Descent.operand.eq_def]
    exact agrees_advance_cons hts fun _ _ _ => .failed

theorem agrees_call : ∀ (n : Nat) (s : Trail) (f : String) (ts : List Token), w.tokens.drop s.now.cursor = ts →
    Agrees (w.call n f) s (Descent.call w.limit f s.now.depth ts) w.IsPart
  | 0, _, _, _, _ => .unfinished
  | n + 1, s, f, .closeParen :: ts, hts => by
    rw [call, Descent.call]
    refine .peek ?_
    rw [getElem?_cursor hts]
    refine (agrees_consume hts).bind_left ?_
    rintro _ s₁ ⟨hts₁, hdepth⟩
    exact .pure ⟨rfl, hdepth.symm, hts₁⟩
  | n + 1, s, f, [], hts
  | n + 1, s, f, .number _ :: _, hts
  | n + 1, s, f, .identifier _ :: _, hts
  | n + 1, s, f, .operator _ :: _, hts
  | n + 1, s, f, .openParen :: _, hts
  | n + 1, s, f, .comma :: _, hts => by
    rw [call, Descent.call.eq_def]
    refine .peek ?_
    rw [getElem?_cursor hts]
    exact (agrees_arguments n s [] _ hts).bind fun es p s₁ hp => .pure (hp.map (Expr.call f))

theorem agrees_arguments : ∀ (n : Nat) (s : Trail) (es : List Expr) (ts : List Token),
    w.tokens.drop s.now.cursor = ts →
    Agrees (w.arguments n es) s (Descent.arguments w.limit es s.now.depth ts) w.IsPart
  | 0, _, _, _, _ => .unfinished
  | n + 1, s, es, ts, hts => by
    rw [arguments, Descent.arguments]
    refine (agrees_expression n s ts hts).bind ?_
    rintro e ⟨_, _, rest, hlt⟩ s₁ ⟨rfl, rfl, hrest⟩
    refine .peek ?_
    rw [getElem?_cursor hrest]
    by_cases hcomma : rest.head? = some .comma
    · obtain ⟨rest, rfl⟩ := List.head?_eq_some_iff.1 hcomma
      refine (agrees_consume hrest).bind_left ?_
      rintro _ s₂ ⟨hts₂, hdepth⟩
      dsimp only
      rw [← hdepth]
      exact (agrees_arguments n s₂ _ rest hts₂).map fun _ _ _ hp => hp.widen _
    · split
      · next h => exact absurd h hcomma
      · split
        · next heq =>
          cases heq
          exact absurd rfl hcomma
        · refine (agrees_expectClosing ⟨rfl, rfl, hrest⟩).bind fun _ q s₂ hq => .pure ?_
          exact hq.map fun e => es ++ [e]

end

theorem agrees_read (w : Walk) (n : Nat) :
    Agrees (w.read n) {} (Descent.read w.limit w.tokens) fun e e' _ => e = e' := by
  rw [read, Descent.read]
  refine (agrees_expression n {} w.tokens rfl).bind ?_
  rintro e p s ⟨hvalue, -, hrest⟩
  refine .peek ?_
  rw [getElem?_cursor hrest]
  cases p.rest with
  | nil => exact .pure hvalue.symm
  | cons t ts => exact .failed

/-- Unless a counter leaves the words of the machine, what comes of a walk is what the reader makes of the tokens. -/
theorem eq_ofTokens_of_run {n : Nat} {r : Except Stop Expr} {s : Trail} (hrun : w.run n = some (r, s))
    (hunder : r ≠ .error .underflow) (hover : r ≠ .error .overflow) :
    r = (Expr.ofTokens w.limit w.tokens).mapError fun cause => .failed (.malformed cause) := by
  obtain ⟨hok, herr⟩ := agrees_read w n r s hrun
  rw [Descent.read_eq] at hok herr
  have hcompose : ((Expr.ofTokens w.limit w.tokens).mapError Error.malformed).mapError Stop.failed =
      (Expr.ofTokens w.limit w.tokens).mapError fun cause => .failed (.malformed cause) := by
    cases Expr.ofTokens w.limit w.tokens <;> rfl
  rw [← hcompose]
  cases r with
  | ok e =>
    obtain ⟨_, hread, rfl⟩ := hok e rfl
    rw [hread]
    rfl
  | error stop =>
    cases stop with
    | failed err =>
      rw [herr err rfl]
      rfl
    | overflow => exact absurd rfl hover
    | underflow => exact absurd rfl hunder

/-! ## Main theorem -/

/-- Each function of a walk ends whatever the counters are, given room for eight calls and rounds a token and eight
more, and what it hands back is behind more tokens than it was called at and at the same depth. A walk from the start
ends too. At none of its moments is the depth more than one greater than the number of tokens consumed, or than the
limit, also if it fails; so it never falls below zero, and under no limit whatever does a counter overflow on a machine
whose words count one more than the tokens. What comes of it is then what the reader makes of the tokens. -/
theorem depth_balanced (w : Walk) :
    (w.Returns w.operand ∧ w.Returns w.multiplication ∧ w.Returns w.addition ∧ w.Returns w.expression ∧
      ∀ f, w.Returns fun n => w.call n f) ∧
    ∃ r s, (∀ n, 8 * (w.tokens.length + 1) ≤ n → w.run n = some (r, s)) ∧ (∀ c ∈ s.moments, w.Bounded c) ∧
      r ≠ .error .underflow ∧
      (w.tokens.length < w.word → r ≠ .error .overflow ∧
        r = (Expr.ofTokens w.limit w.tokens).mapError fun cause => .failed (.malformed cause)) := by
  constructor
  · refine ⟨?operand, ?multiplication, ?addition, ?expression, fun f => ?call⟩
    case operand => exact .of_ensures (by decide : 1 ≤ 8) (operand_below w) fun n s hn =>
      ensures_operand n s hn False.elim
    case multiplication => exact .of_ensures (by decide : 2 ≤ 8) (multiplication_below w) fun n s hn =>
      ensures_multiplication n s hn False.elim
    case addition => exact .of_ensures (by decide : 3 ≤ 8) (addition_below w) fun n s hn =>
      ensures_addition n s hn False.elim
    case expression => exact .of_ensures (by decide : 4 ≤ 8) (expression_below w) fun n s hn =>
      ensures_expression n s hn False.elim
    case call => exact .of_ensures (by decide : 6 ≤ 8) (fun n => call_below w n f) fun n s hn =>
      ensures_call n s f hn False.elim
  · have hroom : 8 * (w.tokens.length - 0) + 4 ≤ 8 * (w.tokens.length + 1) := by omega
    obtain ⟨r, s, hrun, hunder, -, hsound⟩ := ensures_read _ {} hroom fun _ : True => ready_start w
    obtain ⟨hkeeps, hover⟩ := hsound trivial
    refine ⟨r, s, fun n hn => run_of_le (read_below w) hn hrun, hkeeps, hunder, fun hlt => ⟨hover hlt, ?_⟩⟩
    exact eq_ofTokens_of_run hrun hunder (hover hlt)

/-- `f(x) * y` with words of 16 bits, under the greatest limit that is one. -/
theorem depth_balanced_of_product :
    let w : Walk := {
      tokens := [.identifier "f", .openParen, .identifier "x", .closeParen, .operator '*', .identifier "y"]
      limit := 65535
      word := 65535 }
    w.tokens.length < w.word ∧ (w.Returns w.multiplication ∧ w.Returns fun n => w.call n "f") ∧
      ∃ s, w.run 56 = some (.ok (.binary (.call "f" [.var "x"]) .multiply (.var "y")), s) ∧
        ∀ c ∈ s.moments, w.Bounded c := by
  intro w
  have hlen : w.tokens.length < w.word := by decide
  obtain ⟨⟨-, hmultiplication, -, -, hcall⟩, r, s, hrun, hbounded, -, hread⟩ := depth_balanced w
  obtain ⟨-, rfl⟩ := hread hlen
  exact ⟨hlen, ⟨hmultiplication, hcall "f"⟩, s, hrun 56 (by decide), hbounded⟩

/-- Both bounds on the depth are attained, in front of the first token and under the limit zero. -/
example : (Walk.run ⟨[.identifier "x"], 0, 65535⟩ 16).map (fun res => (res.1, res.2.moments)) =
    some (.error (.failed (.malformed (.tooDeep 0))), [⟨0, 1⟩, ⟨0, 0⟩]) := rfl

end Walk

end Formula
