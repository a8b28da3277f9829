import Formula.Proofs.Room
/-!
# The counters of a walk

Each function of a walk ends if it has room, whatever the counters are. What it hands back is behind at least one token
more, and the depth is again what it was at the call (`Walk.Passes`). Levels are opened only behind tokens that have
been consumed, so in a walk from the start the depth is at no moment greater than one more than the cursor, nor than one
more than the limit (`Walk.Bounded`), and neither counter leaves the words of a machine that can count the tokens.

`Walk.Ensures` says both of any part of a walk at once: that it ends with this, and that it keeps the bounds wherever
the walk so far has kept them.
-/

namespace Formula

namespace Walk

open Steps

/-! ## What a part of a walk ensures -/

section

variable (w : Walk)

/-- Tokens are consumed, and the depth is what it was. -/
structure Passes (c c' : Counters) : Prop where
  cursor_lt : c.cursor < c'.cursor
  cursor_le : c'.cursor ≤ w.tokens.length
  depth_eq : c'.depth = c.depth

/-- What holds of the counters at every moment of a walk from the start. -/
structure Bounded (c : Counters) : Prop where
  cursor_le : c.cursor ≤ w.tokens.length
  depth_le_cursor : c.depth ≤ c.cursor + 1
  depth_le_limit : c.depth ≤ w.limit + 1

/-- The bounds have been kept so far. -/
def Keeps (s : Trail) : Prop := ∀ c ∈ s.moments, w.Bounded c

/-- A level may be opened, `slack` tokens ahead of the cursor. -/
structure Ready (slack : Nat) (s : Trail) : Prop where
  keeps : w.Keeps s
  depth_le_limit : s.now.depth ≤ w.limit
  depth_le_cursor : s.now.depth ≤ s.now.cursor + slack

/-- From the trail `s` on, `x` ends without falling below zero, and with `P` if it hands something back. If `sound`,
which stands for bounds that have been kept up to `s`, it keeps the bounds as well, and does not overflow where the
tokens can be counted. -/
def Ensures {α : Type} (sound : Prop) (x : Steps α) (s : Trail) (P : α → Counters → Prop) : Prop :=
  ∃ r s', x.run.run s = some (r, s') ∧ r ≠ .error .underflow ∧ (∀ a, r = .ok a → P a s'.now) ∧
    (sound → w.Keeps s' ∧ (w.tokens.length < w.word → r ≠ .error .overflow))

end

variable {w : Walk} {sound : Prop} {α β : Type} {x : Steps α} {f : α → Steps β} {s s' : Trail} {c c' c'' : Counters}
  {P : α → Counters → Prop} {Q : β → Counters → Prop} {slack : Nat}

theorem Passes.trans (h : w.Passes c c') (h' : w.Passes c' c'') : w.Passes c c'' :=
  ⟨Nat.lt_trans h.cursor_lt h'.cursor_lt, h'.cursor_le, h'.depth_eq.trans h.depth_eq⟩

theorem Keeps.move (h : w.Keeps s) (hc : w.Bounded c) : w.Keeps (s.move c) := by
  rintro c' (_ | ⟨_, hc'⟩)
  · exact hc
  · exact h c' hc'

theorem Keeps.now (h : w.Keeps s) : w.Bounded s.now := h s.now List.mem_cons_self

/-- Behind a token a level may be opened. -/
theorem Ready.next (h : w.Ready slack s) (hslack : slack ≤ 1) (hpass : w.Passes s.now s'.now) (hkeeps : w.Keeps s') :
    w.Ready 0 s' := by
  obtain ⟨hcursor, -, hdepth⟩ := hpass
  have hlimit := h.depth_le_limit
  have hle := h.depth_le_cursor
  exact ⟨hkeeps, by omega, by omega⟩

namespace Ensures

theorem pure {a : α} (hP : P a s.now) (hs : sound → w.Keeps s) : w.Ensures sound (Pure.pure a) s P := by
  refine ⟨.ok a, s, rfl, nofun, ?_, fun h => ⟨hs h, nofun⟩⟩
  rintro _ ⟨⟩
  exact hP

theorem failed (err : Error) (hs : sound → w.Keeps s) : w.Ensures sound (throw (.failed err) : Steps α) s P :=
  ⟨_, s, rfl, nofun, nofun, fun h => ⟨hs h, nofun⟩⟩

theorem bind (hx : w.Ensures sound x s P)
    (hf : ∀ a s', P a s'.now → (sound → w.Keeps s') → w.Ensures sound (f a) s' Q) : w.Ensures sound (x >>= f) s Q := by
  obtain ⟨r, s', hrun, hunder, hP, hkeeps⟩ := hx
  cases r with
  | error stop =>
    refine ⟨.error stop, s', run_bind_of_error hrun, ?_, nofun, fun hsound => ⟨(hkeeps hsound).1, fun hlt => ?_⟩⟩
    · rintro ⟨⟩
      exact hunder rfl
    · rintro ⟨⟩
      exact (hkeeps hsound).2 hlt rfl
  | ok a =>
    obtain ⟨r, s'', hrun', h⟩ := hf a s' (hP a rfl) fun hsound => (hkeeps hsound).1
    exact ⟨r, s'', (run_bind_of_ok hrun).trans hrun', h⟩

theorem mono {P' : α → Counters → Prop} (h : w.Ensures sound x s P) (hP : ∀ a c, P a c → P' a c) :
    w.Ensures sound x s P' := by
  obtain ⟨r, s', hrun, hunder, hpost, hkeeps⟩ := h
  exact ⟨r, s', hrun, hunder, fun a ha => hP a _ (hpost a ha), hkeeps⟩

theorem counters {f : Counters → Steps α} (h : w.Ensures sound (f s.now) s P) :
    w.Ensures sound (Steps.counters >>= f) s P := h

theorem peek {f : Option Token → Steps α} (h : w.Ensures sound (f w.tokens[s.now.cursor]?) s P) :
    w.Ensures sound (w.peek >>= f) s P := h

theorem assign (hs : sound → w.Keeps s) (hc : sound → w.Bounded c) :
    w.Ensures sound (Steps.assign c) s fun _ c' => c' = c :=
  ⟨.ok (), s.move c, rfl, nofun, fun _ _ => rfl, fun h => ⟨(hs h).move (hc h), nofun⟩⟩

theorem succ {n : Nat} (hs : sound → w.Keeps s) (hn : sound → n ≤ w.tokens.length) :
    w.Ensures sound (w.succ n) s fun m c => m = n + 1 ∧ c = s.now := by
  rw [Walk.succ]
  by_cases hword : n < w.word
  · rw [if_pos hword]
    exact .pure ⟨rfl, rfl⟩ hs
  · rw [if_neg hword]
    refine ⟨_, s, rfl, nofun, nofun, fun h => ⟨hs h, fun hlt => ?_⟩⟩
    have hle := hn h
    omega

end Ensures

/-! ## Steps -/

theorem ensures_consume (ht : s.now.cursor < w.tokens.length) (hs : sound → w.Keeps s) :
    w.Ensures sound w.consume s fun _ c => w.Passes s.now c := by
  rw [consume]
  refine .counters ((Ensures.succ hs fun _ => Nat.le_of_lt ht).bind ?_)
  rintro _ s₁ ⟨rfl, hnow⟩ hs₁
  refine (Ensures.assign hs₁ fun hsound => ?_).mono ?_
  · have hbound := (hs hsound).now
    exact ⟨ht, Nat.le_succ_of_le hbound.depth_le_cursor, hbound.depth_le_limit⟩
  · rintro _ _ rfl
    exact ⟨Nat.lt_succ_self _, ht, rfl⟩

theorem ensures_advance {f : Option Token → Steps α} (hs : sound → w.Keeps s)
    (hnone : w.Ensures sound (f none) s P)
    (hsome : ∀ t s', w.Passes s.now s'.now → (sound → w.Keeps s') → w.Ensures sound (f (some t)) s' P) :
    w.Ensures sound (w.advance >>= f) s P := by
  rw [advance, bind_assoc]
  refine .peek ?_
  cases ht : w.tokens[s.now.cursor]? with
  | none => exact hnone
  | some t =>
    obtain ⟨hlt, -⟩ := List.getElem?_eq_some_iff.1 ht
    dsimp only
    rw [bind_assoc]
    exact (ensures_consume hlt hs).bind fun _ s' => hsome t s'

theorem ensures_expectClosing (hs : sound → w.Keeps s) :
    w.Ensures sound w.expectClosing s fun _ c => w.Passes s.now c := by
  rw [expectClosing]
  refine ensures_advance hs (.failed _ hs) fun t s' hpass hs' => ?_
  cases t with
  | closeParen => exact .pure hpass hs'
  | number _ | identifier _ | openParen | comma | operator _ => exact .failed _ hs'

/-- An operator that is handed back has been consumed. -/
theorem ensures_operator? (symbols : List Char) (hs : sound → w.Keeps s) :
    w.Ensures sound (w.operator? symbols) s fun op c =>
      match op with
      | some _ => w.Passes s.now c
      | none => c = s.now := by
  rw [operator?]
  refine .peek ?_
  cases ht : w.tokens[s.now.cursor]? with
  | none => exact .pure rfl hs
  | some t =>
    cases t with
    | operator c =>
      obtain ⟨hlt, -⟩ := List.getElem?_eq_some_iff.1 ht
      dsimp only
      by_cases hc : c ∈ symbols
      · rw [if_pos hc]
        refine (ensures_consume hlt hs).bind fun _ s' hpass hs' => ?_
        cases Operator.ofSymbol c with
        | ok op => exact .pure hpass hs'
        | error err => exact .failed err hs'
      · rw [if_neg hc]
        exact .pure rfl hs
    | number _ | identifier _ | openParen | closeParen | comma => exact .pure rfl hs

/-- Where a level may be opened the counter has room for it, and what it gets to is within the bounds, even where that
is refused. -/
theorem ensures_descend (h : sound → w.Ready 0 s) : w.Ensures sound w.descend s fun _ c =>
    c.cursor = s.now.cursor ∧ c.depth = s.now.depth + 1 ∧ c.depth ≤ w.limit := by
  have hs (hsound : sound) : w.Keeps s := (h hsound).keeps
  rw [descend]
  refine .counters ((Ensures.succ hs fun hsound => ?_).bind ?_)
  · exact Nat.le_trans (h hsound).depth_le_cursor (hs hsound).now.cursor_le
  · rintro _ s₁ ⟨rfl, -⟩ hs₁
    refine (Ensures.assign hs₁ fun hsound => ?_).bind fun _ s₂ hnow hs₂ => ?_
    · obtain ⟨-, hlimit, hcursor⟩ := h hsound
      exact ⟨(hs hsound).now.cursor_le, Nat.succ_le_succ hcursor, Nat.succ_le_succ hlimit⟩
    · by_cases hlimit : w.limit < s.now.depth + 1
      · rw [if_pos hlimit]
        exact .failed _ hs₂
      · rw [if_neg hlimit]
        refine .pure ?_ hs₂
        rw [hnow]
        exact ⟨rfl, rfl, Nat.le_of_not_lt hlimit⟩

theorem ensures_ascend (hpos : 0 < s.now.depth) (hs : sound → w.Keeps s) :
    w.Ensures sound ascend s fun _ c => c.cursor = s.now.cursor ∧ c.depth + 1 = s.now.depth := by
  rw [ascend]
  refine .counters ?_
  rw [if_neg (Nat.ne_of_gt hpos)]
  refine (Ensures.assign hs fun hsound => ?_).mono ?_
  · obtain ⟨hcursor, hdepth, hlimit⟩ := (hs hsound).now
    exact ⟨hcursor, by dsimp only; omega, by dsimp only; omega⟩
  · rintro _ _ rfl
    exact ⟨rfl, Nat.sub_add_cancel hpos⟩

/-! ## Chains -/

namespace IsChain

variable {symbols : List Char} {part chain : Nat → Steps Expr} {loop : Nat → Expr → Steps Expr} {k : Nat}

/-- A loop consumes an operator in every round. It leaves the depth wherever it is. -/
theorem ensures_loop (hc : w.IsChain symbols part chain loop) (hk : k ≤ 7) : ∀ n : Nat,
    (∀ m ≤ n, ∀ s, 8 * (w.tokens.length - s.now.cursor) + k ≤ m → (sound → w.Ready 1 s) →
      w.Ensures sound (part m) s fun _ c => w.Passes s.now c) →
    ∀ (s : Trail) (e : Expr), s.now.cursor ≤ w.tokens.length → 8 * (w.tokens.length - s.now.cursor) + 1 ≤ n →
      (sound → w.Ready 0 s) →
      w.Ensures sound (loop n e) s fun _ c => s.now.cursor ≤ c.cursor ∧ c.cursor ≤ w.tokens.length
  | n + 1, hpart, s, e, hle, hn, h => by
    rw [hc.loop_succ]
    refine (ensures_operator? _ fun hsound => (h hsound).keeps).bind fun op s₁ hop hs₁ => ?_
    cases op with
    | none =>
      refine .pure ?_ hs₁
      rw [hop]
      exact ⟨Nat.le_refl _, hle⟩
    | some op =>
      have hlt := hop.cursor_lt
      have hle₁ := hop.cursor_le
      -- The operator that has been consumed pays for the level that is opened behind it.
      have hready₁ (hsound : sound) := (h hsound).next (Nat.zero_le 1) hop (hs₁ hsound)
      refine (ensures_descend hready₁).bind fun _ s₂ ⟨hcursor, hdepth, hlimit⟩ hs₂ => ?_
      have hready₂ (hsound : sound) : w.Ready 1 s₂ := by
        have hroom := (hready₁ hsound).depth_le_cursor
        exact ⟨hs₂ hsound, hlimit, by omega⟩
      refine (hpart n (Nat.le_succ n) s₂ (by omega) hready₂).bind fun r s₃ hpass hs₃ => ?_
      have hlt₃ := hpass.cursor_lt
      have hle₃ := hpass.cursor_le
      have hready₃ (hsound : sound) := (hready₂ hsound).next (Nat.le_refl 1) hpass (hs₃ hsound)
      have hpart' (m : Nat) (hm : m ≤ n) := hpart m (Nat.le_succ_of_le hm)
      refine (ensures_loop hc hk n hpart' s₃ (.binary e op r) hle₃ (by omega) hready₃).mono ?_
      rintro _ c ⟨hge, hle₄⟩
      exact ⟨by omega, hle₄⟩

/-- Behind the loop the depth that has been kept is that of the call. -/
theorem ensures (hc : w.IsChain symbols part chain loop) (hk : k ≤ 7) (n : Nat) (s : Trail)
    (hpart : ∀ m ≤ n, ∀ s, 8 * (w.tokens.length - s.now.cursor) + k ≤ m → (sound → w.Ready 1 s) →
      w.Ensures sound (part m) s fun _ c => w.Passes s.now c)
    (hn : 8 * (w.tokens.length - s.now.cursor) + k ≤ n) (h : sound → w.Ready 1 s) :
    w.Ensures sound (chain (n + 1)) s fun _ c => w.Passes s.now c := by
  rw [hc.chain_succ]
  refine .counters ((hpart n (Nat.le_refl n) s hn h).bind fun e s₁ hpass hs₁ => ?_)
  have hlt := hpass.cursor_lt
  have hle := hpass.cursor_le
  have hready (hsound : sound) := (h hsound).next (Nat.le_refl 1) hpass (hs₁ hsound)
  refine (hc.ensures_loop hk n hpart s₁ e hle (by omega) hready).bind fun e s₂ ⟨hloop, hle₂⟩ hs₂ => ?_
  rw [restore, bind_assoc]
  refine .counters ((Ensures.assign hs₂ fun hsound => ?_).bind fun _ s₃ hnow hs₃ => .pure ?_ hs₃)
  · have hbound := (h hsound).keeps.now
    have hdepth := hbound.depth_le_cursor
    exact ⟨hle₂, by dsimp only; omega, hbound.depth_le_limit⟩
  · rw [hnow]
    exact ⟨Nat.lt_of_lt_of_le hlt hloop, hle₂, rfl⟩

end IsChain

/-! ## Functions

Each theorem is about the function of its name. Additions and multiplications restore the depth by assignment. An
expression counts it down, which is right because the addition in it has restored it. Eight calls and rounds for every
token that is left are enough, since no more than six of them are made without consuming a token.
-/

mutual

theorem ensures_expression : ∀ (n : Nat) (s : Trail), 8 * (w.tokens.length - s.now.cursor) + 4 ≤ n →
    (sound → w.Ready 0 s) → w.Ensures sound (w.expression n) s fun _ c => w.Passes s.now c
  | n + 1, s, hn, h => by
    rw [expression]
    refine (ensures_descend h).bind fun _ s₁ ⟨hcursor, hdepth, hlimit⟩ hs₁ => ?_
    have hready (hsound : sound) : w.Ready 1 s₁ := by
      have hle := (h hsound).depth_le_cursor
      exact ⟨hs₁ hsound, hlimit, by omega⟩
    refine (ensures_addition n s₁ (by omega) hready).bind fun e s₂ hpass hs₂ => ?_
    -- The addition has restored the depth, so there is a level to go back.
    have hback := hpass.depth_eq
    refine (ensures_ascend (by omega) hs₂).bind fun _ s₃ ⟨hcursor', hdepth'⟩ hs₃ => .pure ?_ hs₃
    have hlt := hpass.cursor_lt
    have hle := hpass.cursor_le
    exact ⟨by omega, by omega, by omega⟩

theorem ensures_addition : ∀ (n : Nat) (s : Trail), 8 * (w.tokens.length - s.now.cursor) + 3 ≤ n →
    (sound → w.Ready 1 s) → w.Ensures sound (w.addition n) s fun _ c => w.Passes s.now c
  | n + 1, s, hn, h => (isChain_addition w).ensures (by decide : 2 ≤ 7) n s (fun m _ => ensures_multiplication m)
      (Nat.le_of_succ_le_succ hn) h

theorem ensures_multiplication : ∀ (n : Nat) (s : Trail), 8 * (w.tokens.length - s.now.cursor) + 2 ≤ n →
    (sound → w.Ready 1 s) → w.Ensures sound (w.multiplication n) s fun _ c => w.Passes s.now c
  | n + 1, s, hn, h => (isChain_multiplication w).ensures (by decide : 1 ≤ 7) n s (fun m _ => ensures_operand m)
      (Nat.le_of_succ_le_succ hn) h

theorem ensures_operand : ∀ (n : Nat) (s : Trail), 8 * (w.tokens.length - s.now.cursor) + 1 ≤ n →
    (sound → w.Ready 1 s) → w.Ensures sound (w.operand n) s fun _ c => w.Passes s.now c
  | n + 1, s, hn, h => by
    have hs (hsound : sound) : w.Keeps s := (h hsound).keeps
    rw [operand]
    refine ensures_advance hs (.failed _ hs) fun t s₁ hpass hs₁ => ?_
    have hready (hsound : sound) := (h hsound).next (Nat.le_refl 1) hpass (hs₁ hsound)
    have hlt := hpass.cursor_lt
    have hle := hpass.cursor_le
    cases t with
    | number x => exact .pure hpass hs₁
    | identifier name =>
      refine .peek ?_
      split
      · next hparen =>
        obtain ⟨hparen, -⟩ := List.getElem?_eq_some_iff.1 hparen
        refine (ensures_consume hparen hs₁).bind fun _ s₂ hpass₂ hs₂ => ?_
        have hlt₂ := hpass₂.cursor_lt
        have hready₂ (hsound : sound) := (hready hsound).next (Nat.zero_le 1) hpass₂ (hs₂ hsound)
        exact (ensures_call n s₂ name (by omega) hready₂).mono fun _ c hcall => (hpass.trans hpass₂).trans hcall
      · exact .pure hpass hs₁
    | openParen =>
      refine (ensures_expression n s₁ (by omega) hready).bind fun e s₂ hpass₂ hs₂ => ?_
      exact (ensures_expectClosing hs₂).bind fun _ s₃ hpass₃ hs₃ => .pure ((hpass.trans hpass₂).trans hpass₃) hs₃
    | closeParen | comma | operator _ => exact .failed _ hs₁

theorem ensures_call : ∀ (n : Nat) (s : Trail) (f : String), 8 * (w.tokens.length - s.now.cursor) + 6 ≤ n →
    (sound → w.Ready 0 s) → w.Ensures sound (w.call n f) s fun _ c => w.Passes s.now c
  | n + 1, s, f, hn, h => by
    rw [call]
    refine .peek ?_
    split
    · next hparen =>
      obtain ⟨hparen, -⟩ := List.getElem?_eq_some_iff.1 hparen
      exact (ensures_consume hparen fun hsound => (h hsound).keeps).bind fun _ s₁ hpass hs₁ => .pure hpass hs₁
    · exact (ensures_arguments n s [] (by omega) h).bind fun es s₁ hpass hs₁ => .pure hpass hs₁

theorem ensures_arguments : ∀ (n : Nat) (s : Trail) (es : List Expr),
    8 * (w.tokens.length - s.now.cursor) + 5 ≤ n → (sound → w.Ready 0 s) →
    w.Ensures sound (w.arguments n es) s fun _ c => w.Passes s.now c
  | n + 1, s, es, hn, h => by
    rw [arguments]
    refine (ensures_expression n s (by omega) h).bind fun e s₁ hpass hs₁ => .peek ?_
    split
    · next hcomma =>
      obtain ⟨hcomma, -⟩ := List.getElem?_eq_some_iff.1 hcomma
      refine (ensures_consume hcomma hs₁).bind fun _ s₂ hpass₂ hs₂ => ?_
      have hall := hpass.trans hpass₂
      have hlt := hall.cursor_lt
      have hle := hall.cursor_le
      have hready (hsound : sound) := (h hsound).next (Nat.zero_le 1) hall (hs₂ hsound)
      exact (ensures_arguments n s₂ _ (by omega) hready).mono fun _ c hrest => hall.trans hrest
    · exact (ensures_expectClosing hs₁).bind fun _ s₂ hpass₂ hs₂ => .pure (hpass.trans hpass₂) hs₂

end

/-! ## Walks from any counters, and from the start -/

/-- Whatever the counters are, the function ends if it is given room for eight calls and rounds a token and eight more.
Then it has not fallen below zero, and what it hands back is behind more tokens and at the depth of the call. -/
def Returns (w : Walk) (x : Nat → Steps Expr) : Prop :=
  ∀ s, ∃ r s', (∀ n, 8 * (w.tokens.length + 1) ≤ n → (x n).run.run s = some (r, s')) ∧ r ≠ .error .underflow ∧
    ∀ e, r = .ok e → w.Passes s.now s'.now

/-- Nothing need be known of the bounds for that. -/
theorem Returns.of_ensures {x : Nat → Steps Expr} {k : Nat} (hk : k ≤ 8) (hx : ∀ n, Below (x n) (x (n + 1)))
    (h : ∀ n s, 8 * (w.tokens.length - s.now.cursor) + k ≤ n →
      w.Ensures False (x n) s fun _ c => w.Passes s.now c) : w.Returns x := by
  intro s
  obtain ⟨r, s', hrun, hunder, hpass, -⟩ := h (8 * (w.tokens.length + 1)) s (by omega)
  exact ⟨r, s', fun n hn => run_of_le hx hn hrun, hunder, hpass⟩

theorem ensures_read (n : Nat) (s : Trail) (hn : 8 * (w.tokens.length - s.now.cursor) + 4 ≤ n)
    (h : sound → w.Ready 0 s) : w.Ensures sound (w.read n) s fun _ c => w.Passes s.now c := by
  rw [read]
  refine (ensures_expression n s hn h).bind fun e s₁ hpass hs₁ => .peek ?_
  split
  · exact .failed _ hs₁
  · exact .pure hpass hs₁

/-- In front of the first token the bounds are kept. -/
theorem ready_start (w : Walk) : w.Ready 0 {} := by
  refine ⟨?_, Nat.zero_le _, Nat.zero_le _⟩
  rintro c (_ | ⟨_, ⟨⟩⟩)
  exact ⟨Nat.zero_le _, Nat.zero_le _, Nat.zero_le _⟩

end Walk

end Formula
