import Formula.Proofs.Levels
/-!
# The deepest operand

A reader keeps count of the depth as it goes, up at operators and parentheses and down where chains and levels end. The
same depth can be told at each number and name from the tokens in front of it alone. The greatest of these depths is
what an expression takes (`SumDepth.deepest`), so it is accepted exactly if none of its numbers and names stands too
deep: `ofTokens_of_depthsWithin`.
-/

namespace Formula

open Token

/-- Numbers and names: the tokens that stand at a depth. -/
def Token.IsLeaf : Token → Prop
  | number _ | identifier _ => True
  | openParen | closeParen | comma | operator _ => False

instance : DecidablePred IsLeaf := fun t => by cases t <;> unfold IsLeaf <;> infer_instance

/-- In front of some number or name in `ts` stand the tokens `us`. -/
def Leads (us ts : List Token) : Prop := ∃ t vs, ts = us ++ t :: vs ∧ t.IsLeaf

/-- The deepest number or name in `ts` stands at the depth `d`. -/
structure Deepest (ts : List Token) (d : Nat) : Prop where
  le : ∀ us, Leads us ts → depthBehind us ≤ d
  attained : ∃ us, Leads us ts ∧ depthBehind us = d

section

variable {t : Token} {ts us vs : List Token} {n d d' : Nat}

/-! ## In front of numbers and names -/

theorem Leads.isPrefix (h : Leads us ts) : us <+: ts := by
  obtain ⟨t, vs, rfl, -⟩ := h
  exact List.prefix_append us (t :: vs)

theorem not_leads_nil : ¬ Leads vs [] := by
  rintro ⟨t, ws, h, -⟩
  exact absurd h (by simp)

theorem leads_cons : Leads vs (t :: ts) ↔ t.IsLeaf ∧ vs = [] ∨ ∃ ws, vs = t :: ws ∧ Leads ws ts := by
  constructor
  · rintro ⟨u, ws, h, hu⟩
    cases vs with
    | nil =>
      obtain ⟨rfl, rfl⟩ := List.cons.inj h
      exact .inl ⟨hu, rfl⟩
    | cons v vs =>
      obtain ⟨rfl, rfl⟩ := List.cons.inj h
      exact .inr ⟨vs, rfl, u, ws, rfl, hu⟩
  · rintro (⟨ht, rfl⟩ | ⟨ws, rfl, u, xs, rfl, hu⟩)
    · exact ⟨t, ts, rfl, ht⟩
    · exact ⟨u, xs, rfl, hu⟩

theorem leads_append : Leads vs (ts ++ us) ↔ Leads vs ts ∨ ∃ ws, vs = ts ++ ws ∧ Leads ws us := by
  induction ts generalizing vs with
  | nil => simp [not_leads_nil]
  | cons t ts ih =>
    simp only [List.cons_append, leads_cons, ih]
    constructor
    · rintro (hleaf | ⟨ws, rfl, hws | ⟨xs, rfl, hxs⟩⟩)
      · exact .inl (.inl hleaf)
      · exact .inl (.inr ⟨ws, rfl, hws⟩)
      · exact .inr ⟨xs, rfl, hxs⟩
    · rintro ((hleaf | ⟨ws, rfl, hws⟩) | ⟨xs, rfl, hxs⟩)
      · exact .inl hleaf
      · exact .inr ⟨ws, rfl, .inl hws⟩
      · exact .inr ⟨ts ++ xs, rfl, .inr ⟨xs, rfl, hxs⟩⟩

/-! ## The deepest of the parts -/

theorem Deepest.leaf (ht : t.IsLeaf) : Deepest [t] 1 := by
  have hleads : ∀ us, Leads us [t] ↔ us = [] := fun us => by simp [leads_cons, ht, not_leads_nil]
  refine ⟨fun us hus => ?_, [], (hleads []).2 rfl, rfl⟩
  rw [(hleads us).1 hus]
  exact Nat.le_refl 1

theorem Deepest.concat (h : Deepest ts d) (ht : ¬ t.IsLeaf) : Deepest (ts ++ [t]) d := by
  have hleads : ∀ us, Leads us (ts ++ [t]) ↔ Leads us ts := by
    intro us
    rw [leads_append]
    simp [leads_cons, not_leads_nil, ht]
  obtain ⟨us, hus, hd⟩ := h.attained
  exact ⟨fun us hus => h.le us ((hleads us).1 hus), us, (hleads us).2 hus, hd⟩

/-- Of two parts that are joined, the second one stands deeper by `n`. -/
theorem Deepest.join (h : Deepest ts d) (h' : Deepest us d') (ht : ¬ t.IsLeaf)
    (hdepth : ∀ vs, vs <+: us → depthBehind (ts ++ t :: vs) = n + depthBehind vs) :
    Deepest (ts ++ t :: us) (max d (n + d')) := by
  have hleads : ∀ vs, Leads vs (ts ++ t :: us) ↔ Leads vs ts ∨ ∃ ws, vs = ts ++ t :: ws ∧ Leads ws us := by
    intro vs
    rw [leads_append]
    simp [leads_cons, ht]
  constructor
  · intro vs hvs
    rcases (hleads vs).1 hvs with hvs | ⟨ws, rfl, hws⟩
    · have := h.le vs hvs
      omega
    · have := h'.le ws hws
      rw [hdepth ws hws.isPrefix]
      omega
  · obtain ⟨vs, hvs, hd⟩ := h.attained
    obtain ⟨ws, hws, hd'⟩ := h'.attained
    rcases Nat.le_total d (n + d') with hle | hle
    · refine ⟨ts ++ t :: ws, (hleads _).2 (.inr ⟨ws, rfl, hws⟩), ?_⟩
      rw [hdepth ws hws.isPrefix, hd', Nat.max_eq_right hle]
    · exact ⟨vs, (hleads _).2 (.inl hvs), by rw [hd, Nat.max_eq_left hle]⟩

/-- What is in parentheses stands on a level of its own. -/
theorem Deepest.openParen (h : Deepest ts d) (hts : ClosesAtMost 0 ts) : Deepest (.openParen :: ts) (d + 1) := by
  have hleads : ∀ us, Leads us (.openParen :: ts) ↔ ∃ ws, us = .openParen :: ws ∧ Leads ws ts := by
    intro us
    rw [leads_cons]
    simp [IsLeaf]
  constructor
  · intro us hus
    obtain ⟨ws, rfl, hws⟩ := (hleads us).1 hus
    have := h.le ws hws
    rw [depthBehind_openParen (hts.of_isPrefix hws.isPrefix)]
    omega
  · obtain ⟨ws, hws, hd⟩ := h.attained
    refine ⟨.openParen :: ws, (hleads _).2 ⟨ws, rfl, hws⟩, ?_⟩
    rw [depthBehind_openParen (hts.of_isPrefix hws.isPrefix)]
    omega

/-- The name of a function stands on the level around its arguments. -/
theorem Deepest.function (f : String) (h : Deepest ts d) (hts : ClosesAtMost 0 ts) :
    Deepest (identifier f :: .openParen :: ts) (d + 1) := by
  have hname : Deepest [identifier f] 1 := .leaf trivial
  have hjoin := hname.join h (t := .openParen) id fun vs hvs => depthBehind_identifier f (hts.of_isPrefix hvs)
  rwa [Nat.max_eq_right (by omega), Nat.add_comm] at hjoin

end

mutual

/-- What the grammar counts along a derivation is what the tokens tell. -/
theorem SumDepth.deepest {n k : Nat} {ts : List Token} {e : Expr} : SumDepth n k ts e → Deepest ts (k + 1)
  | .term h => h.deepest
  | @SumDepth.join n k _ k' _ _ _ _ _ hl hop hr => by
    have hmax : max (k + 1) (n + 1 + (k' + 1)) = max k (n + 1 + k') + 1 := by omega
    rw [← hmax]
    refine hl.deepest.join hr.deepest id fun vs hvs => hl.depthBehind_eq hop fun t ht => ?_
    exact (hr.forall_own.1 t ((own_isPrefix hvs 0).subset ht)).1

theorem TermDepth.deepest {m k : Nat} {ts : List Token} {e : Expr} : TermDepth m k ts e → Deepest ts (k + 1)
  | .operand h => h.deepest
  | @TermDepth.join m k k' _ _ _ _ _ hl hop hr => by
    have hmax : max (k + 1) (m + 1 + (k' + 1)) = max k (m + 1 + k') + 1 := by omega
    rw [← hmax]
    refine hl.deepest.join hr.deepest id fun vs hvs => hl.depthBehind_eq hop fun t ht => ?_
    obtain ⟨hcomma, hsum, -⟩ := hr.forall_own t ((own_isPrefix hvs 0).subset ht)
    exact ⟨hcomma, hsum⟩

theorem OperandDepth.deepest {k : Nat} {ts : List Token} {e : Expr} : OperandDepth k ts e → Deepest ts (k + 1)
  | .number x => .leaf trivial
  | .var name => .leaf trivial
  | .group h => (h.deepest.openParen (closesAtMost_of_balanced h.isSum.balanced 0)).concat id
  | .constant f => by
    have hname : Deepest [identifier f] 1 := .leaf trivial
    exact (hname.concat (t := .openParen) id).concat id
  | .call f h => (h.deepest.function f (closesAtMost_of_balanced h.isArguments.balanced 0)).concat id

theorem ArgumentsDepth.deepest {k : Nat} {ts : List Token} {es : List Expr} :
    ArgumentsDepth k ts es → Deepest ts (k + 1)
  | .last h => h.deepest
  | @ArgumentsDepth.more _ k k' _ _ _ _ h hs => by
    have hmax : max (k + 1) (0 + (k' + 1)) = max k k' + 1 := by omega
    rw [← hmax]
    exact h.deepest.join hs.deepest id fun vs _ => depthBehind_comma h.isSum.balanced vs

end

/-! ## Main theorem -/

/-- No number or name among the tokens stands deeper than the limit. -/
def Token.DepthsWithin (limit : Nat) (ts : List Token) : Prop :=
  ∀ i (hi : i < ts.length), ts[i].IsLeaf → depthBehind (ts.take i) ≤ limit

instance (limit : Nat) (ts : List Token) : Decidable (DepthsWithin limit ts) :=
  inferInstanceAs (Decidable (∀ i (hi : i < ts.length), ts[i].IsLeaf → depthBehind (ts.take i) ≤ limit))

theorem Deepest.depthsWithin_iff {ts : List Token} {d : Nat} (h : Deepest ts d) (limit : Nat) :
    DepthsWithin limit ts ↔ d ≤ limit := by
  constructor
  · intro hwithin
    obtain ⟨us, ⟨t, vs, rfl, ht⟩, rfl⟩ := h.attained
    simpa using hwithin us.length (by simp) (by simpa using ht)
  · intro hd i hi ht
    have hleads : Leads (ts.take i) ts := ⟨ts[i], ts.drop (i + 1), by simp, ht⟩
    exact Nat.le_trans (h.le _ hleads) hd

/-- An expression is read under a limit exactly if each of its numbers and names stands within the limit, by the tokens
in front of it. Otherwise it is refused as too deep. -/
theorem ofTokens_of_depthsWithin {ts : List Token} {e : Expr} (h : IsSum ts e) (limit : Nat) :
    Expr.ofTokens limit ts = if DepthsWithin limit ts then .ok e else .error (.tooDeep limit) := by
  obtain ⟨n, k, hdepth⟩ := h.exists_depth
  rw [ofTokens_of_depth hdepth]
  simp only [hdepth.deepest.depthsWithin_iff]

/-- In `a - b * f(a + b, a * c) - c` the deepest operands are the second one of each argument: two levels are open in
front of them, with a sum and a product on the outer one and one of either on the inner one. -/
theorem ofTokens_of_depthsWithin_of_arguments :
    let ts : List Token := [.identifier "a", .operator '-', .identifier "b", .operator '*', .identifier "f", .openParen,
      .identifier "a", .operator '+', .identifier "b", .comma, .identifier "a", .operator '*', .identifier "c",
      .closeParen, .operator '-', .identifier "c"]
    let e : Expr := .binary (.binary (.var "a") .subtract (.binary (.var "b") .multiply
      (.call "f" [.binary (.var "a") .add (.var "b"), .binary (.var "a") .multiply (.var "c")]))) .subtract (.var "c")
    IsSum ts e ∧ depthBehind (ts.take 8) = 5 ∧ depthBehind (ts.take 12) = 5 ∧ depthBehind (ts.take 15) = 3 ∧
      Expr.ofTokens 5 ts = .ok e ∧ Expr.ofTokens 4 ts = .error (.tooDeep 4) := by
  intro ts e
  have hread : Expr.ofTokens 5 ts = .ok e := rfl
  have hsum : IsSum ts e := isSum_of_ofTokens hread
  refine ⟨hsum, by decide, by decide, by decide, ?_, ?_⟩
  · exact (ofTokens_of_depthsWithin hsum 5).trans (if_pos (by decide))
  · exact (ofTokens_of_depthsWithin hsum 4).trans (if_neg (by decide))

end Formula
