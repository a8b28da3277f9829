import Formula.Proofs.Height
/-!
# How much limit a text needs

Between operators an expression reuses depth that its own text takes up in parentheses, so the text may need a higher
limit than what it was read from. The square of the limit is enough, and under every limit but zero some expression is
accepted whose text needs all of it: `ofText_text_square`.
-/

namespace Formula

open Binary64

namespace Expr

mutual

/-- Only infinity changes when a text is read again. -/
theorem reread_of_isFinite : ∀ e : Expr, e.IsFinite → e.reread = e
  | literal x, h => by
    rw [IsFinite, Every] at h
    rw [reread, if_neg (by omega)]
  | var name, _ => by rw [reread]
  | binary l op r, h => by
    rw [IsFinite, Every] at h
    rw [reread, reread_of_isFinite l h.1, reread_of_isFinite r h.2]
  | call f es, h => by
    rw [IsFinite, Every] at h
    rw [reread, rereadList_of_everyList es h.2]

theorem rereadList_of_everyList : ∀ es : List Expr, EveryList (magnitude · < infinity) (fun _ => True) es →
    rereadList es = es
  | [], _ => by rw [rereadList]
  | e :: es, h => by
    rw [EveryList] at h
    rw [rereadList, reread_of_isFinite e h.1, rereadList_of_everyList es h.2]

end

/-- A finite expression is read from its text, wherever the limit allows for what the text costs. -/
theorem ofText_text_of_isFinite {e : Expr} (h : e.IsWritable) (hfinite : e.IsFinite) (limit : Nat) :
    ofText limit e.text = if e.cost + 1 ≤ limit then .ok e else .error (.tooDeep limit) := by
  rw [ofText_text h, reread_of_isFinite e hfinite]

end Expr

/-! ## Tokens as a text -/

theorem Token.IsWritable.fits {t : Token} (h : t.IsWritable) : t.Fits (magnitude · < infinity) fun _ => True := by
  cases t with
  | number x => exact h.1
  | identifier _ | openParen | closeParen | comma | operator _ => trivial

/-- With a blank behind each, tokens never fuse. -/
theorem exists_tokenize_eq {ts : List Token} (h : ∀ t ∈ ts, t.IsWritable) : ∃ text, tokenize text = .ok ts := by
  let ps : List (Token × List Char) := ts.map fun t => (t, [' '])
  have hps : ∀ p ∈ ps, p.1.IsWritable ∧ ∀ c ∈ p.2, isBlank c := by
    intro p hp
    obtain ⟨t, ht, rfl⟩ := List.mem_map.1 hp
    exact ⟨h t ht, List.forall_mem_singleton.2 (by decide)⟩
  have hgaps : ps.IsChain fun p q => p.1.Fuses q.1 → p.2 ≠ [] := by
    refine List.Pairwise.isChain (List.pairwise_map.2 ?_)
    exact List.pairwise_of_forall fun _ _ _ => by simp
  have htokens : ps.map Prod.fst = ts := by simp [ps, Function.comp_def]
  exact ⟨_, htokens ▸ @tokenize_writeSpaced [] ps (List.forall_mem_nil _) hps hgaps⟩

/-- Some expression that is accepted under a limit has a text that costs as much as it can. -/
theorem exists_ofText_cost_eq {limit : Nat} (h : 1 ≤ limit) :
    ∃ text e, Expr.ofText limit text = .ok e ∧ e.IsFinite ∧ e.cost + 1 = limit * limit := by
  obtain ⟨ts, e, hread, hl⟩ := exists_ofTokens_leaning h
  obtain ⟨text, htext⟩ := exists_tokenize_eq hl.isWritable
  obtain ⟨-, hcost⟩ := cost_eq_of_leaning hread hl
  have hfinite : e.IsFinite := (isSum_of_ofTokens hread).every fun t ht => (hl.isWritable t ht).fits
  refine ⟨text, e, ?_, hfinite, hcost⟩
  rw [Expr.ofText, htext]
  exact hread

/-! ## Main theorem -/

/-- A finite expression that was read under a limit is read again, as what it was, from its own text under the square of
the limit. Under every limit but zero an expression is read whose text is too deep for everything less. -/
theorem ofText_text_square (limit : Nat) :
    (∀ text e, Expr.ofText limit text = .ok e → e.IsFinite →
      Expr.ofText (limit * limit) e.text = .ok e ∧ e.same e) ∧
    (1 ≤ limit → ∃ text e, Expr.ofText limit text = .ok e ∧ e.IsFinite ∧
      ∀ n, n < limit * limit → Expr.ofText n e.text = .error (.tooDeep n)) := by
  constructor
  · intro text e h hfinite
    have hwritable := Expr.isWritable_of_ofText h
    obtain ⟨ts, -, hread⟩ := Expr.exists_tokens_of_ofText h
    have hcost := cost_lt_of_ofTokens hread
    have hsame := (Expr.same_reread_iff e hwritable).2 hfinite
    rw [Expr.reread_of_isFinite e hfinite] at hsame
    rw [Expr.ofText_text_of_isFinite hwritable hfinite, if_pos (by omega)]
    exact ⟨rfl, hsame⟩
  · intro hlimit
    obtain ⟨text, e, h, hfinite, hcost⟩ := exists_ofText_cost_eq hlimit
    refine ⟨text, e, h, hfinite, fun n hn => ?_⟩
    rw [Expr.ofText_text_of_isFinite (Expr.isWritable_of_ofText h) hfinite, if_neg (by omega)]

/-- The text of what is read from `f(a)*b+c` under the limit two is read under four, as it is not under three. -/
theorem ofText_text_square_of_two :
    let e : Expr := .binary (.binary (.call "f" [.var "a"]) .multiply (.var "b")) .add (.var "c")
    Expr.ofText 2 "f(a)*b+c" = .ok e ∧ e.IsFinite ∧ e.text = "((f(a) * b) + c)" ∧
      Expr.ofText 3 "((f(a) * b) + c)" = .error (.tooDeep 3) ∧ Expr.ofText (2 * 2) "((f(a) * b) + c)" = .ok e := by
  intro e
  let ps : List (Token × List Char) := [(.identifier "f", []), (.openParen, []), (.identifier "a", []),
    (.closeParen, []), (.operator '*', []), (.identifier "b", []), (.operator '+', []), (.identifier "c", [])]
  have hf : IsName "f" := ⟨'f', [], rfl, rfl, by simp⟩
  have ha : IsName "a" := ⟨'a', [], rfl, rfl, by simp⟩
  have hb : IsName "b" := ⟨'b', [], rfl, rfl, by simp⟩
  have hc : IsName "c" := ⟨'c', [], rfl, rfl, by simp⟩
  have hps : ∀ p ∈ ps, p.1.IsWritable ∧ ∀ c ∈ p.2, isBlank c := by
    simp only [ps, List.forall_mem_cons, Token.IsWritable, hf, ha, hb, hc]
    simpa using And.intro ⟨Operator.multiply, rfl⟩ ⟨Operator.add, rfl⟩
  have htokens := @tokenize_writeSpaced [] ps (List.forall_mem_nil _) hps (by simp [ps, Token.Fuses])
  have hwritten : [] ++ Token.writeSpaced ps = "f(a)*b+c".toList := by decide +kernel
  rw [hwritten, String.ofList_toList] at htokens
  have hread : Expr.ofText 2 "f(a)*b+c" = .ok e := by
    rw [Expr.ofText, htokens]
    rfl
  have hwritable : e.IsWritable := ⟨⟨⟨hf, ha, trivial⟩, hb⟩, hc⟩
  have hfinite : e.IsFinite := ⟨⟨⟨trivial, trivial, trivial⟩, trivial⟩, trivial⟩
  have htext : e.text = "((f(a) * b) + c)" := rfl
  obtain ⟨hagain, -⟩ := (ofText_text_square 2).1 _ e hread hfinite
  rw [htext] at hagain
  have htoo := Expr.ofText_text_of_isFinite hwritable hfinite 3
  rw [htext, if_neg (by decide)] at htoo
  exact ⟨hread, hfinite, htext, htoo, hagain⟩

end Formula
