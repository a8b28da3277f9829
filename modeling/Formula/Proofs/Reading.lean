import Formula.Proofs.Completeness
import Formula.Proofs.Soundness
/-!
# Reading and the grammar

The reader accepts what the grammar derives, as far as the limit allows the depth. A limit above the
number of tokens never gets in the way: `ofTokens_eq_ok_iff_isSum`.
-/

namespace Formula

/-- What is accepted under a limit: the derivations that are not too deep for it. -/
theorem ofTokens_eq_ok_iff_depth {limit : Nat} {ts : List Token} {e : Expr} :
    Expr.ofTokens limit ts = .ok e ↔ ∃ n k, SumDepth n k ts e ∧ k + 1 ≤ limit := by
  constructor
  · intro h
    obtain ⟨n, k, hd⟩ := (isSum_of_ofTokens h).exists_depth
    refine ⟨n, k, hd, ?_⟩
    rw [ofTokens_of_depth hd] at h
    split at h
    · assumption
    · cases h
  · rintro ⟨n, k, hd, hk⟩
    rw [ofTokens_of_depth hd, if_pos hk]

theorem ofTokens_of_isSum {limit : Nat} {ts : List Token} {e : Expr} (h : ts.length + 1 ≤ limit) (he : IsSum ts e) :
    Expr.ofTokens limit ts = .ok e := by
  obtain ⟨n, k, hd⟩ := he.exists_depth
  have := hd.depth_lt_length
  rw [ofTokens_of_depth hd, if_pos (by omega)]

/-- The grammar is unambiguous, since a reader follows it. -/
theorem IsSum.unique {ts : List Token} {e e' : Expr} (h : IsSum ts e) (h' : IsSum ts e') : e = e' := by
  have hr := ofTokens_of_isSum (Nat.le_refl _) h
  rw [ofTokens_of_isSum (Nat.le_refl _) h'] at hr
  exact (Except.ok.inj hr).symm

/-! ## Main theorem -/

/-- Under a limit above the number of tokens, what is read is what the grammar derives from all of
them, and the grammar never derives two expressions. -/
theorem ofTokens_eq_ok_iff_isSum {limit : Nat} {ts : List Token} (h : ts.length + 1 ≤ limit) (e : Expr) :
    (Expr.ofTokens limit ts = .ok e ↔ IsSum ts e) ∧ ∀ e', IsSum ts e → IsSum ts e' → e = e' :=
  ⟨⟨isSum_of_ofTokens, ofTokens_of_isSum h⟩, fun _ => IsSum.unique⟩

/-- In `a - f() - b * a` the right side of the second difference is a product. -/
theorem isSum_of_differences :
    let ts : List Token := [.identifier "a", .operator '-', .identifier "f", .openParen, .closeParen, .operator '-',
      .identifier "b", .operator '*', .identifier "a"]
    let e : Expr := .binary (.binary (.var "a") .subtract (.call "f" [])) .subtract
      (.binary (.var "b") .multiply (.var "a"))
    ts.length + 1 ≤ 10 ∧ (Expr.ofTokens 10 ts = .ok e ↔ IsSum ts e) ∧ IsSum ts e := by
  intro ts e
  have h : ts.length + 1 ≤ 10 := by decide
  have hread := (ofTokens_eq_ok_iff_isSum h e).1
  exact ⟨h, hread, hread.1 rfl⟩

end Formula
