import Formula.Evaluator
import Formula.Proofs.Lexemes
import Formula.Proofs.Soundness
/-!
# What the leaves of an expression can be

The numbers and names of an expression are those of the tokens it is derived from (`IsSum.every`), so what
holds of every token a text can have holds of every expression a text can have. Above all, such an
expression can be written: its names are names and its numbers have no sign (`isWritable_of_ofText`).
-/

namespace Formula

open Binary64

/-- Some number, infinity included, without a sign. -/
def IsUnsigned (x : Float) : Prop := magnitude x ≤ infinity ∧ isNegative x = false

namespace Expr

mutual

/-- All numbers of an expression satisfy `p`, and all its names `q`. -/
def Every (p : Float → Prop) (q : String → Prop) : Expr → Prop
  | literal x => p x
  | var name => q name
  | binary l _ r => l.Every p q ∧ r.Every p q
  | call f es => q f ∧ EveryList p q es

def EveryList (p : Float → Prop) (q : String → Prop) : List Expr → Prop
  | [] => True
  | e :: es => e.Every p q ∧ EveryList p q es

end

/-- The text of the expression can be read. -/
def IsWritable (e : Expr) : Prop := e.Every IsUnsigned IsName

/-- No number of the expression is infinite. -/
def IsFinite (e : Expr) : Prop := e.Every (magnitude · < infinity) fun _ => True

end Expr

/-- `Every` for a token. -/
def Token.Fits (p : Float → Prop) (q : String → Prop) : Token → Prop
  | number x => p x
  | identifier name => q name
  | openParen | closeParen | comma | operator _ => True

/-! ## From tokens to leaves -/

section

variable {p : Float → Prop} {q : String → Prop}

mutual

theorem IsSum.every {ts : List Token} {e : Expr} : IsSum ts e → (∀ t ∈ ts, t.Fits p q) → e.Every p q
  | .term h, hts => h.every hts
  | .join hl _ hr, hts => by
    rw [Expr.Every]
    exact ⟨hl.every fun t ht => hts t (by simp [ht]), hr.every fun t ht => hts t (by simp [ht])⟩

theorem IsTerm.every {ts : List Token} {e : Expr} : IsTerm ts e → (∀ t ∈ ts, t.Fits p q) → e.Every p q
  | .operand h, hts => h.every hts
  | .join hl _ hr, hts => by
    rw [Expr.Every]
    exact ⟨hl.every fun t ht => hts t (by simp [ht]), hr.every fun t ht => hts t (by simp [ht])⟩

theorem IsOperand.every {ts : List Token} {e : Expr} : IsOperand ts e → (∀ t ∈ ts, t.Fits p q) → e.Every p q
  | .number x, hts => by
    rw [Expr.Every]
    exact hts (.number x) (by simp)
  | .var name, hts => by
    rw [Expr.Every]
    exact hts (.identifier name) (by simp)
  | .group h, hts => h.every fun t ht => hts t (by simp [ht])
  | .constant f, hts => by
    rw [Expr.Every, Expr.EveryList]
    exact ⟨hts (.identifier f) (by simp), trivial⟩
  | .call f h, hts => by
    rw [Expr.Every]
    exact ⟨hts (.identifier f) (by simp), h.every fun t ht => hts t (by simp [ht])⟩

theorem IsArguments.every {ts : List Token} {es : List Expr} :
    IsArguments ts es → (∀ t ∈ ts, t.Fits p q) → Expr.EveryList p q es
  | .last h, hts => by
    rw [Expr.EveryList, Expr.EveryList]
    exact ⟨h.every hts, trivial⟩
  | .more h hs, hts => by
    rw [Expr.EveryList]
    exact ⟨h.every fun t ht => hts t (by simp [ht]), hs.every fun t ht => hts t (by simp [ht])⟩

end

end

/-! ## From a text to tokens -/

theorem isUnsigned_toFloat (d : Decimal) : IsUnsigned d.toFloat := by
  refine ⟨?_, isNegative_ofMagnitude d.magnitude_le⟩
  rw [Decimal.toFloat, magnitude_ofMagnitude d.magnitude_le]
  exact d.magnitude_le

theorem IsLexeme.fits {l : List Char} {t : Token} (h : IsLexeme l t) : t.Fits IsUnsigned IsName := by
  cases h with
  | number h => exact isUnsigned_toFloat _
  | identifier h => exact h
  | openParen | closeParen | comma | operator _ => trivial

theorem Scan.fits_of_mem {text : List Char} {t : Token} (ht : t ∈ (Scan.ofText text).tokens) :
    t.Fits IsUnsigned IsName := by
  fun_induction Scan.ofText text with
  | case1 => cases ht
  | case2 c cs hb ih => exact ih ht
  | case3 c cs hb u rest h scan ih =>
    rcases List.mem_cons.1 ht with rfl | ht
    · obtain ⟨l, -, hl, -⟩ := Token.exists_isLexeme_of_first? h
      exact hl.fits
    · exact ih ht
  | case4 => cases ht

theorem fits_of_tokenize {text : String} {ts : List Token} (h : tokenize text = .ok ts) :
    ∀ t ∈ ts, t.Fits IsUnsigned IsName := by
  simp only [tokenize] at h
  split at h
  · cases h
    exact fun t => Scan.fits_of_mem
  · cases h

theorem Expr.exists_tokens_of_ofText {limit : Nat} {text : String} {e : Expr} (h : Expr.ofText limit text = .ok e) :
    ∃ ts, tokenize text = .ok ts ∧ Expr.ofTokens limit ts = .ok e := by
  unfold Expr.ofText at h
  cases hts : tokenize text with
  | error err => rw [hts] at h; cases h
  | ok ts => rw [hts] at h; exact ⟨ts, rfl, h⟩

/-- Whatever a text says can be written. -/
theorem Expr.isWritable_of_ofText {limit : Nat} {text : String} {e : Expr} (h : Expr.ofText limit text = .ok e) :
    e.IsWritable := by
  obtain ⟨ts, hts, he⟩ := Expr.exists_tokens_of_ofText h
  exact (isSum_of_ofTokens he).every (fits_of_tokenize hts)

end Formula
