import Formula.Proofs.Closing
import Mathlib.Data.List.DropRight
import Mathlib.Data.List.Infix
/-!
# Depth told from the tokens

How deep an operand stands can be counted in the tokens in front of it (`Token.depthBehind`). It stands in all the
levels that are open there: the top level, and one for each parenthesis that is not closed yet. Each level counts one,
and one more for every sum of its current expression and every product of its current term.

In a sum the count goes on where a term ends and in a term where an operand ends, by the sums or products up to there
(`SumDepth.depthBehind_eq`, `TermDepth.depthBehind_eq`), since what is in parentheses that match leaves no trace.
-/

namespace Formula

namespace Token

/-- `+` and `-`. -/
def isSum : Token → Bool
  | operator c => (Operator.ofSymbol? c).any Operator.isSum
  | _ => false

/-- `*`, `/` and `%`. -/
def isProduct : Token → Bool
  | operator c => (Operator.ofSymbol? c).any fun op => !op.isSum
  | _ => false

/-- Of the parentheses that are open in front of the tokens, no more than `n` are closed in them. -/
def ClosesAtMost (n : Nat) (ts : List Token) : Prop :=
  ∀ us, us <+: ts → us.count closeParen ≤ n + us.count openParen

instance (n : Nat) (ts : List Token) : Decidable (ClosesAtMost n ts) :=
  decidable_of_iff (∀ us ∈ ts.inits, us.count closeParen ≤ n + us.count openParen) <| by
    simp only [List.mem_inits, ClosesAtMost]

/-- What follows each of the parentheses that are open at the end of the tokens, the outermost first. -/
def levels : List Token → List (List Token)
  | [] => []
  | openParen :: ts => if ClosesAtMost 0 ts then ts :: levels ts else levels ts
  | _ :: ts => levels ts

/-- The tokens that stand in no parentheses, when `n` parentheses are open in front of them. -/
def own : Nat → List Token → List Token
  | _, [] => []
  | n, openParen :: ts => own (n + 1) ts
  | n, closeParen :: ts => own (n - 1) ts
  | 0, t :: ts => t :: own 0 ts
  | n + 1, _ :: ts => own (n + 1) ts

/-- The sums on a level since its expression began: at its start, or at its last comma. -/
def sums (level : List Token) : Nat := ((own 0 level).rtakeWhile (· ≠ comma)).countP isSum

/-- The products on a level since its term began: where its expression did, or at its last sum. -/
def products (level : List Token) : Nat :=
  ((own 0 level).rtakeWhile fun t => t ≠ comma && !t.isSum).countP isProduct

/-- The depth at which an operand stands behind the tokens. -/
def depthBehind (ts : List Token) : Nat :=
  (ts :: levels ts).foldr (fun level depth => 1 + sums level + products level + depth) 0

variable {t : Token} {ts us vs : List Token} {n m : Nat}

/-! ## Parentheses -/

theorem ClosesAtMost.of_isPrefix (h : ClosesAtMost n ts) (hus : us <+: ts) : ClosesAtMost n us :=
  fun vs hvs => h vs (hvs.trans hus)

theorem ClosesAtMost.of_openParen (h : ClosesAtMost n (openParen :: ts)) : ClosesAtMost (n + 1) ts := by
  intro us hus
  have hcount := h (openParen :: us) (List.cons_prefix_cons.2 ⟨rfl, hus⟩)
  rw [List.count_cons_self, List.count_cons_of_ne (by simp)] at hcount
  omega

theorem ClosesAtMost.of_closeParen (h : ClosesAtMost n (closeParen :: ts)) : ∃ m, n = m + 1 ∧ ClosesAtMost m ts := by
  have hclosed : ∀ us, us <+: ts → us.count closeParen + 1 ≤ n + us.count openParen := by
    intro us hus
    have hcount := h (closeParen :: us) (List.cons_prefix_cons.2 ⟨rfl, hus⟩)
    rwa [List.count_cons_self, List.count_cons_of_ne (by simp)] at hcount
  have hpos : 1 ≤ n := by simpa using hclosed [] List.nil_prefix
  obtain ⟨m, rfl⟩ := Nat.exists_eq_add_of_le' hpos
  refine ⟨m, rfl, fun us hus => ?_⟩
  have hcount := hclosed us hus
  omega

theorem ClosesAtMost.of_cons (h : ClosesAtMost n (t :: ts)) (ht : t ≠ openParen ∧ t ≠ closeParen) :
    ClosesAtMost n ts := by
  intro us hus
  have hcount := h (t :: us) (List.cons_prefix_cons.2 ⟨rfl, hus⟩)
  rwa [List.count_cons_of_ne ht.1, List.count_cons_of_ne ht.2] at hcount

theorem closesAtMost_of_balanced (h : Balanced ts) (n : Nat) : ClosesAtMost n ts := by
  rintro us ⟨vs, rfl⟩
  have hcount := h.count
  have hbehind := h.suffix vs (List.suffix_append us vs)
  rw [List.count_append, List.count_append] at hcount
  omega

/-- What is in parentheses that match is no level behind them. -/
theorem levels_append (h : ∀ us, us <:+ ts → us.count openParen ≤ us.count closeParen) (vs : List Token) :
    levels (ts ++ vs) = levels vs := by
  induction ts with
  | nil => rfl
  | cons t ts ih =>
    have hts := ih fun us hus => h us (hus.trans (List.suffix_cons t ts))
    cases t with
    | number _ | identifier _ | closeParen | comma | operator _ => exact hts
    | openParen =>
      rw [List.cons_append, levels, if_neg, hts]
      intro hopen
      have hclosed := h _ (List.suffix_refl _)
      have hcount := hopen ts (List.prefix_append ts vs)
      rw [List.count_cons_self, List.count_cons_of_ne (by simp)] at hclosed
      omega

/-! ## The tokens of a level -/

/-- Behind tokens that close no more than is open, what they leave open counts. -/
theorem own_append (h : ClosesAtMost n ts) (hm : n + ts.count openParen = m + ts.count closeParen) (vs : List Token) :
    own n (ts ++ vs) = own n ts ++ own m vs := by
  induction ts generalizing n with
  | nil =>
    obtain rfl : n = m := hm
    rfl
  | cons t ts ih =>
    cases t with
    | openParen =>
      rw [List.count_cons_self, List.count_cons_of_ne (by simp)] at hm
      exact ih h.of_openParen (by omega)
    | closeParen =>
      obtain ⟨n, rfl, hts⟩ := h.of_closeParen
      rw [List.count_cons_self, List.count_cons_of_ne (by simp)] at hm
      exact ih hts (by omega)
    | number _ | identifier _ | comma | operator _ =>
      have hts := h.of_cons (by simp)
      rw [List.count_cons_of_ne (by simp), List.count_cons_of_ne (by simp)] at hm
      cases n with
      | zero => exact congrArg (_ :: ·) (ih hts hm)
      | succ n => exact ih hts hm

/-- In a parenthesis that stays open nothing belongs to the level around it. -/
theorem own_succ (h : ClosesAtMost n ts) : own (n + 1) ts = [] := by
  induction ts generalizing n with
  | nil => rfl
  | cons t ts ih =>
    cases t with
    | openParen => exact ih h.of_openParen
    | closeParen =>
      obtain ⟨n, rfl, hts⟩ := h.of_closeParen
      exact ih hts
    | number _ | identifier _ | comma | operator _ => exact ih (h.of_cons (by simp))

theorem own_isPrefix (h : us <+: ts) (n : Nat) : own n us <+: own n ts := by
  obtain ⟨vs, rfl⟩ := h
  induction us generalizing n with
  | nil => exact List.nil_prefix
  | cons t us ih =>
    cases t with
    | openParen => exact ih (n + 1)
    | closeParen => exact ih (n - 1)
    | number _ | identifier _ | comma | operator _ =>
      cases n with
      | zero => exact List.cons_prefix_cons.2 ⟨rfl, ih 0⟩
      | succ n => exact ih (n + 1)

/-- Behind parentheses that match stands what belongs to the same level. -/
theorem own_join (h : Balanced ts) (ht : t ≠ openParen ∧ t ≠ closeParen) (us : List Token) :
    own 0 (ts ++ t :: us) = own 0 ts ++ t :: own 0 us := by
  rw [own_append (closesAtMost_of_balanced h 0) (by rw [h.count])]
  cases t with
  | openParen => exact absurd rfl ht.1
  | closeParen => exact absurd rfl ht.2
  | number _ | identifier _ | comma | operator _ => rfl

theorem forall_own_join {p : Token → Prop} (h : Balanced ts) (ht : t ≠ openParen ∧ t ≠ closeParen)
    (hts : ∀ u ∈ own 0 ts, p u) (hp : p t) (hus : ∀ u ∈ own 0 us, p u) : ∀ u ∈ own 0 (ts ++ t :: us), p u := by
  rw [own_join h ht, List.forall_mem_append, List.forall_mem_cons]
  exact ⟨hts, hp, hus⟩

theorem own_parens (h : Balanced ts) (us : List Token) : own 0 (openParen :: ts ++ closeParen :: us) = own 0 us := by
  have hinside : own 1 ts = [] := own_succ (closesAtMost_of_balanced h 0)
  rw [List.cons_append, own, own_append (closesAtMost_of_balanced h 1) (by rw [h.count]), hinside]
  rfl

@[simp] theorem isSum_operator (op : Operator) : (operator op.symbol).isSum = op.isSum := by simp [isSum]

@[simp] theorem isProduct_operator (op : Operator) : (operator op.symbol).isProduct = !op.isSum := by simp [isProduct]

theorem countP_eq_zero_of {p : Token → Bool} (h : ∀ t ∈ ts, p t = false) : ts.countP p = 0 :=
  List.countP_eq_zero.2 fun t ht => by simp [h t ht]

/-- A token without `p` ends what is taken. -/
theorem rtakeWhile_append_cons {p : Token → Bool} (h : p t = false) (ts us : List Token) :
    (ts ++ t :: us).rtakeWhile p = us.rtakeWhile p := by
  induction us using List.reverseRecOn with
  | nil => simp [h]
  | append_singleton us u ih =>
    rw [← List.cons_append, ← List.append_assoc, List.rtakeWhile_concat, List.rtakeWhile_concat, ih]

theorem sums_eq_countP (h : ∀ t ∈ own 0 ts, t ≠ comma) : sums ts = (own 0 ts).countP isSum := by
  rw [sums, List.rtakeWhile_eq_self_iff.2 fun t ht => decide_eq_true (h t ht)]

theorem products_eq_countP (h : ∀ t ∈ own 0 ts, t ≠ comma ∧ t.isSum = false) :
    products ts = (own 0 ts).countP isProduct := by
  rw [products, List.rtakeWhile_eq_self_iff.2 fun t ht => by simp [h t ht]]

end Token

open Token

mutual

/-- A sum of `n + 1` terms has `n` sums of its own, and no comma. -/
theorem SumDepth.forall_own {n k : Nat} {ts : List Token} {e : Expr} :
    SumDepth n k ts e → (∀ t ∈ own 0 ts, t ≠ comma) ∧ (own 0 ts).countP isSum = n
  | .term h => by
    obtain ⟨hown, -⟩ := h.forall_own
    exact ⟨fun t ht => (hown t ht).1, countP_eq_zero_of fun t ht => (hown t ht).2⟩
  | @SumDepth.join n _ _ _ ts us _ _ op hl hop hr => by
    obtain ⟨hown, hcount⟩ := hl.forall_own
    obtain ⟨hown', -⟩ := hr.forall_own
    have hcount' : (own 0 us).countP isSum = 0 := countP_eq_zero_of fun t ht => (hown' t ht).2
    constructor
    · exact forall_own_join hl.isSum.balanced (by simp) hown (by simp) fun t ht => (hown' t ht).1
    · rw [own_join hl.isSum.balanced (by simp)]
      simp [hcount, hop, hcount']

/-- A term of `m + 1` operands has `m` products of its own, no sum and no comma. -/
theorem TermDepth.forall_own {m k : Nat} {ts : List Token} {e : Expr} : TermDepth m k ts e →
    (∀ t ∈ own 0 ts, t ≠ comma ∧ t.isSum = false) ∧ (own 0 ts).countP isProduct = m
  | .operand h => by
    have hown := h.forall_own
    exact ⟨fun t ht => ⟨(hown t ht).1, (hown t ht).2.1⟩, countP_eq_zero_of fun t ht => (hown t ht).2.2⟩
  | @TermDepth.join m _ _ ts us _ _ op hl hop hr => by
    obtain ⟨hown, hcount⟩ := hl.forall_own
    have hown' := hr.forall_own
    have hcount' : (own 0 us).countP isProduct = 0 := countP_eq_zero_of fun t ht => (hown' t ht).2.2
    constructor
    · exact forall_own_join hl.isTerm.balanced (by simp) hown (by simp [hop]) fun t ht =>
        ⟨(hown' t ht).1, (hown' t ht).2.1⟩
    · rw [own_join hl.isTerm.balanced (by simp)]
      simp [hcount, hop, hcount']

/-- An operand has no operator and no comma of its own. -/
theorem OperandDepth.forall_own {k : Nat} {ts : List Token} {e : Expr} : OperandDepth k ts e →
    ∀ t ∈ own 0 ts, t ≠ comma ∧ t.isSum = false ∧ t.isProduct = false
  | .number _ | .var _ | .constant _ => by simp [own, isSum, isProduct]
  | .group h => by
    rw [own_parens h.isSum.balanced]
    exact List.forall_mem_nil _
  | @OperandDepth.call _ ts _ f h => by
    have hown : own 0 (.identifier f :: .openParen :: ts ++ [.closeParen]) = [.identifier f] :=
      congrArg (_ :: ·) (own_parens h.isArguments.balanced [])
    rw [hown]
    simp [isSum, isProduct]

end

/-! ## How the count goes on -/

section

variable {t : Token} {ts us : List Token} {e : Expr} {op : Operator} {n m k : Nat}

/-- Behind parentheses that match, a token makes a difference on its own level only. -/
theorem depthBehind_join (h : Balanced ts) (ht : t ≠ openParen ∧ t ≠ closeParen)
    (hn : sums (ts ++ t :: us) + products (ts ++ t :: us) = n + (sums us + products us)) :
    depthBehind (ts ++ t :: us) = n + depthBehind us := by
  have hlevels : levels (ts ++ t :: us) = levels us := by
    rw [levels_append h.suffix]
    cases t with
    | openParen => exact absurd rfl ht.1
    | number _ | identifier _ | closeParen | comma | operator _ => rfl
  rw [depthBehind, depthBehind, hlevels, List.foldr_cons, List.foldr_cons]
  omega

/-- A comma starts the expression anew. -/
theorem depthBehind_comma (h : Balanced ts) (us : List Token) :
    depthBehind (ts ++ comma :: us) = 0 + depthBehind us := by
  have hown := own_join (t := comma) h (by simp) us
  have hsums : sums (ts ++ comma :: us) = sums us := by
    rw [sums, sums, hown, rtakeWhile_append_cons (by simp)]
  have hproducts : products (ts ++ comma :: us) = products us := by
    rw [products, products, hown, rtakeWhile_append_cons (by simp)]
  exact depthBehind_join h (by simp) (by omega)

/-- What follows in a sum stands deeper by all the sums so far. -/
theorem SumDepth.depthBehind_eq (h : SumDepth n k ts e) (hop : op.isSum) (hus : ∀ t ∈ own 0 us, t ≠ comma) :
    depthBehind (ts ++ .operator op.symbol :: us) = n + 1 + depthBehind us := by
  obtain ⟨hts, hcount⟩ := h.forall_own
  have hown := own_join (t := .operator op.symbol) h.isSum.balanced (by simp) us
  have hjoin : ∀ t ∈ own 0 (ts ++ .operator op.symbol :: us), t ≠ comma :=
    forall_own_join h.isSum.balanced (by simp) hts (by simp) hus
  have hsums : sums (ts ++ .operator op.symbol :: us) = n + 1 + sums us := by
    rw [sums_eq_countP hjoin, sums_eq_countP hus, hown, List.countP_append,
      List.countP_cons_of_pos (by simpa using hop), hcount]
    omega
  have hproducts : products (ts ++ .operator op.symbol :: us) = products us := by
    rw [products, products, hown, rtakeWhile_append_cons (by simp [hop])]
  exact depthBehind_join h.isSum.balanced (by simp) (by omega)

/-- What follows in a term stands deeper by all the products so far. -/
theorem TermDepth.depthBehind_eq (h : TermDepth m k ts e) (hop : op.isSum = false)
    (hus : ∀ t ∈ own 0 us, t ≠ comma ∧ t.isSum = false) :
    depthBehind (ts ++ .operator op.symbol :: us) = m + 1 + depthBehind us := by
  obtain ⟨hts, hcount⟩ := h.forall_own
  have hown := own_join (t := .operator op.symbol) h.isTerm.balanced (by simp) us
  have hjoin : ∀ t ∈ own 0 (ts ++ .operator op.symbol :: us), t ≠ comma ∧ t.isSum = false :=
    forall_own_join h.isTerm.balanced (by simp) hts (by simp [hop]) hus
  have hsums : sums (ts ++ .operator op.symbol :: us) = sums us := by
    rw [sums_eq_countP fun t ht => (hjoin t ht).1, sums_eq_countP fun t ht => (hus t ht).1,
      countP_eq_zero_of fun t ht => (hjoin t ht).2, countP_eq_zero_of fun t ht => (hus t ht).2]
  have hproducts : products (ts ++ .operator op.symbol :: us) = m + 1 + products us := by
    rw [products_eq_countP hjoin, products_eq_countP hus, hown, List.countP_append,
      List.countP_cons_of_pos (by simp [hop]), hcount]
    omega
  exact depthBehind_join h.isTerm.balanced (by simp) (by omega)

/-- A parenthesis that stays open makes one level more. -/
theorem depthBehind_openParen (h : ClosesAtMost 0 ts) : depthBehind (openParen :: ts) = 1 + depthBehind ts := by
  have hown : own 0 (openParen :: ts) = [] := own_succ h
  rw [depthBehind, levels, if_pos h, List.foldr_cons, sums, products, hown]
  rfl

theorem depthBehind_identifier (f : String) (h : ClosesAtMost 0 ts) :
    depthBehind (identifier f :: openParen :: ts) = 1 + depthBehind ts := by
  have hown : own 0 (identifier f :: openParen :: ts) = [identifier f] := congrArg (_ :: ·) (own_succ h)
  have hlevels : levels (identifier f :: openParen :: ts) = ts :: levels ts := if_pos h
  rw [depthBehind, hlevels, List.foldr_cons, sums, products, hown]
  rfl

end

end Formula
