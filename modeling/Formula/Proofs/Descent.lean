import Formula.Expr.Descent
import Formula.Proofs.Draft
/-!
# The reader is a recursive descent

What a descent has on the stack of its calls a draft has in its frames and its chain, so both read the same expressions
and come upon the same faults: `Descent.read_eq`. The proof follows the descent. Whatever function reads the next
tokens, the draft that stands in front of them ends as if it went on behind them with what was read (`Gives`), and the
descent hands on the depth of the draft's chain. The symbols of the two lines are those of the operators
(`Descent.operator?_eq`), so no operator fails to be converted.
-/

namespace Formula

open Draft

variable {limit : Nat} {c c' : Chain} {fs fs' : List Frame} {ph ph' : Phase} {t : Token} {ts : List Token} {e o : Expr}
  {depth : Nat} {r : Except Error Expr}

/-! ## What a draft ends with -/

/-- What reading the tokens ends with. -/
def Draft.outcome (limit : Nat) (d : Draft) (ts : List Token) : Except Error Expr :=
  (d.read limit ts).result.mapError .malformed

theorem Draft.outcome_cons (d : Draft) :
    d.outcome limit (t :: ts) = (d.push limit t).mapError .malformed >>= fun d' => d'.outcome limit ts := by
  rw [outcome, Draft.read]
  cases d.push limit t <;> rfl

/-- Whatever calls have been closed, a draft with this chain, these frames and this phase ends so. -/
def Gives (limit : Nat) (c : Chain) (fs : List Frame) (ph : Phase) (ts : List Token) (r : Except Error Expr) : Prop :=
  ∀ calls, Draft.outcome limit ⟨c, fs, ph, calls⟩ ts = r

/-- A draft that first opens a level one deeper ends so; if that is too deep, it ends with this. -/
def GivesBelow (limit depth : Nat) (fs : List Frame) (ts : List Token) (r : Except Error Expr) : Prop :=
  if depth + 1 ≤ limit then Gives limit { base := depth + 1 } fs .operand ts r
  else r = .error (.malformed (.tooDeep limit))

theorem Gives.cons (hpush : ∀ calls, ∃ calls', push limit ⟨c, fs, ph, calls⟩ t = .ok ⟨c', fs', ph', calls'⟩)
    (h : Gives limit c' fs' ph' ts r) : Gives limit c fs ph (t :: ts) r := by
  intro calls
  obtain ⟨calls', hcalls⟩ := hpush calls
  rw [outcome_cons, hcalls]
  exact h calls'

theorem Gives.error {err : SyntaxError} (hpush : ∀ calls, push limit ⟨c, fs, ph, calls⟩ t = .error err) :
    Gives limit c fs ph (t :: ts) (.error (.malformed err)) := by
  intro calls
  rw [outcome_cons, hpush]
  rfl

/-- Drafts that do the same with the next token, or with the end, end alike. -/
theorem Gives.congr (h : Gives limit c' fs ph' ts r)
    (hpush : ∀ t ∈ ts.head?, ∀ calls, push limit ⟨c, fs, ph, calls⟩ t = push limit ⟨c', fs, ph', calls⟩ t)
    (hfinish : ∀ calls, finish limit ⟨c, fs, ph, calls⟩ = finish limit ⟨c', fs, ph', calls⟩) :
    Gives limit c fs ph ts r := by
  intro calls
  rw [← h calls]
  cases ts with
  | nil => exact congrArg (Except.mapError Error.malformed) (hfinish calls)
  | cons t ts => rw [outcome_cons, outcome_cons, hpush t rfl]

theorem GivesBelow.gives (h : depth + 1 ≤ limit) (hbelow : GivesBelow limit depth fs ts r) :
    Gives limit { base := depth + 1 } fs .operand ts r := by
  rwa [GivesBelow, if_pos h] at hbelow

theorem GivesBelow.refused (h : ¬ depth + 1 ≤ limit) (hbelow : GivesBelow limit depth fs ts r) :
    r = .error (.malformed (.tooDeep limit)) := by
  rwa [GivesBelow, if_neg h] at hbelow

theorem GivesBelow.of_checked (h : GivesBelow limit depth fs ts r) (calls : List Call) :
    ((checked limit ⟨{ base := depth + 1 }, fs, .operand, calls⟩).mapError Error.malformed >>=
      fun d => d.outcome limit ts) = r := by
  rw [checked]
  by_cases hdepth : depth + 1 ≤ limit
  · rw [if_pos (by exact hdepth)]
    exact h.gives hdepth calls
  · rw [if_neg (by exact hdepth), h.refused hdepth]
    rfl

theorem givesBelow_deepen {k : Nat → Except Error Expr}
    (h : depth + 1 ≤ limit → Gives limit { base := depth + 1 } fs .operand ts (k (depth + 1))) :
    GivesBelow limit depth fs ts (Descent.deepen limit depth >>= k) := by
  rw [GivesBelow, Descent.deepen]
  by_cases hdepth : depth + 1 ≤ limit
  · rw [if_pos hdepth, if_pos hdepth]
    exact h hdepth
  · rw [if_neg hdepth, if_neg hdepth]
    rfl

/-! ## Operators and their symbols -/

/-- No sum comes next, or no product. -/
def EndsChain (isSum : Bool) (ts : List Token) : Prop :=
  ∀ op : Operator, op.isSum = isSum → ts.head? ≠ some (.operator op.symbol)

namespace Descent

theorem mem_sumSymbols_iff (s : Char) : s ∈ sumSymbols ↔ ∃ op : Operator, op.isSum = true ∧ s = op.symbol := by
  constructor
  · intro h
    simp only [sumSymbols, List.mem_cons, List.not_mem_nil, or_false] at h
    rcases h with rfl | rfl
    · exact ⟨.add, rfl, rfl⟩
    · exact ⟨.subtract, rfl, rfl⟩
  · rintro ⟨op, hop, rfl⟩
    cases op <;> first | decide | cases hop

theorem mem_productSymbols_iff (s : Char) : s ∈ productSymbols ↔ ∃ op : Operator, op.isSum = false ∧ s = op.symbol := by
  constructor
  · intro h
    simp only [productSymbols, List.mem_cons, List.not_mem_nil, or_false] at h
    rcases h with rfl | rfl | rfl
    · exact ⟨.multiply, rfl, rfl⟩
    · exact ⟨.divide, rfl, rfl⟩
    · exact ⟨.remainder, rfl, rfl⟩
  · rintro ⟨op, hop, rfl⟩
    cases op <;> first | decide | cases hop

theorem ofSymbol_symbol (op : Operator) : Operator.ofSymbol op.symbol = .ok op := by
  rw [Operator.ofSymbol, Operator.ofSymbol?_symbol]

/-- Where the symbols are those of one kind of operators, converting one of them cannot fail. -/
theorem operator?_eq {symbols : List Char} {isSum : Bool}
    (hsymbols : ∀ s, s ∈ symbols ↔ ∃ op : Operator, op.isSum = isSum ∧ s = op.symbol) (t : Token) (ts : List Token) :
    (∃ op : Operator, op.isSum = isSum ∧ t = .operator op.symbol ∧ operator? symbols t = .ok (some op)) ∨
      operator? symbols t = .ok none ∧ EndsChain isSum (t :: ts) := by
  cases t with
  | operator s =>
    by_cases hs : s ∈ symbols
    · obtain ⟨op, hop, rfl⟩ := (hsymbols s).1 hs
      refine .inl ⟨op, hop, rfl, ?_⟩
      rw [operator?, if_pos hs, ofSymbol_symbol]
      rfl
    · refine .inr ⟨if_neg hs, fun op hop h => hs ((hsymbols s).2 ⟨op, hop, ?_⟩)⟩
      simpa using h
  | number _ | identifier _ | openParen | closeParen | comma => exact .inr ⟨rfl, fun op _ => by simp⟩

/-- A line with the symbol of no operator would fail, and that would be a fault of the program. -/
example : operator? ['^'] (.operator '^') = .error (.internal "Unknown operator: ^") := rfl

theorem sums_of_some {op : Operator} (h : operator? sumSymbols t = .ok (some op)) :
    sums limit e depth (t :: ts) = deepen limit depth >>= fun depth => multiplication limit depth ts >>= fun p =>
      sums limit (.binary e op p.value) p.depth p.rest >>= fun q =>
        .ok (q.widen (Nat.le_trans p.lt (Nat.le_add_right _ 2))) := by
  rw [sums, h]
  rfl

theorem sums_of_none (h : operator? sumSymbols t = .ok none) :
    sums limit e depth (t :: ts) = .ok ⟨e, depth, t :: ts, Nat.lt_succ_self _⟩ := by
  rw [sums, h]
  rfl

theorem products_of_some {op : Operator} (h : operator? productSymbols t = .ok (some op)) :
    products limit e depth (t :: ts) = deepen limit depth >>= fun depth => operand limit depth ts >>= fun p =>
      products limit (.binary e op p.value) p.depth p.rest >>= fun q =>
        .ok (q.widen (Nat.le_trans p.lt (Nat.le_add_right _ 2))) := by
  rw [products, h]
  rfl

theorem products_of_none (h : operator? productSymbols t = .ok none) :
    products limit e depth (t :: ts) = .ok ⟨e, depth, t :: ts, Nat.lt_succ_self _⟩ := by
  rw [products, h]
  rfl

end Descent

/-! ## Chains that end -/

/-- A symbol that is not among those of either line is not an operator at all. -/
theorem push_operator_of_endsChain {s : Char} (hsum : EndsChain true (.operator s :: ts))
    (hproduct : EndsChain false (.operator s :: ts)) (calls : List Call) :
    push limit ⟨c, fs, .complete o, calls⟩ (.operator s) =
      .error (obstacle ⟨c, fs, .complete o, calls⟩ (.operator s)) := by
  simp only [push]
  unfold pushComplete
  dsimp only
  cases hop : Operator.ofSymbol? s with
  | none => rfl
  | some op =>
    obtain rfl := Operator.ofSymbol?_eq_some_iff.1 hop
    cases hkind : op.isSum with
    | true => exact absurd rfl (hsum op hkind)
    | false => exact absurd rfl (hproduct op hkind)

/-- Of a chain and its last operand only the base and the expression count, and how an operator extends them. -/
theorem push_complete_congr {o' : Expr} (hbase : c.base = c'.base) (hexpr : c.expr o = c'.expr o')
    (hextend : ∀ op : Operator, t = .operator op.symbol → c.extend o op = c'.extend o' op) (calls : List Call) :
    push limit ⟨c, fs, .complete o, calls⟩ t = push limit ⟨c', fs, .complete o', calls⟩ t := by
  simp only [push]
  unfold pushComplete
  cases t with
  | operator s =>
    dsimp only
    cases hop : Operator.ofSymbol? s with
    | none => rfl
    | some op =>
      obtain rfl := Operator.ofSymbol?_eq_some_iff.1 hop
      dsimp only
      rw [hextend op rfl]
  | number _ | identifier _ | openParen => rfl
  | comma | closeParen =>
    dsimp only
    rw [hexpr, hbase]
    rcases fs with _ | ⟨⟨_ | ⟨f, es⟩, c''⟩, fs⟩ <;> rfl

theorem Gives.complete_congr {o' : Expr} (h : Gives limit c' fs (.complete o') ts r) (hbase : c.base = c'.base)
    (hexpr : c.expr o = c'.expr o')
    (hextend : ∀ op : Operator, ts.head? = some (.operator op.symbol) → c.extend o op = c'.extend o' op) :
    Gives limit c fs (.complete o) ts r := by
  refine h.congr (fun t ht => push_complete_congr hbase hexpr fun op hop => hextend op (hop ▸ ht)) fun calls => ?_
  simp only [finish, whole, hexpr]

/-- With no product behind it, a term is an operand. -/
theorem Gives.term (hends : EndsChain false ts)
    (h : Gives limit { c with products := 0, product := none } fs (.complete (c.term o)) ts r) :
    Gives limit c fs (.complete o) ts r := by
  refine h.complete_congr rfl rfl fun op hop => ?_
  cases hkind : op.isSum with
  | true =>
    rw [Chain.extend_of_isSum hkind, Chain.extend_of_isSum hkind]
    rfl
  | false => exact absurd hop (hends op hkind)

/-- With no operator behind it, an expression is an operand. -/
theorem Gives.expr (hsum : EndsChain true ts) (hproduct : EndsChain false ts)
    (h : Gives limit { base := c.base } fs (.complete (c.expr o)) ts r) : Gives limit c fs (.complete o) ts r := by
  refine h.complete_congr rfl rfl fun op hop => ?_
  cases hkind : op.isSum with
  | true => exact absurd hop (hsum op hkind)
  | false => exact absurd hop (hproduct op hkind)

/-! ## Tokens that lead from one draft to another -/

theorem gives_openParen (h : GivesBelow limit c.depth (⟨.group, c⟩ :: fs) ts r) :
    Gives limit c fs .operand (.openParen :: ts) r := by
  intro calls
  rw [outcome_cons]
  exact h.of_checked calls

theorem gives_name {name : String} (hts : ts.head? ≠ some .openParen)
    (h : Gives limit c fs (.complete (.var name)) ts r) : Gives limit c fs (.name name) ts r := by
  refine h.congr (fun t ht calls => push_of_operand? rfl ?_) fun _ => rfl
  rintro rfl
  exact hts ht

/-- An operator and the descent look at the same depth. -/
theorem gives_operator {op : Operator} {k : Nat → Except Error Expr} (hdepth : (c.extend o op).depth = depth + 1)
    (h : Gives limit (c.extend o op) fs .operand ts (k (depth + 1))) :
    Gives limit c fs (.complete o) (.operator op.symbol :: ts) (Descent.deepen limit depth >>= k) := by
  intro calls
  rw [outcome_cons, push_operator rfl, checked, Descent.deepen, hdepth]
  by_cases hlimit : depth + 1 ≤ limit
  · rw [if_pos hlimit, if_pos hlimit]
    exact h calls
  · rw [if_neg hlimit, if_neg hlimit]
    rfl

/-- The first argument of a call opens its level before its first token is read. -/
theorem gives_argument {f : String} (hts : ts.head? ≠ some .closeParen)
    (h : GivesBelow limit c.depth (⟨.call f [], c⟩ :: fs) ts r) : Gives limit c fs (.argument f) ts r := by
  intro calls
  have hpush {t us} (hcons : ts = t :: us) : push limit ⟨c, fs, .argument f, calls⟩ t =
      descend limit (.call f []) ⟨c, fs, .argument f, calls⟩ >>= fun d => d.pushOperand limit t :=
    push_of_phase_argument rfl fun ht => hts (by rw [hcons, ht]; rfl)
  by_cases hdepth : c.depth + 1 ≤ limit
  · have hopened : descend limit (.call f []) ⟨c, fs, .argument f, calls⟩ =
        .ok ⟨{ base := c.depth + 1 }, ⟨.call f [], c⟩ :: fs, .operand, calls⟩ := if_pos hdepth
    rw [← h.gives hdepth calls]
    cases ts with
    | nil => simp only [outcome, Draft.read, finish, hopened]
    | cons t ts =>
      rw [outcome_cons, hpush rfl, hopened, outcome_cons]
      rfl
  · have hrefused : descend limit (.call f []) ⟨c, fs, .argument f, calls⟩ = .error (.tooDeep limit) := if_neg hdepth
    rw [h.refused hdepth]
    cases ts with
    | nil =>
      simp only [outcome, Draft.read, finish, hrefused]
      rfl
    | cons t ts =>
      rw [outcome_cons, hpush rfl, hrefused]
      rfl

/-- The operand that a level stands for once its expression is `e`. -/
def Opener.around : Opener → Expr → Expr
  | .group, e => e
  | .call f es, e => .call f (e :: es).reverse

/-- Behind an expression that goes no further its parenthesis is closed, or there is nothing else to read. -/
theorem gives_closed {n base : Nat} {opener : Opener} {p : Part Expr n} {k : Part Expr n → Except Error Expr}
    (hsum : EndsChain true p.rest) (hproduct : EndsChain false p.rest)
    (hcomma : ∀ f es, opener = .call f es → p.rest.head? ≠ some .comma)
    (hk : ∀ q : Part Expr n, q.value = p.value → q.depth = p.depth →
      Gives limit c fs (.complete (opener.around q.value)) q.rest (k q)) :
    Gives limit { base } (⟨opener, c⟩ :: fs) (.complete p.value) p.rest (p.closed >>= k) := by
  obtain ⟨e, depth, rest, hlt⟩ := p
  cases rest with
  | nil =>
    intro calls
    rfl
  | cons t rest =>
    cases t with
    | closeParen =>
      refine .cons (fun calls => ?_) (hk ⟨e, depth, rest, Nat.lt_of_succ_lt hlt⟩ rfl rfl)
      cases opener with
      | group => exact ⟨calls, rfl⟩
      | call f es => exact ⟨_, rfl⟩
    | comma =>
      cases opener with
      | group => exact .error fun _ => rfl
      | call f es => exact absurd rfl (hcomma f es rfl)
    | operator s => exact .error (push_operator_of_endsChain hsum hproduct)
    | number _ | identifier _ | openParen => exact .error fun _ => rfl

/-! ## Line by line

Each theorem is about the function of its name and whatever is done with its result: `k` gets the part that was read,
and all that has to be shown of `k` is that the draft behind that part ends so. -/

namespace Descent

mutual

theorem gives_operand (depth : Nat) (c : Chain) (fs : List Frame) (hc : c.depth = depth) :
    ∀ (ts : List Token) (k : Part Expr ts.length → Except Error Expr),
      (∀ p, p.depth = depth → Gives limit c fs (.complete p.value) p.rest (k p)) →
      Gives limit c fs .operand ts (operand limit depth ts >>= k)
  | .number x :: ts, k, hk => by
    rw [operand]
    exact .cons (fun calls => ⟨calls, rfl⟩) (hk ⟨.literal x, depth, ts, _⟩ rfl)
  | .identifier f :: .openParen :: ts, k, hk => by
    rw [operand, bind_assoc]
    refine .cons (fun calls => ⟨calls, rfl⟩) (.cons (fun calls => ⟨calls, rfl⟩) ?_)
    exact gives_call depth f c fs hc ts _ fun p hp => hk (p.widen _) hp
  -- No parenthesis follows, and the name is that of a variable.
  | [.identifier name], k, hk
  | .identifier name :: .number _ :: _, k, hk
  | .identifier name :: .identifier _ :: _, k, hk
  | .identifier name :: .operator _ :: _, k, hk
  | .identifier name :: .closeParen :: _, k, hk
  | .identifier name :: .comma :: _, k, hk => by
    rw [operand.eq_def]
    exact .cons (fun calls => ⟨calls, rfl⟩) (gives_name nofun (hk ⟨.var name, depth, _, _⟩ rfl))
  | .openParen :: ts, k, hk => by
    rw [operand, bind_assoc]
    refine gives_openParen ?_
    rw [hc]
    refine givesBelow_expression depth (⟨.group, c⟩ :: fs) ts _ fun p hp hsum hproduct _ => ?_
    rw [bind_assoc]
    exact gives_closed hsum hproduct nofun fun q _ hq => hk (q.widen _) (hq.trans hp)
  | .operator _ :: _, k, hk | .closeParen :: _, k, hk | .comma :: _, k, hk => by
    rw [operand.eq_def]
    exact .error fun _ => rfl
  | [], k, hk => by
    rw [operand]
    intro calls
    rfl
termination_by ts => 8 * ts.length

theorem gives_call (depth : Nat) (f : String) (c : Chain) (fs : List Frame) (hc : c.depth = depth) :
    ∀ (ts : List Token) (k : Part Expr ts.length → Except Error Expr),
      (∀ p, p.depth = depth → Gives limit c fs (.complete p.value) p.rest (k p)) →
      Gives limit c fs (.argument f) ts (call limit f depth ts >>= k)
  | .closeParen :: ts, k, hk => by
    rw [call]
    exact .cons (fun calls => ⟨_, rfl⟩) (hk ⟨.call f [], depth, ts, _⟩ rfl)
  | [], k, hk | .number _ :: _, k, hk | .identifier _ :: _, k, hk | .operator _ :: _, k, hk | .openParen :: _, k, hk
  | .comma :: _, k, hk => by
    rw [call.eq_def]
    refine gives_argument nofun ?_
    rw [hc]
    dsimp only
    rw [bind_assoc]
    exact givesBelow_arguments depth f [] c fs hc _ _ fun p hp => hk (p.map (.call f)) hp
termination_by ts => 8 * ts.length + 5

theorem givesBelow_arguments (depth : Nat) (f : String) (es : List Expr) (c : Chain) (fs : List Frame)
    (hc : c.depth = depth) (ts : List Token) (k : Part (List Expr) ts.length → Except Error Expr)
    (hk : ∀ p, p.depth = depth → Gives limit c fs (.complete (.call f p.value)) p.rest (k p)) :
    GivesBelow limit depth (⟨.call f es.reverse, c⟩ :: fs) ts (arguments limit es depth ts >>= k) := by
  rw [arguments, bind_assoc]
  refine givesBelow_expression depth _ ts _ fun p hp hsum hproduct hdepth => ?_
  obtain ⟨e, d, rest, hlt⟩ := p
  dsimp only at hp hsum hproduct ⊢
  subst hp
  by_cases hcomma : rest.head? = some .comma
  · obtain ⟨rest, rfl⟩ := List.head?_eq_some_iff.1 hcomma
    have hrest : rest.length < ts.length := Nat.lt_of_succ_lt hlt
    -- The next argument starts at the depth of the one before, where there is room.
    have hbelow := givesBelow_arguments d f (es ++ [e]) c fs hc rest _ fun q hq => hk (q.widen (Nat.le_of_lt hrest)) hq
    rw [List.reverse_append] at hbelow
    dsimp only
    rw [bind_assoc]
    exact .cons (fun calls => ⟨calls, push_comma rfl rfl⟩) (hbelow.gives hdepth)
  · split
    · next heq =>
      cases heq
      exact absurd rfl hcomma
    · rw [bind_assoc]
      refine gives_closed (p := ⟨e, d, rest, hlt⟩) hsum hproduct (fun _ _ _ => hcomma) fun q _ hq => ?_
      have haround : (Opener.call f es.reverse).around q.value = .call f (es ++ [q.value]) := by
        rw [Opener.around, List.reverse_cons, List.reverse_reverse]
      rw [haround]
      exact hk (q.map fun e => es ++ [e]) hq
termination_by 8 * ts.length + 4

theorem givesBelow_expression (depth : Nat) (fs : List Frame) (ts : List Token)
    (k : Part Expr ts.length → Except Error Expr)
    (hk : ∀ p, p.depth = depth → EndsChain true p.rest → EndsChain false p.rest → depth + 1 ≤ limit →
      Gives limit { base := depth + 1 } fs (.complete p.value) p.rest (k p)) :
    GivesBelow limit depth fs ts (expression limit depth ts >>= k) := by
  rw [expression, bind_assoc]
  refine givesBelow_deepen fun hdepth => ?_
  rw [bind_assoc]
  refine gives_addition (depth + 1) fs ts _ fun p hp hsum hproduct => ?_
  exact hk { p with depth := p.depth - 1 } (by simp [hp]) hsum hproduct hdepth
termination_by 8 * ts.length + 3

theorem gives_addition (depth : Nat) (fs : List Frame) (ts : List Token) (k : Part Expr ts.length → Except Error Expr)
    (hk : ∀ p, p.depth = depth → EndsChain true p.rest → EndsChain false p.rest →
      Gives limit { base := depth } fs (.complete p.value) p.rest (k p)) :
    Gives limit { base := depth } fs .operand ts (addition limit depth ts >>= k) := by
  rw [addition, bind_assoc]
  refine gives_multiplication depth { base := depth } fs rfl rfl rfl ts _ fun p hp hends => ?_
  have hlt := p.lt
  rw [bind_assoc]
  refine gives_sums p.depth { base := depth } fs p.value _ hp.symm rfl rfl p.rest hends _ fun q hsum hproduct => ?_
  -- The sums deepen the last operand only: behind them the depth is that of the chain's base again.
  exact hk { q.widen hlt with depth } rfl hsum hproduct
termination_by 8 * ts.length + 2

theorem gives_sums (depth : Nat) (c : Chain) (fs : List Frame) (o e : Expr) (hc : c.depth = depth)
    (hproducts : c.products = 0) (he : c.expr o = e) :
    ∀ (ts : List Token), EndsChain false ts → ∀ (k : Part Expr (ts.length + 1) → Except Error Expr),
      (∀ p, EndsChain true p.rest → EndsChain false p.rest →
        Gives limit { base := c.base } fs (.complete p.value) p.rest (k p)) →
      Gives limit c fs (.complete o) ts (sums limit e depth ts >>= k)
  | [], _, k, hk => by
    rw [sums, ← he]
    exact .expr nofun nofun (hk ⟨c.expr o, depth, [], _⟩ nofun nofun)
  | t :: ts, hends, k, hk => by
    rcases operator?_eq mem_sumSymbols_iff t ts with ⟨op, hop, rfl, hsome⟩ | ⟨hnone, hsum⟩
    · have hextend := Chain.extend_of_isSum (c := c) hop o
      have hdepth : (c.extend o op).depth = depth + 1 := by
        rw [hextend, ← hc]
        simp only [Chain.depth, hproducts]
        omega
      have hexpr (r : Expr) : (c.extend o op).expr r = .binary e op r := by
        rw [hextend, ← he]
        rfl
      rw [sums_of_some hsome, bind_assoc]
      refine gives_operator hdepth ?_
      rw [bind_assoc]
      refine gives_multiplication (depth + 1) (c.extend o op) fs hdepth (by rw [hextend]) (by rw [hextend]) ts _
        fun p hp hproductEnds => ?_
      have hlt := p.lt
      rw [bind_assoc]
      refine gives_sums p.depth (c.extend o op) fs p.value _ (by rw [hp, hdepth]) (by rw [hextend]) (hexpr _)
        p.rest hproductEnds _ fun q hsum hproduct => ?_
      rw [hextend]
      exact hk (q.widen _) hsum hproduct
    · rw [sums_of_none hnone, ← he]
      exact .expr hsum hends (hk ⟨c.expr o, depth, t :: ts, _⟩ hsum hends)
termination_by ts => 8 * ts.length

theorem gives_multiplication (depth : Nat) (c : Chain) (fs : List Frame) (hc : c.depth = depth)
    (hproducts : c.products = 0) (hproduct : c.product = none) (ts : List Token)
    (k : Part Expr ts.length → Except Error Expr)
    (hk : ∀ p, p.depth = depth → EndsChain false p.rest → Gives limit c fs (.complete p.value) p.rest (k p)) :
    Gives limit c fs .operand ts (multiplication limit depth ts >>= k) := by
  have hterm (e : Expr) : c.term e = e := by
    rw [Chain.term, hproduct]
    rfl
  have hchain : { c with products := 0, product := none } = c := by rw [← hproducts, ← hproduct]
  rw [multiplication, bind_assoc]
  refine gives_operand depth c fs hc ts _ fun p hp => ?_
  have hlt := p.lt
  rw [bind_assoc]
  refine gives_products p.depth c fs p.value p.value (by rw [hp, hc]) (hterm _) p.rest _ fun q hends => ?_
  rw [hchain]
  exact hk { q.widen (Nat.succ_le_of_lt hlt) with depth } rfl hends
termination_by 8 * ts.length + 1

theorem gives_products (depth : Nat) (c : Chain) (fs : List Frame) (o e : Expr) (hc : c.depth = depth)
    (he : c.term o = e) :
    ∀ (ts : List Token) (k : Part Expr (ts.length + 1) → Except Error Expr),
      (∀ p, EndsChain false p.rest →
        Gives limit { c with products := 0, product := none } fs (.complete p.value) p.rest (k p)) →
      Gives limit c fs (.complete o) ts (products limit e depth ts >>= k)
  | [], k, hk => by
    rw [products, ← he]
    exact .term nofun (hk ⟨c.term o, depth, [], _⟩ nofun)
  | t :: ts, k, hk => by
    rcases operator?_eq mem_productSymbols_iff t ts with ⟨op, hop, rfl, hsome⟩ | ⟨hnone, hends⟩
    · have hextend := Chain.extend_of_not_isSum (c := c) hop o
      have hdepth : (c.extend o op).depth = depth + 1 := by
        rw [hextend, ← hc]
        exact (Nat.add_assoc _ _ _).symm
      have hterm (r : Expr) : (c.extend o op).term r = .binary e op r := by
        rw [hextend, ← he]
        rfl
      rw [products_of_some hsome, bind_assoc]
      refine gives_operator hdepth ?_
      rw [bind_assoc]
      refine gives_operand (depth + 1) (c.extend o op) fs hdepth ts _ fun p hp => ?_
      have hlt := p.lt
      rw [bind_assoc]
      refine gives_products p.depth (c.extend o op) fs p.value _ (by rw [hp, hdepth]) (hterm _) p.rest _
        fun q hends => ?_
      rw [hextend]
      exact hk (q.widen _) hends
    · rw [products_of_none hnone, ← he]
      exact .term hends (hk ⟨c.term o, depth, t :: ts, _⟩ hends)
termination_by ts => 8 * ts.length

end

/-! ## Main theorem -/

/-- A recursive descent gives what the reader gives. So it never fails to convert an operator. -/
theorem read_eq (limit : Nat) (ts : List Token) :
    read limit ts = (Expr.ofTokens limit ts).mapError .malformed := by
  have hbelow : GivesBelow limit 0 [] ts (read limit ts) := by
    refine givesBelow_expression 0 [] ts _ fun p _ hsum hproduct _ => ?_
    obtain ⟨e, depth, rest, hlt⟩ := p
    cases rest with
    | nil =>
      intro calls
      rfl
    | cons t rest =>
      cases t with
      | operator s => exact .error (push_operator_of_endsChain hsum hproduct)
      | number _ | identifier _ | openParen | closeParen | comma => exact .error fun _ => rfl
  rw [← hbelow.of_checked [], Expr.ofTokens, Expr.read, start]
  cases checked limit ⟨{ base := 1 }, [], .operand, []⟩ with
  | ok d => rfl
  | error err => rfl

end Descent

end Formula
