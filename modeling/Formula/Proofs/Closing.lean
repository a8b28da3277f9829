import Formula.Proofs.Calls
import Formula.Proofs.Viable
/-!
# The calls that end among tokens

Tokens that are no expression may have calls among them all the same, and each of those is noted where its parenthesis
closes, whatever comes after it. Which ones they are is told by the tokens alone (`Closes`): a call ends where its
name, its parentheses and its arguments end. Where a parenthesis closes a group no call ends, since parentheses
match in one way only (`Balanced.match_unique`). So what a draft has noted is the calls that end among
its tokens: `Draft.closes_of_run`.
-/

namespace Formula

open Draft

/-! ## Parentheses that match -/

/-- All parentheses in the tokens match. -/
structure Balanced (ts : List Token) : Prop where
  count : ts.count .openParen = ts.count .closeParen
  suffix : ∀ us, us <:+ ts → us.count .openParen ≤ us.count .closeParen

namespace Balanced

variable {ts us vs ws : List Token} {t : Token}

theorem nil : Balanced [] := ⟨rfl, fun us h => by rw [List.suffix_nil.1 h]; exact Nat.le_refl _⟩

theorem join (h : Balanced ts) (h' : Balanced us) (ht : t ≠ .openParen ∧ t ≠ .closeParen) :
    Balanced (ts ++ t :: us) := by
  refine ⟨by simp [h.count, h'.count, ht.1, ht.2], fun vs hvs => ?_⟩
  obtain ⟨ws, hws⟩ := hvs
  rcases List.append_eq_append_iff.1 hws with ⟨vs', rfl, rfl⟩ | ⟨vs', -, hbehind⟩
  · have := h.suffix vs' (List.suffix_append _ _)
    simp only [List.count_append, List.count_cons_of_ne ht.1, List.count_cons_of_ne ht.2, h'.count]
    omega
  · rcases List.suffix_cons_iff.1 ⟨vs', hbehind.symm⟩ with rfl | hvs
    · simp [h'.count, ht.1, ht.2]
    · exact h'.suffix vs hvs

theorem parens (h : Balanced ts) : Balanced (.openParen :: ts ++ [.closeParen]) := by
  refine ⟨by simp [h.count], fun us hus => ?_⟩
  rcases List.suffix_concat_iff.1 hus with rfl | ⟨vs, rfl, hvs⟩
  · exact Nat.le_refl _
  · rcases List.suffix_cons_iff.1 hvs with rfl | hvs
    · simp [h.count]
    · have := h.suffix vs hvs
      simp only [List.count_append]
      exact Nat.add_le_add this (Nat.zero_le _)

/-- A parenthesis that stood inside the others would be open there. -/
theorem eq_of_suffix (h : Balanced ts) (h' : Balanced us) (hsuffix : .openParen :: ts <:+ .openParen :: us) :
    ts = us := by
  rcases List.suffix_cons_iff.1 hsuffix with hsame | hinside
  · exact (List.cons.inj hsame).2
  · have hle := h'.suffix _ hinside
    rw [List.count_cons_self, List.count_cons_of_ne (by simp), h.count] at hle
    exact absurd hle (Nat.not_succ_le_self _)

/-- A parenthesis that is closed at the end is opened in one place only. -/
theorem match_unique (h : Balanced ts) (h' : Balanced us) (heq : vs ++ .openParen :: ts = ws ++ .openParen :: us) :
    vs = ws ∧ ts = us := by
  have hsuffix : .openParen :: ts <:+ ws ++ .openParen :: us := heq ▸ List.suffix_append _ _
  obtain rfl : ts = us := by
    rcases List.suffix_or_suffix_of_suffix hsuffix (List.suffix_append _ _) with hin | hin
    · exact h.eq_of_suffix h' hin
    · exact (h'.eq_of_suffix h hin).symm
  exact ⟨List.append_cancel_right heq, rfl⟩

end Balanced

mutual

theorem IsSum.balanced {ts : List Token} {e : Expr} : IsSum ts e → Balanced ts
  | .term h => h.balanced
  | .join hl _ hr => hl.balanced.join hr.balanced (by simp)

theorem IsTerm.balanced {ts : List Token} {e : Expr} : IsTerm ts e → Balanced ts
  | .operand h => h.balanced
  | .join hl _ hr => hl.balanced.join hr.balanced (by simp)

theorem IsOperand.balanced {ts : List Token} {e : Expr} : IsOperand ts e → Balanced ts
  | .number _ | .var _ => Balanced.nil.join .nil (by simp)
  | .group h => h.balanced.parens
  | .constant _ => Balanced.nil.join Balanced.nil.parens (by simp)
  | .call _ h => Balanced.nil.join h.balanced.parens (by simp)

theorem IsArguments.balanced {ts : List Token} {es : List Expr} : IsArguments ts es → Balanced ts
  | .last h => h.balanced
  | .more h hs => h.balanced.join hs.balanced (by simp)

end

/-! ## Where a call ends -/

/-- The tokens end with those of the call: the name of its function, and in parentheses its arguments. -/
def EndsCall (ts : List Token) (c : Call) : Prop :=
  ∃ us vs es, ts = us ++ .identifier c.function :: vs ∧
    IsOperand (.identifier c.function :: vs) (.call c.function es) ∧ es.length = c.arity

/-- Behind the tokens `us`, the tokens `ts` end these calls, in their order. -/
inductive Closes : List Token → List Token → List Call → Prop
  | nil {us} : Closes us [] []
  | call {us t ts c cs} : EndsCall (us ++ [t]) c → Closes (us ++ [t]) ts cs → Closes us (t :: ts) (c :: cs)
  | other {us t ts cs} : (∀ c, ¬ EndsCall (us ++ [t]) c) → Closes (us ++ [t]) ts cs → Closes us (t :: ts) cs

theorem IsOperand.exists_balanced {ts : List Token} {f : String} {es : List Expr}
    (h : IsOperand (.identifier f :: ts) (.call f es)) :
    ∃ us, ts = .openParen :: us ++ [.closeParen] ∧ Balanced us := by
  cases h with
  | constant _ => exact ⟨[], rfl, .nil⟩
  | call _ h => exact ⟨_, rfl, h.balanced⟩

/-- Between the parentheses of a call that ends, all match. -/
theorem EndsCall.exists_balanced {ts : List Token} {c : Call} (h : EndsCall ts c) :
    ∃ us vs, ts = us ++ [.identifier c.function] ++ .openParen :: vs ++ [.closeParen] ∧ Balanced vs := by
  obtain ⟨us, _, es, rfl, hcall, -⟩ := h
  obtain ⟨vs, rfl, hvs⟩ := hcall.exists_balanced
  exact ⟨us, vs, by simp, hvs⟩

theorem not_endsCall {ts : List Token} {t : Token} (ht : t ≠ .closeParen) (c : Call) : ¬ EndsCall (ts ++ [t]) c := by
  intro h
  obtain ⟨us, vs, hts, -⟩ := h.exists_balanced
  exact ht (List.singleton_inj.1 (List.append_inj_right' hts rfl))

/-- At most one call ends where tokens end. -/
theorem EndsCall.unique {ts : List Token} {c c' : Call} (h : EndsCall ts c) (h' : EndsCall ts c') : c = c' := by
  obtain ⟨f, k⟩ := c
  obtain ⟨f', k'⟩ := c'
  obtain ⟨us, _, es, rfl, hcall, rfl⟩ := h
  obtain ⟨us', _, es', hts, hcall', rfl⟩ := h'
  dsimp only at hcall hcall' hts ⊢
  obtain ⟨vs, rfl, hvs⟩ := hcall.exists_balanced
  obtain ⟨vs', rfl, hvs'⟩ := hcall'.exists_balanced
  rw [List.append_cons, List.append_cons us', ← List.append_assoc, ← List.append_assoc] at hts
  obtain ⟨hbefore, rfl⟩ := hvs.match_unique hvs' (List.append_cancel_right hts)
  obtain ⟨rfl⟩ := List.singleton_inj.1 (List.append_inj_right' hbefore rfl)
  have hsame := IsSum.unique (.term (.operand hcall)) (.term (.operand hcall'))
  cases hsame
  rfl

theorem Closes.unique {us ts : List Token} {cs cs' : List Call} (h : Closes us ts cs) (h' : Closes us ts cs') :
    cs = cs' := by
  induction h generalizing cs' with
  | nil => cases h'; rfl
  | call hc _ ih =>
    cases h' with
    | call hc' h' => rw [hc.unique hc', ih h']
    | other hno _ => exact absurd hc (hno _)
  | other hno _ ih =>
    cases h' with
    | call hc' _ => exact absurd hc' (hno _)
    | other _ h' => exact ih h'

theorem closes_of_ne {us : List Token} {t : Token} (ht : t ≠ .closeParen) : Closes us [t] [] :=
  .other (not_endsCall ht) .nil

theorem Closes.cons {us ts : List Token} {t : Token} {cs cs' : List Call} (h : Closes us [t] cs)
    (h' : Closes (us ++ [t]) ts cs') : Closes us (t :: ts) (cs ++ cs') := by
  cases h with
  | call hc h => cases h; exact .call hc h'
  | other hno h => cases h; exact .other hno h'

/-! ## A draft notes the calls that end -/

namespace Draft

variable {limit : Nat} {d d' : Draft} {t : Token} {ts us : List Token} {e : Expr}

/-- From `d` to `d'` the calls that end in `ts`, behind `us`, have been noted. -/
def Notes (us ts : List Token) (d d' : Draft) : Prop :=
  ∃ cs, Closes us ts cs ∧ d'.calls.reverse = d.calls.reverse ++ cs

theorem Notes.none (h : Closes us ts []) (hcalls : d'.calls = d.calls) : Notes us ts d d' :=
  ⟨[], h, by rw [hcalls, List.append_nil]⟩

theorem Notes.call {c : Call} (h : EndsCall (us ++ [t]) c) (hcalls : d'.calls = c :: d.calls) : Notes us [t] d d' :=
  ⟨[c], .call h .nil, by rw [hcalls, List.reverse_cons]⟩

theorem calls_of_pushOperand (h : d.pushOperand limit t = .ok d') : d'.calls = d.calls := by
  cases t with
  | number _ | identifier _ => cases h; rfl
  | openParen => obtain rfl := eq_of_descend h; rfl
  | closeParen | comma | operator _ => cases h

theorem notes_of_pushOperand (us : List Token) (h : d.pushOperand limit t = .ok d') : Notes us [t] d d' := by
  refine .none (closes_of_ne ?_) (calls_of_pushOperand h)
  rintro rfl
  exact opens_of_pushOperand h

/-- The parentheses of a group have no name in front of them. -/
theorem not_endsCall_of_group {c : Chain} {fs : List Frame} (hd : d.Holds ts) (ho : d.phase.operand? = some e)
    (hf : d.frames = ⟨.group, c⟩ :: fs) (k : Call) : ¬ EndsCall (ts ++ [.closeParen]) k := by
  intro h
  obtain ⟨_, vs, hframes, hs, rfl⟩ := hd.exists_isSum ho
  rw [hf] at hframes
  obtain ⟨us₁, us₂, _, hfs, hc, ⟨⟩, rfl⟩ := hframes
  obtain ⟨ws, ws', hts, hws⟩ := h.exists_balanced
  have hts := List.append_cancel_right hts
  rw [List.append_assoc (us₁ ++ us₂)] at hts
  obtain ⟨hbefore, -⟩ := hs.balanced.match_unique hws hts
  -- In front of a group an operand has to come, and behind a name it does not.
  have hawaits : (⟨c, fs, .operand, []⟩ : Draft).Holds (ws ++ [.identifier k.function]) :=
    ⟨us₁, us₂, [], hfs, hc, .operand, by rw [List.append_nil, hbefore]⟩
  obtain ⟨_, ⟨⟩⟩ := hawaits.closes_iff.1 ⟨_, List.getLast?_concat, trivial⟩

theorem endsCall_of_frame {f : String} {es : List Expr} {c : Chain} {fs : List Frame} (hd : d.Holds ts)
    (ho : d.phase.operand? = some e) (hf : d.frames = ⟨.call f es, c⟩ :: fs) :
    EndsCall (ts ++ [.closeParen]) ⟨f, (d.chain.expr e :: es).reverse.length⟩ := by
  obtain ⟨_, vs, hframes, hs, rfl⟩ := hd.exists_isSum ho
  rw [hf] at hframes
  obtain ⟨us₁, us₂, _, -, -, hopener, rfl⟩ := hframes
  cases hopener with
  | @call ws _ _ ha =>
    have hargs := ha.isArguments (.last hs)
    rw [← List.reverse_cons] at hargs
    exact ⟨us₁ ++ us₂, _, _, by simp, .call f hargs, rfl⟩

theorem notes_of_pushComplete (hd : d.Holds ts) (ho : d.phase.operand? = some e)
    (h : d.pushComplete limit e t = .ok d') : Notes ts [t] d d' := by
  obtain ⟨k, hk, hpush⟩ := d.exists_follows e t
  rw [hpush] at h
  cases hk with
  | operator op =>
    obtain rfl := eq_of_checked h
    exact .none (closes_of_ne nofun) rfl
  | comma _ =>
    cases h
    exact .none (closes_of_ne nofun) rfl
  | group hf =>
    cases h
    exact .none (.other (not_endsCall_of_group hd ho hf) .nil) rfl
  | call hf =>
    cases h
    exact .call (endsCall_of_frame hd ho hf) rfl
  | obstacle _ => cases h

theorem notes_of_push (hd : d.Holds ts) (h : d.push limit t = .ok d') : Notes ts [t] d d' := by
  obtain ⟨k, hk, hpush⟩ := d.exists_reads t
  rw [hpush] at h
  cases hk with
  | operand _ t => exact notes_of_pushOperand ts h
  | constant f hp =>
    cases h
    obtain ⟨us, rfl⟩ := hd.getLast?_of_phase_argument hp
    exact .call ⟨us, _, [], by simp, .constant f, rfl⟩ rfl
  | argument f _ ht =>
    obtain ⟨d₁, hdescend, h⟩ := bind_eq_ok.1 h
    obtain rfl := eq_of_descend hdescend
    have hnotes := notes_of_pushOperand ts h
    exact hnotes
  | function f _ =>
    cases h
    exact .none (closes_of_ne nofun) rfl
  | complete ho t => exact notes_of_pushComplete hd ho h

theorem notes_of_pushAll (hd : d.Holds us) (h : d.pushAll limit ts = .ok d') : Notes us ts d d' := by
  induction ts generalizing d us with
  | nil => cases h; exact .none .nil rfl
  | cons t ts ih =>
    obtain ⟨d₁, hpush, h⟩ := bind_eq_ok.1 h
    obtain ⟨cs, hcs, hcalls⟩ := notes_of_push hd hpush
    obtain ⟨cs', hcs', hcalls'⟩ := ih (holds_of_push hd hpush) h
    exact ⟨cs ++ cs', hcs.cons hcs', by rw [hcalls', hcalls, List.append_assoc]⟩

/-- What is noted after tokens is the calls that end among them. -/
theorem closes_of_run (h : run limit ts = .ok d) : Closes [] ts d.calls.reverse := by
  obtain ⟨d₀, hstart, hall⟩ := bind_eq_ok.1 h
  have hholds : d₀.Holds [] := holds_of_run (show run limit [] = .ok d₀ by rw [run, hstart]; rfl)
  obtain ⟨cs, hcs, hcalls⟩ := notes_of_pushAll hholds hall
  obtain rfl := eq_of_checked hstart
  rw [hcalls]
  exact hcs

end Draft

/-- The two accounts agree: the calls of an expression are those that end among its tokens. -/
theorem closes_calls_of_isSum {ts : List Token} {e : Expr} (h : IsSum ts e) : Closes [] ts e.calls := by
  have hread := ofTokens_of_isSum (Nat.le_refl _) h
  rw [ofTokens_eq] at hread
  obtain ⟨d, hrun, hfinish⟩ := bind_eq_ok.1 hread
  rw [← calls_of_finish (noted_of_run hrun) hfinish]
  exact closes_of_run hrun

end Formula
