import Formula.Proofs.Split
/-!
# Where a text goes wrong

A scan that gets stuck does so for one of two reasons: a character stands there that no token holds, or digits and
points that are no numeral (`Blames`). The error names the character with the bytes in front of it, or the
digits and points, all of them. As lexemes go as far as they can, the scan is stuck at one place only, and the text
in front of it is faultless: `tokenize_eq_error_iff`.
-/

namespace Formula

/-- A character that is no blank and that no token holds. -/
def IsStray (c : Char) : Prop :=
  isBlank c = false ∧ c.isAlphanum = false ∧ c ∉ ['_', '.', '(', ')', ',', '+', '-', '*', '/', '%']

/-- All the digits and points that stand in front of `rest`, and they are no numeral. -/
structure IsBadNumeral (run rest : List Char) : Prop where
  ne_nil : run ≠ []
  chars : ∀ c ∈ run, isNumeral c
  ends : ∀ c ∈ rest.head?, isNumeral c = false
  bad : 1 < run.count '.' ∨ ∀ c ∈ run, c.isDigit = false

/-- The error says why no token starts with `rest`, behind the text `before`. -/
inductive Blames (before : String) : List Char → SyntaxError → Prop
  | stray {c cs} (h : IsStray c) : Blames before (c :: cs) (.strayCharacter c before.utf8ByteSize)
  | numeral {run rest} (h : IsBadNumeral run rest) : Blames before (run ++ rest) (.badNumeral (.ofList run))

/-- The text is one of tokens up to the end of `before`, where one of its lexemes or its blanks end, and goes wrong
with what comes next. -/
structure FailsBehind (text before : String) (rest : List Char) (err : SyntaxError) : Prop where
  text_eq : text.toList = before.toList ++ rest
  boundary : ∃ s : Split, s.Covers text.toList rest
  read : ∃ ts, tokenize before = .ok ts
  blames : Blames before rest err

/-! ## Why no token starts -/

theorem isBadNumeral_iff {c : Char} {cs run rest : List Char} :
    c :: cs = run ++ rest ∧ IsBadNumeral run rest ↔
      run = c :: cs.takeWhile isNumeral ∧ rest = cs.dropWhile isNumeral ∧ isNumeral c ∧ ¬ IsNumeral run := by
  constructor
  · rintro ⟨htext, hne, hchars, hends, hbad⟩
    obtain ⟨c', run, rfl⟩ := List.exists_cons_of_ne_nil hne
    rw [List.cons_append, List.cons.injEq] at htext
    obtain ⟨rfl, rfl⟩ := htext
    obtain ⟨htake, hdrop⟩ := span_append (fun x hx => hchars x (List.mem_cons_of_mem c hx)) hends
    refine ⟨by rw [htake], hdrop.symm, hchars c List.mem_cons_self, ?_⟩
    rintro ⟨-, hpoints, x, hx, hdigit⟩
    rcases hbad with hbad | hbad
    · omega
    · exact absurd hdigit (by simp [hbad x hx])
  · rintro ⟨rfl, rfl, hc, hnum⟩
    have hchars : ∀ x ∈ c :: cs.takeWhile isNumeral, isNumeral x :=
      List.forall_mem_cons.2 ⟨hc, List.all_eq_true.1 List.all_takeWhile⟩
    refine ⟨by rw [List.cons_append, List.takeWhile_append_dropWhile], by simp, hchars, head?_dropWhile cs, ?_⟩
    -- Few enough points and a digit would make a numeral.
    refine (Nat.lt_or_ge 1 _).imp_right fun hpoints x hx => Bool.eq_false_iff.2 fun hdigit => ?_
    exact hnum ⟨hchars, hpoints, x, hx, hdigit⟩

theorem ofMark?_eq_none_iff {c : Char} : Token.ofMark? c = none ↔ c ∉ ['(', ')', ',', '+', '-', '*', '/', '%'] := by
  unfold Token.ofMark?
  split
  · simp
  · simp
  · simp
  · next hopen hclose hcomma =>
    rw [ite_eq_right_iff, Token.operatorSymbols]
    simp only [reduceCtorEq, imp_false, List.mem_cons, List.not_mem_nil, or_false, not_or]
    tauto

theorem isAlphanum_eq_false_iff {c : Char} : c.isAlphanum = false ↔ c.isAlpha = false ∧ c.isDigit = false := by
  rw [Char.isAlphanum, Bool.or_eq_false_iff]

/-- The characters that are stray are those that start no token. -/
theorem isStray_iff {c : Char} (hb : isBlank c = false) :
    IsStray c ↔ isNumeral c = false ∧ isNameStart c = false ∧ Token.ofMark? c = none := by
  rw [ofMark?_eq_none_iff, isNumeral, isNameStart, IsStray, isAlphanum_eq_false_iff]
  simp only [Bool.or_eq_false_iff, beq_eq_false_iff_ne, List.mem_cons, List.not_mem_nil, or_false, not_or, hb]
  tauto

theorem first?_eq_none_iff {c : Char} {cs : List Char} (hb : isBlank c = false) :
    Token.first? c cs = none ↔ IsStray c ∨ ∃ run rest, c :: cs = run ++ rest ∧ IsBadNumeral run rest := by
  simp only [isBadNumeral_iff, isStray_iff hb, Token.first?]
  by_cases hnum : isNumeral c
  · simp [hnum, Decimal.ofNumeral?_eq_some_iff, Option.eq_none_iff_forall_not_mem]
  · by_cases hstart : isNameStart c
    · simp [hnum, hstart]
    · simp [hnum, hstart]

theorem Blames.isStuck {before : String} {rest : List Char} {err : SyntaxError} (h : Blames before rest err) :
    IsStuck rest ∧ rest ≠ [] := by
  cases h with
  | stray h => exact ⟨isStuck_cons_iff.2 ⟨h.1, (first?_eq_none_iff h.1).2 (.inl h)⟩, List.cons_ne_nil _ _⟩
  | @numeral run rest h =>
    obtain ⟨c, cs, htext⟩ := List.exists_cons_of_ne_nil (List.append_ne_nil_of_left_ne_nil h.ne_nil rest)
    have hc := toNat_of_isNumeral (isBadNumeral_iff.1 ⟨htext.symm, h⟩).2.2.1
    have hb : isBlank c = false := isBlank_eq_false (by omega) (by omega)
    rw [htext]
    exact ⟨isStuck_cons_iff.2 ⟨hb, (first?_eq_none_iff hb).2 (.inr ⟨run, rest, htext.symm, h⟩)⟩, List.cons_ne_nil _ _⟩

theorem exists_blames {rest : List Char} (h : IsStuck rest) (hne : rest ≠ []) (before : String) :
    ∃ err, Blames before rest err := by
  obtain ⟨c, cs, rfl⟩ := List.exists_cons_of_ne_nil hne
  obtain ⟨hb, hfirst⟩ := isStuck_cons_iff.1 h
  rcases (first?_eq_none_iff hb).1 hfirst with hstray | ⟨run, rest, htext, hbad⟩
  · exact ⟨_, .stray hstray⟩
  · rw [htext]
    exact ⟨_, .numeral hbad⟩

/-! ## What the scan says -/

theorem byteLength_eq (cs : List Char) : byteLength cs = (String.ofList cs).utf8ByteSize := by
  induction cs with
  | nil => rfl
  | cons c cs ih => simp [byteLength, ih]

theorem byteLength_append (cs cs' : List Char) : byteLength (cs ++ cs') = byteLength cs + byteLength cs' := by
  rw [byteLength_eq, String.ofList_append, String.utf8ByteSize_append, ← byteLength_eq, ← byteLength_eq]

theorem Blames.fault?_eq {before : String} {rest : List Char} {err : SyntaxError} (h : Blames before rest err) :
    Scan.fault? (before.toList ++ rest) rest = some err := by
  cases h with
  | stray h =>
    rw [Scan.fault?, if_neg (by simp [((isStray_iff h.1).1 h).1]), byteLength_append, Nat.add_sub_cancel, byteLength_eq,
      String.ofList_toList]
  | @numeral run rest h =>
    obtain ⟨c, cs, htext⟩ := List.exists_cons_of_ne_nil (List.append_ne_nil_of_left_ne_nil h.ne_nil rest)
    obtain ⟨hrun, -, hc, -⟩ := isBadNumeral_iff.1 ⟨htext.symm, h⟩
    rw [htext, Scan.fault?, if_pos hc, hrun]

theorem tokenize_eq_error {text : String} {err : SyntaxError} :
    tokenize text = .error err ↔ Scan.fault? text.toList (Scan.ofText text.toList).rest = some err := by
  rw [tokenize]
  cases Scan.fault? text.toList (Scan.ofText text.toList).rest <;> simp

theorem Scan.ne_nil_of_fault? {text rest : List Char} {err : SyntaxError} (h : fault? text rest = some err) :
    rest ≠ [] := by
  rintro rfl
  cases h

/-! ## The text in front -/

theorem Piece.write_append (ps : List Piece) (rest : List Char) : write ps rest = write ps [] ++ rest := by
  induction ps with
  | nil => rfl
  | cons p ps ih => rw [write, write, ih, List.append_assoc, List.append_assoc]

/-- Lexemes that go as far as they can do so too where the text ends behind them. -/
theorem Piece.Fit.of_rest {ps : List Piece} {rest : List Char} (h : Fit ps rest) : Fit ps [] := by
  induction ps with
  | nil => trivial
  | cons p ps ih =>
    obtain ⟨hl, hb, hend, hps⟩ := h
    refine ⟨hl, hb, fun c hc => hend c ?_, ih hps⟩
    rw [write_append, ← List.append_assoc, List.head?_append, Option.mem_def.1 hc]
    rfl

theorem Split.Covers.tokenize_eq {s : Split} {before : String} {rest : List Char}
    (h : s.Covers (before.toList ++ rest) rest) : tokenize before = .ok s.tokens := by
  obtain ⟨htext, hblanks, hpieces⟩ := h
  rw [Piece.write_append, ← List.append_assoc, List.append_cancel_right_eq] at htext
  rw [tokenize_eq_ok, Scan.ofText_eq_iff_covers isStuck_nil]
  exact ⟨s, ⟨htext, hblanks, hpieces.of_rest⟩, rfl⟩

namespace FailsBehind

variable {text before : String} {rest : List Char} {err : SyntaxError}

theorem rest_eq (h : FailsBehind text before rest err) : (Scan.ofText text.toList).rest = rest := by
  obtain ⟨s, hs⟩ := h.boundary
  rw [Scan.ofText_of_covers hs, Scan.ofText_of_isStuck h.blames.isStuck.1]
  rfl

theorem tokenize_eq (h : FailsBehind text before rest err) : tokenize text = .error err := by
  rw [tokenize_eq_error, h.rest_eq, h.text_eq]
  exact h.blames.fault?_eq

theorem unique {before' : String} {rest' : List Char} {err' : SyntaxError} (h : FailsBehind text before rest err)
    (h' : FailsBehind text before' rest' err') : before = before' ∧ rest = rest' ∧ err = err' := by
  obtain rfl : rest = rest' := h.rest_eq.symm.trans h'.rest_eq
  have herr := h.tokenize_eq.symm.trans h'.tokenize_eq
  have hbefore := List.append_cancel_right (h.text_eq.symm.trans h'.text_eq)
  exact ⟨String.toList_injective hbefore, rfl, Except.error.inj herr⟩

end FailsBehind

theorem exists_failsBehind {text : String} {err : SyntaxError} (h : tokenize text = .error err) :
    ∃ before rest, FailsBehind text before rest err := by
  obtain ⟨s, hs, -, hstuck⟩ := Scan.exists_covers text.toList
  obtain ⟨before, htext⟩ := Scan.rest_suffix text.toList
  rw [tokenize_eq_error] at h
  generalize (Scan.ofText text.toList).rest = rest at *
  have hne := Scan.ne_nil_of_fault? h
  rw [← String.toList_ofList (l := before)] at htext
  obtain ⟨err', hblames⟩ := exists_blames hstuck hne (.ofList before)
  have hfault := hblames.fault?_eq
  rw [htext, h] at hfault
  cases hfault
  exact ⟨.ofList before, rest, htext.symm, ⟨s, hs⟩, ⟨_, (htext ▸ hs : s.Covers _ rest).tokenize_eq⟩, hblames⟩

/-! ## Main theorem -/

/-- Tokens cannot be read from a text exactly if some front of it, up to the end of a lexeme or of a blank, can be read,
and a stray character or a bad numeral comes next, whatever follows that. There is only one such front, and the
error is about what comes behind it. -/
theorem tokenize_eq_error_iff (text : String) :
    (∀ err, tokenize text = .error err ↔ ∃ before rest, FailsBehind text before rest err) ∧
      ∀ before before' rest rest' err err', FailsBehind text before rest err → FailsBehind text before' rest' err' →
        before = before' ∧ rest = rest' ∧ err = err' := by
  refine ⟨fun err => ⟨exists_failsBehind, ?_⟩, fun _ _ _ _ _ _ => FailsBehind.unique⟩
  rintro ⟨before, rest, h⟩
  exact h.tokenize_eq

/-- The digits and points that are blamed start where a token may, behind the name. -/
example : tokenize "x1..2" = .error (.badNumeral "..2") := by decide +kernel

end Formula
