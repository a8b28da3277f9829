import Formula.Proofs.Numerals
import Formula.Token.Scan
/-!
# Lexemes

Which characters stand for which token, said without a scanner: `IsLexeme`. A token that is read goes as far as it
can, so what is read first is the lexeme with which the text cannot go on any more (`Token.first?_eq_some_iff`), and
there is no other such lexeme (`lexeme_unique`). A scan stops where no lexeme starts: `IsStuck`.
-/

namespace Formula

/-! ## Numerals -/

/-- Digits with at most one point before, among or behind them, and at least one digit. -/
def IsNumeral (text : List Char) : Prop :=
  (∀ c ∈ text, isNumeral c) ∧ text.count '.' ≤ 1 ∧ ∃ c ∈ text, c.isDigit

namespace Decimal

/-- What a numeral says: the whole number that its digits make up, with a place for each digit behind the point. -/
def ofNumeral (text : List Char) : Decimal :=
  ⟨Nat.ofDigitChars 10 (text.filter Char.isDigit) 0, -(text.dropWhile (· != '.')).tail.length⟩

variable {text ds fs : List Char}

theorem count_point_digits (hd : ∀ c ∈ ds, c.isDigit) : ds.count '.' = 0 :=
  List.count_eq_zero.2 fun h => absurd (hd '.' h) (by decide)

theorem dropWhile_point_digits (hd : ∀ c ∈ ds, c.isDigit) (rest : List Char) :
    (ds ++ rest).dropWhile (· != '.') = rest.dropWhile (· != '.') := by
  refine List.dropWhile_append_of_pos fun c hc => ?_
  rw [bne_iff_ne]
  rintro rfl
  exact absurd (hd '.' hc) (by decide)

theorem ofNumeral_digits (hd : ∀ c ∈ ds, c.isDigit) : ofNumeral ds = ⟨Nat.ofDigitChars 10 ds 0, 0⟩ := by
  have hdrop := dropWhile_point_digits hd []
  rw [List.append_nil] at hdrop
  rw [ofNumeral, hdrop, List.filter_eq_self.2 hd]
  rfl

theorem ofNumeral_point (hd : ∀ c ∈ ds, c.isDigit) (hf : ∀ c ∈ fs, c.isDigit) :
    ofNumeral (ds ++ '.' :: fs) = ⟨Nat.ofDigitChars 10 (ds ++ fs) 0, -fs.length⟩ := by
  have hfilter : (ds ++ '.' :: fs).filter Char.isDigit = ds ++ fs := by
    rw [List.filter_append, List.filter_cons_of_neg (by decide), List.filter_eq_self.2 hd, List.filter_eq_self.2 hf]
  rw [ofNumeral, hfilter, dropWhile_point_digits hd]
  rfl

/-- A numeral has a point or has none. -/
theorem digits_or_point (h : IsNumeral text) :
    ((∀ c ∈ text, c.isDigit) ∧ text ≠ []) ∨
      ∃ ds fs, text = ds ++ '.' :: fs ∧ (∀ c ∈ ds, c.isDigit) ∧ (∀ c ∈ fs, c.isDigit) ∧ ¬ (ds = [] ∧ fs = []) := by
  obtain ⟨hnum, hpoint, x, hx, hdigit⟩ := h
  have hother : ∀ c ∈ text, c ≠ '.' → c.isDigit := by
    intro c hc hne
    simpa [isNumeral, hne] using hnum c hc
  by_cases hmem : '.' ∈ text
  · obtain ⟨ds, fs, rfl⟩ := List.append_of_mem hmem
    -- The one point that is allowed is this one.
    have hcount : ds.count '.' = 0 ∧ fs.count '.' = 0 := by
      simp only [List.count_append, List.count_cons_self] at hpoint
      omega
    refine .inr ⟨ds, fs, rfl, fun c hc => ?_, fun c hc => ?_, ?_⟩
    · exact hother c (by simp [hc]) fun h => List.count_eq_zero.1 hcount.1 (h ▸ hc)
    · exact hother c (by simp [hc]) fun h => List.count_eq_zero.1 hcount.2 (h ▸ hc)
    · rintro ⟨rfl, rfl⟩
      obtain rfl := List.mem_singleton.1 hx
      exact absurd hdigit (by decide)
  · exact .inl ⟨fun c hc => hother c hc fun h => hmem (h ▸ hc), List.ne_nil_of_mem hx⟩

theorem isNumeral_of_ofNumeral? {d : Decimal} (h : ofNumeral? text = some d) : IsNumeral text := by
  have hwhole : ∀ c ∈ text.takeWhile Char.isDigit, c.isDigit := List.all_eq_true.1 List.all_takeWhile
  have htext : text.takeWhile Char.isDigit ++ text.dropWhile Char.isDigit = text := List.takeWhile_append_dropWhile
  unfold ofNumeral? at h
  dsimp only at h
  split at h
  · next hrest =>
    rw [hrest, List.append_nil] at htext
    split at h
    · cases h
    · next hne =>
      rw [htext] at hwhole hne
      obtain ⟨c, hc⟩ := List.exists_mem_of_ne_nil _ hne
      have hcount := count_point_digits hwhole
      exact ⟨fun c hc => isNumeral_of_isDigit (hwhole c hc), by omega, c, hc, hwhole c hc⟩
  · next c fraction hrest =>
    split at h
    · next hpoint =>
      obtain ⟨rfl, hfraction, hne⟩ := hpoint
      have hfraction := List.all_eq_true.1 hfraction
      rw [hrest] at htext
      rw [← htext]
      refine ⟨fun x hx => ?_, ?_, ?_⟩
      · rcases List.mem_append.1 hx with hx | hx
        · exact isNumeral_of_isDigit (hwhole x hx)
        · rcases List.mem_cons.1 hx with rfl | hx
          · decide
          · exact isNumeral_of_isDigit (hfraction x hx)
      · rw [List.count_append, List.count_cons_self, count_point_digits hwhole, count_point_digits hfraction]
      · by_cases hnil : text.takeWhile Char.isDigit = []
        · obtain ⟨x, hx⟩ := List.exists_mem_of_ne_nil fraction fun h => hne ⟨hnil, h⟩
          exact ⟨x, by simp [hx], hfraction x hx⟩
        · obtain ⟨x, hx⟩ := List.exists_mem_of_ne_nil _ hnil
          exact ⟨x, by simp [hx], hwhole x hx⟩
    · cases h

/-- Numerals are what can be read, and are read as what they say. -/
theorem ofNumeral?_eq_some_iff {d : Decimal} : ofNumeral? text = some d ↔ IsNumeral text ∧ d = ofNumeral text := by
  have hread : IsNumeral text → ofNumeral? text = some (ofNumeral text) := by
    intro h
    rcases digits_or_point h with ⟨hd, hne⟩ | ⟨ds, fs, rfl, hd, hf, hne⟩
    · rw [ofNumeral?_digits hd hne, ofNumeral_digits hd]
    · rw [ofNumeral?_point hd hf hne, ofNumeral_point hd hf]
  constructor
  · intro h
    have hnum := isNumeral_of_ofNumeral? h
    rw [hread hnum] at h
    exact ⟨hnum, (Option.some.inj h).symm⟩
  · rintro ⟨hnum, rfl⟩
    exact hread hnum

end Decimal

/-! ## The text of a token -/

/-- A letter or an underscore, and then letters, digits and underscores. -/
def IsName (name : String) : Prop :=
  ∃ c cs, name.toList = c :: cs ∧ isNameStart c ∧ ∀ x ∈ cs, isNamePart x

/-- The characters that a token may be written with. -/
inductive IsLexeme : List Char → Token → Prop
  | number {text} (h : IsNumeral text) : IsLexeme text (.number (Decimal.ofNumeral text).toFloat)
  | identifier {name} (h : IsName name) : IsLexeme name.toList (.identifier name)
  | openParen : IsLexeme ['('] .openParen
  | closeParen : IsLexeme [')'] .closeParen
  | comma : IsLexeme [','] .comma
  | operator (op : Operator) : IsLexeme [op.symbol] (.operator op.symbol)

/-- Whether a token goes on if a character follows it. -/
def Token.goesOn : Token → Char → Bool
  | number _, c => isNumeral c
  | identifier _, c => isNamePart c
  | openParen, _ | closeParen, _ | comma, _ | operator _, _ => false

/-- The token ends where `rest` starts. -/
def Token.EndsAt (t : Token) (rest : List Char) : Prop := ∀ c ∈ rest.head?, t.goesOn c = false

theorem isBlank_eq_false {c : Char} (h : 0x20 < c.toNat) (h' : c.toNat < 0x85) : isBlank c = false := by
  simp only [isBlank, blankRanges, List.any_cons, List.any_nil, Bool.or_eq_false_iff, Bool.and_eq_false_iff,
    decide_eq_false_iff_not, and_true]
  omega

theorem toNat_of_isNameStart {c : Char} (h : isNameStart c) : 0x41 ≤ c.toNat ∧ c.toNat ≤ 0x7A := by
  simp only [isNameStart, Char.isAlpha, Char.isUpper, Char.isLower, Bool.or_eq_true, Bool.and_eq_true,
    decide_eq_true_eq, beq_iff_eq, UInt32.le_iff_toNat_le, Char.toNat_val] at h
  rcases h with (h | h) | rfl
  · exact ⟨h.1, Nat.le_trans h.2 (by decide)⟩
  · exact ⟨Nat.le_trans (by decide) h.1, h.2⟩
  · decide

theorem toNat_of_isNumeral {c : Char} (h : isNumeral c) : 0x2E ≤ c.toNat ∧ c.toNat ≤ 0x39 := by
  simp only [isNumeral, Bool.or_eq_true, Char.isDigit_iff_toNat, beq_iff_eq] at h
  rcases h with h | rfl
  · exact ⟨Nat.le_trans (by decide) h.1, h.2⟩
  · decide

theorem isNumeral_of_isNameStart {c : Char} (h : isNameStart c) : isNumeral c = false := by
  have hstart := toNat_of_isNameStart h
  refine Bool.eq_false_iff.2 fun hnum => ?_
  have := toNat_of_isNumeral hnum
  omega

/-- Lexemes have characters, and start with no blank. -/
theorem IsLexeme.exists_cons {l : List Char} {t : Token} (h : IsLexeme l t) :
    ∃ c cs, l = c :: cs ∧ isBlank c = false := by
  cases h with
  | number h =>
    obtain ⟨hnum, -, x, hx, -⟩ := h
    obtain ⟨c, cs, rfl⟩ := List.exists_cons_of_ne_nil (List.ne_nil_of_mem hx)
    have := toNat_of_isNumeral (hnum c List.mem_cons_self)
    exact ⟨c, cs, rfl, isBlank_eq_false (by omega) (by omega)⟩
  | identifier h =>
    obtain ⟨c, cs, htext, hc, -⟩ := h
    have := toNat_of_isNameStart hc
    exact ⟨c, cs, htext, isBlank_eq_false (by omega) (by omega)⟩
  | openParen | closeParen | comma => exact ⟨_, _, rfl, by decide⟩
  | operator op => exact ⟨_, _, rfl, by cases op <;> decide⟩

/-! ## The first token of a text -/

theorem head?_dropWhile {p : Char → Bool} (cs : List Char) : ∀ c ∈ (cs.dropWhile p).head?, p c = false := by
  intro c hc
  have h := List.head?_dropWhile_not p cs
  rw [hc] at h
  simpa using h

namespace Token

variable {c : Char} {cs l rest : List Char} {t : Token}

theorem exists_isLexeme_of_ofMark? (h : ofMark? c = some t) : IsLexeme [c] t ∧ t.EndsAt rest := by
  unfold ofMark? at h
  split at h
  · cases h; exact ⟨.openParen, fun _ _ => rfl⟩
  · cases h; exact ⟨.closeParen, fun _ _ => rfl⟩
  · cases h; exact ⟨.comma, fun _ _ => rfl⟩
  · split at h
    · next hc =>
      cases h
      obtain ⟨op, rfl⟩ := mem_operatorSymbols_iff.1 hc
      exact ⟨.operator op, fun _ _ => rfl⟩
    · cases h

theorem exists_isLexeme_of_first? (h : first? c cs = some (t, rest)) :
    ∃ l, c :: cs = l ++ rest ∧ IsLexeme l t ∧ t.EndsAt rest := by
  unfold first? at h
  split at h
  · obtain ⟨d, hd, h⟩ := Option.map_eq_some_iff.1 h
    cases h
    obtain ⟨hnum, rfl⟩ := Decimal.ofNumeral?_eq_some_iff.1 hd
    refine ⟨_, ?_, .number hnum, head?_dropWhile cs⟩
    rw [List.cons_append, List.takeWhile_append_dropWhile]
  · split at h
    · next hstart =>
      cases h
      have hparts : ∀ x ∈ cs.takeWhile isNamePart, isNamePart x := List.all_eq_true.1 List.all_takeWhile
      have hname : IsName (.ofList (c :: cs.takeWhile isNamePart)) := ⟨c, _, String.toList_ofList, hstart, hparts⟩
      refine ⟨_, ?_, .identifier hname, head?_dropWhile cs⟩
      rw [String.toList_ofList, List.cons_append, List.takeWhile_append_dropWhile]
    · obtain ⟨u, hu, h⟩ := Option.map_eq_some_iff.1 h
      cases h
      exact ⟨[c], rfl, exists_isLexeme_of_ofMark? hu⟩

theorem first?_of_mark (hc : isNumeral c = false ∧ isNameStart c = false) (h : ofMark? c = some t) :
    first? c rest = some (t, rest) := by
  simp [first?, hc, h]

/-- What is read first is the lexeme that goes as far as it can. -/
theorem first?_eq_some_iff :
    first? c cs = some (t, rest) ↔ ∃ l, c :: cs = l ++ rest ∧ IsLexeme l t ∧ t.EndsAt rest := by
  refine ⟨exists_isLexeme_of_first?, ?_⟩
  rintro ⟨l, htext, hl, hend⟩
  obtain ⟨c', l', rfl, -⟩ := hl.exists_cons
  rw [List.cons_append, List.cons.injEq] at htext
  obtain ⟨rfl, rfl⟩ := htext
  generalize hlexeme : c :: l' = lexeme at hl
  cases hl with
  | number h =>
    subst hlexeme
    have hc : isNumeral c := h.1 c List.mem_cons_self
    obtain ⟨htake, hdrop⟩ := span_append (fun x hx => h.1 x (List.mem_cons_of_mem c hx)) hend
    simp [first?, hc, htake, hdrop, Decimal.ofNumeral?_eq_some_iff.2 ⟨h, rfl⟩]
  | @identifier name h =>
    obtain ⟨x, xs, htext, hx, hxs⟩ := h
    rw [htext] at hlexeme
    cases hlexeme
    have hname : String.ofList (c :: l') = name := by rw [← htext, String.ofList_toList]
    obtain ⟨htake, hdrop⟩ := span_append hxs hend
    simp [first?, isNumeral_of_isNameStart hx, hx, htake, hdrop, hname]
  | openParen | closeParen | comma => cases hlexeme; exact first?_of_mark (by decide) rfl
  | operator op => cases hlexeme; cases op <;> exact first?_of_mark (by decide) rfl

end Token

/-- A text starts with one lexeme that goes as far as it can, and no other. -/
theorem lexeme_unique {l l' rest rest' : List Char} {t t' : Token} (h : l ++ rest = l' ++ rest') (hl : IsLexeme l t)
    (hl' : IsLexeme l' t') (hend : t.EndsAt rest) (hend' : t'.EndsAt rest') : l = l' ∧ t = t' ∧ rest = rest' := by
  obtain ⟨c, cs, rfl, -⟩ := hl.exists_cons
  have hfirst : Token.first? c (cs ++ rest) = some (t, rest) := Token.first?_eq_some_iff.2 ⟨_, rfl, hl, hend⟩
  have hfirst' : Token.first? c (cs ++ rest) = some (t', rest') := Token.first?_eq_some_iff.2 ⟨l', h, hl', hend'⟩
  rw [hfirst] at hfirst'
  cases hfirst'
  exact ⟨List.append_cancel_right h, rfl, rfl⟩

/-! ## Scanning -/

/-- The text is at its end, or goes on with a character that is no blank and starts no token. -/
def IsStuck (rest : List Char) : Prop :=
  (∀ c ∈ rest.head?, isBlank c = false) ∧ ∀ l t rest', rest = l ++ rest' → IsLexeme l t → ¬ t.EndsAt rest'

theorem isStuck_nil : IsStuck [] := by
  refine ⟨nofun, fun l t rest' htext hl => ?_⟩
  obtain ⟨c, cs, rfl, -⟩ := hl.exists_cons
  cases htext

theorem isStuck_cons_iff {c : Char} {cs : List Char} :
    IsStuck (c :: cs) ↔ isBlank c = false ∧ Token.first? c cs = none := by
  constructor
  · rintro ⟨hb, h⟩
    refine ⟨hb c rfl, Option.eq_none_iff_forall_not_mem.2 ?_⟩
    rintro ⟨t, rest'⟩ hfirst
    obtain ⟨l, htext, hl, hend⟩ := Token.exists_isLexeme_of_first? hfirst
    exact h l t rest' htext hl hend
  · rintro ⟨hb, h⟩
    refine ⟨by rintro _ ⟨⟩; exact hb, fun l t rest' htext hl hend => ?_⟩
    rw [Token.first?_eq_some_iff.2 ⟨l, htext, hl, hend⟩] at h
    cases h

namespace Scan

variable {rest : List Char}

/-- A scan with some tokens read before it. -/
def after (ts : List Token) (s : Scan) : Scan := ⟨ts ++ s.tokens, s.rest⟩

theorem ofText_of_isStuck (h : IsStuck rest) : ofText rest = ⟨[], rest⟩ := by
  cases rest with
  | nil => exact ofText_nil
  | cons c cs =>
    obtain ⟨hb, hfirst⟩ := isStuck_cons_iff.1 h
    exact ofText_stuck hb hfirst

theorem ofText_blanks {ws : List Char} (h : ∀ c ∈ ws, isBlank c) (cs : List Char) : ofText (ws ++ cs) = ofText cs := by
  induction ws with
  | nil => rfl
  | cons c ws ih =>
    rw [List.cons_append, ofText_blank _ (h c List.mem_cons_self)]
    exact ih fun x hx => h x (List.mem_cons_of_mem c hx)

/-- A lexeme is scanned to its token where it goes as far as it can. -/
theorem ofText_lexeme {l : List Char} {t : Token} (h : IsLexeme l t) (hend : t.EndsAt rest) :
    ofText (l ++ rest) = after [t] (ofText rest) := by
  obtain ⟨c, cs, rfl, hb⟩ := h.exists_cons
  exact ofText_token hb (Token.first?_eq_some_iff.2 ⟨_, rfl, h, hend⟩)

end Scan

end Formula
