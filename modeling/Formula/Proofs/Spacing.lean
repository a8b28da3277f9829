import Formula.Proofs.Split
/-!
# Writing tokens apart

Tokens can be written one after the other, with blanks between them or with none, and are then scanned again.
Blanks are needed only where a token would go on into the next one (`Token.Fuses`): between two numbers, between
two names, and between a name and a number. All others end where the next one starts, so they are lexemes that go
as far as they can (`Token.fit_pieces`): `tokenize_spaced`.
-/

namespace Formula

open Binary64

namespace Token

/-- The tokens that a text can have, but for infinite numbers, whose text is a name. -/
def IsWritable : Token → Prop
  | number x => magnitude x < infinity ∧ isNegative x = false
  | identifier name => IsName name
  | operator c => ∃ op : Operator, c = op.symbol
  | openParen | closeParen | comma => True

/-- Written without a blank between them, the tokens run into each other. -/
def Fuses : Token → Token → Prop
  | number _, number _ | identifier _, identifier _ | identifier _, number _ => True
  | _, _ => False

/-- Tokens written one after the other, each with its blanks behind it. -/
def writeSpaced : List (Token × List Char) → List Char
  | [] => []
  | (t, blanks) :: ps => t.write ++ (blanks ++ writeSpaced ps)

/-- The pieces that are written. -/
def pieces (ps : List (Token × List Char)) : List Piece := ps.map fun (t, blanks) => ⟨t.write, t, blanks⟩

variable {t u : Token} {c : Char}

/-! ## Where a token ends -/

theorem toNat_of_isNamePart (h : isNamePart c) : 0x30 ≤ c.toNat ∧ c.toNat ≤ 0x7A := by
  simp only [isNamePart, Char.isAlphanum, Bool.or_eq_true, Char.isDigit_iff_toNat, beq_iff_eq] at h
  rcases h with (h | h) | rfl
  · have := toNat_of_isNameStart (c := c) (by simp [isNameStart, h])
    omega
  · exact ⟨h.1, Nat.le_trans h.2 (by decide)⟩
  · decide

theorem goesOn_of_isBlank (t : Token) (h : isBlank c) : t.goesOn c = false := by
  cases t with
  | number x =>
    refine Bool.eq_false_iff.2 fun hc => ?_
    have := toNat_of_isNumeral hc
    rw [isBlank_eq_false (by omega) (by omega)] at h
    cases h
  | identifier name =>
    refine Bool.eq_false_iff.2 fun hc => ?_
    have := toNat_of_isNamePart hc
    rw [isBlank_eq_false (by omega) (by omega)] at h
    cases h
  | openParen | closeParen | comma | operator c => rfl

theorem IsWritable.isLexeme (h : t.IsWritable) : IsLexeme t.write t := by
  cases t with
  | number x =>
    obtain ⟨d, hd, hx⟩ := exists_numeral h.1 h.2
    obtain ⟨hnum, hvalue⟩ := Decimal.ofNumeral?_eq_some_iff.1 hd
    have hlexeme := IsLexeme.number hnum
    rwa [← hvalue, hx] at hlexeme
  | identifier name => exact .identifier h
  | openParen => exact .openParen
  | closeParen => exact .closeParen
  | comma => exact .comma
  | operator c =>
    obtain ⟨op, rfl⟩ := h
    exact .operator op

/-- A token that does not fuse with the next one ends in front of it. -/
theorem endsAt_write (hu : u.IsWritable) (h : ¬ t.Fuses u) (rest : List Char) : t.EndsAt (u.write ++ rest) := by
  cases t with
  | openParen | closeParen | comma | operator c => exact fun _ _ => rfl
  | number x =>
    cases u with
    | number y => exact absurd trivial h
    | identifier name =>
      obtain ⟨c, cs, htext, hc, -⟩ := hu
      rw [write, htext]
      rintro _ ⟨⟩
      exact isNumeral_of_isNameStart hc
    | openParen | closeParen | comma => rintro _ ⟨⟩; rfl
    | operator c =>
      obtain ⟨op, rfl⟩ := hu
      rintro _ ⟨⟩
      cases op <;> rfl
  | identifier name =>
    cases u with
    | number y | identifier name' => exact absurd trivial h
    | openParen | closeParen | comma => rintro _ ⟨⟩; rfl
    | operator c =>
      obtain ⟨op, rfl⟩ := hu
      rintro _ ⟨⟩
      cases op <;> rfl

theorem write_pieces (ps : List (Token × List Char)) : Piece.write (pieces ps) [] = writeSpaced ps := by
  induction ps with
  | nil => rfl
  | cons p ps ih => exact congrArg (fun rest => p.1.write ++ (p.2 ++ rest)) ih

/-- With blanks wherever tokens would fuse, each goes as far as it can. -/
theorem fit_pieces {ps : List (Token × List Char)} (hps : ∀ p ∈ ps, p.1.IsWritable ∧ ∀ c ∈ p.2, isBlank c)
    (hgaps : ps.IsChain fun p q => p.1.Fuses q.1 → p.2 ≠ []) : Piece.Fit (pieces ps) [] := by
  induction ps with
  | nil => trivial
  | cons p ps ih =>
    obtain ⟨t, blanks⟩ := p
    obtain ⟨hnext, hgaps⟩ := List.isChain_cons.1 hgaps
    obtain ⟨ht, hb⟩ := hps _ List.mem_cons_self
    have hps' : ∀ p ∈ ps, p.1.IsWritable ∧ ∀ c ∈ p.2, isBlank c := fun p hp => hps p (List.mem_cons_of_mem _ hp)
    have hend : t.EndsAt (blanks ++ Piece.write (pieces ps) []) := by
      rw [write_pieces]
      cases blanks with
      | cons c cs =>
        rintro _ ⟨⟩
        exact goesOn_of_isBlank t (hb c List.mem_cons_self)
      | nil =>
        cases ps with
        | nil => exact nofun
        | cons q qs => exact endsAt_write (hps' q List.mem_cons_self).1 (fun h => hnext q rfl h rfl) _
    exact ⟨ht.isLexeme, hb, hend, ih hps' hgaps⟩

/-! ## Where a blank is needed -/

theorem exists_digit_write {x : Float} (h : IsWritable (.number x)) :
    ∃ c cs, write (.number x) = c :: cs ∧ c.isDigit := by
  rw [write, writeNumber_finite h.1 h.2]
  exact Decimal.exists_digit_writeFull _ _

theorem not_endsAt_write (hu : u.IsWritable) (h : t.Fuses u) : ¬ t.EndsAt u.write := by
  intro hend
  cases t with
  | openParen | closeParen | comma | operator c => exact h
  | number x =>
    cases u with
    | number y =>
      obtain ⟨c, cs, htext, hc⟩ := exists_digit_write hu
      rw [htext] at hend
      have := hend c rfl
      simp [goesOn, isNumeral, hc] at this
    | identifier name | openParen | closeParen | comma | operator c => exact h
  | identifier name =>
    cases u with
    | number y =>
      obtain ⟨c, cs, htext, hc⟩ := exists_digit_write hu
      rw [htext] at hend
      have := hend c rfl
      simp [goesOn, isNamePart, Char.isAlphanum, hc] at this
    | identifier name' =>
      obtain ⟨c, cs, htext, hc, -⟩ := hu
      rw [write, htext] at hend
      exact absurd (isNamePart_of_isNameStart hc) (by simpa [goesOn] using hend c rfl)
    | openParen | closeParen | comma | operator c => exact h

theorem isNumeral_of_mem_write {x : Float} (h : IsWritable (.number x)) : ∀ c ∈ write (.number x), isNumeral c := by
  have hlexeme := h.isLexeme
  generalize write (.number x) = text at hlexeme
  cases hlexeme with
  | number hnum => exact hnum.1

/-- A lexeme of the first of two tokens that fuse goes on in front of what is left of both. -/
theorem not_endsAt_of_append {l rest : List Char} (ht : t.IsWritable) (hu : u.IsWritable) (h : t.Fuses u)
    (hl : IsLexeme l t) (htext : t.write ++ u.write = l ++ rest) (hrest : rest ≠ []) : ¬ t.EndsAt rest := by
  cases t with
  | openParen | closeParen | comma | operator c => exact h.elim
  | identifier name =>
    -- A name has only one lexeme.
    cases hl
    obtain rfl := List.append_cancel_left htext
    exact not_endsAt_write hu h
  | number x =>
    cases u with
    | identifier _ | openParen | closeParen | comma | operator _ => exact h.elim
    | number y =>
      obtain ⟨c, cs, rfl⟩ := List.exists_cons_of_ne_nil hrest
      have hc : c ∈ write (.number x) ++ write (.number y) := by
        rw [htext]
        simp
      have hnum := (List.mem_append.1 hc).elim (isNumeral_of_mem_write ht c) (isNumeral_of_mem_write hu c)
      intro hend
      exact absurd hnum (by simpa [goesOn] using hend c rfl)

end Token

open Token

/-- Two tokens that fuse are not read from their texts alone. -/
theorem tokenize_write_of_fuses {t u : Token} (ht : t.IsWritable) (hu : u.IsWritable) (h : t.Fuses u) :
    tokenize (.ofList (t.write ++ u.write)) ≠ .ok [t, u] := by
  intro hread
  rw [tokenize_eq_ok, Scan.ofText_eq_iff_covers isStuck_nil, String.toList_ofList] at hread
  obtain ⟨⟨lead, ps⟩, ⟨htext, hlead, hps⟩, htokens⟩ := hread
  obtain ⟨p, ps', rfl, rfl, hsecond⟩ := List.map_eq_cons_iff.1 htokens
  obtain ⟨q, qs, rfl, rfl, -⟩ := List.map_eq_cons_iff.1 hsecond
  have hhead : ∀ c ∈ (p.token.write ++ q.token.write).head?, isBlank c = false := by
    obtain ⟨c, cs, hwrite, hc⟩ := ht.isLexeme.exists_cons
    rw [hwrite]
    rintro _ ⟨⟩
    exact hc
  rw [← List.nil_append (p.token.write ++ _)] at htext
  obtain ⟨-, htext⟩ := blanks_unique htext nofun hlead hhead (Piece.head?_write isStuck_nil hps)
  obtain ⟨hl, -, hend, hq, -⟩ := hps
  refine not_endsAt_of_append ht hu h hl htext ?_ hend
  obtain ⟨c, cs, hlexeme, -⟩ := hq.exists_cons
  simp [Piece.write, hlexeme]

/-- Tokens that have been written apart are read again. -/
theorem tokenize_writeSpaced {lead : List Char} {ps : List (Token × List Char)} (hlead : ∀ c ∈ lead, isBlank c)
    (hps : ∀ p ∈ ps, p.1.IsWritable ∧ ∀ c ∈ p.2, isBlank c)
    (hgaps : ps.IsChain fun p q => p.1.Fuses q.1 → p.2 ≠ []) :
    tokenize (.ofList (lead ++ writeSpaced ps)) = .ok (ps.map Prod.fst) := by
  rw [tokenize_eq_ok, Scan.ofText_eq_iff_covers isStuck_nil, String.toList_ofList]
  exact ⟨⟨lead, pieces ps⟩, ⟨by rw [write_pieces], hlead, fit_pieces hps hgaps⟩, by simp [Split.tokens, pieces]⟩

/-! ## Main theorem -/

/-- Written with blanks wherever they would fuse, and with blanks or none anywhere else, tokens are read again; and
two tokens that fuse are not read again without a blank between them. -/
theorem tokenize_spaced :
    (∀ (lead : List Char) (ps : List (Token × List Char)), (∀ c ∈ lead, isBlank c) →
      (∀ p ∈ ps, p.1.IsWritable ∧ ∀ c ∈ p.2, isBlank c) → (ps.IsChain fun p q => p.1.Fuses q.1 → p.2 ≠ []) →
      tokenize (.ofList (lead ++ writeSpaced ps)) = .ok (ps.map Prod.fst)) ∧
    ∀ t u : Token, t.IsWritable → u.IsWritable → t.Fuses u → tokenize (.ofList (t.write ++ u.write)) ≠ .ok [t, u] := by
  exact ⟨fun _ _ => tokenize_writeSpaced, fun _ _ => tokenize_write_of_fuses⟩

/-- A number, a name and a number: a blank is needed between the last two only. -/
theorem tokenize_spaced_of_exponent :
    let ps : List (Token × List Char) := [(.number 2, []), (.identifier "e5", ['\t']), (.number 7, [])]
    (∀ c ∈ ['\u3000'], isBlank c) ∧ (∀ p ∈ ps, p.1.IsWritable ∧ ∀ c ∈ p.2, isBlank c) ∧
      (ps.IsChain fun p q => p.1.Fuses q.1 → p.2 ≠ []) ∧ '\u3000' :: writeSpaced ps = "\u30002e5\t7".toList ∧
      tokenize "\u30002e5\t7" = .ok [.number 2, .identifier "e5", .number 7] := by
  intro ps
  have hlead : ∀ c ∈ ['\u3000'], isBlank c := List.forall_mem_singleton.2 (by decide)
  have hname : IsName "e5" := ⟨'e', ['5'], rfl, rfl, List.forall_mem_singleton.2 (by decide)⟩
  have hnumbers : (magnitude 2 < infinity ∧ isNegative 2 = false) ∧ magnitude 7 < infinity ∧ isNegative 7 = false := by
    decide +kernel
  have hps : ∀ p ∈ ps, p.1.IsWritable ∧ ∀ c ∈ p.2, isBlank c := by
    simp only [ps, List.forall_mem_cons]
    exact ⟨⟨hnumbers.1, List.forall_mem_nil _⟩, ⟨hname, by decide, List.forall_mem_nil _⟩,
      ⟨hnumbers.2, List.forall_mem_nil _⟩, List.forall_mem_nil _⟩
  have hgaps : ps.IsChain fun p q => p.1.Fuses q.1 → p.2 ≠ [] := by
    simp [ps, Fuses]
  have htext : '\u3000' :: writeSpaced ps = "\u30002e5\t7".toList := by decide +kernel
  have hread := tokenize_spaced.1 _ ps hlead hps hgaps
  rw [List.singleton_append, htext, String.ofList_toList] at hread
  exact ⟨hlead, hps, hgaps, htext, hread⟩

end Formula
