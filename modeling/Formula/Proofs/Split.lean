import Formula.Proofs.Lexemes
/-!
# How a text falls into tokens

A text is taken apart into lexemes with blanks around them (`Split.Covers`), each lexeme going as far as it can. A
scan finds such a split, up to where it is stuck (`Scan.exists_covers`), and whatever is such a split is scanned to
its tokens (`Scan.ofText_of_covers`). So a text has the tokens of its split, and it has one split at most:
`tokenize_eq_ok_iff_covers`.
-/

namespace Formula

/-! ## The split of a text -/

/-- A token where it stands in a text: its lexeme, and the blanks behind it. -/
structure Piece where
  lexeme : List Char
  token : Token
  blanks : List Char

namespace Piece

/-- The text of pieces, written in front of `rest`. -/
def write : List Piece → List Char → List Char
  | [], rest => rest
  | p :: ps, rest => p.lexeme ++ (p.blanks ++ write ps rest)

/-- In front of `rest` each lexeme is one of its token and goes as far as it can, and between them are blanks. -/
def Fit : List Piece → List Char → Prop
  | [], _ => True
  | p :: ps, rest => IsLexeme p.lexeme p.token ∧ (∀ c ∈ p.blanks, isBlank c) ∧
      p.token.EndsAt (p.blanks ++ write ps rest) ∧ Fit ps rest

end Piece

/-- A text taken apart: the blanks that it starts with, and the pieces behind them. -/
structure Split where
  blanks : List Char
  pieces : List Piece

namespace Split

/-- The tokens of a split. -/
def tokens (s : Split) : List Token := s.pieces.map Piece.token

/-- The split is one of `text` up to `rest`. -/
structure Covers (s : Split) (text rest : List Char) : Prop where
  text_eq : text = s.blanks ++ Piece.write s.pieces rest
  blanks : ∀ c ∈ s.blanks, isBlank c
  pieces : Piece.Fit s.pieces rest

end Split

namespace Scan

variable {text rest : List Char} {s : Split} {ps : List Piece}

theorem ofText_write_pieces (h : Piece.Fit ps rest) :
    ofText (Piece.write ps rest) = after (ps.map Piece.token) (ofText rest) := by
  induction ps with
  | nil => rfl
  | cons p ps ih =>
    obtain ⟨hl, hb, hend, hps⟩ := h
    rw [Piece.write, ofText_lexeme hl hend, ofText_blanks hb, ih hps]
    rfl

theorem ofText_of_covers (h : s.Covers text rest) : ofText text = after s.tokens (ofText rest) := by
  rw [h.text_eq, ofText_blanks h.blanks, ofText_write_pieces h.pieces]
  rfl

/-- A scan splits a text, up to where it is stuck. -/
theorem exists_covers (text : List Char) :
    ∃ s : Split, s.Covers text (ofText text).rest ∧ s.tokens = (ofText text).tokens ∧ IsStuck (ofText text).rest := by
  fun_induction ofText text with
  | case1 => exact ⟨⟨[], []⟩, ⟨rfl, List.forall_mem_nil _, trivial⟩, rfl, isStuck_nil⟩
  | case2 c cs hb ih =>
    obtain ⟨s, hs, htokens, hstuck⟩ := ih
    refine ⟨⟨c :: s.blanks, s.pieces⟩, ⟨congrArg (c :: ·) hs.text_eq, ?_, hs.pieces⟩, htokens, hstuck⟩
    rintro x (_ | ⟨_, hx⟩)
    · exact hb
    · exact hs.blanks x hx
  | case3 c cs hb t rest h scan ih =>
    obtain ⟨s, hs, htokens, hstuck⟩ := ih
    obtain ⟨l, htext, hl, hend⟩ := Token.exists_isLexeme_of_first? h
    -- The blanks in front of the other pieces are now behind the first one.
    rw [hs.text_eq] at htext hend
    exact ⟨⟨[], ⟨l, t, s.blanks⟩ :: s.pieces⟩, ⟨htext, List.forall_mem_nil _, hl, hs.blanks, hend, hs.pieces⟩,
      congrArg (t :: ·) htokens, hstuck⟩
  | case4 c cs hb h =>
    exact ⟨⟨[], []⟩, ⟨rfl, List.forall_mem_nil _, trivial⟩, rfl, isStuck_cons_iff.2 ⟨by simpa using hb, h⟩⟩

end Scan

/-! ## There is one split -/

theorem blanks_unique {ws ws' cs cs' : List Char} (h : ws ++ cs = ws' ++ cs') (hws : ∀ c ∈ ws, isBlank c)
    (hws' : ∀ c ∈ ws', isBlank c) (hcs : ∀ c ∈ cs.head?, isBlank c = false)
    (hcs' : ∀ c ∈ cs'.head?, isBlank c = false) : ws = ws' ∧ cs = cs' := by
  obtain ⟨htake, hdrop⟩ := span_append hws hcs
  obtain ⟨htake', hdrop'⟩ := span_append hws' hcs'
  rw [h] at htake hdrop
  exact ⟨htake.symm.trans htake', hdrop.symm.trans hdrop'⟩

namespace Piece

variable {rest : List Char}

theorem head?_write {ps : List Piece} (hrest : IsStuck rest) (h : Fit ps rest) :
    ∀ c ∈ (write ps rest).head?, isBlank c = false := by
  cases ps with
  | nil => exact hrest.1
  | cons p ps =>
    obtain ⟨c, cs, hlexeme, hb⟩ := h.1.exists_cons
    rw [write, hlexeme]
    rintro _ ⟨⟩
    exact hb

theorem Fit.not_isStuck {p : Piece} {ps : List Piece} (h : Fit (p :: ps) rest) : ¬ IsStuck (write (p :: ps) rest) :=
  fun hstuck => hstuck.2 _ _ _ rfl h.1 h.2.2.1

theorem Fit.unique {ps ps' : List Piece} (hrest : IsStuck rest) (h : Fit ps rest) (h' : Fit ps' rest)
    (htext : write ps rest = write ps' rest) : ps = ps' := by
  induction ps generalizing ps' with
  | nil =>
    cases ps' with
    | nil => rfl
    | cons p' ps' => exact absurd (htext ▸ hrest) h'.not_isStuck
  | cons p ps ih =>
    cases ps' with
    | nil => exact absurd (htext ▸ hrest) h.not_isStuck
    | cons p' ps' =>
      obtain ⟨hl, hb, hend, hps⟩ := h
      obtain ⟨hl', hb', hend', hps'⟩ := h'
      obtain ⟨hlexeme, htoken, hbehind⟩ := lexeme_unique htext hl hl' hend hend'
      obtain ⟨hblanks, hwrite⟩ := blanks_unique hbehind hb hb' (head?_write hrest hps) (head?_write hrest hps')
      obtain rfl := ih hps hps' hwrite
      cases p
      cases p'
      cases hlexeme
      cases htoken
      cases hblanks
      rfl

end Piece

theorem Split.Covers.unique {s s' : Split} {text rest : List Char} (hrest : IsStuck rest) (h : s.Covers text rest)
    (h' : s'.Covers text rest) : s = s' := by
  obtain ⟨hblanks, hwrite⟩ := blanks_unique (h.text_eq.symm.trans h'.text_eq) h.blanks h'.blanks
    (Piece.head?_write hrest h.pieces) (Piece.head?_write hrest h'.pieces)
  have hpieces := Piece.Fit.unique hrest h.pieces h'.pieces hwrite
  cases s
  cases s'
  cases hblanks
  cases hpieces
  rfl

/-! ## Main theorem -/

theorem Scan.fault?_eq_none_iff {text rest : List Char} : fault? text rest = none ↔ rest = [] := by
  cases rest with
  | nil => simp [fault?]
  | cons c cs =>
    rw [fault?]
    split <;> simp

theorem tokenize_eq_ok {text : String} {ts : List Token} :
    tokenize text = .ok ts ↔ Scan.ofText text.toList = ⟨ts, []⟩ := by
  rcases hscan : Scan.ofText text.toList with ⟨tokens, rest⟩
  simp only [tokenize, hscan]
  cases hfault : Scan.fault? text.toList rest with
  | none =>
    obtain rfl := Scan.fault?_eq_none_iff.1 hfault
    simp
  | some err =>
    have hrest : rest ≠ [] := fun h => by
      rw [Scan.fault?_eq_none_iff.2 h] at hfault
      cases hfault
    simp [hrest]

theorem Scan.ofText_eq_iff_covers {text rest : List Char} {ts : List Token} (hrest : IsStuck rest) :
    ofText text = ⟨ts, rest⟩ ↔ ∃ s : Split, s.Covers text rest ∧ s.tokens = ts := by
  constructor
  · intro h
    obtain ⟨s, hs, htokens, -⟩ := exists_covers text
    rw [h] at hs htokens
    exact ⟨s, hs, htokens⟩
  · rintro ⟨s, hs, rfl⟩
    rw [ofText_of_covers hs, ofText_of_isStuck hrest, after, List.append_nil]

/-- A text has the tokens of its split into lexemes and blanks, and it has no other split. -/
theorem tokenize_eq_ok_iff_covers (text : String) (ts : List Token) :
    (tokenize text = .ok ts ↔ ∃ s : Split, s.Covers text.toList [] ∧ s.tokens = ts) ∧
      ∀ s s' : Split, s.Covers text.toList [] → s'.Covers text.toList [] → s = s' :=
  ⟨tokenize_eq_ok.trans (Scan.ofText_eq_iff_covers isStuck_nil), fun _ _ => Split.Covers.unique isStuck_nil⟩

end Formula
