import Formula.Proofs.Rendering
/-!
# The text of an expression falls into its tokens

Written in front of anything that cannot lengthen its last token, an expression is scanned to its tokens,
and the scan goes on behind it: `ofText_write`.
-/

namespace Formula

open Binary64

/-- No token goes on with the first character. -/
def Apart (text : List Char) : Prop := ∀ c ∈ text.head?, isNamePart c = false ∧ isNumeral c = false

theorem apart_nil : Apart [] := by simp [Apart]

theorem apart_cons {c : Char} (cs : List Char) (h : isNamePart c = false ∧ isNumeral c = false) : Apart (c :: cs) := by
  simpa [Apart] using h

theorem isName_inf : IsName "inf" := ⟨'i', ['n', 'f'], rfl, rfl, List.all_eq_true.1 rfl⟩

namespace Scan

/-! ## One token -/

theorem ofText_space (cs : List Char) : ofText (' ' :: cs) = ofText cs := ofText_blank cs (by decide)

theorem ofText_openParen (cs : List Char) : ofText ('(' :: cs) = after [.openParen] (ofText cs) :=
  ofText_lexeme .openParen fun _ _ => rfl

theorem ofText_closeParen (cs : List Char) : ofText (')' :: cs) = after [.closeParen] (ofText cs) :=
  ofText_lexeme .closeParen fun _ _ => rfl

theorem ofText_comma (cs : List Char) : ofText (',' :: cs) = after [.comma] (ofText cs) :=
  ofText_lexeme .comma fun _ _ => rfl

theorem ofText_operator (op : Operator) (cs : List Char) :
    ofText (op.symbol :: cs) = after [.operator op.symbol] (ofText cs) :=
  ofText_lexeme (.operator op) fun _ _ => rfl

theorem ofText_name {name : String} {rest : List Char} (h : IsName name) (hr : Apart rest) :
    ofText (name.toList ++ rest) = after [.identifier name] (ofText rest) :=
  ofText_lexeme (.identifier h) fun x hx => (hr x hx).1

theorem ofText_numeral {text rest : List Char} {d : Decimal} (hd : Decimal.ofNumeral? text = some d) (hr : Apart rest) :
    ofText (text ++ rest) = after [.number d.toFloat] (ofText rest) := by
  obtain ⟨hnum, rfl⟩ := Decimal.ofNumeral?_eq_some_iff.1 hd
  exact ofText_lexeme (.number hnum) fun x hx => (hr x hx).2

theorem ofText_number {x : Float} {rest : List Char} (h : IsUnsigned x) (hr : Apart rest) :
    ofText (writeNumber .plain x ++ rest) =
      after [if magnitude x = infinity then .identifier "inf" else .number x] (ofText rest) := by
  obtain ⟨hx, hs⟩ := h
  by_cases hinf : magnitude x = infinity
  · rw [writeNumber_infinity hinf hs, if_pos hinf]
    exact ofText_name isName_inf hr
  · obtain ⟨d, hd, rfl⟩ := exists_numeral (by omega) hs
    rw [if_neg hinf]
    exact ofText_numeral hd hr

/-! ## The whole text -/

mutual

theorem ofText_write : ∀ (e : Expr) {rest : List Char}, e.IsWritable → Apart rest →
    ofText (e.write rest) = after e.tokens (ofText rest)
  | .literal x, rest, h, hr => by
    rw [Expr.IsWritable, Expr.Every] at h
    rw [Expr.write, Expr.tokens]
    exact ofText_number h hr
  | .var name, rest, h, hr => by
    rw [Expr.IsWritable, Expr.Every] at h
    rw [Expr.write, Expr.tokens]
    exact ofText_name h hr
  | .binary l op r, rest, h, hr => by
    rw [Expr.IsWritable, Expr.Every] at h
    -- Behind the left operand comes a blank, behind the right one a parenthesis.
    have hl : Apart (' ' :: op.symbol :: ' ' :: r.write (')' :: rest)) := apart_cons _ (by decide)
    have hr' : Apart (')' :: rest) := apart_cons _ (by decide)
    rw [Expr.write, Expr.tokens, ofText_openParen, ofText_write l h.1 hl, ofText_space, ofText_operator, ofText_space,
      ofText_write r h.2 hr', ofText_closeParen]
    simp [after]
  | .call f es, rest, h, hr => by
    rw [Expr.IsWritable, Expr.Every] at h
    have hf : Apart ('(' :: Expr.writeList es (')' :: rest)) := apart_cons _ (by decide)
    have hes : Apart (')' :: rest) := apart_cons _ (by decide)
    rw [Expr.write, Expr.tokens, ofText_name h.1 hf, ofText_openParen, ofText_writeList es h.2 hes, ofText_closeParen]
    simp [after]

theorem ofText_writeList : ∀ (es : List Expr) {rest : List Char}, Expr.EveryList IsUnsigned IsName es → Apart rest →
    ofText (Expr.writeList es rest) = after (Expr.tokensList es) (ofText rest)
  | [], rest, _, _ => rfl
  | [e], rest, h, hr => by
    rw [Expr.EveryList] at h
    exact ofText_write e h.1 hr
  | e :: e' :: es, rest, h, hr => by
    rw [Expr.EveryList] at h
    have he : Apart (',' :: ' ' :: Expr.writeList (e' :: es) rest) := apart_cons _ (by decide)
    rw [Expr.writeList, Expr.tokensList, ofText_write e h.1 he, ofText_comma, ofText_space,
      ofText_writeList (e' :: es) h.2 hr]
    simp [after]

end

end Scan

theorem tokenize_text {e : Expr} (h : e.IsWritable) : tokenize e.text = .ok e.tokens := by
  have hscan : Scan.ofText e.text.toList = ⟨e.tokens, []⟩ := by
    rw [Expr.text, String.toList_ofList, Scan.ofText_write e h apart_nil, Scan.ofText_nil, Scan.after, List.append_nil]
  simp only [tokenize, hscan]
  rfl

end Formula
