import Formula.Alphabet
import Formula.Error
/-!
# The tokens of a text

Tokens are read from left to right, each as long as it can be, and blanks between them are skipped.
`scan` reads as many as it can; what is left of the text is empty, or starts where no token does, and
that is the fault of the text (`fault?`).
-/

namespace Formula

/-- The tokens read from a text, and the text that is left. -/
structure Scan where
  tokens : List Token
  rest : List Char

namespace Token

/-- The characters that are read as operators. -/
def operatorSymbols : List Char := ['+', '-', '*', '/', '%']

/-- They are the symbols of the operators. -/
theorem mem_operatorSymbols_iff {c : Char} : c ∈ operatorSymbols ↔ ∃ op : Operator, c = op.symbol := by
  constructor
  · intro h
    simp only [operatorSymbols, List.mem_cons, List.not_mem_nil, or_false] at h
    rcases h with rfl | rfl | rfl | rfl | rfl
    · exact ⟨.add, rfl⟩
    · exact ⟨.subtract, rfl⟩
    · exact ⟨.multiply, rfl⟩
    · exact ⟨.divide, rfl⟩
    · exact ⟨.remainder, rfl⟩
  · rintro ⟨op, rfl⟩
    cases op <;> decide

/-- The tokens written with a single character. -/
def ofMark? (c : Char) : Option Token :=
  match c with
  | '(' => some openParen
  | ')' => some closeParen
  | ',' => some comma
  | _ => if c ∈ operatorSymbols then some (operator c) else none

/-- The token at the start of the text `c :: cs`, and what follows it. -/
def first? (c : Char) (cs : List Char) : Option (Token × List Char) :=
  if isNumeral c then
    (Decimal.ofNumeral? (c :: cs.takeWhile isNumeral)).map fun d => (number d.toFloat, cs.dropWhile isNumeral)
  else if isNameStart c then
    some (identifier (.ofList (c :: cs.takeWhile isNamePart)), cs.dropWhile isNamePart)
  else (ofMark? c).map (·, cs)

theorem rest_suffix_of_first? {c : Char} {cs rest : List Char} {t : Token} (h : first? c cs = some (t, rest)) :
    rest <:+ cs := by
  unfold first? at h
  split at h
  · obtain ⟨d, -, h⟩ := Option.map_eq_some_iff.1 h
    cases h; exact List.dropWhile_suffix _
  · split at h
    · cases h; exact List.dropWhile_suffix _
    · obtain ⟨u, -, h⟩ := Option.map_eq_some_iff.1 h
      cases h; exact List.suffix_refl _

end Token

namespace Scan

/-- Reads the tokens of a text. -/
def ofText : List Char → Scan
  | [] => ⟨[], []⟩
  | c :: cs =>
    if isBlank c then ofText cs
    else match _ : Token.first? c cs with
      | some (t, rest) =>
        let scan := ofText rest
        ⟨t :: scan.tokens, scan.rest⟩
      | none => ⟨[], c :: cs⟩
termination_by text => text.length
decreasing_by
  · simp
  · exact Nat.lt_succ_of_le (Token.rest_suffix_of_first? ‹_›).length_le

@[simp] theorem ofText_nil : ofText [] = ⟨[], []⟩ := by rw [ofText]

theorem ofText_blank {c : Char} (cs : List Char) (h : isBlank c) : ofText (c :: cs) = ofText cs := by
  rw [ofText, if_pos h]

theorem ofText_token {c : Char} {cs rest : List Char} {t : Token} (hb : isBlank c = false)
    (h : Token.first? c cs = some (t, rest)) :
    ofText (c :: cs) = ⟨t :: (ofText rest).tokens, (ofText rest).rest⟩ := by
  rw [ofText, if_neg (by simp [hb])]
  split
  · next h' => rw [h] at h'; cases h'; rfl
  · next h' => rw [h] at h'; cases h'

theorem ofText_stuck {c : Char} {cs : List Char} (hb : isBlank c = false) (h : Token.first? c cs = none) :
    ofText (c :: cs) = ⟨[], c :: cs⟩ := by
  rw [ofText, if_neg (by simp [hb])]
  split
  · next h' => rw [h] at h'; cases h'
  · rfl

/-- What is left is the end of the text. -/
theorem rest_suffix (text : List Char) : (ofText text).rest <:+ text := by
  fun_induction ofText text with
  | case1 => exact List.suffix_refl _
  | case2 c cs hb ih => exact ih.trans (List.suffix_cons c cs)
  | case3 c cs hb t rest h scan ih =>
    exact (ih.trans (Token.rest_suffix_of_first? h)).trans (List.suffix_cons c cs)
  | case4 => exact List.suffix_refl _

end Scan

/-- How many bytes of UTF-8 a text takes. -/
def byteLength : List Char → Nat
  | [] => 0
  | c :: cs => c.utf8Size + byteLength cs

/-- Why no token starts where `rest`, the end of `text`, starts; nothing is wrong with an empty end. -/
def Scan.fault? (text : List Char) : List Char → Option SyntaxError
  | [] => none
  | c :: cs =>
    if isNumeral c then some (.badNumeral (.ofList (c :: cs.takeWhile isNumeral)))
    else some (.strayCharacter c (byteLength text - byteLength (c :: cs)))

/-- The tokens of a text. -/
def tokenize (text : String) : Except SyntaxError (List Token) :=
  let scan := Scan.ofText text.toList
  match Scan.fault? text.toList scan.rest with
  | none => .ok scan.tokens
  | some e => .error e

end Formula
