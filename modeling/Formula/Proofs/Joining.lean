import Formula.Proofs.Misfit
import Formula.Proofs.Spacing
/-!
# Texts with blanks between them

No token goes on over a blank. So the text in front of blanks is scanned as if nothing followed it: to its end, behind
which the scan goes on, or to where it is stuck (`Scan.ofText_append`). The text behind them is scanned as if nothing
stood in front of it, only that the offset of a fault counts those bytes too (`Scan.fault?_append`). Two texts
with blanks between them are therefore read one after the other: `tokenize_joined`.
-/

namespace Formula

namespace SyntaxError

/-- The error with `n` more bytes in front of it. -/
def moved (n : Nat) : SyntaxError → SyntaxError
  | strayCharacter c offset => strayCharacter c (n + offset)
  | err => err

/-- The error without its place. -/
def unplaced : SyntaxError → SyntaxError
  | strayCharacter c _ => strayCharacter c 0
  | err => err

theorem unplaced_moved (n : Nat) (err : SyntaxError) : (err.moved n).unplaced = err.unplaced := by
  cases err <;> rfl

end SyntaxError

/-! ## A token in front of a blank -/

section

variable {p : Char → Bool} {more : List Char}

theorem takeWhile_append_of_head? (h : ∀ c ∈ more.head?, p c = false) (cs : List Char) :
    (cs ++ more).takeWhile p = cs.takeWhile p ∧ (cs ++ more).dropWhile p = cs.dropWhile p ++ more := by
  induction cs with
  | nil => simpa using span_append (List.forall_mem_nil _) h
  | cons c cs ih =>
    rw [List.cons_append, List.takeWhile_cons, List.takeWhile_cons, List.dropWhile_cons, List.dropWhile_cons]
    split
    · rw [ih.1, ih.2]
      exact ⟨rfl, rfl⟩
    · exact ⟨rfl, rfl⟩

variable (hmore : ∀ c ∈ more.head?, isBlank c)
include hmore

theorem first?_append (c : Char) (cs : List Char) :
    Token.first? c (cs ++ more) = (Token.first? c cs).map fun (t, rest) => (t, rest ++ more) := by
  have hnum : ∀ x ∈ more.head?, isNumeral x = false := fun x hx => Token.goesOn_of_isBlank (.number 0) (hmore x hx)
  have hname : ∀ x ∈ more.head?, isNamePart x = false := fun x hx =>
    Token.goesOn_of_isBlank (.identifier "") (hmore x hx)
  obtain ⟨htakeNum, hdropNum⟩ := takeWhile_append_of_head? hnum cs
  obtain ⟨htakeName, hdropName⟩ := takeWhile_append_of_head? hname cs
  rw [Token.first?, Token.first?, htakeNum, hdropNum, htakeName, hdropName]
  split
  · rw [Option.map_map]
    rfl
  · split
    · rfl
    · rw [Option.map_map]
      rfl

namespace Scan

/-- A scan up to a blank goes on there, or is stuck already. -/
theorem ofText_append (text : List Char) :
    ofText (text ++ more) =
      if (ofText text).rest = [] then after (ofText text).tokens (ofText more)
      else ⟨(ofText text).tokens, (ofText text).rest ++ more⟩ := by
  fun_induction ofText text with
  | case1 => rfl
  | case2 c cs hb ih => rw [List.cons_append, ofText_blank _ hb, ih]
  | case3 c cs hb t rest h scan ih =>
    have hfirst := first?_append hmore c cs
    rw [h] at hfirst
    rw [List.cons_append, ofText_token (by simpa using hb) hfirst, ih]
    split <;> rfl
  | case4 c cs hb h =>
    have hfirst := first?_append hmore c cs
    rw [h] at hfirst
    rw [List.cons_append, ofText_stuck (by simpa using hb) hfirst]
    rfl

end Scan

end

/-! ## A fault behind other text -/

/-- Where a text is stuck, its first character and the digits and points behind it tell why. A blank behind the text
adds no more of these. -/
theorem Scan.fault?_of_more {more : List Char} (hmore : ∀ c ∈ more.head?, isBlank c) (text : List Char)
    {rest : List Char} (hne : rest ≠ []) : fault? (text ++ more) (rest ++ more) = fault? text rest := by
  obtain ⟨c, cs, rfl⟩ := List.exists_cons_of_ne_nil hne
  have hnum : ∀ x ∈ more.head?, isNumeral x = false := fun x hx => Token.goesOn_of_isBlank (.number 0) (hmore x hx)
  rw [List.cons_append, fault?, fault?, (takeWhile_append_of_head? hnum cs).1, ← List.cons_append, byteLength_append,
    byteLength_append, Nat.add_sub_add_right]

theorem Scan.fault?_append (front : List Char) {text rest : List Char} (h : rest <:+ text) :
    fault? (front ++ text) rest = (fault? text rest).map (.moved (byteLength front)) := by
  obtain ⟨before, rfl⟩ := h
  cases rest with
  | nil => rfl
  | cons c cs =>
    rw [fault?, fault?]
    split
    · rfl
    · rw [Option.map_some, SyntaxError.moved, byteLength_append, byteLength_append, Nat.add_sub_cancel, ← Nat.add_assoc,
        Nat.add_sub_cancel]

/-! ## Main theorem -/

section

variable {a b blanks : String} (hne : blanks ≠ "") (hblanks : ∀ c ∈ blanks.toList, isBlank c)
include hne hblanks

theorem toList_joined (a b : String) :
    (a ++ blanks ++ b).toList = a.toList ++ (blanks.toList ++ b.toList) ∧
      ∀ c ∈ (blanks.toList ++ b.toList).head?, isBlank c := by
  refine ⟨by simp, fun c hc => hblanks c ?_⟩
  obtain ⟨c', cs, htext⟩ := List.exists_cons_of_ne_nil (mt String.toList_eq_nil_iff.1 hne)
  rw [htext] at hc ⊢
  cases hc
  exact List.mem_cons_self

theorem tokenize_joined_of_error {err : SyntaxError} (h : tokenize a = .error err) :
    tokenize (a ++ blanks ++ b) = .error err := by
  obtain ⟨htext, hmore⟩ := toList_joined hne hblanks a b
  rw [tokenize_eq_error] at h ⊢
  have hrest := Scan.ne_nil_of_fault? h
  rw [htext, Scan.ofText_append hmore, if_neg hrest, Scan.fault?_of_more hmore _ hrest, h]

theorem tokenize_joined_of_ok {ts : List Token} (h : tokenize a = .ok ts) :
    tokenize (a ++ blanks ++ b) = do
      let us ← (tokenize b).mapError (.moved (a ++ blanks).utf8ByteSize)
      return ts ++ us := by
  obtain ⟨htext, hmore⟩ := toList_joined hne hblanks a b
  have hscan : Scan.ofText (a ++ blanks ++ b).toList = Scan.after ts (Scan.ofText b.toList) := by
    rw [htext, Scan.ofText_append hmore, tokenize_eq_ok.1 h, if_pos rfl, Scan.ofText_blanks hblanks]
  have hfault : Scan.fault? (a ++ blanks ++ b).toList (Scan.ofText b.toList).rest =
      (Scan.fault? b.toList (Scan.ofText b.toList).rest).map (.moved (a ++ blanks).utf8ByteSize) := by
    rw [String.toList_append, Scan.fault?_append _ (Scan.rest_suffix _), byteLength_eq, String.ofList_toList]
  rw [tokenize, tokenize, hscan, Scan.after]
  dsimp only
  rw [hfault]
  cases Scan.fault? b.toList (Scan.ofText b.toList).rest <;> rfl

theorem tokenize_joined_eq (a b : String) :
    tokenize (a ++ blanks ++ b) = do
      let ts ← tokenize a
      let us ← (tokenize b).mapError (.moved (a ++ blanks).utf8ByteSize)
      return ts ++ us := by
  cases h : tokenize a with
  | error err => exact tokenize_joined_of_error hne hblanks h
  | ok ts => exact tokenize_joined_of_ok hne hblanks h

end

theorem mapError_unplaced_joined {blanks : String} (hne : blanks ≠ "") (hblanks : ∀ c ∈ blanks.toList, isBlank c)
    (a b : String) :
    (tokenize (a ++ blanks ++ b)).mapError SyntaxError.unplaced = do
      let ts ← (tokenize a).mapError SyntaxError.unplaced
      let us ← (tokenize b).mapError SyntaxError.unplaced
      return ts ++ us := by
  rw [tokenize_joined_eq hne hblanks]
  cases tokenize a with
  | error err => rfl
  | ok ts =>
    cases tokenize b with
    | ok us => rfl
    | error err => exact congrArg Except.error (err.unplaced_moved _)

/-- With blanks between them two texts are read one after the other. What is wrong with the first is wrong with both,
whatever follows; what is wrong with the second alone is so behind the first and the blanks. So it does not matter
what blanks they are and how many, but for the place of an error. -/
theorem tokenize_joined {blanks blanks' : String} (hne : blanks ≠ "") (hblanks : ∀ c ∈ blanks.toList, isBlank c)
    (hne' : blanks' ≠ "") (hblanks' : ∀ c ∈ blanks'.toList, isBlank c) (a b : String) :
    (tokenize (a ++ blanks ++ b) = do
      let ts ← tokenize a
      let us ← (tokenize b).mapError (.moved (a ++ blanks).utf8ByteSize)
      return ts ++ us) ∧
    (tokenize (a ++ blanks ++ b)).mapError SyntaxError.unplaced =
      (tokenize (a ++ blanks' ++ b)).mapError SyntaxError.unplaced := by
  refine ⟨tokenize_joined_eq hne hblanks a b, ?_⟩
  rw [mapError_unplaced_joined hne hblanks, mapError_unplaced_joined hne' hblanks']

/-- Two bytes of a name and four of blanks move the stray letter from offset 2 to offset 8. -/
theorem tokenize_joined_of_stray :
    let blanks := "\u3000\t"
    blanks ≠ "" ∧ (∀ c ∈ blanks.toList, isBlank c) ∧ " " ≠ "" ∧ (∀ c ∈ " ".toList, isBlank c) ∧
      tokenize "x1" = .ok [.identifier "x1"] ∧ tokenize "2 é" = .error (.strayCharacter 'é' 2) ∧
      tokenize ("x1" ++ blanks ++ "2 é") = .error (.strayCharacter 'é' 8) ∧
      (tokenize ("x1" ++ " " ++ "2 é")).mapError SyntaxError.unplaced = .error (.strayCharacter 'é' 0) := by
  intro blanks
  have hne : blanks ≠ "" ∧ " " ≠ "" := by decide
  have hblanks : (∀ c ∈ blanks.toList, isBlank c) ∧ ∀ c ∈ " ".toList, isBlank c :=
    ⟨List.all_eq_true.1 (by decide), List.all_eq_true.1 (by decide)⟩
  have ha : tokenize "x1" = .ok [.identifier "x1"] := by decide +kernel
  have hb : tokenize "2 é" = .error (.strayCharacter 'é' 2) := by decide +kernel
  obtain ⟨hjoined, hunplaced⟩ := tokenize_joined hne.1 hblanks.1 hne.2 hblanks.2 "x1" "2 é"
  rw [ha, hb] at hjoined
  have hread : tokenize ("x1" ++ blanks ++ "2 é") = .error (.strayCharacter 'é' 8) := hjoined
  rw [hread] at hunplaced
  exact ⟨hne.1, hblanks.1, hne.2, hblanks.2, ha, hb, hread, hunplaced.symm⟩

end Formula
