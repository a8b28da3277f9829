import Formula.Expr.Draft
/-!
# The expression of tokens

Tokens are read into a draft from the first to the last, or up to one that cannot stand where it is. The
calls closed on the way are noted whatever comes after them.
-/

namespace Formula

/-- What came of reading tokens: the calls closed on the way, in order, and the expression. -/
structure Reading where
  calls : List Call
  result : Except SyntaxError Expr

/-- Reads all the tokens that are left. -/
def Draft.read (limit : Nat) (d : Draft) : List Token → Reading
  | [] => ⟨d.calls.reverse, d.finish limit⟩
  | t :: ts =>
    match d.push limit t with
    | .ok d => d.read limit ts
    | .error e => ⟨d.calls.reverse, .error e⟩

namespace Expr

/-- How deep an expression may be if nothing else is asked for. -/
def defaultLimit : Nat := 256

/-- Reads tokens under a limit on the depth. -/
def read (limit : Nat) (tokens : List Token) : Reading :=
  match Draft.start limit with
  | .ok d => d.read limit tokens
  | .error e => ⟨[], .error e⟩

/-- The expression that tokens make up. -/
def ofTokens (limit : Nat) (tokens : List Token) : Except SyntaxError Expr := (read limit tokens).result

end Expr

end Formula
