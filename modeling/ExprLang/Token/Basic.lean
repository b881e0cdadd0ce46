import ExprLang.Source.Position
import ExprLang.Text.Quoted
import ExprLang.Token.Kind

/-!
# Tokens

A token is a stretch of the source with a kind.  The token at the end of the
source is empty there and carries a NUL as its text (`Token.endOf`).
-/

namespace ExprLang

/-- A stretch of the source with its kind and its text. -/
structure Token where
  /-- What it is. -/
  kind : TokenKind
  /-- Its text. -/
  literal : String
  /-- Where it stands. -/
  span : Span
deriving DecidableEq, Repr, Inhabited

namespace Token

/-- The token that ends a source of `length` bytes. -/
def endOf (file : String) (length : Nat) : Token :=
  ⟨.eof, "\x00", Span.between file length length⟩

/-- The kind and the quoted text of a token. -/
def describe (t : Token) : String := t.kind.name ++ " (" ++ Text.quote t.literal ++ ")"

instance : ToString Token := ⟨describe⟩

end Token

end ExprLang
