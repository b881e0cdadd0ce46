import ExprLang.Token.Basic

/-!
# Diagnostics

A diagnostic is the cause of a failure and the position blamed for it.  Each
cause has a name, a message and, but for one case, a tip (`Cause.tip?`).  Messages
quote the text of a token (`Text.quote`), tips escape it (`Text.escape`), save that
the tip for a number shows the number as it stands.
-/

namespace ExprLang

/-- Why parsing failed. -/
inductive Cause where
  /-- A token of one kind was required and another stood there. -/
  | unexpectedToken (expected found : TokenKind) (literal : String)
  /-- No expression starts with the token. -/
  | noPrefixRule (kind : TokenKind) (literal : String)
  /-- The text is no integer in range. -/
  | badNumber (literal : String)
  /-- Expressions are nested in each other more than `limit` deep. -/
  | nestingTooDeep (limit : Nat)
deriving DecidableEq, Repr, Inhabited

/-- The name of a cause. -/
def Cause.name : Cause → String
  | unexpectedToken .. => "UnexpectedToken"
  | noPrefixRule .. => "NoPrefixParseFn"
  | badNumber .. => "NumberParseError"
  | nestingTooDeep .. => "NestingTooDeep"

/-- What is said about a cause. -/
def Cause.message : Cause → String
  | unexpectedToken expected found literal =>
      "expected next token to be " ++ expected.name ++ ", got " ++ found.name ++ " (" ++
        Text.quote literal ++ ") instead"
  | noPrefixRule kind _ => "no prefix parse function for " ++ kind.name ++ " found"
  | badNumber literal => "could not parse " ++ Text.quote literal ++ " as integer"
  | nestingTooDeep limit =>
      "expression nesting is too deep (maximum " ++ toString limit ++ " levels)"

/-- What might help.  A token that starts no expression gets a tip only where it
is illegal or the end of the source. -/
def Cause.tip? : Cause → Option String
  | unexpectedToken expected _ literal =>
      some ("Expected " ++ expected.name ++ " here, found `" ++ Text.escape literal ++ "`")
  | noPrefixRule .illegal literal =>
      some ("Unrecognised character `" ++ Text.escape literal ++ "`")
  | noPrefixRule .eof _ => some "Unexpected end of input"
  | noPrefixRule _ _ => none
  | badNumber literal =>
      some ("Invalid number: `" ++ literal ++ "`, is it above the integer limit?")
  | nestingTooDeep _ => some "Split the expression into smaller `let` bindings"

/-- A cause with the position blamed. -/
structure Diagnostic where
  /-- Why parsing failed. -/
  cause : Cause
  /-- The place blamed for it. -/
  position : Position
deriving DecidableEq, Repr, Inhabited

namespace Diagnostic

/-- The diagnostic for a token that stands where another kind is required. -/
def unexpected (expected : TokenKind) (t : Token) : Diagnostic :=
  ⟨.unexpectedToken expected t.kind t.literal, t.span.start⟩

/-- The name of the cause. -/
def name (d : Diagnostic) : String := d.cause.name

/-- What is said about the cause. -/
def message (d : Diagnostic) : String := d.cause.message

/-- What might help. -/
def tip? (d : Diagnostic) : Option String := d.cause.tip?

instance : ToString Diagnostic := ⟨message⟩

end Diagnostic

end ExprLang
