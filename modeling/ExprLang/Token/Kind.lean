/-!
# Kinds of token

`TokenKind` lists the kinds.  Words are letter runs, and seven of them are
keywords (`keywords`): `TokenKind.ofWord` gives the kind of a word.  Twelve kinds
are a single character each, and `TokenKind.ofChar?` gives the kind of such a
character.
-/

namespace ExprLang

/-- The kind of a token. -/
inductive TokenKind where
  /-- A character that starts no other token. -/
  | illegal
  /-- The end of the source. -/
  | eof
  | identifier
  | int
  | assign
  | plus
  | minus
  | bang
  | asterisk
  | slash
  | less
  | greater
  | equals
  | notEquals
  | comma
  | semicolon
  | openParen
  | closeParen
  | openCurly
  | closeCurly
  | kwFn
  | kwLet
  | kwTrue
  | kwFalse
  | kwIf
  | kwElse
  | kwReturn
deriving DecidableEq, Repr, Inhabited

namespace TokenKind

/-- The name of a kind, as messages show it. -/
def name : TokenKind → String
  | illegal => "Illegal"
  | eof => "EOF"
  | identifier => "Identifier"
  | int => "Int"
  | assign => "Assign"
  | plus => "Plus"
  | minus => "Minus"
  | bang => "Bang"
  | asterisk => "Asterisk"
  | slash => "Slash"
  | less => "Less"
  | greater => "Greater"
  | equals => "Equals"
  | notEquals => "NotEquals"
  | comma => "Comma"
  | semicolon => "Semicolon"
  | openParen => "OpenParen"
  | closeParen => "CloseParen"
  | openCurly => "OpenCurly"
  | closeCurly => "CloseCurly"
  | kwFn => "Fn"
  | kwLet => "Let"
  | kwTrue => "True"
  | kwFalse => "False"
  | kwIf => "If"
  | kwElse => "Else"
  | kwReturn => "Return"

instance : ToString TokenKind := ⟨name⟩

/-- Every kind once. -/
def all : List TokenKind :=
  [illegal, eof, identifier, int, assign, plus, minus, bang, asterisk, slash, less, greater,
    equals, notEquals, comma, semicolon, openParen, closeParen, openCurly, closeCurly, kwFn,
    kwLet, kwTrue, kwFalse, kwIf, kwElse, kwReturn]

theorem mem_all (k : TokenKind) : k ∈ all := by cases k <;> decide

/-- The kind with a given name. -/
def ofName? (s : String) : Option TokenKind := all.find? fun k => k.name == s

/-! ## Words -/

/-- The words that are no identifiers, with their kinds. -/
def keywords : List (String × TokenKind) :=
  [("fn", kwFn), ("let", kwLet), ("true", kwTrue), ("false", kwFalse), ("if", kwIf),
    ("else", kwElse), ("return", kwReturn)]

/-- Is a word reserved? -/
def isKeyword (word : String) : Bool := (keywords.lookup word).isSome

/-- The kind of a word: its own if it is a keyword, else identifier. -/
def ofWord (word : String) : TokenKind := (keywords.lookup word).getD identifier

/-- A word is an identifier exactly when it is no keyword. -/
theorem ofWord_eq_identifier_iff (word : String) :
    ofWord word = identifier ↔ isKeyword word = false := by
  have keyword_ne : ∀ p ∈ keywords, p.2 ≠ identifier := by decide
  unfold ofWord isKeyword
  cases h : keywords.lookup word with
  | none => simp
  | some k =>
    obtain ⟨l₁, l₂, h, -⟩ := List.lookup_eq_some_iff.1 h
    simpa using keyword_ne (word, k) (h ▸ by simp)

/-! ## Single characters -/

/-- The kind of a character that is a token whatever follows it. -/
def ofChar? : Char → Option TokenKind
  | '+' => some plus
  | ',' => some comma
  | ';' => some semicolon
  | '(' => some openParen
  | ')' => some closeParen
  | '\x7b' => some openCurly
  | '\x7d' => some closeCurly
  | '-' => some minus
  | '*' => some asterisk
  | '/' => some slash
  | '<' => some less
  | '>' => some greater
  | _ => none

/-- The kind of a byte that is a token whatever follows it.  A byte outside ASCII
is none. -/
def ofByte? (b : UInt8) : Option TokenKind := ofChar? (Char.ofUInt8 b)

end TokenKind

end ExprLang
