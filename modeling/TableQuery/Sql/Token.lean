import TableQuery.Sql.Keyword

/-!
# Tokens

A query text is read as a list of tokens. Each knows the bytes of the text it covers. A word in
backquotes is a name like any other, so it too can spell a key word.
-/

namespace TableQuery.Sql

/-- The signs of the operators. -/
inductive Sign where
  | plus
  | minus
  | star
  | slash
  | percent
  | equal
  | doubleEqual
  | notEqual
  | less
  | lessEqual
  | greater
  | greaterEqual
  deriving DecidableEq, Repr, Inhabited

/-- The text of a sign. -/
def Sign.text : Sign → String
  | .plus => "+"
  | .minus => "-"
  | .star => "*"
  | .slash => "/"
  | .percent => "%"
  | .equal => "="
  | .doubleEqual => "=="
  | .notEqual => "!="
  | .less => "<"
  | .lessEqual => "<="
  | .greater => ">"
  | .greaterEqual => ">="

inductive Lexeme where
  /-- A bare or backquoted name; it may hold dots, and an outside name begins with `@`. -/
  | name (text : String)
  /-- Digits, possibly with one point between them. -/
  | number (text : String)
  /-- A string literal, without its quotes. -/
  | literal (text : String)
  | sign (s : Sign)
  | openParen
  | closeParen
  | comma
  | semicolon
  deriving DecidableEq, Repr, Inhabited

/-- Whether a lexeme is a name that spells the key word. -/
def Lexeme.isKeyword (l : Lexeme) (k : Keyword) : Bool :=
  match l with
  | .name s => Text.upper s == k.word
  | _ => false

/-- A lexeme at the bytes from `start` up to `stop`. -/
structure Token where
  lexeme : Lexeme
  start : Nat
  stop : Nat
  deriving DecidableEq, Repr, Inhabited

namespace Token

/-- Whether a token is a name that spells the key word. -/
def isKeyword (t : Token) (k : Keyword) : Bool :=
  t.lexeme.isKeyword k

end Token

/-- Whether the next token spells the key word. -/
def nextIsKeyword (k : Keyword) (ts : List Token) : Bool :=
  ts.head?.any (·.isKeyword k)

/-- What follows the key word, if it comes next. -/
def afterKeyword? (k : Keyword) : List Token → Option (List Token)
  | t :: ts => if t.isKeyword k then some ts else none
  | [] => none

/-- What follows the lexeme, if it comes next. -/
def after? (l : Lexeme) : List Token → Option (List Token)
  | t :: ts => if t.lexeme = l then some ts else none
  | [] => none

theorem length_after? {l : Lexeme} {ts rest : List Token}
    (h : after? l ts = some rest) : rest.length < ts.length := by
  cases ts with
  | nil => cases h
  | cons t ts => simp only [after?] at h; split at h <;> simp_all

end TableQuery.Sql
