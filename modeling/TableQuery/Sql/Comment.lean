/-!
# Comments

Two hyphens outside a string literal begin a comment that ends with the line; a slash and a star
begin one that ends at the matching star and slash, comments inside it included. Line breaks are
kept, and a closed block comment leaves one blank, so that the words around it stay apart.
-/

namespace TableQuery.Sql

/-- Where a reader of query text stands. -/
inductive CommentState where
  /-- Outside comments; inside a string literal if a quote is given. -/
  | code (quote : Option Char)
  /-- In a comment that ends with the line. -/
  | line
  /-- In a block comment, inside so many others. -/
  | block (outer : Nat)
  deriving DecidableEq, Repr

/-- The open quote after one more character: a quote opens a literal, and the same quote closes
it. -/
def quoteAfter (quote : Option Char) (c : Char) : Option Char :=
  match quote with
  | none => if c = '\'' ∨ c = '"' then some c else none
  | some q => if c = q then none else some q

/-- The text without its comments, read from a given state on. -/
def stripFrom : CommentState → List Char → List Char
  | _, [] => []
  | .code none, '-' :: '-' :: cs => stripFrom .line cs
  | .code none, '/' :: '*' :: cs => stripFrom (.block 0) cs
  | .code q, c :: cs => c :: stripFrom (.code (quoteAfter q c)) cs
  | .line, c :: cs =>
    if c = '\n' then c :: stripFrom (.code none) cs else stripFrom .line cs
  | .block d, '/' :: '*' :: cs => stripFrom (.block (d + 1)) cs
  | .block 0, '*' :: '/' :: cs => ' ' :: stripFrom (.code none) cs
  | .block (d + 1), '*' :: '/' :: cs => stripFrom (.block d) cs
  | .block d, c :: cs =>
    if c = '\n' then c :: stripFrom (.block d) cs else stripFrom (.block d) cs

/-- A text without its comments. -/
def stripComments (text : String) : String :=
  String.ofList (stripFrom (.code none) text.toList)

/-- Line breaks survive in every state. -/
theorem count_newline_stripFrom (s : CommentState) (cs : List Char) :
    (stripFrom s cs).count '\n' = cs.count '\n' := by
  fun_induction stripFrom s cs <;> simp_all [List.count_cons]

end TableQuery.Sql
