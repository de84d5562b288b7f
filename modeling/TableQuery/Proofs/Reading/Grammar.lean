import TableQuery.Proofs.Reading.Spelling
import TableQuery.Sql.Expression

/-!
# The grammar of expressions

Which lexemes spell which expression. A phrase is a part of an expression at one level of tightness;
four levels are chains, which grow to the right one operator and one operand at a time, so that they
lean to the left. What may stand behind a phrase without becoming part of it is told from its first
lexeme alone: each lexeme has the number of the tightest level that it can continue.
-/

namespace TableQuery.Sql

/-- The levels that chain their operands. -/
inductive Chained where
  | product
  | sum
  | conjunction
  | disjunction

/-- The levels of expressions. -/
inductive Phrase where
  | primary
  | signed
  | comparison
  | negation
  | chain (c : Chained)

namespace Chained

/-- The operator that a lexeme is at a level. -/
def op? : Chained → Lexeme → Option BinaryOp
  | .product => productOp?
  | .sum => sumOp?
  | .conjunction => andOp?
  | .disjunction => orOp?

/-- What a level chains. -/
def operand : Chained → Phrase
  | .product => .signed
  | .sum => .chain .product
  | .conjunction => .negation
  | .disjunction => .chain .conjunction

end Chained

/-- Whole expressions. -/
abbrev Phrase.whole : Phrase :=
  .chain .disjunction

/-- The word `NOT` of a negated test, and no word of any other. -/
inductive NotWord : Bool → List Lexeme → Prop where
  | absent : NotWord false []
  | present {l : Lexeme} (h : l.isKeyword .not = true) : NotWord true [l]

/-- Lists of lexemes with commas between them, one more comma if `trailing`, and a closing
parenthesis. -/
def listed (parts : List (List Lexeme)) (trailing : Bool) : List Lexeme :=
  [Lexeme.comma].intercalate parts ++ (if trailing then [.comma] else []) ++ [.closeParen]

/-- Whether the first lexeme, if there is one, is another word. -/
def NotFirst (k : Keyword) (ls : List Lexeme) : Prop :=
  ∀ l ∈ ls.head?, l.isKeyword k = false

@[simp]
theorem notFirst_cons {k : Keyword} {l : Lexeme} {ls : List Lexeme} :
    NotFirst k (l :: ls) ↔ l.isKeyword k = false := by
  simp [NotFirst]

theorem NotFirst.append {k : Keyword} {ls : List Lexeme} (h : NotFirst k ls) (hne : ls ≠ [])
    (ms : List Lexeme) : NotFirst k (ls ++ ms) := by
  obtain ⟨l, ls, rfl⟩ := List.exists_cons_of_ne_nil hne
  exact h

/-- What is not first in all is not first in the front, which may be empty. -/
theorem NotFirst.of_append {k : Keyword} {ls ms : List Lexeme} (h : NotFirst k (ls ++ ms)) :
    NotFirst k ls := by
  cases ls with
  | nil => exact nofun
  | cons l ls => exact h

/-- The lexemes that spell an expression at a level. -/
inductive Derives : Phrase → List Lexeme → Expr → Prop where
  | number (digits : String) : Derives .primary [.number digits] (.literal (numberLiteral digits))
  | literal (s : String) : Derives .primary [.literal s] (.literal (.str s))
  | word {w : String} {x : Scalar} (h : wordLiteral? w = some x) :
      Derives .primary [.name w] (.literal x)
  | column {w : String} (h : Keyword.isReserved w = false) : Derives .primary [.name w] (.column w)
  | countStar {w : String} (h : Text.upper w = "COUNT") :
      Derives .primary [.name w, .openParen, .sign .star, .closeParen] .countStar
  | call {w : String} {parts : List (List Lexeme × Expr)} (hw : wordLiteral? w = none)
      (hdistinct : NotFirst .distinct (listed (parts.map Prod.fst) false))
      (hselect : NotFirst .select (listed (parts.map Prod.fst) false))
      (h : ∀ part ∈ parts, Derives .whole part.1 part.2) :
      Derives .primary (.name w :: .openParen :: listed (parts.map Prod.fst) false)
        (.call (Text.upper w) (parts.map Prod.snd))
  | parens {ls : List Lexeme} {e : Expr} (hselect : NotFirst .select ls) (h : Derives .whole ls e) :
      Derives .primary (.openParen :: ls ++ [.closeParen]) e
  | unsigned {ls : List Lexeme} {e : Expr} (h : Derives .primary ls e) : Derives .signed ls e
  | minus {ls : List Lexeme} {e : Expr} (h : Derives .signed ls e) :
      Derives .signed (.sign .minus :: ls) (negated e)
  | plus {ls : List Lexeme} {e : Expr} (h : Derives .signed ls e) :
      Derives .signed (.sign .plus :: ls) e
  | first {c : Chained} {ls : List Lexeme} {e : Expr} (h : Derives c.operand ls e) :
      Derives (.chain c) ls e
  | next {c : Chained} {ls ms : List Lexeme} {l : Lexeme} {op : BinaryOp} {left right : Expr}
      (hleft : Derives (.chain c) ls left) (hop : c.op? l = some op)
      (hright : Derives c.operand ms right) :
      Derives (.chain c) (ls ++ l :: ms) (.binary op left right)
  | bare {ls : List Lexeme} {e : Expr} (h : Derives (.chain .sum) ls e) : Derives .comparison ls e
  | compared {ls ms : List Lexeme} {l : Lexeme} {op : BinaryOp} {left right : Expr}
      (hleft : Derives (.chain .sum) ls left) (hop : comparisonOp? l = some op)
      (hright : Derives (.chain .sum) ms right) :
      Derives .comparison (ls ++ l :: ms) (.binary op left right)
  | isNull {ls ns : List Lexeme} {l m : Lexeme} {e : Expr} {negated : Bool}
      (h : Derives (.chain .sum) ls e) (hl : l.isKeyword .is = true) (hn : NotWord negated ns)
      (hm : m.isKeyword .null = true) :
      Derives .comparison (ls ++ l :: ns ++ [m]) (.isNull e negated)
  | inList {ls ns : List Lexeme} {l : Lexeme} {e : Expr} {negated trailing : Bool}
      {parts : List (List Lexeme × Expr)} (h : Derives (.chain .sum) ls e) (hn : NotWord negated ns)
      (hl : l.isKeyword .in = true)
      (hselect : NotFirst .select (listed (parts.map Prod.fst) trailing))
      (htrailing : trailing = true → parts ≠ [])
      (hparts : ∀ part ∈ parts, Derives .whole part.1 part.2) :
      Derives .comparison
        (ls ++ ns ++ l :: .openParen :: listed (parts.map Prod.fst) trailing)
        (.inList e (parts.map Prod.snd) negated)
  | positive {ls : List Lexeme} {e : Expr} (hnot : NotFirst .not ls) (h : Derives .comparison ls e) :
      Derives .negation ls e
  | not {l : Lexeme} {ls : List Lexeme} {e : Expr} (hl : l.isKeyword .not = true)
      (h : Derives .negation ls e) : Derives .negation (l :: ls) (.not e)

/-! ## What can stand behind a phrase -/

/-- The tightest level that a lexeme can continue, from the tightest. -/
def Lexeme.looseness (l : Lexeme) : Nat :=
  if l = .openParen then 0
  else if (productOp? l).isSome then 1
  else if (sumOp? l).isSome then 2
  else if (comparisonOp? l).isSome ∨ l.isKeyword .is ∨ l.isKeyword .in ∨ l.isKeyword .not then 3
  else if l.isKeyword .and then 4
  else if l.isKeyword .or then 5
  else 6

def Phrase.looseness : Phrase → Nat
  | .primary => 0
  | .signed => 0
  | .chain .product => 1
  | .chain .sum => 2
  | .comparison => 3
  | .negation => 3
  | .chain .conjunction => 4
  | .chain .disjunction => 5

/-- What stands behind a phrase does not continue it. -/
def Stops (p : Phrase) (rest : List Token) : Prop :=
  ∀ t ∈ rest.head?, p.looseness < t.lexeme.looseness

/-- Whether an expression can begin with a lexeme. -/
def Lexeme.begins : Lexeme → Bool
  | .name _ => true
  | .number _ => true
  | .literal _ => true
  | .openParen => true
  | .sign .plus => true
  | .sign .minus => true
  | _ => false

theorem Derives.exists_cons {p : Phrase} {ls : List Lexeme} {e : Expr} (h : Derives p ls e) :
    ∃ l tail, ls = l :: tail ∧ l.begins = true := by
  have name {l : Lexeme} {k : Keyword} (h : l.isKeyword k = true) : l.begins = true := by
    cases l <;> first | rfl | cases h
  induction h with
  | number | literal | word | column | countStar | call | parens | minus | plus =>
    exact ⟨_, _, rfl, rfl⟩
  | unsigned _ ih | first _ ih | bare _ ih | positive _ _ ih => exact ih
  | next _ _ _ ih _ | compared _ _ _ ih _ | isNull _ _ _ _ ih | inList _ _ _ _ _ _ ih _ =>
    obtain ⟨l, tail, rfl, hl⟩ := ih
    exact ⟨l, _, rfl, hl⟩
  | not hl => exact ⟨_, _, rfl, name hl⟩

end TableQuery.Sql
