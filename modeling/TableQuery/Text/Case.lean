/-!
# Letter case

Key words and function names compare without regard to the case of the twenty-six ASCII letters;
every other character compares as itself.
-/

namespace TableQuery.Text

/-- Write the ASCII letters of a text as capitals. -/
def upper (s : String) : String :=
  String.ofList (s.toList.map Char.toUpper)

/-- Equality up to the case of ASCII letters. -/
def sameLetters (s t : String) : Bool :=
  upper s == upper t

/-- Capitals that the letters outside ASCII lead to: the dotless i and the long s. -/
def capital (c : Char) : Char :=
  if c = 'ı' then 'I' else if c = 'ſ' then 'S' else c.toUpper

/-- Whether the capitals of a text spell an ASCII word. -/
def spells (s word : String) : Bool :=
  s.toList.map capital == word.toList

end TableQuery.Text
