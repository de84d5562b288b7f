import TableQuery.Sql.SyntaxError
import TableQuery.Sql.Token
import TableQuery.Text.Offset

/-!
# From text to tokens

Every token is the longest that begins at its place. Blanks separate tokens and belong to none.
One step reads a single token and says which characters it covers and what follows; the steps are
then repeated over the whole text.
-/

namespace TableQuery.Sql

/-- A lexeme, the characters that spell it, and the text behind them. -/
structure Scanned where
  lexeme : Lexeme
  spelling : List Char
  rest : List Char

/-- Whether a bare name can begin with the character. -/
def beginsName (c : Char) : Bool :=
  c.isAlpha || c == '_' || c == '@'

/-- Whether a bare name can go on with the character; hyphens belong to outside names only. -/
def continuesName (external : Bool) (c : Char) : Bool :=
  c.isAlphanum || c == '_' || c == '.' || c == '$' || (external && c == '-')

/-- A string literal behind its opening quote: its content, the characters that spell the rest of
it, and what follows. A doubled quote stands for one and goes on with the literal. -/
def scanLiteral (quote : Char) : List Char → Option (List Char × List Char × List Char)
  | [] => none
  | c :: cs =>
    if c ≠ quote then
      (scanLiteral quote cs).map fun (content, spelling, rest) =>
        (c :: content, c :: spelling, rest)
    else
      match cs with
      | [] => some ([], [c], [])
      | d :: ds =>
        if d = quote then
          (scanLiteral quote ds).map fun (content, spelling, rest) =>
            (quote :: content, quote :: quote :: spelling, rest)
        else some ([], [c], d :: ds)

/-- The digits at the front of a text, and the point and digits that may follow them. A point with
no digit behind it is left over. -/
def scanNumber (cs : List Char) : List Char × List Char :=
  let whole := cs.takeWhile Char.isDigit
  match cs.dropWhile Char.isDigit with
  | '.' :: d :: rest =>
    if d.isDigit then
      (whole ++ '.' :: (d :: rest).takeWhile Char.isDigit, (d :: rest).dropWhile Char.isDigit)
    else (whole, '.' :: d :: rest)
  | rest => (whole, rest)

/-- The sign at the front of a text. -/
def scanSign? : List Char → Option Scanned
  | '=' :: '=' :: cs => some ⟨.sign .doubleEqual, ['=', '='], cs⟩
  | '=' :: cs => some ⟨.sign .equal, ['='], cs⟩
  | '!' :: '=' :: cs => some ⟨.sign .notEqual, ['!', '='], cs⟩
  | '<' :: '=' :: cs => some ⟨.sign .lessEqual, ['<', '='], cs⟩
  | '<' :: '>' :: cs => some ⟨.sign .notEqual, ['<', '>'], cs⟩
  | '<' :: cs => some ⟨.sign .less, ['<'], cs⟩
  | '>' :: '=' :: cs => some ⟨.sign .greaterEqual, ['>', '='], cs⟩
  | '>' :: cs => some ⟨.sign .greater, ['>'], cs⟩
  | '+' :: cs => some ⟨.sign .plus, ['+'], cs⟩
  | '-' :: cs => some ⟨.sign .minus, ['-'], cs⟩
  | '*' :: cs => some ⟨.sign .star, ['*'], cs⟩
  | '/' :: cs => some ⟨.sign .slash, ['/'], cs⟩
  | '%' :: cs => some ⟨.sign .percent, ['%'], cs⟩
  | '(' :: cs => some ⟨.openParen, ['('], cs⟩
  | ')' :: cs => some ⟨.closeParen, [')'], cs⟩
  | ',' :: cs => some ⟨.comma, [','], cs⟩
  | ';' :: cs => some ⟨.semicolon, [';'], cs⟩
  | _ => none

/-- The token that begins with the character `c` at byte `offset`. Only behind an at sign may a name
hold hyphens. -/
def scan (offset : Nat) (c : Char) (cs : List Char) : Except SyntaxError Scanned :=
  match scanSign? (c :: cs) with
  | some s => .ok s
  | none =>
    if c = '!' then .error (.loneExclamation offset)
    else if c = '\'' ∨ c = '"' then
      match scanLiteral c cs with
      | some (content, spelling, rest) =>
        .ok ⟨.literal (String.ofList content), c :: spelling, rest⟩
      | none => .error (.unterminatedString offset)
    else if c = '\x60' then
      match cs.dropWhile (· ≠ '\x60') with
      | [] => .error (.unterminatedName offset)
      | closing :: rest =>
        let content := cs.takeWhile (· ≠ '\x60')
        .ok ⟨.name (String.ofList content), c :: content ++ [closing], rest⟩
    else if c.isDigit then
      let (spelling, rest) := scanNumber (c :: cs)
      .ok ⟨.number (String.ofList spelling), spelling, rest⟩
    else if beginsName c then
      let part := continuesName (c == '@')
      let spelling := c :: cs.takeWhile part
      .ok ⟨.name (String.ofList spelling), spelling, cs.dropWhile part⟩
    else .error (.strayCharacter c offset)

theorem scanLiteral_eq {quote : Char} {cs content spelling rest : List Char}
    (h : scanLiteral quote cs = some (content, spelling, rest)) : spelling ++ rest = cs := by
  fun_induction scanLiteral quote cs generalizing content spelling rest with
  | case1 => cases h
  | case2 c cs hc ih =>
    obtain ⟨⟨a, b, r⟩, hu, he⟩ := Option.map_eq_some_iff.1 h
    cases he
    simp [ih hu]
  | case3 => cases h; rfl
  | case4 c cs hc ih =>
    obtain ⟨⟨a, b, r⟩, hu, he⟩ := Option.map_eq_some_iff.1 h
    cases he
    simp_all
  | case5 => cases h; rfl

theorem scanNumber_eq (cs : List Char) : (scanNumber cs).1 ++ (scanNumber cs).2 = cs := by
  unfold scanNumber
  have h := List.takeWhile_append_dropWhile (p := Char.isDigit) (l := cs)
  split
  · next d rest he =>
    split
    · next hd =>
      rw [he] at h
      simp only [List.append_assoc, List.cons_append, List.takeWhile_append_dropWhile, h]
    · rw [he] at h; exact h
  · exact h

theorem scanNumber_ne_nil {c : Char} {cs : List Char} (h : c.isDigit = true) :
    (scanNumber (c :: cs)).1 ≠ [] := by
  unfold scanNumber
  split
  · split <;> simp [h]
  · simp [h]

theorem scanSign?_eq {cs : List Char} {s : Scanned} (h : scanSign? cs = some s) :
    s.spelling ++ s.rest = cs ∧ s.spelling ≠ [] := by
  unfold scanSign? at h
  split at h <;> cases h <;> exact ⟨rfl, by simp⟩

/-- A token covers the front of the text, and the rest follows it. -/
theorem scan_eq {offset : Nat} {c : Char} {cs : List Char} {s : Scanned}
    (h : scan offset c cs = .ok s) : s.spelling ++ s.rest = c :: cs ∧ s.spelling ≠ [] := by
  unfold scan at h
  split at h
  · next hs => cases h; exact scanSign?_eq hs
  · split at h
    · cases h
    · split at h
      · split at h
        · next hl => cases h; exact ⟨by simp [scanLiteral_eq hl], by simp⟩
        · cases h
      · split at h
        · next hq =>
          split at h
          · cases h
          · next closing rest hd =>
            cases h
            refine ⟨?_, by simp⟩
            have ht := List.takeWhile_append_dropWhile (p := (· ≠ '\x60')) (l := cs)
            rw [hd] at ht
            simpa using ht
        · split at h
          · next hd =>
            cases h
            exact ⟨scanNumber_eq _, scanNumber_ne_nil hd⟩
          · split at h
            · cases h
              exact ⟨by simp, by simp⟩
            · cases h

/-- What follows a token is shorter than the text it begins. -/
theorem length_rest_lt {offset : Nat} {c : Char} {cs : List Char} {s : Scanned}
    (h : scan offset c cs = .ok s) : s.rest.length < cs.length + 1 := by
  obtain ⟨he, hn⟩ := scan_eq h
  have : (s.spelling ++ s.rest).length = (c :: cs).length := by rw [he]
  have hp := List.length_pos_iff.2 hn
  rw [List.length_append, List.length_cons] at this
  omega

/-- The tokens of a text whose first character is at byte `offset`. -/
def tokensFrom (offset : Nat) : List Char → Except SyntaxError (List Token)
  | [] => .ok []
  | c :: cs =>
    if Text.isBlank c then tokensFrom (offset + c.utf8Size) cs
    else
      match h : scan offset c cs with
      | .error e => .error e
      | .ok s =>
        have := length_rest_lt h
        let stop := offset + Text.byteLength s.spelling
        match tokensFrom stop s.rest with
        | .error e => .error e
        | .ok ts => .ok (⟨s.lexeme, offset, stop⟩ :: ts)
termination_by cs => cs.length
decreasing_by all_goals grind

/-- The tokens of a text. -/
def tokenize (text : String) : Except SyntaxError (List Token) :=
  tokensFrom 0 text.toList

end TableQuery.Sql
