import TableQuery.Proofs.Reading.Completeness

/-!
# The descent of the readers

The readers of expressions call one another, and go round their loops, in a way that the token list
alone decides. Here every reader, and every round of a loop, is a call that is answered by further
calls; how deep the calls go is not bounded beforehand. They end nevertheless, since each of them is
made on fewer tokens, or on the same tokens at a tighter level. What the readers take is never
nothing, and never more than there is; and no integer they give is the least one, so that every
integer they give has a negative.
-/

namespace TableQuery.Sql

/-! ## Calls -/

/-- The lists that stand in parentheses. -/
inductive Listing where
  /-- The arguments of a function. -/
  | arguments (function : String)
  /-- The list of a membership test. -/
  | members (operand : Expr) (negated : Bool)

namespace Listing

/-- What should have come behind an item. -/
def wanted : Listing → Wanted
  | .arguments _ => .moreArguments
  | .members _ _ => .moreInList

/-- Whether a comma may stand behind the last item. -/
def trailing : Listing → Bool
  | .arguments _ => false
  | .members _ _ => true

/-- The expression with the items in its list. -/
def expr : Listing → List Expr → Expr
  | .arguments function, items => .call function items
  | .members operand negated, items => .inList operand items negated

end Listing

/-- What is called in reading an expression. -/
inductive Call where
  /-- The reader of a level. -/
  | level (p : Phrase)
  /-- The reader of the arguments of a function, behind the opening parenthesis. -/
  | arguments (function : String)
  /-- One more round of a chain, behind what it has read. -/
  | round (c : Chained) (left : Expr)
  /-- One more item of a list, behind those that were found. -/
  | item (l : Listing) (found : List Expr)

/-- The items of a list, none included. -/
def enclosed (again : Call → Reader Expr) (l : Listing) : Reader Expr := fun ts =>
  match after? .closeParen ts with
  | some rest => .ok (l.expr [], rest)
  | none => again (.item l []) ts

section

variable (src : List Char)

/-- What a call comes to in terms of the calls that it makes itself. -/
def step (again : Call → Reader Expr) (call : Call) (ts : List Token) :
    Except SyntaxError (Expr × List Token) :=
  match call with
  | .level (.chain c) => do
    let (left, rest) ← again (.level c.operand) ts
    again (.round c left) rest
  | .round c left =>
    match ts with
    | [] => .ok (left, [])
    | t :: rest =>
      match c.op? t.lexeme with
      | none => .ok (left, t :: rest)
      | some op => do
        let (right, rest) ← again (.level c.operand) rest
        again (.round c (.binary op left right)) rest
  | .level .negation =>
    match afterKeyword? .not ts with
    | some rest => do
      let (e, rest) ← again (.level .negation) rest
      return (.not e, rest)
    | none => again (.level .comparison) ts
  | .level .comparison => do
    let (left, rest) ← again (.level (.chain .sum)) ts
    match afterKeyword? .is rest, membership? rest with
    | some rest, _ => nullTest src left rest
    | none, some (negated, rest) =>
      match after? .openParen rest with
      | none => .error (misfit src .listAfterIn rest)
      | some rest =>
        if nextIsKeyword .select rest then .error .subquery
        else enclosed again (.members left negated) rest
    | none, none =>
      match rest with
      | [] => return (left, [])
      | t :: behind =>
        match comparisonOp? t.lexeme with
        | none => return (left, t :: behind)
        | some op => do
          let (right, rest) ← again (.level (.chain .sum)) behind
          return (.binary op left right, rest)
  | .level .signed =>
    match after? (.sign .minus) ts, after? (.sign .plus) ts with
    | some rest, _ => do
      let (e, rest) ← again (.level .signed) rest
      return (negated e, rest)
    | none, some rest => again (.level .signed) rest
    | none, none => again (.level .primary) ts
  | .level .primary =>
    match ts with
    | [] => .error (misfit src .expression [])
    | t :: rest =>
      match t.lexeme with
      | .number digits => .ok (.literal (numberLiteral digits), rest)
      | .literal s => .ok (.literal (.str s), rest)
      | .name word =>
        match wordLiteral? word, after? .openParen rest with
        | some x, _ => .ok (.literal x, rest)
        | none, some rest => again (.arguments (Text.upper word)) rest
        | none, none =>
          if Keyword.isReserved word then .error (misfit src .expression (t :: rest))
          else .ok (.column word, rest)
      | .openParen =>
        if nextIsKeyword .select rest then .error .subquery
        else do
          let (e, rest) ← again (.level .whole) rest
          match after? .closeParen rest with
          | some rest => return (e, rest)
          | none => .error (misfit src .closing rest)
      | _ => .error (misfit src .expression (t :: rest))
  | .arguments function =>
    if nextIsKeyword .distinct ts then .error (.distinctArgument function)
    else if nextIsKeyword .select ts then .error .subquery
    else
      match after? (.sign .star) ts with
      | some rest =>
        match after? .closeParen rest with
        | none => .error (misfit src .closingAfterStar rest)
        | some rest =>
          if function ≠ "COUNT" then .error (.starArgument function) else .ok (.countStar, rest)
      | none => enclosed again (.arguments function) ts
  | .item l found => do
    let (e, rest) ← again (.level .whole) ts
    match after? .comma rest, after? .closeParen rest with
    | some rest, _ =>
      match after? .closeParen rest, l.trailing with
      | some rest, true => return (l.expr (found ++ [e]), rest)
      | _, _ => again (.item l (found ++ [e])) rest
    | none, some rest => return (l.expr (found ++ [e]), rest)
    | none, none => .error (misfit src l.wanted rest)

/-- A call with the calls it makes, `n` deep; what is called beyond that is answered by `again`. -/
def unrolled (again : Call → Reader Expr) : Nat → Call → Reader Expr
  | 0 => again
  | n + 1 => step src (unrolled again n)

/-- What the readers answer to a call, given the reader for what stands in parentheses; loops go
round at most `bound` times. -/
def answer (expr : Reader Expr) (bound : Nat) (call : Call) (ts : List Token) :
    Except SyntaxError (Expr × List Token) :=
  match call with
  | .level p => levelReader src expr p ts
  | .arguments function => callBody src function expr ts
  | .round c left => chainFrom c.op? (levelReader src expr c.operand) bound left ts
  | .item l found => do
    let (es, rest) ← itemsFrom src l.wanted l.trailing expr bound ts
    return (l.expr (found ++ es), rest)

end

/-- How loose a call is: on the same tokens, it only makes calls that are less so. -/
def Call.weight : Call → Nat
  | .level .primary => 0
  | .level .signed => 1
  | .level (.chain .product) => 2
  | .level (.chain .sum) => 3
  | .level .comparison => 4
  | .level .negation => 5
  | .level (.chain .conjunction) => 6
  | .level (.chain .disjunction) => 7
  | .item _ _ => 8
  | .arguments _ => 9
  | .round _ _ => 0

/-- The more tokens there are, and the looser a call on them is, the deeper it goes. -/
def Call.depth (call : Call) (ts : List Token) : Nat :=
  10 * ts.length + call.weight

/-- The reader for what stands in parentheses is called on fewer tokens than this. It reads the
items of a list from the tokens that the list is given, and all else from fewer. -/
def Call.extent (call : Call) (ts : List Token) : Nat :=
  match call with
  | .level _ => ts.length
  | .round _ _ => ts.length
  | .arguments _ => ts.length + 1
  | .item _ _ => ts.length + 1

/-! ## One call -/

/-- Below `n` tokens, what stands in parentheses is a whole expression again. -/
def Recurs (src : List Char) (expr : Reader Expr) (n : Nat) : Prop :=
  ∀ ts, ts.length < n → expr ts = levelReader src expr .whole ts

/-- Calls less deep than `depth` are answered as the readers do. -/
def Answers (src : List Char) (expr : Reader Expr) (n depth : Nat) (run : Call → Reader Expr) :
    Prop :=
  ∀ (call : Call) ts bound, call.depth ts < depth → call.extent ts ≤ n → ts.length ≤ bound →
    run call ts = answer src expr bound call ts

theorem bind_congr_of_ok {ε α β : Type} {x : Except ε α} {f g : α → Except ε β}
    (h : ∀ a, x = .ok a → f a = g a) : x >>= f = x >>= g := by
  cases x with
  | error e => rfl
  | ok a => exact h a rfl

section

variable {src : List Char} {expr : Reader Expr} {ts rest : List Token} {e : Expr} {n : Nat}
  {run : Call → Reader Expr}

/-- A reader takes at least one token. -/
theorem length_lt_of_sound {read : Reader Expr} {p : Phrase} (h : Sound read p)
    (hr : read ts = .ok (e, rest)) : rest.length < ts.length := by
  obtain ⟨front, rfl, he⟩ := h _ _ _ hr
  have hpos : 0 < (lexemes front).length := List.length_pos_iff.2 he.ne_nil
  rw [length_lexemes] at hpos
  rw [List.length_append]
  omega

theorem Call.weight_le (call : Call) : call.weight ≤ 9 := by
  unfold weight
  split <;> decide

/-- A call on fewer tokens is less deep. -/
theorem Call.depth_lt_of_length {call other : Call} {us : List Token} (h : us.length < ts.length) :
    call.depth us < other.depth ts := by
  have := call.weight_le
  unfold depth
  omega

theorem Call.depth_lt_of_weight {call other : Call} (h : call.weight < other.weight) :
    call.depth ts < other.depth ts :=
  Nat.add_lt_add_left h _

theorem Call.extent_le (call : Call) (ts : List Token) : call.extent ts ≤ ts.length + 1 := by
  cases call <;> first | exact Nat.le_refl _ | exact Nat.le_succ _

/-- Calls on fewer tokens are answered as the readers do. -/
theorem Answers.shorter {call : Call} (hrun : Answers src expr n (call.depth ts) run)
    (hn : call.extent ts ≤ n) {other : Call} {us : List Token} {bound : Nat}
    (hus : us.length < ts.length) (hbound : us.length ≤ bound) :
    run other us = answer src expr bound other us := by
  refine hrun other us bound (Call.depth_lt_of_length hus) ?_ hbound
  have hextent : ts.length ≤ call.extent ts := by
    cases call <;> first | exact Nat.le_refl _ | exact Nat.le_succ _
  exact Nat.le_trans (other.extent_le us) (Nat.le_trans hus (Nat.le_trans hextent hn))

variable (hs : Sound expr .whole)

include hs

theorem step_chain (c : Chained) {bound : Nat} (hn : (Call.level (.chain c)).extent ts ≤ n)
    (hrun : Answers src expr n ((Call.level (.chain c)).depth ts) run) :
    step src run (.level (.chain c)) ts = answer src expr bound (.level (.chain c)) ts := by
  have hfirst : run (.level c.operand) ts = levelReader src expr c.operand ts :=
    hrun (.level c.operand) ts ts.length (Call.depth_lt_of_weight (by cases c <;> decide)) hn
      (Nat.le_refl _)
  rw [answer, levelReader_chain, chain, step, hfirst]
  refine bind_congr_of_ok ?_
  rintro ⟨left, rest⟩ hread
  exact hrun.shorter hn (length_lt_of_sound (sound_levelReader hs _) hread) (Nat.le_refl _)

theorem step_round (c : Chained) (left : Expr) {bound : Nat} (hn : (Call.round c left).extent ts ≤ n)
    (hbound : ts.length ≤ bound) (hrun : Answers src expr n ((Call.round c left).depth ts) run) :
    step src run (.round c left) ts = answer src expr bound (.round c left) ts := by
  cases ts with
  | nil => cases bound <;> rfl
  | cons t ts =>
    obtain ⟨bound, rfl⟩ := Nat.exists_eq_succ_of_ne_zero (Nat.ne_zero_of_lt hbound)
    have hlt : ts.length < (t :: ts).length := Nat.lt_succ_self _
    rw [answer, chainFrom, step]
    cases c.op? t.lexeme with
    | none => rfl
    | some op =>
      have hoperand : run (.level c.operand) ts = levelReader src expr c.operand ts :=
        hrun.shorter hn hlt (Nat.le_refl _)
      dsimp only
      rw [hoperand]
      refine bind_congr_of_ok ?_
      rintro ⟨right, rest⟩ hread
      have hrest := length_lt_of_sound (sound_levelReader hs _) hread
      exact hrun.shorter hn (Nat.lt_trans hrest hlt)
        (Nat.le_trans (Nat.le_of_lt hrest) (Nat.le_of_succ_le_succ hbound))

omit hs in
theorem step_negation {bound : Nat} (hn : (Call.level .negation).extent ts ≤ n)
    (hrun : Answers src expr n ((Call.level .negation).depth ts) run) :
    step src run (.level .negation) ts = answer src expr bound (.level .negation) ts := by
  have htest : run (.level .comparison) ts = levelReader src expr .comparison ts :=
    hrun (.level .comparison) ts ts.length (Call.depth_lt_of_weight (by decide)) hn (Nat.le_refl _)
  change _ = negation (levelReader src expr .comparison) ts
  rw [step]
  cases ts with
  | nil => exact htest
  | cons t ts =>
    rw [negation]
    by_cases ht : t.isKeyword .not
    · have hinner : run (.level .negation) ts = negation (levelReader src expr .comparison) ts :=
        hrun.shorter hn (Nat.lt_succ_self _) (Nat.le_refl _)
      rw [afterKeyword?_eq ht, if_pos ht, ← hinner]
    · rw [afterKeyword?_ne (by simpa [Token.isKeyword] using ht), if_neg ht]
      exact htest

omit hs in
theorem step_signed {bound : Nat} (hn : (Call.level .signed).extent ts ≤ n)
    (hrun : Answers src expr n ((Call.level .signed).depth ts) run) :
    step src run (.level .signed) ts = answer src expr bound (.level .signed) ts := by
  have hprimary : run (.level .primary) ts = primary src expr ts :=
    hrun (.level .primary) ts ts.length (Call.depth_lt_of_weight (by decide)) hn (Nat.le_refl _)
  change _ = signed (primary src expr) ts
  rw [step]
  cases ts with
  | nil => exact hprimary
  | cons t ts =>
    have hinner : run (.level .signed) ts = signed (primary src expr) ts :=
      hrun.shorter hn (Nat.lt_succ_self _) (Nat.le_refl _)
    by_cases hminus : t.lexeme = .sign .minus
    · rw [after?_eq hminus, signed, hminus, ← hinner]
    by_cases hplus : t.lexeme = .sign .plus
    · rw [after?_ne hminus, after?_eq hplus, signed, hplus, ← hinner]
    · have hbare : signed (primary src expr) (t :: ts) = primary src expr (t :: ts) := by
        unfold signed
        split <;> first | contradiction | rfl
      rw [after?_ne hminus, after?_ne hplus, hbare]
      exact hprimary

omit hs in
/-- At the end of the tokens an expression is wanted. -/
theorem levelReader_nil (p : Phrase) :
    levelReader src expr p [] = .error (misfit src .expression []) := by
  match p with
  | .primary | .signed | .comparison | .negation => rfl
  | .chain .product | .chain .sum | .chain .conjunction | .chain .disjunction => rfl

theorem step_item (hrec : Recurs src expr n) (l : Listing) (found : List Expr) {bound : Nat}
    (hn : (Call.item l found).extent ts ≤ n) (hbound : ts.length ≤ bound)
    (hrun : Answers src expr n ((Call.item l found).depth ts) run) :
    step src run (.item l found) ts = answer src expr bound (.item l found) ts := by
  have hfirst : run (.level .whole) ts = expr ts := by
    rw [hrec ts hn]
    exact hrun (.level .whole) ts ts.length (Call.depth_lt_of_weight (by simp [Call.weight]))
      (Nat.le_of_succ_le hn) (Nat.le_refl _)
  rw [step, answer, hfirst]
  cases bound with
  | zero =>
    obtain rfl := List.length_eq_zero_iff.1 (Nat.le_zero.1 hbound)
    rw [hrec [] hn, levelReader_nil]
    rfl
  | succ bound =>
    rw [itemsFrom]
    cases hread : expr ts with
    | error e => rfl
    | ok answer =>
      obtain ⟨e, rest⟩ := answer
      have hrest := length_lt_of_sound hs hread
      simp only [ok_bind]
      cases hcomma : after? .comma rest with
      | none => cases after? .closeParen rest <;> rfl
      | some more =>
        have hmore : more.length < rest.length := length_after? hcomma
        have hitem : run (.item l (found ++ [e])) more =
            answer src expr bound (.item l (found ++ [e])) more :=
          hrun.shorter hn (Nat.lt_trans hmore hrest) (by omega)
        have hagain : run (.item l (found ++ [e])) more = (do
            let (es, rest) ← itemsFrom src l.wanted l.trailing expr bound more
            return (l.expr (found ++ e :: es), rest)) := by
          rw [hitem, answer]
          simp only [List.append_assoc, List.singleton_append]
        simp only [hagain]
        cases after? .closeParen more with
        | none =>
          cases itemsFrom src l.wanted l.trailing expr bound more <;> rfl
        | some last =>
          cases l.trailing with
          | true => rfl
          | false => cases itemsFrom src l.wanted false expr bound more <;> rfl

omit hs in
theorem step_enclosed {l : Listing}
    (hitem : run (.item l []) ts = answer src expr ts.length (.item l []) ts) :
    enclosed run l ts = (do
      let (es, rest) ← items src l.wanted l.trailing expr ts
      return (l.expr es, rest)) := by
  rw [enclosed, items]
  cases after? .closeParen ts with
  | some rest => rfl
  | none => exact hitem

omit hs in
theorem step_arguments (function : String) {bound : Nat}
    (hn : (Call.arguments function).extent ts ≤ n)
    (hrun : Answers src expr n ((Call.arguments function).depth ts) run) :
    step src run (.arguments function) ts = answer src expr bound (.arguments function) ts := by
  have hitem := hrun (.item (.arguments function) []) ts ts.length
    (Call.depth_lt_of_weight (by simp [Call.weight])) hn (Nat.le_refl _)
  rw [step, answer, callBody, step_enclosed hitem]
  rfl

omit hs in
theorem step_primary (hrec : Recurs src expr n) {bound : Nat}
    (hn : (Call.level .primary).extent ts ≤ n)
    (hrun : Answers src expr n ((Call.level .primary).depth ts) run) :
    step src run (.level .primary) ts = answer src expr bound (.level .primary) ts := by
  change _ = primary src expr ts
  cases ts with
  | nil => rfl
  | cons t ts =>
    rw [step, primary]
    cases t.lexeme with
    | name word =>
      dsimp only
      rw [named]
      cases wordLiteral? word with
      | some x => rfl
      | none =>
        cases hopen : after? .openParen ts with
        | none => rfl
        | some rest =>
          exact hrun.shorter hn (Nat.lt_succ_of_lt (length_after? hopen)) (Nat.le_refl _)
    | openParen =>
      have hinner : run (.level .whole) ts = expr ts := by
        rw [hrec ts hn]
        exact hrun.shorter hn (Nat.lt_succ_self _) (Nat.le_refl _)
      exact hinner ▸ rfl
    | _ => rfl

theorem step_comparison {bound : Nat} (hn : (Call.level .comparison).extent ts ≤ n)
    (hrun : Answers src expr n ((Call.level .comparison).depth ts) run) :
    step src run (.level .comparison) ts = answer src expr bound (.level .comparison) ts := by
  have hsum {us : List Token} (hus : us.length ≤ ts.length) :
      run (.level (.chain .sum)) us = levelReader src expr (.chain .sum) us := by
    refine hrun (.level (.chain .sum)) us us.length ?_ (Nat.le_trans hus hn) (Nat.le_refl _)
    simp only [Call.depth, Call.weight]
    omega
  change _ = comparison src expr (levelReader src expr (.chain .sum)) ts
  rw [step, comparison, hsum (Nat.le_refl _)]
  refine bind_congr_of_ok ?_
  rintro ⟨left, rest⟩ hread
  have hrest := length_lt_of_sound (sound_levelReader hs _) hread
  dsimp only
  cases afterKeyword? .is rest with
  | some more => rfl
  | none =>
    cases hmember : membership? rest with
    | some found =>
      obtain ⟨negated, more⟩ := found
      have hmore : more.length < rest.length := by
        obtain ⟨front, t, rfl, -⟩ := membership?_eq_some hmember
        simp only [List.length_append, List.length_cons]
        omega
      dsimp only
      rw [memberList]
      cases hopen : after? .openParen more with
      | none => rfl
      | some behind =>
        have hbehind : behind.length < more.length := length_after? hopen
        have hitem : run (.item (.members left negated) []) behind =
            answer src expr behind.length (.item (.members left negated) []) behind :=
          hrun.shorter hn (by omega) (Nat.le_refl _)
        dsimp only
        rw [step_enclosed hitem]
        split <;> rfl
    | none =>
      cases rest with
      | nil => rfl
      | cons t behind =>
        dsimp only
        cases comparisonOp? t.lexeme with
        | none => rfl
        | some op =>
          rw [List.length_cons] at hrest
          dsimp only
          rw [hsum (by omega)]

/-- A call is answered as the readers do if the calls that it makes are. -/
theorem step_eq_answer (hrec : Recurs src expr n) {call : Call} {bound : Nat}
    (hn : call.extent ts ≤ n) (hbound : ts.length ≤ bound)
    (hrun : Answers src expr n (call.depth ts) run) :
    step src run call ts = answer src expr bound call ts := by
  match call with
  | .level .primary => exact step_primary hrec hn hrun
  | .level .signed => exact step_signed hn hrun
  | .level (.chain c) => exact step_chain hs c hn hrun
  | .level .comparison => exact step_comparison hs hn hrun
  | .level .negation => exact step_negation hn hrun
  | .arguments function => exact step_arguments function hn hrun
  | .round c left => exact step_round hs c left hn hbound hrun
  | .item l found => exact step_item hs hrec l found hn hbound hrun

/-- Calls are answered as the readers do once they are unrolled as deep as they go. -/
theorem unrolled_eq_answer (hrec : Recurs src expr n) (again : Call → Reader Expr) (depth : Nat) :
    Answers src expr n depth (unrolled src again depth) := by
  induction depth with
  | zero => exact fun _ _ _ h => absurd h (Nat.not_lt_zero _)
  | succ depth ih =>
    intro call ts bound hdepth hn hbound
    refine step_eq_answer hs hrec hn hbound fun other us b hother => ih other us b ?_
    exact Nat.lt_of_lt_of_le hother (Nat.le_of_lt_succ hdepth)

end

/-! ## Expressions in parentheses -/

section

variable {src : List Char}

/-- Readers for parentheses that are whole expressions again on fewer tokens read alike. -/
theorem levelReader_congr {expr expr' : Reader Expr} {n : Nat} (hs : Sound expr .whole)
    (hs' : Sound expr' .whole) (hrec : Recurs src expr n) (hrec' : Recurs src expr' n) {p : Phrase}
    {ts : List Token} (hts : ts.length ≤ n) :
    levelReader src expr p ts = levelReader src expr' p ts := by
  have hunrolled {expr : Reader Expr} (hs : Sound expr .whole) (hrec : Recurs src expr n) :
      unrolled src (fun _ => expression src) ((Call.level p).depth ts + 1) (.level p) ts =
        levelReader src expr p ts :=
    unrolled_eq_answer hs hrec _ _ (.level p) ts ts.length (Nat.lt_succ_self _) hts (Nat.le_refl _)
  rw [← hunrolled hs hrec, hunrolled hs' hrec']

/-- As many levels of parentheses as there are tokens are enough. -/
theorem recurs_exprWithin {n k : Nat} (h : n ≤ k + 1) : Recurs src (exprWithin src k) n := by
  induction n generalizing k with
  | zero => exact fun _ hts => absurd hts (Nat.not_lt_zero _)
  | succ n ih =>
    intro ts hts
    cases k with
    | zero =>
      obtain rfl := List.length_eq_zero_iff.1 (show ts.length = 0 by omega)
      rw [levelReader_nil]
      rfl
    | succ k =>
      change levelReader src (exprWithin src k) .whole ts = _
      exact levelReader_congr (sound_exprWithin k) (sound_exprWithin (k + 1)) (ih (by omega))
        (ih (by omega)) (Nat.le_of_lt_succ hts)

theorem recurs_expression (n : Nat) : Recurs src (expression src) n := by
  induction n with
  | zero => exact fun _ hts => absurd hts (Nat.not_lt_zero _)
  | succ n ih =>
    intro ts hts
    cases ts with
    | nil =>
      rw [levelReader_nil]
      rfl
    | cons t ts =>
      change levelReader src (exprWithin src ts.length) .whole (t :: ts) = _
      have hshorter : Recurs src (expression src) (t :: ts).length :=
        fun us hus => ih us (Nat.lt_of_lt_of_le hus (Nat.le_of_lt_succ hts))
      exact levelReader_congr (sound_exprWithin ts.length) sound_expression
        (recurs_exprWithin (Nat.le_refl _)) hshorter (Nat.le_refl _)

/-- What the readers answer to a call. -/
def reader (src : List Char) (call : Call) (ts : List Token) :
    Except SyntaxError (Expr × List Token) :=
  answer src (expression src) ts.length call ts

theorem unrolled_eq_reader (again : Call → Reader Expr) (call : Call) (ts : List Token) {n : Nat}
    (h : call.depth ts < n) : unrolled src again n call ts = reader src call ts :=
  unrolled_eq_answer sound_expression (recurs_expression (ts.length + 1)) again n call ts ts.length h
    (call.extent_le ts) (Nat.le_refl _)

end

end TableQuery.Sql

/-! ## Integers -/

namespace TableQuery.Expr

mutual

/-- The integers that stand in an expression, from left to right. -/
def integers : Expr → List Int64
  | .literal (.int i) => [i]
  | .literal _ => []
  | .column _ => []
  | .countStar => []
  | .call _ args => integersOfAll args
  | .neg e => integers e
  | .not e => integers e
  | .isNull e _ => integers e
  | .binary _ l r => integers l ++ integers r
  | .inList e items _ => integers e ++ integersOfAll items

def integersOfAll : List Expr → List Int64
  | [] => []
  | e :: es => integers e ++ integersOfAll es

end

theorem mem_integersOfAll {es : List Expr} {i : Int64} :
    i ∈ integersOfAll es ↔ ∃ e ∈ es, i ∈ e.integers := by
  induction es with
  | nil => simp [integersOfAll]
  | cons e es ih => simp [integersOfAll, ih]

/-- Whether every integer in an expression has a negative. -/
def Negatable (e : Expr) : Prop :=
  ∀ i ∈ e.integers, Int64.minValue < i

end TableQuery.Expr

namespace TableQuery.Sql

open TableQuery.Expr (Negatable)

theorem toInt_neg_of_minValue_lt {i : Int64} (h : Int64.minValue < i) : (-i).toInt = -i.toInt := by
  have hlt := Int64.lt_iff_toInt_lt.1 h
  have hvalue : Int64.minValue.toInt = -2 ^ 63 := rfl
  have hle := i.toInt_lt
  rw [Int64.toInt_neg]
  exact Int.bmod_eq_of_le (by omega) (by omega)

theorem minValue_lt_neg {i : Int64} (h : Int64.minValue < i) : Int64.minValue < -i := by
  have hle := i.toInt_lt
  have hvalue : Int64.minValue.toInt = -2 ^ 63 := rfl
  rw [Int64.lt_iff_toInt_lt, toInt_neg_of_minValue_lt h]
  omega

theorem negatable_numberLiteral (digits : String) : Negatable (.literal (numberLiteral digits)) := by
  intro i hi
  unfold numberLiteral at hi
  dsimp only at hi
  split at hi
  · cases hi
  split at hi
  · next j hj =>
    obtain rfl := List.mem_singleton.1 hi
    have hvalue : Int64.minValue.toInt = -2 ^ 63 := rfl
    rw [Int64.lt_iff_toInt_lt, Number.toInt_of_toInt64? hj]
    omega
  · cases hi

theorem negatable_negated {e : Expr} (h : Negatable e) : Negatable (negated e) := by
  unfold negated
  split
  · next i =>
    intro j hj
    obtain rfl := List.mem_singleton.1 hj
    exact minValue_lt_neg (h i (List.mem_singleton_self i))
  · exact nofun
  · exact h

theorem negatable_parts {parts : List (List Lexeme × Expr)}
    (h : ∀ part ∈ parts, Negatable part.2) {i : Int64}
    (hi : i ∈ Expr.integersOfAll (parts.map Prod.snd)) : Int64.minValue < i := by
  obtain ⟨e, he, hi⟩ := Expr.mem_integersOfAll.1 hi
  obtain ⟨part, hpart, rfl⟩ := List.mem_map.1 he
  exact h part hpart i hi

/-- Digits spell no integer below zero, and the negative of one is not the least integer. -/
theorem Derives.negatable {p : Phrase} {ls : List Lexeme} {e : Expr} (h : Derives p ls e) :
    Negatable e := by
  induction h with
  | number digits => exact negatable_numberLiteral digits
  | word hw =>
    unfold wordLiteral? at hw
    split at hw <;> cases hw <;> exact nofun
  | literal | column | countStar => exact nofun
  | call _ _ _ _ ih => exact fun i hi => negatable_parts ih hi
  | minus _ ih => exact negatable_negated ih
  | parens _ _ ih | unsigned _ ih | plus _ ih | first _ ih | bare _ ih | isNull _ _ _ _ ih
  | positive _ _ ih | not _ _ ih => exact ih
  | next _ _ _ ihleft ihright | compared _ _ _ ihleft ihright =>
    exact fun i hi => (List.mem_append.1 hi).elim (ihleft i) (ihright i)
  | inList _ _ _ _ _ _ ih ihparts =>
    exact fun i hi => (List.mem_append.1 hi).elim (ih i) (negatable_parts ihparts)

/-! ## Progress -/

/-- Whether a call goes round a loop; the others are readers. -/
def Call.isLoop : Call → Bool
  | .round _ _ => true
  | .item _ _ => true
  | _ => false

section

variable {src : List Char} {ts rest : List Token} {e : Expr}

/-- A reader takes tokens off the front, and gives an expression without the least integer. -/
def Takes (ts rest : List Token) (e : Expr) : Prop :=
  (∃ front, front ≠ [] ∧ ts = front ++ rest) ∧ Negatable e

theorem Derives.takes {p : Phrase} {front : List Token} (h : Derives p (lexemes front) e) :
    Takes (front ++ rest) rest e := by
  refine ⟨⟨front, ?_, rfl⟩, h.negatable⟩
  rintro rfl
  exact h.ne_nil rfl

theorem takes_of_callBody {expr : Reader Expr} (h : Sound expr .whole) {function : String}
    (hr : callBody src function expr ts = .ok (e, rest)) : Takes ts rest e := by
  unfold callBody at hr
  split at hr
  · cases hr
  split at hr
  · cases hr
  split at hr
  · next behind hstar =>
    obtain ⟨t, rfl, -⟩ := after?_eq_some.1 hstar
    split at hr
    · cases hr
    next hclose =>
    obtain ⟨u, rfl, -⟩ := after?_eq_some.1 hclose
    split at hr
    · cases hr
    cases hr
    exact ⟨⟨[t, u], List.cons_ne_nil _ _, rfl⟩, nofun⟩
  · obtain ⟨⟨args, behind⟩, hitems, hargs⟩ := bind_eq_ok.1 hr
    cases hargs
    obtain ⟨front, parts, comma, rfl, hfront, rfl, -, hparts⟩ := sound_items h hitems
    refine ⟨⟨front, ?_, rfl⟩, fun i hi => ?_⟩
    · rintro rfl
      simp [listed] at hfront
    · exact negatable_parts (fun part hpart => (hparts part hpart).negatable) hi

theorem takes_of_reader {call : Call} (hcall : call.isLoop = false)
    (hr : reader src call ts = .ok (e, rest)) : Takes ts rest e := by
  cases call with
  | level p =>
    obtain ⟨front, rfl, he⟩ := sound_levelReader sound_expression p _ _ _ hr
    exact he.takes
  | arguments function => exact takes_of_callBody sound_expression hr
  | round | item => cases hcall

end

/-- However a call would be answered beyond `10 * (ts.length + 1)` calls inside one another, it is
not asked there: reading ends. A reader that succeeds has moved on, at most to the end of the
tokens, and every integer in its expression has a negative. -/
theorem reader_descends (src : List Char) :
    (∀ ts, expression src ts = reader src (.level .whole) ts) ∧
    (∀ again call ts n, 10 * (ts.length + 1) ≤ n →
      unrolled src again n call ts = reader src call ts) ∧
    ∀ call : Call, call.isLoop = false →
      ∀ (all : List Token) (place : Nat) (e : Expr) (rest : List Token),
      reader src call (all.drop place) = .ok (e, rest) →
        (∃ place', place < place' ∧ place' ≤ all.length ∧ rest = all.drop place') ∧
        ∀ i ∈ e.integers, Int64.minValue < i ∧ (-i).toInt = -i.toInt := by
  refine ⟨fun ts => recurs_expression _ ts (Nat.lt_succ_self _), fun again call ts n hn => ?_, ?_⟩
  · refine unrolled_eq_reader again call ts (Nat.lt_of_lt_of_le ?_ hn)
    have := call.weight_le
    unfold Call.depth
    omega
  · intro call hcall all place e rest hr
    obtain ⟨⟨front, hne, hfront⟩, he⟩ := takes_of_reader hcall hr
    have hsuffix : rest <:+ all :=
      (List.suffix_append front rest).trans (hfront ▸ List.drop_suffix place all)
    have hlength : (all.drop place).length = front.length + rest.length := by
      rw [hfront, List.length_append]
    have hpos := List.length_pos_iff.2 hne
    rw [List.length_drop] at hlength
    refine ⟨⟨all.length - rest.length, by omega, Nat.sub_le _ _, ?_⟩, fun i hi => ⟨he i hi, ?_⟩⟩
    · exact List.suffix_iff_eq_drop.1 hsuffix
    · exact toInt_neg_of_minValue_lt (he i hi)

/-- The reader of signs, in front of a call with the integer that is closest to the least one. -/
theorem reader_descends_past_greatest :
    let text := "9, -f(-9223372036854775807) = x"
    let ts : List Token :=
      [⟨.number "9", 0, 1⟩, ⟨.comma, 1, 2⟩, ⟨.sign .minus, 3, 4⟩, ⟨.name "f", 4, 5⟩,
        ⟨.openParen, 5, 6⟩, ⟨.sign .minus, 6, 7⟩, ⟨.number "9223372036854775807", 7, 26⟩,
        ⟨.closeParen, 26, 27⟩, ⟨.sign .equal, 28, 29⟩, ⟨.name "x", 30, 31⟩]
    let e : Expr := .neg (.call "F" [.literal (.int (-9223372036854775807))])
    tokenize text = .ok ts ∧ 10 * ((ts.drop 2).length + 1) ≤ 90 ∧
      (∀ again, unrolled text.toList again 90 (.level .signed) (ts.drop 2) =
        reader text.toList (.level .signed) (ts.drop 2)) ∧
      (Call.level .signed).isLoop = false ∧
      reader text.toList (.level .signed) (ts.drop 2) = .ok (e, ts.drop 8) ∧
      (∃ place', 2 < place' ∧ place' ≤ ts.length ∧ ts.drop 8 = ts.drop place') ∧
      ∀ i ∈ e.integers, Int64.minValue < i ∧ (-i).toInt = -i.toInt := by
  intro text ts e
  have hr : reader text.toList (.level .signed) (ts.drop 2) = .ok (e, ts.drop 8) := by
    rfl
  obtain ⟨us, hus⟩ := exists_eq_ok (x := tokenize text) (by decide +kernel)
  have htokens : (tokenize text).toOption = some ts := by decide +kernel
  rw [hus] at htokens
  obtain ⟨-, hends, hprogress⟩ := reader_descends text.toList
  have hdepth : 10 * ((ts.drop 2).length + 1) ≤ 90 := by decide
  exact ⟨Option.some.inj htokens ▸ hus, hdepth, fun again => hends again _ _ 90 hdepth, rfl, hr,
    hprogress _ rfl ts 2 e _ hr⟩

end TableQuery.Sql
