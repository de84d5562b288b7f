import TableQuery.Proofs.Reading.Completeness

/-!
# Written words

Words and signs that are written out as characters, with what may follow them so that the scanner
ends them there.
-/

namespace TableQuery.Sql

/-- Whether a text can stand as a name without quotes. -/
def isBare (s : String) : Bool :=
  match s.toList with
  | [] => false
  | c :: tail => beginsName c && tail.all (continuesName (c == '@'))

/-- Whether a text can stand as a column without quotes: it spells no key word. -/
def isBareColumn (s : String) : Bool :=
  isBare s && !Keyword.isReserved s

/-- Whether what follows ends any bare name. -/
def EndsName (rest : List Char) : Prop :=
  ∀ c ∈ rest.head?, continuesName true c = false

theorem continuesName_of_true {c : Char} (h : continuesName true c = false) (external : Bool) :
    continuesName external c = false := by
  cases external with
  | true => exact h
  | false =>
    simp only [continuesName, Bool.or_eq_false_iff] at h ⊢
    exact ⟨h.1, rfl⟩

theorem Spelled.of_isBare {s : String} (h : isBare s = true) {rest : List Char}
    (hrest : EndsName rest) : Spelled (.name s) s.toList rest := by
  unfold isBare at h
  split at h
  · cases h
  · next c tail hs =>
    rw [Bool.and_eq_true, List.all_eq_true] at h
    have hname : s = String.ofList (c :: tail) := by rw [← hs, String.ofList_toList]
    rw [hs, hname]
    exact .bare h.1 h.2 fun d hd => continuesName_of_true (hrest d hd) _

/-- A sign ends in front of any character that could not lengthen it. -/
theorem Spelled.of_sign (s : Sign) {rest : List Char} (hrest : ∀ c ∈ rest.head?, c ≠ '=' ∧ c ≠ '>') :
    Spelled (.sign s) s.text.toList rest := by
  refine .sign ?_
  cases rest with
  | nil => cases s <;> rfl
  | cons c cs =>
    obtain ⟨h₁, h₂⟩ := hrest c rfl
    cases s <;> simp [Sign.text, scanSign?, h₁, h₂]

theorem isReserved_of_isKeyword {w : String} {k : Keyword}
    (h : (Lexeme.name w).isKeyword k = true) : Keyword.isReserved w = true := by
  rw [Lexeme.isKeyword_name] at h
  rw [Keyword.isReserved, h]
  rfl

theorem isKeyword_of_not_reserved {w : String} (h : Keyword.isReserved w = false) (k : Keyword) :
    (Lexeme.name w).isKeyword k = false := by
  by_contra hk
  rw [isReserved_of_isKeyword ((Bool.not_eq_false _).mp hk)] at h
  cases h

theorem not_reserved_of_isBareColumn {s : String} (h : isBareColumn s = true) :
    Keyword.isReserved s = false := by
  rw [isBareColumn, Bool.and_eq_true] at h
  simpa using h.2

theorem isBare_of_isBareColumn {s : String} (h : isBareColumn s = true) : isBare s = true :=
  (Bool.and_eq_true_iff.1 h).1

/-- A column spells no key word. -/
theorem isKeyword_of_isBareColumn {s : String} (h : isBareColumn s = true) (k : Keyword) :
    (Lexeme.name s).isKeyword k = false :=
  isKeyword_of_not_reserved (not_reserved_of_isBareColumn h) k

/-! ## Blanks behind words -/

theorem isBlank_of_continuesName {external : Bool} {c : Char} (h : continuesName external c = true) :
    Text.isBlank c = false := by
  simp only [continuesName, Char.isAlphanum, Bool.or_eq_true, Bool.and_eq_true, beq_iff_eq] at h
  rcases h with ((((h | h) | rfl) | rfl) | rfl) | ⟨-, rfl⟩
  · have := bounds_of_isAlpha h
    exact isBlank_of_bounds (by omega) (by omega)
  · have := bounds_of_isDigit h
    exact isBlank_of_bounds (by omega) (by omega)
  all_goals decide

theorem endsName_of_isBlank {rest : List Char} (h : ∀ c ∈ rest.head?, Text.isBlank c = true) :
    EndsName rest := by
  intro c hc
  by_contra hname
  have hblank := isBlank_of_continuesName (by simpa using hname)
  rw [h c hc] at hblank
  cases hblank

theorem isAlpha_of_toUpper {c : Char} (h : c.toUpper.isAlpha = true) : c.isAlpha = true := by
  unfold Char.toUpper at h
  split at h
  · next hlower =>
    have hbounds : (97 : UInt32) ≤ c.val ∧ c.val ≤ 122 := hlower
    exact Bool.or_eq_true_iff.2
      (.inr (Bool.and_eq_true_iff.2 ⟨decide_eq_true hbounds.1, decide_eq_true hbounds.2⟩))
  · exact h

/-- A text whose capitals are letters is a bare name. -/
theorem isBare_of_upper {s : String} (hne : s.toList ≠ [])
    (h : ∀ c ∈ (Text.upper s).toList, c.isAlpha = true) : isBare s = true := by
  have alpha : ∀ c ∈ s.toList, c.isAlpha = true := by
    intro c hc
    refine isAlpha_of_toUpper (h c.toUpper ?_)
    rw [Text.upper, String.toList_ofList]
    exact List.mem_map_of_mem hc
  unfold isBare
  split
  · next hs => exact absurd hs hne
  · next c tail hs =>
    rw [hs] at alpha
    obtain ⟨hc, htail⟩ := List.forall_mem_cons.1 alpha
    simp only [beginsName, hc, Bool.true_or, Bool.true_and, List.all_eq_true]
    intro d hd
    simp [continuesName, Char.isAlphanum, htail d hd]

/-! ## Characters that end tokens -/

/-- Whether a character ends every token in front of it: it lengthens no sign, no number and no bare
name, and it is no quote. -/
def EndsTokens (c : Char) : Prop :=
  c ∉ ['=', '>', '\'', '"'] ∧ continuesName true c = false

instance (c : Char) : Decidable (EndsTokens c) :=
  inferInstanceAs (Decidable (_ ∧ _))

theorem EndsTokens.isDigit_eq_false {c : Char} (h : EndsTokens c) : c.isDigit = false := by
  have hname := h.2
  simp only [continuesName, Char.isAlphanum, Bool.or_eq_false_iff] at hname
  exact hname.1.1.1.1.2

theorem endsTokens_of_isBlank {c : Char} (h : Text.isBlank c = true) : EndsTokens c := by
  refine ⟨fun hc => ?_, ?_⟩
  · have hnone : ['=', '>', '\'', '"'].all (fun c => !Text.isBlank c) = true := by decide
    simpa [h] using List.all_eq_true.1 hnone c hc
  · have hhead : ∀ d ∈ [c].head?, Text.isBlank d = true := by
      rintro _ ⟨⟩
      exact h
    exact endsName_of_isBlank hhead c rfl

theorem scanSign?_extend {spelling rest : List Char} {l : Lexeme} {d : Char} (hd : EndsTokens d)
    (h : scanSign? (spelling ++ rest) = some ⟨l, spelling, rest⟩) (more : List Char) :
    scanSign? (spelling ++ (rest ++ d :: more)) = some ⟨l, spelling, rest ++ d :: more⟩ := by
  have hequal : d ≠ '=' := fun e => hd.1 (by simp [e])
  have hgreater : d ≠ '>' := fun e => hd.1 (by simp [e])
  generalize hcs : spelling ++ rest = cs at h
  unfold scanSign? at h
  split at h <;> cases h <;> cases rest <;> simp_all [scanSign?]

/-- What ends a token at the end of a text also does if more text comes next. -/
theorem forall_mem_head?_append {p : Char → Prop} {rest : List Char} (h : ∀ c ∈ rest.head?, p c)
    {d : Char} (hd : p d) (more : List Char) : ∀ c ∈ (rest ++ d :: more).head?, p c := by
  cases rest with
  | nil =>
    rintro _ ⟨⟩
    exact hd
  | cons e es => exact h

/-- A spelling stays one when a character that ends tokens, and any text, is put behind. -/
theorem Spelled.extend {l : Lexeme} {spelling rest : List Char} (h : Spelled l spelling rest)
    {d : Char} (hd : EndsTokens d) (more : List Char) : Spelled l spelling (rest ++ d :: more) := by
  cases h with
  | sign h => exact .sign (scanSign?_extend hd h more)
  | literal hq hrest =>
    refine .literal hq (forall_mem_head?_append hrest (fun e => hd.1 ?_) more)
    rcases hq with rfl | rfl <;> simp [e]
  | quoted h => exact .quoted h
  | whole hne hdigits hrest hpoint =>
    refine .whole hne hdigits (forall_mem_head?_append hrest hd.isDigit_eq_false more)
      fun c cs hcs => ?_
    rcases rest with _ | ⟨e, _ | ⟨e', es⟩⟩
    · cases hcs
      exact absurd hd (by decide)
    · cases hcs
      exact hd.isDigit_eq_false
    · cases hcs
      exact hpoint _ _ rfl
  | point hne hne' hdigits hplaces hrest =>
    exact .point hne hne' hdigits hplaces
      (forall_mem_head?_append hrest hd.isDigit_eq_false more)
  | bare hc htail hrest =>
    exact .bare hc htail
      (forall_mem_head?_append hrest (continuesName_of_true hd.2 _) more)

/-- A text has the same tokens in front of a character that ends them. -/
theorem Lexes.extend {cs rest : List Char} {ls : List Lexeme} (h : Lexes cs ls rest) {d : Char}
    (hd : EndsTokens d) (more : List Char) : Lexes (cs ++ d :: more) ls (rest ++ d :: more) := by
  induction h with
  | done rest => exact .done _
  | blank hc _ ih => exact .blank hc ih
  | token hl _ ih =>
    rw [List.append_assoc]
    exact .token (hl.extend hd more) ih

end TableQuery.Sql

/-! ## Written operators -/

namespace TableQuery.BinaryOp

open Sql

/-- Whether an operator adds or subtracts. -/
def isSum (op : BinaryOp) : Bool :=
  op == .add || op == .sub

/-- Whether an operator is `AND` or `OR`. -/
def isConnective (op : BinaryOp) : Bool :=
  op == .and || op == .or

/-- Whether a word is a way to write the operator. -/
def isSpelledBy (op : BinaryOp) (word : String) : Bool :=
  match op with
  | .and => Text.upper word == "AND"
  | .or => Text.upper word == "OR"
  | .eq => word == "=" || word == "=="
  | .ne => word == "!=" || word == "<>"
  | op => word == op.symbol

/-- The lexeme of an operator that is written as the word. -/
def lexeme (op : BinaryOp) (word : String) : Lexeme :=
  match op with
  | .add => .sign .plus
  | .sub => .sign .minus
  | .mul => .sign .star
  | .div => .sign .slash
  | .mod => .sign .percent
  | .eq => .sign (if word = "=" then .equal else .doubleEqual)
  | .ne => .sign .notEqual
  | .lt => .sign .less
  | .le => .sign .lessEqual
  | .gt => .sign .greater
  | .ge => .sign .greaterEqual
  | .and => .name word
  | .or => .name word

variable {op : BinaryOp}

theorem productOp?_lexeme (word : String) (hsum : op.isSum = false)
    (hcomparison : op.isComparison = false) (hconnective : op.isConnective = false) :
    productOp? (op.lexeme word) = some op := by
  cases op <;> first
    | rfl
    | exact absurd hsum (by decide)
    | exact absurd hcomparison (by decide)
    | exact absurd hconnective (by decide)

theorem sumOp?_lexeme (word : String) (h : op.isSum = true) :
    sumOp? (op.lexeme word) = some op := by
  cases op <;> first | rfl | cases h

theorem comparisonOp?_lexeme (word : String) (h : op.isComparison = true) :
    comparisonOp? (op.lexeme word) = some op := by
  cases op with
  | eq =>
    unfold lexeme
    dsimp only
    split <;> rfl
  | _ => first | rfl | cases h

section

variable {word : String} (hword : op.isSpelledBy word = true)

include hword

/-- The only operators that are key words are `AND` and `OR`. -/
theorem isKeyword_lexeme {k : Keyword} :
    (op.lexeme word).isKeyword k = true ↔ (op = .and ∧ k = .and) ∨ (op = .or ∧ k = .or) := by
  cases op with
  | and =>
    have hand : (Lexeme.name word).isKeyword .and = true := hword
    constructor
    · exact fun h => .inl ⟨rfl, Lexeme.isKeyword_unique h hand⟩
    · rintro (⟨-, rfl⟩ | ⟨h, -⟩)
      · exact hand
      · cases h
  | or =>
    have hor : (Lexeme.name word).isKeyword .or = true := hword
    constructor
    · exact fun h => .inr ⟨rfl, Lexeme.isKeyword_unique h hor⟩
    · rintro (⟨h, -⟩ | ⟨-, rfl⟩)
      · cases h
      · exact hor
  | _ => exact iff_of_false nofun (by simp)

/-- An operator ends in front of a blank. -/
theorem spelled_lexeme {rest : List Char} (hrest : ∀ c ∈ rest.head?, Text.isBlank c = true) :
    Spelled (op.lexeme word) word.toList rest := by
  have hsign : ∀ c ∈ rest.head?, c ≠ '=' ∧ c ≠ '>' := by
    intro c hc
    have hblank := hrest c hc
    constructor <;> rintro rfl <;> cases hblank
  have sign (s : Sign) (hs : word = s.text) : Spelled (.sign s) word.toList rest := by
    rw [hs]
    exact .of_sign s hsign
  have name (k : Keyword) (hk : Text.upper word = k.word)
      (hletters : k.word.toList.all Char.isAlpha = true) (hne : k.word.toList ≠ []) :
      Spelled (.name word) word.toList rest := by
    rw [List.all_eq_true, ← hk] at hletters
    refine .of_isBare (isBare_of_upper ?_ hletters) (endsName_of_isBlank hrest)
    intro hnil
    rw [← hk, Text.upper, hnil] at hne
    exact hne rfl
  cases op with
  | eq =>
    rcases Bool.or_eq_true_iff.1 hword with h | h <;> obtain rfl := beq_iff_eq.1 h
    · exact sign .equal rfl
    · exact sign .doubleEqual rfl
  | ne =>
    rcases Bool.or_eq_true_iff.1 hword with h | h <;> obtain rfl := beq_iff_eq.1 h
    · exact sign .notEqual rfl
    · exact .sign rfl
  | and => exact name .and (beq_iff_eq.1 hword) (by decide) (by decide)
  | or => exact name .or (beq_iff_eq.1 hword) (by decide) (by decide)
  | add | sub | mul | div | mod | lt | le | gt | ge => exact sign _ (beq_iff_eq.1 hword)

end

end TableQuery.BinaryOp
