import TableQuery.Proofs.Reading.Words

/-!
# Precedence and associativity

Columns with binary operators between them and no parentheses. Such a text is an expression exactly
if no two comparisons stand in it without a connective in between, and the expression is then the
one that comes of cutting the text at the loosest operators first and of folding the parts to the
left.
-/

namespace TableQuery

/-- Any two bounds of a list have a mark between them. -/
def Parted {β : Type} (bound mark : β → Bool) (xs : List β) : Prop :=
  ∀ front mid back a b, xs = front ++ a :: (mid ++ b :: back) → bound a = true → bound b = true →
    ∃ m ∈ mid, mark m = true

/-- Operands with operators between them. -/
structure Alternation (ω α : Type) where
  first : α
  steps : List (ω × α)

namespace Alternation

variable {ω α : Type}

def operators (s : Alternation ω α) : List ω :=
  s.steps.map Prod.fst

def operands (s : Alternation ω α) : List α :=
  s.first :: s.steps.map Prod.snd

/-- Operands cut at the operators with a property, behind a first operand. -/
def cutFrom (p : ω → Bool) (x : α) : List (ω × α) → Alternation ω (Alternation ω α)
  | [] => ⟨⟨x, []⟩, []⟩
  | (o, y) :: rest =>
    let behind := cutFrom p y rest
    if p o then ⟨⟨x, []⟩, (o, behind.first) :: behind.steps⟩
    else ⟨⟨x, (o, behind.first.first) :: behind.first.steps⟩, behind.steps⟩

/-- The parts between the operators with a property, and these operators between the parts. -/
def cut (p : ω → Bool) (s : Alternation ω α) : Alternation ω (Alternation ω α) :=
  cutFrom p s.first s.steps

/-- The operands as trees, folded to the left. -/
def fold (op : ω → BinaryOp) (tree : α → Expr) (s : Alternation ω α) : Expr :=
  s.steps.foldl (fun left (o, x) => .binary (op o) left (tree x)) (tree s.first)

/-- Everything from left to right, given what the operators and the operands stand for. -/
def flatten {β : Type} (f : ω → β) (g : α → List β) (s : Alternation ω α) : List β :=
  g s.first ++ s.steps.flatMap fun (o, x) => f o :: g x

variable {p : ω → Bool}

/-- Cutting moves nothing. -/
theorem flatten_cut {β : Type} (f : ω → β) (g : α → List β) (s : Alternation ω α) :
    (s.cut p).flatten f (flatten f g) = s.flatten f g := by
  obtain ⟨x, steps⟩ := s
  unfold cut
  induction steps generalizing x with
  | nil => simp [cutFrom, flatten]
  | cons step rest ih =>
    obtain ⟨o, y⟩ := step
    have hrest := ih y
    simp only [flatten, cutFrom] at hrest ⊢
    split <;> simp_all

theorem operators_cut (s : Alternation ω α) {o : ω} (h : o ∈ (s.cut p).operators) : p o = true := by
  obtain ⟨x, steps⟩ := s
  unfold cut operators at h
  induction steps generalizing x with
  | nil => cases h
  | cons step rest ih =>
    obtain ⟨a, y⟩ := step
    rw [cutFrom] at h
    dsimp only at h
    split at h
    · next ha =>
      rcases List.mem_cons.1 h with rfl | h
      · exact ha
      · exact ih y h
    · exact ih y h

theorem operators_of_mem_cut (s : Alternation ω α) :
    ∀ part ∈ (s.cut p).operands, ∀ o ∈ part.operators, p o = false := by
  obtain ⟨x, steps⟩ := s
  unfold cut
  induction steps generalizing x with
  | nil =>
    exact List.forall_mem_cons.2 ⟨nofun, nofun⟩
  | cons step rest ih =>
    obtain ⟨o, y⟩ := step
    obtain ⟨hfirst, hothers⟩ := List.forall_mem_cons.1 (ih y)
    rw [cutFrom]
    dsimp only
    split
    · exact List.forall_mem_cons.2 ⟨nofun, List.forall_mem_cons.2 ⟨hfirst, hothers⟩⟩
    · next ho =>
      refine List.forall_mem_cons.2 ⟨List.forall_mem_cons.2 ⟨?_, hfirst⟩, hothers⟩
      simpa using ho

/-- The operators of the parts, with those at the cuts between them. -/
theorem operators_eq_flatten_cut (p : ω → Bool) (s : Alternation ω α) :
    s.operators = (s.cut p).flatten id operators := by
  have hflat (t : Alternation ω α) : t.operators = t.flatten id fun _ => [] := by
    simp [operators, flatten, List.map_eq_flatMap]
  rw [hflat s, ← flatten_cut]
  congr 1
  funext part
  exact (hflat part).symm

/-- The operators of a part stand together. -/
theorem operators_part (s : Alternation ω α) {part : Alternation ω α}
    (h : part ∈ (s.cut p).operands) : part.operators <:+: s.operators := by
  rw [operators_eq_flatten_cut p s, flatten]
  rcases List.mem_cons.1 h with rfl | h
  · exact (List.prefix_append _ _).isInfix
  · obtain ⟨⟨o, part'⟩, hmem, rfl⟩ := List.mem_map.1 h
    obtain ⟨front, back, hsteps⟩ := List.append_of_mem hmem
    let flat (steps : List (ω × Alternation ω α)) := steps.flatMap fun (o, t) => o :: t.operators
    refine ⟨(s.cut p).first.operators ++ flat front ++ [o], flat back, ?_⟩
    simp [hsteps, flat]

end Alternation

/-- A column written without quotes. -/
structure BareColumn where
  name : String
  bare : Sql.isBareColumn name = true

/-- Blanks, one at least. -/
structure Gap where
  chars : List Char
  nonempty : chars ≠ []
  blank : ∀ c ∈ chars, Text.isBlank c = true

/-- A binary operator as it is written, with blanks around it. -/
structure Joint where
  op : BinaryOp
  word : String
  spelled : op.isSpelledBy word = true
  before : Gap
  after : Gap

/-- Columns with binary operators between them. -/
abbrev Series := Alternation Joint BareColumn

namespace Series

/-- The characters of a series behind its first column. -/
def tailChars (steps : List (Joint × BareColumn)) : List Char :=
  steps.flatMap fun (j, x) => j.before.chars ++ j.word.toList ++ j.after.chars ++ x.name.toList

/-- The text of columns and operators. -/
def text (s : Series) : String :=
  String.ofList (s.first.name.toList ++ tailChars s.steps)

/-- Any two comparisons have `AND` or `OR` between them. -/
def Separated (s : Series) : Prop :=
  Parted BinaryOp.isComparison BinaryOp.isConnective (s.operators.map Joint.op)

/-! The tree of a series: cut at `OR`, then at `AND`, at the comparison, and at `+` and `-`, where
`*`, `/` and `%` are left. -/

def product (s : Series) : Expr :=
  s.fold Joint.op fun x => .column x.name

def sum (s : Series) : Expr :=
  (s.cut fun j => j.op.isSum).fold Joint.op product

def comparison (s : Series) : Expr :=
  (s.cut fun j => j.op.isComparison).fold Joint.op sum

def conjunction (s : Series) : Expr :=
  (s.cut fun j => j.op == .and).fold Joint.op comparison

def tree (s : Series) : Expr :=
  (s.cut fun j => j.op == .or).fold Joint.op conjunction

end Series

open Sql

/-! ## The lexemes of a series -/

def Joint.lexeme (j : Joint) : Lexeme :=
  j.op.lexeme j.word

/-- Operands that derive at a level make a chain of it, with operators of the level between them. -/
theorem Alternation.derives_fold {α : Type} {c : Chained} {g : α → List Lexeme} {tree : α → Expr}
    (s : Alternation Joint α) (hops : ∀ j ∈ s.operators, c.op? j.lexeme = some j.op)
    (hparts : ∀ x ∈ s.operands, Derives c.operand (g x) (tree x)) :
    Derives (.chain c) (s.flatten Joint.lexeme g) (s.fold Joint.op tree) := by
  obtain ⟨x, steps⟩ := s
  obtain ⟨hx, hsteps⟩ := List.forall_mem_cons.1 hparts
  have grow (steps : List (Joint × α)) (ls : List Lexeme) (left : Expr)
      (hleft : Derives (.chain c) ls left)
      (hops : ∀ j ∈ steps.map Prod.fst, c.op? j.lexeme = some j.op)
      (hsteps : ∀ y ∈ steps.map Prod.snd, Derives c.operand (g y) (tree y)) :
      Derives (.chain c) (ls ++ steps.flatMap fun (j, y) => j.lexeme :: g y)
        (steps.foldl (fun left (j, y) => .binary j.op left (tree y)) left) := by
    induction steps generalizing ls left with
    | nil => simpa using hleft
    | cons step rest ih =>
      obtain ⟨hop, hops⟩ := List.forall_mem_cons.1 hops
      obtain ⟨hy, hsteps⟩ := List.forall_mem_cons.1 hsteps
      rw [List.flatMap_cons, ← List.append_assoc]
      exact ih _ _ (.next hleft hop hy) hops hsteps
  exact grow steps (g x) (tree x) (.first hx) hops hsteps

namespace Series

def lexemes (s : Series) : List Lexeme :=
  s.flatten Joint.lexeme fun x => [.name x.name]

theorem derives_product {s : Series} (h : ∀ j ∈ s.operators,
    j.op.isSum = false ∧ j.op.isComparison = false ∧ j.op.isConnective = false) :
    Derives (.chain .product) s.lexemes s.product := by
  refine s.derives_fold (c := .product) (fun j hj => ?_) fun x _ => ?_
  · obtain ⟨hsum, hcomparison, hconnective⟩ := h j hj
    exact BinaryOp.productOp?_lexeme _ hsum hcomparison hconnective
  · exact .unsigned (.column (not_reserved_of_isBareColumn x.bare))

theorem derives_sum {s : Series} (h : ∀ j ∈ s.operators,
    j.op.isComparison = false ∧ j.op.isConnective = false) :
    Derives (.chain .sum) s.lexemes s.sum := by
  unfold lexemes
  rw [← Alternation.flatten_cut (p := fun j => j.op.isSum)]
  refine Alternation.derives_fold (c := .sum) _ (fun j hj => ?_) fun part hpart => ?_
  · exact BinaryOp.sumOp?_lexeme _ (s.operators_cut hj)
  · refine derives_product fun j hj => ⟨s.operators_of_mem_cut part hpart j hj, ?_⟩
    exact h j ((s.operators_part hpart).subset hj)

theorem Separated.of_part {s t : Series} (h : s.Separated) (hi : t.operators <:+: s.operators) :
    t.Separated := by
  obtain ⟨before, behind, hs⟩ := hi
  intro front mid back a b ht
  refine h (before.map Joint.op ++ front) mid (back ++ behind.map Joint.op) a b ?_
  rw [← hs, List.map_append, List.map_append, ht]
  simp

theorem derives_comparison {s : Series} (h : ∀ j ∈ s.operators, j.op.isConnective = false)
    (hs : s.Separated) : Derives .comparison s.lexemes s.comparison := by
  have hcut := s.operators_eq_flatten_cut fun j => j.op.isComparison
  have hops : ∀ j ∈ (s.cut fun j => j.op.isComparison).operators, j.op.isComparison = true :=
    fun j hj => s.operators_cut hj
  have hparts : ∀ part ∈ (s.cut fun j => j.op.isComparison).operands,
      Derives (.chain .sum) (lexemes part) (sum part) := fun part hpart =>
    derives_sum fun j hj => ⟨s.operators_of_mem_cut part hpart j hj,
      h j ((s.operators_part hpart).subset hj)⟩
  unfold lexemes comparison
  rw [← Alternation.flatten_cut (p := fun j => j.op.isComparison)]
  generalize s.cut (fun j => j.op.isComparison) = parts at hcut hops hparts
  obtain ⟨first, steps⟩ := parts
  obtain ⟨hfirst, hsteps⟩ := List.forall_mem_cons.1 hparts
  match steps with
  | [] => simpa [Alternation.flatten, Alternation.fold, lexemes] using Derives.bare hfirst
  | [(j, part)] =>
    have hj : comparisonOp? j.lexeme = some j.op :=
      BinaryOp.comparisonOp?_lexeme j.word (hops j List.mem_cons_self)
    have hpart := hsteps part List.mem_cons_self
    simpa [Alternation.flatten, Alternation.fold, lexemes] using Derives.compared hfirst hj hpart
  | (j, part) :: (k, last) :: rest =>
    have hoperators : s.operators = first.operators ++ j :: (part.operators ++ k ::
        (last.operators ++ rest.flatMap fun (o, t) => o :: t.operators)) := by
      rw [hcut]
      simp [Alternation.flatten]
    have hmap : s.operators.map Joint.op = first.operators.map Joint.op ++ j.op ::
        (part.operators.map Joint.op ++ k.op ::
          (last.operators ++ rest.flatMap fun (o, t) => o :: t.operators).map Joint.op) := by
      rw [hoperators]
      simp
    obtain ⟨o, ho, hconnective⟩ := hs _ _ _ _ _ hmap (hops j List.mem_cons_self)
      (hops k (List.mem_cons_of_mem _ List.mem_cons_self))
    obtain ⟨i, hi, rfl⟩ := List.mem_map.1 ho
    have hnone := h i (by rw [hoperators]; simp [hi])
    rw [hnone] at hconnective
    cases hconnective

theorem derives_negation {s : Series} (h : ∀ j ∈ s.operators, j.op.isConnective = false)
    (hs : s.Separated) : Derives .negation s.lexemes s.comparison := by
  refine .positive ?_ (derives_comparison h hs)
  rintro _ ⟨⟩
  exact isKeyword_of_isBareColumn s.first.bare .not

theorem derives_conjunction {s : Series} (h : ∀ j ∈ s.operators, (j.op == .or) = false)
    (hs : s.Separated) : Derives (.chain .conjunction) s.lexemes s.conjunction := by
  unfold lexemes
  rw [← Alternation.flatten_cut (p := fun j => j.op == .and)]
  refine Alternation.derives_fold (c := .conjunction) _ (fun j hj => ?_) fun part hpart => ?_
  · have hop : j.op = .and := beq_iff_eq.1 (s.operators_cut hj)
    rw [hop]
    exact if_pos ((BinaryOp.isKeyword_lexeme j.spelled).2 (.inl ⟨hop, rfl⟩))
  · have hwithin := s.operators_part hpart
    refine derives_negation (fun j hj => ?_) (hs.of_part hwithin)
    rw [BinaryOp.isConnective, s.operators_of_mem_cut part hpart j hj, h j (hwithin.subset hj)]
    rfl

theorem derives_tree {s : Series} (hs : s.Separated) : Derives .whole s.lexemes s.tree := by
  unfold lexemes
  rw [← Alternation.flatten_cut (p := fun j => j.op == .or)]
  refine Alternation.derives_fold (c := .disjunction) _ (fun j hj => ?_) fun part hpart => ?_
  · have hop : j.op = .or := beq_iff_eq.1 (s.operators_cut hj)
    rw [hop]
    exact if_pos ((BinaryOp.isKeyword_lexeme j.spelled).2 (.inr ⟨hop, rfl⟩))
  · exact derives_conjunction (s.operators_of_mem_cut part hpart)
      (hs.of_part (s.operators_part hpart))

end Series

/-! ## Only separated comparisons -/

namespace Parted

variable {β : Type} {bound mark : β → Bool} {xs ys : List β} {z : β}

theorem of_unbound (h : ∀ x ∈ xs, bound x = false) : Parted bound mark xs := by
  rintro front mid back a b rfl ha -
  rw [h a (by simp)] at ha
  cases ha

theorem cons (hz : bound z = false) (h : Parted bound mark xs) : Parted bound mark (z :: xs) := by
  intro front mid back a b hxs ha hb
  cases front with
  | nil =>
    cases hxs
    rw [hz] at ha
    cases ha
  | cons c front =>
    cases hxs
    exact h front mid back a b rfl ha hb

/-- One bound is not parted from any other. -/
theorem of_one (hxs : ∀ x ∈ xs, bound x = false) (hys : ∀ y ∈ ys, bound y = false) :
    Parted bound mark (xs ++ z :: ys) := by
  induction xs with
  | nil =>
    intro front mid back a b hall ha hb
    have hmem : b ∈ ys := by
      cases front with
      | nil =>
        cases hall
        simp
      | cons c front =>
        cases hall
        simp
    rw [hys b hmem] at hb
    cases hb
  | cons x xs ih =>
    obtain ⟨hx, hxs⟩ := List.forall_mem_cons.1 hxs
    exact (ih hxs).cons hx

/-- A mark parts what is in front of it from what is behind it. -/
theorem append_cons (hx : Parted bound mark xs) (hmark : mark z = true) (hz : bound z = false)
    (hy : Parted bound mark ys) : Parted bound mark (xs ++ z :: ys) := by
  intro front mid back a b hall ha hb
  rcases List.append_eq_append_iff.1 hall with ⟨more, rfl, hmore⟩ | ⟨more, rfl, hmore⟩
  · cases more with
    | nil =>
      cases hmore
      rw [hz] at ha
      cases ha
    | cons c more =>
      cases hmore
      exact hy more mid back a b rfl ha hb
  · cases more with
    | nil =>
      cases hmore
      rw [hz] at ha
      cases ha
    | cons c more =>
      obtain ⟨rfl, hbehind⟩ := List.cons_eq_cons.1 hmore
      rcases List.append_eq_append_iff.1 hbehind with ⟨last, rfl, hlast⟩ | ⟨last, rfl, hlast⟩
      · cases last with
        | nil =>
          cases hlast
          rw [hz] at hb
          cases hb
        | cons d last =>
          cases hlast
          exact hx front mid last a b rfl ha hb
      · cases last with
        | nil =>
          cases hlast
          rw [hz] at hb
          cases hb
        | cons d last =>
          cases hlast
          exact ⟨z, by simp, hmark⟩

end Parted

namespace Sql

/-- Whether a lexeme is the word `AND` or `OR`. -/
def Lexeme.connects (l : Lexeme) : Bool :=
  l.isKeyword .and || l.isKeyword .or

theorem connects_of_op? {c : Chained} {l : Lexeme} {op : BinaryOp} (h : c.op? l = some op)
    (hc : ¬ (Phrase.chain c).looseness ≤ 2) : l.connects = true := by
  cases c with
  | product => exact absurd (by decide) hc
  | sum => exact absurd (by decide) hc
  | conjunction =>
    simp only [Chained.op?, andOp?] at h
    split at h
    · next hand => simp [Lexeme.connects, hand]
    · cases h
  | disjunction =>
    simp only [Chained.op?, orOp?] at h
    split at h
    · next hor => simp [Lexeme.connects, hor]
    · cases h

/-- Without parentheses, sums and all that is tighter have no comparison, and the rest has a
connective between any two. -/
theorem Derives.parted {p : Phrase} {ls : List Lexeme} {e : Expr} (h : Derives p ls e)
    (hflat : ∀ l ∈ ls, l ≠ .openParen) :
    (p.looseness ≤ 2 → ∀ l ∈ ls, l.compares = false) ∧
      Parted Lexeme.compares Lexeme.connects ls := by
  have tight {ls : List Lexeme} {q : Prop} (h : ∀ l ∈ ls, l.compares = false) :
      (q → ∀ l ∈ ls, l.compares = false) ∧ Parted Lexeme.compares Lexeme.connects ls :=
    ⟨fun _ => h, .of_unbound h⟩
  induction h with
  | number | literal | word | column => exact tight (by simp [Lexeme.compares, comparisonOp?])
  | countStar | call | parens => exact absurd rfl (hflat .openParen (by simp))
  | unsigned _ ih => exact ih hflat
  | minus _ ih | plus _ ih =>
    obtain ⟨-, hls⟩ := List.forall_mem_cons.1 hflat
    exact tight (List.forall_mem_cons.2 ⟨rfl, (ih hls).1 (by decide)⟩)
  | @first c _ _ _ ih =>
    obtain ⟨hnone, hparted⟩ := ih hflat
    exact ⟨fun hc => hnone (Nat.le_trans (Nat.le_of_lt c.looseness_operand) hc), hparted⟩
  | @next c ls ms l op left right _ hop _ ihleft ihright =>
    obtain ⟨hls, hlms⟩ := List.forall_mem_append.1 hflat
    obtain ⟨-, hms⟩ := List.forall_mem_cons.1 hlms
    obtain ⟨hleft, hparted⟩ := ihleft hls
    obtain ⟨hright, hparted'⟩ := ihright hms
    have hl := Lexeme.compares_of_op? hop
    refine ⟨fun hc => ?_, ?_⟩
    · have hright' := hright (Nat.le_trans (Nat.le_of_lt c.looseness_operand) hc)
      exact List.forall_mem_append.2 ⟨hleft hc, List.forall_mem_cons.2 ⟨hl, hright'⟩⟩
    · by_cases hc : (Phrase.chain c).looseness ≤ 2
      · have hright' := hright (Nat.le_trans (Nat.le_of_lt c.looseness_operand) hc)
        exact .of_one (hleft hc) hright'
      · exact hparted.append_cons (connects_of_op? hop hc) hl hparted'
  | bare _ ih => exact ⟨fun h => absurd h (by decide), (ih hflat).2⟩
  | compared _ _ _ ihleft ihright =>
    obtain ⟨hls, hlms⟩ := List.forall_mem_append.1 hflat
    obtain ⟨-, hms⟩ := List.forall_mem_cons.1 hlms
    exact ⟨fun h => absurd h (by decide),
      .of_one ((ihleft hls).1 (by decide)) ((ihright hms).1 (by decide))⟩
  | isNull _ hl hn hm ih =>
    obtain ⟨hlns, -⟩ := List.forall_mem_append.1 hflat
    obtain ⟨hls, -⟩ := List.forall_mem_append.1 hlns
    refine tight (List.forall_mem_append.2 ⟨List.forall_mem_append.2 ⟨(ih hls).1 (by decide),
      List.forall_mem_cons.2 ⟨Lexeme.compares_of_isKeyword hl, ?_⟩⟩, ?_⟩)
    · cases hn with
      | absent => exact fun _ hmem => absurd hmem List.not_mem_nil
      | present hn => simpa using Lexeme.compares_of_isKeyword hn
    · simpa using Lexeme.compares_of_isKeyword hm
  | inList => exact absurd rfl (hflat .openParen (by simp))
  | positive _ _ ih => exact ⟨fun h => absurd h (by decide), (ih hflat).2⟩
  | not hl _ ih =>
    obtain ⟨-, hls⟩ := List.forall_mem_cons.1 hflat
    exact ⟨fun h => absurd h (by decide), (ih hls).2.cons (Lexeme.compares_of_isKeyword hl)⟩

end Sql

/-! ## The text of a series -/

theorem Joint.compares_lexeme (j : Joint) (h : j.op.isComparison = true) :
    j.lexeme.compares = true := by
  rw [Lexeme.compares, Joint.lexeme, BinaryOp.comparisonOp?_lexeme _ h]
  rfl

theorem Gap.head_isBlank (g : Gap) (rest : List Char) :
    ∀ c ∈ (g.chars ++ rest).head?, Text.isBlank c = true := by
  obtain ⟨chars, hne, hblank⟩ := g
  obtain ⟨d, ds, rfl⟩ := List.exists_cons_of_ne_nil hne
  rintro _ ⟨⟩
  exact hblank d List.mem_cons_self

namespace Series

theorem tailChars_cons (j : Joint) (x : BareColumn) (rest : List (Joint × BareColumn)) :
    tailChars ((j, x) :: rest) =
      j.before.chars ++ (j.word.toList ++ (j.after.chars ++ (x.name.toList ++ tailChars rest))) := by
  simp [tailChars]

theorem lexes_text (s : Series) : Lexes s.text.toList s.lexemes [] := by
  obtain ⟨x, steps⟩ := s
  rw [text, String.toList_ofList]
  unfold lexemes Alternation.flatten
  dsimp only
  induction steps generalizing x with
  | nil => exact .token (.of_isBare (isBare_of_isBareColumn x.bare) nofun) (.done [])
  | cons step rest ih =>
    obtain ⟨j, y⟩ := step
    rw [tailChars_cons]
    refine .token (.of_isBare (isBare_of_isBareColumn x.bare)
      (endsName_of_isBlank (j.before.head_isBlank _))) ?_
    refine .blanks j.before.blank ?_
    refine .token (BinaryOp.spelled_lexeme j.spelled (j.after.head_isBlank _)) ?_
    exact .blanks j.after.blank (ih y)

theorem mem_lexemes {s : Series} {l : Lexeme} (h : l ∈ s.lexemes) :
    (∃ x : BareColumn, l = .name x.name) ∨ ∃ j ∈ s.operators, l = j.lexeme := by
  rcases List.mem_append.1 h with h | h
  · exact .inl ⟨s.first, List.mem_singleton.1 h⟩
  · obtain ⟨⟨j, x⟩, hmem, hl⟩ := List.mem_flatMap.1 h
    rcases List.mem_cons.1 hl with rfl | hl
    · exact .inr ⟨j, List.mem_map_of_mem hmem, rfl⟩
    · exact .inl ⟨x, List.mem_singleton.1 hl⟩

theorem ne_openParen {s : Series} : ∀ l ∈ s.lexemes, l ≠ .openParen := by
  intro l hl
  rcases mem_lexemes hl with ⟨x, rfl⟩ | ⟨j, -, rfl⟩
  · nofun
  · unfold Joint.lexeme
    cases j.op <;> nofun

/-- Lexemes with a connective between any two comparisons come from operators that have one. -/
theorem separated_of_parted {s : Series}
    (h : Parted Lexeme.compares Lexeme.connects s.lexemes) : s.Separated := by
  intro front mid back a b hops ha hb
  obtain ⟨x, steps⟩ := s
  rw [Alternation.operators, List.map_map] at hops
  obtain ⟨before, behind, rfl, -, hbehind⟩ := List.map_eq_append_iff.1 hops
  obtain ⟨⟨j, y⟩, others, rfl, rfl, hothers⟩ := List.map_eq_cons_iff.1 hbehind
  obtain ⟨between, last, rfl, rfl, hlast⟩ := List.map_eq_append_iff.1 hothers
  obtain ⟨⟨k, z⟩, after, rfl, rfl, -⟩ := List.map_eq_cons_iff.1 hlast
  let flat (steps : List (Joint × BareColumn)) : List Lexeme :=
    steps.flatMap fun (i, w) => [i.lexeme, .name w.name]
  obtain ⟨l, hl, hconnects⟩ := h (.name x.name :: flat before) (.name y.name :: flat between)
    (.name z.name :: flat after) j.lexeme k.lexeme (by simp [lexemes, Alternation.flatten, flat])
    (j.compares_lexeme ha) (k.compares_lexeme hb)
  have hmem : l ∈ lexemes ⟨y, between⟩ := hl
  rw [Lexeme.connects, Bool.or_eq_true] at hconnects
  rcases mem_lexemes hmem with ⟨w, rfl⟩ | ⟨i, hi, rfl⟩
  · rw [isKeyword_of_isBareColumn w.bare, isKeyword_of_isBareColumn w.bare] at hconnects
    simp at hconnects
  · obtain ⟨step, hstep, rfl⟩ := List.mem_map.1 hi
    rw [Joint.lexeme, BinaryOp.isKeyword_lexeme step.1.spelled,
      BinaryOp.isKeyword_lexeme step.1.spelled] at hconnects
    refine ⟨step.1.op, List.mem_map_of_mem hstep, ?_⟩
    rcases hconnects with (⟨hop, -⟩ | ⟨-, h⟩) | (⟨-, h⟩ | ⟨hop, -⟩)
    · rw [hop]
      rfl
    · cases h
    · cases h
    · rw [hop]
      rfl

/-- Columns with operators between them are an expression exactly if no two comparisons stand
without a connective between them; and then they are the tree that comes of cutting at `OR`, `AND`,
the comparison, and `+` and `-`, in this order, with the parts folded to the left. -/
theorem parse_text_eq_ok_iff (s : Series) (e : Expr) :
    Expr.parse s.text = .ok e ↔ s.Separated ∧ e = s.tree := by
  have hlexes := s.lexes_text
  constructor
  · intro h
    obtain ⟨ls, hls, he⟩ := Expr.parse_eq_ok_iff.1 h
    obtain rfl := hls.unique hlexes
    have hs := separated_of_parted (he.parted ne_openParen).2
    rw [Expr.parse_eq_ok_iff.2 ⟨s.lexemes, hlexes, derives_tree hs⟩] at h
    cases h
    exact ⟨hs, rfl⟩
  · rintro ⟨hs, rfl⟩
    exact Expr.parse_eq_ok_iff.2 ⟨s.lexemes, hlexes, derives_tree hs⟩

/-- A sum between two comparisons does not part them, a connective does. -/
example : (Expr.parse "a < b < c").isOk = false ∧ (Expr.parse "a < b + x < c").isOk = false ∧
    (Expr.parse "a < b AND x < c").isOk = true := by
  decide +kernel

end Series

end TableQuery
