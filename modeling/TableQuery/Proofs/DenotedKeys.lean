import TableQuery.Engine.Eager
import TableQuery.Function.Builtin
import TableQuery.Grouping
import TableQuery.Proofs.Names
import TableQuery.Proofs.Success
import Mathlib

/-!
# Items that denote keys

An item that denotes a key is given the value of the key. That is its own value if it is the same
expression, zeros apart, which are equal and yet differ in their signs. If the two are written
columns, one with an alias and one without, it is so exactly if the one with the alias is not a
column of that very name. Nothing follows from texts that are alike.
-/

namespace TableQuery

namespace Scalar

/-- Whether a value is a double of size zero. -/
def isZeroDouble : Scalar → Bool
  | .float x => x == 0.0
  | _ => false

/-- Doubles that compare equal are the same, zeros apart. -/
theorem float_eq_of_beq {x y : Float} (h : (x == y) = true) (hx : (x == 0.0) = false) : x = y := by
  obtain ⟨-, -, h | ⟨rfl, -⟩ | ⟨rfl, -⟩⟩ := Float.beq_iff_ne_nan_and_eq.1 h
  · exact h
  · cases hx
  · cases hx

/-- Scalars that compare equal are the same, zeros apart. -/
theorem eq_of_same {a b : Scalar} (h : same a b = true) (ha : a.isZeroDouble = false) : a = b := by
  cases a with
  | null =>
    cases b with
    | null => rfl
    | _ => cases h
  | bool x =>
    cases b with
    | bool y => exact congrArg Scalar.bool (eq_of_beq h)
    | _ => cases h
  | int x =>
    cases b with
    | int y => exact congrArg Scalar.int (eq_of_beq h)
    | _ => cases h
  | float x =>
    cases b with
    | float y => exact congrArg Scalar.float (float_eq_of_beq h ha)
    | _ => cases h
  | str x =>
    cases b with
    | str y => exact congrArg Scalar.str (eq_of_beq h)
    | _ => cases h

end Scalar

namespace Expr

mutual

/-- Whether a literal of an expression is a double of size zero. -/
def hasZeroDouble : Expr → Bool
  | .literal x => x.isZeroDouble
  | .column _ => false
  | .call _ args => anyZeroDouble args
  | .countStar => false
  | .neg e => hasZeroDouble e
  | .not e => hasZeroDouble e
  | .binary _ l r => hasZeroDouble l || hasZeroDouble r
  | .isNull e _ => hasZeroDouble e
  | .inList e items _ => hasZeroDouble e || anyZeroDouble items

def anyZeroDouble : List Expr → Bool
  | [] => false
  | e :: es => hasZeroDouble e || anyZeroDouble es

end

mutual

/-- Expressions that compare equal are the same, zeros apart. -/
theorem eq_of_same {e e' : Expr} (h : same e e' = true) (he : e.hasZeroDouble = false) : e = e' := by
  cases e with
  | literal x =>
    cases e' with
    | literal y => exact congrArg Expr.literal (Scalar.eq_of_same h he)
    | _ => cases h
  | column a =>
    cases e' with
    | column b => exact congrArg Expr.column (eq_of_beq h)
    | _ => cases h
  | countStar =>
    cases e' with
    | countStar => rfl
    | _ => cases h
  | call f xs =>
    cases e' with
    | call g ys =>
      obtain ⟨hf, hxs⟩ := Bool.and_eq_true_iff.1 h
      rw [eq_of_beq hf, eq_of_sameAll hxs he]
    | _ => cases h
  | neg a =>
    cases e' with
    | neg b => exact congrArg Expr.neg (eq_of_same h he)
    | _ => cases h
  | not a =>
    cases e' with
    | not b => exact congrArg Expr.not (eq_of_same h he)
    | _ => cases h
  | binary o a b =>
    cases e' with
    | binary p c d =>
      obtain ⟨h, hb⟩ := Bool.and_eq_true_iff.1 h
      obtain ⟨ho, ha⟩ := Bool.and_eq_true_iff.1 h
      obtain ⟨hza, hzb⟩ := Bool.or_eq_false_iff.1 he
      rw [of_decide_eq_true ho, eq_of_same ha hza, eq_of_same hb hzb]
    | _ => cases h
  | isNull a m =>
    cases e' with
    | isNull b n =>
      obtain ⟨hm, ha⟩ := Bool.and_eq_true_iff.1 h
      rw [eq_of_beq hm, eq_of_same ha he]
    | _ => cases h
  | inList a xs m =>
    cases e' with
    | inList b ys n =>
      obtain ⟨h, hxs⟩ := Bool.and_eq_true_iff.1 h
      obtain ⟨hm, ha⟩ := Bool.and_eq_true_iff.1 h
      obtain ⟨hza, hzxs⟩ := Bool.or_eq_false_iff.1 he
      rw [eq_of_beq hm, eq_of_same ha hza, eq_of_sameAll hxs hzxs]
    | _ => cases h

theorem eq_of_sameAll {es es' : List Expr} (h : sameAll es es' = true)
    (hes : anyZeroDouble es = false) : es = es' := by
  cases es with
  | nil =>
    cases es' with
    | nil => rfl
    | cons e es' => cases h
  | cons e es =>
    cases es' with
    | nil => cases h
    | cons e' es' =>
      obtain ⟨hhead, htail⟩ := Bool.and_eq_true_iff.1 h
      obtain ⟨hze, hzes⟩ := Bool.or_eq_false_iff.1 hes
      rw [eq_of_same hhead hze, eq_of_sameAll htail hzes]

end

end Expr

open Name

variable {columns : List String} {a b p q : String}

/-- A column written with an alias and the same without one are one exactly if the alias is not part
of the name of a column. -/
theorem resolved_eq_iff_of_alias {label : String} (ha : qualifier a = some label)
    (hb : qualifier b = none) (hab : unqualified a = unqualified b)
    (hp : resolve? a columns = some p) (hq : resolve? b columns = some q) :
    p = q ↔ a ∉ columns := by
  obtain rfl := eq_of_resolve? hq hb
  have hbare := (eq_qualify_of_qualifier ha).2
  rw [unqualified_of_qualifier hb] at hab
  constructor
  · rintro rfl hmem
    rw [resolve?_of_mem hmem] at hp
    have hdotted : ¬IsBare a := by
      rw [(eq_qualify_of_qualifier ha).1]
      exact not_isBare_qualify label (unqualified a)
    rw [Option.some.inj hp, ← hab] at hdotted
    exact hdotted hbare
  · intro hmem
    rw [eq_unqualified_of_resolve? hp hmem, hab]

theorem ne_of_qualifier {label : String} (ha : qualifier a = some label) (hb : qualifier b = none) :
    a ≠ b := by
  rintro rfl
  rw [ha] at hb
  cases hb

/-- Two names of what counts as the same column denote one column exactly if they are written alike,
or the one with an alias is not the name of a column itself. -/
theorem resolved_eq_iff (hab : Item.sameColumn a b = true) (hp : resolve? a columns = some p)
    (hq : resolve? b columns = some q) :
    p = q ↔ a = b ∨ ∀ name ∈ [a, b], (qualifier name).isSome = true → name ∉ columns := by
  obtain ⟨haliases, hcolumn⟩ := Bool.and_eq_true_iff.1 hab
  have hcolumn : unqualified a = unqualified b := eq_of_beq hcolumn
  cases ha : qualifier a with
  | none =>
    cases hb : qualifier b with
    | none =>
      obtain rfl : a = b := by
        rw [← unqualified_of_qualifier ha, hcolumn, unqualified_of_qualifier hb]
      simp [Option.some.inj (hp.symm.trans hq)]
    | some label =>
      rw [eq_comm, resolved_eq_iff_of_alias hb ha hcolumn.symm hq hp]
      simp [(ne_of_qualifier hb ha).symm, ha, hb]
  | some label =>
    cases hb : qualifier b with
    | none =>
      rw [resolved_eq_iff_of_alias ha hb hcolumn hp hq]
      simp [ne_of_qualifier ha hb, ha, hb]
    | some label' =>
      rw [ha, hb] at haliases
      obtain rfl : a = b := by
        rw [(eq_qualify_of_qualifier ha).1, (eq_qualify_of_qualifier hb).1, hcolumn,
          eq_of_beq haliases]
      simp [Option.some.inj (hp.symm.trans hq)]

/-- Two columns with the same values in every table are one. -/
theorem Bound.eq_of_eval_column
    (h : ∀ d row, (Bound.column p).eval d (.single row) = (Bound.column q).eval d (.single row)) :
    p = q := by
  by_contra hne
  have hqp : (q == p) = false := by simpa using Ne.symm hne
  have hvalues := h ⟨[(p, #[.int 1]), (q, #[.int 2])], 1⟩ 0
  simp [Bound.eval, Rows.column, Loaded.values, List.lookup_cons, hqp] at hvalues

namespace Item

/-- Whether an item denotes a key by more than its text. -/
def agrees (item key : Item) : Bool :=
  item.expr == key.expr ||
    match item.expr.asColumn?, key.expr.asColumn? with
    | some a, some b => sameColumn a b
    | _, _ => false

theorem agrees_of_denotes {item key : Item} (h : item.denotes key = true)
    (htext : Text.sameLetters (Text.squeeze item.text) (Text.squeeze key.text) = true →
      item.agrees key = true) : item.agrees key = true :=
  (Bool.or_eq_true_iff.1 h).elim id htext

/-- What agrees is the same expression, or both are written columns that count as the same. -/
theorem agrees_cases {item key : Item} (h : item.agrees key = true) :
    item.expr.same key.expr = true ∨
      ∃ a b, item.expr = .column a ∧ key.expr = .column b ∧ sameColumn a b = true := by
  refine (Bool.or_eq_true_iff.1 h).imp_right fun h => ?_
  cases hi : item.expr with
  | column a =>
    cases hk : key.expr with
    | column b =>
      rw [hi, hk] at h
      exact ⟨a, b, rfl, rfl, h⟩
    | _ => simp [hi, hk, Expr.asColumn?] at h
  | _ => simp [hi, Expr.asColumn?] at h

variable {item key : Item} {functions : Functions} {x y : Bound}

/-- The columns of a table that two written columns are bound to are one exactly if they have the
same values. -/
theorem eval_column_iff (hx : Bound.bind (.column a) columns functions .row = .ok x)
    (hy : Bound.bind (.column b) columns functions .row = .ok y)
    (hab : sameColumn a b = true) :
    (∀ d row, x.eval d (.single row) = y.eval d (.single row)) ↔
      a = b ∨ ∀ name ∈ [a, b], (qualifier name).isSome = true → name ∉ columns := by
  obtain ⟨p, hp, hx⟩ := bind_eq_ok.1 hx
  obtain ⟨q, hq, hy⟩ := bind_eq_ok.1 hy
  cases hx
  cases hy
  rw [← resolved_eq_iff hab (resolve_eq_ok.1 hp) (resolve_eq_ok.1 hq)]
  constructor
  · exact Bound.eq_of_eval_column
  · rintro rfl d row
    rfl

/-- An item without zeros that denotes a key by more than its text has the value of the key in every
row, except where both are columns, and the one written with an alias is a column of that very name.
-/
theorem denotes_key_iff (hx : Bound.bind item.expr columns functions .row = .ok x)
    (hy : Bound.bind key.expr columns functions .row = .ok y) (hdenotes : item.denotes key = true)
    (htext : Text.sameLetters (Text.squeeze item.text) (Text.squeeze key.text) = true →
      item.agrees key = true) (hzero : item.expr.hasZeroDouble = false) :
    (∀ d row, x.eval d (.single row) = y.eval d (.single row)) ↔
      ∀ a b, item.expr = .column a → key.expr = .column b →
        a = b ∨ ∀ name ∈ [a, b], (qualifier name).isSome = true → name ∉ columns := by
  rcases agrees_cases (agrees_of_denotes hdenotes htext) with h | ⟨a, b, ha, hb, hab⟩
  · have hsame := Expr.eq_of_same h hzero
    rw [hsame, hy] at hx
    cases hx
    refine iff_of_true (fun d row => rfl) fun a b ha hb => .inl ?_
    exact Expr.column.inj (ha.symm.trans (hsame.trans hb))
  · rw [ha] at hx
    rw [hb] at hy
    rw [eval_column_iff hx hy hab, ha, hb]
    constructor
    · rintro h _ _ ⟨⟩ ⟨⟩
      exact h
    · exact fun h => h a b rfl rfl

/-- A column that stands for nothing but itself. -/
def ofColumn (name : String) : Item :=
  .named (.column name) name none

theorem alias_denotes_key :
    ∃ x y, Bound.bind (ofColumn "t1.b").expr ["b", "t2.b"] .builtin .row = .ok x ∧
      Bound.bind (ofColumn "b").expr ["b", "t2.b"] .builtin .row = .ok y ∧
      (ofColumn "t1.b").denotes (ofColumn "b") = true ∧
      ∀ d row, x.eval d (.single row) = y.eval d (.single row) := by
  have hx : Bound.bind (ofColumn "t1.b").expr ["b", "t2.b"] .builtin .row = .ok (.column "b") := rfl
  have hy : Bound.bind (ofColumn "b").expr ["b", "t2.b"] .builtin .row = .ok (.column "b") := rfl
  have hdenotes : (ofColumn "t1.b").denotes (ofColumn "b") = true := by decide +kernel
  refine ⟨_, _, hx, hy, hdenotes,
    (denotes_key_iff hx hy hdenotes (fun _ => by decide +kernel) rfl).2 ?_⟩
  rintro _ _ ⟨⟩ ⟨⟩
  decide +kernel

/-- A joined table in which three columns are called `b`, but for the case and the alias. -/
def joinedBs : Table :=
  ⟨[⟨"b", .int64, [.int 10]⟩, ⟨"B", .int64, [.int 30]⟩, ⟨"t2.b", .int64, [.int 20]⟩]⟩

/-- A value written in a query. -/
def ofLiteral (x : Scalar) : Item :=
  .named (.literal x) x.written none

/-- Columns with and without an alias, columns or texts in different cases, and the two zeros denote
each other and have different values. -/
theorem denoted_keys_differ :
    ((ofColumn "t2.b").denotes (ofColumn "b") = true ∧
      (ofColumn "B").denotes (ofColumn "b") = true ∧
      (ofLiteral (.str "Yes")).denotes (ofLiteral (.str "yes")) = true ∧
      (ofLiteral (.float (-0.0))).denotes (ofLiteral (.float 0.0)) = true) ∧
    (Eager.rowValues .builtin (ofColumn "b").expr joinedBs = .ok [.int 10] ∧
      Eager.rowValues .builtin (ofColumn "t2.b").expr joinedBs = .ok [.int 20] ∧
      Eager.rowValues .builtin (ofColumn "B").expr joinedBs = .ok [.int 30]) ∧
    (Eager.rowValues .builtin (ofLiteral (.str "Yes")).expr joinedBs = .ok [.str "Yes"] ∧
      Eager.rowValues .builtin (ofLiteral (.str "yes")).expr joinedBs = .ok [.str "yes"]) ∧
    Eager.rowValues .builtin (ofLiteral (.float (-0.0))).expr joinedBs = .ok [.float (-0.0)] ∧
      Eager.rowValues .builtin (ofLiteral (.float 0.0)).expr joinedBs = .ok [.float 0.0] ∧
      (-0.0 : Float).toBits ≠ (0.0 : Float).toBits :=
  ⟨by decide +kernel, ⟨rfl, rfl, rfl⟩, ⟨rfl, rfl⟩, rfl, rfl, by decide +kernel⟩

end Item

end TableQuery
