import TableQuery.Proofs.Engines.Reductions
import TableQuery.Session.Pipeline

/-!
# Queries that compute nothing beside reductions

The items and keys of such a query are bare columns, or reductions of columns, and its condition
joins comparisons of one type and tests for missing values. Whether a query is one depends on the
types of the columns of its joined tables, and can be computed.
-/

namespace TableQuery

instance (op : BinaryOp) (type : ColumnType) : Decidable (op.Judges type) :=
  inferInstanceAs (Decidable (_ ∨ _))

instance (a : Aggregate) (type : ColumnType) : Decidable (a.Takes type) :=
  inferInstanceAs (Decidable (_ ∧ _))

namespace Expr

/-- The type of the column that a name denotes. -/
def columnType? (s : Schema) (name : String) : Option ColumnType :=
  (Name.resolve? name (s.map Prod.fst)).bind fun c => s.lookup c

theorem typeOf_of_columnType? {s : Schema} {name : String} {type : ColumnType}
    (h : columnType? s name = some type) :
    ∀ c, Name.resolve? name (s.map Prod.fst) = some c → s.typeOf c = .ok type := by
  intro c hc
  rw [columnType?, hc, Option.bind_some] at h
  rw [Schema.typeOf, h]

mutual

/-- The type of an expression, if it has one. -/
def type? (s : Schema) : Expr → Option ColumnType
  | .literal x => if (Cell.ofScalar x).1.isBasic then some (Cell.ofScalar x).1 else none
  | .column name => columnType? s name
  | .not e => if type? s e = some .bool then some .bool else none
  | .binary op l r => do
    let a ← type? s l
    let b ← type? s r
    if a = b ∧ op.Judges a then some .bool else none
  | .isNull e _ => do
    let _ ← type? s e
    some .bool
  | .inList e items _ => do
    let a ← type? s e
    if items.isEmpty = false ∧ allHaveType s a items then some .bool else none
  | _ => none

/-- Whether all expressions have a type. -/
def allHaveType (s : Schema) (type : ColumnType) : List Expr → Bool
  | [] => true
  | e :: es => type? s e = some type && allHaveType s type es

end

mutual

theorem hasType_of_type? {s : Schema} {type : ColumnType} :
    ∀ {e : Expr}, e.type? s = some type → e.HasType s type
  | .literal x, h => by
    rw [type?] at h
    split at h
    · next hbasic =>
      cases h
      cases x with
      | null => cases hbasic
      | float v => cases hbasic
      | bool b => exact .literal rfl rfl
      | int i => exact .literal rfl rfl
      | str v => exact .literal rfl rfl
    · cases h
  | .column name, h => .column (typeOf_of_columnType? h)
  | .not e, h => by
    rw [type?] at h
    split at h
    · next he =>
      cases h
      exact .not (hasType_of_type? he)
    · cases h
  | .binary op l r, h => by
    rw [type?] at h
    obtain ⟨a, ha, h⟩ := Option.bind_eq_some_iff.1 h
    obtain ⟨b, hb, h⟩ := Option.bind_eq_some_iff.1 h
    split at h
    · next hop =>
      obtain ⟨rfl, hop⟩ := hop
      cases h
      exact .binary hop (hasType_of_type? ha) (hasType_of_type? hb)
    · cases h
  | .isNull e negated, h => by
    rw [type?] at h
    obtain ⟨a, ha, h⟩ := Option.bind_eq_some_iff.1 h
    cases h
    exact .isNull (hasType_of_type? ha) negated
  | .inList e items negated, h => by
    rw [type?] at h
    obtain ⟨a, ha, h⟩ := Option.bind_eq_some_iff.1 h
    split at h
    · next hitems =>
      obtain ⟨hne, hitems⟩ := hitems
      cases h
      refine .inList (hasType_of_type? ha) ?_ (hasType_of_all hitems) negated
      rintro rfl
      cases hne
    · cases h

theorem hasType_of_all {s : Schema} {type : ColumnType} :
    ∀ {items : List Expr}, allHaveType s type items = true → ∀ e ∈ items, e.HasType s type
  | [], _ => List.forall_mem_nil _
  | e :: es, h => by
    rw [allHaveType, Bool.and_eq_true, decide_eq_true_iff] at h
    exact List.forall_mem_cons.2 ⟨hasType_of_type? h.1, hasType_of_all h.2⟩

end

/-- Whether an expression is the number of rows, or an aggregate of a column that takes its values.
-/
def isReduction (s : Schema) : Expr → Bool
  | .countStar => true
  | .call name [.column source] =>
    match Aggregate.ofName? name, columnType? s source with
    | some a, some type => decide (a.Takes type)
    | _, _ => false
  | _ => false

theorem isReduction_sound {s : Schema} {e : Expr} (h : e.isReduction s = true) :
    e.IsReduction s := by
  unfold isReduction at h
  split at h
  · exact .countStar
  · next name source =>
    split at h
    · next a type ha htype =>
      have htakes : a.Takes type := by simpa using h
      exact .column ha fun c hc => ⟨type, typeOf_of_columnType? htype c hc, htakes⟩
    · cases h
  · cases h

/-- Whether an expression is a bare column. -/
def isColumn (e : Expr) : Bool :=
  e.asColumn?.isSome

theorem exists_of_isColumn {e : Expr} (h : e.isColumn = true) : ∃ name, e = .column name := by
  cases e with
  | column name => exact ⟨name, rfl⟩
  | _ => cases h

end Expr

namespace Select

/-- Whether a query computes no columns beside reductions, over joined tables with columns of the
given types. A condition counts as it is read, with its signs of equality paired. -/
structure Fits (q : Select) (s : Schema) : Prop where
  condition : ∀ c e, q.condition = some c → Expr.parse (Sql.pairSigns c) = .ok e →
    e.HasType s .bool
  items : ∀ items, q.items = some items →
    ∀ i ∈ items, (∃ name, i.expr = .column name) ∨ i.expr.IsReduction s
  keys : ∀ keys, q.keys = some keys → ∀ k ∈ keys, ∃ name, k.expr = .column name
  /-- The keys denote different columns. -/
  distinct : ∀ keys columns, q.keys = some keys →
    keys.mapM (Setting.keyColumn (s.map Prod.fst)) = .ok columns → columns.Nodup
  order : ∀ items, q.order = some items → ∀ o ∈ items, ∃ name, o.item.expr = .column name

/-- Whether a query computes no columns beside reductions, as a computation. -/
def fits (q : Select) (s : Schema) : Bool :=
  q.condition.all (fun c =>
    ((Expr.parse (Sql.pairSigns c)).toOption.all fun e => e.type? s = some .bool)) &&
  (q.items.all fun items => items.all fun i => i.expr.isColumn || i.expr.isReduction s) &&
  (q.keys.all fun keys => keys.all (fun k => k.expr.isColumn) &&
    (keys.mapM (Setting.keyColumn (s.map Prod.fst))).toOption.all fun columns =>
      decide columns.Nodup) &&
  q.order.all fun items => items.all fun o => o.item.expr.isColumn

theorem fits_sound {q : Select} {s : Schema} (h : q.fits s = true) : q.Fits s := by
  simp only [fits, Bool.and_eq_true] at h
  obtain ⟨⟨⟨hcondition, hitems⟩, hkeys⟩, horder⟩ := h
  constructor
  · intro c e hc he
    rw [hc, Option.all_some, he] at hcondition
    exact Expr.hasType_of_type? (of_decide_eq_true hcondition)
  · intro items hitems' i hi
    rw [hitems', Option.all_some, List.all_eq_true] at hitems
    rcases Bool.or_eq_true_iff.1 (hitems i hi) with h | h
    · exact .inl (Expr.exists_of_isColumn h)
    · exact .inr (Expr.isReduction_sound h)
  · intro keys hkeys' k hk
    rw [hkeys', Option.all_some, Bool.and_eq_true, List.all_eq_true] at hkeys
    exact Expr.exists_of_isColumn (hkeys.1 k hk)
  · intro keys columns hkeys' hcolumns
    rw [hkeys', Option.all_some, Bool.and_eq_true, hcolumns] at hkeys
    exact of_decide_eq_true hkeys.2
  · intro items horder' o ho
    rw [horder', Option.all_some, List.all_eq_true] at horder
    exact Expr.exists_of_isColumn (horder o ho)

end Select

end TableQuery
