import TableQuery.Proofs.Engines.Steps
import TableQuery.Proofs.HelperColumns
import TableQuery.Proofs.WellShaped

/-!
# Ordered rows

Sorting is stable and goes by all keys. A key compares two rows by their values in one column,
upwards or downwards, and null stands behind every value in either direction; rows that tie in one
key are compared by the next, and rows that tie in all of them keep their order. Keys that are
computed stand in helper columns, which are gone when the rows are in order.
-/

namespace TableQuery

/-! ## Insertion -/

section

variable {α : Type} {order : α → α → Ordering} {good earlier : α → α → Prop}

/-- An element finds its place among sorted ones that were all earlier. -/
theorem pairwise_insertBack (htrans : ∀ x y z, good x y → good y z → good x z) {x : α}
    (hlt : ∀ y, order x y = .lt → good x y) (hstay : ∀ y, order x y ≠ .lt → earlier y x → good y x)
    {done : List α} (hearlier : ∀ y ∈ done, earlier y x)
    (h : done.Pairwise fun a b => good b a) :
    (insertBack order x done).Pairwise fun a b => good b a := by
  induction done with
  | nil => exact List.pairwise_singleton _ _
  | cons y ys ih =>
    obtain ⟨hy, hys⟩ := List.pairwise_cons.1 h
    obtain ⟨hyx, hysx⟩ := List.forall_mem_cons.1 hearlier
    unfold insertBack
    split
    · next hbefore =>
      refine List.pairwise_cons.2 ⟨fun b hb => ?_, ih hysx hys⟩
      rcases List.mem_cons.1 ((perm_insertBack order x ys).mem_iff.1 hb) with rfl | hb
      · exact hlt y (eq_of_beq hbefore)
      · exact hy b hb
    · next hbehind =>
      have hgood : good y x := hstay y (fun hlt => hbehind (by rw [hlt]; rfl)) hyx
      refine List.pairwise_cons.2 ⟨fun b hb => ?_, h⟩
      rcases List.mem_cons.1 hb with rfl | hb
      · exact hgood
      · exact htrans b y x (hy b hb) hgood

/-- A list is sorted by a relation that is transitive, holds where the order puts an element in
front of an earlier one, and holds for an earlier element where the order does not. The elements
that have been inserted are sorted from the last to the first, and are earlier than all that have
not. -/
theorem pairwise_stableSort (htrans : ∀ x y z, good x y → good y z → good x z)
    (hlt : ∀ x y, order x y = .lt → good x y)
    (hstay : ∀ x y, order x y ≠ .lt → earlier y x → good y x) {xs : List α}
    (h : xs.Pairwise earlier) : (stableSort order xs).Pairwise good := by
  suffices go : ∀ done : List α, done.Pairwise (fun a b => good b a) →
      (∀ x ∈ xs, ∀ y ∈ done, earlier y x) →
      (xs.foldl (fun done x => insertBack order x done) done).Pairwise fun a b => good b a from
    List.pairwise_reverse.2 (go [] .nil (by simp))
  induction xs with
  | nil => exact fun done hdone _ => hdone
  | cons x xs ih =>
    obtain ⟨hx, hxs⟩ := List.pairwise_cons.1 h
    intro done hdone hearlier
    obtain ⟨hxdone, hxsdone⟩ := List.forall_mem_cons.1 hearlier
    refine ih hxs _ (pairwise_insertBack htrans (hlt x) (hstay x) hxdone hdone) fun z hz y hy => ?_
    rcases List.mem_cons.1 ((perm_insertBack order x done).mem_iff.1 hy) with rfl | hy
    · exact hx z hz
    · exact hxsdone z hz y hy

end

/-! ## Values -/

namespace Scalar

/-- Whether a value is less than another one of its kind. -/
def IsLess : Scalar → Scalar → Prop
  | .int a, .int b => a < b
  | .str a, .str b => a < b
  | .bool a, .bool b => a < b
  | _, _ => False

/-- Whether a value comes before another one in a direction: null comes last in both. -/
def Precedes (descending : Bool) (a b : Scalar) : Prop :=
  a.isNull = false ∧ (b.isNull = true ∨ if descending then b.IsLess a else a.IsLess b)

theorem IsLess.trans {a b c : Scalar} (hab : a.IsLess b) (hbc : b.IsLess c) : a.IsLess c := by
  cases a <;> cases b <;> first | cases hab | skip
  all_goals cases c <;> first | cases hbc | skip
  · exact Bool.lt_trans hab hbc
  · exact Std.lt_trans (α := Int64) hab hbc
  · exact Std.lt_trans (α := String) hab hbc

theorem Precedes.trans {descending : Bool} {a b c : Scalar} (hab : a.Precedes descending b)
    (hbc : b.Precedes descending c) : a.Precedes descending c := by
  obtain ⟨ha, hab⟩ := hab
  obtain ⟨hb, hbc⟩ := hbc
  refine ⟨ha, hbc.imp_right fun hbc => ?_⟩
  have hab := hab.resolve_left (by simp [hb])
  cases descending with
  | false => exact hab.trans hbc
  | true => exact hbc.trans hab

end Scalar

/-- What the outcome of a comparison says: which of two things comes first, or that they tie. -/
def Tells {α : Type} (before tie : α → α → Prop) (a b : α) : Ordering → Prop
  | .lt => before a b
  | .eq => tie a b
  | .gt => before b a

theorem Tells.imp {α β : Type} {before tie : α → α → Prop} {before' tie' : β → β → Prop} {a b : α}
    {c d : β} {o : Ordering} (h : Tells before tie a b o) (hlt : before a b → before' c d)
    (htie : tie a b → tie' c d) (hgt : before b a → before' d c) : Tells before' tie' c d o := by
  cases o with
  | lt => exact hlt h
  | eq => exact htie h
  | gt => exact hgt h

namespace Scalar

theorem tells_compare {β : Type} [Ord β] [Std.OrientedOrd β] [Std.LawfulEqOrd β] (f : β → Scalar)
    (h : ∀ x y, compare x y = .lt → (f x).IsLess (f y)) (x y : β) :
    Tells IsLess Eq (f x) (f y) (compare x y) := by
  cases hxy : compare x y with
  | lt => exact h x y hxy
  | eq => exact congrArg f (Std.LawfulEqCmp.compare_eq_iff_eq.1 hxy)
  | gt => exact h y x (Std.OrientedCmp.gt_iff_lt.1 hxy)

/-- Values of one type that are not null are sorted by which is less. -/
theorem tells_sortCompare {type : ColumnType} {a b : Scalar} (ha : a.fits type = true)
    (hb : b.fits type = true) (hna : a.isNull = false) (hnb : b.isNull = false) :
    Tells IsLess Eq a b (a.sortCompare b) := by
  cases a with
  | null => cases hna
  | float x => cases ha
  | bool x =>
    cases b with
    | bool y =>
      have hlt : ∀ x y : Bool, compare x y = .lt → x < y := by decide
      exact tells_compare .bool hlt x y
    | null => cases hnb
    | _ => simp_all [fits]
  | int x =>
    cases b with
    | int y => exact tells_compare .int (fun _ _ => compareOfLessAndEq_eq_lt.1) x y
    | null => cases hnb
    | _ => simp_all [fits]
  | str x =>
    cases b with
    | str y => exact tells_compare .str (fun _ _ => compareOfLessAndEq_eq_lt.1) x y
    | null => cases hnb
    | _ => simp_all [fits]

theorem isNull_eq_true {v : Scalar} (h : v.isNull = true) : v = .null := by
  cases v <;> first | rfl | cases h

/-- Values of one type are sorted by which comes before the other in the direction. -/
theorem tells_directed {type : ColumnType} {a b : Scalar} (ha : a.fits type = true)
    (hb : b.fits type = true) (descending : Bool) :
    Tells (Precedes descending) Eq a b (directed isNull sortCompare descending a b) := by
  unfold directed
  cases hna : a.isNull with
  | true =>
    rw [Bool.not_true, Bool.and_false, Bool.false_and, if_neg Bool.false_ne_true, sortCompare, hna]
    cases hnb : b.isNull with
    | true => exact (isNull_eq_true hna).trans (isNull_eq_true hnb).symm
    | false => exact ⟨hnb, .inl hna⟩
  | false =>
    cases hnb : b.isNull with
    | true =>
      rw [Bool.not_true, Bool.and_false, if_neg Bool.false_ne_true, sortCompare, hna, hnb]
      exact ⟨hna, .inl hnb⟩
    | false =>
      cases descending with
      | false =>
        exact (tells_sortCompare ha hb hna hnb).imp (fun h => ⟨hna, .inr h⟩) id
          fun h => ⟨hnb, .inr h⟩
      | true =>
        exact (tells_sortCompare hb ha hnb hna).imp (fun h => ⟨hna, .inr h⟩) Eq.symm
          fun h => ⟨hnb, .inr h⟩

end Scalar

/-! ## Keys -/

/-- A sort key: its values in the rows, and its direction. -/
structure SortKey where
  values : List Scalar
  descending : Bool

namespace SortKey

/-- The value of a key in a row. -/
def valueAt (key : SortKey) (row : Nat) : Scalar :=
  key.values[row]?.getD .null

/-- Whether all values of a key that are not null are of one type: whole numbers, texts or truth
values. -/
def IsUniform (key : SortKey) : Prop :=
  ∃ type, ∀ v ∈ key.values, v.fits type = true

/-- Whether a row comes before another one by the first key in which their values differ. -/
def Precedes : List SortKey → Nat → Nat → Prop
  | [], _, _ => False
  | key :: keys, i, j =>
    (key.valueAt i).Precedes key.descending (key.valueAt j) ∨
      (key.valueAt i = key.valueAt j ∧ Precedes keys i j)

/-- Whether two rows have the same value in every key. -/
def Tie (keys : List SortKey) (i j : Nat) : Prop :=
  ∀ key ∈ keys, key.valueAt i = key.valueAt j

/-- Whether a row belongs in front of another one: by the keys, or by its place if they tie. -/
def InFront (keys : List SortKey) (i j : Nat) : Prop :=
  Precedes keys i j ∨ (Tie keys i j ∧ i < j)

theorem Precedes.trans {keys : List SortKey} {i j k : Nat} (hij : Precedes keys i j)
    (hjk : Precedes keys j k) : Precedes keys i k := by
  induction keys with
  | nil => cases hij
  | cons key keys ih =>
    rcases hij with hij | ⟨hij, hij'⟩
    · rcases hjk with hjk | ⟨hjk, -⟩
      · exact .inl (hij.trans hjk)
      · exact .inl (hjk ▸ hij)
    · rcases hjk with hjk | ⟨hjk, hjk'⟩
      · exact .inl (hij ▸ hjk)
      · exact .inr ⟨hij.trans hjk, ih hij' hjk'⟩

theorem Precedes.congr_left {keys : List SortKey} {i j k : Nat} (hij : Tie keys i j)
    (hjk : Precedes keys j k) : Precedes keys i k := by
  induction keys with
  | nil => cases hjk
  | cons key keys ih =>
    obtain ⟨hkey, hkeys⟩ := List.forall_mem_cons.1 hij
    rcases hjk with hjk | ⟨hjk, hjk'⟩
    · exact .inl (hkey ▸ hjk)
    · exact .inr ⟨hkey.trans hjk, ih hkeys hjk'⟩

theorem Precedes.congr_right {keys : List SortKey} {i j k : Nat} (hij : Precedes keys i j)
    (hjk : Tie keys j k) : Precedes keys i k := by
  induction keys with
  | nil => cases hij
  | cons key keys ih =>
    obtain ⟨hkey, hkeys⟩ := List.forall_mem_cons.1 hjk
    rcases hij with hij | ⟨hij, hij'⟩
    · exact .inl (hkey ▸ hij)
    · exact .inr ⟨hij.trans hkey, ih hij' hkeys⟩

theorem InFront.trans {keys : List SortKey} {i j k : Nat} (hij : InFront keys i j)
    (hjk : InFront keys j k) : InFront keys i k := by
  rcases hij with hij | ⟨hij, hlt⟩
  · rcases hjk with hjk | ⟨hjk, -⟩
    · exact .inl (hij.trans hjk)
    · exact .inl (hij.congr_right hjk)
  · rcases hjk with hjk | ⟨hjk, hlt'⟩
    · exact .inl (hjk.congr_left hij)
    · exact .inr ⟨fun key hkey => (hij key hkey).trans (hjk key hkey), Nat.lt_trans hlt hlt'⟩

theorem fits_valueAt {key : SortKey} {type : ColumnType} (h : ∀ v ∈ key.values, v.fits type = true)
    (row : Nat) : (key.valueAt row).fits type = true := by
  unfold SortKey.valueAt
  cases hv : key.values[row]? with
  | none => rfl
  | some v => exact h v (List.mem_of_getElem? hv)

/-- The comparison of two rows by a key. -/
def order (key : SortKey) (i j : Nat) : Ordering :=
  directed Scalar.isNull Scalar.sortCompare key.descending (key.valueAt i) (key.valueAt j)

theorem tells_byKeys {keys : List SortKey} (h : ∀ key ∈ keys, key.IsUniform) (i j : Nat) :
    Tells (Precedes keys) (Tie keys) i j (byKeys (keys.map order) i j) := by
  induction keys with
  | nil => exact List.forall_mem_nil _
  | cons key keys ih =>
    obtain ⟨⟨type, htype⟩, hkeys⟩ := List.forall_mem_cons.1 h
    have hkey := Scalar.tells_directed (fits_valueAt htype i) (fits_valueAt htype j) key.descending
    change Tells _ _ i j ((order key i j).then (byKeys (keys.map order) i j))
    rw [← order] at hkey
    cases hi : order key i j with
    | lt =>
      rw [hi] at hkey
      exact .inl hkey
    | gt =>
      rw [hi] at hkey
      exact .inl hkey
    | eq =>
      rw [hi] at hkey
      exact (ih hkeys).imp (fun h => .inr ⟨hkey, h⟩)
        (fun h => List.forall_mem_cons.2 ⟨hkey, h⟩) fun h => .inr ⟨hkey.symm, h⟩

/-- Rows that are sorted by uniform keys stand each in front of the next. -/
theorem pairwise_inFront {keys : List SortKey} (h : ∀ key ∈ keys, key.IsUniform) (n : Nat) :
    (stableSort (byKeys (keys.map order)) (List.range n)).Pairwise (InFront keys) := by
  have htrans : ∀ i j k, InFront keys i j → InFront keys j k → InFront keys i k :=
    fun _ _ _ => InFront.trans
  refine pairwise_stableSort htrans ?_ ?_ List.pairwise_lt_range
  · intro i j hlt
    have htells := tells_byKeys h i j
    rw [hlt] at htells
    exact .inl htells
  · intro i j hnot hlt
    have htells := tells_byKeys h i j
    cases ho : byKeys (keys.map order) i j with
    | lt => exact absurd ho hnot
    | eq =>
      rw [ho] at htells
      exact .inr ⟨fun key hkey => (htells key hkey).symm, hlt⟩
    | gt =>
      rw [ho] at htells
      exact .inl htells

end SortKey

/-- A sort reads the columns of its keys and takes the rows in their order. -/
theorem Eager.exists_keys_of_sort {names : List (String × Bool)} {t out : Table}
    (h : sort names t = .ok out) :
    ∃ keys : List SortKey,
      List.Forall₂ (fun name key => ∃ c, t.column name.1 = .ok c ∧ key = ⟨c.scalars, name.2⟩)
        names keys ∧
      out = t.take (stableSort (byKeys (keys.map SortKey.order)) (List.range t.height)) := by
  obtain ⟨values, hvalues, h⟩ := bind_eq_ok.1 h
  cases h
  refine ⟨values.map fun (xs, descending) => ⟨xs.toList, descending⟩, ?_, ?_⟩
  · rw [List.forall₂_map_right_iff]
    refine (mapM_eq_ok.1 hvalues).imp fun name value h => ?_
    obtain ⟨c, hc, h⟩ := bind_eq_ok.1 h
    cases h
    exact ⟨c, hc, by simp⟩
  · have horders : (values.map fun (xs, descending) => (⟨xs.toList, descending⟩ : SortKey)).map
        SortKey.order = values.map fun (xs, descending) (i j : Nat) =>
          directed Scalar.isNull Scalar.sortCompare descending (xs.getD i default)
            (xs.getD j default) := by
      rw [List.map_map]
      refine List.map_congr_left fun value _ => ?_
      funext i j
      simp only [Function.comp_apply, SortKey.order, SortKey.valueAt, Array.getElem?_toList,
        Array.getD_eq_getD_getElem?]
      rfl
    rw [horders]
    rfl

namespace Setting

variable {fs : Functions} {r : Relation} {t : Table} {w : Working} {items : List OrderItem}

/-- An order whose keys are all columns also selects the columns that were there before: they are
all there are. -/
theorem exists_select_of_order (hr : r.collect = .ok t) (ht : t.names.Nodup)
    (h : order ⟨.eager, fs⟩ (.plain r) items = .ok w) :
    ∃ extended sorted out, Eager.extend fs (computedOrder t.names items) t = .ok extended ∧
      Eager.sort (orderNames t.names items) extended = .ok sorted ∧
      sorted.select t.names = .ok out ∧ w = .plain (.frame out) := by
  obtain ⟨extended, sorted, out, hextended, hsorted, hout, rfl⟩ := steps_of_order hr h
  refine ⟨extended, sorted, out, hextended, hsorted, ?_, rfl⟩
  rcases hout with ⟨rfl, rfl⟩ | hout
  · obtain ⟨rows, -, rfl⟩ := Eager.exists_perm_of_sort hsorted
    rw [← Table.names_take rows extended] at ht ⊢
    exact Table.select_of_columns fun c hc => Table.column_of_mem ht hc
  · exact hout

/-- The sort keys of a table: each is a column of the table, or else one that is computed beside its
columns. -/
def AreOrderKeys (fs : Functions) (t : Table) (items : List OrderItem) (keys : List SortKey) :
    Prop :=
  ∃ extended, Eager.extend fs (computedOrder t.names items) t = .ok extended ∧
    List.Forall₂ (fun (o, i) key => key.descending = !o.ascending ∧ ∃ c, key.values = c.scalars ∧
      match orderColumn? t.names o.item with
      | some name => t.column name = .ok c
      | none => extended.column (orderHelper i) = .ok c) items.zipIdx keys

/-- Helper columns are added under names of their own. -/
theorem column_extend_order {extended : Table} (hhelpers : ∀ i, orderHelper i ∉ t.names)
    (h : Eager.extend fs (computedOrder t.names items) t = .ok extended) {name : String}
    (hname : name ∈ t.names) : extended.column name = t.column name := by
  refine Eager.column_extend h fun hmem => ?_
  obtain ⟨⟨name', e⟩, hcomputed, rfl⟩ := List.mem_map.1 hmem
  obtain ⟨⟨o, i, column⟩, -, heq⟩ := List.mem_map.1 hcomputed
  cases heq
  exact hhelpers i hname

/-- An order puts the rows of a table into the order of the keys, and does nothing else: the columns
are those that there were, each row stands where the keys say, nulls last, and rows that tie in all
keys stay in their order. -/
theorem order_sorts (hr : r.collect = .ok t) (ht : t.WellShaped)
    (hhelpers : ∀ i, orderHelper i ∉ t.names) (h : order ⟨.eager, fs⟩ (.plain r) items = .ok w) :
    ∃ keys rows, AreOrderKeys fs t items keys ∧ rows.Perm (List.range t.height) ∧
      w = .plain (.frame (t.take rows)) ∧
      ((∀ key ∈ keys, key.IsUniform) → rows.Pairwise (SortKey.InFront keys)) := by
  obtain ⟨extended, sorted, out, hextended, hsorted, hselect, rfl⟩ :=
    exists_select_of_order hr ht.nodup h
  obtain ⟨keys, hkeys, rfl⟩ := Eager.exists_keys_of_sort hsorted
  have hcolumn : ∀ name ∈ t.names, extended.column name = t.column name := fun name hname =>
    column_extend_order hhelpers hextended hname
  have hheight : extended.height = t.height :=
    (Eager.isRectangular_extend ht.rectangular hextended).2
  rw [hheight] at hselect
  refine ⟨keys, _, ⟨extended, hextended, ?_⟩, perm_stableSort _ _, ?_, fun huniform =>
    SortKey.pairwise_inFront huniform t.height⟩
  · rw [orderNames, List.forall₂_map_left_iff] at hkeys
    refine hkeys.imp fun (o, i) key hkey => ?_
    obtain ⟨c, hc, rfl⟩ := hkey
    refine ⟨rfl, c, rfl, ?_⟩
    dsimp only at hc ⊢
    cases hfound : orderColumn? t.names o.item with
    | none => rwa [hfound] at hc
    | some name =>
      rw [hfound, Option.getD_some, hcolumn name (mem_of_orderColumn? hfound)] at hc
      exact hc
  · generalize stableSort _ _ = rows at hselect ⊢
    have hout : (extended.take rows).select t.names = .ok (t.take rows) := by
      rw [← Table.names_take rows t]
      refine Table.select_of_columns fun c hc => ?_
      have hname := List.mem_map_of_mem (f := Column.name) hc
      rw [← Table.names, Table.names_take] at hname
      rw [Table.column_take, hcolumn _ hname, ← Table.column_take]
      exact Table.column_of_mem (by rw [Table.names_take]; exact ht.nodup) hc
    rw [hselect] at hout
    rw [Except.ok.inj hout]

/-- People with their cities and ages, of which some are missing. -/
def people : Table :=
  ⟨[⟨"city", .str, [.str "Bern", .null, .str "Aarau", .str "Bern"]⟩,
    ⟨"age", .int64, [.int 30, .int 7, .null, .int 41]⟩]⟩

/-- By city, and in each city by a computed key downwards. -/
def byCity : List OrderItem :=
  [⟨⟨.column "city", "city", "city"⟩, true⟩, ⟨⟨.neg (.column "age"), "-age", "-age"⟩, false⟩]

theorem not_mem_names_people (i : Nat) : orderHelper i ∉ people.names := by
  have hfirst : (orderHelper i).toList.head? = some '_' := by
    change ("__fq_order_" ++ toString i).toList.head? = some '_'
    rw [String.toList_append]
    rfl
  intro hmem
  rcases List.mem_pair.1 hmem with h | h
  · rw [h] at hfirst
    exact absurd hfirst (by decide)
  · rw [h] at hfirst
    exact absurd hfirst (by decide)

theorem isUniform_byCity {keys : List SortKey} (h : AreOrderKeys .builtin people byCity keys) :
    ∀ key ∈ keys, key.IsUniform := by
  have hfirst : orderColumn? people.names ⟨.column "city", "city", "city"⟩ = some "city" := by
    decide +kernel
  have hsecond : orderColumn? people.names ⟨.neg (.column "age"), "-age", "-age"⟩ = none := by
    decide +kernel
  have hcity : (people.column "city").toOption.all
      (fun c => c.scalars.all (Scalar.fits .str)) = true := by decide +kernel
  have hage : (Eager.extend .builtin (computedOrder people.names byCity) people).toOption.all
      (fun t => (t.column (orderHelper 1)).toOption.all
        fun c => c.scalars.all (Scalar.fits .int64)) = true := by decide +kernel
  obtain ⟨extended, hextended, hkeys⟩ := h
  rcases hkeys with _ | ⟨⟨-, c, hc, hcolumn⟩, _ | ⟨⟨-, d, hd, hcomputed⟩, ⟨⟩⟩⟩
  rw [hfirst] at hcolumn
  rw [hsecond] at hcomputed
  dsimp only at hcolumn hcomputed
  rw [hcolumn] at hcity
  rw [hextended] at hage
  simp only [Except.toOption, Option.all_some, hcomputed] at hcity hage
  refine List.forall_mem_cons.2 ⟨⟨.str, ?_⟩, List.forall_mem_cons.2 ⟨⟨.int64, ?_⟩,
    List.forall_mem_nil _⟩⟩
  · rw [hc]
    exact List.all_eq_true.1 hcity
  · rw [hd]
    exact List.all_eq_true.1 hage

theorem order_sorts_people :
    ∃ w keys rows, order ⟨.eager, .builtin⟩ (.plain (.frame people)) byCity = .ok w ∧
      AreOrderKeys .builtin people byCity keys ∧ (∀ key ∈ keys, key.IsUniform) ∧
      rows.Perm (List.range people.height) ∧ w = .plain (.frame (people.take rows)) ∧
      rows.Pairwise (SortKey.InFront keys) := by
  obtain ⟨w, hw⟩ := exists_eq_ok
    (x := order ⟨.eager, .builtin⟩ (.plain (.frame people)) byCity) (by decide +kernel)
  have hshape : people.WellShaped := ⟨by decide, by unfold Table.IsRectangular; decide⟩
  obtain ⟨keys, rows, hkeys, hrows, hout, hsorted⟩ :=
    order_sorts rfl hshape not_mem_names_people hw
  have huniform := isUniform_byCity hkeys
  exact ⟨w, keys, rows, hw, hkeys, huniform, hrows, hout, hsorted huniform⟩

end Setting

end TableQuery
