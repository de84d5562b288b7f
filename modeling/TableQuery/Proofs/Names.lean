import TableQuery.JoinPlan

/-!
# Qualified names

A column with an alias in front can be taken apart again if the column holds no dot: the alias ends
at the last one. So different aliases, or different columns, make different names, and a qualified
name is no name of a bare column.
-/

namespace TableQuery.Name

/-- Whether a name holds no dot. -/
def IsBare (name : String) : Prop :=
  '.' ∉ name.toList

theorem splitLastDot?_append {label column : List Char} (h : '.' ∉ column) :
    splitLastDot? (label ++ '.' :: column) = some (label, column) := by
  have hne : ∀ c ∈ column.reverse, (c != '.') = true := by
    intro c hc
    have : c ≠ '.' := fun e => h (by simpa [e] using hc)
    simpa using this
  have hreverse : (label ++ '.' :: column).reverse = column.reverse ++ '.' :: label.reverse := by
    simp
  have htake : (column.reverse ++ '.' :: label.reverse).takeWhile (· != '.') = column.reverse := by
    rw [List.takeWhile_append_of_pos hne]
    simp
  have hdrop : (column.reverse ++ '.' :: label.reverse).dropWhile (· != '.') =
      '.' :: label.reverse := by
    rw [List.dropWhile_append_of_pos hne]
    simp
  simp only [splitLastDot?, hreverse, htake, hdrop, List.reverse_reverse]

theorem toList_qualify (label column : String) :
    (qualify label column).toList = label.toList ++ '.' :: column.toList := by
  simp [qualify]

theorem qualify_right_injective (label : String) : Function.Injective (qualify label) := by
  intro column column' h
  have htext := congrArg String.toList h
  rw [toList_qualify, toList_qualify] at htext
  exact String.toList_injective (List.cons.inj (List.append_cancel_left htext)).2

/-- A qualified name is taken apart again. -/
theorem splitQualified_qualify {label column : String} (hlabel : label ≠ "")
    (hcolumn : IsBare column) : splitQualified (qualify label column) = (some label, column) := by
  have hne : label.toList.isEmpty = false := by
    simpa using fun h => hlabel (String.toList_eq_nil_iff.1 h)
  simp [splitQualified, toList_qualify, splitLastDot?_append hcolumn, hne]

theorem unqualified_qualify {label column : String} (hlabel : label ≠ "")
    (hcolumn : IsBare column) : unqualified (qualify label column) = column := by
  simp [unqualified, splitQualified_qualify hlabel hcolumn]

theorem qualify_inj {label column label' column' : String} (hlabel : label ≠ "")
    (hlabel' : label' ≠ "") (hcolumn : IsBare column) (hcolumn' : IsBare column')
    (h : qualify label column = qualify label' column') : label = label' ∧ column = column' := by
  have hsplit := splitQualified_qualify hlabel hcolumn
  rw [h, splitQualified_qualify hlabel' hcolumn'] at hsplit
  cases hsplit
  exact ⟨rfl, rfl⟩

theorem not_isBare_qualify (label column : String) : ¬IsBare (qualify label column) := by
  simp [IsBare, toList_qualify]

theorem qualify_ne {label column name : String} (h : IsBare name) : qualify label column ≠ name :=
  fun e => not_isBare_qualify label column (e ▸ h)

theorem splitLastDot?_eq_some {cs label column : List Char}
    (h : splitLastDot? cs = some (label, column)) : cs = label ++ '.' :: column ∧ '.' ∉ column := by
  have hreverse := List.takeWhile_append_dropWhile (p := (· != '.')) (l := cs.reverse)
  unfold splitLastDot? at h
  split at h
  · cases h
  · next dot before hdrop =>
    cases h
    have hdot : ¬(dot != '.') = true := by
      have := List.head_dropWhile_not (· != '.') (l := cs.reverse) (by simp [hdrop])
      simpa [hdrop] using this
    obtain rfl : dot = '.' := by simpa using hdot
    rw [hdrop] at hreverse
    refine ⟨by simpa using (congrArg List.reverse hreverse).symm, fun hmem => ?_⟩
    have := List.all_eq_true.1 List.all_takeWhile _ (List.mem_reverse.1 hmem)
    cases this

/-- A name with an alias is that alias, a dot, and the column without it, which holds no dot. -/
theorem eq_qualify_of_qualifier {name label : String} (h : qualifier name = some label) :
    name = qualify label (unqualified name) ∧ IsBare (unqualified name) := by
  unfold qualifier at h
  unfold unqualified
  revert h
  unfold splitQualified
  split
  · next l c hsplit =>
    obtain ⟨happend, hbare⟩ := splitLastDot?_eq_some hsplit
    split
    · exact nofun
    · rintro ⟨⟩
      refine ⟨String.toList_injective ?_, by simpa [IsBare] using hbare⟩
      simp [toList_qualify, happend]
  · exact nofun

theorem unqualified_of_qualifier {name : String} (h : qualifier name = none) :
    unqualified name = name := by
  unfold qualifier at h
  unfold unqualified
  revert h
  unfold splitQualified
  split
  · split
    · exact fun _ => rfl
    · exact nofun
  · exact fun _ => rfl

/-- A name that is no column denotes the column without the alias. -/
theorem eq_unqualified_of_resolve? {name c : String} {columns : List String}
    (h : resolve? name columns = some c) (hname : name ∉ columns) : c = unqualified name := by
  have hnot : columns.contains name = false := by simpa using hname
  simp only [resolve?, hnot, Bool.false_eq_true, if_false] at h
  split at h
  · cases h
    rfl
  · cases h

theorem resolve_eq_ok {name c : String} {columns : List String} :
    resolve name columns = .ok c ↔ resolve? name columns = some c := by
  unfold resolve
  cases resolve? name columns <;> simp

/-- A name without an alias denotes only itself. -/
theorem eq_of_resolve? {name c : String} {columns : List String}
    (h : resolve? name columns = some c) (hname : qualifier name = none) : c = name := by
  by_cases hmem : name ∈ columns
  · rw [resolve?_of_mem hmem] at h
    exact (Option.some.inj h).symm
  · rw [eq_unqualified_of_resolve? h hmem, unqualified_of_qualifier hname]

/-- Whether a name begins as the names of helper columns do. -/
def BeginsAsHelper (name : String) : Prop :=
  "__fq_".toList <+: name.toList

/-- Whether a name is no helper's. A qualified name is none, however it begins. -/
def IsOrdinary (name : String) : Prop :=
  IsBare name → ¬BeginsAsHelper name

theorem isOrdinary_of_not_begins {name : String} (h : ¬BeginsAsHelper name) : IsOrdinary name :=
  fun _ => h

theorem isOrdinary_qualify (label column : String) : IsOrdinary (qualify label column) :=
  fun h => absurd h (not_isBare_qualify label column)

/-- A number is written with digits alone. -/
theorem not_mem_toString {c : Char} (hc : c.isDigit = false) (i : Nat) :
    c ∉ (toString i).toList := by
  intro h
  have : (toString i).toList = Nat.toDigits 10 i := by simp
  rw [this] at h
  have := Nat.isDigit_of_mem_toDigits (by decide) (by decide) h
  rw [hc] at this
  cases this

/-- A number behind the beginning of a helper's name makes a helper's name. -/
theorem not_isOrdinary_of_number {name : String} {word : List Char} {i : Nat}
    (h : name.toList = word ++ (toString i).toList) (hword : '.' ∉ word)
    (hbegins : "__fq_".toList <+: word) : ¬IsOrdinary name := by
  intro hordinary
  refine hordinary ?_ ?_
  · rw [IsBare, h, List.mem_append, not_or]
    exact ⟨hword, not_mem_toString rfl i⟩
  · rw [BeginsAsHelper, h]
    exact hbegins.trans (List.prefix_append _ _)

/-- Different numbers make different names. -/
theorem eq_of_number {name name' : String} {word : List Char} {i j : Nat}
    (hi : name.toList = word ++ (toString i).toList)
    (hj : name'.toList = word ++ (toString j).toList) (h : name = name') : i = j := by
  rw [← h, hi] at hj
  have hdigits : Nat.toDigits 10 i = Nat.toDigits 10 j := by
    simpa using List.append_cancel_left hj
  rw [← Nat.ofDigitChars_ten_toDigits (n := i), hdigits, Nat.ofDigitChars_ten_toDigits]

end TableQuery.Name

namespace TableQuery

open Name

namespace JoinPlan

theorem toList_hiddenLeft (i : Nat) :
    (hiddenLeft i).toList = "__fq_lk_".toList ++ (toString i).toList := by
  simp [hiddenLeft, String.toList_append]
  rfl

theorem toList_hiddenRight (i : Nat) :
    (hiddenRight i).toList = "__fq_rk_".toList ++ (toString i).toList := by
  simp [hiddenRight, String.toList_append]
  rfl

theorem hiddenLeft_injective : Function.Injective hiddenLeft :=
  fun i j h => eq_of_number (toList_hiddenLeft i) (toList_hiddenLeft j) h

theorem hiddenRight_injective : Function.Injective hiddenRight :=
  fun i j h => eq_of_number (toList_hiddenRight i) (toList_hiddenRight j) h

/-- The names of the helper columns of a join are not ordinary. -/
theorem not_isOrdinary_hiddenLeft (i : Nat) : ¬IsOrdinary (hiddenLeft i) :=
  not_isOrdinary_of_number (toList_hiddenLeft i) (by decide) (by decide)

theorem not_isOrdinary_hiddenRight (i : Nat) : ¬IsOrdinary (hiddenRight i) :=
  not_isOrdinary_of_number (toList_hiddenRight i) (by decide) (by decide)

/-- Helpers of the two tables have different names. -/
theorem hiddenLeft_ne_hiddenRight (i j : Nat) : hiddenLeft i ≠ hiddenRight j := by
  intro h
  have hmem : 'l' ∈ (hiddenRight j).toList := by
    rw [← h, toList_hiddenLeft]
    exact List.mem_append_left _ (by decide)
  rw [toList_hiddenRight, List.mem_append] at hmem
  exact hmem.elim (by decide) (not_mem_toString rfl j)

end JoinPlan

end TableQuery
