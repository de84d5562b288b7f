import Mathlib
import TableQuery.Session.Loader

/-!
# Paths of dotted names

The loader of a directory makes a path of a dotted name: every part of the name is one component
below the directory, and the last one gets the ending of table files. A part is refused if it is
empty, leads upwards or holds a separator, and it cannot be a single dot. So a path lies exactly as
deep below its directory as the name has parts, and names that differ have different paths.
-/

namespace TableQuery.Path

/-! ## Parts of a text -/

theorem splitAt_eq_splitOn (mark : Char) (cs : List Char) : splitAt mark cs = cs.splitOn mark := by
  induction cs with
  | nil => rfl
  | cons c cs ih =>
    rw [splitAt, List.splitOn_cons_eq_if_modifyHead, ih]
    by_cases hc : c = mark
    · rw [if_pos hc, if_pos (beq_iff_eq.2 hc)]
    · rw [if_neg hc, if_neg (fun h => hc (beq_iff_eq.1 h))]
      cases h : cs.splitOn mark with
      | nil => exact absurd h (List.splitOn_ne_nil mark cs)
      | cons part parts => rfl

theorem splitAt_append (mark : Char) (cs ds : List Char) :
    splitAt mark (cs ++ mark :: ds) = splitAt mark cs ++ splitAt mark ds := by
  simp only [splitAt_eq_splitOn, List.splitOn_append_cons_self]

theorem splitAt_of_not_mem {mark : Char} {cs : List Char} (h : mark ∉ cs) :
    splitAt mark cs = [cs] := by
  rw [splitAt_eq_splitOn, List.splitOn_eq_singleton h]

theorem splitAt_injective {mark : Char} {cs ds : List Char}
    (h : splitAt mark cs = splitAt mark ds) : cs = ds := by
  rw [splitAt_eq_splitOn, splitAt_eq_splitOn] at h
  have hjoined : [mark].intercalate (cs.splitOn mark) = cs := List.intercalate_splitOn mark
  rw [← hjoined, h, List.intercalate_splitOn]

/-- No part holds the character between the parts. -/
theorem not_mem_of_mem_splitAt {mark : Char} {cs part : List Char}
    (h : part ∈ splitAt mark cs) : mark ∉ part := by
  induction cs generalizing part with
  | nil =>
    rw [List.mem_singleton.1 h]
    exact List.not_mem_nil
  | cons c cs ih =>
    rw [splitAt] at h
    split at h
    · rcases List.mem_cons.1 h with rfl | h
      · exact List.not_mem_nil
      · exact ih h
    · next hc =>
      have hcons {part : List Char} (hpart : mark ∉ part) : mark ∉ c :: part :=
        List.not_mem_cons_of_ne_of_not_mem (Ne.symm hc) hpart
      split at h
      · rw [List.mem_singleton.1 h]
        exact hcons List.not_mem_nil
      · next part₁ parts hsplit =>
        rw [hsplit] at ih
        rcases List.mem_cons.1 h with rfl | h
        · exact hcons (ih List.mem_cons_self)
        · exact ih (List.mem_cons_of_mem _ h)

/-! ## Components of a path -/

/-- A component that leads one level down. -/
structure IsPlain (component : String) : Prop where
  nonempty : component ≠ ""
  notHere : component ≠ "."
  notUp : component ≠ ".."
  noSlash : '/' ∉ component.toList
  noBackslash : '\\' ∉ component.toList

/-- The components reached so far, with one more part of the path. -/
def enter (done : List String) (part : String) : List String :=
  if part = "" || part = "." then done
  else if part = ".." then done.dropLast
  else done ++ [part]

theorem components_eq (path : String) :
    components path = ((splitAt '/' path.toList).map String.ofList).foldl enter [] :=
  rfl

theorem enter_empty (done : List String) : enter done "" = done := by
  simp [enter]

theorem IsPlain.enter {part : String} (h : IsPlain part) (done : List String) :
    enter done part = done ++ [part] := by
  simp [Path.enter, h.nonempty, h.notHere, h.notUp]

/-- What stands behind a slash is entered from where the path in front of it leads. -/
theorem components_of_slash (front behind : String) {path : String}
    (h : path.toList = front.toList ++ '/' :: behind.toList) :
    components path = ((splitAt '/' behind.toList).map String.ofList).foldl enter
      (components front) := by
  rw [components_eq, h, splitAt_append, List.map_append, List.foldl_append, ← components_eq]

theorem IsPlain.splitAt {part : String} (h : IsPlain part) :
    (Path.splitAt '/' part.toList).map String.ofList = [part] := by
  rw [splitAt_of_not_mem h.noSlash, List.map_singleton, String.ofList_toList]

theorem components_extend {part : String} (h : IsPlain part) (path : String) :
    components (extend path part) = components path ++ [part] := by
  unfold extend
  split
  · next hend =>
    rcases Bool.or_eq_true_iff.1 hend with hempty | hslash
    · obtain rfl := String.isEmpty_iff.1 hempty
      rw [String.empty_append, components_eq, h.splitAt]
      exact h.enter []
    · obtain ⟨front, hfront⟩ := List.getLast?_eq_some_iff.1 (eq_of_beq hslash)
      have hpath : components path = components (String.ofList front) := by
        rw [components_of_slash (String.ofList front) ""
          (by rw [hfront, String.toList_ofList, String.toList_empty])]
        exact enter_empty _
      rw [components_of_slash (String.ofList front) part
        (by rw [String.toList_append, hfront, String.toList_ofList, List.append_assoc]; rfl),
        h.splitAt, hpath]
      exact h.enter _
  · rw [components_of_slash path part
      (by rw [String.toList_append, String.toList_append, List.append_assoc]; rfl), h.splitAt]
    exact h.enter _

theorem components_foldl_extend {parts : List String} (h : ∀ part ∈ parts, IsPlain part)
    (path : String) :
    components (parts.foldl extend path) = components path ++ parts := by
  induction parts generalizing path with
  | nil => rw [List.foldl_nil, List.append_nil]
  | cons part parts ih =>
    obtain ⟨hpart, hparts⟩ := List.forall_mem_cons.1 h
    rw [List.foldl_cons, ih hparts, components_extend hpart, List.append_assoc,
      List.singleton_append]

/-! ## The path of a name -/

/-- A name without the mark of outside sources. -/
def bare (name : String) : List Char :=
  match name.toList with
  | '@' :: cs => cs
  | cs => cs

/-- The ending of table files. -/
def fileName (part : String) : String :=
  part ++ ".parquet"

theorem ofName?_eq {root name : String} {parts : List String}
    (hparts : (splitAt '.' (bare name)).map String.ofList = parts) :
    ofName? root name =
      if parts.all isComponent then
        parts.getLast?.map fun last => extend (parts.dropLast.foldl extend root) (fileName last)
      else none := by
  unfold ofName?
  dsimp only
  erw [hparts]
  cases parts.getLast? <;> rfl

theorem ofName?_eq_some_iff {root name path : String} :
    ofName? root name = some path ↔
      ∃ dirs last, (splitAt '.' (bare name)).map String.ofList = dirs ++ [last] ∧
        (∀ part ∈ dirs ++ [last], isComponent part = true) ∧
        path = (dirs ++ [fileName last]).foldl extend root := by
  generalize hparts : (splitAt '.' (bare name)).map String.ofList = parts
  rw [ofName?_eq hparts]
  rcases List.eq_nil_or_concat' parts with rfl | ⟨dirs, last, rfl⟩
  · simp
  · simp only [List.getLast?_concat, List.dropLast_concat, Option.ite_none_right_eq_some,
      List.all_eq_true, Option.map_some, Option.some.injEq, List.foldl_append, List.foldl_cons,
      List.foldl_nil]
    constructor
    · rintro ⟨hall, rfl⟩
      exact ⟨dirs, last, rfl, hall, rfl⟩
    · rintro ⟨dirs', last', hparts', hall, rfl⟩
      obtain ⟨rfl, rfl⟩ := List.append_singleton_inj.1 hparts'
      exact ⟨hall, rfl⟩

theorem isPlain_of_isComponent {part : String} (h : isComponent part = true)
    (hdot : '.' ∉ part.toList) : IsPlain part := by
  simp only [isComponent, Bool.and_eq_true, Bool.not_eq_true', decide_eq_true_eq, ne_eq,
    List.contains_eq_mem, decide_eq_false_iff_not] at h
  obtain ⟨⟨⟨hempty, hup⟩, hslash⟩, hbackslash⟩ := h
  refine ⟨hempty, ?_, hup, hslash, hbackslash⟩
  rintro rfl
  exact hdot (by decide)

theorem isPlain_fileName {part : String} (h : IsPlain part) : IsPlain (fileName part) := by
  have hchars : (fileName part).toList = part.toList ++ ".parquet".toList :=
    String.toList_append
  have hlong : 8 ≤ (fileName part).toList.length := by
    rw [hchars, List.length_append]
    exact Nat.le_add_left 8 _
  have hne {s : String} (hs : s.toList.length < 8) : fileName part ≠ s := by
    rintro rfl
    omega
  refine ⟨hne (by decide), hne (by decide), hne (by decide), ?_, ?_⟩
  · rw [hchars, List.mem_append, not_or]
    exact ⟨h.noSlash, by decide⟩
  · rw [hchars, List.mem_append, not_or]
    exact ⟨h.noBackslash, by decide⟩

theorem fileName_injective {part part' : String} (h : fileName part = fileName part') :
    part = part' := by
  have hchars := congrArg String.toList h
  rw [fileName, fileName, String.toList_append, String.toList_append] at hchars
  exact String.toList_injective (List.append_cancel_right hchars)

/-- The components that a name adds to its directory. -/
theorem exists_parts {root name path : String} (h : ofName? root name = some path) :
    ∃ dirs last, (splitAt '.' (bare name)).map String.ofList = dirs ++ [last] ∧
      (∀ part ∈ dirs ++ [fileName last], IsPlain part) ∧
      path = (dirs ++ [fileName last]).foldl extend root := by
  obtain ⟨dirs, last, hparts, hall, hpath⟩ := ofName?_eq_some_iff.1 h
  have hplain : ∀ part ∈ dirs ++ [last], IsPlain part := by
    intro part hpart
    refine isPlain_of_isComponent (hall part hpart) ?_
    rw [← hparts] at hpart
    obtain ⟨cs, hcs, rfl⟩ := List.mem_map.1 hpart
    rw [String.toList_ofList]
    exact not_mem_of_mem_splitAt hcs
  obtain ⟨hdirs, hlast⟩ := List.forall_mem_append.1 hplain
  refine ⟨dirs, last, hparts, List.forall_mem_append.2 ⟨hdirs, ?_⟩, hpath⟩
  exact List.forall_mem_singleton.2 (isPlain_fileName (List.forall_mem_singleton.1 hlast))

/-- The path of a name is its directory with one plain component for every part of the name, and
leads exactly there; and two names lead to the same place only if they differ in no more than the
mark of outside sources. -/
theorem ofName?_stays_below {root name path : String} (h : ofName? root name = some path) :
    (∃ parts : List String, parts.length = ((bare name).splitOn '.').length ∧
      (∀ part ∈ parts, IsPlain part) ∧ path = parts.foldl extend root ∧
      components path = components root ++ parts) ∧
    ∀ other path', ofName? root other = some path' →
      (components path' = components path ↔ bare other = bare name) := by
  obtain ⟨dirs, last, hparts, hplain, hpath⟩ := exists_parts h
  have hcomponents := components_foldl_extend hplain root
  rw [← hpath] at hcomponents
  refine ⟨⟨dirs ++ [fileName last], ?_, hplain, hpath, hcomponents⟩, ?_⟩
  · have hlength := congrArg List.length hparts
    rw [List.length_map, splitAt_eq_splitOn] at hlength
    rw [hlength, List.length_append, List.length_append, List.length_singleton,
      List.length_singleton]
  · intro other path' h'
    obtain ⟨dirs', last', hparts', hplain', hpath'⟩ := exists_parts h'
    rw [hcomponents, hpath', components_foldl_extend hplain', List.append_cancel_left_eq]
    constructor
    · intro heq
      obtain ⟨rfl, hlast⟩ := List.append_singleton_inj.1 heq
      obtain rfl := fileName_injective hlast
      have hsame := hparts'.trans hparts.symm
      exact splitAt_injective
        (List.map_injective_iff.2 (fun _ _ h => String.ofList_injective h) hsame)
    · intro hbare
      rw [hbare, hparts] at hparts'
      obtain ⟨rfl, rfl⟩ := List.append_singleton_inj.1 hparts'
      rfl

/-- A directory with a slash at its end, and a name with a mark. -/
theorem sales_stay_below :
    ofName? "./data/" "@shop.sales.q1" = some "./data/shop/sales/q1.parquet" ∧
      (∃ parts : List String, parts.length = 3 ∧ (∀ part ∈ parts, IsPlain part) ∧
        components "./data/shop/sales/q1.parquet" = components "./data/" ++ parts) ∧
      components "./data/shop/sales/q1.parquet" ≠ components "./data/@shop/sales/q1.parquet" := by
  have h : ofName? "./data/" "@shop.sales.q1" = some "./data/shop/sales/q1.parquet" := by
    decide +kernel
  obtain ⟨⟨parts, hlength, hplain, -, hcomponents⟩, hother⟩ := ofName?_stays_below h
  have hmarked : ofName? "./data/" "@@shop.sales.q1" = some "./data/@shop/sales/q1.parquet" := by
    decide +kernel
  refine ⟨h, ⟨parts, hlength.trans (by decide +kernel), hplain, hcomponents⟩, fun heq => ?_⟩
  exact absurd ((hother _ _ hmarked).1 heq.symm) (by decide +kernel)

end TableQuery.Path
