import TableQuery.Grouping
import Mathlib.Data.List.Basic

/-!
# Items of a grouped query

An item counts as the first key that it denotes. So a selection of the keys themselves, with items
that aggregate behind them, is taken as it is meant exactly if no key denotes an earlier one and no
other item denotes a key.
-/

namespace TableQuery

namespace Item

/-- Every item denotes itself, as its text is its own. -/
@[simp]
theorem denotes_self (i : Item) : i.denotes i = true := by
  simp [denotes, Text.sameLetters]

/-- The keys of a selection that denotes none of them twice. -/
theorem keyIndex?_getElem_iff {keys : List Item} :
    (∀ (n : Nat) (h : n < keys.length), keyIndex? keys keys[n] = some n) ↔
      keys.Pairwise fun earlier later => later.denotes earlier = false := by
  simp only [keyIndex?, List.findIdx?_eq_some_iff_getElem, List.pairwise_iff_getElem,
    Bool.not_eq_true]
  constructor
  · intro h m n _ hn hmn
    obtain ⟨_, _, hearlier⟩ := h n hn
    exact hearlier m hmn
  · intro h n hn
    exact ⟨hn, denotes_self _, fun m hmn => h m n _ hn hmn⟩

theorem keyIndex?_eq_none_iff {keys : List Item} {item : Item} :
    keyIndex? keys item = none ↔ ∀ k ∈ keys, item.denotes k = false :=
  List.findIdx?_eq_none_iff

/-- Where the value of an item comes from. -/
def slot (keys : List Item) (item : Item) : Slot :=
  (keyIndex? keys item).elim .aggregate .key

theorem slot_eq_key_iff {keys : List Item} {item : Item} {n : Nat} :
    slot keys item = .key n ↔ keyIndex? keys item = some n := by
  cases h : keyIndex? keys item <;> simp [slot, h]

theorem slot_eq_aggregate_iff {keys : List Item} {item : Item} :
    slot keys item = .aggregate ↔ ∀ k ∈ keys, item.denotes k = false := by
  rw [← keyIndex?_eq_none_iff]
  cases h : keyIndex? keys item <;> simp [slot, h]

end Item

open Item

/-- No key is missing if every one is the first that some item denotes. -/
theorem no_key_missing_iff {keys items : List Item} :
    ((keys.zipIdx.filter fun (_, n) => !(items.filterMap (keyIndex? keys)).contains n).map
        fun (k, _) => k.text) = [] ↔
      ∀ n < keys.length, ∃ item ∈ items, keyIndex? keys item = some n := by
  simp only [List.map_eq_nil_iff, List.filter_eq_nil_iff, Bool.not_eq_true', Bool.not_eq_false,
    List.contains_iff_mem, List.mem_filterMap]
  constructor
  · intro h n hn
    exact h (keys[n], n) (List.mem_zipIdx_iff_getElem?.2 (List.getElem?_eq_getElem hn))
  · rintro h ⟨k, n⟩ hk
    have hk : keys[n]? = some k := List.mem_zipIdx_iff_getElem?.1 hk
    exact h n (List.getElem?_eq_some_iff.1 hk).1

/-- No item is too many if each denotes a key or aggregates. -/
theorem no_item_extra_iff {keys items : List Item} :
    ((items.filter fun item =>
        (keyIndex? keys item).isNone && !item.expr.containsAggregate).map Item.text) = [] ↔
      ∀ item ∈ items, slot keys item = .aggregate → item.expr.containsAggregate = true := by
  simp only [List.map_eq_nil_iff, List.filter_eq_nil_iff, slot_eq_aggregate_iff,
    ← keyIndex?_eq_none_iff, Bool.and_eq_true, Option.isNone_iff_eq_none, Bool.not_eq_true',
    not_and, Bool.not_eq_false]

/-- A selection is taken if every key is the first that some item denotes, and what denotes no key
aggregates. -/
theorem slots_eq_ok_iff {keys items : List Item} {ss : List Slot} :
    slots keys items = .ok ss ↔
      (∀ n < keys.length, ∃ item ∈ items, keyIndex? keys item = some n) ∧
      (∀ item ∈ items, slot keys item = .aggregate → item.expr.containsAggregate = true) ∧
      items.map (slot keys) = ss := by
  rw [← no_key_missing_iff, ← no_item_extra_iff]
  simp only [slots, Bool.and_eq_true, List.isEmpty_iff]
  split
  · next h => exact ⟨fun hs => ⟨h.1, h.2, Except.ok.inj hs⟩, fun hs => congrArg Except.ok hs.2.2⟩
  · next h => exact ⟨nofun, fun hs => absurd ⟨hs.1, hs.2.1⟩ h⟩

/-- The keys come from their own places exactly if none denotes an earlier one. -/
theorem map_slot_keys_iff {keys : List Item} :
    keys.map (slot keys) = (List.range keys.length).map .key ↔
      keys.Pairwise fun earlier later => later.denotes earlier = false := by
  rw [← keyIndex?_getElem_iff, List.ext_getElem_iff]
  simp [slot_eq_key_iff]

/-- Items are computed exactly if none denotes a key. -/
theorem map_slot_items_iff {keys items : List Item} :
    items.map (slot keys) = (items.map fun _ => .aggregate) ↔
      ∀ item ∈ items, ∀ k ∈ keys, item.denotes k = false := by
  simp only [List.map_inj_left, slot_eq_aggregate_iff]

/-- The keys of a group and items that aggregate behind them are taken as they are meant exactly if
no key denotes an earlier one, and no other item denotes a key. -/
theorem slots_keys_append_iff {keys items : List Item}
    (hitems : ∀ item ∈ items, item.expr.containsAggregate = true) :
    slots keys (keys ++ items) =
        .ok ((List.range keys.length).map .key ++ items.map fun _ => .aggregate) ↔
      (keys.Pairwise fun earlier later => later.denotes earlier = false) ∧
        ∀ item ∈ items, ∀ k ∈ keys, item.denotes k = false := by
  rw [slots_eq_ok_iff, List.map_append, ← map_slot_keys_iff, ← map_slot_items_iff]
  constructor
  · rintro ⟨-, -, h⟩
    exact List.append_inj h (by simp)
  · rintro ⟨hkeys, hother⟩
    refine ⟨fun n hn => ?_, fun item hitem hslot => ?_, by rw [hkeys, hother]⟩
    · have hfirst : Item.keyIndex? keys keys[n] = some n :=
        keyIndex?_getElem_iff.2 (map_slot_keys_iff.1 hkeys) n hn
      exact ⟨keys[n], List.mem_append_left _ (List.getElem_mem hn), hfirst⟩
    · rcases List.mem_append.1 hitem with hkey | hitem
      · have hself := slot_eq_aggregate_iff.1 hslot item hkey
        rw [denotes_self] at hself
        cases hself
      · exact hitems item hitem

/-- The keys of a query that groups by `t1.a` and `IFNULL(b,10)`. -/
def regions : List Item :=
  [.named (.column "t1.a") "t1.a" none,
    .named (.call "IFNULL" [.column "b", .literal (.int 10)]) "IFNULL(b,10)" none]

/-- A number of rows and a sum. -/
def totals : List Item :=
  [.named .countStar "COUNT(*)" (some "n"), .named (.call "SUM" [.column "b"]) "SUM(b)" none]

theorem slots_regions_totals :
    (∀ item ∈ totals, item.expr.containsAggregate = true) ∧
      slots regions (regions ++ totals) = .ok [.key 0, .key 1, .aggregate, .aggregate] := by
  have hitems : ∀ item ∈ totals, item.expr.containsAggregate = true := by decide +kernel
  exact ⟨hitems, (slots_keys_append_iff hitems).2 ⟨by decide +kernel, by decide +kernel⟩⟩

/-- The keys of a query that groups by a column of either side of a join. -/
def sides : List Item :=
  [.named (.column "b") "b" none, .named (.column "t2.b") "t2.b" none]

/-- A column with an alias denotes the same column without one, so the first of the two keys takes
both items, and the second key counts as not selected although it is. -/
theorem slots_sides_count :
    let count : Item := .named .countStar "COUNT(*)" none
    (sides.Pairwise fun k l => (k.expr == l.expr) = false) ∧
      count.expr.containsAggregate = true ∧ (∀ k ∈ sides, (count == k) = false) ∧
      slots sides (sides ++ [count]) = .error (.grouping ["t2.b"] []) :=
  ⟨by decide +kernel, by decide +kernel, by decide +kernel, rfl⟩

end TableQuery
