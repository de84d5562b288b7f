import TableQuery.Proofs.JoinedRows
import TableQuery.Proofs.StepByStep

/-!
# Keys written in another way

The condition of a join is a list of pairs of columns. A pair of which one operand carries the alias
of the joined table is attributed by it, whichever operand comes first. The order of the pairs
numbers the helper columns, but a join depends on its keys only by which of them there are: they
have to be columns of one type each, and rows are paired that agree in all of them.
-/

namespace TableQuery

open Name

/-! ## Keys as written -/

namespace JoinKey

/-- The key with its operands exchanged. -/
def swap (k : JoinKey) : JoinKey :=
  ⟨k.second, k.first⟩

/-- Just one of the operands carries an alias. -/
def IsQualifiedOnce (label : String) (k : JoinKey) : Prop :=
  qualifier k.first = some label ↔ qualifier k.second ≠ some label

instance (label : String) (k : JoinKey) : Decidable (k.IsQualifiedOnce label) :=
  inferInstanceAs (Decidable (_ ↔ _))

/-- The same keys in another order, any of them with its operands exchanged. -/
def Rearranged (on on' : List JoinKey) : Prop :=
  ∃ ks, List.Forall₂ (fun k k' => k' = k ∨ k' = k.swap) on ks ∧ ks.Perm on'

variable {label : String} {left right : List String}

/-- The alias tells the operands apart in either order. -/
theorem assign_swap {k : JoinKey} (h : k.IsQualifiedOnce label) (left right : List String) :
    k.swap.assign label left right = k.assign label left right := by
  have horiented : k.swap.oriented label left right = k.oriented label left right := by
    by_cases hfirst : qualifier k.first = some label
    · have hsecond := beq_false_of_ne (h.1 hfirst)
      simp [oriented, swap, hfirst, hsecond]
    · have hsecond : qualifier k.second = some label := by
        by_contra hne
        exact hfirst (h.2 hne)
      simp [oriented, swap, hsecond, beq_false_of_ne hfirst]
  rw [assign, horiented, assign]

/-- Keys that are rearranged denote the same pairs of columns. -/
theorem Rearranged.exists_assign_iff {on on' : List JoinKey} (h : Rearranged on on')
    (honce : ∀ k ∈ on, k.IsQualifiedOnce label) {x : Except Fault (String × String)} :
    (∃ k ∈ on', k.assign label left right = x) ↔ ∃ k ∈ on, k.assign label left right = x := by
  obtain ⟨ks, hks, hperm⟩ := h
  have hassign {k k' : JoinKey} (hk : k ∈ on) (hk' : k' = k ∨ k' = k.swap) :
      k'.assign label left right = k.assign label left right := by
    rcases hk' with rfl | rfl
    · rfl
    · exact assign_swap (honce k hk) left right
  constructor
  · rintro ⟨k', hmem, rfl⟩
    obtain ⟨k, hk, hk'⟩ := exists_of_mem_right hks (hperm.mem_iff.2 hmem)
    exact ⟨k, hk, (hassign hk hk').symm⟩
  · rintro ⟨k, hk, rfl⟩
    obtain ⟨k', hmem, hk'⟩ := exists_of_mem_left hks hk
    exact ⟨k', hperm.mem_iff.1 hmem, hassign hk hk'⟩

end JoinKey

/-! ## Plans with the same keys -/

namespace JoinPlan

/-- Plans that differ in the order of their keys, if at all. -/
structure SameKeys (p p' : JoinPlan) : Prop where
  mode : p.mode = p'.mode
  label : p.label = p'.label
  key : ∀ k, k ∈ p.keys ↔ k ∈ p'.keys

section

variable {mode : JoinMode} {label : String} {on on' : List JoinKey} {left right : List String}
  {p : JoinPlan}

theorem keys_mk (mode : JoinMode) (label : String) (pairs : List (String × String)) :
    keys ⟨mode, label, pairs.map Prod.fst, pairs.map Prod.snd⟩ = pairs := by
  rw [keys, List.zip_map']
  simp

/-- A plan is made if every key can be attributed, and has what the keys denote. -/
theorem ofKeys_eq_ok_iff : ofKeys mode label on left right = .ok p ↔
    p.mode = mode ∧ p.label = label ∧ p.leftOn.length = p.rightOn.length ∧
      on.mapM (JoinKey.assign label left right) = .ok p.keys := by
  constructor
  · intro h
    obtain ⟨pairs, hpairs, h⟩ := bind_eq_ok.1 h
    cases h
    refine ⟨rfl, rfl, by simp, ?_⟩
    rw [hpairs, keys_mk]
  · rintro ⟨rfl, rfl, hlengths, hkeys⟩
    rw [ofKeys, hkeys, ok_bind, keys, List.map_fst_zip (Nat.le_of_eq hlengths),
      List.map_snd_zip (Nat.le_of_eq hlengths.symm)]
    rfl

theorem isFor_of_ofKeys (h : ofKeys mode label on left right = .ok p) (hleft : left.Nodup)
    (hright : right.Nodup) (hlo : ∀ name ∈ left, IsOrdinary name)
    (hro : ∀ name ∈ right, IsOrdinary name) : p.IsFor left right := by
  obtain ⟨-, -, hlengths, hkeys⟩ := ofKeys_eq_ok_iff.1 h
  refine ⟨hleft, hright, hlo, hro, hlengths, fun k hk => ?_⟩
  obtain ⟨_, -, hassign⟩ := (mem_iff_of_mapM hkeys).1 hk
  obtain ⟨_, -, hassign⟩ := bind_eq_ok.1 hassign
  obtain ⟨l, hl, hassign⟩ := bind_eq_ok.1 hassign
  obtain ⟨r, hr, hassign⟩ := bind_eq_ok.1 hassign
  cases hassign
  exact ⟨mem_of_resolve? (resolve_eq_ok.1 hl), mem_of_resolve? (resolve_eq_ok.1 hr)⟩

/-- Keys that are rearranged make a plan with the same keys. -/
theorem exists_ofKeys_of_rearranged (honce : ∀ k ∈ on, k.IsQualifiedOnce label)
    (hon : JoinKey.Rearranged on on') (h : ofKeys mode label on left right = .ok p) :
    ∃ p', ofKeys mode label on' left right = .ok p' ∧ p.SameKeys p' := by
  obtain ⟨rfl, rfl, -, hkeys⟩ := ofKeys_eq_ok_iff.1 h
  obtain ⟨pairs, hpairs⟩ := exists_mapM_eq_ok_iff.2 fun k' (hk' : k' ∈ on') => by
    obtain ⟨k, hk, hassign⟩ := (hon.exists_assign_iff honce).1 ⟨k', hk', rfl⟩
    obtain ⟨pair, hpair⟩ := exists_mapM_eq_ok_iff.1 ⟨_, hkeys⟩ k hk
    exact ⟨pair, hassign.symm.trans hpair⟩
  refine ⟨⟨p.mode, p.label, pairs.map Prod.fst, pairs.map Prod.snd⟩, ?_, rfl, rfl, fun pair => ?_⟩
  · rw [ofKeys, hpairs]
    rfl
  · rw [keys_mk, mem_iff_of_mapM hkeys, mem_iff_of_mapM hpairs, hon.exists_assign_iff honce]

end

namespace SameKeys

variable {p p' : JoinPlan} (h : p.SameKeys p') (left right : Table) (names names' : List String)

include h

theorem keys_ne_nil_iff : p.keys ≠ [] ↔ p'.keys ≠ [] := by
  simp only [ne_eq, List.eq_nil_iff_forall_not_mem, h.key]

theorem isTyped_iff : p.IsTyped left right ↔ p'.IsTyped left right := by
  simp only [IsTyped, h.key]

theorem agrees_iff (i j : Nat) : p.Agrees left right i j ↔ p'.Agrees left right i j := by
  simp only [Agrees, h.key]

theorem renamedRight_eq : p.renamedRight names names' = p'.renamedRight names names' := by
  unfold renamedRight renamed
  rw [h.label]

end SameKeys

end JoinPlan

/-! ## Joins on both engines -/

/-- Plans with the same keys join tables to the same table. -/
theorem Eager.join_congr {p p' : JoinPlan} {left right out : Table} (hsame : p.SameKeys p')
    (h : p.IsFor left.names right.names) (h' : p'.IsFor left.names right.names) :
    join p left right = .ok out ↔ join p' left right = .ok out := by
  rw [join_eq_ok_iff h, join_eq_ok_iff h', hsame.keys_ne_nil_iff, hsame.isTyped_iff,
    hsame.renamedRight_eq, hsame.mode]
  simp only [hsame.agrees_iff]

/-- What a plan promises that is alike to a table. -/
theorem Alike.schema_eq {P : Table → Prop} {x : Except Fault Table} {y : Except Fault Plan}
    (h : Alike P x y) : (y >>= Plan.schema) = x.map Table.schema := by
  rcases h with ⟨t, p, rfl, rfl, hp, -⟩ | ⟨f, rfl, rfl | ⟨p, rfl, hp⟩⟩
  · exact hp.schema
  · rfl
  · exact hp

namespace Deferred

theorem schema_withKeys_congr {columns : List (String × String)} {p q : Plan}
    (h : p.schema = q.schema) : (withKeys columns p).schema = (withKeys columns q).schema := by
  induction columns generalizing p q with
  | nil => exact h
  | cons c columns ih =>
    refine ih ?_
    rw [Plan.schema, Plan.schema, h]

/-- What a join that is put off promises depends on what its plans promise. -/
theorem schema_join_congr (p : JoinPlan) {left left' right right' : Plan}
    (hl : left.schema = left'.schema) (hr : right.schema = right'.schema) :
    (join p left right >>= Plan.schema) = (join p left' right' >>= Plan.schema) := by
  have hrenamed (renames : List (String × String)) :
      (Plan.rename renames right).schema = (Plan.rename renames right').schema := by
    rw [Plan.schema, Plan.schema, hr]
  rw [join_eq, join_eq, Plan.names, Plan.names, Plan.names, Plan.names, hl, hr]
  cases left'.schema with
  | error f => rfl
  | ok sl =>
    cases right'.schema with
    | error f => rfl
    | ok sr =>
      simp only [ok_bind, pure_bind]
      cases p.renamedRight (sl.map Prod.fst) (sr.map Prod.fst) with
      | error f => rfl
      | ok renames =>
        simp only [ok_bind, pure_bind, Plan.schema, schema_withKeys_congr hl,
          schema_withKeys_congr (hrenamed renames)]

/-- A join that is put off promises what the tables without rows are joined to. -/
theorem schema_join {p : JoinPlan} {left right : Plan} {sl sr : Schema}
    (hl : left.schema = .ok sl) (hr : right.schema = .ok sr)
    (hlo : ∀ name ∈ sl.map Prod.fst, IsOrdinary name)
    (hro : ∀ name ∈ sr.map Prod.fst, IsOrdinary name) :
    (join p left right >>= Plan.schema) =
      (Eager.join p (.ofSchema sl) (.ofSchema sr)).map Table.schema := by
  rw [← Table.names_ofSchema] at hlo hro
  rw [← (Eager.join_alike (.scan _) (.scan _) hlo hro).schema_eq]
  refine schema_join_congr p ?_ ?_
  · rw [hl, Plan.schema, Table.schema_ofSchema]
  · rw [hr, Plan.schema, Table.schema_ofSchema]

/-- Plans with the same keys join plans to one that promises and gives the same. -/
theorem exists_join_congr {p p' : JoinPlan} {left right plan : Plan} {sl sr s : Schema}
    (hsame : p.SameKeys p') (hl : left.schema = .ok sl) (hr : right.schema = .ok sr)
    (h : p.IsFor (sl.map Prod.fst) (sr.map Prod.fst))
    (h' : p'.IsFor (sl.map Prod.fst) (sr.map Prod.fst)) (hjoin : join p left right = .ok plan)
    (hs : plan.schema = .ok s) : ∃ plan', join p' left right = .ok plan' ∧
      plan'.schema = .ok s ∧ ∀ t, plan.collect = .ok t ↔ plan'.collect = .ok t := by
  have hpromised : (join p' left right >>= Plan.schema) = .ok s := by
    have hplan : (join p left right >>= Plan.schema) = .ok s := bind_eq_ok.2 ⟨plan, hjoin, hs⟩
    rw [schema_join hl hr h.leftOrdinary h.rightOrdinary] at hplan
    obtain ⟨t, ht, rfl⟩ := map_eq_ok.1 hplan
    rw [schema_join hl hr h.leftOrdinary h.rightOrdinary]
    rw [← Table.names_ofSchema, ← Table.names_ofSchema] at h h'
    exact map_eq_ok.2 ⟨t, (Eager.join_congr hsame h h').1 ht, rfl⟩
  obtain ⟨plan', hjoin', hs'⟩ := bind_eq_ok.1 hpromised
  refine ⟨plan', hjoin', hs', fun t => ?_⟩
  rw [collect_join_iff hjoin hs, collect_join_iff hjoin' hs']
  refine exists₂_congr fun l r => and_congr_right fun hlt => and_congr_right fun hrt => ?_
  rw [← Plan.names_of_collect hl hlt, ← Plan.names_of_collect hr hrt] at h h'
  exact Eager.join_congr hsame h h'

end Deferred

/-- The names of the columns are ordinary and pairwise different. -/
def Relation.NamesApart (r : Relation) : Prop :=
  ∀ names, r.names = .ok names → names.Nodup ∧ ∀ name ∈ names, IsOrdinary name

/-- Plans with the same keys join relations to one that has and gives the same. -/
theorem Engine.exists_join_congr {p p' : JoinPlan} {left right joined : Relation}
    {names names' all : List String} (e : Engine) (hsame : p.SameKeys p')
    (hleft : left.names = .ok names) (hright : right.names = .ok names')
    (h : p.IsFor names names') (h' : p'.IsFor names names')
    (hjoin : e.join p left right = .ok joined) (hall : joined.names = .ok all) :
    ∃ joined', e.join p' left right = .ok joined' ∧ joined'.names = .ok all ∧
      ∀ t, joined.collect = .ok t ↔ joined'.collect = .ok t := by
  cases e with
  | eager =>
    obtain ⟨l, hl, hjoin⟩ := bind_eq_ok.1 hjoin
    obtain ⟨r, hr, hjoin⟩ := bind_eq_ok.1 hjoin
    obtain ⟨t, ht, hjoin⟩ := bind_eq_ok.1 hjoin
    cases hjoin
    rw [← Relation.names_of_collect hleft hl, ← Relation.names_of_collect hright hr] at h h'
    rw [Eager.join_congr hsame h h'] at ht
    refine ⟨.frame t, ?_, hall, fun _ => Iff.rfl⟩
    rw [join, hl, ok_bind, hr, ok_bind, ht]
    rfl
  | deferred =>
    obtain ⟨plan, hplan, hjoin⟩ := bind_eq_ok.1 hjoin
    cases hjoin
    obtain ⟨sl, hl, rfl⟩ := Relation.exists_schema hleft
    obtain ⟨sr, hr, rfl⟩ := Relation.exists_schema hright
    obtain ⟨s, hs, hall⟩ := bind_eq_ok.1 hall
    obtain ⟨plan', hplan', hs', hcollect⟩ :=
      Deferred.exists_join_congr hsame hl hr h h' hplan hs
    refine ⟨.plan plan', ?_, bind_eq_ok.2 ⟨s, hs', hall⟩, hcollect⟩
    rw [join, hplan']
    rfl

namespace Setting

variable {c : Setting} {ref : TableRef} {mode : JoinMode} {on on' : List JoinKey}
  {left : Relation} {w : Working} {s s' : Session}

/-- The keys of a join may be rearranged if the alias of the joined table tells their operands
apart: where the join succeeds, so does the other one, with the same columns and the same table. -/
theorem join_rearranged (honce : ∀ k ∈ on, k.IsQualifiedOnce ref.label)
    (hon : JoinKey.Rearranged on on') (hleft : left.NamesApart)
    (hright : ∀ r s', outcome (c.load ref) s = (.ok r, s') → r.NamesApart)
    (h : outcome (c.checkedStep (.join ref mode on) (some (.plain left))) s = (.ok w, s')) :
    ∃ w', outcome (c.checkedStep (.join ref mode on') (some (.plain left))) s = (.ok w', s') ∧
      w'.keys = w.keys ∧ w'.table.names = w.table.names ∧
      ∀ t, w.table.collect = .ok t ↔ w'.table.collect = .ok t := by
  obtain ⟨hstep, all, hall⟩ := steps_of_checkedStep h
  cases hstep with
  | join _ hload hjoined =>
    obtain ⟨names, hnames, hjoined⟩ := bind_eq_ok.1 hjoined
    obtain ⟨names', hnames', hjoined⟩ := bind_eq_ok.1 hjoined
    obtain ⟨p, hp, hjoin⟩ := bind_eq_ok.1 hjoined
    obtain ⟨p', hp', hsame⟩ := JoinPlan.exists_ofKeys_of_rearranged honce hon hp
    obtain ⟨hl, hlo⟩ := hleft names hnames
    obtain ⟨hr, hro⟩ := hright _ _ hload names' hnames'
    obtain ⟨joined', hjoin', hall', hcollect⟩ := c.engine.exists_join_congr hsame hnames hnames'
      (JoinPlan.isFor_of_ofKeys hp hl hr hlo hro) (JoinPlan.isFor_of_ofKeys hp' hl hr hlo hro)
      hjoin hall
    have hstep' : c.Steps (some (.plain left)) s (.join ref mode on') (.plain joined') s' :=
      .join rfl hload (bind_eq_ok.2 ⟨names, hnames, bind_eq_ok.2 ⟨names', hnames',
        bind_eq_ok.2 ⟨p', hp', hjoin'⟩⟩⟩)
    exact ⟨_, hstep'.checkedStep_eq hall', rfl, hall'.trans hall.symm, hcollect⟩

/-- Tables at hand with names apart are loaded as such. -/
theorem namesApart_of_load (h : s.HoldsFrames fun t => (Relation.frame t).NamesApart) {r : Relation}
    (hload : outcome (c.load ref) s = (.ok r, s')) : r.NamesApart := by
  obtain ⟨-, hframe⟩ := frame_of_load (c := c) h ref
  rw [hload] at hframe
  obtain ⟨u, hu, -, hnames⟩ := hframe r rfl
  intro names h
  exact hu names (hnames.symm.trans h)

/-- Prices by days and shops. -/
def prices : Table :=
  ⟨[⟨"day", .int64, [.int 1, .int 2, .int 2]⟩, ⟨"shop", .str, [.str "a", .str "a", .str "b"]⟩,
    ⟨"price", .int64, [.int 5, .int 6, .int 4]⟩]⟩

/-- Sales in shops on days, one of them in an unknown shop. -/
def sales : Table :=
  ⟨[⟨"shop", .str, [.str "b", .str "a", .null]⟩, ⟨"day", .int64, [.int 2, .int 1, .int 1]⟩]⟩

/-- A session with the prices. -/
def market : Session :=
  { Session.new with tables := [("prices", .frame prices)] }

/-- The keys of the prices, written in two ways. -/
def dayThenShop : List JoinKey :=
  [⟨"p.day", "day"⟩, ⟨"shop", "p.shop"⟩]

def shopThenDay : List JoinKey :=
  [⟨"p.shop", "shop"⟩, ⟨"p.day", "day"⟩]

/-- The sales with their prices, by the given keys. -/
def priced (on : List JoinKey) : Except Fault Working × Session :=
  outcome (checkedStep ⟨.deferred, .builtin⟩ (.join ⟨"prices", "p"⟩ .left on)
    (some (.plain (.frame sales)))) market

theorem namesApart_market : market.HoldsFrames fun t => (Relation.frame t).NamesApart := by
  refine ⟨rfl, ?_⟩
  simp only [market, List.mem_singleton]
  rintro x rfl
  refine ⟨prices, rfl, ?_⟩
  rintro _ ⟨⟩
  simp [prices, Table.names, IsOrdinary, BeginsAsHelper]

theorem sales_join_rearranged :
    ∃ w w' s' t, priced dayThenShop = (.ok w, s') ∧ priced shopThenDay = (.ok w', s') ∧
      w.table.collect = .ok t ∧ w'.table.collect = .ok t := by
  obtain ⟨t, ht⟩ := exists_eq_ok (x := (priced dayThenShop).1 >>= fun w => w.table.collect)
    (by decide +kernel)
  obtain ⟨w, hw, ht⟩ := bind_eq_ok.1 ht
  have hpriced : priced dayThenShop = (.ok w, (priced dayThenShop).2) := Prod.ext hw rfl
  have hsales : (Relation.frame sales).NamesApart := by
    rintro _ ⟨⟩
    simp [sales, Table.names, IsOrdinary, BeginsAsHelper]
  have hon : JoinKey.Rearranged dayThenShop shopThenDay :=
    ⟨[⟨"p.day", "day"⟩, ⟨"p.shop", "shop"⟩], .cons (.inl rfl) (.cons (.inr rfl) .nil), .swap _ _ _⟩
  obtain ⟨w', hw', -, -, hcollect⟩ := join_rearranged (by decide +kernel) hon hsales
    (fun _ _ hload => namesApart_of_load namesApart_market hload) hpriced
  exact ⟨w, w', _, t, hpriced, hw', ht, (hcollect t).1 ht⟩

end Setting

end TableQuery
