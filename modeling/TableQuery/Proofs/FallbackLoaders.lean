import Mathlib.Data.List.Basic
import TableQuery.Session.Basic

/-!
# Tables from loaders

A name that is not registered, or that belongs to an outside source, is looked up with the loaders,
one after the other. A loader that declines the name or fails on it is passed over, and its fault is
forgotten; the first one that gives a table decides. If none does, the fault names what was asked
for. So loaders that pass over a name may be put in anywhere without a change for that name.
-/

namespace TableQuery

/-- The loader has no table for the name: it declines, or it fails. -/
def Loader.PassesOver (l : Loader) (name : String) : Prop :=
  l name = .ok none ∨ ∃ f, l name = .error f

namespace Session

variable {name : String} {l : Loader} {ls before after : List Loader} {r : Relation}

/-! ## One loader after the other -/

theorem fromLoaders_of_passesOver (h : l.PassesOver name) (ls : List Loader) :
    fromLoaders name (l :: ls) = fromLoaders name ls := by
  rcases h with h | ⟨f, h⟩ <;> rw [fromLoaders, h]

theorem fromLoaders_of_gives (h : l name = .ok (some r)) (ls : List Loader) :
    fromLoaders name (l :: ls) = .ok r := by
  rw [fromLoaders, h]

theorem passesOver_or_gives (l : Loader) (name : String) :
    l.PassesOver name ∨ ∃ r, l name = .ok (some r) := by
  rcases h : l name with f | _ | r
  · exact .inl (.inr ⟨f, h⟩)
  · exact .inl (.inl h)
  · exact .inr ⟨r, rfl⟩

/-- A loader that passes over a name can be left out wherever it stands. -/
theorem fromLoaders_without (h : l.PassesOver name) (before after : List Loader) :
    fromLoaders name (before ++ l :: after) = fromLoaders name (before ++ after) := by
  induction before with
  | nil => exact fromLoaders_of_passesOver h after
  | cons x before ih =>
    rcases passesOver_or_gives x name with hx | ⟨r, hx⟩
    · rw [List.cons_append, List.cons_append, fromLoaders_of_passesOver hx,
        fromLoaders_of_passesOver hx, ih]
    · rw [List.cons_append, List.cons_append, fromLoaders_of_gives hx, fromLoaders_of_gives hx]

theorem fromLoaders_append (h : ∀ x ∈ before, x.PassesOver name) (after : List Loader) :
    fromLoaders name (before ++ after) = fromLoaders name after := by
  induction before with
  | nil => rfl
  | cons x before ih =>
    obtain ⟨hx, hbefore⟩ := List.forall_mem_cons.1 h
    rw [List.cons_append, fromLoaders_of_passesOver hx, ih hbefore]

/-- Either one of the loaders is the first to give a table, or all of them pass over the name. -/
theorem exists_first_or_all (name : String) (ls : List Loader) :
    (∃ before l after r, ls = before ++ l :: after ∧ (∀ x ∈ before, x.PassesOver name) ∧
      l name = .ok (some r)) ∨ ∀ x ∈ ls, x.PassesOver name := by
  induction ls with
  | nil => exact .inr (List.forall_mem_nil _)
  | cons x ls ih =>
    rcases passesOver_or_gives x name with hx | ⟨r, hx⟩
    · rcases ih with ⟨before, l, after, r, rfl, hbefore, hl⟩ | hall
      · exact .inl ⟨x :: before, l, after, r, rfl, List.forall_mem_cons.2 ⟨hx, hbefore⟩, hl⟩
      · exact .inr (List.forall_mem_cons.2 ⟨hx, hall⟩)
    · exact .inl ⟨[], x, ls, r, rfl, List.forall_mem_nil _, hx⟩

/-! ## Where a table comes from -/

/-- What a name resolves to: its registered table, unless it belongs to an outside source; else the
table of the first loader that gives one; else the fault that there is none. -/
inductive Resolves (s : Session) (name : String) : Except Fault Relation → Prop where
  | registered (r : Relation) (hname : Name.isExternal name = false)
    (hr : s.tables.get? name = some r) : Resolves s name (.ok r)
  | loaded (before after : List Loader) (l : Loader) (r : Relation)
    (hname : Name.isExternal name = true ∨ s.tables.get? name = none)
    (hloaders : s.loaders = before ++ l :: after) (hbefore : ∀ x ∈ before, x.PassesOver name)
    (hl : l name = .ok (some r)) : Resolves s name (.ok r)
  | missing (hname : Name.isExternal name = true ∨ s.tables.get? name = none)
    (hloaders : ∀ x ∈ s.loaders, x.PassesOver name) : Resolves s name (.error (.noTable name))

variable {s : Session}

theorem resolveTable_registered (hname : Name.isExternal name = false)
    (hr : s.tables.get? name = some r) : s.resolveTable name = .ok r := by
  rw [resolveTable, hname, if_neg Bool.false_ne_true, hr]

theorem resolveTable_unregistered
    (hname : Name.isExternal name = true ∨ s.tables.get? name = none) :
    s.resolveTable name = fromLoaders name s.loaders := by
  rcases hname with hname | hname
  · rw [resolveTable, hname, if_pos rfl]
  · rw [resolveTable, hname, ite_self]

theorem Resolves.resolveTable_eq {out : Except Fault Relation} (h : s.Resolves name out) :
    s.resolveTable name = out := by
  cases h with
  | registered r hname hr => exact resolveTable_registered hname hr
  | loaded before after l r hname hloaders hbefore hl =>
    rw [resolveTable_unregistered hname, hloaders, fromLoaders_append hbefore,
      fromLoaders_of_gives hl]
  | missing hname hloaders =>
    rw [resolveTable_unregistered hname, ← List.append_nil s.loaders,
      fromLoaders_append hloaders, fromLoaders]

theorem exists_resolves (s : Session) (name : String) : ∃ out, s.Resolves name out := by
  by_cases hname : Name.isExternal name = true ∨ s.tables.get? name = none
  · rcases exists_first_or_all name s.loaders with ⟨before, l, after, r, hls, hbefore, hl⟩ | hall
    · exact ⟨.ok r, .loaded before after l r hname hls hbefore hl⟩
    · exact ⟨.error (.noTable name), .missing hname hall⟩
  · obtain ⟨hinside, hfound⟩ := not_or.1 hname
    obtain ⟨r, hr⟩ := Option.ne_none_iff_exists'.1 hfound
    exact ⟨.ok r, .registered r (Bool.eq_false_iff.2 hinside) hr⟩

/-! ## Loaders put in later -/

/-- Put in several loaders, each at its place in the list that the ones before it have left. -/
def addLoaders (added : List (Loader × Option Nat)) (s : Session) : Session :=
  added.foldl (fun s (l, position) => s.addLoader l position) s

theorem resolveTable_addLoader (h : l.PassesOver name) (position : Option Nat) (s : Session) :
    (s.addLoader l position).resolveTable name = s.resolveTable name := by
  have hloaders :
      fromLoaders name (insertAt position l s.loaders) = fromLoaders name s.loaders := by
    rw [insertAt, fromLoaders_without h, List.take_append_drop]
  rw [resolveTable, resolveTable, addLoader, hloaders]

/-- A name resolves to its registered table, or to that of the first loader that gives one, or not
at all; and loaders that pass over it change nothing, wherever they are put in. -/
theorem resolves_by_first_loader (s : Session) (name : String) :
    (∀ out, s.resolveTable name = out ↔ s.Resolves name out) ∧
      ∀ added : List (Loader × Option Nat), (∀ e ∈ added, e.1.PassesOver name) →
        (s.addLoaders added).resolveTable name = s.resolveTable name := by
  constructor
  · intro out
    constructor
    · rintro rfl
      obtain ⟨out, hout⟩ := s.exists_resolves name
      rwa [hout.resolveTable_eq]
    · exact Resolves.resolveTable_eq
  · intro added hadded
    induction added generalizing s with
    | nil => rfl
    | cons e added ih =>
      obtain ⟨he, hrest⟩ := List.forall_mem_cons.1 hadded
      exact (ih (s.addLoader e.1 e.2) hrest).trans (resolveTable_addLoader he e.2 s)

/-- A session with a table under a name of an outside source, and three loaders: one that cannot be
reached, and two that know the name. -/
def mirrored : Session :=
  { Session.new with
    tables := [("@shop.sales", .frame ⟨[⟨"kept", .int64, [.int 0]⟩]⟩)]
    loaders := [.offline, .ofTables [("@shop.sales", .frame ⟨[⟨"first", .int64, [.int 1]⟩]⟩)],
      .ofTables [("@shop.sales", .frame ⟨[⟨"second", .int64, [.int 2]⟩]⟩)]] }

/-- Two loaders that cannot be reached and one that knows another name only. -/
def strangers : List (Loader × Option Nat) :=
  [(.offline, some 1), (.ofTables [("@shop.staff", .frame ⟨[]⟩)], some 9), (.offline, some 0)]

theorem mirrored_resolves_to_first :
    (∀ e ∈ strangers, e.1.PassesOver "@shop.sales") ∧
      mirrored.resolveTable "@shop.sales" = .ok (.frame ⟨[⟨"first", .int64, [.int 1]⟩]⟩) ∧
      (mirrored.addLoaders strangers).resolveTable "@shop.sales" =
        .ok (.frame ⟨[⟨"first", .int64, [.int 1]⟩]⟩) := by
  have hoffline : Loader.PassesOver .offline "@shop.sales" := .inr ⟨_, rfl⟩
  have hstrangers : ∀ e ∈ strangers, e.1.PassesOver "@shop.sales" :=
    List.forall_mem_cons.2 ⟨hoffline, List.forall_mem_cons.2 ⟨.inl rfl,
      List.forall_mem_cons.2 ⟨hoffline, List.forall_mem_nil _⟩⟩⟩
  obtain ⟨hresolves, hadded⟩ := resolves_by_first_loader mirrored "@shop.sales"
  have hfirst : mirrored.resolveTable "@shop.sales" =
      .ok (.frame ⟨[⟨"first", .int64, [.int 1]⟩]⟩) :=
    (hresolves _).2 (.loaded [.offline] _ _ _ (.inl rfl) rfl
      (List.forall_mem_singleton.2 hoffline) rfl)
  exact ⟨hstrangers, hfirst, (hadded strangers hstrangers).trans hfirst⟩

end Session

end TableQuery
