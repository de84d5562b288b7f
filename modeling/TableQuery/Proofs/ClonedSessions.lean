import TableQuery.Proofs.FunctionHandles
import TableQuery.Proofs.References

/-!
# Copies of a session

Any number of sessions are open side by side, and things are done to one of them at a time. Whatever
is done to a copy of a session, to copies of the copy and to other sessions, the session itself
keeps its tables, settings, loaders and engine. The functions are not copied: a copy has the handle
of its session, no operation changes a handle, and so what is registered on the one is known on the
other. A snapshot has a handle that no session has, so it stays what it was when it was taken.
-/

namespace TableQuery

/-! ## Functions registered one after the other -/

namespace Functions

/-- Register several functions, the first one first. -/
def registerAll (entries : List (String × ScalarFunction)) (fs : Functions) : Functions :=
  entries.foldl (fun fs (name, f) => fs.register name f) fs

theorem registerAll_append (entries more : List (String × ScalarFunction)) (fs : Functions) :
    registerAll (entries ++ more) fs = registerAll more (registerAll entries fs) :=
  List.foldl_append

/-- A call finds the function that was registered last under its name in any case of letters, or
else the one that was known before. -/
theorem get?_registerAll (entries : List (String × ScalarFunction)) (fs : Functions)
    (name : String) :
    (registerAll entries fs).get? (Text.upper name) =
      ((entries.reverse.find? fun e => Text.upper e.1 = Text.upper name).map Prod.snd).or
        (fs.get? (Text.upper name)) := by
  induction entries generalizing fs with
  | nil => rfl
  | cons e entries ih =>
    change (registerAll entries (fs.register e.1 e.2)).get? _ = _
    rw [ih, List.reverse_cons, List.find?_append]
    cases entries.reverse.find? fun e => Text.upper e.1 = Text.upper name with
    | some found => rfl
    | none =>
      by_cases h : Text.upper e.1 = Text.upper name
      · simp [register, h, Registry.get?_insert_self]
      · simp [register, h, Registry.get?_insert_of_ne (Ne.symm h)]

end Functions

namespace Store

variable {σ : Store} {h h' : Handle} {name : String} {f : ScalarFunction} {fs : Functions}

@[simp]
theorem length_register : (σ.register h name f).length = σ.length :=
  List.length_modify ..

@[simp]
theorem length_add : (σ.add fs).length = σ.length + 1 := by
  rw [add, List.length_append, List.length_singleton]

theorem read_register_self (hlt : h < σ.length) :
    (σ.register h name f).read h = (σ.read h).register name f := by
  simp [read, register, hlt]

theorem read_register_of_ne (hne : h' ≠ h) : (σ.register h name f).read h' = σ.read h' := by
  simp [read, register, Ne.symm hne]

theorem read_add_of_lt (hlt : h < σ.length) : (σ.add fs).read h = σ.read h := by
  simp [read, add, List.getElem?_append_left hlt]

theorem read_add_length : (σ.add fs).read σ.length = fs := by
  simp [read, add]

end Store

namespace Workspace

/-! ## Actions -/

/-- What can be done with an open session. -/
inductive Action where
  | addTable (name : String) (r : Relation) (replace : Bool)
  | removeTable (name : String)
  | resolveTable (name : String)
  | setConfig (key : String) (x : Json)
  | mergeConfig (settings : List (String × Json))
  | addLoader (l : Loader) (position : Option Nat)
  | clearLoaders
  /-- Load a table, append to a setting, name a source root or choose an engine. -/
  | attempt (a : Attempt)
  | register (name : String) (f : ScalarFunction)
  | keepFunctions
  | run (query : String)
  | runWith (query : String) (tables : List (String × Relation)) (settings : List (String × Json))
  | execute (ops : List Operator)
  | clone
  /-- Open a session that has nothing to do with this one. -/
  | openNew

/-- The workspace that an action on the session in use leaves, whether it fails or not. -/
def Action.carryOut (w : Workspace) : Action → Workspace
  | .addTable name r replace => w.update (Session.addTable name r replace)
  | .removeTable name => w.update (Session.removeTable name)
  | .resolveTable name => (w.perform (do (← get).resolveTable name : SessionM Relation)).2
  | .setConfig key x => w.update (Session.setConfig key x)
  | .mergeConfig settings => w.update (Session.mergeConfig settings)
  | .addLoader l position => w.update (Session.addLoader l position)
  | .clearLoaders => w.update Session.clearLoaders
  | .attempt a => (w.perform a.carryOut).2
  | .register name f => w.register name f
  | .keepFunctions => w.keepFunctions
  | .run query => (w.perform (runCollect w.functions query)).2
  | .runWith query tables settings =>
    (w.perform (TableQuery.runWith w.functions query tables settings)).2
  | .execute ops => (w.perform (TableQuery.execute w.functions ops)).2
  | .clone => w.clone
  | .openNew => w.openNew

/-- Do something with the open session of a number, if there is one. -/
def act (w : Workspace) (k : Nat) (a : Action) : Workspace :=
  match w.turnTo? k with
  | none => w
  | some v => a.carryOut v

/-- Do several things, each with the open session of a number. -/
def actAll (w : Workspace) (actions : List (Nat × Action)) : Workspace :=
  actions.foldl (fun w (k, a) => w.act k a) w

/-- The function that an action registers behind a handle. -/
def registered (w : Workspace) (h : Handle) (k : Nat) (a : Action) :
    List (String × ScalarFunction) :=
  match a, w.sessions[k]? with
  | .register name f, some s => if s.functions = h then [(name, f)] else []
  | _, _ => []

/-- The functions that actions register behind a handle, on whichever session, the first one
first. -/
def registrations (w : Workspace) (h : Handle) :
    List (Nat × Action) → List (String × ScalarFunction)
  | [] => []
  | (k, a) :: actions => w.registered h k a ++ (w.act k a).registrations h actions

/-! ## What an action comes to -/

variable {w u : Workspace} {k : Nat} {s : Session} {a : Action}

/-- An action on a session changes the session but not its handle, or what is behind the handle, or
it adds a snapshot or a session. -/
inductive Effect (w : Workspace) (k : Nat) (s : Session) : Action → Workspace → Prop where
  | alter {a : Action} {u : Workspace} (s' : Session) (quiet : ∀ name f, a ≠ .register name f)
      (handle : s'.functions = s.functions) (sessions : u.sessions = w.sessions.set k s')
      (store : u.store = w.store) (kept : u.snapshotHandles = w.snapshotHandles) :
      Effect w k s a u
  | register {name : String} {f : ScalarFunction} {u : Workspace}
      (sessions : u.sessions = w.sessions)
      (store : u.store = w.store.register s.functions name f)
      (kept : u.snapshotHandles = w.snapshotHandles) : Effect w k s (.register name f) u
  | keep {u : Workspace} (sessions : u.sessions = w.sessions)
      (store : u.store = w.store.add (w.store.read s.functions))
      (kept : u.snapshotHandles = w.snapshotHandles ++ [w.store.length]) :
      Effect w k s .keepFunctions u
  | clone {u : Workspace} (sessions : u.sessions = w.sessions ++ [s]) (store : u.store = w.store)
      (kept : u.snapshotHandles = w.snapshotHandles) : Effect w k s .clone u
  | openNew {u : Workspace} (s' : Session) (fresh : s'.functions = w.store.length)
      (sessions : u.sessions = w.sessions ++ [s']) (store : u.store = w.store.add .builtin)
      (kept : u.snapshotHandles = w.snapshotHandles) : Effect w k s .openNew u

theorem turnTo?_of_get (hs : w.sessions[k]? = some s) : w.turnTo? k =
    some { w with
      earlier := w.sessions.take k, current := s, later := w.sessions.drop (k + 1) } := by
  obtain ⟨hlt, rfl⟩ := List.getElem?_eq_some_iff.1 hs
  rw [turnTo?, List.drop_eq_getElem_cons hlt]

theorem act_of_none (hs : w.sessions[k]? = none) : w.act k a = w := by
  rw [act, turnTo?, List.drop_eq_nil_of_le (List.getElem?_eq_none_iff.1 hs)]

theorem take_append_drop_set (hs : w.sessions[k]? = some s) (s' : Session) :
    w.sessions.take k ++ s' :: w.sessions.drop (k + 1) = w.sessions.set k s' := by
  rw [List.set_eq_take_append_cons_drop, if_pos (List.getElem?_eq_some_iff.1 hs).1]

theorem take_append_drop_self (hs : w.sessions[k]? = some s) :
    w.sessions.take k ++ s :: w.sessions.drop (k + 1) = w.sessions := by
  obtain ⟨hlt, rfl⟩ := List.getElem?_eq_some_iff.1 hs
  rw [take_append_drop_set hs, List.set_getElem_self hlt]

theorem effect_act (hs : w.sessions[k]? = some s) (a : Action) : Effect w k s a (w.act k a) := by
  have hset := take_append_drop_set hs
  have hself := take_append_drop_self hs
  rw [act, turnTo?_of_get hs]
  cases a with
  | register name f => exact .register hself rfl rfl
  | keepFunctions => exact .keep hself rfl rfl
  | clone => exact .clone (congrArg (· ++ [s]) hself) rfl rfl
  | openNew => exact .openNew _ rfl (congrArg (· ++ [_]) hself) rfl rfl
  | addTable name r replace =>
    exact .alter _ nofun (Session.functions_addTable name r replace s) (hset _) rfl rfl
  | mergeConfig settings =>
    exact .alter _ nofun (Session.functions_mergeConfig settings s) (hset _) rfl rfl
  | removeTable name => exact .alter (s.removeTable name) nofun rfl (hset _) rfl rfl
  | setConfig key x => exact .alter (s.setConfig key x) nofun rfl (hset _) rfl rfl
  | addLoader l position => exact .alter (s.addLoader l position) nofun rfl (hset _) rfl rfl
  | clearLoaders => exact .alter s.clearLoaders nofun rfl (hset _) rfl rfl
  | resolveTable name =>
    have hm : KeepsHandle (do (← get).resolveTable name : SessionM Relation) :=
      .bind .get fun _ => .lift _
    exact .alter _ nofun (hm s) (hset _) rfl rfl
  | attempt a => exact .alter _ nofun (a.keepsHandle_carryOut s) (hset _) rfl rfl
  | run query => exact .alter _ nofun (keepsHandle_runCollect _ query s) (hset _) rfl rfl
  | runWith query tables settings =>
    exact .alter _ nofun (keepsHandle_runWith _ query tables settings s) (hset _) rfl rfl
  | execute ops => exact .alter _ nofun (keepsHandle_execute _ ops s) (hset _) rfl rfl

namespace Effect

/-- An open session stays open with its handle, and only the session that is worked on changes. -/
theorem session (h : Effect w k s a u) (hs : w.sessions[k]? = some s) {i : Nat} {t : Session}
    (ht : w.sessions[i]? = some t) :
    ∃ t', u.sessions[i]? = some t' ∧ t'.functions = t.functions ∧ (i ≠ k → t' = t) := by
  obtain ⟨hlt, -⟩ := List.getElem?_eq_some_iff.1 ht
  cases h with
  | alter s' _ handle sessions =>
    rw [sessions]
    by_cases hi : i = k
    · subst hi
      cases hs.symm.trans ht
      exact ⟨s', List.getElem?_set_self hlt, handle, fun hne => absurd rfl hne⟩
    · exact ⟨t, (List.getElem?_set_ne (Ne.symm hi)).trans ht, rfl, fun _ => rfl⟩
  | register sessions | keep sessions => exact ⟨t, by rw [sessions, ht], rfl, fun _ => rfl⟩
  | clone sessions | openNew _ _ sessions =>
    exact ⟨t, by rw [sessions, List.getElem?_append_left hlt, ht], rfl, fun _ => rfl⟩

theorem length_le (h : Effect w k s a u) : w.store.length ≤ u.store.length := by
  cases h with
  | alter _ _ _ _ store | clone _ store => exact Nat.le_of_eq (congrArg List.length store.symm)
  | register _ store => exact Nat.le_of_eq (by rw [store, Store.length_register])
  | keep _ store | openNew _ _ _ store =>
    rw [store, Store.length_add]
    exact Nat.le_succ _

/-- Behind a handle there is what there was, and what the action registers there. -/
theorem read (h : Effect w k s a u) (hs : w.sessions[k]? = some s) {i : Handle}
    (hi : i < w.store.length) :
    u.store.read i = (w.store.read i).registerAll (w.registered i k a) := by
  cases h with
  | alter _ quiet _ _ store =>
    have hnone : w.registered i k a = [] := by
      cases a with
      | register name f => exact absurd rfl (quiet name f)
      | _ => rfl
    rw [store, hnone]
    rfl
  | register _ store =>
    unfold registered
    rw [store, hs]
    dsimp only
    split
    · next heq => rw [heq, Store.read_register_self hi]; rfl
    · next hne => rw [Store.read_register_of_ne (Ne.symm hne)]; rfl
  | keep _ store => rw [store, Store.read_add_of_lt hi]; rfl
  | clone _ store => rw [store]; rfl
  | openNew _ _ _ store => rw [store, Store.read_add_of_lt hi]; rfl

end Effect

/-! ## Handles that are in use -/

/-- All handles in use are in the store, and no session has the handle of a snapshot. -/
structure IsSound (w : Workspace) : Prop where
  sessions : ∀ s ∈ w.sessions, s.functions < w.store.length
  snapshots : ∀ h ∈ w.snapshotHandles, h < w.store.length
  apart : ∀ s ∈ w.sessions, s.functions ∉ w.snapshotHandles

theorem isSound_new (fs : Functions) (s : Session) : (new fs s).IsSound := by
  refine ⟨fun t ht => ?_, nofun, fun _ _ => nofun⟩
  rw [List.mem_singleton.1 ht]
  exact Nat.zero_lt_one

/-- Handles stay in use in order as the store grows and sessions come to share them. -/
theorem IsSound.of_shared (hw : w.IsSound) (hlength : w.store.length ≤ u.store.length)
    (hsessions : ∀ t ∈ u.sessions, ∃ s ∈ w.sessions, t.functions = s.functions)
    (hkept : u.snapshotHandles = w.snapshotHandles) : u.IsSound := by
  refine ⟨fun t ht => ?_, fun h hh => ?_, fun t ht => ?_⟩
  · obtain ⟨s, hs, hhandle⟩ := hsessions t ht
    exact hhandle ▸ Nat.lt_of_lt_of_le (hw.sessions s hs) hlength
  · exact Nat.lt_of_lt_of_le (hw.snapshots h (hkept ▸ hh)) hlength
  · obtain ⟨s, hs, hhandle⟩ := hsessions t ht
    rw [hhandle, hkept]
    exact hw.apart s hs

theorem Effect.isSound (h : Effect w k s a u) (hw : w.IsSound) (hs : w.sessions[k]? = some s) :
    u.IsSound := by
  have hmem : s ∈ w.sessions := List.mem_of_getElem? hs
  have hlength := h.length_le
  cases h with
  | alter s' _ handle sessions _ kept =>
    refine hw.of_shared hlength (fun t ht => ?_) kept
    rw [sessions] at ht
    rcases List.mem_or_eq_of_mem_set ht with ht | rfl
    · exact ⟨t, ht, rfl⟩
    · exact ⟨s, hmem, handle⟩
  | register sessions _ kept =>
    exact hw.of_shared hlength (fun t ht => ⟨t, sessions ▸ ht, rfl⟩) kept
  | clone sessions _ kept =>
    refine hw.of_shared hlength (fun t ht => ?_) kept
    rw [sessions] at ht
    rcases List.mem_append.1 ht with ht | ht
    · exact ⟨t, ht, rfl⟩
    · exact ⟨s, hmem, by rw [List.mem_singleton.1 ht]⟩
  | keep sessions store kept =>
    refine ⟨?_, ?_, ?_⟩
    · rw [sessions, store, Store.length_add]
      exact fun t ht => Nat.lt_succ_of_lt (hw.sessions t ht)
    · rw [kept, store, Store.length_add, List.forall_mem_append, List.forall_mem_singleton]
      exact ⟨fun i hi => Nat.lt_succ_of_lt (hw.snapshots i hi), Nat.lt_succ_self _⟩
    · rw [sessions, kept]
      intro t ht
      rw [List.mem_append, List.mem_singleton, not_or]
      exact ⟨hw.apart t ht, Nat.ne_of_lt (hw.sessions t ht)⟩
  | openNew s' fresh sessions store kept =>
    refine ⟨?_, ?_, ?_⟩
    · rw [sessions, store, Store.length_add, List.forall_mem_append, List.forall_mem_singleton,
        fresh]
      exact ⟨fun t ht => Nat.lt_succ_of_lt (hw.sessions t ht), Nat.lt_succ_self _⟩
    · rw [kept, store, Store.length_add]
      exact fun i hi => Nat.lt_succ_of_lt (hw.snapshots i hi)
    · rw [sessions, kept, List.forall_mem_append, List.forall_mem_singleton, fresh]
      exact ⟨hw.apart, fun hi => Nat.lt_irrefl _ (hw.snapshots _ hi)⟩

/-- The snapshots that there are stay what they are. -/
theorem Effect.snapshots (h : Effect w k s a u) (hw : w.IsSound) (hs : w.sessions[k]? = some s) :
    w.snapshots <+: u.snapshots := by
  have hmem : s ∈ w.sessions := List.mem_of_getElem? hs
  have hread : ∀ i ∈ w.snapshotHandles, u.store.read i = w.store.read i := by
    intro i hi
    have hquiet : w.registered i k a = [] := by
      have hne : s.functions ≠ i := fun heq => hw.apart s hmem (heq ▸ hi)
      cases a <;> simp [registered, hs, hne]
    rw [h.read hs (hw.snapshots i hi), hquiet]
    rfl
  have hkept : w.snapshotHandles <+: u.snapshotHandles := by
    cases h with
    | alter _ _ _ _ _ kept | register _ _ kept | clone _ _ kept | openNew _ _ _ _ kept =>
      exact kept ▸ List.prefix_rfl
    | keep _ _ kept =>
      rw [kept]
      exact List.prefix_append _ _
  have hsame : w.snapshots = w.snapshotHandles.map u.store.read :=
    List.map_congr_left fun i hi => (hread i hi).symm
  rw [hsame]
  exact hkept.map _

/-! ## Many actions -/

theorem actAll_append (w : Workspace) (actions more : List (Nat × Action)) :
    w.actAll (actions ++ more) = (w.actAll actions).actAll more :=
  List.foldl_append

/-- Actions leave all handles in use in order. -/
theorem isSound_act (hw : w.IsSound) (k : Nat) (a : Action) : (w.act k a).IsSound := by
  cases hs : w.sessions[k]? with
  | none => rwa [act_of_none hs]
  | some s => exact (effect_act hs a).isSound hw hs

theorem isSound_actAll (hw : w.IsSound) (actions : List (Nat × Action)) :
    (w.actAll actions).IsSound := by
  induction actions generalizing w with
  | nil => exact hw
  | cons x actions ih => exact ih (isSound_act hw x.1 x.2)

/-- Giving up a session leaves all handles in use in order too. -/
theorem isSound_pop (hw : w.IsSound) : w.pop.IsSound := by
  have hsub : w.pop.sessions.Sublist w.sessions := by
    unfold pop
    split
    · exact List.Sublist.refl _
    · next s hlast =>
      obtain ⟨front, hfront⟩ := List.getLast?_eq_some_iff.1 hlast
      simp only [sessions, hfront, List.dropLast_concat, List.append_assoc, List.singleton_append]
      exact ((List.sublist_cons_self w.current w.later).cons_cons s).append_left front
  have hstore : w.pop.store = w.store := by
    unfold pop
    split <;> rfl
  have hkept : w.pop.snapshotHandles = w.snapshotHandles := by
    unfold pop
    split <;> rfl
  exact hw.of_shared (Nat.le_of_eq (by rw [hstore])) (fun t ht => ⟨t, hsub.subset ht, rfl⟩) hkept

/-- Open sessions stay open with their handles, and those that nothing is done with stay as they
are. -/
theorem session_actAll (actions : List (Nat × Action)) {i : Nat} {t : Session}
    (ht : w.sessions[i]? = some t) :
    ∃ t', (w.actAll actions).sessions[i]? = some t' ∧ t'.functions = t.functions ∧
      ((∀ x ∈ actions, x.1 ≠ i) → t' = t) := by
  induction actions generalizing w t with
  | nil => exact ⟨t, ht, rfl, fun _ => rfl⟩
  | cons x actions ih =>
    obtain ⟨k, a⟩ := x
    obtain ⟨t₁, ht₁, hhandle, hsame⟩ : ∃ t', (w.act k a).sessions[i]? = some t' ∧
        t'.functions = t.functions ∧ (i ≠ k → t' = t) := by
      cases hs : w.sessions[k]? with
      | none => exact ⟨t, by rw [act_of_none hs, ht], rfl, fun _ => rfl⟩
      | some s => exact (effect_act hs a).session hs ht
    obtain ⟨t', ht', hhandle', hsame'⟩ := ih ht₁
    refine ⟨t', ht', hhandle'.trans hhandle, fun hne => ?_⟩
    obtain ⟨hk, hrest⟩ := List.forall_mem_cons.1 hne
    exact (hsame' hrest).trans (hsame (Ne.symm hk))

/-- Behind a handle there is what there was, and what the actions have registered there. -/
theorem read_actAll (actions : List (Nat × Action)) {i : Handle} (hi : i < w.store.length) :
    (w.actAll actions).store.read i =
      (w.store.read i).registerAll (w.registrations i actions) := by
  induction actions generalizing w with
  | nil => rfl
  | cons x actions ih =>
    obtain ⟨k, a⟩ := x
    obtain ⟨hread, hlength⟩ : (w.act k a).store.read i =
        (w.store.read i).registerAll (w.registered i k a) ∧
          w.store.length ≤ (w.act k a).store.length := by
      cases hs : w.sessions[k]? with
      | none =>
        rw [act_of_none hs]
        have hnone : w.registered i k a = [] := by simp [registered, hs]
        rw [hnone]
        exact ⟨rfl, Nat.le_refl _⟩
      | some s => exact ⟨(effect_act hs a).read hs hi, (effect_act hs a).length_le⟩
    refine (ih (Nat.lt_of_lt_of_le hi hlength)).trans ?_
    rw [hread, registrations, Functions.registerAll_append]

theorem snapshots_actAll (hw : w.IsSound) (actions : List (Nat × Action)) :
    w.snapshots <+: (w.actAll actions).snapshots := by
  induction actions generalizing w with
  | nil => exact List.prefix_rfl
  | cons x actions ih =>
    obtain ⟨k, a⟩ := x
    have hfirst : w.snapshots <+: (w.act k a).snapshots := by
      cases hs : w.sessions[k]? with
      | none => exact (act_of_none hs).symm ▸ List.prefix_rfl
      | some s => exact (effect_act hs a).snapshots hw hs
    exact hfirst.trans (ih (isSound_act hw k a))

/-- A snapshot is taken of the functions that there are behind the handle of the session. -/
theorem snapshots_keepFunctions (hw : w.IsSound) (hs : w.sessions[k]? = some s) :
    (w.act k .keepFunctions).snapshots = w.snapshots ++ [w.store.read s.functions] := by
  rw [act, turnTo?_of_get hs]
  change (w.snapshotHandles ++ [w.store.length]).map (w.store.add (w.store.read s.functions)).read =
    _
  rw [List.map_append, List.map_singleton, Store.read_add_length]
  exact congrArg (· ++ [_]) (List.map_congr_left fun i hi =>
    Store.read_add_of_lt (hw.snapshots i hi))

/-- Whatever is done after a snapshot has been taken, it stays what was known at that moment. -/
theorem snapshots_kept (hw : w.IsSound) {before : List (Nat × Action)}
    (hs : (w.actAll before).sessions[k]? = some s) (after : List (Nat × Action)) :
    (w.actAll before).snapshots ++ [(w.actAll before).store.read s.functions] <+:
      (w.actAll (before ++ (k, .keepFunctions) :: after)).snapshots := by
  have hbefore : (w.actAll before).IsSound := isSound_actAll hw before
  have hlater := snapshots_actAll (isSound_act hbefore k .keepFunctions) after
  rw [snapshots_keepFunctions hbefore hs] at hlater
  rw [actAll_append]
  exact hlater

/-! ## Copies -/

theorem sessions_clone (hs : w.sessions[k]? = some s) :
    (w.act k .clone).sessions = w.sessions ++ [s] := by
  rw [act, turnTo?_of_get hs]
  exact congrArg (· ++ [s]) (take_append_drop_self hs)

theorem store_clone (hs : w.sessions[k]? = some s) : (w.act k .clone).store = w.store := by
  rw [act, turnTo?_of_get hs]
  rfl

/-- The session that is copied stays where it is, and the copy comes behind all others. -/
theorem getElem?_sessions_clone (hs : w.sessions[k]? = some s) :
    (w.act k .clone).sessions[k]? = some s ∧ (w.act k .clone).sessions[w.depth]? = some s := by
  obtain ⟨hlt, -⟩ := List.getElem?_eq_some_iff.1 hs
  rw [sessions_clone hs]
  constructor
  · rw [List.getElem?_append_left hlt, hs]
  · rw [depth, List.getElem?_append_right (Nat.le_refl _), Nat.sub_self]
    rfl

/-- A session is copied, and then things are done to the copy, to the session itself and to others.
The copy stands at the end of the open sessions. Whichever of the sessions nothing is done with is
as it was, with its tables, settings, loaders and engine. The session and its copy know the same
functions all the time: a call finds the last one that was registered on any session with their
handle, or else the one known before. And every snapshot that is taken on the way is in the end what
was known to its session at that moment, behind the snapshots that there were. -/
theorem clone_isolated (hw : w.IsSound) (hs : w.sessions[k]? = some s)
    (actions : List (Nat × Action)) :
    let v := w.act k .clone
    let u := v.actAll actions
    v.sessions = w.sessions ++ [s] ∧
      (∀ i t, v.sessions[i]? = some t → (∀ x ∈ actions, x.1 ≠ i) → u.sessions[i]? = some t) ∧
      (∃ t c, u.sessions[k]? = some t ∧ u.sessions[w.depth]? = some c ∧
        ∀ name count, (u.store.read t.functions).resolve name count =
          (u.store.read c.functions).resolve name count) ∧
      (∀ t, u.sessions[k]? = some t → ∀ name,
        (u.store.read t.functions).get? (Text.upper name) =
          (((v.registrations s.functions actions).reverse.find? fun e =>
            Text.upper e.1 = Text.upper name).map Prod.snd).or
              ((w.store.read s.functions).get? (Text.upper name))) ∧
      ∀ before j after t, actions = before ++ (j, .keepFunctions) :: after →
        (v.actAll before).sessions[j]? = some t →
          (v.actAll before).snapshots ++ [(v.actAll before).store.read t.functions] <+:
            u.snapshots := by
  intro v u
  have hv : v.IsSound := isSound_act hw k .clone
  obtain ⟨horiginal, hcopy⟩ := getElem?_sessions_clone hs
  obtain ⟨t, ht, hthandle, -⟩ := session_actAll actions horiginal
  obtain ⟨c, hc, hchandle, -⟩ := session_actAll actions hcopy
  refine ⟨sessions_clone hs, fun i t' ht' hquiet => ?_, ⟨t, c, ht, hc, fun name count => ?_⟩,
    fun t' ht' name => ?_, ?_⟩
  · obtain ⟨t'', ht'', -, hsame⟩ := session_actAll actions ht'
    rw [ht'', hsame hquiet]
  · rw [hthandle, hchandle]
  · cases ht.symm.trans ht'
    have hlt : s.functions < v.store.length := hv.sessions s (List.mem_of_getElem? horiginal)
    rw [hthandle, read_actAll actions hlt, Functions.get?_registerAll, store_clone hs]
  · rintro before j after t' hactions ht'
    have hkept := snapshots_kept hv ht' after
    rwa [← hactions] at hkept

/-- A function is registered on a copy and, when a snapshot has been taken, replaced on a copy of
the copy. -/
def redefinition : List (Nat × Action) :=
  [(1, .removeTable "upper"), (1, .register "size" .magnitude), (1, .keepFunctions), (1, .clone),
    (2, .clearLoaders), (2, .register "SIZE" .lastArgument), (2, .keepFunctions),
    (1, .attempt (.engine .deferred [])), (1, .run "SELECT Size(id) FROM lower")]

theorem clone_isolated_redefinition :
    let u := (shelves.act 0 .clone).actAll redefinition
    u.sessions[0]? = some shelves.current ∧
      (u.store.read shelves.current.functions).get? "SIZE" = some .lastArgument ∧
      [shelves.functions.registerAll [("size", .magnitude)]] <+: u.snapshots := by
  intro u
  have hs : shelves.sessions[0]? = some shelves.current := rfl
  obtain ⟨-, hquiet, -, hfunctions, hkept⟩ :=
    clone_isolated (isSound_new .builtin shelves.current) hs redefinition
  have horiginal : u.sessions[0]? = some shelves.current := hquiet 0 _ rfl (by decide)
  have hsize := hfunctions _ horiginal "size"
  rw [show Text.upper "size" = "SIZE" by decide] at hsize
  refine ⟨horiginal, hsize, ?_⟩
  exact hkept [(1, .removeTable "upper"), (1, .register "size" .magnitude)] 1 _ _ rfl rfl

end Workspace

end TableQuery
