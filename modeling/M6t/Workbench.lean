import M6t.Session
import M6t.Runs

/-! The workbench: the project strip, the two tab strips, the trees and the
session that restores into them and records them. A render draws the state as
every queued update leaves it; the effects of that render run later, with what
it drew and with the refs as they are by then. -/
namespace M6t.Workbench
open M6t.Text M6t.Session M6t.ProjectTrees
open M6t.Editor (FileContent EditorTab)
open M6t.EditorStrip (RestoredEditors Selections)
open M6t.TerminalStrip (TerminalTab RestoredTerminals)

structure Project where
  name : Str
  path : Str
  deriving DecidableEq, Repr

def findProject (projects : List Project) (name : Option Str) : Option Project :=
  name.bind (fun name => projects.find? (fun project => project.name = name))

def selectionAfterReload (projects : List Project) (active : Option Str) : Option Str :=
  if active ≠ none ∧ ∃ p ∈ projects, some p.name = active then active else projects.head?.map Project.name

def selectionAfterRemove (projects : List Project) (name : Str) (active : Option Str) : Option Str :=
  if active ≠ some name then active
  else
    match projects.findIdx? (fun project => project.name = name) with
    | none => active
    | some index =>
      let remaining := projects.filter (fun project => project.name ≠ name)
      (remaining[min index (remaining.length - 1)]?).map Project.name

/-- What a render draws, as far as the handlers and effects it leaves behind
read it. -/
structure View where
  list : List Project
  activeName : Option Str
  workspace : WorkspaceSettings
  loaded : Option State
  restoring : Bool
  hydrations : Nat
  editors : List EditorTab
  editorActive : Selections
  terminals : List TerminalTab
  terminalActive : Selections
  trees : ProjectTrees TreeState
  deriving DecidableEq, Repr

structure Hydration where
  project : Str
  terminals : RestoredTerminals
  deriving DecidableEq, Repr

/-- `drawn` is the last render, and `pending` whether its effects are still to
run. `keyed` is what the hydration effect depended on when it last ran, `rooted`
what the tree's did. `begun` counts the calls of the editors' `restore`. -/
structure Bench where
  list : List Project
  activeName : Option Str
  workspace : WorkspaceSettings
  loaded : Option State
  restoring : Bool
  hydrations : Nat
  current : State
  hydrated : List Str
  editors : EditorStrip.Strip
  terminals : TerminalStrip.Strip
  trees : ProjectTrees TreeState
  held : List Str
  hydrating : List Hydration
  begun : List Str
  drawn : View
  pending : Bool
  keyed : Option State × Bool × Option Str × Option Str
  rooted : Option Str
  deriving DecidableEq, Repr

def Bench.view (s : Bench) : View where
  list := s.list
  activeName := s.activeName
  workspace := s.workspace
  loaded := s.loaded
  restoring := s.restoring
  hydrations := s.hydrations
  editors := s.editors.tabs
  editorActive := s.editors.activeByProject
  terminals := s.terminals.tabs
  terminalActive := s.terminals.activeByProject
  trees := s.trees

def View.activePath (v : View) : Option Str := (findProject v.list v.activeName).map Project.path

def View.live (v : View) : LiveSession where
  activeProject := v.activeName
  workspace := v.workspace
  editors := EditorStrip.tabsForProject v.editors v.activeName
  activeEditor := v.activeName.bind (EditorStrip.selected v.editorActive)
  terminals := TerminalStrip.tabsForProject v.terminals v.activeName
  activeTerminal := v.activeName.bind (EditorStrip.selected v.terminalActive)
  tree := treeFor v.trees v.activePath

def launchView : View := ⟨[],none,defaults,none,true,0,[],[],[],[],[]⟩

def launch : Bench where
  list := []
  activeName := none
  workspace := defaults
  loaded := none
  restoring := true
  hydrations := 0
  current := emptySession
  hydrated := []
  editors := .empty
  terminals := .empty
  trees := []
  held := []
  hydrating := []
  begun := []
  drawn := launchView
  pending := true
  keyed := (none,true,none,none)
  rooted := none

def shownEffects (s : Bench) : Bench :=
  { s with
    terminals := TerminalStrip.step s.terminals .effect
    editors := { s.editors with shown := s.editors.rendered } }

def updateTree (s : Bench) (root : Str) (change : TreeState → TreeState) : Bench :=
  if root ∈ s.held then { s with trees := withTree s.trees root (change (treeFor s.trees (some root))) } else s

def treeEffect (s : Bench) : Bench :=
  let root := s.drawn.activePath
  if root = s.rooted then s
  else
    match root with
    | none => { s with rooted := none }
    | some path => updateTree { s with held := path :: s.held, rooted := some path } path id

def selectionEffect (s : Bench) : Bench :=
  match s.drawn.loaded with
  | none => s
  | some state =>
    if s.drawn.restoring = false ∨ s.drawn.list = [] then s
    else
      match (restoredWorkspace state).activeProject with
      | none => { s with restoring := false }
      | some name =>
        if ∃ p ∈ s.drawn.list, p.name = name then { s with restoring := false, activeName := some name }
        else { s with restoring := false }

def hydrate (s : Bench) (name path : Str) : Bench :=
  let record := projectSession s.current name
  let t := updateTree s path (fun tree => restoreTree tree (restoredTree record (restoredWorkspace s.current).changedOnly))
  { t with
    editors := EditorStrip.begin_ t.editors name path (restoredEditors record)
    hydrating := t.hydrating ++ [⟨name,restoredTerminals record path⟩]
    begun := name :: t.begun }

def hydrationKey (s : Bench) : Option State × Bool × Option Str × Option Str :=
  (s.drawn.loaded,s.drawn.restoring,s.drawn.activeName,s.drawn.activePath)

def starts (s : Bench) : Option (Str × Str) :=
  if hydrationKey s = s.keyed then none
  else
    match hydrationKey s with
    | (some _,false,some name,some path) => if name ∈ s.hydrated then none else some (name,path)
    | _ => none

def hydrationEffect (s : Bench) : Bench :=
  match starts s with
  | none => { s with keyed := hydrationKey s }
  | some (name,path) => hydrate { s with keyed := hydrationKey s } name path

def recordingEffect (s : Bench) : Bench :=
  match s.drawn.loaded with
  | none => s
  | some _ => { s with current := nextSession s.current s.drawn.live s.hydrated (s.drawn.list.map Project.name) }

def beforeHydration (s : Bench) : Bench := selectionEffect (treeEffect (shownEffects { s with pending := false }))

def effects (s : Bench) : Bench := recordingEffect (hydrationEffect (beforeHydration s))

/-- What the user, the backend and React may do next. `relisted` is every write
that replaces the list and leaves the selection alone; `treeMoved` is what any of
the tree's own operations leaves on screen. -/
inductive Event
  | render
  | effects
  | loadAnswered (state : State)
  | listed (list : List Project)
  | relisted (list : List Project)
  | select (name : Str)
  | removeProject (name : Str)
  | setWorkspace (settings : WorkspaceSettings)
  | treeMoved (root : Str) (tree : TreeState)
  | treeListed (root : Str)
  | editors (e : EditorStrip.Event)
  | terminals (e : TerminalStrip.Event)
  | hydrated (i : Nat)
  deriving DecidableEq, Repr

def ownCall : EditorStrip.Event → Bool
  | .restore _ _ _ => true
  | .resolved _ => true
  | .render => true
  | .effect => true
  | _ => false

def ownTerminalCall : TerminalStrip.Event → Bool
  | .restore _ _ => true
  | .render => true
  | .effect => true
  | _ => false

def render (s : Bench) : Bench :=
  { s with
    drawn := s.view
    pending := true
    editors := { s.editors with rendered := s.editors.tabs }
    terminals := TerminalStrip.step s.terminals .render }

def removeProject (s : Bench) (name : Str) : Bench :=
  let removed := findProject s.drawn.list (some name)
  { s with
    terminals := TerminalStrip.closeProject s.terminals name
    editors := EditorStrip.closeProject s.editors name
    held := (removed.map (fun p => s.held.filter (· ≠ p.path))).getD s.held
    trees := (removed.map (fun p => withoutTree s.trees p.path)).getD s.trees
    activeName := selectionAfterRemove s.drawn.list name s.activeName }

def step (s : Bench) : Event → Option Bench
  | .render => if s.pending then none else some (render s)
  | .effects => if s.pending then some (effects s) else none
  | .loadAnswered state =>
    if s.loaded = none then
      some { s with current := state, workspace := (restoredWorkspace state).settings, loaded := some state }
    else none
  | .listed list => some { s with list, activeName := selectionAfterReload list s.activeName }
  | .relisted list => some { s with list }
  | .select name => some { s with activeName := some name }
  | .removeProject name => some (removeProject s name)
  | .setWorkspace settings => some { s with workspace := settings }
  | .treeMoved root tree => some (updateTree s root (fun _ => tree))
  | .treeListed root => some (updateTree s root id)
  | .editors e => if ownCall e then none else (EditorStrip.step s.editors e).map (fun editors => { s with editors })
  | .terminals e => if ownTerminalCall e then none else some { s with terminals := TerminalStrip.step s.terminals e }
  | .hydrated i =>
    match s.hydrating[i]? with
    | none => none
    | some h =>
      (EditorStrip.step s.editors (.resolved i)).map (fun editors =>
        { s with
          editors
          hydrating := s.hydrating.eraseIdx i
          terminals := TerminalStrip.restore s.terminals h.project h.terminals
          hydrated := h.project :: s.hydrated
          hydrations := s.hydrations + 1 })

theorem updateTreeOnly (s : Bench) (root : Str) (change : TreeState → TreeState) :
    ∃ trees, updateTree s root change = { s with trees } := by
  unfold updateTree
  split
  · exact ⟨_,rfl⟩
  · exact ⟨s.trees,rfl⟩

theorem treeEffectOnly (s : Bench) : ∃ held rooted trees, treeEffect s = { s with held, rooted, trees } := by
  unfold treeEffect
  simp only
  split
  · exact ⟨s.held,s.rooted,s.trees,rfl⟩
  · split
    · exact ⟨s.held,none,s.trees,rfl⟩
    · next path _ =>
      obtain ⟨trees,same⟩ := updateTreeOnly { s with held := path :: s.held, rooted := some path } path id
      exact ⟨_,_,trees,same⟩

theorem selectionEffectOnly (s : Bench) : ∃ restoring activeName, selectionEffect s = { s with restoring, activeName } ∧
    (s.drawn.loaded = none ∨ s.drawn.restoring = false → restoring = s.restoring ∧ activeName = s.activeName) := by
  unfold selectionEffect
  split
  · exact ⟨s.restoring,s.activeName,rfl,fun _ => ⟨rfl,rfl⟩⟩
  · next state loaded =>
    split
    · exact ⟨s.restoring,s.activeName,rfl,fun _ => ⟨rfl,rfl⟩⟩
    · next waiting =>
      have busy : ¬(s.drawn.loaded = none ∨ s.drawn.restoring = false) := by
        rintro (none_ | done)
        · rw [loaded] at none_; cases none_
        · exact waiting (Or.inl done)
      split
      · exact ⟨false,s.activeName,rfl,fun done => absurd done busy⟩
      · split
        · exact ⟨false,_,rfl,fun done => absurd done busy⟩
        · exact ⟨false,s.activeName,rfl,fun done => absurd done busy⟩

theorem beforeHydrationOnly (s : Bench) : ∃ held rooted trees restoring activeName,
    beforeHydration s =
      { s with
        pending := false
        terminals := TerminalStrip.step s.terminals .effect
        editors := { s.editors with shown := s.editors.rendered }
        held, rooted, trees, restoring, activeName } ∧
    (s.drawn.loaded = none ∨ s.drawn.restoring = false → restoring = s.restoring ∧ activeName = s.activeName) := by
  obtain ⟨held,rooted,trees,tree⟩ := treeEffectOnly (shownEffects { s with pending := false })
  obtain ⟨restoring,activeName,selection,done⟩ :=
    selectionEffectOnly (treeEffect (shownEffects { s with pending := false }))
  rw [tree] at done
  refine ⟨held,rooted,trees,restoring,activeName,?_,done⟩
  show selectionEffect (treeEffect (shownEffects { s with pending := false })) = _
  rw [selection,tree]
  rfl

theorem startsBefore (s : Bench) : starts (beforeHydration s) = starts s := by
  obtain ⟨_,_,_,_,_,same,_⟩ := beforeHydrationOnly s
  rw [same]
  rfl

theorem startsReady {s : Bench} {began : Str × Str} (begins : starts s = some began) :
    s.drawn.loaded ≠ none ∧ s.drawn.restoring = false ∧ began.1 ∉ s.hydrated ∧ s.drawn.activeName = some began.1 ∧
      s.drawn.activePath = some began.2 := by
  unfold starts at begins
  split at begins
  · cases begins
  · split at begins
    · next key =>
      split at begins
      · cases begins
      · next fresh =>
        cases begins
        simp only [hydrationKey,Prod.mk.injEq] at key
        obtain ⟨loaded,restoring,name,path⟩ := key
        exact ⟨by simp [loaded],restoring,fresh,name,path⟩
    · cases begins

theorem hydrateOnly (s : Bench) (name path : Str) : ∃ trees,
    hydrate s name path =
      { s with
        trees
        editors := EditorStrip.begin_ s.editors name path (restoredEditors (projectSession s.current name))
        hydrating := s.hydrating ++ [⟨name,restoredTerminals (projectSession s.current name) path⟩]
        begun := name :: s.begun } := by
  obtain ⟨trees,same⟩ := updateTreeOnly s path (fun tree =>
    restoreTree tree (restoredTree (projectSession s.current name) (restoredWorkspace s.current).changedOnly))
  refine ⟨trees,?_⟩
  unfold hydrate
  simp only [same]

structure Ran (s t : Bench) : Prop where
  list : t.list = s.list
  loaded : t.loaded = s.loaded
  hydrations : t.hydrations = s.hydrations
  hydrated : t.hydrated = s.hydrated
  drawn : t.drawn = s.drawn
  pending : t.pending = false
  editors : t.editors.tabs = s.editors.tabs
  terminals : t.terminals.tabs = s.terminals.tabs
  selected : s.drawn.loaded = none ∨ s.drawn.restoring = false → t.restoring = s.restoring ∧ t.activeName = s.activeName
  waiting : s.drawn.loaded = none → t.current = s.current
  recorded : s.drawn.loaded ≠ none →
    t.current = nextSession s.current s.drawn.live s.hydrated (s.drawn.list.map Project.name)
  hydrating : t.hydrating ≠ [] → s.hydrating ≠ [] ∨ s.drawn.loaded ≠ none ∧ s.drawn.restoring = false

theorem recordingEffectOnly (s : Bench) : ∃ current, recordingEffect s = { s with current } := by
  unfold recordingEffect
  split
  · exact ⟨s.current,rfl⟩
  · exact ⟨_,rfl⟩

theorem recordingWaits {s : Bench} (loaded : s.drawn.loaded = none) : recordingEffect s = s := by
  unfold recordingEffect
  rw [loaded]

theorem recordingRecords {s : Bench} (loaded : s.drawn.loaded ≠ none) : recordingEffect s =
    { s with current := nextSession s.current s.drawn.live s.hydrated (s.drawn.list.map Project.name) } := by
  unfold recordingEffect
  cases there : s.drawn.loaded with
  | none => exact absurd there loaded
  | some state => rfl

theorem recordingRan {s t : Bench} (list : t.list = s.list) (loaded : t.loaded = s.loaded)
    (hydrations : t.hydrations = s.hydrations) (hydrated : t.hydrated = s.hydrated) (drawn : t.drawn = s.drawn)
    (pending : t.pending = false) (editors : t.editors.tabs = s.editors.tabs) (terminals : t.terminals.tabs = s.terminals.tabs)
    (selected : s.drawn.loaded = none ∨ s.drawn.restoring = false → t.restoring = s.restoring ∧ t.activeName = s.activeName)
    (current : t.current = s.current)
    (hydrating : t.hydrating ≠ [] → s.hydrating ≠ [] ∨ s.drawn.loaded ≠ none ∧ s.drawn.restoring = false) :
    Ran s (recordingEffect t) := by
  by_cases waits : s.drawn.loaded = none
  · rw [recordingWaits (drawn ▸ waits)]
    exact ⟨list,loaded,hydrations,hydrated,drawn,pending,editors,terminals,selected,fun _ => current,
      fun there => absurd waits there,hydrating⟩
  · rw [recordingRecords (drawn ▸ waits)]
    refine ⟨list,loaded,hydrations,hydrated,drawn,pending,editors,terminals,selected,fun none_ => absurd none_ waits,?_,
      hydrating⟩
    intro _
    rw [drawn,current,hydrated]

theorem effectsRan (s : Bench) : Ran s (effects s) := by
  obtain ⟨held,rooted,trees,restoring,activeName,before,selected⟩ := beforeHydrationOnly s
  unfold effects hydrationEffect
  rw [startsBefore]
  cases begins : starts s with
  | none =>
    simp only [before]
    exact recordingRan rfl rfl rfl rfl rfl rfl rfl rfl selected rfl Or.inl
  | some began =>
    obtain ⟨name,path⟩ := began
    obtain ⟨loaded,ready,_⟩ := startsReady begins
    obtain ⟨kept,hydrates⟩ := hydrateOnly { beforeHydration s with keyed := hydrationKey (beforeHydration s) } name path
    simp only [hydrates]
    simp only [before]
    exact recordingRan rfl rfl rfl rfl rfl rfl (EditorStrip.resumeStays _ _).1 rfl selected rfl (fun _ => Or.inr ⟨loaded,ready⟩)

end M6t.Workbench
