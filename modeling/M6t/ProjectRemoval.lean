import M6t.Workbench
import M6t.TerminalSession
import M6t.GitReads

/-! Taking a project off the workbench: every hook drops what it holds for the project, then
the registry is asked. -/
namespace M6t.ProjectRemoval
open M6t.Text M6t.Workbench
open M6t.Editor (EditorTab)

/-- `sessions` are the shells the panes attached, by the key of their tab. -/
structure Window (τ : Type*) where
  bench : Bench
  sessions : List (Nat × TerminalSession.State)
  git : GitReads.State Str τ Str
  error : Option Str

/-- What the registry answers: a refusal, or the removal with the list read again after it. -/
inductive Answer where
  | refused (failure : Str)
  | removed (listed : Except Str (List Project))
  deriving DecidableEq

variable {τ : Type*}

def Window.closeSessions (w : Window τ) (project : Str) : List (Nat × TerminalSession.State) :=
  let closing := (TerminalStrip.tabsForProject w.bench.terminals.shown (some project)).map TerminalStrip.TerminalTab.key
  w.sessions.map (fun entry => if entry.1 ∈ closing then (entry.1,entry.2.close) else entry)

def Window.handleRemove (w : Window τ) (name : Str) : Window τ :=
  { w with
    sessions := w.closeSessions name
    bench := removeProject w.bench name
    git := match findProject w.bench.drawn.list (some name) with
      | none => w.git
      | some removed => w.git.closeProject removed.path }

def Window.answered (w : Window τ) : Answer → Window τ
  | .refused failure => { w with error := some failure }
  | .removed (.error failure) => { w with error := some failure }
  | .removed (.ok listed) =>
      { w with
        bench := { w.bench with list := listed, activeName := selectionAfterReload listed w.bench.activeName }
        error := none }

def terminalsOf (w : Window τ) (name : Str) : List TerminalStrip.TerminalTab :=
  TerminalStrip.tabsForProject w.bench.terminals.tabs (some name)

def editorsOf (w : Window τ) (name : Str) : List EditorTab := EditorStrip.tabsForProject w.bench.editors.tabs (some name)

/-- A project's shells, tabs, tree and status, and the selection, are in `t` as they were in `w`. -/
structure Intact (w t : Window τ) (name : Str) : Prop where
  terminals : terminalsOf t name = terminalsOf w name
  sessions : ∀ tab ∈ terminalsOf w name, t.sessions.lookup tab.key = w.sessions.lookup tab.key
  editors : editorsOf t name = editorsOf w name
  tree : ∀ project, findProject w.bench.drawn.list (some name) = some project →
    t.bench.trees.lookup project.path = w.bench.trees.lookup project.path
  status : ∀ project, findProject w.bench.drawn.list (some name) = some project →
    t.git.statuses.lookup project.path = w.git.statuses.lookup project.path
  active : t.bench.activeName = w.bench.activeName

structure Bare (w : Window τ) (name : Str) : Prop where
  terminals : terminalsOf w name = []
  editors : editorsOf w name = []
  kept : ∀ project, findProject w.bench.drawn.list (some name) = some project →
    w.bench.trees.lookup project.path = none ∧ w.git.statuses.lookup project.path = none ∧ w.bench.activeName ≠ some name

theorem terminalsClosed (s : TerminalStrip.Strip) (name : Str) :
    TerminalStrip.tabsForProject (TerminalStrip.closeProject s name).tabs (some name) = [] := by
  simp [TerminalStrip.tabsForProject,TerminalStrip.closeProject]

theorem editorsClosed (s : EditorStrip.Strip) (name : Str) :
    EditorStrip.tabsForProject (EditorStrip.closeProject s name).tabs (some name) = [] := by
  simp [EditorStrip.tabsForProject,EditorStrip.closeProject]

theorem selectionStays {list : List Project} {name : Str} {active : Option Str} :
    selectionAfterRemove list name active = active ↔ active = some name → findProject list (some name) = none := by
  unfold selectionAfterRemove findProject
  by_cases shown : active = some name
  · subst shown
    simp only [ne_eq,not_true,if_false,Option.bind_some,true_imp_iff]
    cases at_ : list.findIdx? (fun project => decide (project.name = name)) with
    | none =>
      rw [List.findIdx?_eq_none_iff] at at_
      simpa using at_
    | some index =>
      have there : ∃ p ∈ list, p.name = name := by
        obtain ⟨bound,named,-⟩ := List.findIdx?_eq_some_iff_getElem.mp at_
        exact ⟨_,List.getElem_mem bound,by simpa using named⟩
      constructor
      · intro same
        obtain ⟨p,last,named⟩ := Option.map_eq_some_iff.mp same
        have other := (List.mem_filter.mp (List.mem_of_getElem? last)).2
        simp [named] at other
      · intro absent
        obtain ⟨p,member,named⟩ := there
        simpa [named] using List.find?_eq_none.mp absent p member
  · simp [shown]

variable (w : Window τ) (name failure : Str)

theorem removedTree {project : Project} (found : findProject w.bench.drawn.list (some name) = some project) :
    (w.handleRemove name).bench.trees.lookup project.path = none := by
  simp only [Window.handleRemove,removeProject,found,Option.map_some,Option.getD_some]
  rw [ProjectTrees.lookupDropped,if_pos rfl]

theorem removedStatus {project : Project} (found : findProject w.bench.drawn.list (some name) = some project) :
    (w.handleRemove name).git.statuses.lookup project.path = none := by
  simp only [Window.handleRemove,found,GitReads.State.closeProject]
  rw [Records.lookupWithout,if_pos rfl]

theorem refusalKeepsBare : Intact w ((w.handleRemove name).answered (.refused failure)) name ↔ Bare w name := by
  constructor
  · intro intact
    refine ⟨intact.terminals ▸ terminalsClosed _ name,intact.editors ▸ editorsClosed _ name,fun project found => ?_⟩
    refine ⟨(intact.tree project found).symm.trans (removedTree w name found),
      (intact.status project found).symm.trans (removedStatus w name found),fun shown => ?_⟩
    have absent := selectionStays.mp intact.active shown
    rw [found] at absent
    contradiction
  · intro bare
    refine ⟨(terminalsClosed _ name).trans bare.terminals.symm,fun tab member => ?_,(editorsClosed _ name).trans bare.editors.symm,
      fun project found => ?_,fun project found => ?_,selectionStays.mpr (fun shown => ?_)⟩
    · rw [bare.terminals] at member
      contradiction
    · exact (removedTree w name found).trans (bare.kept project found).1.symm
    · exact (removedStatus w name found).trans (bare.kept project found).2.1.symm
    · cases found : findProject w.bench.drawn.list (some name) with
      | none => rfl
      | some project => exact absurd shown (bare.kept project found).2.2

def unsaved : EditorTab :=
  { Editor.newTab 1 "infra".toList "/src/infra".toList "values.yaml".toList .yaml with
    status := .ready
    content := "replicas: 3".toList
    baseline := "replicas: 1".toList }

def editing : Window Unit where
  bench :=
    { launch with
      list := [⟨"infra".toList,"/src/infra".toList⟩]
      activeName := some "infra".toList
      editors := { EditorStrip.Strip.empty with tabs := [unsaved], keys := 1 }
      drawn := { launchView with list := [⟨"infra".toList,"/src/infra".toList⟩], activeName := some "infra".toList } }
  sessions := []
  git := GitReads.start
  error := none

theorem refusalLosesBuffer : Editor.isDirty unsaved = true ∧ editorsOf editing "infra".toList = [unsaved] ∧
    ¬Intact editing ((editing.handleRemove "infra".toList).answered (.refused "permission denied".toList)) "infra".toList := by
  refine ⟨by decide,by decide,fun intact => ?_⟩
  have lost := intact.editors
  revert lost
  decide

end M6t.ProjectRemoval
