import M6t.TerminalStrip
import M6t.ProjectTrees

/-! The workspace session: what is saved, what it restores to, and what the next
save holds. A field that a saved file does not have reads as its zero, which is
what `??` and `recorded` make of it, so the empty session is all zeroes. A tree
is its shape alone: its listings are no part of a session. -/
namespace M6t.Session
open M6t.Text M6t.Editor
open M6t.EditorStrip (RestoredEditor RestoredEditors)
open M6t.TerminalStrip (RestoredTerminal RestoredTerminals TerminalTab)

structure SavedEditor where
  path : Str
  mode : Str
  deriving DecidableEq, Repr

structure SavedTerminal where
  title : Str
  cwd : Str
  deriving DecidableEq, Repr

structure ProjectSession where
  name : Str
  editors : List SavedEditor
  activeEditor : Str
  terminals : List SavedTerminal
  activeTerminal : Int
  treeExpanded : List Str
  treeSelected : Str
  treeShowHidden : Bool
  deriving DecidableEq, Repr

structure State where
  version : Int
  activeProject : Str
  fontSize : Int
  sidebar : Int
  terminalHeight : Int
  clusterWidth : Int
  changedOnly : Bool
  projects : List ProjectSession
  deriving DecidableEq, Repr

def emptySession : State := ⟨0,[],0,0,0,0,false,[]⟩

def projectSession (state : State) (name : Str) : Option ProjectSession :=
  state.projects.find? (fun record => record.name = name)

structure Bounds where
  min : Int
  minOther : Int
  total : Int
  deriving DecidableEq, Repr

def clampSplit (size : Int) (bounds : Bounds) : Int :=
  if bounds.total ≤ 0 then max bounds.min size
  else
    let most := bounds.total - bounds.minOther
    if most ≤ bounds.min then bounds.min else min most (max bounds.min size)

def SIDEBAR_DEFAULT : Int := 260
def SIDEBAR_MIN : Int := 180
def EDITOR_MIN_WIDTH : Int := 320
def TERMINAL_DEFAULT : Int := 260
def TERMINAL_MIN : Int := 120
def EDITOR_MIN_HEIGHT : Int := 160
def CLUSTER_DEFAULT : Int := 280
def CLUSTER_MIN : Int := 220
def MIN_FONT_SIZE : Int := 10
def MAX_FONT_SIZE : Int := 22
def DEFAULT_FONT_SIZE : Int := 13

def clampFontSize (px : Int) : Int := min MAX_FONT_SIZE (max MIN_FONT_SIZE px)

structure WorkspaceSettings where
  fontSize : Int
  sidebar : Int
  terminalHeight : Int
  cluster : Int
  deriving DecidableEq, Repr

def defaults : WorkspaceSettings := ⟨DEFAULT_FONT_SIZE,SIDEBAR_DEFAULT,TERMINAL_DEFAULT,CLUSTER_DEFAULT⟩

structure RestoredWorkspace where
  activeProject : Option Str
  settings : WorkspaceSettings
  changedOnly : Bool
  deriving DecidableEq, Repr

def recorded (value fallback : Int) : Int := if value = 0 then fallback else value

def restoredWorkspace (state : State) : RestoredWorkspace where
  activeProject := if state.activeProject = [] then none else some state.activeProject
  settings :=
    { fontSize := clampFontSize (recorded state.fontSize DEFAULT_FONT_SIZE)
      sidebar := clampSplit (recorded state.sidebar SIDEBAR_DEFAULT) ⟨SIDEBAR_MIN,EDITOR_MIN_WIDTH,0⟩
      terminalHeight := clampSplit (recorded state.terminalHeight TERMINAL_DEFAULT) ⟨TERMINAL_MIN,EDITOR_MIN_HEIGHT,0⟩
      cluster := clampSplit (recorded state.clusterWidth CLUSTER_DEFAULT) ⟨CLUSTER_MIN,EDITOR_MIN_WIDTH,0⟩ }
  changedOnly := state.changedOnly

def modeText : EditorMode → Str
  | .preview => "preview".toList
  | .edit => "edit".toList

def restoredEditors (record : Option ProjectSession) : RestoredEditors where
  files := ((record.map ProjectSession.editors).getD []).map (fun editor =>
    ⟨editor.path,if editor.mode = modeText .preview then .preview else .edit⟩)
  active := (record.map ProjectSession.activeEditor).filter (fun path => path ≠ [])

def restoredTerminals (record : Option ProjectSession) (root : Str) : RestoredTerminals :=
  let tabs := ((record.map ProjectSession.terminals).getD []).map (fun terminal =>
    (⟨terminal.title,if terminal.cwd = [] then root else terminal.cwd⟩ : RestoredTerminal))
  let active := (record.map ProjectSession.activeTerminal).getD 0
  ⟨tabs,if 0 ≤ active ∧ active < tabs.length then active.toNat else 0⟩

structure RestoredTree where
  expanded : List Str
  selected : Option Str
  showHidden : Bool
  changedOnly : Bool
  deriving DecidableEq, Repr

def restoredTree (record : Option ProjectSession) (changedOnly : Bool) : RestoredTree where
  expanded := (record.map ProjectSession.treeExpanded).getD []
  selected := (record.map ProjectSession.treeSelected).filter (fun path => path ≠ [])
  showHidden := (record.map ProjectSession.treeShowHidden).getD false
  changedOnly

/-- `expanded` is a set in the order its members were put in. -/
structure TreeState where
  expanded : List Str
  selected : Option Str
  showHidden : Bool
  changedOnly : Bool
  deriving DecidableEq, Repr

def initialTree : TreeState := ⟨[ROOT],none,false,false⟩

/-- A `Set` built from a list keeps the first of each. -/
def setOf (paths : List Str) : List Str := paths.foldl (fun kept path => if path ∈ kept then kept else kept ++ [path]) []

def restoreTree (_state : TreeState) (saved : RestoredTree) : TreeState :=
  ⟨setOf (ROOT :: saved.expanded),saved.selected,saved.showHidden,saved.changedOnly⟩

instance : ProjectTrees.Filtered TreeState where
  initialTree := initialTree
  changedOnly := TreeState.changedOnly
  withFilter on tree := { tree with changedOnly := on }
  filtered _ _ := rfl
  unmoved _ := rfl

structure LiveSession where
  activeProject : Option Str
  workspace : WorkspaceSettings
  editors : List EditorTab
  activeEditor : Option Nat
  terminals : List TerminalTab
  activeTerminal : Option Nat
  tree : TreeState
  deriving DecidableEq, Repr

def savedEditors (tabs : List EditorTab) : List SavedEditor := tabs.map (fun tab => ⟨tab.path,modeText tab.mode⟩)
def savedTerminals (tabs : List TerminalTab) : List SavedTerminal := tabs.map (fun tab => ⟨tab.title,tab.cwd⟩)

def liveRecord (name : Str) (live : LiveSession) : ProjectSession where
  name
  editors := savedEditors live.editors
  activeEditor := ((live.editors.find? (fun tab => some tab.key = live.activeEditor)).map EditorTab.path).getD []
  terminals := savedTerminals live.terminals
  activeTerminal := ((live.terminals.findIdx? (fun tab => some tab.key = live.activeTerminal)).getD 0 : Nat)
  treeExpanded := live.tree.expanded
  treeSelected := live.tree.selected.getD []
  treeShowHidden := live.tree.showHidden

def recordFor (name : Str) (previous : State) (live : LiveSession) (hydrated : List Str) : Option ProjectSession :=
  if some name = live.activeProject ∧ name ∈ hydrated then some (liveRecord name live)
  else projectSession previous name

def nextSession (previous : State) (live : LiveSession) (hydrated registered : List Str) : State :=
  let names := if registered ≠ [] then registered else previous.projects.map ProjectSession.name
  { version := previous.version
    activeProject := live.activeProject.getD []
    fontSize := live.workspace.fontSize
    sidebar := live.workspace.sidebar
    terminalHeight := live.workspace.terminalHeight
    clusterWidth := live.workspace.cluster
    changedOnly := live.tree.changedOnly
    projects := names.filterMap (fun name => recordFor name previous live hydrated) }

end M6t.Session
