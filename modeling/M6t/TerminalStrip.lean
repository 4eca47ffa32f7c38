import M6t.EditorStrip

/-! The terminal strip across all projects. What a tab's session is doing reaches
the strip as a status; the shell itself is not part of it. -/
namespace M6t.TerminalStrip
open M6t.Text
open M6t.EditorStrip (Selections)

inductive TabStatus | starting | running | exited | failed
  deriving DecidableEq, Repr

inductive SessionStatus
  | running
  | exited (code : Int)
  | failed (message : Str)
  deriving DecidableEq, Repr

structure TerminalTab where
  key : Nat
  title : Str
  project : Str
  cwd : Str
  status : TabStatus
  exitCode : Option Int
  error : Option Str
  autorun : Option Str
  generation : Nat
  deriving DecidableEq, Repr

def newTab (key : Nat) (project title cwd : Str) (autorun : Option Str) : TerminalTab :=
  ⟨key,title,project,cwd,.starting,none,none,autorun,0⟩

def tabsForProject (tabs : List TerminalTab) : Option Str → List TerminalTab
  | none => []
  | some project => tabs.filter (fun tab => tab.project = project)

def numbered (base : Str) (n : Nat) : Str := base ++ ' ' :: (toString n).toList

/-- One more number than there are titles is always enough. -/
def firstFree (taken : List Str) (base : Str) : Nat → Nat → Str
  | 0,n => numbered base n
  | fuel + 1,n => if numbered base n ∈ taken then firstFree taken base fuel (n + 1) else numbered base n

def nextTitle (tabs : List TerminalTab) (base : Str) : Str :=
  firstFree (tabs.map TerminalTab.title) base tabs.length 1

def patchTab (tabs : List TerminalTab) (key : Nat) (patch : TerminalTab → TerminalTab) : List TerminalTab :=
  tabs.map (fun tab => if tab.key = key then patch tab else tab)

/-- What JavaScript's `trim` takes off. -/
def isBlank (c : Char) : Bool :=
  let n := c.toNat
  (9 ≤ n && n ≤ 13) || n == 0x20 || n == 0xA0 || n == 0x1680 || (0x2000 ≤ n && n ≤ 0x200a) || n == 0x2028 ||
    n == 0x2029 || n == 0x202f || n == 0x205f || n == 0x3000 || n == 0xfeff

def renameTab (tabs : List TerminalTab) (key : Nat) (title : Str) : List TerminalTab :=
  let trimmed := (title.dropWhile isBlank).rdropWhile isBlank
  if trimmed = [] then tabs else patchTab tabs key (fun tab => { tab with title := trimmed })

def restartTab (tabs : List TerminalTab) (key : Nat) : List TerminalTab :=
  patchTab tabs key (fun tab =>
    { tab with status := .starting, exitCode := none, error := none, generation := tab.generation + 1 })

def removeTab (tabs : List TerminalTab) (key : Nat) : List TerminalTab := tabs.filter (fun tab => tab.key ≠ key)

def selectionAfterClose (tabs : List TerminalTab) (key : Nat) (active : Option Nat) : Option Nat :=
  if active ≠ some key then active
  else
    match tabs.findIdx? (fun tab => tab.key = key) with
    | none => active
    | some index =>
      let remaining := removeTab tabs key
      (remaining[min index (remaining.length - 1)]?).map TerminalTab.key

def endingClosesTheTab : SessionStatus → Bool
  | .exited code => code = 0
  | _ => false

def statusPatch (status : SessionStatus) (tab : TerminalTab) : TerminalTab :=
  match status with
  | .running => { tab with status := .running, error := none }
  | .exited code => { tab with status := .exited, exitCode := some code }
  | .failed message => { tab with status := .failed, error := some message }

structure RestoredTerminal where
  title : Str
  cwd : Str
  deriving DecidableEq, Repr

structure RestoredTerminals where
  tabs : List RestoredTerminal
  active : Nat
  deriving DecidableEq, Repr

structure Strip where
  tabs : List TerminalTab
  rendered : List TerminalTab
  shown : List TerminalTab
  keys : Nat
  activeByProject : Selections
  deriving DecidableEq, Repr

def Strip.empty : Strip := ⟨[],[],[],0,[]⟩

def create (s : Strip) (project cwd : Str) (autorun : Option Str) : Strip :=
  let key := s.keys + 1
  let title := nextTitle (tabsForProject s.tabs (some project)) (autorun.getD "shell".toList)
  { s with
    keys := key
    tabs := s.tabs ++ [newTab key project title cwd autorun]
    activeByProject := EditorStrip.select s.activeByProject project (some key) }

def restoredTabs (keys : Nat) (project : Str) : List RestoredTerminal → List TerminalTab
  | [] => []
  | tab :: tabs => newTab (keys + 1) project tab.title tab.cwd none :: restoredTabs (keys + 1) project tabs

def restore (s : Strip) (project : Str) (saved : RestoredTerminals) : Strip :=
  let tabs := restoredTabs s.keys project saved.tabs
  match tabs[saved.active]?.or tabs.head? with
  | none => s
  | some focus =>
    { s with
      keys := s.keys + tabs.length
      tabs := s.tabs ++ tabs
      activeByProject := EditorStrip.select s.activeByProject project (some focus.key) }

def dropTab (s : Strip) (key : Nat) : Strip :=
  let active :=
    match s.shown.find? (fun tab => tab.key = key) with
    | none => s.activeByProject
    | some closing =>
      let siblings := tabsForProject s.shown (some closing.project)
      EditorStrip.select s.activeByProject closing.project
        (selectionAfterClose siblings key (EditorStrip.selected s.activeByProject closing.project))
  { s with tabs := removeTab s.tabs key, activeByProject := active }

def onStatus (s : Strip) (key : Nat) (status : SessionStatus) : Strip :=
  if endingClosesTheTab status then dropTab s key else { s with tabs := patchTab s.tabs key (statusPatch status) }

def closeProject (s : Strip) (project : Str) : Strip :=
  { s with
    tabs := s.tabs.filter (fun tab => tab.project ≠ project)
    activeByProject := s.activeByProject.filter (fun entry => entry.1 ≠ project) }

theorem restoredProject {keys : Nat} {project : Str} {saved : List RestoredTerminal} :
    ∀ tab ∈ restoredTabs keys project saved, tab.project = project := by
  induction saved generalizing keys with
  | nil => simp [restoredTabs]
  | cons first rest ih =>
    intro tab member
    rcases List.mem_cons.mp member with rfl | later
    · rfl
    · exact ih tab later

theorem statusPatches {s : Strip} {key : Nat} {status : SessionStatus} (goesOn : endingClosesTheTab status = false) :
    onStatus s key status = { s with tabs := patchTab s.tabs key (statusPatch status) } := by
  unfold onStatus
  rw [if_neg (by simp [goesOn])]

inductive Event
  | create (project cwd : Str) (autorun : Option Str)
  | close (key : Nat)
  | closeProject (project : Str)
  | rename (key : Nat) (title : Str)
  | restart (key : Nat)
  | onStatus (key : Nat) (status : SessionStatus)
  | select (project : Str) (key : Nat)
  | restore (project : Str) (saved : RestoredTerminals)
  | render
  | effect
  deriving DecidableEq, Repr

def step (s : Strip) : Event → Strip
  | .create project cwd autorun => create s project cwd autorun
  | .close key => dropTab s key
  | .closeProject project => closeProject s project
  | .rename key title => { s with tabs := renameTab s.tabs key title }
  | .restart key => { s with tabs := restartTab s.tabs key }
  | .onStatus key status => onStatus s key status
  | .select project key => { s with activeByProject := EditorStrip.select s.activeByProject project (some key) }
  | .restore project saved => restore s project saved
  | .render => { s with rendered := s.tabs }
  | .effect => { s with shown := s.rendered }

end M6t.TerminalStrip
