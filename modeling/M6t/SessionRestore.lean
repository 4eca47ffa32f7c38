import M6t.SessionLaunch

/-! What such a launch comes to: the workbench shows and records the session it
was closed with. -/
namespace M6t.SessionRestore
open M6t.Text M6t.ProjectTrees M6t.Session M6t.Workbench M6t.SessionRecord M6t.SessionLaunch M6t.Runs
open M6t.Editor (FileContent ROOT)

def blankRecord (name : Str) : ProjectSession := ⟨name,[],[],[],0,[],[],false⟩
def recordOf (w : World) (project : Project) : ProjectSession :=
  (projectSession w.saved project.name).getD (blankRecord project.name)

def reopens (w : World) (project : Project) (e : SavedEditor) : Bool := (w.read project.path e.path).isSome

/-- A record as it was saved, less the editors that do not read. A mode the
editor does not know is `edit`, a directory that is gone is the project's, and
the root is open. -/
def carriedRecord (w : World) (project : Project) : ProjectSession :=
  let record := recordOf w project
  let editors := record.editors.filter (reopens w project)
  { record with
    name := project.name
    editors := editors.map (fun e => { e with mode := if e.mode = modeText .preview then e.mode else modeText .edit })
    activeEditor :=
      if ∃ e ∈ editors, e.path = record.activeEditor then record.activeEditor
      else (editors.head?.map SavedEditor.path).getD []
    terminals := record.terminals.map (fun t => { t with cwd := if t.cwd = [] then project.path else t.cwd })
    treeExpanded := ROOT :: record.treeExpanded.filter (· ≠ ROOT) }

def carried (w : World) (project : Project) : State :=
  let sizes := (restoredWorkspace w.saved).settings
  { w.saved with
    fontSize := sizes.fontSize
    sidebar := sizes.sidebar
    terminalHeight := sizes.terminalHeight
    clusterWidth := sizes.cluster
    projects := (names w.projects).filterMap (fun name =>
      if name = project.name then some (carriedRecord w project) else projectSession w.saved name) }

structure Resumed (w : World) (project : Project) (s : Bench) : Prop where
  sizes : s.workspace = (restoredWorkspace w.saved).settings
  selected : s.activeName = some project.name
  filter : s.view.live.tree.changedOnly = w.saved.changedOnly
  panes : liveRecord project.name s.view.live = carriedRecord w project
  recorded : s.current = carried w project

/-- A session as the workbench writes it, with all its files still there. -/
structure OwnForm (w : World) (project : Project) : Prop where
  sizes : (restoredWorkspace w.saved).settings = ⟨w.saved.fontSize,w.saved.sidebar,w.saved.terminalHeight,w.saved.clusterWidth⟩
  registered : w.saved.projects.map ProjectSession.name = names w.projects
  modes : ∀ e ∈ (recordOf w project).editors, e.mode = modeText .preview ∨ e.mode = modeText .edit
  reads : ∀ e ∈ (recordOf w project).editors, reopens w project e = true
  active : (recordOf w project).editors = [] ∨ ∃ e ∈ (recordOf w project).editors, e.path = (recordOf w project).activeEditor
  directories : ∀ t ∈ (recordOf w project).terminals, t.cwd ≠ []
  root : (recordOf w project).treeExpanded.head? = some ROOT

theorem carriedRecordSame {w : World} {project : Project} (own : OwnForm w project)
    (tidy : SessionStore.Tidy (recordOf w project)) (named : (recordOf w project).name = project.name) :
    carriedRecord w project = recordOf w project := by
  have editors : (recordOf w project).editors.filter (reopens w project) = (recordOf w project).editors :=
    List.filter_eq_self.mpr own.reads
  have modes : (recordOf w project).editors.map
      (fun e => { e with mode := if e.mode = modeText .preview then e.mode else modeText .edit }) =
        (recordOf w project).editors := by
    refine List.map_congr_left (g := id) (fun e member => ?_) |>.trans (List.map_id _)
    have same : (if e.mode = modeText .preview then e.mode else modeText .edit) = e.mode := by
      rcases own.modes e member with preview | edit
      · exact if_pos preview
      · exact ite_eq_left_iff.mpr (fun _ => edit.symm)
    show SavedEditor.mk e.path (if e.mode = modeText .preview then e.mode else modeText .edit) = e
    rw [same]
  have directories : (recordOf w project).terminals.map
      (fun t => { t with cwd := if t.cwd = [] then project.path else t.cwd }) = (recordOf w project).terminals := by
    refine List.map_congr_left (g := id) (fun t member => ?_) |>.trans (List.map_id _)
    simp [own.directories t member]
  have expanded : ROOT :: (recordOf w project).treeExpanded.filter (· ≠ ROOT) = (recordOf w project).treeExpanded := by
    obtain ⟨rest,whole⟩ := List.head?_eq_some_iff.mp own.root
    have nodup := tidy.expanded
    rw [whole] at nodup ⊢
    obtain ⟨absent,_⟩ := List.nodup_cons.mp nodup
    rw [List.filter_cons_of_neg (by simp)]
    refine congrArg (ROOT :: ·) (List.filter_eq_self.mpr (fun path member => ?_))
    simpa using fun same : path = ROOT => absent (same ▸ member)
  have active : (if ∃ e ∈ (recordOf w project).editors, e.path = (recordOf w project).activeEditor then
      (recordOf w project).activeEditor else ((recordOf w project).editors.head?.map SavedEditor.path).getD []) =
        (recordOf w project).activeEditor := by
    rcases own.active with none_ | there
    · rcases tidy.active with blank | ⟨e,member,_⟩
      · rw [none_,blank]; rfl
      · rw [none_] at member; cases member
    · exact if_pos there
  unfold carriedRecord
  simp only [editors,modes,directories,expanded,active,← named]

theorem carriedSame {w : World} {project : Project} (own : OwnForm w project)
    (saved : projectSession w.saved project.name = some (recordOf w project)) : carried w project = w.saved := by
  have tidy := SessionStore.loadTidy saved
  have named : (recordOf w project).name = project.name := by simpa using List.find?_some saved
  have unique := SessionStore.loadNames w.existingDir w.file
  have found : ∀ record ∈ w.saved.projects, projectSession w.saved record.name = some record := fun record member =>
    SessionStore.recordFound unique member
  have projects : (names w.projects).filterMap (fun name =>
      if name = project.name then some (carriedRecord w project) else projectSession w.saved name) = w.saved.projects := by
    rw [← own.registered,List.filterMap_map]
    refine (List.filterMap_congr (g := some) (fun record member => ?_)).trans List.filterMap_some
    simp only [Function.comp]
    split
    · next same =>
      rw [carriedRecordSame own tidy named,← saved,← same]
      exact found record member
    · exact found record member
  unfold carried
  simp only [own.sizes,projects]

section
variable {w : World} {project : Project} {s : Bench}

theorem recordTidy (w : World) (project : Project) : SessionStore.Tidy (recordOf w project) := by
  unfold recordOf
  cases found : projectSession w.saved project.name with
  | none => exact ⟨List.nodup_nil,by simp [blankRecord],Or.inl rfl,Or.inl rfl,List.nodup_nil⟩
  | some record => exact SessionStore.loadTidy found

theorem restoresRecord (w : World) (project : Project) :
    restoredEditors (projectSession w.saved project.name) = restoredEditors (some (recordOf w project)) ∧
      seats w project = restoredTerminals (some (recordOf w project)) project.path ∧
      shape w project = restoreTree Session.initialTree (restoredTree (some (recordOf w project)) false) := by
  unfold seats shape recordOf
  cases projectSession w.saved project.name with
  | none => exact ⟨rfl,rfl,rfl⟩
  | some record => exact ⟨rfl,rfl,rfl⟩

theorem reopenedRecord (w : World) (project : Project) :
    (plan w project).reopened = ((recordOf w project).editors.filter (reopens w project)).map (fun e =>
      ⟨e.path,if e.mode = modeText .preview then .preview else .edit⟩) := by
  have files : (plan w project).files = (restoredEditors (some (recordOf w project))).files :=
    congrArg EditorStrip.RestoredEditors.files (restoresRecord w project).1
  unfold StripRestore.Plan.reopened
  rw [files]
  show List.filter _ (List.map _ _) = _
  rw [List.filter_map]
  rfl

theorem editorsCarried (ends : StripRestore.Ends (plan w project) s.editors []) :
    savedEditors s.editors.tabs = (carriedRecord w project).editors := by
  have shapes : savedEditors s.editors.tabs =
      (s.editors.tabs.map (fun tab => (tab.path,tab.mode))).map (fun face => ⟨face.1,modeText face.2⟩) := by
    unfold savedEditors
    rw [List.map_map]
    rfl
  have reopened : s.editors.tabs.map (fun tab => (tab.path,tab.mode)) =
      (plan w project).reopened.map (fun file => (file.path,file.mode)) := ends.opened.faces
  rw [shapes,reopened,reopenedRecord,List.map_map,List.map_map]
  refine List.map_congr_left (fun e _ => ?_)
  simp only [Function.comp]
  split
  · next same => rw [← same]
  · rfl

theorem pathSought {editors : List SavedEditor} {active : Str} (named : ∀ e ∈ editors, e.path ≠ []) :
    (editors.find? (fun e => some e.path = (some active).filter (fun path => path ≠ []))).map SavedEditor.path =
      if ∃ e ∈ editors, e.path = active then some active else none := by
  by_cases there : ∃ e ∈ editors, e.path = active
  · rw [if_pos there]
    obtain ⟨e,member,same⟩ := there
    have wanted : (some active).filter (fun path => path ≠ []) = some active := by
      simpa [Option.filter] using fun none_ : active = [] => named e member (same.trans none_)
    rw [wanted]
    cases found : editors.find? (fun e => decide (some e.path = some active)) with
    | none => exact absurd (congrArg some same) (by simpa using List.find?_eq_none.mp found e member)
    | some other =>
      have met := List.find?_some found
      exact of_decide_eq_true met
  · rw [if_neg there,Option.map_eq_none_iff,List.find?_eq_none]
    intro e member met
    have wanted := (of_decide_eq_true met).symm
    exact there ⟨e,member,(Option.filter_eq_some_iff.mp wanted).1 |> Option.some.inj |>.symm⟩

theorem activeCarried (ends : StripRestore.Ends (plan w project) s.editors []) :
    ((s.editors.tabs.find? (fun tab => some tab.key = EditorStrip.selected s.editors.activeByProject project.name)).map
      Editor.EditorTab.path).getD [] = (carriedRecord w project).activeEditor := by
  have active : (plan w project).active = (some (recordOf w project).activeEditor).filter (fun path => path ≠ []) :=
    congrArg EditorStrip.RestoredEditors.active (restoresRecord w project).1
  have path := StripRestore.endsPath ends
  rw [active,reopenedRecord,Option.map_or,List.find?_map,Option.map_map,List.head?_map,Option.map_map] at path
  have named : ∀ e ∈ (recordOf w project).editors.filter (reopens w project), e.path ≠ [] :=
    fun e member => (recordTidy w project).named e (List.mem_filter.mp member).1
  refine (congrArg (fun path => path.getD []) path).trans ?_
  have sought : _ = if _ then some (recordOf w project).activeEditor else none := pathSought named
  show (Option.or (Option.map SavedEditor.path (List.find? _ _)) (Option.map SavedEditor.path _)).getD [] = if _ then _ else _
  refine (congrArg (fun path => (Option.or path _).getD []) sought).trans ?_
  split
  · rfl
  · rfl

theorem terminalsCarried {keys : Nat} (seated : StripRestore.Seated project.name (seats w project) s.terminals keys) :
    savedTerminals s.terminals.tabs = (carriedRecord w project).terminals := by
  have shapes : savedTerminals s.terminals.tabs =
      (s.terminals.tabs.map (fun tab => (⟨tab.title,tab.cwd⟩ : TerminalStrip.RestoredTerminal))).map
        (fun tab => ⟨tab.title,tab.cwd⟩) := by
    unfold savedTerminals
    rw [List.map_map]
    rfl
  rw [shapes,seated.shapes,(restoresRecord w project).2.1]
  show List.map _ (List.map _ _) = _
  rw [List.map_map]
  rfl

theorem positionCarried {keys : Nat} (seated : StripRestore.Seated project.name (seats w project) s.terminals keys) :
    (((s.terminals.tabs.findIdx? (fun tab =>
      some tab.key = EditorStrip.selected s.terminals.activeByProject project.name)).getD 0 : Nat) : Int) =
        (carriedRecord w project).activeTerminal := by
  have length : (seats w project).tabs.length = (recordOf w project).terminals.length := by
    rw [(restoresRecord w project).2.1]
    simp [restoredTerminals]
  have active : (seats w project).active =
      if 0 ≤ (recordOf w project).activeTerminal ∧ (recordOf w project).activeTerminal < (seats w project).tabs.length then
        (recordOf w project).activeTerminal.toNat else 0 := by
    rw [(restoresRecord w project).2.1]
    rfl
  have inside : (seats w project).active < (seats w project).tabs.length ∨ (seats w project).active = 0 := by
    rw [active]
    split <;> omega
  rw [seated.position inside,active]
  show _ = (recordOf w project).activeTerminal
  have tidy := (recordTidy w project).terminal
  rw [← length] at tidy
  split <;> omega

theorem treeCarried (w : World) (project : Project) :
    (shape w project).expanded = (carriedRecord w project).treeExpanded ∧
      (shape w project).selected.getD [] = (carriedRecord w project).treeSelected ∧
      (shape w project).showHidden = (carriedRecord w project).treeShowHidden := by
  rw [(restoresRecord w project).2.2]
  refine ⟨setOfNodup (recordTidy w project).expanded,?_,rfl⟩
  show ((some (recordOf w project).treeSelected).filter (fun path => path ≠ [])).getD [] = (recordOf w project).treeSelected
  by_cases none_ : (recordOf w project).treeSelected = []
  · rw [none_]; rfl
  · simp [Option.filter,none_]

theorem liveDone (core : Core w project s) (registered : Registered w project) (done : Done w project s) :
    s.view.live =
      { activeProject := some project.name
        workspace := sizes w
        editors := s.editors.tabs
        activeEditor := EditorStrip.selected s.editors.activeByProject project.name
        terminals := s.terminals.tabs
        activeTerminal := EditorStrip.selected s.terminals.activeByProject project.name
        tree := shape w project } := by
  obtain ⟨begun,_,_,ends,_,seated⟩ := done
  obtain ⟨active,list,loaded⟩ := core.chosen (core.drawnChosen begun.drawn).1
  have settings : s.workspace = sizes w :=
    (core.loaded.resolve_left (fun none_ => by rw [none_] at loaded; cases loaded)).2
  have editors : EditorStrip.tabsForProject s.editors.tabs (some project.name) = s.editors.tabs :=
    StripRestore.openedAll ends.opened
  have path : s.view.activePath = some project.path := by
    show (findProject s.list s.activeName).map Project.path = _
    rw [active,list,registered.found]
    rfl
  have tree : treeFor s.trees s.view.activePath = shape w project := by
    rw [path]
    show (s.trees.lookup project.path).getD _ = _
    rw [begun.tree]
    rfl
  show LiveSession.mk s.activeName s.workspace (EditorStrip.tabsForProject s.editors.tabs s.activeName)
    (s.activeName.bind (EditorStrip.selected s.editors.activeByProject))
    (TerminalStrip.tabsForProject s.terminals.tabs s.activeName)
    (s.activeName.bind (EditorStrip.selected s.terminals.activeByProject)) (treeFor s.trees s.view.activePath) = _
  rw [active,settings,editors,seated.own,tree]
  rfl

theorem panesCarried (core : Core w project s) (registered : Registered w project) (done : Done w project s) :
    liveRecord project.name s.view.live = carriedRecord w project := by
  rw [liveDone core registered done]
  obtain ⟨_,_,_,ends,_,seated⟩ := done
  obtain ⟨expanded,selected,hidden⟩ := treeCarried w project
  show ProjectSession.mk project.name (savedEditors s.editors.tabs) _ (savedTerminals s.terminals.tabs) _ _ _ _ =
    ProjectSession.mk project.name (carriedRecord w project).editors (carriedRecord w project).activeEditor
      (carriedRecord w project).terminals (carriedRecord w project).activeTerminal (carriedRecord w project).treeExpanded
      (carriedRecord w project).treeSelected (carriedRecord w project).treeShowHidden
  rw [editorsCarried ends,activeCarried ends,terminalsCarried seated,positionCarried seated,expanded,selected,hidden]

theorem savedName (registered : Registered w project) : w.saved.activeProject = project.name := by
  have named := registered.named
  show w.saved.activeProject = project.name
  unfold restoredWorkspace at named
  simp only at named
  split at named
  · cases named
  · exact Option.some.inj named

theorem recordsCarried {previous : State} {live : LiveSession} (intact : Intact w [project.name] previous)
    (on : live.activeProject = some project.name) (panes : liveRecord project.name live = carriedRecord w project) :
    (names w.projects).filterMap (fun name => recordFor name previous live [project.name]) = (carried w project).projects := by
  refine List.filterMap_congr (fun name listed => ?_)
  unfold recordFor
  by_cases same : name = project.name
  · subst same
    rw [if_pos ⟨on.symm,List.mem_cons_self⟩,if_pos rfl,panes]
  · rw [if_neg (fun here => same (List.mem_singleton.mp here.2)),if_neg same]
    exact intact.2 name listed (fun member => same (List.mem_singleton.mp member))

theorem currentCarried (launched : Launch w project s) (registered : Registered w project) (done : Done w project s)
    (settled : Settled s) (off : w.saved.changedOnly = false) : s.current = carried w project := by
  obtain ⟨core,_,log⟩ := launched
  obtain ⟨ran,drawn⟩ := settled
  have live := liveDone core registered done
  have panes := panesCarried core registered done
  have some_ : s.hydrated ≠ [] := by rw [done.hydrated]; exact List.cons_ne_nil _ _
  obtain ⟨previous,intact,written⟩ := log.written some_ ran (by rw [drawn]; rfl)
  rw [done.hydrated] at intact
  rw [written,drawn,done.hydrated]
  have listed : names w.projects ≠ [] := List.ne_nil_of_mem (registeredName registered)
  have records := recordsCarried intact (by rw [live]) panes
  show State.mk previous.version (s.view.live.activeProject.getD []) s.view.live.workspace.fontSize s.view.live.workspace.sidebar
    s.view.live.workspace.terminalHeight s.view.live.workspace.cluster s.view.live.tree.changedOnly
    ((if names w.projects ≠ [] then names w.projects else previous.projects.map ProjectSession.name).filterMap
      (fun name => recordFor name previous s.view.live [project.name])) = _
  rw [if_pos listed,records,intact.1,live]
  show State.mk w.saved.version project.name _ _ _ _ false _ = State.mk w.saved.version w.saved.activeProject _ _ _ _
    w.saved.changedOnly _
  rw [savedName registered,off]
  rfl

end

variable {w : World} {project : Project} {s : Bench} {es : List Event}

def closed (changedOnly : Bool) : State :=
  { version := 1, activeProject := "b".toList, fontSize := 15, sidebar := 0, terminalHeight := 90, clusterWidth := 300
    changedOnly
    projects := [⟨"b".toList,[⟨"gone".toList,"edit".toList⟩,⟨"notes.md".toList,"preview".toList⟩],"gone".toList,
      [⟨"shell 1".toList,"/b/x".toList⟩,⟨"top".toList,[]⟩],1,[ROOT,"x".toList],"x".toList,true⟩] }

def desk (changedOnly : Bool) : World where
  file := some (closed changedOnly)
  existingDir := fun path => path = "/b/x".toList
  projects := [⟨"a".toList,"/a".toList⟩,⟨"b".toList,"/b".toList⟩]
  read := fun _ path => if path = "notes.md".toList then some (Editor.plainText "x") else none

def bee : Project := ⟨"b".toList,"/b".toList⟩

def awake (changedOnly : Bool) : List Event :=
  [.effects,.listed (desk changedOnly).projects,.render,.effects,.loadAnswered (desk changedOnly).saved,.render,.effects,.render,
    .effects,.editors (.restoreFailed 0),.editors (.restoreRead 0 (Editor.plainText "x")),.render,.effects,.hydrated 0,
    .terminals (.onStatus 1 .running),.render,.effects,.treeListed "/b".toList,.render,.effects]

end M6t.SessionRestore
