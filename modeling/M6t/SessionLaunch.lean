import M6t.SessionRecord
import M6t.SessionStore
import M6t.StripRestore

/-! A launch nobody touches: the session and the registry answer in either
order, the saved project is selected and hydrated. Nothing of it is written over
before it is restored. -/
namespace M6t.SessionLaunch
open M6t.Text M6t.ProjectTrees M6t.Session M6t.Workbench M6t.SessionRecord M6t.Runs
open M6t.Editor (FileContent ROOT)

structure World where
  file : Option State
  existingDir : Str → Bool
  projects : List Project
  read : Str → Str → Option FileContent

def World.saved (w : World) : State := SessionStore.load w.existingDir w.file

def Unattended (w : World) (s : Bench) : Event → Prop
  | .render => True
  | .effects => True
  | .loadAnswered state => state = w.saved
  | .listed list => list = w.projects
  | .treeListed _ => True
  | .editors (.restoreRead i content) => StripRestore.Answers w.read s.editors i (some content)
  | .editors (.restoreFailed i) => StripRestore.Answers w.read s.editors i none
  | .terminals (.onStatus _ status) => TerminalStrip.endingClosesTheTab status = false
  | .hydrated _ => True
  | _ => False
instance (w s e) : Decidable (Unattended w s e) := by
  unfold Unattended StripRestore.Answers
  split <;> infer_instance

section
variable {s : Bench} {root : Str} {change : TreeState → TreeState}

theorem updatePlain (plain : Uniform s.trees false)
    (off : ∀ tree, tree.changedOnly = false → (change tree).changedOnly = false) :
    Uniform (updateTree s root change).trees false := by
  unfold updateTree
  split
  · exact (show (change (treeFor s.trees (some root))).changedOnly = false from off _ (uniformFor plain (some root))) ▸
      uniformWrite plain root (change (treeFor s.trees (some root)))
  · exact plain

theorem updateLookup (held : root ∈ s.held) :
    (updateTree s root change).trees.lookup root = some (change (treeFor s.trees (some root))) := by
  unfold updateTree
  rw [if_pos held]
  exact lookupWithTree _ _ _

theorem updateKeeps (plain : Uniform s.trees false) {path : Str} {tree : TreeState} (there : s.trees.lookup path = some tree) :
    (updateTree s root id).trees.lookup path = some tree := by
  unfold updateTree
  split
  · show (withTree s.trees root (treeFor s.trees (some root))).lookup path = _
    have off : changedOnly (treeFor s.trees (some root)) = changedOnlyOf s.trees :=
      (uniformFor plain (some root)).trans (uniformOff plain).symm
    unfold withTree
    rw [if_pos off,Records.lookupPut]
    split
    · next same => rw [← same,treeThere there]
    · exact there
  · exact there

end

theorem setOfNodup {paths : List Str} (nodup : paths.Nodup) : setOf (ROOT :: paths) = ROOT :: paths.filter (· ≠ ROOT) := by
  have folded : ∀ (paths kept : List Str), paths.Nodup → (∀ path ∈ paths, path ∈ kept → path = ROOT) → ROOT ∈ kept →
      paths.foldl (fun kept path => if path ∈ kept then kept else kept ++ [path]) kept =
        kept ++ paths.filter (· ≠ ROOT) := by
    intro paths
    induction paths with
    | nil => simp
    | cons first rest ih =>
      intro kept nodup apart root
      obtain ⟨fresh,nodup⟩ := List.nodup_cons.mp nodup
      have later : ∀ path ∈ rest, path ∈ kept → path = ROOT := fun path member => apart path (List.mem_cons_of_mem _ member)
      by_cases there : first ∈ kept
      · have same := apart first List.mem_cons_self there
        rw [List.foldl_cons,if_pos there,ih kept nodup later root]
        simp [same]
      · have other : first ≠ ROOT := fun same => there (same ▸ root)
        have apart : ∀ path ∈ rest, path ∈ kept ++ [first] → path = ROOT := by
          intro path member old
          rcases List.mem_append.mp old with old | new
          · exact later path member old
          · cases List.mem_singleton.mp new; exact absurd member fresh
        rw [List.foldl_cons,if_neg there,ih (kept ++ [first]) nodup apart (List.mem_append_left _ root)]
        simp [other]
  exact folded paths [ROOT] nodup (fun path _ member => List.mem_singleton.mp member) List.mem_cons_self

def sizes (w : World) : WorkspaceSettings := (restoredWorkspace w.saved).settings
def plan (w : World) (project : Project) : StripRestore.Plan :=
  let saved := restoredEditors (projectSession w.saved project.name)
  ⟨project.name,project.path,saved.files,saved.active,w.read project.path⟩
def seats (w : World) (project : Project) : TerminalStrip.RestoredTerminals :=
  restoredTerminals (projectSession w.saved project.name) project.path
def shape (w : World) (project : Project) : TreeState :=
  restoreTree Session.initialTree (restoredTree (projectSession w.saved project.name) false)
def ready (w : World) (project : Project) : Option State × Bool × Option Str × Option Str :=
  (some w.saved,false,some project.name,some project.path)

structure Registered (w : World) (project : Project) : Prop where
  named : (restoredWorkspace w.saved).activeProject = some project.name
  found : findProject w.projects (some project.name) = some project

structure Core (w : World) (project : Project) (s : Bench) : Prop where
  list : s.list = [] ∨ s.list = w.projects
  drawnList : s.drawn.list = [] ∨ s.drawn.list = w.projects ∧ s.list = w.projects
  loaded : s.loaded = none ∨ s.loaded = some w.saved ∧ s.workspace = sizes w
  drawnLoaded : s.drawn.loaded = none ∨ s.drawn.loaded = some w.saved ∧ s.loaded = some w.saved ∧ s.drawn.workspace = sizes w
  trees : Uniform s.trees false
  drawnTrees : Uniform s.drawn.trees false
  held : ∀ path, s.rooted = some path → path ∈ s.held
  chosen : s.restoring = false → s.activeName = some project.name ∧ s.list = w.projects ∧ s.loaded = some w.saved
  drawnChosen : s.drawn.restoring = false → s.restoring = false ∧ s.drawn.activeName = some project.name ∧
    s.drawn.list = w.projects ∧ s.drawn.loaded = some w.saved
  hydrations : s.drawn.hydrations ≤ s.hydrations

structure Untouched (s : Bench) : Prop where
  hydrated : s.hydrated = []
  terminals : s.terminals.tabs = []
  unselected : s.terminals.activeByProject = []

structure Fresh (s : Bench) : Prop where
  untouched : Untouched s
  hydrating : s.hydrating = []
  tabs : s.editors.tabs = []
  rendered : s.editors.rendered = []
  shown : s.editors.shown = []
  restores : s.editors.restores = []
  unselected : s.editors.activeByProject = []

/-- The hydration has begun, so its effect has nothing to begin again. -/
structure Begun (w : World) (project : Project) (s : Bench) : Prop where
  drawn : s.drawn.restoring = false
  keyed : s.keyed = ready w project
  tree : s.trees.lookup project.path = some (shape w project)

structure Reading (w : World) (project : Project) (s : Bench) : Prop where
  begun : Begun w project s
  untouched : Untouched s
  hydrating : s.hydrating = [⟨project.name,seats w project⟩]
  editors : StripRestore.Underway (plan w project) s.editors

structure Done (w : World) (project : Project) (s : Bench) : Prop where
  begun : Begun w project s
  hydrating : s.hydrating = []
  hydrated : s.hydrated = [project.name]
  editors : StripRestore.Ends (plan w project) s.editors []
  terminals : ∃ keys, StripRestore.Seated project.name (seats w project) s.terminals keys

inductive Progress (w : World) (project : Project) (s : Bench) : Prop where
  | fresh (fresh : Fresh s)
  | reading (reading : Reading w project s)
  | done (done : Done w project s)

/-- The session, but for the project on screen, as it was loaded. -/
def Intact (w : World) (hydrated : List Str) (state : State) : Prop :=
  state.version = w.saved.version ∧
    ∀ name ∈ names w.projects, name ∉ hydrated → projectSession state name = projectSession w.saved name

structure Log (w : World) (s : Bench) : Prop where
  intact : s.loaded = some w.saved → Intact w s.hydrated s.current
  off : s.restoring = false → s.current.changedOnly = false
  written : s.hydrated ≠ [] → s.pending = false → s.drawn.hydrations = s.hydrations → ∃ previous,
    Intact w s.hydrated previous ∧ s.current = nextSession previous s.drawn.live s.hydrated (names w.projects)

structure Launch (w : World) (project : Project) (s : Bench) : Prop where
  core : Core w project s
  progress : Progress w project s
  log : Log w s

section
variable {w : World} {project : Project} {s t : Bench}

theorem registeredName (registered : Registered w project) : project.name ∈ names w.projects :=
  List.mem_map_of_mem (List.mem_of_find?_eq_some registered.found)

theorem coreKey (core : Core w project s) (registered : Registered w project) (drawn : s.drawn.restoring = false) :
    hydrationKey s = ready w project := by
  obtain ⟨_,active,list,loaded⟩ := core.drawnChosen drawn
  have path : s.drawn.activePath = some project.path := by
    unfold View.activePath
    rw [active,list,registered.found]
    rfl
  unfold hydrationKey ready
  rw [drawn,active,loaded,path]

theorem planNodup (w : World) (project : Project) : ((plan w project).files.map EditorStrip.RestoredEditor.path).Nodup := by
  unfold plan restoredEditors
  cases found : projectSession w.saved project.name with
  | none => exact List.nodup_nil
  | some record =>
    have tidy := SessionStore.loadTidy found
    simpa [List.map_map,Function.comp_def] using tidy.editors

structure Still (s t : Bench) : Prop where
  drawn : t.drawn = s.drawn
  list : t.list = s.list
  loaded : t.loaded = s.loaded
  workspace : t.workspace = s.workspace
  restoring : t.restoring = s.restoring
  activeName : t.activeName = s.activeName

theorem Core.still (core : Core w project s) (still : Still s t) (plain : Uniform t.trees false)
    (held : ∀ path, t.rooted = some path → path ∈ t.held) (hydrations : s.hydrations ≤ t.hydrations) : Core w project t := by
  obtain ⟨drawn,list,loaded,workspace,restoring,activeName⟩ := still
  refine ⟨?_,?_,?_,?_,plain,?_,held,?_,?_,?_⟩
  · rw [list]; exact core.list
  · rw [drawn,list]; exact core.drawnList
  · rw [loaded,workspace]; exact core.loaded
  · rw [drawn,loaded]; exact core.drawnLoaded
  · rw [drawn]; exact core.drawnTrees
  · rw [restoring,activeName,list,loaded]; exact core.chosen
  · rw [drawn,restoring]; exact core.drawnChosen
  · rw [drawn]; exact le_trans core.hydrations hydrations

theorem coreShown (core : Core w project s) : Core w project (shownEffects { s with pending := false }) :=
  core.still ⟨rfl,rfl,rfl,rfl,rfl,rfl⟩ core.trees core.held le_rfl

theorem freshShown (fresh : Fresh s) : Fresh (shownEffects { s with pending := false }) :=
  ⟨⟨fresh.untouched.hydrated,fresh.untouched.terminals,fresh.untouched.unselected⟩,fresh.hydrating,fresh.tabs,fresh.rendered,
    fresh.rendered,fresh.restores,fresh.unselected⟩

theorem Begun.same (begun : Begun w project s) (drawn : t.drawn = s.drawn)
    (keyed : s.drawn.restoring = false → s.keyed = ready w project → t.keyed = ready w project)
    (trees : s.trees.lookup project.path = some (shape w project) → t.trees.lookup project.path = some (shape w project)) :
    Begun w project t :=
  ⟨by rw [drawn]; exact begun.drawn,keyed begun.drawn begun.keyed,trees begun.tree⟩

theorem Progress.same (progress : Progress w project s) (drawn : t.drawn = s.drawn)
    (keyed : s.drawn.restoring = false → s.keyed = ready w project → t.keyed = ready w project)
    (hydrating : t.hydrating = s.hydrating) (hydrated : t.hydrated = s.hydrated) (editors : t.editors = s.editors)
    (terminals : t.terminals = s.terminals)
    (trees : s.trees.lookup project.path = some (shape w project) → t.trees.lookup project.path = some (shape w project)) :
    Progress w project t := by
  have untouched : Untouched s → Untouched t := fun old =>
    ⟨by rw [hydrated]; exact old.hydrated,by rw [terminals]; exact old.terminals,by rw [terminals]; exact old.unselected⟩
  cases progress with
  | fresh fresh =>
    refine .fresh ⟨untouched fresh.untouched,by rw [hydrating]; exact fresh.hydrating,?_,?_,?_,?_,?_⟩
    · rw [editors]; exact fresh.tabs
    · rw [editors]; exact fresh.rendered
    · rw [editors]; exact fresh.shown
    · rw [editors]; exact fresh.restores
    · rw [editors]; exact fresh.unselected
  | reading reading =>
    refine .reading ⟨reading.begun.same drawn keyed trees,untouched reading.untouched,?_,?_⟩
    · rw [hydrating]; exact reading.hydrating
    · rw [editors]; exact reading.editors
  | done done =>
    refine .done ⟨done.begun.same drawn keyed trees,?_,?_,?_,?_⟩
    · rw [hydrating]; exact done.hydrating
    · rw [hydrated]; exact done.hydrated
    · rw [editors]; exact done.editors
    · rw [terminals]; exact done.terminals

theorem seatedSame {saved : TerminalStrip.RestoredTerminals} {name : Str} {one two : TerminalStrip.Strip}
    (seated : ∃ keys, StripRestore.Seated name saved one keys) (tabs : two.tabs = one.tabs)
    (active : two.activeByProject = one.activeByProject) : ∃ keys, StripRestore.Seated name saved two keys := by
  obtain ⟨keys,seated⟩ := seated
  exact ⟨keys,⟨by rw [tabs]; exact seated.faces,by rw [active]; exact seated.focus⟩⟩

theorem progressShown (progress : Progress w project s) : Progress w project (shownEffects { s with pending := false }) := by
  cases progress with
  | fresh fresh => exact .fresh (freshShown fresh)
  | reading reading =>
    obtain ⟨begun,untouched,hydrating,editors⟩ := reading
    exact .reading ⟨begun.same rfl (fun _ same => same) id,⟨untouched.hydrated,untouched.terminals,untouched.unselected⟩,hydrating,editors.shows⟩
  | done done =>
    obtain ⟨begun,hydrating,hydrated,editors,terminals⟩ := done
    exact .done ⟨begun.same rfl (fun _ same => same) id,hydrating,hydrated,editors.shows,seatedSame terminals rfl rfl⟩

theorem coreTree (core : Core w project s) : Core w project (treeEffect s) := by
  unfold treeEffect
  simp only
  split
  · exact core
  · split
    · exact core.still ⟨rfl,rfl,rfl,rfl,rfl,rfl⟩ core.trees (fun path none_ => nomatch none_) le_rfl
    · next root _ =>
      have plain : Uniform (updateTree { s with held := root :: s.held, rooted := some root } root id).trees false :=
        updatePlain core.trees (fun _ off => off)
      obtain ⟨trees,same⟩ := updateTreeOnly { s with held := root :: s.held, rooted := some root } root id
      rw [same] at plain ⊢
      refine core.still ⟨rfl,rfl,rfl,rfl,rfl,rfl⟩ plain ?_ le_rfl
      intro path rooted
      cases rooted
      exact List.mem_cons_self

theorem treeHolds (core : Core w project s) {path : Str} (shown : s.drawn.activePath = some path) :
    path ∈ (treeEffect s).held := by
  unfold treeEffect
  simp only [shown]
  split
  · next same => exact core.held path same.symm
  · obtain ⟨trees,same⟩ := updateTreeOnly { s with held := path :: s.held, rooted := some path } path id
    rw [same]
    exact List.mem_cons_self

theorem treeKeeps (core : Core w project s) {path : Str} {tree : TreeState} (there : s.trees.lookup path = some tree) :
    (treeEffect s).trees.lookup path = some tree := by
  unfold treeEffect
  simp only
  split
  · exact there
  · split
    · exact there
    · next root _ => exact updateKeeps (s := { s with held := root :: s.held, rooted := some root }) core.trees there

theorem progressTree (core : Core w project s) (progress : Progress w project s) : Progress w project (treeEffect s) := by
  have keeps : s.trees.lookup project.path = some (shape w project) →
      (treeEffect s).trees.lookup project.path = some (shape w project) := treeKeeps core
  obtain ⟨held,rooted,trees,same⟩ := treeEffectOnly s
  rw [same] at keeps ⊢
  exact progress.same rfl (fun _ same => same) rfl rfl rfl rfl keeps

theorem coreSelection (core : Core w project s) (registered : Registered w project) : Core w project (selectionEffect s) := by
  unfold selectionEffect
  split
  · exact core
  · next state loaded =>
    split
    · exact core
    · next busy =>
      have here : s.drawn.list = w.projects ∧ s.list = w.projects :=
        core.drawnList.resolve_left (fun none_ => busy (Or.inr none_))
      have answered : s.drawn.loaded = some w.saved ∧ s.loaded = some w.saved ∧ s.drawn.workspace = sizes w :=
        core.drawnLoaded.resolve_left (fun none_ => by rw [none_] at loaded; cases loaded)
      have session : state = w.saved := Option.some.inj (loaded.symm.trans answered.1)
      subst session
      have on : ∃ p ∈ s.drawn.list, p.name = project.name := by
        rw [here.1]
        exact ⟨project,List.mem_of_find?_eq_some registered.found,rfl⟩
      rw [registered.named]
      simp only
      rw [if_pos on]
      refine ⟨core.list,core.drawnList,core.loaded,core.drawnLoaded,core.trees,core.drawnTrees,core.held,
        fun _ => ⟨rfl,here.2,answered.2.1⟩,?_,core.hydrations⟩
      intro done
      exact absurd (Or.inl done) busy

theorem progressSelection (progress : Progress w project s) : Progress w project (selectionEffect s) := by
  obtain ⟨restoring,activeName,same,_⟩ := selectionEffectOnly s
  rw [same]
  exact progress.same rfl (fun _ same => same) rfl rfl rfl rfl id

theorem launchHydration (core : Core w project s) (registered : Registered w project) (progress : Progress w project s)
    (held : ∀ path, s.drawn.activePath = some path → path ∈ s.held)
    (intact : s.drawn.restoring = false → Intact w s.hydrated s.current ∧ s.current.changedOnly = false) :
    Core w project (hydrationEffect s) ∧ Progress w project (hydrationEffect s) := by
  unfold hydrationEffect
  cases begins : starts s with
  | none =>
    refine ⟨core.still ⟨rfl,rfl,rfl,rfl,rfl,rfl⟩ core.trees core.held le_rfl,?_⟩
    exact progress.same rfl (fun drawn _ => coreKey core registered drawn) rfl rfl rfl rfl id
  | some began =>
    obtain ⟨name,path⟩ := began
    obtain ⟨_,drawn,new,active,shown⟩ := startsReady begins
    have key := coreKey core registered drawn
    obtain ⟨_,_,named,rooted⟩ : _ ∧ _ ∧ some name = some project.name ∧ some path = some project.path := by
      have parts := key
      simp only [hydrationKey,ready,Prod.mk.injEq,active,shown] at parts
      exact parts
    cases named
    cases rooted
    obtain ⟨⟨_,records⟩,off⟩ := intact drawn
    have record := records project.name (registeredName registered) new
    have moved : hydrationKey s ≠ s.keyed := by
      intro same
      unfold starts at begins
      rw [if_pos same] at begins
      cases begins
    have blank : Fresh s := by
      cases progress with
      | fresh fresh => exact fresh
      | reading reading => exact absurd (key.trans reading.begun.keyed.symm) moved
      | done done => exact absurd (key.trans done.begun.keyed.symm) moved
    let u : Bench := { s with keyed := hydrationKey s }
    let change : TreeState → TreeState := fun tree =>
      restoreTree tree (restoredTree (projectSession u.current project.name) (restoredWorkspace u.current).changedOnly)
    have plain : ∀ tree : TreeState, tree.changedOnly = false → (change tree).changedOnly = false := fun _ _ => off
    have lookup : (hydrate u project.name project.path).trees.lookup project.path = some (shape w project) := by
      show (updateTree u project.path change).trees.lookup project.path = _
      refine (updateLookup (s := u) (held project.path shown)).trans ?_
      show some (restoreTree _ (restoredTree (projectSession s.current project.name) s.current.changedOnly)) = _
      rw [record,off]
      rfl
    have trees : Uniform (hydrate u project.name project.path).trees false := updatePlain (s := u) core.trees plain
    obtain ⟨kept,only⟩ := hydrateOnly u project.name project.path
    rw [only] at lookup trees
    show Core w project (hydrate u project.name project.path) ∧ Progress w project (hydrate u project.name project.path)
    rw [only]
    refine ⟨core.still ⟨rfl,rfl,rfl,rfl,rfl,rfl⟩ trees core.held le_rfl,.reading ⟨⟨drawn,key,lookup⟩,?_,?_,?_⟩⟩
    · exact ⟨blank.untouched.hydrated,blank.untouched.terminals,blank.untouched.unselected⟩
    · show s.hydrating ++ [⟨project.name,restoredTerminals (projectSession s.current project.name) project.path⟩] = _
      rw [blank.hydrating,record]
      rfl
    · show StripRestore.Underway _ (EditorStrip.begin_ s.editors project.name project.path
        (restoredEditors (projectSession s.current project.name)))
      rw [record]
      exact StripRestore.beginUnderway (planNodup w project) ⟨blank.tabs,blank.rendered,blank.shown⟩ blank.restores
        blank.unselected

theorem hydratedDrawn (progress : Progress w project s) (some_ : s.hydrated ≠ []) : Done w project s := by
  cases progress with
  | fresh fresh => exact absurd fresh.untouched.hydrated some_
  | reading reading => exact absurd reading.untouched.hydrated some_
  | done done => exact done

theorem coreAnswered (core : Core w project s) (drawn : s.drawn.restoring = false) : s.loaded = some w.saved :=
  (core.chosen (core.drawnChosen drawn).1).2.2

theorem intactNext {hydrated registered : List Str} {previous : State} {live : LiveSession} (intact : Intact w hydrated previous)
    (registers : registered = [] ∨ registered = names w.projects) :
    Intact w hydrated (nextSession previous live hydrated registered) := by
  refine ⟨intact.1,fun name listed new => ?_⟩
  rw [nextOffScreen (fun here => new here.2) ?_]
  · exact intact.2 name listed new
  · rcases registers with none_ | all
    · exact Or.inl none_
    · exact Or.inr (Or.inl (all ▸ listed))

theorem drawnOff (core : Core w project s) : s.drawn.live.tree.changedOnly = false := uniformFor core.drawnTrees _

theorem drawnNames (core : Core w project s) :
    s.drawn.list.map Project.name = [] ∨ s.drawn.list.map Project.name = names w.projects := by
  rcases core.drawnList with none_ | ⟨all,_⟩
  · exact Or.inl (by rw [none_]; rfl)
  · exact Or.inr (by rw [all]; rfl)

theorem logEffects (launched : Launch w project s) : Log w (effects s) := by
  obtain ⟨core,progress,log⟩ := launched
  have ran := effectsRan s
  refine ⟨?_,?_,?_⟩
  · rw [ran.loaded,ran.hydrated]
    intro answered
    by_cases waits : s.drawn.loaded = none
    · rw [ran.waiting waits]
      exact log.intact answered
    · rw [ran.recorded waits]
      exact intactNext (log.intact answered) (drawnNames core)
  · intro selected
    by_cases waits : s.drawn.loaded = none
    · rw [ran.waiting waits]
      exact log.off ((ran.selected (Or.inl waits)).1.symm.trans selected)
    · rw [ran.recorded waits]
      exact drawnOff core
  · rw [ran.hydrated,ran.drawn]
    intro some_ _ _
    have drawn := (hydratedDrawn progress some_).begun.drawn
    obtain ⟨_,_,list,loaded⟩ := core.drawnChosen drawn
    refine ⟨s.current,log.intact (coreAnswered core drawn),?_⟩
    rw [ran.recorded (by rw [loaded]; exact Option.some_ne_none _),list]
    rfl

theorem progressEffects (launched : Launch w project s) (registered : Registered w project) :
    Core w project (effects s) ∧ Progress w project (effects s) := by
  obtain ⟨core,progress,log⟩ := launched
  have shown := coreShown core
  have before : Core w project (beforeHydration s) := coreSelection (coreTree shown) registered
  have moved : Progress w project (beforeHydration s) := progressSelection (progressTree shown (progressShown progress))
  have held : ∀ path, (beforeHydration s).drawn.activePath = some path → path ∈ (beforeHydration s).held := by
    intro path there
    obtain ⟨restoring,activeName,selection,_⟩ := selectionEffectOnly (treeEffect (shownEffects { s with pending := false }))
    obtain ⟨_,_,_,effect⟩ := treeEffectOnly (shownEffects { s with pending := false })
    unfold beforeHydration at there ⊢
    rw [selection] at there ⊢
    refine treeHolds shown ?_
    rw [effect] at there
    exact there
  have intact : (beforeHydration s).drawn.restoring = false →
      Intact w (beforeHydration s).hydrated (beforeHydration s).current ∧ (beforeHydration s).current.changedOnly = false := by
    obtain ⟨_,_,_,_,_,same,_⟩ := beforeHydrationOnly s
    rw [same]
    exact fun drawn => ⟨log.intact (coreAnswered core drawn),log.off (core.drawnChosen drawn).1⟩
  obtain ⟨begun,reading⟩ := launchHydration before registered moved held intact
  obtain ⟨current,recording⟩ := recordingEffectOnly (hydrationEffect (beforeHydration s))
  unfold effects
  rw [recording]
  refine ⟨begun.still ⟨rfl,rfl,rfl,rfl,rfl,rfl⟩ begun.trees begun.held le_rfl,?_⟩
  exact reading.same rfl (fun _ same => same) rfl rfl rfl rfl id

theorem launchRender (launched : Launch w project s) : Launch w project (render s) := by
  obtain ⟨core,progress,log⟩ := launched
  refine ⟨⟨core.list,?_,core.loaded,?_,core.trees,core.trees,core.held,core.chosen,?_,le_refl _⟩,?_,?_⟩
  · exact core.list.imp_right (fun all => ⟨all,all⟩)
  · exact core.loaded.imp_right (fun ⟨answered,settings⟩ => ⟨answered,answered,settings⟩)
  · intro restoring
    obtain ⟨active,list,loaded⟩ := core.chosen restoring
    exact ⟨restoring,active,list,loaded⟩
  · have restoring : s.drawn.restoring = false → s.restoring = false := fun drawn => (core.drawnChosen drawn).1
    cases progress with
    | fresh fresh =>
      exact .fresh ⟨⟨fresh.untouched.hydrated,fresh.untouched.terminals,fresh.untouched.unselected⟩,fresh.hydrating,fresh.tabs,
        fresh.tabs,fresh.shown,fresh.restores,fresh.unselected⟩
    | reading reading =>
      obtain ⟨begun,untouched,hydrating,editors⟩ := reading
      exact .reading ⟨⟨restoring begun.drawn,begun.keyed,begun.tree⟩,
        ⟨untouched.hydrated,untouched.terminals,untouched.unselected⟩,hydrating,editors.renders⟩
    | done done =>
      obtain ⟨begun,hydrating,hydrated,editors,terminals⟩ := done
      exact .done ⟨⟨restoring begun.drawn,begun.keyed,begun.tree⟩,hydrating,hydrated,editors.renders,
        seatedSame terminals rfl rfl⟩
  · exact ⟨log.intact,log.off,fun _ waits => nomatch waits⟩

theorem launchLoaded (launched : Launch w project s) (waits : s.loaded = none) :
    Launch w project
      { s with current := w.saved, workspace := (restoredWorkspace w.saved).settings, loaded := some w.saved } := by
  obtain ⟨core,progress,log⟩ := launched
  have busy : s.restoring ≠ false := by
    intro selected
    rw [(core.chosen selected).2.2] at waits
    cases waits
  have undrawn : s.drawn.restoring ≠ false := fun drawn => busy (core.drawnChosen drawn).1
  have unread : s.drawn.loaded = none := core.drawnLoaded.resolve_right (fun answered => by
    rw [answered.2.1] at waits
    cases waits)
  refine ⟨⟨core.list,core.drawnList,Or.inr ⟨rfl,rfl⟩,Or.inl unread,core.trees,core.drawnTrees,core.held,
    fun selected => absurd selected busy,fun drawn => absurd drawn undrawn,core.hydrations⟩,?_,?_⟩
  · exact progress.same rfl (fun _ same => same) rfl rfl rfl rfl id
  · exact ⟨fun _ => ⟨rfl,fun _ _ _ => rfl⟩,fun selected => absurd selected busy,
      fun some_ => absurd (hydratedDrawn progress some_).begun.drawn undrawn⟩

theorem launchListed (launched : Launch w project s) (registered : Registered w project) :
    Launch w project { s with list := w.projects, activeName := selectionAfterReload w.projects s.activeName } := by
  obtain ⟨core,progress,log⟩ := launched
  refine ⟨⟨Or.inr rfl,core.drawnList.imp_right (fun all => ⟨all.1,rfl⟩),core.loaded,core.drawnLoaded,core.trees,core.drawnTrees,
    core.held,?_,core.drawnChosen,core.hydrations⟩,?_,⟨log.intact,log.off,log.written⟩⟩
  · intro restoring
    obtain ⟨active,_,loaded⟩ := core.chosen restoring
    refine ⟨?_,rfl,loaded⟩
    show selectionAfterReload w.projects s.activeName = some project.name
    rw [active]
    exact if_pos ⟨Option.some_ne_none _,project,List.mem_of_find?_eq_some registered.found,rfl⟩
  · exact progress.same rfl (fun _ same => same) rfl rfl rfl rfl id

theorem launchTree (launched : Launch w project s) (root : Str) : Launch w project (updateTree s root id) := by
  obtain ⟨core,progress,log⟩ := launched
  have plain : Uniform (updateTree s root id).trees false := updatePlain core.trees (fun _ off => off)
  have keeps : s.trees.lookup project.path = some (shape w project) →
      (updateTree s root id).trees.lookup project.path = some (shape w project) := updateKeeps core.trees
  obtain ⟨trees,same⟩ := updateTreeOnly s root id
  rw [same] at plain keeps ⊢
  refine ⟨core.still ⟨rfl,rfl,rfl,rfl,rfl,rfl⟩ plain core.held le_rfl,?_,⟨log.intact,log.off,log.written⟩⟩
  exact progress.same rfl (fun _ same => same) rfl rfl rfl rfl keeps

theorem Launch.strips {editors : EditorStrip.Strip} {terminals : TerminalStrip.Strip} (launched : Launch w project s)
    (progress : Progress w project { s with editors, terminals }) : Launch w project { s with editors, terminals } := by
  obtain ⟨core,_,log⟩ := launched
  exact ⟨core.still ⟨rfl,rfl,rfl,rfl,rfl,rfl⟩ core.trees core.held le_rfl,progress,⟨log.intact,log.off,log.written⟩⟩

theorem Launch.reads {editors : EditorStrip.Strip} (launched : Launch w project s) (waits : s.editors.restores ≠ [])
    (moved : StripRestore.Underway (plan w project) s.editors → StripRestore.Underway (plan w project) editors) :
    Launch w project { s with editors } := by
  refine launched.strips ?_
  cases launched.progress with
  | fresh fresh => exact absurd fresh.restores waits
  | done done => exact absurd done.editors.restores waits
  | reading reading =>
    obtain ⟨begun,untouched,hydrating,underway⟩ := reading
    exact .reading ⟨begun.same rfl (fun _ same => same) id,⟨untouched.hydrated,untouched.terminals,untouched.unselected⟩,
      hydrating,moved underway⟩

theorem launchRead {i : Nat} {content : FileContent} {editors : EditorStrip.Strip} (launched : Launch w project s)
    (answers : StripRestore.Answers w.read s.editors i (some content))
    (taken : EditorStrip.step s.editors (.restoreRead i content) = some editors) : Launch w project { s with editors } := by
  refine launched.reads ?_ (fun underway => underway.reads rfl (planNodup w project) answers taken)
  intro none_
  simp [EditorStrip.step,none_] at taken

theorem launchFailed {i : Nat} {editors : EditorStrip.Strip} (launched : Launch w project s)
    (answers : StripRestore.Answers w.read s.editors i none)
    (taken : EditorStrip.step s.editors (.restoreFailed i) = some editors) : Launch w project { s with editors } := by
  refine launched.reads ?_ (fun underway => underway.fails rfl (planNodup w project) answers taken)
  intro none_
  simp [EditorStrip.step,none_] at taken

theorem launchHears {key : Nat} {status : TerminalStrip.SessionStatus} (launched : Launch w project s)
    (goesOn : TerminalStrip.endingClosesTheTab status = false) :
    Launch w project { s with terminals := TerminalStrip.onStatus s.terminals key status } := by
  refine Launch.strips launched ?_
  have untouched : Untouched s → Untouched { s with terminals := TerminalStrip.onStatus s.terminals key status } := by
    rintro ⟨hydrated,tabs,unselected⟩
    rw [TerminalStrip.statusPatches goesOn]
    exact ⟨hydrated,by rw [tabs]; rfl,unselected⟩
  cases launched.progress with
  | fresh fresh =>
    exact .fresh ⟨untouched fresh.untouched,fresh.hydrating,fresh.tabs,fresh.rendered,fresh.shown,fresh.restores,fresh.unselected⟩
  | reading reading =>
    exact .reading ⟨reading.begun.same rfl (fun _ same => same) id,untouched reading.untouched,reading.hydrating,reading.editors⟩
  | done done =>
    obtain ⟨begun,hydrating,hydrated,editors,keys,seated⟩ := done
    exact .done ⟨begun.same rfl (fun _ same => same) id,hydrating,hydrated,editors,keys,seated.hears goesOn⟩

theorem launchHydrated {i : Nat} (launched : Launch w project s) (taken : step s (.hydrated i) = some t) :
    Launch w project t := by
  simp only [step] at taken
  split at taken
  · cases taken
  · next h found =>
    obtain ⟨editors,resolves,rfl⟩ := Option.map_eq_some_iff.mp taken
    obtain ⟨core,progress,log⟩ := launched
    have busy : s.hydrating ≠ [] := List.ne_nil_of_mem (List.mem_of_getElem? found)
    cases progress with
    | fresh fresh => exact absurd fresh.hydrating busy
    | done done => exact absurd done.hydrating busy
    | reading reading =>
      obtain ⟨begun,untouched,hydrating,underway⟩ := reading
      rw [hydrating] at found
      obtain ⟨bound,same⟩ := List.getElem?_eq_some_iff.mp found
      have first : i = 0 := by simpa using bound
      subst first
      cases same
      refine ⟨core.still ⟨rfl,rfl,rfl,rfl,rfl,rfl⟩ core.trees core.held (Nat.le_succ _),?_,?_,log.off,?_⟩
      · refine .done ⟨begun.same rfl (fun _ same => same) id,?_,?_,underway.resolves resolves,s.terminals.keys,?_⟩
        · show s.hydrating.eraseIdx 0 = []
          rw [hydrating]
          rfl
        · show project.name :: s.hydrated = [project.name]
          rw [untouched.hydrated]
        · exact StripRestore.restoreSeats untouched.terminals untouched.unselected
      · intro answered
        obtain ⟨version,records⟩ := log.intact answered
        exact ⟨version,fun name listed new => records name listed (fun old => new (List.mem_cons_of_mem _ old))⟩
      · intro _ _ same
        have := core.hydrations
        have same : s.drawn.hydrations = s.hydrations + 1 := same
        omega

theorem launchKept {e : Event} (registered : Registered w project) (launched : Launch w project s) (allowed : Unattended w s e)
    (taken : step s e = some t) : Launch w project t := by
  cases e with
  | render =>
    simp only [step] at taken
    split at taken
    · cases taken
    · cases taken; exact launchRender launched
  | effects =>
    obtain ⟨_,ran⟩ := Option.ite_none_right_eq_some.mp taken
    cases ran
    obtain ⟨core,progress⟩ := progressEffects launched registered
    exact ⟨core,progress,logEffects launched⟩
  | loadAnswered state =>
    obtain ⟨waits,moved⟩ := Option.ite_none_right_eq_some.mp taken
    cases moved
    cases allowed
    exact launchLoaded launched waits
  | listed list =>
    cases taken
    cases allowed
    exact launchListed launched registered
  | treeListed root => cases taken; exact launchTree launched root
  | editors e =>
    simp only [step] at taken
    split at taken
    · cases taken
    · obtain ⟨editors,moved,rfl⟩ := Option.map_eq_some_iff.mp taken
      cases e with
      | restoreRead i content => exact launchRead launched allowed moved
      | restoreFailed i => exact launchFailed launched allowed moved
      | _ => cases allowed
  | terminals e =>
    simp only [step] at taken
    split at taken
    · cases taken
    · cases taken
      cases e with
      | onStatus key status => exact launchHears launched allowed
      | _ => cases allowed
  | hydrated i => exact launchHydrated launched taken
  | _ => cases allowed

theorem launchStart (w : World) (project : Project) : Launch w project launch := by
  refine ⟨⟨Or.inl rfl,Or.inl rfl,Or.inl rfl,Or.inl rfl,?_,?_,?_,?_,?_,le_refl _⟩,?_,?_⟩
  · exact fun entry member => absurd member List.not_mem_nil
  · exact fun entry member => absurd member List.not_mem_nil
  · exact fun path none_ => nomatch none_
  · exact fun restoring => nomatch restoring
  · exact fun restoring => nomatch restoring
  · exact .fresh ⟨⟨rfl,rfl,rfl⟩,rfl,rfl,rfl,rfl,rfl,rfl⟩
  · exact ⟨fun answered => (nomatch answered),fun _ => rfl,fun some_ => absurd rfl some_⟩

end

end M6t.SessionLaunch
