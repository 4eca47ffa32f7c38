import M6t.Workbench

/-! What the next save holds of each project. Only the project on screen is
recorded from its strips; of every other the last record is kept. -/
namespace M6t.SessionRecord
open M6t.Text M6t.Session M6t.Workbench M6t.Runs
open M6t.Editor (EditorTab)
open M6t.TerminalStrip (TerminalTab)

structure Listing where
  editors : List SavedEditor
  terminals : List SavedTerminal
  deriving DecidableEq, Repr

def modeName : Editor.EditorMode → Str
  | .edit => "edit".toList
  | .preview => "preview".toList

def listing (editors : List EditorTab) (terminals : List TerminalTab) (name : Str) : Listing where
  editors := (editors.filter (fun tab => tab.project = name)).map (fun tab => ⟨tab.path,modeName tab.mode⟩)
  terminals := (terminals.filter (fun tab => tab.project = name)).map (fun tab => ⟨tab.title,tab.cwd⟩)

def entryOf (state : State) (name : Str) : Option ProjectSession := state.projects.find? (fun record => record.name = name)

def liveListing (s : Bench) (name : Str) : Listing := listing s.editors.tabs s.terminals.tabs name
def drawnListing (s : Bench) (name : Str) : Listing := listing s.drawn.editors s.drawn.terminals name
def recordListing (record : ProjectSession) : Listing := ⟨record.editors,record.terminals⟩
def savedListing (s : Bench) (name : Str) : Option Listing := (entryOf s.current name).map recordListing

theorem listingSaved (editors : List EditorTab) (terminals : List TerminalTab) (name : Str) :
    listing editors terminals name =
      ⟨savedEditors (EditorStrip.tabsForProject editors (some name)),
        savedTerminals (TerminalStrip.tabsForProject terminals (some name))⟩ := by
  have modes : ∀ mode, modeName mode = modeText mode := fun mode => by cases mode <;> rfl
  simp only [listing,modes]
  rfl

def movesEditors (s : EditorStrip.Strip) (name : Str) : EditorStrip.Event → Prop
  | .open_ project _ path => project = name ∧ EditorStrip.findTabKey s.shown project path = none
  | .close key => ∃ tab ∈ s.tabs, tab.key = key ∧ tab.project = name
  | .setMode key _ => ∃ tab ∈ s.tabs, tab.key = key ∧ tab.project = name
  | .closeProject project => project = name
  | .restoreRead i _ => ∃ r ∈ (s.restores[i]?).toList, r.project = name
  | _ => False
instance (s name e) : Decidable (movesEditors s name e) :=
  match e with
  | .open_ project _ path => inferInstanceAs (Decidable (project = name ∧ EditorStrip.findTabKey s.shown project path = none))
  | .close key | .setMode key _ => inferInstanceAs (Decidable (∃ tab ∈ s.tabs, tab.key = key ∧ tab.project = name))
  | .closeProject project => inferInstanceAs (Decidable (project = name))
  | .restoreRead i _ => inferInstanceAs (Decidable (∃ r ∈ (s.restores[i]?).toList, r.project = name))
  | .restore _ _ _ | .select _ _ | .loaded _ _ | .loadFailed _ _ | .restoreFailed _ | .resolved _ | .render | .effect =>
    isFalse id

def movesTerminals (s : TerminalStrip.Strip) (name : Str) : TerminalStrip.Event → Prop
  | .create project _ _ => project = name
  | .close key => ∃ tab ∈ s.tabs, tab.key = key ∧ tab.project = name
  | .closeProject project => project = name
  | .rename key _ => ∃ tab ∈ s.tabs, tab.key = key ∧ tab.project = name
  | .onStatus key status => TerminalStrip.endingClosesTheTab status = true ∧ ∃ tab ∈ s.tabs, tab.key = key ∧ tab.project = name
  | .restore project _ => project = name
  | _ => False
instance (s name e) : Decidable (movesTerminals s name e) := by
  cases e <;> unfold movesTerminals <;> infer_instance

section Strips
variable {name : Str}

section Own
variable {α β : Type} {xs : List α} {project : α → Str} {shape : α → β}

theorem ownMapped {f : α → α} (projects : ∀ x, project (f x) = project x)
    (same : ∀ x ∈ xs, project x = name → shape (f x) = shape x) :
    ((xs.map f).filter (fun x => project x = name)).map shape = (xs.filter (fun x => project x = name)).map shape := by
  have own : (fun x => decide (project x = name)) ∘ f = fun x => decide (project x = name) := by
    funext x
    simp [projects]
  rw [List.filter_map,own,List.map_map]
  refine List.map_congr_left (fun x member => ?_)
  obtain ⟨there,here⟩ := List.mem_filter.mp member
  exact same x there (of_decide_eq_true here)

theorem ownFiltered {keeps : α → Bool} (kept : ∀ x ∈ xs, project x = name → keeps x = true) :
    (xs.filter keeps).filter (fun x => project x = name) = xs.filter (fun x => project x = name) := by
  rw [List.filter_filter]
  refine List.filter_congr (fun x member => ?_)
  by_cases here : project x = name
  · simp [here,kept x member here]
  · simp [here]

theorem ownClosed {closed : Str} (bare : name = closed → xs.filter (fun x => project x = name) = []) :
    (xs.filter (fun x => project x ≠ closed)).filter (fun x => project x = name) = xs.filter (fun x => project x = name) := by
  refine ownFiltered (fun x member here => ?_)
  suffices name ≠ closed by simpa [here] using this
  intro same
  exact List.ne_nil_of_mem (List.mem_filter.mpr ⟨member,by simpa using here⟩) (bare same)

theorem ownAdded {more : List α} (other : ∀ x ∈ more, project x ≠ name) :
    (xs ++ more).filter (fun x => project x = name) = xs.filter (fun x => project x = name) := by
  rw [List.filter_append,List.append_right_eq_self,List.filter_eq_nil_iff]
  intro x member
  simpa using other x member

end Own

theorem restoreStays {s : TerminalStrip.Strip} {project : Str} {saved : TerminalStrip.RestoredTerminals}
    (other : project ≠ name) :
    TerminalStrip.tabsForProject (TerminalStrip.restore s project saved).tabs (some name) =
      TerminalStrip.tabsForProject s.tabs (some name) := by
  unfold TerminalStrip.restore
  simp only
  split
  · rfl
  · exact ownAdded (fun tab member => TerminalStrip.restoredProject tab member ▸ other)

theorem closedStays {s : TerminalStrip.Strip} {key : Nat}
    (still : ¬∃ tab ∈ s.tabs, tab.key = key ∧ tab.project = name) :
    TerminalStrip.tabsForProject (TerminalStrip.dropTab s key).tabs (some name) =
      TerminalStrip.tabsForProject s.tabs (some name) := by
  refine ownFiltered (fun tab member here => ?_)
  simpa using fun same => still ⟨tab,member,same,here⟩

theorem editorsStay {s t : EditorStrip.Strip} {e : EditorStrip.Event} (still : ¬movesEditors s name e)
    (taken : EditorStrip.step s e = some t) :
    savedEditors (EditorStrip.tabsForProject t.tabs (some name)) =
      savedEditors (EditorStrip.tabsForProject s.tabs (some name)) := by
  cases e with
  | open_ project root path =>
    cases taken
    unfold EditorStrip.opens
    split
    · rfl
    · next missing =>
      have other : project ≠ name := fun same => still ⟨same,missing⟩
      exact congrArg savedEditors (ownAdded (List.forall_mem_singleton.mpr other))
  | restore project root saved =>
    cases taken
    exact congrArg (fun tabs => savedEditors (EditorStrip.tabsForProject tabs (some name)))
      (EditorStrip.resumeStays s ⟨project,root,saved.files,saved.active,[],none⟩).1
  | close key =>
    cases taken
    refine congrArg savedEditors (ownFiltered (fun tab member here => ?_))
    simpa using fun same => still ⟨tab,member,same,here⟩
  | closeProject project =>
    cases taken
    exact congrArg savedEditors (ownClosed (fun same => absurd same.symm still))
  | select project key => cases taken; rfl
  | setMode key mode =>
    cases taken
    refine ownMapped (fun tab => by split <;> rfl) (fun tab member here => ?_)
    have other : tab.key ≠ key := fun same => still ⟨tab,member,same,here⟩
    simp [other]
  | loaded i content =>
    obtain ⟨load,_,rfl⟩ := Option.map_eq_some_iff.mp taken
    exact ownMapped (fun tab => by split <;> rfl) (fun tab _ _ => by split <;> rfl)
  | loadFailed i message =>
    obtain ⟨load,_,rfl⟩ := Option.map_eq_some_iff.mp taken
    exact ownMapped (fun tab => by split <;> rfl) (fun tab _ _ => by split <;> rfl)
  | restoreRead i content =>
    simp only [EditorStrip.step] at taken
    split at taken
    · next project root files active opened key file found =>
      have other : project ≠ name := fun same => still ⟨_,Option.mem_toList.mpr found,same⟩
      cases taken
      rw [(EditorStrip.resumeStays _ _).1]
      exact congrArg savedEditors (ownAdded (List.forall_mem_singleton.mpr other))
    · cases taken
  | restoreFailed i =>
    simp only [EditorStrip.step] at taken
    split at taken
    · cases taken
      rw [(EditorStrip.resumeStays _ _).1]
    · cases taken
  | resolved i =>
    simp only [EditorStrip.step] at taken
    split at taken
    · cases taken; rfl
    · cases taken
  | render => cases taken; rfl
  | effect => cases taken; rfl

theorem terminalsStay {s : TerminalStrip.Strip} {e : TerminalStrip.Event} (still : ¬movesTerminals s name e) :
    savedTerminals (TerminalStrip.tabsForProject (TerminalStrip.step s e).tabs (some name)) =
      savedTerminals (TerminalStrip.tabsForProject s.tabs (some name)) := by
  cases e with
  | create project cwd autorun =>
    refine congrArg savedTerminals (ownAdded (fun tab member => ?_))
    cases List.mem_singleton.mp member
    exact still
  | close key => exact congrArg savedTerminals (closedStays still)
  | closeProject project => exact congrArg savedTerminals (ownClosed (fun same => absurd same.symm still))
  | rename key title =>
    show savedTerminals (TerminalStrip.tabsForProject (TerminalStrip.renameTab s.tabs key title) (some name)) = _
    unfold TerminalStrip.renameTab
    simp only
    split
    · rfl
    · refine ownMapped (fun tab => by split <;> rfl) (fun tab member here => ?_)
      have other : tab.key ≠ key := fun same => still ⟨tab,member,same,here⟩
      simp [other]
  | restart key =>
    exact ownMapped (fun tab => by split <;> rfl) (fun tab _ _ => by split <;> rfl)
  | onStatus key status =>
    show savedTerminals (TerminalStrip.tabsForProject (TerminalStrip.onStatus s key status).tabs (some name)) = _
    unfold TerminalStrip.onStatus
    split
    · next ends => exact congrArg savedTerminals (closedStays (fun there => still ⟨ends,there⟩))
    · refine ownMapped (fun tab => ?_) (fun tab _ _ => ?_)
      · split
        · cases status <;> rfl
        · rfl
      · split
        · cases status <;> rfl
        · rfl
  | select project key => rfl
  | restore project saved => exact congrArg savedTerminals (restoreStays still)
  | render => rfl
  | effect => rfl

end Strips

def names (list : List Project) : List Str := list.map Project.name

theorem recordName {previous : State} {live : LiveSession} {hydrated : List Str} {name : Str} {record : ProjectSession}
    (made : recordFor name previous live hydrated = some record) : record.name = name := by
  unfold recordFor at made
  split at made
  · cases made; rfl
  · simpa using List.find?_some made

theorem findRecords {previous : State} {live : LiveSession} {hydrated : List Str} {name : Str} (list : List Str) :
    (list.filterMap (fun name => recordFor name previous live hydrated)).find? (fun record => record.name = name) =
      if name ∈ list then recordFor name previous live hydrated else none := by
  induction list with
  | nil => rfl
  | cons first rest ih =>
    rw [List.filterMap_cons]
    cases made : recordFor first previous live hydrated with
    | none =>
      by_cases same : name = first
      · subst same
        simp [ih,made]
      · simp [ih,same]
    | some record =>
      have named := recordName made
      by_cases same : name = first
      · subst same
        simp [named,made]
      · have other : record.name ≠ name := fun equal => same (equal.symm.trans named)
        simp [ih,same,other]

theorem missingRecord {state : State} {name : Str} (missing : name ∉ state.projects.map ProjectSession.name) :
    projectSession state name = none := by
  refine List.find?_eq_none.mpr (fun record member => ?_)
  simpa using fun same => missing (List.mem_map.mpr ⟨record,member,same⟩)

theorem nextRecord {previous : State} {live : LiveSession} {hydrated registered : List Str} {name : Str}
    (registers : registered = [] ∧ (projectSession previous name).isSome ∨ name ∈ registered) :
    projectSession (nextSession previous live hydrated registered) name = recordFor name previous live hydrated := by
  show List.find? _ (List.filterMap _ _) = _
  rw [findRecords,if_pos]
  rcases registers with ⟨rfl,there⟩ | member
  · by_contra missing
    rw [missingRecord (by simpa using missing)] at there
    cases there
  · rw [if_pos (List.ne_nil_of_mem member)]
    exact member

theorem nextOffScreen {previous : State} {live : LiveSession} {hydrated registered : List Str} {name : Str}
    (off : ¬(some name = live.activeProject ∧ name ∈ hydrated))
    (registers : registered = [] ∨ name ∈ registered ∨ projectSession previous name = none) :
    projectSession (nextSession previous live hydrated registered) name = projectSession previous name := by
  have keeps : recordFor name previous live hydrated = projectSession previous name := if_neg off
  show List.find? _ (List.filterMap _ _) = _
  rw [findRecords,keeps]
  rcases registers with rfl | member | none_
  · have unlisted : (if ([] : List Str) ≠ [] then [] else previous.projects.map ProjectSession.name) =
        previous.projects.map ProjectSession.name := if_neg (by simp)
    rw [unlisted]
    by_cases there : name ∈ previous.projects.map ProjectSession.name
    · exact if_pos there
    · rw [if_neg there,missingRecord there]
  · rw [if_pos (List.ne_nil_of_mem member),if_pos member]
  · rw [none_,ite_self]

def Drawn (s : Bench) (name : Str) : Prop := s.drawn.hydrations = s.hydrations ∧ drawnListing s name = liveListing s name
instance (s name) : Decidable (Drawn s name) := by unfold Drawn; infer_instance

def Leaves (s : Bench) (next : Option Str) : Prop :=
  ∀ name ∈ s.hydrated, name ∈ names s.list → s.activeName = some name → next ≠ some name → Drawn s name
instance (s next) : Decidable (Leaves s next) := by unfold Leaves; infer_instance

/-- The session holds a project's record as it was loaded, and the effects still
to run will leave it there. -/
def Whole (s : Bench) (name : Str) : Prop :=
  ∀ state ∈ s.loaded.toList, projectSession s.current name = projectSession state name ∧
    (s.pending = true → s.drawn.loaded = none ∨ s.drawn.list = [] ∨ name ∈ names s.drawn.list ∨
      projectSession state name = none)
instance (s name) : Decidable (Whole s name) := by unfold Whole; infer_instance

def Enters (s : Bench) (list : List Project) : Prop :=
  ∀ name ∈ names list, name ∉ names s.list → name ∉ s.hydrated ∧ Whole s name
instance (s list) : Decidable (Enters s list) := by unfold Enters; infer_instance

/-- The strips of a hydrated project change only on screen, a project leaves the
screen only as it was last drawn, and none comes back to the list. -/
def InPlace (s : Bench) : Event → Prop
  | .listed list => Enters s list ∧ Leaves s (selectionAfterReload list s.activeName)
  | .relisted list => Enters s list
  | .select name => Leaves s (some name)
  | .removeProject name =>
    Leaves s (selectionAfterRemove s.drawn.list name s.activeName) ∧
      (name ∈ s.hydrated → name ∈ names s.list → liveListing s name = ⟨[],[]⟩)
  | .editors e => ∀ name ∈ s.hydrated, name ∈ names s.list → movesEditors s.editors name e → s.activeName = some name
  | .terminals e => ∀ name ∈ s.hydrated, name ∈ names s.list → movesTerminals s.terminals name e → s.activeName = some name
  | .hydrated i => ∀ h ∈ (s.hydrating[i]?).toList, h.project ∈ names s.list → s.activeName = some h.project
  | _ => True
instance (s e) : Decidable (InPlace s e) :=
  match e with
  | .listed list => inferInstanceAs (Decidable (Enters s list ∧ Leaves s (selectionAfterReload list s.activeName)))
  | .relisted list => inferInstanceAs (Decidable (Enters s list))
  | .select name => inferInstanceAs (Decidable (Leaves s (some name)))
  | .removeProject name =>
    inferInstanceAs (Decidable (Leaves s (selectionAfterRemove s.drawn.list name s.activeName) ∧
      (name ∈ s.hydrated → name ∈ names s.list → liveListing s name = ⟨[],[]⟩)))
  | .editors e =>
    inferInstanceAs (Decidable
      (∀ name ∈ s.hydrated, name ∈ names s.list → movesEditors s.editors name e → s.activeName = some name))
  | .terminals e =>
    inferInstanceAs (Decidable
      (∀ name ∈ s.hydrated, name ∈ names s.list → movesTerminals s.terminals name e → s.activeName = some name))
  | .hydrated i =>
    inferInstanceAs (Decidable
      (∀ h ∈ (s.hydrating[i]?).toList, h.project ∈ names s.list → s.activeName = some h.project))
  | .render | .effects | .loadAnswered _ | .setWorkspace _ | .treeMoved _ _ | .treeListed _ => isTrue trivial

def Saved (s : Bench) (name : Str) : Prop :=
  savedListing s name = some (drawnListing s name) ∧ (s.pending = true → s.drawn.list = [] ∨ name ∈ names s.drawn.list)

def Due (s : Bench) (name : Str) : Prop :=
  s.pending = true ∧ s.drawn.activeName = some name ∧ name ∈ names s.drawn.list

structure Kept (s : Bench) (name : Str) : Prop where
  away : s.activeName ≠ some name → drawnListing s name = liveListing s name
  saved : Saved s name ∨ Due s name ∨ s.activeName = some name ∧ s.drawn.hydrations ≠ s.hydrations

structure Course (s : Bench) : Prop where
  loaded : s.drawn.loaded ≠ none → s.loaded ≠ none
  begun : s.hydrating ≠ [] ∨ s.hydrated ≠ [] → s.drawn.loaded ≠ none ∧ s.drawn.restoring = false
  restored : s.drawn.restoring = false → s.restoring = false
  hydrations : s.drawn.hydrations ≤ s.hydrations

structure Ledger (s : Bench) : Prop where
  course : Course s
  kept : ∀ name ∈ names s.list, name ∈ s.hydrated → Kept s name
  whole : ∀ name ∈ names s.list, name ∉ s.hydrated → Whole s name

structure Quiet (s t : Bench) : Prop where
  drawn : t.drawn = s.drawn
  pending : t.pending = s.pending
  current : t.current = s.current
  loaded : t.loaded = s.loaded
  restoring : t.restoring = s.restoring

theorem Course.quiet {s t : Bench} (course : Course s) (quiet : Quiet s t) (hydrations : s.hydrations ≤ t.hydrations)
    (begun : t.hydrating ≠ [] ∨ t.hydrated ≠ [] → s.hydrating ≠ [] ∨ s.hydrated ≠ []) : Course t := by
  obtain ⟨drawn,_,_,loaded,restoring⟩ := quiet
  refine ⟨?_,?_,?_,?_⟩
  · rw [drawn,loaded]; exact course.loaded
  · rw [drawn]; exact fun there => course.begun (begun there)
  · rw [drawn,restoring]; exact course.restored
  · rw [drawn]; exact le_trans course.hydrations hydrations

theorem Whole.quiet {s t : Bench} {name : Str} (whole : Whole s name) (quiet : Quiet s t) : Whole t name := by
  unfold Whole
  rw [quiet.drawn,quiet.pending,quiet.current,quiet.loaded]
  exact whole

theorem Kept.quiet {s t : Bench} {name : Str} (kept : Kept s name) (quiet : Quiet s t) (hydrations : s.hydrations ≤ t.hydrations)
    (later : s.drawn.hydrations ≤ s.hydrations)
    (still : s.activeName ≠ some name → liveListing t name = liveListing s name)
    (left : t.activeName ≠ some name → s.activeName = some name → s.drawn.hydrations = s.hydrations ∧
      drawnListing s name = liveListing t name) : Kept t name := by
  have draws : drawnListing t name = drawnListing s name := by
    unfold drawnListing
    rw [quiet.drawn]
  refine ⟨?_,?_⟩
  · intro off
    rw [draws]
    by_cases was : s.activeName = some name
    · exact (left off was).2
    · rw [still was]
      exact kept.away was
  · unfold Saved Due savedListing
    rw [draws,quiet.drawn,quiet.pending,quiet.current]
    rcases kept.saved with saved | due | ⟨was,fresh⟩
    · exact Or.inl saved
    · exact Or.inr (Or.inl due)
    · by_cases on : t.activeName = some name
      · exact Or.inr (Or.inr ⟨on,by omega⟩)
      · exact absurd (left on was).1 fresh

structure Idle (s t : Bench) : Prop where
  quiet : Quiet s t
  hydrations : t.hydrations = s.hydrations
  hydrated : t.hydrated = s.hydrated
  hydrating : t.hydrating = s.hydrating

theorem Ledger.idle {s t : Bench} (ledger : Ledger s) (idle : Idle s t) (enters : Enters s t.list)
    (still : ∀ name ∈ s.hydrated, name ∈ names s.list → s.activeName ≠ some name → liveListing t name = liveListing s name)
    (left : ∀ name ∈ s.hydrated, name ∈ names s.list → s.activeName = some name → t.activeName ≠ some name →
      s.drawn.hydrations = s.hydrations ∧ drawnListing s name = liveListing t name) : Ledger t := by
  obtain ⟨quiet,hydrations,hydrated,hydrating⟩ := idle
  obtain ⟨course,kept,whole⟩ := ledger
  refine ⟨course.quiet quiet (by omega) (by rw [hydrated,hydrating]; exact id),?_,?_⟩
  · rw [hydrated]
    intro name listed member
    by_cases old : name ∈ names s.list
    · exact (kept name old member).quiet quiet (by omega) course.hydrations (still name member old)
        (fun off was => left name member old was off)
    · exact absurd member (enters name listed old).1
  · rw [hydrated]
    intro name listed fresh
    by_cases old : name ∈ names s.list
    · exact (whole name old fresh).quiet quiet
    · exact (enters name listed old).2.quiet quiet

theorem entersSame (s : Bench) : Enters s s.list := fun _ member absent => absurd member absent

theorem Ledger.still {s t : Bench} (ledger : Ledger s) (idle : Idle s t) (enters : Enters s t.list)
    (active : t.activeName = s.activeName)
    (still : ∀ name ∈ s.hydrated, name ∈ names s.list → s.activeName ≠ some name → liveListing t name = liveListing s name) :
    Ledger t :=
  ledger.idle idle enters still (fun _ _ _ was off => absurd (active.trans was) off)

theorem Ledger.goes {s t : Bench} (ledger : Ledger s) (idle : Idle s t) (enters : Enters s t.list)
    (leaves : Leaves s t.activeName) (still : ∀ name, liveListing t name = liveListing s name) : Ledger t := by
  refine ledger.idle idle enters (fun name _ _ _ => still name) ?_
  intro name member listed was off
  rw [still]
  exact leaves name member listed was off

theorem ledgerRender {s : Bench} (ledger : Ledger s) (ran : s.pending = false) : Ledger (render s) := by
  obtain ⟨course,kept,whole⟩ := ledger
  refine ⟨⟨id,?_,id,le_refl _⟩,?_,?_⟩
  · intro begun
    have ready := course.begun begun
    exact ⟨course.loaded ready.1,course.restored ready.2⟩
  · intro name listed member
    have old := kept name listed member
    refine ⟨fun _ => rfl,?_⟩
    by_cases on : s.activeName = some name
    · exact Or.inr (Or.inl ⟨rfl,on,listed⟩)
    · rcases old.saved with saved | due | ⟨was,_⟩
      · refine Or.inl ⟨?_,fun _ => Or.inr listed⟩
        show savedListing s name = some (liveListing s name)
        rw [saved.1,old.away on]
      · exact absurd (ran.symm.trans due.1) Bool.false_ne_true
      · exact absurd was on
  · intro name listed fresh state member
    exact ⟨(whole name listed fresh state member).1,fun _ => Or.inr (Or.inr (Or.inl listed))⟩

theorem ledgerEffects {s : Bench} (ledger : Ledger s) (waits : s.pending = true) : Ledger (effects s) := by
  have ran := effectsRan s
  obtain ⟨course,kept,whole⟩ := ledger
  refine ⟨⟨?_,?_,?_,?_⟩,?_,?_⟩
  · rw [ran.drawn,ran.loaded]; exact course.loaded
  · rw [ran.drawn,ran.hydrated]
    rintro (hydrating | hydrated)
    · rcases ran.hydrating hydrating with old | ready
      · exact course.begun (Or.inl old)
      · exact ready
    · exact course.begun (Or.inr hydrated)
  · rw [ran.drawn]
    intro restored
    rw [(ran.selected (Or.inr restored)).1]
    exact course.restored restored
  · rw [ran.drawn,ran.hydrations]; exact course.hydrations
  · rw [ran.list,ran.hydrated]
    intro name listed member
    obtain ⟨away,saved⟩ := kept name listed member
    obtain ⟨loaded,restored⟩ := course.begun (Or.inr (List.ne_nil_of_mem member))
    have live : liveListing (effects s) name = liveListing s name := by
      unfold liveListing
      rw [ran.editors,ran.terminals]
    have draws : drawnListing (effects s) name = drawnListing s name := by
      unfold drawnListing
      rw [ran.drawn]
    refine ⟨?_,?_⟩
    · rw [draws,live,(ran.selected (Or.inr restored)).2]
      exact away
    · have record : s.drawn.list = [] ∧ (projectSession s.current name).isSome ∨ name ∈ names s.drawn.list →
          projectSession (effects s).current name = recordFor name s.current s.drawn.live s.hydrated := by
        intro registers
        rw [ran.recorded loaded]
        refine nextRecord (registers.imp_left (fun ⟨none_,there⟩ => ⟨by rw [none_]; rfl,there⟩))
      have live : s.drawn.activeName = some name →
          (recordFor name s.current s.drawn.live s.hydrated).map recordListing = some (drawnListing s name) := by
        intro on
        have here : some name = s.drawn.live.activeProject := on.symm
        unfold recordFor
        rw [if_pos ⟨here,member⟩]
        simp only [Option.map_some,recordListing,liveRecord,drawnListing,listingSaved,View.live,on]
      have done : (effects s).pending = true → (effects s).drawn.list = [] ∨ name ∈ names (effects s).drawn.list :=
        fun waits => absurd (ran.pending.symm.trans waits) Bool.false_ne_true
      rcases saved with ⟨saved,listed⟩ | due | fresh
      · have there : (projectSession s.current name).isSome := by
          have saved : (projectSession s.current name).map recordListing = some (drawnListing s name) := saved
          cases found : projectSession s.current name with
          | none => rw [found] at saved; cases saved
          | some record => rfl
        refine Or.inl ⟨?_,done⟩
        show (projectSession (effects s).current name).map recordListing = _
        rw [record ((listed waits).imp_left (fun none_ => ⟨none_,there⟩)),draws]
        by_cases on : s.drawn.activeName = some name
        · exact live on
        · have off : ¬(some name = s.drawn.live.activeProject ∧ name ∈ s.hydrated) := fun here => on here.1.symm
          unfold recordFor
          rw [if_neg off]
          exact saved
      · refine Or.inl ⟨?_,done⟩
        show (projectSession (effects s).current name).map recordListing = _
        rw [record (Or.inr due.2.2),live due.2.1,draws]
      · refine Or.inr (Or.inr ?_)
        rw [ran.drawn,ran.hydrations,(ran.selected (Or.inr restored)).2]
        exact fresh
  · rw [ran.list,ran.hydrated]
    intro name listed fresh state member
    rw [ran.loaded] at member
    obtain ⟨same,stays⟩ := whole name listed fresh state member
    refine ⟨?_,fun still => absurd (ran.pending.symm.trans still) Bool.false_ne_true⟩
    by_cases loaded : s.drawn.loaded = none
    · rw [ran.waiting loaded]
      exact same
    · rw [ran.recorded loaded,nextOffScreen (fun here => fresh here.2) ?_,same]
      rcases stays waits with none_ | none_ | listed | none_
      · exact absurd none_ loaded
      · exact Or.inl (by rw [none_]; rfl)
      · exact Or.inr (Or.inl listed)
      · exact Or.inr (Or.inr (same.trans none_))

theorem ledgerHydrated {s t : Bench} {i : Nat} (ledger : Ledger s) (allowed : InPlace s (.hydrated i))
    (taken : step s (.hydrated i) = some t) : Ledger t := by
  simp only [step] at taken
  split at taken
  · cases taken
  · next h found =>
    obtain ⟨editors,resolves,rfl⟩ := Option.map_eq_some_iff.mp taken
    have arrived : h.project ∈ names s.list → s.activeName = some h.project :=
      allowed h (Option.mem_toList.mpr found)
    obtain ⟨course,kept,whole⟩ := ledger
    have begun : s.hydrating ≠ [] := List.ne_nil_of_mem (List.mem_of_getElem? found)
    refine ⟨course.quiet ⟨rfl,rfl,rfl,rfl,rfl⟩ (Nat.le_succ _) (fun _ => Or.inl begun),?_,?_⟩
    · intro name listed member
      by_cases same : h.project = name
      · subst same
        have on := arrived listed
        refine ⟨fun off => absurd on off,Or.inr (Or.inr ⟨on,?_⟩)⟩
        show s.drawn.hydrations ≠ s.hydrations + 1
        have := course.hydrations
        omega
      · have old : name ∈ s.hydrated := (List.mem_cons.mp member).resolve_left (fun equal => same equal.symm)
        refine (kept name listed old).quiet ⟨rfl,rfl,rfl,rfl,rfl⟩ (Nat.le_succ _) course.hydrations ?_
          (fun off was => absurd was off)
        intro _
        unfold liveListing
        rw [listingSaved,listingSaved,restoreStays same,editorsStay (e := .resolved i) id resolves]
    · intro name listed fresh
      have old : name ∉ s.hydrated := fun member => fresh (List.mem_cons_of_mem _ member)
      exact (whole name listed old).quiet ⟨rfl,rfl,rfl,rfl,rfl⟩

theorem ledgerLoaded {s : Bench} {state : State} (ledger : Ledger s) (waits : s.loaded = none) :
    Ledger { s with current := state, workspace := (restoredWorkspace state).settings, loaded := some state } := by
  obtain ⟨course,kept,whole⟩ := ledger
  have unread : s.drawn.loaded = none := by
    by_contra there
    exact course.loaded there waits
  have fresh : ∀ name, name ∉ s.hydrated :=
    fun name member => (course.begun (Or.inr (List.ne_nil_of_mem member))).1 unread
  refine ⟨⟨fun _ => Option.some_ne_none _,course.begun,course.restored,course.hydrations⟩,?_,?_⟩
  · exact fun name _ member => absurd member (fresh name)
  · intro name _ _ answered member
    cases Option.mem_toList.mp member
    exact ⟨rfl,fun _ => Or.inl unread⟩

theorem ledgerRemoved {s : Bench} {name : Str} (ledger : Ledger s) (allowed : InPlace s (.removeProject name)) :
    Ledger (removeProject s name) := by
  obtain ⟨leaves,bare⟩ := allowed
  have still : ∀ other ∈ s.hydrated, other ∈ names s.list → liveListing (removeProject s name) other = liveListing s other := by
    intro other member listed
    have open_ : other = name → liveListing s other = ⟨[],[]⟩ := fun same => same ▸ bare (same ▸ member) (same ▸ listed)
    have editors : EditorStrip.tabsForProject (EditorStrip.closeProject s.editors name).tabs (some other) =
        EditorStrip.tabsForProject s.editors.tabs (some other) :=
      ownClosed (fun same => List.map_eq_nil_iff.mp (congrArg Listing.editors (open_ same)))
    have terminals : TerminalStrip.tabsForProject (TerminalStrip.closeProject s.terminals name).tabs (some other) =
        TerminalStrip.tabsForProject s.terminals.tabs (some other) :=
      ownClosed (fun same => List.map_eq_nil_iff.mp (congrArg Listing.terminals (open_ same)))
    show listing _ _ other = listing _ _ other
    rw [listingSaved,listingSaved,show (removeProject s name).editors = EditorStrip.closeProject s.editors name from rfl,editors,
      show (removeProject s name).terminals = TerminalStrip.closeProject s.terminals name from rfl,terminals]
  exact ledger.idle ⟨⟨rfl,rfl,rfl,rfl,rfl⟩,rfl,rfl,rfl⟩ (entersSame s) (fun other member listed _ => still other member listed)
    (fun other member listed was off => (still other member listed) ▸ leaves other member listed was off)

theorem ledgerKept {s t : Bench} {e : Event} (ledger : Ledger s) (allowed : InPlace s e) (taken : step s e = some t) :
    Ledger t := by
  cases e with
  | render =>
    simp only [step] at taken
    split at taken
    · cases taken
    · next ran => cases taken; exact ledgerRender ledger (Bool.eq_false_iff.mpr ran)
  | effects =>
    obtain ⟨waits,ran⟩ := Option.ite_none_right_eq_some.mp taken
    cases ran
    exact ledgerEffects ledger waits
  | loadAnswered state =>
    obtain ⟨waits,moved⟩ := Option.ite_none_right_eq_some.mp taken
    cases moved
    exact ledgerLoaded ledger waits
  | listed list => cases taken; exact ledger.goes ⟨⟨rfl,rfl,rfl,rfl,rfl⟩,rfl,rfl,rfl⟩ allowed.1 allowed.2 (fun _ => rfl)
  | relisted list =>
    cases taken
    exact ledger.still ⟨⟨rfl,rfl,rfl,rfl,rfl⟩,rfl,rfl,rfl⟩ allowed rfl (fun _ _ _ _ => rfl)
  | select name =>
    cases taken
    exact ledger.goes ⟨⟨rfl,rfl,rfl,rfl,rfl⟩,rfl,rfl,rfl⟩ (entersSame s) allowed (fun _ => rfl)
  | removeProject name => cases taken; exact ledgerRemoved ledger allowed
  | setWorkspace settings =>
    cases taken
    exact ledger.still ⟨⟨rfl,rfl,rfl,rfl,rfl⟩,rfl,rfl,rfl⟩ (entersSame s) rfl (fun _ _ _ _ => rfl)
  | treeMoved root tree =>
    cases taken
    obtain ⟨trees,same⟩ := updateTreeOnly s root (fun _ => tree)
    rw [same]
    exact ledger.still ⟨⟨rfl,rfl,rfl,rfl,rfl⟩,rfl,rfl,rfl⟩ (entersSame s) rfl (fun _ _ _ _ => rfl)
  | treeListed root =>
    cases taken
    obtain ⟨trees,same⟩ := updateTreeOnly s root id
    rw [same]
    exact ledger.still ⟨⟨rfl,rfl,rfl,rfl,rfl⟩,rfl,rfl,rfl⟩ (entersSame s) rfl (fun _ _ _ _ => rfl)
  | editors e =>
    simp only [step] at taken
    split at taken
    · cases taken
    · obtain ⟨editors,moved,rfl⟩ := Option.map_eq_some_iff.mp taken
      refine ledger.still ⟨⟨rfl,rfl,rfl,rfl,rfl⟩,rfl,rfl,rfl⟩ (entersSame s) rfl ?_
      intro name member listed off
      have still : ¬movesEditors s.editors name e := fun moves => off (allowed name member listed moves)
      unfold liveListing
      rw [listingSaved,listingSaved,editorsStay still moved]
  | terminals e =>
    simp only [step] at taken
    split at taken
    · cases taken
    · cases taken
      refine ledger.still ⟨⟨rfl,rfl,rfl,rfl,rfl⟩,rfl,rfl,rfl⟩ (entersSame s) rfl ?_
      intro name member listed off
      have still : ¬movesTerminals s.terminals name e := fun moves => off (allowed name member listed moves)
      unfold liveListing
      rw [listingSaved,listingSaved,terminalsStay still]
  | hydrated i => exact ledgerHydrated ledger allowed taken

theorem ledgerLaunch : Ledger launch := by
  refine ⟨⟨fun there => absurd rfl there,?_,?_,le_refl _⟩,?_,?_⟩
  · rintro (there | there) <;> exact absurd rfl there
  · intro restored
    cases restored
  · exact fun name listed => absurd listed List.not_mem_nil
  · exact fun name listed => absurd listed List.not_mem_nil

def Settled (s : Bench) : Prop := s.pending = false ∧ s.drawn = s.view
instance (s) : Decidable (Settled s) := by unfold Settled; infer_instance

def Recorded (s : Bench) : Prop :=
  ∀ state ∈ s.loaded.toList, ∀ project ∈ s.list,
    (project.name ∈ s.hydrated → savedListing s project.name = some (liveListing s project.name)) ∧
      (project.name ∉ s.hydrated → entryOf s.current project.name = entryOf state project.name)
instance (s) : Decidable (Recorded s) := by unfold Recorded; infer_instance

variable {s : Bench} {es : List Event}

theorem everyProjectIsRecorded (run : Run step InPlace launch es s) (settled : Settled s) : Recorded s := by
  have ledger : Ledger s := run.invariant ledgerLaunch (fun _ _ _ ledger allowed taken => ledgerKept ledger allowed taken)
  obtain ⟨ran,drawn⟩ := settled
  intro state loaded project listed
  have here : project.name ∈ names s.list := List.mem_map_of_mem listed
  refine ⟨?_,?_⟩
  · intro member
    have draws : drawnListing s project.name = liveListing s project.name := by
      unfold drawnListing
      rw [drawn]
      rfl
    rcases (ledger.kept project.name here member).saved with saved | due | ⟨_,fresh⟩
    · rw [saved.1,draws]
    · exact absurd (ran.symm.trans due.1) Bool.false_ne_true
    · exact absurd (by rw [drawn]; rfl) fresh
  · intro fresh
    exact (ledger.whole project.name here fresh state loaded).1

def shells : State :=
  { emptySession with
    activeProject := "a".toList
    projects := [⟨"a".toList,[⟨"main".toList,"edit".toList⟩],"main".toList,[⟨"shell 1".toList,[]⟩],0,[],[],false⟩,
      ⟨"b".toList,[],[],[⟨"logs".toList,"/b/x".toList⟩],0,[],[],false⟩] }

def pair : List Project := [⟨"a".toList,"/a".toList⟩,⟨"b".toList,"/b".toList⟩]

def resumed : List Event :=
  [.effects,.listed pair,.loadAnswered shells,.render,.effects,.render,.effects,.editors (.restoreRead 0 (Editor.plainText "x")),.hydrated 0,
    .render,.effects]

def workday : List Event :=
  resumed ++ [.terminals (.create "a".toList "/a/y".toList none),.terminals (.rename 1 "top".toList),
    .editors (.setMode 1 .preview),.render,.effects,.select "b".toList,.render,.effects,.render,.effects]

theorem everyProjectIsRecordedWorking :
    ∃ s, Run step InPlace launch workday s ∧ Settled s ∧
      s.current.projects.map (fun record => (record.editors,record.terminals)) =
        [([⟨"main".toList,"preview".toList⟩],[⟨"top".toList,"/a".toList⟩,⟨"shell 2".toList,"/a/y".toList⟩]),
          ([],[⟨"logs".toList,"/b/x".toList⟩])] ∧
      liveListing s "a".toList =
        ⟨[⟨"main".toList,"preview".toList⟩],[⟨"top".toList,"/a".toList⟩,⟨"shell 2".toList,"/a/y".toList⟩]⟩ ∧ Recorded s := by
  have ends : (exec (guarded step InPlace) launch workday).map (fun s =>
      (decide (Settled s),s.current.projects.map (fun record => (record.editors,record.terminals)),
        liveListing s "a".toList)) =
      some (true,[([⟨"main".toList,"preview".toList⟩],[⟨"top".toList,"/a".toList⟩,⟨"shell 2".toList,"/a/y".toList⟩]),
          ([],[⟨"logs".toList,"/b/x".toList⟩])],
        ⟨[⟨"main".toList,"preview".toList⟩],[⟨"top".toList,"/a".toList⟩,⟨"shell 2".toList,"/a/y".toList⟩]⟩) := by
    decide +kernel
  obtain ⟨s,done,seen⟩ := Option.map_eq_some_iff.mp ends
  obtain ⟨settled,seen⟩ := Prod.mk.inj seen
  obtain ⟨recorded,live⟩ := Prod.mk.inj seen
  have settled := of_decide_eq_true settled
  exact ⟨s,runOfGuarded done,settled,recorded,live,everyProjectIsRecorded (runOfGuarded done) settled⟩

/-- A shell that ends while another project is on screen stays on record, and
one opened in the same batch as the switch away never gets there. -/
theorem recordMissesOffScreen :
    (∃ s, Run step anyStep launch
        (resumed ++ [.select "b".toList,.render,.effects,.terminals (.onStatus 1 (.exited 0)),.render,.effects]) s ∧
      Settled s ∧ ¬Recorded s) ∧
      ∃ s, Run step anyStep launch
        (resumed ++ [.terminals (.create "a".toList "/a".toList none),.select "b".toList,.render,.effects,.render,
          .effects]) s ∧
      Settled s ∧ ¬Recorded s := by
  refine ⟨?_,?_⟩
  · have ends : (exec step launch
        (resumed ++ [.select "b".toList,.render,.effects,.terminals (.onStatus 1 (.exited 0)),.render,.effects])).map
        (fun s => decide (Settled s ∧ ¬Recorded s)) = some true := by decide +kernel
    obtain ⟨s,done,seen⟩ := Option.map_eq_some_iff.mp ends
    exact ⟨s,runOfExec done,of_decide_eq_true seen⟩
  · have ends : (exec step launch
        (resumed ++ [.terminals (.create "a".toList "/a".toList none),.select "b".toList,.render,.effects,.render,
          .effects])).map
        (fun s => decide (Settled s ∧ ¬Recorded s)) = some true := by decide +kernel
    obtain ⟨s,done,seen⟩ := Option.map_eq_some_iff.mp ends
    exact ⟨s,runOfExec done,of_decide_eq_true seen⟩

end M6t.SessionRecord
