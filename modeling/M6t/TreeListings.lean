import M6t.FileTree
import M6t.Runs

/-! The hook behind the file tree: every project's tree as the queued updates
leave it, the tree the last render drew, and the ref that the handlers read,
which the effects of a render set. A listing is in flight until its answer lands,
and answers land in any order. -/
namespace M6t.TreeListings
open M6t.Text M6t.ProjectTrees M6t.FileTree M6t.Runs
open M6t.Editor (ROOT parentPath)

abbrev Reply := Except Str (List Entry)

structure Call where
  root : Str
  dir : Str
  reply : Option Reply
  deriving DecidableEq, Repr

structure Change where
  root : Str
  dir : Str
  removed : Option Str
  deriving DecidableEq, Repr

/-- `calls` are all listings ever asked for, oldest first. -/
structure State where
  trees : ProjectTrees TreeState
  held : List Str
  root : Option Str
  drawn : TreeState
  due : Bool
  followed : Option Str
  known : TreeState
  calls : List Call
  changes : List Change
  deriving DecidableEq, Repr

def fresh : State := ⟨[],[],none,initialTree,false,none,initialTree,[],[]⟩

def updateTree (s : State) (project : Str) (change : TreeState → TreeState) : State :=
  if project ∈ s.held then { s with trees := withTree s.trees project (change (treeFor s.trees (some project))) } else s

def updateActive (s : State) (root : Option Str) (change : TreeState → TreeState) : State :=
  match root with
  | none => s
  | some project => updateTree s project change

def list (s : State) (root : Option Str) (dir : Str) : State :=
  match root with
  | none => s
  | some forRoot =>
    let t := updateTree s forRoot (fun current => withLoading current dir)
    { t with calls := t.calls ++ [⟨forRoot,dir,none⟩] }

def lists (s : State) (root : Option Str) (dirs : List Str) : State := dirs.foldl (fun s dir => list s root dir) s

def unrecorded (s : State) (dirs : List Str) : List Str := dirs.filter (fun dir => ¬ inRecord s.known.dirs dir)

def revealDir (s : State) (dir : Str) : State :=
  lists (updateActive s s.root (fun current => reveal current dir)) s.root (unrecorded s (ancestry dir))

def locateFile (s : State) (path : Str) : State :=
  lists (updateActive s s.root (fun current => locate current path)) s.root (unrecorded s (ancestry (parentPath path)))

def restoreTreeState (s : State) (saved : RestoredTree) : State :=
  lists (updateActive s s.root (fun current => restoreTree current saved)) s.root
    (saved.expanded.filter (fun dir => dir ≠ ROOT))

def runEffects (s : State) : State :=
  let t := { s with known := s.drawn, due := false, followed := s.root }
  if s.root = s.followed then t
  else
    match s.root with
    | none => t
    | some project =>
      let held := if project ∈ s.held then s.held else s.held ++ [project]
      lists { t with held } s.root (openDirs s.drawn)

def land (s : State) (call : Call) (reply : Reply) : State :=
  updateTree s call.root (fun current =>
    match reply with
    | .ok entries => withListing current call.dir entries
    | .error message => withError current call.dir message)

def finished (s : State) (change : Change) : State :=
  let t := list s (some change.root) change.dir
  match change.removed with
  | none => t
  | some path =>
    updateTree t change.root (fun current => if current.selected = some path then select current none else current)

def closeProject (s : State) (closing : Str) : State :=
  { s with held := s.held.filter (fun root => root ≠ closing), trees := withoutTree s.trees closing }

def ask (s : State) (dir : Str) (removed : Option Str) : State :=
  match s.root with
  | none => s
  | some root => { s with changes := s.changes ++ [⟨root,dir,removed⟩] }

inductive Event
  | render (root : Option Str)
  | effects
  | expand (dir : Str)
  | collapse (dir : Str)
  | select (path : Option Str)
  | reveal (dir : Str)
  | locate (path : Str)
  | restore (saved : RestoredTree)
  | toggleHidden
  | toggleChangedOnly
  | createEntry (dir name : Str) (isDir : Bool)
  | renameEntry (path newName : Str)
  | deleteEntry (path : Str)
  | changed (i : Nat) (ok : Bool)
  | tree (changedRoot : Str) (dirs : List Str)
  | answer (i : Nat) (reply : Reply)
  | closeProject (root : Str)
  deriving DecidableEq, Repr

def step (s : State) : Event → Option State
  | .render root => if s.due then none else some { s with root, drawn := treeFor s.trees root, due := true }
  | .effects => if s.due then some (runEffects s) else none
  | .expand dir => some (list (updateActive s s.root (fun current => FileTree.expand current dir)) s.root dir)
  | .collapse dir => some (updateActive s s.root (fun current => FileTree.collapse current dir))
  | .select path => some (updateActive s s.root (fun current => FileTree.select current path))
  | .reveal dir => some (revealDir s dir)
  | .locate path => some (locateFile s path)
  | .restore saved => some (restoreTreeState s saved)
  | .toggleHidden => some (updateActive s s.root FileTree.toggleHidden)
  | .toggleChangedOnly => some (updateActive s s.root FileTree.toggleChangedOnly)
  | .createEntry dir _ _ => some (ask s dir none)
  | .renameEntry path _ => some (ask s (parentPath path) none)
  | .deleteEntry path => some (ask s (parentPath path) (some path))
  | .changed i ok =>
    (s.changes[i]?).map (fun change =>
      let t := { s with changes := s.changes.eraseIdx i }
      if ok then finished t change else t)
  | .tree changedRoot dirs =>
    some (if s.followed = some changedRoot then lists s s.followed (affectedTrackedDirs s.known dirs) else s)
  | .answer i reply =>
    match s.calls[i]? with
    | some ⟨root,dir,none⟩ =>
      let call : Call := ⟨root,dir,some reply⟩
      some (land { s with calls := s.calls.set i call } call reply)
    | _ => none
  | .closeProject root => some (closeProject s root)

def asked (calls : List Call) (root dir : Str) : List Call := calls.filter (fun call => call.root = root ∧ call.dir = dir)

def Answered (calls : List Call) (root dir : Str) : Prop := ∀ call ∈ asked calls root dir, call.reply ≠ none
instance (calls root dir) : Decidable (Answered calls root dir) := by unfold Answered; infer_instance

def replied (calls : List Call) (i : Nat) (call : Call) (reply : Reply) : List Call :=
  calls.set i { call with reply := some reply }

def latest (calls : List Call) (root dir : Str) : Option (List Entry) :=
  ((asked calls root dir).getLast?.bind Call.reply).bind Except.toOption

def shownAt (s : State) (root dir : Str) : Option DirState := (dirsAt s.trees root).lookup dir

def Latest (root dir : Str) (s : State) : Prop :=
  Answered s.calls root dir → ∀ entries ∈ latest s.calls root dir,
    shownAt s root dir = some ⟨.loaded,listed dir entries,none⟩

/-- The answer after which none is in flight is the one of the latest listing, or
the same, or that one failed; a project is closed only while a listing is in
flight or where the latest failed. -/
def meets (root dir : Str) (s : State) : Event → Prop
  | .answer i reply => ∀ call ∈ s.calls[i]?, call.root = root → call.dir = dir →
      Answered (replied s.calls i call reply) root dir →
        ∀ entries ∈ latest (replied s.calls i call reply) root dir, root ∈ s.held ∧ reply = .ok entries
  | .closeProject closing => closing = root → Answered s.calls root dir → latest s.calls root dir = none
  | _ => True
instance (root dir : Str) (s : State) : ∀ e, Decidable (meets root dir s e)
  | .answer i reply => inferInstanceAs (Decidable (∀ call ∈ s.calls[i]?, call.root = root → call.dir = dir →
      Answered (replied s.calls i call reply) root dir →
        ∀ entries ∈ latest (replied s.calls i call reply) root dir, root ∈ s.held ∧ reply = .ok entries))
  | .closeProject closing =>
    inferInstanceAs (Decidable (closing = root → Answered s.calls root dir → latest s.calls root dir = none))
  | .render _ | .effects | .expand _ | .collapse _ | .select _ | .reveal _ | .locate _ | .restore _ | .toggleHidden
  | .toggleChangedOnly | .createEntry .. | .renameEntry .. | .deleteEntry _ | .changed .. | .tree .. =>
    inferInstanceAs (Decidable True)

variable {s t u : State} {root dir : Str}

theorem updateKeeps (s : State) (project : Str) (change : TreeState → TreeState) :
    ∃ trees, updateTree s project change = { s with trees } := by
  unfold updateTree
  split
  · exact ⟨_,rfl⟩
  · exact ⟨s.trees,rfl⟩

theorem updateCalls (s : State) (project : Str) (change : TreeState → TreeState) :
    (updateTree s project change).calls = s.calls := by
  obtain ⟨trees,same⟩ := updateKeeps s project change
  rw [same]

theorem updateDirs (s : State) (project : Str) (change : TreeState → TreeState) (root : Str) :
    dirsAt (updateTree s project change).trees root =
      if root = project ∧ project ∈ s.held then (change (treeFor s.trees (some project))).dirs else dirsAt s.trees root := by
  unfold updateTree
  by_cases held : project ∈ s.held
  · rw [if_pos held,dirsWithTree]
    simp [held]
  · rw [if_neg held,if_neg (fun both => held both.2)]

def Bare (s : State) : Prop := ∀ root, root ∉ s.held → s.trees.lookup root = none

def Moves (root dir : Str) (s t : State) : Prop :=
  (asked t.calls root dir = asked s.calls root dir ∧ shownAt t root dir = shownAt s root dir) ∨
    ¬ Answered t.calls root dir

theorem movesSelf (s : State) : Moves root dir s s := .inl ⟨rfl,rfl⟩

theorem movesThen (first : Moves root dir s t) (second : Moves root dir t u) : Moves root dir s u := by
  rcases second with ⟨calls,shown⟩ | waits
  · rcases first with ⟨before,was⟩ | waits
    · exact .inl ⟨calls.trans before,shown.trans was⟩
    · refine .inr (fun answered => waits ?_)
      unfold Answered at answered ⊢
      rwa [← calls]
  · exact .inr waits

theorem updateMoves (s : State) (project : Str) {change : TreeState → TreeState}
    (same : ∀ tree, (change tree).dirs = tree.dirs) : Moves root dir s (updateTree s project change) := by
  refine .inl ⟨by rw [updateCalls],?_⟩
  unfold shownAt
  rw [updateDirs]
  split
  · next here =>
    obtain ⟨rfl,_⟩ := here
    rw [same]
    rfl
  · rfl

theorem activeMoves (s : State) (active : Option Str) {change : TreeState → TreeState}
    (same : ∀ tree, (change tree).dirs = tree.dirs) : Moves root dir s (updateActive s active change) := by
  cases active with
  | none => exact movesSelf s
  | some project => exact updateMoves s project same

theorem askedSnoc (calls : List Call) (call : Call) :
    asked (calls ++ [call]) root dir = asked calls root dir ++ if call.root = root ∧ call.dir = dir then [call] else [] := by
  unfold asked
  rw [List.filter_append,List.filter_singleton]
  simp

theorem listMoves (s : State) (active : Option Str) (listed : Str) : Moves root dir s (list s active listed) := by
  cases active with
  | none => exact movesSelf s
  | some project =>
    by_cases same : project = root ∧ listed = dir
    · refine .inr (fun answered => ?_)
      refine answered ⟨project,listed,none⟩ ?_ rfl
      exact List.mem_filter.mpr ⟨List.mem_append_right _ List.mem_cons_self,by simpa using same⟩
    · have other : asked (list s (some project) listed).calls root dir = asked s.calls root dir := by
        show asked ((updateTree s project _).calls ++ [_]) root dir = _
        rw [updateCalls,askedSnoc,if_neg same,List.append_nil]
      refine .inl ⟨other,?_⟩
      show (dirsAt (updateTree s project _).trees root).lookup dir = (dirsAt s.trees root).lookup dir
      rw [updateDirs]
      split
      · next here =>
        obtain ⟨rfl,_⟩ := here
        rw [show (withLoading _ listed).dirs = Records.put _ listed _ from rfl,Records.lookupPut,
          if_neg (fun equal => same ⟨rfl,equal.symm⟩)]
        rfl
      · rfl

theorem listsMoves (s : State) (active : Option Str) (dirs : List Str) : Moves root dir s (lists s active dirs) := by
  unfold lists
  induction dirs generalizing s with
  | nil => exact movesSelf s
  | cons listed dirs ih => exact movesThen (listMoves s active listed) (ih _)

theorem asksMoves (s : State) (active : Option Str) {change : TreeState → TreeState}
    (same : ∀ tree, (change tree).dirs = tree.dirs) (dirs : List Str) :
    Moves root dir s (lists (updateActive s active change) active dirs) :=
  movesThen (activeMoves s active same) (listsMoves _ active dirs)

theorem latestMoved (holds : Latest root dir s) (moves : Moves root dir s t) : Latest root dir t := by
  intro answered entries last
  rcases moves with ⟨calls,shown⟩ | waits
  · unfold Answered at answered
    unfold latest at last
    rw [calls] at answered last
    rw [shown]
    exact holds answered entries last
  · exact absurd answered waits

theorem askedSet {calls : List Call} {i : Nat} {old new : Call} (found : calls[i]? = some old)
    (other : ¬(old.root = root ∧ old.dir = dir)) (same : new.root = old.root ∧ new.dir = old.dir) :
    asked (calls.set i new) root dir = asked calls root dir := by
  obtain ⟨bound,here⟩ := List.getElem?_eq_some_iff.mp found
  have whole : calls = calls.take i ++ old :: calls.drop (i + 1) := by
    rw [← here,List.getElem_cons_drop,List.take_append_drop]
  have drops : ∀ call : Call, call.root = old.root ∧ call.dir = old.dir →
      asked (calls.take i ++ call :: calls.drop (i + 1)) root dir =
        asked (calls.take i) root dir ++ asked (calls.drop (i + 1)) root dir := by
    intro call alike
    unfold asked
    rw [List.filter_append,List.filter_cons_of_neg (by simpa [alike.1,alike.2] using other)]
  rw [List.set_eq_take_append_cons_drop,if_pos bound,drops new same]
  conv_rhs => rw [whole]
  exact (drops old ⟨rfl,rfl⟩).symm

theorem landShown (bare : Bare s) {call : Call} {reply : Reply} (here : call.root = root ∧ call.dir = dir)
    (entries : List Entry) :
    shownAt (land s call reply) root dir = some ⟨.loaded,listed dir entries,none⟩ ↔
      root ∈ s.held ∧ reply = .ok entries := by
  obtain ⟨rfl,rfl⟩ := here
  unfold shownAt land
  rw [updateDirs]
  by_cases held : call.root ∈ s.held
  · rw [if_pos ⟨rfl,held⟩]
    cases reply with
    | ok answer =>
      simp only [withListing,withDir,Records.lookupPut,if_true,Option.some.injEq,DirState.mk.injEq,true_and,and_true,
        Except.ok.injEq,held]
      exact (listedInjective call.dir).eq_iff
    | error message => simp [withError,withDir,Records.lookupPut]
  · rw [if_neg (fun both => held both.2),dirsLookup,bare _ held]
    simp [held]

theorem landElsewhere {call : Call} {reply : Reply} (other : ¬(call.root = root ∧ call.dir = dir)) :
    shownAt (land s call reply) root dir = shownAt s root dir := by
  unfold shownAt land
  rw [updateDirs]
  split
  · next here =>
    have apart : dir ≠ call.dir := fun same => other ⟨here.1.symm,same.symm⟩
    cases reply with
    | ok answer =>
      rw [show (withListing _ call.dir answer).dirs = Records.put _ call.dir _ from rfl,Records.lookupPut,if_neg apart,← here.1]
      rfl
    | error message =>
      rw [show (withError _ call.dir message).dirs = Records.put _ call.dir _ from rfl,Records.lookupPut,if_neg apart,← here.1]
      rfl
  · rfl

theorem answerStep (bare : Bare s) (holds : Latest root dir s) {i : Nat} {reply : Reply}
    (taken : step s (.answer i reply) = some t) : Latest root dir t ↔ meets root dir s (.answer i reply) := by
  simp only [step] at taken
  split at taken
  · next asking about found =>
    cases taken
    let answered : State := { s with calls := s.calls.set i ⟨asking,about,some reply⟩ }
    have calls : (land answered ⟨asking,about,some reply⟩ reply).calls = answered.calls := updateCalls _ _ _
    by_cases here : asking = root ∧ about = dir
    · obtain ⟨rfl,rfl⟩ := here
      constructor
      · intro after call member _ _ all entries last
        cases found.symm.trans member
        exact (landShown (s := answered) bare ⟨rfl,rfl⟩ entries).mp
          (after (by rw [calls]; exact all) entries (by rw [calls]; exact last))
      · intro ok all entries last
        rw [calls] at all last
        have both := ok _ found rfl rfl all entries last
        exact (landShown (s := answered) bare ⟨rfl,rfl⟩ entries).mpr both
    · refine iff_of_true (latestMoved holds (.inl ⟨?_,landElsewhere (s := answered) here⟩)) ?_
      · show asked (land answered ⟨asking,about,some reply⟩ reply).calls root dir = _
        rw [calls]
        exact askedSet found here ⟨rfl,rfl⟩
      · intro call member root_ dir_
        cases found.symm.trans member
        exact absurd ⟨root_,dir_⟩ here
  · cases taken

theorem closeStep (holds : Latest root dir s) (closing : Str) :
    Latest root dir (closeProject s closing) ↔ meets root dir s (.closeProject closing) := by
  by_cases here : closing = root
  · subst here
    have gone : shownAt (closeProject s closing) closing dir = none := by
      show (dirsAt (withoutTree s.trees closing) closing).lookup dir = none
      rw [dirsLookup,lookupDropped,if_pos rfl]
      rfl
    constructor
    · intro after _ all
      refine Option.eq_none_iff_forall_not_mem.mpr (fun entries last => ?_)
      exact nomatch gone.symm.trans (after all entries last)
    · intro ok all entries last
      exact nomatch (ok rfl all).symm.trans last
  · refine iff_of_true (latestMoved holds (.inl ⟨rfl,?_⟩)) (fun same => absurd same here)
    show (dirsAt (withoutTree s.trees closing) root).lookup dir = (dirsAt s.trees root).lookup dir
    rw [dirsLookup,dirsLookup,lookupDropped,if_neg (fun same => here same.symm)]

theorem finishedMoves (s : State) (change : Change) : Moves root dir s (finished s change) := by
  unfold finished
  simp only
  split
  · exact listMoves s _ _
  · exact movesThen (listMoves s _ _) (updateMoves _ _ (fun tree => by split <;> rfl))

theorem effectsMoves (s : State) : Moves root dir s (runEffects s) := by
  unfold runEffects
  simp only
  split
  · exact .inl ⟨rfl,rfl⟩
  · split
    · exact .inl ⟨rfl,rfl⟩
    · exact movesThen (t := { s with held := _ }) (.inl ⟨rfl,rfl⟩) (listsMoves _ _ _)

theorem askMoves (s : State) (listed : Str) (removed : Option Str) : Moves root dir s (ask s listed removed) := by
  unfold ask
  split <;> exact .inl ⟨rfl,rfl⟩

theorem stepLatest (bare : Bare s) (holds : Latest root dir s) {e : Event} (taken : step s e = some t) :
    Latest root dir t ↔ meets root dir s e := by
  have moved : Moves root dir s t → (Latest root dir t ↔ True) := fun moves => iff_true_intro (latestMoved holds moves)
  cases e with
  | answer i reply => exact answerStep bare holds taken
  | closeProject closing => cases taken; exact closeStep holds closing
  | render active =>
    simp only [step] at taken
    split at taken
    · cases taken
    · cases taken; exact moved (.inl ⟨rfl,rfl⟩)
  | effects =>
    simp only [step] at taken
    split at taken
    · cases taken; exact moved (effectsMoves s)
    · cases taken
  | expand listed =>
    cases taken
    refine moved (asksMoves s s.root ?_ [listed])
    exact fun _ => rfl
  | collapse listed => cases taken; exact moved (activeMoves s _ (fun _ => rfl))
  | select path => cases taken; exact moved (activeMoves s _ (fun _ => rfl))
  | toggleHidden => cases taken; exact moved (activeMoves s _ (fun _ => rfl))
  | toggleChangedOnly => cases taken; exact moved (activeMoves s _ (fun _ => rfl))
  | reveal listed =>
    cases taken
    refine moved (asksMoves s s.root ?_ _)
    exact fun _ => rfl
  | locate path =>
    cases taken
    refine moved (asksMoves s s.root ?_ _)
    exact fun _ => rfl
  | restore saved =>
    cases taken
    refine moved (asksMoves s s.root ?_ _)
    exact fun _ => rfl
  | createEntry listed name isDir => cases taken; exact moved (askMoves s _ _)
  | renameEntry path newName => cases taken; exact moved (askMoves s _ _)
  | deleteEntry path => cases taken; exact moved (askMoves s _ _)
  | changed i ok =>
    obtain ⟨change,_,rfl⟩ := Option.map_eq_some_iff.mp taken
    refine moved ?_
    simp only
    split
    · exact movesThen (t := { s with changes := _ }) (.inl ⟨rfl,rfl⟩) (finishedMoves _ change)
    · exact .inl ⟨rfl,rfl⟩
  | tree changedRoot dirs =>
    cases taken
    refine moved ?_
    split
    · exact listsMoves s _ _
    · exact movesSelf s

def Sane (change : TreeState → TreeState) : Prop := ∀ tree, Placed tree.dirs → Placed (change tree).dirs

theorem saneSame {change : TreeState → TreeState} (same : ∀ tree, (change tree).dirs = tree.dirs) : Sane change := by
  intro tree placed
  rw [same]
  exact placed

theorem saneLoading (dir : Str) : Sane (fun current => withLoading current dir) := by
  intro tree placed other entry member
  rw [childrenLoading] at member
  exact placed other entry member

theorem saneAnswer (dir : Str) (reply : Reply) :
    Sane (fun current => match reply with
      | .ok entries => withListing current dir entries
      | .error message => withError current dir message) := by
  intro tree placed
  cases reply with
  | ok entries => exact placedListing placed dir entries
  | error message =>
    intro other entry member
    simp only [childrenError] at member
    exact placed other entry member

inductive Writes (s : State) : State → Prop where
  | self : Writes s s
  | beside {t u : State} (before : Writes s t) (trees : u.trees = t.trees) (held : ∀ root ∈ t.held, root ∈ u.held) : Writes s u
  | update {t : State} {change : TreeState → TreeState} (before : Writes s t) (project : Str) (sane : Sane change) :
      Writes s (updateTree t project change)
  | closes {t : State} (before : Writes s t) (closing : Str) : Writes s (closeProject t closing)

theorem writesActive (before : Writes s t) (active : Option Str) {change : TreeState → TreeState} (sane : Sane change) :
    Writes s (updateActive t active change) := by
  cases active with
  | none => exact before
  | some project => exact .update before project sane

theorem writesList (before : Writes s t) (active : Option Str) (dir : Str) : Writes s (list t active dir) := by
  cases active with
  | none => exact before
  | some project => exact .beside (.update before project (saneLoading dir)) rfl (fun _ held => held)

theorem writesLists (before : Writes s t) (active : Option Str) (dirs : List Str) : Writes s (lists t active dirs) := by
  unfold lists
  induction dirs generalizing t with
  | nil => exact before
  | cons dir dirs ih => exact ih (writesList before active dir)

theorem writesAsks (s : State) (active : Option Str) {change : TreeState → TreeState}
    (same : ∀ tree, (change tree).dirs = tree.dirs) (dirs : List Str) :
    Writes s (lists (updateActive s active change) active dirs) :=
  writesLists (writesActive .self active (saneSame same)) active dirs

theorem writesEffects (s : State) : Writes s (runEffects s) := by
  unfold runEffects
  simp only
  split
  · exact .beside .self rfl (fun _ held => held)
  · split
    · exact .beside .self rfl (fun _ held => held)
    · refine writesLists ?_ _ _
      refine .beside .self rfl (fun root held => ?_)
      simp only
      split
      · exact held
      · exact List.mem_append_left _ held

theorem writesFinished (before : Writes s t) (change : Change) : Writes s (finished t change) := by
  unfold finished
  simp only
  split
  · exact writesList before _ _
  · exact .update (writesList before _ _) _ (saneSame (fun tree => by split <;> rfl))

theorem stepWrites {e : Event} (taken : step s e = some t) : Writes s t := by
  cases e with
  | answer i reply =>
    simp only [step] at taken
    split at taken
    · cases taken
      refine .update ?_ _ (saneAnswer _ reply)
      exact .beside .self rfl (fun _ held => held)
    · cases taken
  | closeProject closing => cases taken; exact .closes .self closing
  | render active =>
    simp only [step] at taken
    split at taken
    · cases taken
    · cases taken; exact .beside .self rfl (fun _ held => held)
  | effects =>
    simp only [step] at taken
    split at taken
    · cases taken; exact writesEffects s
    · cases taken
  | expand listed => cases taken; refine writesAsks s s.root ?_ [listed]; exact fun _ => rfl
  | collapse listed => cases taken; exact writesActive .self _ (saneSame (fun _ => rfl))
  | select path => cases taken; exact writesActive .self _ (saneSame (fun _ => rfl))
  | toggleHidden => cases taken; exact writesActive .self _ (saneSame (fun _ => rfl))
  | toggleChangedOnly => cases taken; exact writesActive .self _ (saneSame (fun _ => rfl))
  | reveal listed => cases taken; refine writesAsks s s.root ?_ _; exact fun _ => rfl
  | locate path => cases taken; refine writesAsks s s.root ?_ _; exact fun _ => rfl
  | restore saved => cases taken; refine writesAsks s s.root ?_ _; exact fun _ => rfl
  | createEntry listed name isDir => cases taken; unfold ask; split <;> exact .beside .self rfl (fun _ held => held)
  | renameEntry path newName => cases taken; unfold ask; split <;> exact .beside .self rfl (fun _ held => held)
  | deleteEntry path => cases taken; unfold ask; split <;> exact .beside .self rfl (fun _ held => held)
  | changed i ok =>
    obtain ⟨change,_,rfl⟩ := Option.map_eq_some_iff.mp taken
    simp only
    split
    · refine writesFinished ?_ change
      exact .beside .self rfl (fun _ held => held)
    · exact .beside .self rfl (fun _ held => held)
  | tree changedRoot dirs =>
    cases taken
    split
    · exact writesLists .self _ _
    · exact .self

theorem writesBare (bare : Bare s) (writes : Writes s t) : Bare t := by
  induction writes with
  | self => exact bare
  | beside before trees held ih => exact fun root away => trees ▸ ih root (fun there => away (held root there))
  | @update t change before project sane ih =>
    unfold updateTree
    split
    · next held =>
      intro root away
      have apart : root ≠ project := fun same => away (same ▸ held)
      obtain ⟨on,other⟩ := lookupElsewhere t.trees project root (change (treeFor t.trees (some project))) apart
      exact other.trans (by rw [ih root away]; rfl)
    · exact ih
  | @closes t before closing ih =>
    intro root away
    rw [show (closeProject t closing).trees = withoutTree t.trees closing from rfl,lookupDropped]
    split
    · rfl
    · next other => exact ih root (fun held => away (List.mem_filter.mpr ⟨held,by simpa using other⟩))

theorem runBare {allowed : State → Event → Prop} {es : List Event} (run : Run step allowed fresh es s) : Bare s :=
  run.invariant (fun _ _ => rfl) (fun _ _ _ bare _ taken => writesBare bare (stepWrites taken))

theorem runLatest {es : List Event} (run : Run step (meets root dir) fresh es s) :
    Latest root dir s ∧ ∀ e t, step s e = some t → (Latest root dir t ↔ meets root dir s e) := by
  have both := run.invariant (I := fun s => Bare s ∧ Latest root dir s)
    ⟨fun _ _ => rfl,fun _ _ last => absurd last (by simp [latest,asked,fresh])⟩
    (fun _ _ _ before ok taken => ⟨writesBare before.1 (stepWrites taken),(stepLatest before.1 before.2 taken).mpr ok⟩)
  exact ⟨both.2,fun e t taken => stepLatest both.1 both.2 taken⟩

def manifests : Entry := ⟨"manifests".toList,true,by decide⟩
def appYaml : Entry := ⟨"app.yaml".toList,false,by decide⟩
def webYaml : Entry := ⟨"web.yaml".toList,false,by decide⟩

def overtaken : List Event :=
  [.render (some "/w".toList),.effects,.answer 0 (.ok [manifests]),.expand "manifests".toList,.collapse "manifests".toList,
    .expand "manifests".toList,.answer 2 (.ok [appYaml,webYaml]),.answer 1 (.ok [appYaml])]

theorem overtakenShown :
    ∃ s, Run step anyStep fresh overtaken s ∧ ¬ Latest "/w".toList "manifests".toList s := by
  have ends : (exec step fresh overtaken).map (fun s =>
      (decide (Answered s.calls "/w".toList "manifests".toList),latest s.calls "/w".toList "manifests".toList,
        shownAt s "/w".toList "manifests".toList)) =
      some (true,some [appYaml,webYaml],some ⟨.loaded,listed "manifests".toList [appYaml],none⟩) := by decide +kernel
  obtain ⟨s,done,seen⟩ := Option.map_eq_some_iff.mp ends
  obtain ⟨answered,rest⟩ := Prod.mk.inj seen
  obtain ⟨last,shown⟩ := Prod.mk.inj rest
  refine ⟨s,runOfExec done,fun holds => ?_⟩
  have said := shown.symm.trans (holds (of_decide_eq_true answered) _ last)
  exact absurd said (by decide)

def inOrder : List Event :=
  [.render (some "/w".toList),.effects,.answer 0 (.ok [manifests]),.render (some "/w".toList),.effects,
    .expand "manifests".toList,.createEntry "manifests".toList "web.yaml".toList false,.changed 0 true,
    .answer 1 (.ok [appYaml]),.tree "/w".toList [".".toList],.answer 2 (.ok [appYaml,webYaml])]

theorem inOrderLatest : ∃ s, Run step (meets "/w".toList "manifests".toList) fresh inOrder s ∧
    latest s.calls "/w".toList "manifests".toList = some [appYaml,webYaml] ∧
      shownAt s "/w".toList "manifests".toList = some ⟨.loaded,listed "manifests".toList [appYaml,webYaml],none⟩ := by
  have ends : (exec (guarded step (meets "/w".toList "manifests".toList)) fresh inOrder).map (fun s =>
      (decide (Answered s.calls "/w".toList "manifests".toList),latest s.calls "/w".toList "manifests".toList)) =
      some (true,some [appYaml,webYaml]) := by decide +kernel
  obtain ⟨s,done,seen⟩ := Option.map_eq_some_iff.mp ends
  obtain ⟨answered,last⟩ := Prod.mk.inj seen
  exact ⟨s,runOfGuarded done,last,(runLatest (runOfGuarded done)).1 (of_decide_eq_true answered) _ last⟩

end M6t.TreeListings
