import M6t.TreeListings

/-! A path brought on screen: what `reveal` and `locate` leave of it once the
listings have answered. A directory is listed on the way only where the record has
nothing for it, so what the tree already holds of the others decides. -/
namespace M6t.TreeReveal
open M6t.Text M6t.ProjectTrees M6t.FileTree M6t.TreeListings M6t.Runs
open M6t.SlashPath (Plain joined)
open M6t.Editor (ROOT parentPath)

structure Shown (s : State) (root : Str) (steps : List Str) : Prop where
  row : ∃ row ∈ visibleRows (treeFor s.trees (some root)),
    row.entry.path = joined steps ∧ row.depth = (joined steps).count '/'
  selected : (treeFor s.trees (some root)).selected = some (joined steps)
  unfiltered : (treeFor s.trees (some root)).changedOnly = false

def Answers (worktree : Str → List Entry) (n : Nat) (root : Str) (s : State) : Event → Prop
  | .answer i reply => n ≤ i → ∀ call ∈ s.calls[i]?, reply = .ok (worktree call.dir)
  | .render active => active = some root
  | .effects => True
  | _ => False
instance (worktree : Str → List Entry) (n : Nat) (root : Str) (s : State) : ∀ e, Decidable (Answers worktree n root s e)
  | .answer i reply => inferInstanceAs (Decidable (n ≤ i → ∀ call ∈ s.calls[i]?, reply = .ok (worktree call.dir)))
  | .render active => inferInstanceAs (Decidable (active = some root))
  | .effects => inferInstanceAs (Decidable True)
  | .expand _ | .collapse _ | .select _ | .reveal _ | .locate _ | .restore _ | .toggleHidden | .toggleChangedOnly
  | .createEntry .. | .renameEntry .. | .deleteEntry _ | .changed .. | .tree .. | .closeProject _ =>
    inferInstanceAs (Decidable False)

/-- The path is there: every directory above it lists the next name. -/
def Present (worktree : Str → List Entry) (steps : List Str) : Prop :=
  Along (fun front name _ => ∃ entry ∈ worktree (joined front), entry.name = name) [] steps

instance (worktree steps) : Decidable (Present worktree steps) := by unfold Present; infer_instance

def hears (calls : List Call) (root dir : Str) (kept : List TreeEntry) : Event → List TreeEntry
  | .answer i (.ok entries) =>
    if ∃ call ∈ calls[i]?, call.root = root ∧ call.dir = dir then listed dir entries else kept
  | _ => kept

def heard (calls : List Call) (root dir : Str) (kept : List TreeEntry) (es : List Event) : List TreeEntry :=
  es.foldl (hears calls root dir) kept

def Anew (s : State) (root dir : Str) : Prop := dir ≠ ROOT ∧ ¬ inRecord s.known.dirs dir ∧ Answered s.calls root dir
instance (s root dir) : Decidable (Anew s root dir) := inferInstanceAs (Decidable (_ ∧ _ ∧ _))

/-- A directory above the path shows the next name: listed anew, it lists it as a
directory where the path goes on; else what it has or is still to hear holds it. -/
def Leads (worktree : Str → List Entry) (s : State) (calls : List Call) (root : Str) (es : List Event)
    (front : List Str) (name : Str) (rest : List Str) : Prop :=
  if Anew s root (joined front) then
    rest ≠ [] → ∃ entry ∈ worktree (joined front), entry.name = name ∧ entry.isDir = true
  else Holds (heard calls root (joined front) (childrenOf (dirsAt s.trees root) (joined front)) es) name rest

instance (worktree s calls root es front name rest) : Decidable (Leads worktree s calls root es front name rest) := by
  unfold Leads; infer_instance

variable {s t u : State} {root : Str} {steps : List Str}

structure Tidy (trees : ProjectTrees TreeState) : Prop where
  placed : ∀ root, Placed (dirsAt trees root)
  uniform : ∃ on, Uniform trees on

theorem writesTidy (tidy : Tidy s.trees) (writes : Writes s t) : Tidy t.trees := by
  induction writes with
  | self => exact tidy
  | beside before trees held ih => exact trees ▸ ih
  | @update t change before project sane ih =>
    unfold updateTree
    split
    · refine ⟨fun root => ?_,?_⟩
      · rw [dirsWithTree]
        split
        · exact sane _ (ih.placed project)
        · exact ih.placed root
      · obtain ⟨on,uniform⟩ := ih.uniform
        exact ⟨_,uniformWrite uniform project _⟩
    · exact ih
  | @closes t before closing ih =>
    refine ⟨fun root => ?_,?_⟩
    · show Placed (dirsAt (withoutTree t.trees closing) root)
      rw [dirsLookup,lookupDropped]
      split
      · intro dir entry member
        exact absurd member List.not_mem_nil
      · rw [← dirsLookup]
        exact ih.placed root
    · obtain ⟨on,uniform⟩ := ih.uniform
      exact ⟨on,uniformWithout uniform closing⟩

theorem runTidy {allowed : State → Event → Prop} {es : List Event} (run : Run step allowed fresh es s) : Tidy s.trees :=
  run.invariant (I := fun s => Tidy s.trees)
    ⟨fun _ _ _ member => absurd member List.not_mem_nil,false,fun _ member => absurd member List.not_mem_nil⟩
    (fun _ _ _ tidy _ taken => writesTidy tidy (stepWrites taken))

theorem loadedHeld (bare : Bare s) {d : DirState} (loaded : shownAt s root ROOT = some d) : root ∈ s.held := by
  by_contra away
  unfold shownAt at loaded
  rw [dirsLookup,bare root away] at loaded
  exact nomatch loaded

structure Standing (trees : ProjectTrees TreeState) (root : Str) (steps : List Str) (kids : Str → List TreeEntry) : Prop where
  uniform : Uniform trees false
  tree : ∃ tree, trees.lookup root = some tree ∧ Opened tree steps ∧ tree.selected = some (joined steps) ∧
    ∀ dir, childrenOf tree.dirs dir = kids dir

structure Gentle (change : TreeState → TreeState) (f : Str → List TreeEntry → List TreeEntry) : Prop where
  expanded : ∀ tree, (change tree).expanded = tree.expanded
  hidden : ∀ tree, (change tree).showHidden = tree.showHidden
  selected : ∀ tree, (change tree).selected = tree.selected
  changedOnly : ∀ tree, (change tree).changedOnly = tree.changedOnly
  children : ∀ tree dir, childrenOf (change tree).dirs dir = f dir (childrenOf tree.dirs dir)

theorem openedSame {tree other : TreeState} (opened : Opened tree steps) (expanded : other.expanded = tree.expanded)
    (hidden : other.showHidden = tree.showHidden) : Opened other steps :=
  ⟨by rw [expanded]; exact opened.expanded,by rw [hidden]; exact opened.unhidden⟩

variable {kids : Str → List TreeEntry} {change : TreeState → TreeState} {f : Str → List TreeEntry → List TreeEntry}

theorem standingUpdate (standing : Standing s.trees root steps kids) (held : root ∈ s.held) (project : Str)
    (gentle : Gentle change f) :
    Standing (updateTree s project change).trees root steps
      (fun dir => if project = root then f dir (kids dir) else kids dir) := by
  obtain ⟨tree,found,opened,selected,children⟩ := standing.tree
  unfold updateTree
  split
  · have off : (change (treeFor s.trees (some project))).changedOnly = false :=
      (gentle.changedOnly _).trans (uniformFor standing.uniform (some project))
    refine ⟨off ▸ uniformWrite standing.uniform project _,?_⟩
    by_cases same : project = root
    · subst same
      have here := treeThere found
      refine ⟨change tree,by rw [here]; exact lookupWithTree _ _ _,?_,(gentle.selected tree).trans selected,?_⟩
      · exact openedSame opened (gentle.expanded tree) (gentle.hidden tree)
      · intro dir
        rw [gentle.children,children,if_pos rfl]
    · obtain ⟨on,other⟩ := lookupElsewhere s.trees project root (change (treeFor s.trees (some project)))
        (fun equal => same equal.symm)
      refine ⟨withFilter (on tree) tree,by rw [other,found]; rfl,openedSame opened rfl rfl,selected,?_⟩
      intro dir
      rw [if_neg same]
      exact children dir
  · next away =>
    have apart : project ≠ root := fun same => away (same ▸ held)
    refine ⟨standing.uniform,tree,found,opened,selected,fun dir => ?_⟩
    rw [if_neg apart]
    exact children dir

theorem gentleLoading (dir : Str) : Gentle (fun current => withLoading current dir) (fun _ kept => kept) :=
  ⟨fun _ => rfl,fun _ => rfl,fun _ => rfl,fun _ => rfl,fun tree other => childrenLoading tree dir other⟩

def leaves (dir : Str) (reply : Reply) (other : Str) (kept : List TreeEntry) : List TreeEntry :=
  match reply with
  | .ok entries => if other = dir then listed dir entries else kept
  | .error _ => kept

theorem gentleAnswer (dir : Str) (reply : Reply) :
    Gentle (fun current => match reply with
      | .ok entries => withListing current dir entries
      | .error message => withError current dir message) (leaves dir reply) := by
  cases reply with
  | ok entries => exact ⟨fun _ => rfl,fun _ => rfl,fun _ => rfl,fun _ => rfl,
      fun tree other => childrenListing tree dir entries other⟩
  | error message => exact ⟨fun _ => rfl,fun _ => rfl,fun _ => rfl,fun _ => rfl,
      fun tree other => childrenError tree dir message other⟩

theorem standingList (standing : Standing s.trees root steps kids) (held : root ∈ s.held) (active : Option Str) (dir : Str) :
    Standing (list s active dir).trees root steps kids := by
  cases active with
  | none => exact standing
  | some project =>
    have after := standingUpdate standing held project (gentleLoading dir)
    simp only [ite_self] at after
    exact after

theorem listHeld (held : root ∈ s.held) (active : Option Str) (dir : Str) : root ∈ (list s active dir).held := by
  cases active with
  | none => exact held
  | some project =>
    obtain ⟨trees,same⟩ := updateKeeps s project (fun current => withLoading current dir)
    show root ∈ (updateTree s project _).held
    rw [same]
    exact held

theorem listCalls (s : State) (active : Option Str) (dir : Str) : ∃ more, (list s active dir).calls = s.calls ++ more := by
  cases active with
  | none => exact ⟨[],(List.append_nil _).symm⟩
  | some project => exact ⟨[⟨project,dir,none⟩],congrArg (· ++ [_]) (updateCalls s project _)⟩

theorem listsCalls (s : State) (active : Option Str) (dirs : List Str) :
    ∃ more, (lists s active dirs).calls = s.calls ++ more := by
  unfold lists
  induction dirs generalizing s with
  | nil => exact ⟨[],(List.append_nil _).symm⟩
  | cons dir dirs ih =>
    obtain ⟨first,one⟩ := listCalls s active dir
    obtain ⟨rest,more⟩ := ih (list s active dir)
    exact ⟨first ++ rest,by rw [List.foldl_cons,more,one,List.append_assoc]⟩

theorem listsWaits {dirs : List Str} {dir : Str} (member : dir ∈ dirs) (s : State) (root : Str) :
    ¬ Answered (lists s (some root) dirs).calls root dir := by
  obtain ⟨first,rest,rfl⟩ := List.append_of_mem member
  have whole : lists s (some root) (first ++ dir :: rest) =
      lists (list (lists s (some root) first) (some root) dir) (some root) rest := by
    unfold lists
    rw [List.foldl_append,List.foldl_cons]
  obtain ⟨more,grown⟩ := listsCalls (list (lists s (some root) first) (some root) dir) (some root) rest
  intro answered
  rw [whole,grown] at answered
  refine answered ⟨root,dir,none⟩ (List.mem_filter.mpr ⟨List.mem_append_left _ ?_,by simp⟩) rfl
  exact List.mem_append_right _ List.mem_cons_self

def Extends (old new : List Call) : Prop :=
  ∀ (i : Nat) (call : Call), old[i]? = some call → ∃ later : Call,
    new[i]? = some later ∧ later.root = call.root ∧ later.dir = call.dir

theorem extendsSelf (calls : List Call) : Extends calls calls := fun _ call found => ⟨call,found,rfl,rfl⟩

theorem extendsAppend (calls more : List Call) : Extends calls (calls ++ more) := by
  intro i call found
  have bound := (List.getElem?_eq_some_iff.mp found).1
  exact ⟨call,by rw [List.getElem?_append_left bound]; exact found,rfl,rfl⟩

theorem extendsSet {calls : List Call} {i : Nat} {old new : Call} (found : calls[i]? = some old)
    (same : new.root = old.root ∧ new.dir = old.dir) : Extends calls (calls.set i new) := by
  intro j call there
  by_cases here : i = j
  · subst here
    cases found.symm.trans there
    exact ⟨new,by simp [(List.getElem?_eq_some_iff.mp found).1],same⟩
  · exact ⟨call,by rw [List.getElem?_set_ne here]; exact there,rfl,rfl⟩

theorem extendsThen {old mid new : List Call} (first : Extends old mid) (second : Extends mid new) : Extends old new := by
  intro i call found
  obtain ⟨one,there,root,dir⟩ := first i call found
  obtain ⟨two,last,root',dir'⟩ := second i one there
  exact ⟨two,last,root'.trans root,dir'.trans dir⟩

variable {worktree : Str → List Entry} {n : Nat} {es : List Event}

structure Going (root : Str) (steps : List Str) (kids : Str → List TreeEntry) (es : List Event) (s : State) : Prop where
  active : s.root = some root
  held : root ∈ s.held
  standing : ∀ calls, Extends s.calls calls → Standing s.trees root steps (fun dir => heard calls root dir (kids dir) es)

theorem heardSnoc (calls : List Call) (root dir : Str) (kept : List TreeEntry) (es : List Event) (e : Event) :
    heard calls root dir kept (es ++ [e]) = hears calls root dir (heard calls root dir kept es) e := by
  unfold heard
  rw [List.foldl_append]
  rfl

theorem hearsAnswer {calls : List Call} {i : Nat} {call : Call} (found : calls[i]? = some call) (root dir : Str)
    (kept : List TreeEntry) (reply : Reply) :
    hears calls root dir kept (.answer i reply) = if call.root = root then leaves call.dir reply dir kept else kept := by
  cases reply with
  | error message => simp [hears,leaves]
  | ok entries =>
    simp only [hears,leaves,found,Option.mem_def,Option.some.injEq,exists_eq_left']
    by_cases root_ : call.root = root
    · by_cases dir_ : call.dir = dir
      · simp [root_,dir_]
      · have apart : dir ≠ call.dir := fun equal => dir_ equal.symm
        simp [root_,dir_,apart]
    · simp [root_]

theorem landKeeps (s : State) (call : Call) (reply : Reply) : ∃ trees, land s call reply = { s with trees } := updateKeeps s _ _

theorem listActive (s : State) (active : Option Str) (dir : Str) : (list s active dir).root = s.root := by
  cases active with
  | none => rfl
  | some project =>
    obtain ⟨trees,same⟩ := updateKeeps s project (fun current => withLoading current dir)
    show (updateTree s project _).root = s.root
    rw [same]

theorem goingList (going : Going root steps kids es s) (active : Option Str) (dir : Str) :
    Going root steps kids es (list s active dir) := by
  obtain ⟨more,grown⟩ := listCalls s active dir
  refine ⟨(listActive s active dir).trans going.active,listHeld going.held active dir,fun later extends_ => ?_⟩
  rw [grown] at extends_
  exact standingList (going.standing later (extendsThen (extendsAppend _ more) extends_)) going.held active dir

theorem goingLists (going : Going root steps kids es s) (active : Option Str) (dirs : List Str) :
    Going root steps kids es (lists s active dirs) := by
  unfold lists
  induction dirs generalizing s with
  | nil => exact going
  | cons dir dirs ih => exact ih (goingList going active dir)

theorem goingEffects (going : Going root steps kids es s) : Going root steps kids es (runEffects s) := by
  unfold runEffects
  simp only
  split
  · exact ⟨going.active,going.held,going.standing⟩
  · split
    · exact ⟨going.active,going.held,going.standing⟩
    · refine goingLists ?_ _ _
      refine ⟨going.active,?_,going.standing⟩
      simp only
      split
      · exact going.held
      · exact List.mem_append_left _ going.held

theorem goingSilent (going : Going root steps kids es s) {e : Event}
    (silent : ∀ calls dir kept, hears calls root dir kept e = kept) :
    Going root steps kids (es ++ [e]) s := by
  refine ⟨going.active,going.held,fun later extends_ => ?_⟩
  simp only [heardSnoc,silent]
  exact going.standing later extends_

theorem goingStep (going : Going root steps kids es s) {e : Event} (allowed : Answers worktree n root s e)
    (taken : step s e = some t) : Going root steps kids (es ++ [e]) t := by
  cases e with
  | answer i reply =>
    simp only [step] at taken
    split at taken
    · next asking about found =>
      cases taken
      let answered : State := { s with calls := s.calls.set i ⟨asking,about,some reply⟩ }
      have grown : Extends s.calls answered.calls := extendsSet found ⟨rfl,rfl⟩
      have calls : (land answered ⟨asking,about,some reply⟩ reply).calls = answered.calls := updateCalls _ _ _
      obtain ⟨trees,kept⟩ := landKeeps answered ⟨asking,about,some reply⟩ reply
      refine ⟨?_,?_,fun later extends_ => ?_⟩
      · exact (congrArg State.root kept).trans going.active
      · exact (congrArg (fun t => root ∈ t.held) kept).mpr going.held
      · rw [calls] at extends_
        obtain ⟨call,there,root_,dir_⟩ := extendsThen grown extends_ i _ found
        have before := going.standing later (extendsThen grown extends_)
        have after := standingUpdate (s := answered) before going.held asking (gentleAnswer about reply)
        refine (congrArg (Standing _ root steps) ?_).mp after
        funext dir
        rw [heardSnoc,hearsAnswer there,root_,dir_]
    · cases taken
  | render active =>
    simp only [step] at taken
    split at taken
    · cases taken
    · cases taken
      refine goingSilent ?_ (fun _ _ _ => by rfl)
      exact ⟨allowed,going.held,going.standing⟩
  | effects =>
    simp only [step] at taken
    split at taken
    · cases taken
      exact goingSilent (goingEffects going) (fun _ _ _ => by rfl)
    · cases taken
  | _ => exact allowed.elim

structure Renewed (worktree : Str → List Entry) (n : Nat) (root dir : Str) (s : State) : Prop where
  bare : Bare s
  held : root ∈ s.held
  long : n ≤ s.calls.length
  earlier : ∀ i call, s.calls[i]? = some call → i < n → call.root = root → call.dir = dir → call.reply ≠ none
  later : ¬ Answered s.calls root dir ∨ shownAt s root dir = some ⟨.loaded,listed dir (worktree dir),none⟩

variable {dir : Str}

theorem renewedMoves (renewed : Renewed worktree n root dir s) (moves : Moves root dir s t) :
    ¬ Answered t.calls root dir ∨ shownAt t root dir = some ⟨.loaded,listed dir (worktree dir),none⟩ := by
  rcases moves with ⟨calls,shown⟩ | waits
  · rcases renewed.later with waits | done
    · refine .inl (fun answered => waits ?_)
      unfold TreeListings.Answered at answered ⊢
      rwa [← calls]
    · exact .inr (shown.trans done)
  · exact .inl waits

theorem earlierAppend (renewed : Renewed worktree n root dir s) {more : List Call} (grown : t.calls = s.calls ++ more) :
    n ≤ t.calls.length ∧
      ∀ i call, t.calls[i]? = some call → i < n → call.root = root → call.dir = dir → call.reply ≠ none := by
  refine ⟨by rw [grown,List.length_append]; exact renewed.long.trans (Nat.le_add_right _ _),?_⟩
  intro i call found early
  rw [grown,List.getElem?_append_left (early.trans_le renewed.long)] at found
  exact renewed.earlier i call found early

theorem effectsCalls (s : State) : ∃ more, (runEffects s).calls = s.calls ++ more := by
  unfold runEffects
  simp only
  split
  · exact ⟨[],(List.append_nil _).symm⟩
  · split
    · exact ⟨[],(List.append_nil _).symm⟩
    · exact listsCalls _ _ _

theorem renewedStep (renewed : Renewed worktree n root dir s) (held : root ∈ t.held) {e : Event}
    (allowed : Answers worktree n root s e) (taken : step s e = some t) : Renewed worktree n root dir t := by
  have bare : Bare t := writesBare renewed.bare (stepWrites taken)
  cases e with
  | answer i reply =>
    simp only [step] at taken
    split at taken
    · next asking about found =>
      cases taken
      let answered : State := { s with calls := s.calls.set i ⟨asking,about,some reply⟩ }
      have calls : (land answered ⟨asking,about,some reply⟩ reply).calls = answered.calls := updateCalls _ _ _
      have bound := (List.getElem?_eq_some_iff.mp found).1
      refine ⟨bare,held,?_,?_,?_⟩
      · rw [calls,List.length_set]
        exact renewed.long
      · intro j call there early root_ dir_
        rw [calls] at there
        by_cases same : i = j
        · subst same
          rw [List.getElem?_set_self bound] at there
          cases there
          exact Option.some_ne_none reply
        · rw [List.getElem?_set_ne same] at there
          exact renewed.earlier j call there early root_ dir_
      · by_cases here : asking = root ∧ about = dir
        · obtain ⟨rfl,rfl⟩ := here
          -- None of the earlier listings of the directory is in flight, so this one was asked for by the call.
          have late : n ≤ i := Nat.le_of_not_lt (fun early => renewed.earlier i _ found early rfl rfl rfl)
          have same : reply = .ok (worktree about) := allowed late _ found
          exact .inr ((landShown (s := answered) renewed.bare ⟨rfl,rfl⟩ _).mpr ⟨renewed.held,same⟩)
        · refine renewedMoves renewed (.inl ⟨?_,landElsewhere (s := answered) here⟩)
          rw [calls]
          exact askedSet found here ⟨rfl,rfl⟩
    · cases taken
  | render active =>
    simp only [step] at taken
    split at taken
    · cases taken
    · cases taken
      exact ⟨bare,held,renewed.long,renewed.earlier,renewed.later⟩
  | effects =>
    simp only [step] at taken
    split at taken
    · cases taken
      obtain ⟨more,grown⟩ := effectsCalls s
      obtain ⟨long,earlier⟩ := earlierAppend renewed grown
      exact ⟨bare,held,long,earlier,renewedMoves renewed (effectsMoves s)⟩
    · cases taken
  | _ => exact allowed.elim

/-- What `locate` and `reveal` do to the tree, with the directories they would have listed. -/
structure Opens (change : TreeState → TreeState) (chain : List Str) (steps : List Str) : Prop where
  dirs : ∀ tree, (change tree).dirs = tree.dirs
  unfiltered : ∀ tree, (change tree).changedOnly = false
  selected : ∀ tree, (change tree).selected = some (joined steps)
  opened : ∀ tree, Opened (change tree) steps
  above : ∀ front rest, steps = front ++ rest → front ≠ [] → rest ≠ [] → joined front ∈ chain

theorem locateAsks (plain : ∀ name ∈ steps, Plain name) :
    Opens (fun current => locate current (joined steps)) (ancestry (parentPath (joined steps))) steps where
  dirs _ := rfl
  unfiltered _ := rfl
  selected _ := rfl
  opened tree := locateOpens tree plain
  above _ _ split some_ more := locateAbove plain split some_ more

theorem revealAsks (plain : ∀ name ∈ steps, Plain name) :
    Opens (fun current => reveal current (joined steps)) (ancestry (joined steps)) steps where
  dirs _ := rfl
  unfiltered _ := rfl
  selected _ := rfl
  opened tree := revealOpens tree plain
  above front rest split some_ _ := (ancestryMember plain).mpr ⟨front,rest,split,some_,rfl⟩

theorem asksStanding (tidy : Tidy s.trees) (held : root ∈ s.held) {chain : List Str} (opens : Opens change chain steps) :
    Standing (updateTree s root change).trees root steps (childrenOf (dirsAt s.trees root)) := by
  obtain ⟨on,uniform⟩ := tidy.uniform
  unfold updateTree
  rw [if_pos held]
  refine ⟨opens.unfiltered _ ▸ uniformWrite uniform root _,_,lookupWithTree _ _ _,opens.opened _,opens.selected _,?_⟩
  intro dir
  rw [opens.dirs]
  rfl

def opening (s : State) (root : Str) (change : TreeState → TreeState) (chain : List Str) : State :=
  lists (updateTree s root change) (some root) (unrecorded s chain)

variable {chain : List Str}

theorem openingGoing (active : s.root = some root) (held : root ∈ s.held) (tidy : Tidy s.trees)
    (opens : Opens change chain steps) :
    Going root steps (childrenOf (dirsAt s.trees root)) [] (opening s root change chain) := by
  obtain ⟨trees,kept⟩ := updateKeeps s root change
  refine goingLists ⟨?_,?_,fun _ _ => asksStanding tidy held opens⟩ _ _
  · rw [kept]
    exact active
  · rw [kept]
    exact held

theorem openingRenewed (anew : Anew s root dir) (inChain : dir ∈ chain) (bare : Bare (opening s root change chain))
    (held : root ∈ (opening s root change chain).held) :
    Renewed worktree s.calls.length root dir (opening s root change chain) := by
  obtain ⟨more,grown⟩ := listsCalls (updateTree s root change) (some root) (unrecorded s chain)
  rw [updateCalls] at grown
  have calls : (opening s root change chain).calls = s.calls ++ more := grown
  refine ⟨bare,held,?_,?_,?_⟩
  · rw [calls,List.length_append]
    exact Nat.le_add_right _ _
  · intro i call found early root_ dir_
    rw [calls,List.getElem?_append_left early] at found
    exact anew.2.2 call (List.mem_filter.mpr ⟨List.mem_of_getElem? found,by simp [root_,dir_]⟩)
  · have missing : dir ∈ unrecorded s chain := List.mem_filter.mpr ⟨inChain,decide_eq_true anew.2.1⟩
    exact .inl (listsWaits missing _ root)

structure Ended (worktree : Str → List Entry) (s : State) (root : Str) (steps chain : List Str) (es : List Event) (t : State) :
    Prop where
  going : Going root steps (childrenOf (dirsAt s.trees root)) es t
  renewed : ∀ dir, Anew s root dir → dir ∈ chain → Renewed worktree s.calls.length root dir t

theorem runEnds (active : s.root = some root) (held : root ∈ s.held) (tidy : Tidy s.trees) (opens : Opens change chain steps)
    (bare : Bare (opening s root change chain))
    (run : Run step (Answers worktree s.calls.length root) (opening s root change chain) es t) :
    Ended worktree s root steps chain es t := by
  have going := openingGoing active held tidy opens
  refine run.traced (I := fun es t => Ended worktree s root steps chain es t)
    ⟨going,fun dir anew inChain => openingRenewed anew inChain bare going.held⟩ ?_
  intro es u e v before allowed taken
  have after := goingStep before.going allowed taken
  exact ⟨after,fun dir anew inChain => renewedStep (before.renewed dir anew inChain) after.held allowed taken⟩

theorem endedChildren (ended : Ended worktree s root steps chain es t) (dir : Str) :
    childrenOf (dirsAt t.trees root) dir = heard t.calls root dir (childrenOf (dirsAt s.trees root) dir) es := by
  obtain ⟨tree,found,_,_,children⟩ := (ended.going.standing t.calls (extendsSelf _)).tree
  rw [dirsLookup,found]
  exact children dir

theorem renewedChildren (renewed : Renewed worktree n root dir t)
    (idle : ∀ call ∈ t.calls, call.root = root → call.reply ≠ none) :
    childrenOf (dirsAt t.trees root) dir = listed dir (worktree dir) := by
  have answered : TreeListings.Answered t.calls root dir := by
    intro call member
    obtain ⟨there,about⟩ := List.mem_filter.mp member
    exact idle call there (of_decide_eq_true about).1
  have shown := renewed.later.resolve_left (not_not.mpr answered)
  unfold shownAt at shown
  unfold childrenOf
  rw [shown]
  rfl

theorem leadsExact (ended : Ended worktree s root steps chain es t) (opens : Opens change chain steps)
    (idle : ∀ call ∈ t.calls, call.root = root → call.reply ≠ none) {front : List Str} {name : Str} {rest : List Str}
    (split : steps = front ++ name :: rest) (there : ∃ entry ∈ worktree (joined front), entry.name = name) :
    Holds (childrenOf (dirsAt t.trees root) (joined front)) name rest ↔ Leads worktree s t.calls root es front name rest := by
  unfold Leads
  by_cases anew : Anew s root (joined front)
  · have some_ : front ≠ [] := fun none_ => anew.1 (by rw [none_]; rfl)
    have inChain := opens.above front (name :: rest) split some_ (by simp)
    rw [if_pos anew,renewedChildren (ended.renewed _ anew inChain) idle]
    constructor
    · rintro ⟨entry,member,named,goes⟩ more
      obtain ⟨e,listed_,rfl⟩ := List.mem_map.mp member
      exact ⟨e,listed_,named,goes.resolve_left more⟩
    · intro below
      by_cases last : rest = []
      · obtain ⟨e,listed_,named⟩ := there
        exact ⟨_,List.mem_map_of_mem listed_,named,.inl last⟩
      · obtain ⟨e,listed_,named,isDir⟩ := below last
        exact ⟨_,List.mem_map_of_mem listed_,named,.inr isDir⟩
  · rw [if_neg anew,endedChildren ended]

theorem endedShown (ended : Ended worktree s root steps chain es t) (opens : Opens change chain steps) (tidy : Tidy t.trees)
    (plain : ∀ name ∈ steps, Plain name) (idle : ∀ call ∈ t.calls, call.root = root → call.reply ≠ none)
    (there : Present worktree steps) :
    Shown t root steps ↔ steps ≠ [] ∧ Along (Leads worktree s t.calls root es) [] steps := by
  have standing := ended.going.standing t.calls (extendsSelf _)
  obtain ⟨tree,found,opened,selected,_⟩ := standing.tree
  have here := treeThere found
  have placed : Placed tree.dirs := by
    have all := tidy.placed root
    unfold dirsAt at all
    rwa [here] at all
  have along : Along (fun front => Holds (childrenOf tree.dirs (joined front))) [] steps ↔
      Along (Leads worktree s t.calls root es) [] steps := by
    rw [alongSplit,alongSplit]
    refine forall_congr' (fun front => forall_congr' (fun name => forall_congr' (fun rest => imp_congr_right (fun split => ?_))))
    have exact_ := leadsExact ended opens idle split (alongSplit.mp there front name rest split)
    unfold dirsAt at exact_
    rwa [here] at exact_
  have rows := (visibleReaches placed plain).trans (and_congr_right (fun _ => (openedReaches opened).trans along))
  constructor
  · intro shown
    exact rows.mp (here ▸ shown.row)
  · intro leads
    refine ⟨here ▸ rows.mpr leads,here ▸ selected,?_⟩
    rw [here]
    exact uniformTree standing.uniform found

theorem revealedShown {before later : List Event} {asked : State} {e : Event} (reached : Run step anyStep fresh before s)
    (active : s.root = some root) (loaded : ∃ d ∈ shownAt s root ROOT, d.status = .loaded)
    (plain : ∀ name ∈ steps, Plain name) (there : Present worktree steps)
    (shows : e = .locate (joined steps) ∨ e = .reveal (joined steps)) (taken : step s e = some asked)
    (answers : Run step (Answers worktree s.calls.length root) asked later t)
    (idle : ∀ call ∈ t.calls, call.root = root → call.reply ≠ none) :
    Shown t root steps ↔ steps ≠ [] ∧ Along (Leads worktree s t.calls root later) [] steps := by
  have bare := runBare reached
  have tidy := runTidy reached
  obtain ⟨d,shown,_⟩ := loaded
  have held := loadedHeld bare shown
  have bareAsked := writesBare bare (stepWrites taken)
  have tidyEnd : Tidy t.trees := by
    refine answers.invariant (I := fun t => Tidy t.trees) (writesTidy tidy (stepWrites taken)) ?_
    exact fun _ _ _ tidy _ taken => writesTidy tidy (stepWrites taken)
  rcases shows with rfl | rfl
  · have opens := locateAsks plain
    have same : asked = opening s root (fun current => locate current (joined steps)) (ancestry (parentPath (joined steps))) := by
      cases taken
      unfold locateFile
      rw [active]
      rfl
    subst same
    exact endedShown (runEnds active held tidy opens bareAsked answers) opens tidyEnd plain idle there
  · have opens := revealAsks plain
    have same : asked = opening s root (fun current => reveal current (joined steps)) (ancestry (joined steps)) := by
      cases taken
      unfold revealDir
      rw [active]
      rfl
    subst same
    exact endedShown (runEnds active held tidy opens bareAsked answers) opens tidyEnd plain idle there

def constructorDir : Entry := ⟨"constructor".toList,true,by decide⟩
def prodDir : Entry := ⟨"prod".toList,true,by decide⟩

def repository (dir : Str) : List Entry :=
  if dir = ROOT then [constructorDir,manifests]
  else if dir = "manifests".toList then [prodDir,appYaml]
  else [webYaml]

def opened : List Event :=
  [.render (some "/w".toList),.effects,.answer 0 (.ok (repository ROOT)),.render (some "/w".toList),.effects]

def refused : List Event :=
  opened ++ [.expand "manifests".toList,.answer 1 (.error "denied".toList),.render (some "/w".toList),.effects]

def Missed (run : List Event) (steps : List Str) : Prop :=
  ∃ s t, Run step anyStep fresh run s ∧ s.root = some "/w".toList ∧
    (∃ d ∈ shownAt s "/w".toList ROOT, d.status = .loaded) ∧ Present repository steps ∧
    step s (.locate (joined steps)) = some t ∧ (∀ call ∈ t.calls, call.reply ≠ none) ∧ ¬ Shown t "/w".toList steps

theorem missedRun {run : List Event} {steps : List Str} (there : Present repository steps)
    (ends : (exec step fresh run).any (fun s =>
      decide (s.root = some "/w".toList ∧ (∃ d ∈ shownAt s "/w".toList ROOT, d.status = .loaded)) &&
        (step s (.locate (joined steps))).any (fun t =>
          decide ((∀ call ∈ t.calls, call.reply ≠ none) ∧
            ∀ row ∈ visibleRows (treeFor t.trees (some "/w".toList)), row.entry.path ≠ joined steps))) = true) :
    Missed run steps := by
  obtain ⟨s,done,holds⟩ := (Option.any_eq_true _ _).mp ends
  obtain ⟨at_,next⟩ := (Bool.and_eq_true _ _).mp holds
  obtain ⟨root,loaded⟩ := of_decide_eq_true at_
  obtain ⟨t,taken,final⟩ := (Option.any_eq_true _ _).mp next
  obtain ⟨idle,missing⟩ := of_decide_eq_true final
  refine ⟨s,t,runOfExec done,root,loaded,there,taken,idle,fun shown => ?_⟩
  obtain ⟨row,member,path,_⟩ := shown.row
  exact missing row member path

theorem revealedShownMissed :
    Missed opened ["constructor".toList,"web.yaml".toList] ∧ Missed refused ["manifests".toList,"app.yaml".toList] :=
  ⟨missedRun (by decide) (by decide +kernel),missedRun (by decide) (by decide +kernel)⟩

def deep : List Str := ["manifests".toList,"prod".toList,"web.yaml".toList]

def landed : List Event :=
  [.answer 2 (.ok (repository "manifests/prod".toList)),.render (some "/w".toList),.effects,
    .answer 1 (.ok (repository "manifests".toList))]

theorem revealedShownLanded :
    ∃ s asked t, Run step anyStep fresh opened s ∧ step s (.locate (joined deep)) = some asked ∧
      Run step (Answers repository s.calls.length "/w".toList) asked landed t ∧ Shown t "/w".toList deep := by
  have ends : (exec step fresh opened).any (fun s =>
      decide (s.root = some "/w".toList ∧ (∃ d ∈ shownAt s "/w".toList ROOT, d.status = .loaded)) &&
        (step s (.locate (joined deep))).any (fun asked =>
          (exec (guarded step (Answers repository s.calls.length "/w".toList)) asked landed).any (fun t =>
            decide ((∀ call ∈ t.calls, call.root = "/w".toList → call.reply ≠ none) ∧
              Along (Leads repository s t.calls "/w".toList landed) [] deep)))) = true := by decide +kernel
  obtain ⟨s,done,holds⟩ := (Option.any_eq_true _ _).mp ends
  obtain ⟨at_,next⟩ := (Bool.and_eq_true _ _).mp holds
  obtain ⟨root,loaded⟩ := of_decide_eq_true at_
  obtain ⟨asked,taken,later⟩ := (Option.any_eq_true _ _).mp next
  obtain ⟨t,answered,final⟩ := (Option.any_eq_true _ _).mp later
  obtain ⟨idle,leads⟩ := of_decide_eq_true final
  have shown := revealedShown (runOfExec done) root loaded (by decide) (by decide) (.inl rfl) taken (runOfGuarded answered) idle
  exact ⟨s,asked,t,runOfExec done,taken,runOfGuarded answered,shown.mpr ⟨by decide,leads⟩⟩

end M6t.TreeReveal
