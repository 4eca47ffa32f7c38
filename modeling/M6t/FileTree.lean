import M6t.Editor
import M6t.ProjectTrees

/-! The file tree of one project: the listings it holds, the directories that are
open, and the rows these come to. Whether a file is a manifest is left out, no row
depends on it. -/
namespace M6t.FileTree
open M6t.Text M6t.ProjectTrees
open M6t.SlashPath (Plain joined elements)
open M6t.Editor (ROOT parentPath baseName)

structure Entry where
  name : Str
  isDir : Bool
  plain : Plain name
  deriving DecidableEq, Repr

structure TreeEntry where
  name : Str
  isDir : Bool
  path : Str
  deriving DecidableEq, Repr

inductive DirStatus | loading | loaded | error
  deriving DecidableEq, Repr

structure DirState where
  status : DirStatus
  children : List TreeEntry
  error : Option Str
  deriving DecidableEq, Repr

abbrev Dirs := List (Str × DirState)

structure TreeState where
  dirs : Dirs
  expanded : List Str
  selected : Option Str
  showHidden : Bool
  changedOnly : Bool
  locateRequest : Nat
  deriving DecidableEq, Repr

def initialTree : TreeState := ⟨[],[ROOT],none,false,false,0⟩

def PROTOTYPE : List Str :=
  ["constructor","__defineGetter__","__defineSetter__","hasOwnProperty","__lookupGetter__","__lookupSetter__",
    "isPrototypeOf","propertyIsEnumerable","toString","valueOf","__proto__","toLocaleString"].map String.toList

/-- `dir in dirs`, which looks along the prototype chain. -/
def inRecord (dirs : Dirs) (dir : Str) : Prop := (dirs.lookup dir).isSome ∨ dir ∈ PROTOTYPE
instance (dirs dir) : Decidable (inRecord dirs dir) := inferInstanceAs (Decidable (_ ∨ _))

def childrenOf (dirs : Dirs) (dir : Str) : List TreeEntry := ((dirs.lookup dir).map DirState.children).getD []

def withDir (state : TreeState) (dir : Str) (next : DirState) : TreeState :=
  { state with dirs := Records.put state.dirs dir next }

def withLoading (state : TreeState) (dir : Str) : TreeState :=
  withDir state dir ⟨.loading,childrenOf state.dirs dir,none⟩

def joinPath (dir name : Str) : Str := if dir = ROOT then name else dir ++ '/' :: name

def listed (dir : Str) (entries : List Entry) : List TreeEntry :=
  entries.map (fun e => ⟨e.name,e.isDir,joinPath dir e.name⟩)

def withListing (state : TreeState) (dir : Str) (entries : List Entry) : TreeState :=
  withDir state dir ⟨.loaded,listed dir entries,none⟩

def withError (state : TreeState) (dir message : Str) : TreeState :=
  withDir state dir ⟨.error,childrenOf state.dirs dir,some message⟩

def ancestry (path : Str) : List Str :=
  (elements path).foldl
    (fun chain segment =>
      chain ++ [match chain.getLast? with | none => segment | some last => last ++ '/' :: segment]) []

def isHidden (name : Str) : Bool := name.head? = some '.'

def addTo (expanded : List Str) (path : Str) : List Str := if path ∈ expanded then expanded else expanded ++ [path]

def expand (state : TreeState) (dir : Str) : TreeState := { state with expanded := addTo state.expanded dir }

def collapse (state : TreeState) (dir : Str) : TreeState :=
  { state with expanded := state.expanded.filter (fun path => path ≠ dir) }

def reveal (state : TreeState) (dir : Str) : TreeState :=
  let chain := ancestry dir
  { state with
    expanded := chain.foldl addTo state.expanded
    selected := some dir
    showHidden := state.showHidden || chain.any (fun path => isHidden (baseName path))
    changedOnly := false }

def locate (state : TreeState) (path : Str) : TreeState :=
  let revealed := reveal state (parentPath path)
  { revealed with
    selected := some path
    locateRequest := state.locateRequest + 1
    showHidden := revealed.showHidden || (ancestry path).any (fun step => isHidden (baseName step)) }

def select (state : TreeState) (path : Option Str) : TreeState := { state with selected := path }
def toggleHidden (state : TreeState) : TreeState := { state with showHidden := !state.showHidden }
def toggleChangedOnly (state : TreeState) : TreeState := { state with changedOnly := !state.changedOnly }

structure RestoredTree where
  expanded : List Str
  selected : Option Str
  showHidden : Bool
  changedOnly : Bool
  deriving DecidableEq, Repr

def restoreTree (state : TreeState) (saved : RestoredTree) : TreeState :=
  { state with
    expanded := (ROOT :: saved.expanded).foldl addTo []
    selected := saved.selected
    showHidden := saved.showHidden
    changedOnly := saved.changedOnly }

structure TreeRow where
  entry : TreeEntry
  depth : Nat
  deriving DecidableEq, Repr

def visibleChildren (state : TreeState) (dir : Str) : List TreeEntry :=
  let listed := childrenOf state.dirs dir
  if state.showHidden then listed else listed.filter (fun e => !isHidden e.name)

def walk (state : TreeState) : Nat → Str → Nat → List TreeRow
  | 0,_,_ => []
  | fuel + 1,dir,depth =>
    (visibleChildren state dir).flatMap (fun entry =>
      ⟨entry,depth⟩ :: if entry.isDir ∧ entry.path ∈ state.expanded then walk state fuel entry.path (depth + 1) else [])

/-- Below a directory of a path as long as any that is open, none is. -/
def deepest (state : TreeState) : Nat := (state.expanded.map List.length).foldr max 0

def visibleRows (state : TreeState) : List TreeRow := walk state (deepest state + 2) ROOT 0

def openDirs (state : TreeState) : List Str :=
  ROOT :: ((visibleRows state).filter (fun row => row.entry.isDir ∧ row.entry.path ∈ state.expanded)).map
    (fun row => row.entry.path)

def affectedTrackedDirs (state : TreeState) (wireDirs : List Str) : List Str :=
  (wireDirs.map (fun dir => if dir = ".".toList then ROOT else dir)).filter (fun dir => inRecord state.dirs dir)

instance : ProjectTrees.Filtered TreeState where
  initialTree := initialTree
  changedOnly := TreeState.changedOnly
  withFilter on tree := { tree with changedOnly := on }
  filtered _ _ := rfl
  unmoved _ := rfl

def dirsAt (trees : ProjectTrees TreeState) (root : Str) : Dirs := (treeFor trees (some root)).dirs

theorem dirsLookup (trees : ProjectTrees TreeState) (root : Str) :
    dirsAt trees root = ((trees.lookup root).map TreeState.dirs).getD [] := by
  unfold dirsAt treeFor
  cases found : trees.lookup root <;> simp [found,Filtered.initialTree,withFilter,initialTree]

theorem dirsWithTree (trees : ProjectTrees TreeState) (root other : Str) (next : TreeState) :
    dirsAt (withTree trees root next) other = if other = root then next.dirs else dirsAt trees other := by
  by_cases same : other = root
  · subst same
    rw [if_pos rfl,dirsLookup,lookupWithTree]
    rfl
  · obtain ⟨on,other⟩ := lookupElsewhere trees root other next same
    rw [if_neg same,dirsLookup,dirsLookup,other,Option.map_map]
    rfl

theorem childrenWithDir (state : TreeState) (dir : Str) (next : DirState) (other : Str) :
    childrenOf (withDir state dir next).dirs other = if other = dir then next.children else childrenOf state.dirs other := by
  unfold childrenOf
  rw [show (withDir state dir next).dirs = Records.put state.dirs dir next from rfl,Records.lookupPut]
  split <;> rfl

theorem childrenLoading (state : TreeState) (dir other : Str) :
    childrenOf (withLoading state dir).dirs other = childrenOf state.dirs other := by
  unfold withLoading
  rw [childrenWithDir]
  split
  · next same => rw [same]
  · rfl

theorem childrenError (state : TreeState) (dir message other : Str) :
    childrenOf (withError state dir message).dirs other = childrenOf state.dirs other := by
  unfold withError
  rw [childrenWithDir]
  split
  · next same => rw [same]
  · rfl

theorem childrenListing (state : TreeState) (dir : Str) (entries : List Entry) (other : Str) :
    childrenOf (withListing state dir entries).dirs other =
      if other = dir then listed dir entries else childrenOf state.dirs other :=
  childrenWithDir state dir _ other

def Placed (dirs : Dirs) : Prop :=
  ∀ dir, ∀ entry ∈ childrenOf dirs dir, Plain entry.name ∧ entry.path = joinPath dir entry.name

theorem placedListing {state : TreeState} (placed : Placed state.dirs) (dir : Str) (entries : List Entry) :
    Placed (withListing state dir entries).dirs := by
  intro other entry member
  rw [childrenListing] at member
  split at member
  · next same =>
    obtain ⟨e,_,rfl⟩ := List.mem_map.mp member
    exact ⟨e.plain,by rw [same]⟩
  · exact placed other entry member

theorem listedInjective (dir : Str) : Function.Injective (listed dir) := by
  refine List.map_injective_iff.mpr (fun one two same => ?_)
  obtain ⟨name,isDir,_⟩ := one
  cases two
  simp only [TreeEntry.mk.injEq] at same
  obtain ⟨rfl,rfl,_⟩ := same
  rfl

variable {front steps rest : List Str} {name : Str}

theorem joinedOne (name : Str) : joined [name] = name := by simp [joined]

theorem joinedNil (plain : ∀ n ∈ front, Plain n) (none_ : joined front = []) : front = [] := by
  have back := SlashPath.elementsJoined plain
  rw [none_] at back
  exact back.symm

theorem joinedInjective {other : List Str} (plain : ∀ n ∈ steps, Plain n) (also : ∀ n ∈ other, Plain n)
    (same : joined steps = joined other) : steps = other := by
  rw [← SlashPath.elementsJoined plain,same,SlashPath.elementsJoined also]

theorem joinSnoc (plain : ∀ n ∈ front, Plain n) (name : Str) : joinPath (joined front) name = joined (front ++ [name]) := by
  unfold joinPath
  split
  · next root =>
    rw [joinedNil plain root,List.nil_append,joinedOne]
  · next below =>
    have some_ : front ≠ [] := fun none_ => below (by rw [none_]; rfl)
    rw [SlashPath.joinedAppend some_ (by simp),joinedOne]
    simp [SlashPath.slash]

theorem splitSnoc (plain : ∀ n ∈ front, Plain n) (whole : Plain name) :
    SlashPath.split (joined (front ++ [name])) = (if front = [] then [] else joined front ++ ['/'],name) := by
  have inside : ∀ c ∈ name.reverse, decide (c ≠ '/') = true := by
    intro c member
    exact decide_eq_true (fun same => whole.2.2 (same ▸ List.mem_reverse.mp member))
  by_cases root : front = []
  · subst root
    rw [List.nil_append,joinedOne]
    unfold SlashPath.split
    rw [List.dropWhile_eq_nil_iff.mpr inside,List.takeWhile_eq_self_iff.mpr inside]
    simp
  · rw [SlashPath.joinedAppend root (by simp),joinedOne,if_neg root]
    unfold SlashPath.split
    rw [List.reverse_append,List.dropWhile_append_of_pos inside,List.takeWhile_append_of_pos inside]
    simp [SlashPath.slash]

theorem parentSnoc (plain : ∀ n ∈ front, Plain n) (whole : Plain name) :
    parentPath (joined (front ++ [name])) = joined front := by
  unfold parentPath
  rw [splitSnoc plain whole]
  by_cases root : front = []
  · subst root
    rfl
  · rw [if_neg root]
    simp

theorem baseSnoc (plain : ∀ n ∈ front, Plain n) (whole : Plain name) : baseName (joined (front ++ [name])) = name := by
  unfold baseName
  rw [splitSnoc plain whole]

theorem separators (plain : ∀ n ∈ steps, Plain n) : (joined steps).count '/' = steps.length - 1 := by
  induction steps using List.reverseRecOn with
  | nil => rfl
  | append_singleton front name ih =>
    have whole := plain name (by simp)
    have before : ∀ n ∈ front, Plain n := fun n member => plain n (List.mem_append_left _ member)
    by_cases root : front = []
    · subst root
      rw [List.nil_append,joinedOne]
      exact List.count_eq_zero.mpr whole.2.2
    · have some_ := List.length_pos_iff.mpr root
      rw [SlashPath.joinedAppend root (by simp),joinedOne,List.count_append,List.count_append,ih before,
        List.count_eq_zero.mpr whole.2.2,List.length_append]
      simp [SlashPath.slash]
      omega

def chainOf (steps : List Str) : List Str :=
  steps.foldl
    (fun chain segment =>
      chain ++ [match chain.getLast? with | none => segment | some last => last ++ '/' :: segment]) []

theorem chainSnoc (front : List Str) (name : Str) :
    chainOf (front ++ [name]) =
      chainOf front ++ [match (chainOf front).getLast? with | none => name | some last => last ++ '/' :: name] := by
  unfold chainOf
  rw [List.foldl_append]
  rfl

theorem chainLast (plain : ∀ n ∈ steps, Plain n) :
    (chainOf steps).getLast? = if steps = [] then none else some (joined steps) := by
  induction steps using List.reverseRecOn with
  | nil => rfl
  | append_singleton front name ih =>
    have before : ∀ n ∈ front, Plain n := fun n member => plain n (List.mem_append_left _ member)
    rw [chainSnoc,List.getLast?_append,List.getLast?_singleton,Option.some_or,ih before,
      if_neg (show front ++ [name] ≠ [] by simp)]
    by_cases root : front = []
    · subst root
      simp [joinedOne]
    · rw [if_neg root,SlashPath.joinedAppend root (by simp),joinedOne]
      simp [SlashPath.slash]

theorem chainMember (plain : ∀ n ∈ steps, Plain n) {dir : Str} :
    dir ∈ chainOf steps ↔ ∃ front rest, steps = front ++ rest ∧ front ≠ [] ∧ dir = joined front := by
  induction steps using List.reverseRecOn with
  | nil => simp [chainOf]
  | append_singleton before name ih =>
    have plainBefore : ∀ n ∈ before, Plain n := fun n member => plain n (List.mem_append_left _ member)
    have last := chainLast plain
    rw [chainSnoc] at last ⊢
    rw [List.getLast?_append,if_neg (by simp),List.getLast?_singleton,Option.some_or,Option.some.injEq] at last
    rw [last,List.mem_append,List.mem_singleton,ih plainBefore]
    constructor
    · rintro (⟨front,rest,rfl,some_,rfl⟩ | rfl)
      · exact ⟨front,rest ++ [name],by simp,some_,rfl⟩
      · exact ⟨before ++ [name],[],by simp,by simp,rfl⟩
    · rintro ⟨front,rest,whole,some_,rfl⟩
      rcases List.eq_nil_or_concat' rest with rfl | ⟨more,final,rfl⟩
      · exact .inr (by rw [whole,List.append_nil])
      · rw [← List.append_assoc] at whole
        obtain ⟨rfl,_⟩ := List.append_inj' whole rfl
        exact .inl ⟨front,more,rfl,some_,rfl⟩

theorem ancestryMember (plain : ∀ n ∈ steps, Plain n) {dir : Str} :
    dir ∈ ancestry (joined steps) ↔ ∃ front rest, steps = front ++ rest ∧ front ≠ [] ∧ dir = joined front := by
  unfold ancestry
  rw [SlashPath.elementsJoined plain]
  exact chainMember plain

def Along (P : List Str → Str → List Str → Prop) : List Str → List Str → Prop
  | _,[] => True
  | front,name :: rest => P front name rest ∧ Along P (front ++ [name]) rest

instance instDecidableAlong (P : List Str → Str → List Str → Prop) [∀ front name rest, Decidable (P front name rest)] :
    ∀ front steps, Decidable (Along P front steps)
  | _,[] => isTrue trivial
  | front,name :: rest =>
    haveI := instDecidableAlong P (front ++ [name]) rest
    inferInstanceAs (Decidable (_ ∧ _))

theorem alongSplit {P : List Str → Str → List Str → Prop} :
    Along P front steps ↔ ∀ before name after, steps = before ++ name :: after → P (front ++ before) name after := by
  induction steps generalizing front with
  | nil => exact iff_of_true trivial (fun before name after none_ => by simp at none_)
  | cons first rest ih =>
    constructor
    · rintro ⟨here,below⟩ before name after split
      rcases List.cons_eq_append_iff.mp split with ⟨rfl,same⟩ | ⟨inner,rfl,whole⟩
      · obtain ⟨rfl,rfl⟩ := List.cons.inj same
        rw [List.append_nil]
        exact here
      · have there := ih.mp below inner name after whole
        rwa [List.append_assoc] at there
    · intro all
      refine ⟨by simpa using all [] first rest rfl,ih.mpr (fun before name after whole => ?_)⟩
      have there := all (first :: before) name after (by rw [whole]; rfl)
      rwa [List.append_assoc]

def Holds (children : List TreeEntry) (name : Str) (rest : List Str) : Prop :=
  ∃ entry ∈ children, entry.name = name ∧ (rest = [] ∨ entry.isDir = true)
instance (children name rest) : Decidable (Holds children name rest) := by unfold Holds; infer_instance

def Reaches (tree : TreeState) (front : List Str) (name : Str) (rest : List Str) : Prop :=
  ∃ entry ∈ visibleChildren tree (joined front),
    entry.name = name ∧ (rest = [] ∨ entry.isDir = true ∧ joined (front ++ [name]) ∈ tree.expanded)

variable {tree : TreeState} {row : TreeRow} {fuel depth : Nat}

theorem visibleListed {dir : Str} {entry : TreeEntry} (member : entry ∈ visibleChildren tree dir) :
    entry ∈ childrenOf tree.dirs dir := by
  unfold visibleChildren at member
  simp only at member
  split at member
  · exact member
  · exact (List.mem_filter.mp member).1

theorem walkMember {dir : Str} :
    row ∈ walk tree (fuel + 1) dir depth ↔
      ∃ entry ∈ visibleChildren tree dir, row = ⟨entry,depth⟩ ∨
        (entry.isDir = true ∧ entry.path ∈ tree.expanded) ∧ row ∈ walk tree fuel entry.path (depth + 1) := by
  rw [walk,List.mem_flatMap]
  refine exists_congr (fun entry => and_congr_right (fun _ => ?_))
  rw [List.mem_cons]
  split
  · next open_ => simp [open_]
  · next shut => simp [shut]

theorem childPath (placed : Placed tree.dirs) (plain : ∀ n ∈ front, Plain n) {entry : TreeEntry}
    (member : entry ∈ visibleChildren tree (joined front)) :
    entry.path = joined (front ++ [entry.name]) ∧ ∀ n ∈ front ++ [entry.name], Plain n := by
  obtain ⟨whole,path⟩ := placed _ entry (visibleListed member)
  refine ⟨by rw [path,joinSnoc plain],?_⟩
  intro n inside
  rcases List.mem_append.mp inside with before | last
  · exact plain n before
  · exact List.mem_singleton.mp last ▸ whole

theorem walkBelow (placed : Placed tree.dirs) (plain : ∀ n ∈ front, Plain n)
    (member : row ∈ walk tree fuel (joined front) depth) :
    ∃ more, more ≠ [] ∧ (∀ n ∈ front ++ more, Plain n) ∧ row.entry.path = joined (front ++ more) := by
  induction fuel generalizing front depth with
  | zero => exact absurd member (by simp [walk])
  | succ fuel ih =>
    obtain ⟨entry,child,here | ⟨_,below⟩⟩ := walkMember.mp member
    · obtain ⟨path,all⟩ := childPath placed plain child
      exact ⟨[entry.name],by simp,all,here ▸ path⟩
    · obtain ⟨path,all⟩ := childPath placed plain child
      rw [path] at below
      obtain ⟨more,_,plainMore,rowPath⟩ := ih all below
      refine ⟨entry.name :: more,by simp,?_,?_⟩
      · rwa [List.append_assoc] at plainMore
      · rwa [List.append_assoc] at rowPath

theorem walkReaches (placed : Placed tree.dirs) (plain : ∀ n ∈ front ++ steps, Plain n) :
    (∃ row ∈ walk tree fuel (joined front) depth,
        row.entry.path = joined (front ++ steps) ∧ row.depth + 1 = depth + steps.length) ↔
      steps ≠ [] ∧ steps.length ≤ fuel ∧ Along (Reaches tree) front steps := by
  -- On the names still ahead: the row is a child here, or lies below the one child that bears the next name.
  induction steps generalizing front fuel depth with
  | nil =>
    refine iff_of_false ?_ (fun both => both.1 rfl)
    rintro ⟨row,member,path,_⟩
    rw [List.append_nil] at plain path
    obtain ⟨more,some_,all,same⟩ := walkBelow placed plain member
    have none_ := joinedInjective all plain (same.symm.trans path)
    exact some_ (by simpa using none_)
  | cons name rest ih =>
    have next : front ++ name :: rest = (front ++ [name]) ++ rest := by simp
    have before : ∀ n ∈ front, Plain n := fun n member => plain n (List.mem_append_left _ member)
    cases fuel with
    | zero => exact iff_of_false (by simp [walk]) (fun both => by simp at both)
    | succ fuel =>
      constructor
      · rintro ⟨row,member,path,at_⟩
        obtain ⟨entry,child,rfl | ⟨open_,below⟩⟩ := walkMember.mp member
        · obtain ⟨placedAt,all⟩ := childPath placed before child
          have same := joinedInjective all plain (placedAt.symm.trans path)
          obtain ⟨named,none_⟩ := List.cons.inj (List.append_cancel_left same)
          subst none_
          exact ⟨by simp,by simp,⟨entry,child,named,.inl rfl⟩,trivial⟩
        · obtain ⟨placedAt,all⟩ := childPath placed before child
          rw [placedAt] at below
          obtain ⟨more,_,plainMore,rowPath⟩ := walkBelow placed all below
          have same := joinedInjective plainMore plain (rowPath.symm.trans path)
          rw [List.append_assoc] at same
          obtain ⟨named,_⟩ := List.cons.inj (List.append_cancel_left same)
          subst named
          have deeper := (@ih (front ++ [entry.name]) fuel (depth + 1) (by rwa [← next])).mp
            ⟨row,below,by rw [path,next],by simp only [List.length_cons] at at_; omega⟩
          refine ⟨by simp,by simpa using deeper.2.1,⟨entry,child,rfl,.inr ⟨open_.1,placedAt ▸ open_.2⟩⟩,deeper.2.2⟩
      · rintro ⟨_,enough,⟨entry,child,named,reach⟩,along⟩
        subst named
        obtain ⟨placedAt,_⟩ := childPath placed before child
        by_cases last : rest = []
        · subst last
          exact ⟨⟨entry,depth⟩,walkMember.mpr ⟨entry,child,.inl rfl⟩,placedAt,by simp⟩
        · obtain ⟨isDir,open_⟩ := reach.resolve_left last
          obtain ⟨row,below,path,at_⟩ := (@ih (front ++ [entry.name]) fuel (depth + 1)
            (by rwa [← next])).mpr ⟨last,by simpa using enough,along⟩
          rw [← placedAt] at below open_
          refine ⟨row,walkMember.mpr ⟨entry,child,.inr ⟨⟨isDir,open_⟩,below⟩⟩,by rw [path,next],?_⟩
          simp only [List.length_cons]
          omega

theorem expandedDepth {path : Str} (open_ : path ∈ tree.expanded) : path.length ≤ deepest tree := by
  unfold deepest
  generalize tree.expanded = expanded at open_ ⊢
  induction expanded with
  | nil => simp at open_
  | cons first rest ih =>
    rw [List.map_cons,List.foldr_cons]
    rcases List.mem_cons.mp open_ with rfl | later
    · exact Nat.le_max_left _ _
    · exact (ih later).trans (Nat.le_max_right _ _)

theorem reachesDepth (plain : ∀ n ∈ steps, Plain n) (along : Along (Reaches tree) [] steps) :
    steps.length ≤ deepest tree + 2 := by
  rcases List.eq_nil_or_concat' steps with rfl | ⟨above,last,rfl⟩
  · exact Nat.zero_le _
  · rcases List.eq_nil_or_concat' above with rfl | ⟨front,name,rfl⟩
    · simp
    · obtain ⟨entry,_,_,reach⟩ := alongSplit.mp along front name [last] (by simp)
      have open_ := (reach.resolve_left (by simp)).2
      have before : ∀ n ∈ front ++ [name], Plain n := fun n member => plain n (List.mem_append_left _ member)
      have slashes := separators before
      have long := (List.count_le_length (a := '/') (l := joined (front ++ [name]))).trans (expandedDepth open_)
      rw [slashes] at long
      simp only [List.length_append,List.length_singleton] at long ⊢
      omega

theorem visibleReaches (placed : Placed tree.dirs) (plain : ∀ n ∈ steps, Plain n) :
    (∃ row ∈ visibleRows tree, row.entry.path = joined steps ∧ row.depth = (joined steps).count '/') ↔
      steps ≠ [] ∧ Along (Reaches tree) [] steps := by
  have rows := @walkReaches [] steps tree (deepest tree + 2) 0 placed (by simpa using plain)
  rw [separators plain]
  by_cases root : steps = []
  · subst root
    refine iff_of_false ?_ (fun both => both.1 rfl)
    rintro ⟨row,member,path,_⟩
    have top : row ∈ walk tree (deepest tree + 2) (joined []) 0 := member
    obtain ⟨more,some_,all,same⟩ := walkBelow placed (by simp) top
    exact some_ (by simpa using joinedInjective all plain (same.symm.trans path))
  · have count := List.length_pos_iff.mpr root
    constructor
    · rintro ⟨row,member,path,at_⟩
      have reaches := rows.mp ⟨row,member,path,by omega⟩
      exact ⟨root,reaches.2.2⟩
    · rintro ⟨_,along⟩
      obtain ⟨row,member,path,at_⟩ := rows.mpr ⟨root,reachesDepth plain along,along⟩
      exact ⟨row,member,path,by omega⟩

/-- Every directory above the path is open, and nothing on it is filtered out. -/
structure Opened (tree : TreeState) (steps : List Str) : Prop where
  expanded : ∀ front rest, steps = front ++ rest → front ≠ [] → rest ≠ [] → joined front ∈ tree.expanded
  unhidden : tree.showHidden = true ∨ ∀ name ∈ steps, isHidden name = false

theorem openedReaches (opened : Opened tree steps) :
    Along (Reaches tree) [] steps ↔ Along (fun front => Holds (childrenOf tree.dirs (joined front))) [] steps := by
  rw [alongSplit,alongSplit]
  refine forall_congr' (fun front => forall_congr' (fun name => forall_congr' (fun rest => ?_)))
  refine imp_congr_right (fun split => ?_)
  have shows : ∀ entry, entry.name = name →
      (entry ∈ visibleChildren tree (joined front) ↔ entry ∈ childrenOf tree.dirs (joined front)) := by
    intro entry named
    unfold visibleChildren
    simp only
    rcases opened.unhidden with all | plainly
    · rw [if_pos all]
    · split
      · rfl
      · rw [List.mem_filter,named,plainly name (by simp [split])]
        simp
  constructor
  · rintro ⟨entry,child,named,reach⟩
    exact ⟨entry,(shows entry named).mp child,named,reach.imp_right And.left⟩
  · rintro ⟨entry,child,named,reach⟩
    refine ⟨entry,(shows entry named).mpr child,named,?_⟩
    by_cases last : rest = []
    · exact .inl last
    · exact .inr ⟨reach.resolve_left last,opened.expanded (front ++ [name]) rest (by simpa using split) (by simp) last⟩

theorem addToMember {expanded : List Str} {path dir : Str} : dir ∈ addTo expanded path ↔ dir ∈ expanded ∨ dir = path := by
  unfold addTo
  split
  · next there => exact ⟨.inl,fun either => either.elim id (fun same => same ▸ there)⟩
  · simp

theorem addAllMember {expanded dirs : List Str} {dir : Str} :
    dir ∈ dirs.foldl addTo expanded ↔ dir ∈ expanded ∨ dir ∈ dirs := by
  induction dirs generalizing expanded with
  | nil => simp
  | cons first rest ih => rw [List.foldl_cons,ih,addToMember,List.mem_cons,or_assoc]

theorem hiddenAbove (plain : ∀ n ∈ steps, Plain n)
    (clear : (ancestry (joined steps)).any (fun step => isHidden (baseName step)) = false) :
    ∀ name ∈ steps, isHidden name = false := by
  intro name member
  obtain ⟨front,rest,rfl⟩ := List.append_of_mem member
  have before : ∀ n ∈ front, Plain n := fun n inside => plain n (List.mem_append_left _ inside)
  have there : joined (front ++ [name]) ∈ ancestry (joined (front ++ name :: rest)) :=
    (ancestryMember plain).mpr ⟨front ++ [name],rest,by simp,by simp,rfl⟩
  have shown := List.any_eq_false.mp clear _ there
  rw [baseSnoc before (plain name member)] at shown
  simpa using shown

theorem revealOpens (tree : TreeState) (plain : ∀ n ∈ steps, Plain n) : Opened (reveal tree (joined steps)) steps := by
  refine ⟨fun front rest split some_ _ => ?_,?_⟩
  · exact addAllMember.mpr (.inr ((ancestryMember plain).mpr ⟨front,rest,split,some_,rfl⟩))
  · cases hidden : (ancestry (joined steps)).any (fun step => isHidden (baseName step)) with
    | true => exact .inl (by simp [reveal,hidden])
    | false => exact .inr (hiddenAbove plain hidden)

theorem locateAbove (plain : ∀ n ∈ steps, Plain n) (split : steps = front ++ rest)
    (some_ : front ≠ []) (more : rest ≠ []) :
    joined front ∈ ancestry (parentPath (joined steps)) := by
  obtain ⟨inner,last,rfl⟩ := (List.eq_nil_or_concat' rest).resolve_left more
  have whole : steps = (front ++ inner) ++ [last] := by rw [split,List.append_assoc]
  have above : ∀ n ∈ front ++ inner, Plain n := fun n member => plain n (by rw [whole]; exact List.mem_append_left _ member)
  rw [whole,parentSnoc above (plain last (by simp [split]))]
  exact (ancestryMember above).mpr ⟨front,inner,rfl,some_,rfl⟩

theorem locateOpens (tree : TreeState) (plain : ∀ n ∈ steps, Plain n) : Opened (locate tree (joined steps)) steps := by
  refine ⟨fun front rest split some_ more => ?_,?_⟩
  · exact addAllMember.mpr (.inr (locateAbove plain split some_ more))
  · cases hidden : (ancestry (joined steps)).any (fun step => isHidden (baseName step)) with
    | true => exact .inl (by simp [locate,hidden])
    | false => exact .inr (hiddenAbove plain hidden)

end M6t.FileTree
