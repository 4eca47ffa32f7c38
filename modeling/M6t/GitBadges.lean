import M6t.GitStatus
import M6t.FileTree

/-! The markers a git status draws in the file tree: one for each path git reports, and one for
every directory above such a path or above the source of a rename. -/
namespace M6t.GitBadges
open M6t.Text M6t.GitStatus
open M6t.Editor (ROOT parentPath)

inductive Badge where
  | modified
  | added
  | deleted
  | renamed
  | copied
  | conflicted
  | untracked
  deriving DecidableEq, Repr

inductive DirBadge where
  | contains
  | conflicted
  deriving DecidableEq, Repr

structure Badges where
  files : List (Str × Badge)
  dirs : List (Str × DirBadge)
  deriving DecidableEq, Repr

def FILE_BADGES : State → Badge
  | .modified => .modified
  | .added => .added
  | .deleted => .deleted
  | .renamed => .renamed
  | .copied => .copied
  | .untracked => .untracked

def fileBadge (file : FileStatus) : Badge :=
  if file.conflicted then .conflicted
  else ((file.worktree.map FILE_BADGES).or (file.staged.map FILE_BADGES)).getD .modified

def pathOf (file : FileStatus) : Str := if file.path.getLast? = some '/' then file.path.dropLast else file.path

def isDirEntry (file : FileStatus) : Bool := file.path.getLast? = some '/'

/-- The directories above a path, innermost first, as many as the first argument at most. -/
def ancestorsWithin : Nat → Str → List Str
  | 0,_ => []
  | fuel + 1,path => if parentPath path = ROOT then [] else parentPath path :: ancestorsWithin fuel (parentPath path)

def ancestorsOf (path : Str) : List Str := ancestorsWithin path.length path

def mark (conflicted : Bool) (dirs : List (Str × DirBadge)) (dir : Str) : List (Str × DirBadge) :=
  if conflicted ∨ dirs.lookup dir ≠ some .conflicted then
    Records.put dirs dir (if conflicted then .conflicted else .contains)
  else dirs

def markAncestors (dirs : List (Str × DirBadge)) (path : Str) (conflicted : Bool) : List (Str × DirBadge) :=
  (ancestorsOf path).foldl (mark conflicted) dirs

def Badges.file (badges : Badges) (file : FileStatus) : Badges :=
  let dirs := markAncestors badges.dirs (pathOf file) file.conflicted
  { files := Records.put badges.files (pathOf file) (fileBadge file)
    dirs := if file.origPath ≠ [] then markAncestors dirs file.origPath file.conflicted else dirs }

def badgesFor (status : Status) : Badges := status.files.foldl Badges.file ⟨[],[]⟩

def Above (dir path : Str) : Prop := dir ≠ ROOT ∧ dir ++ ['/'] <+: path
instance (dir path) : Decidable (Above dir path) := inferInstanceAs (Decidable (_ ∧ _))

theorem aboveSplit {dir path : Str} : Above dir path ↔ dir ≠ ROOT ∧ ∃ rest, path = dir ++ '/' :: rest := by
  unfold Above
  refine and_congr_right (fun _ => exists_congr (fun rest => ?_))
  rw [List.append_assoc,List.singleton_append,eq_comm]

theorem aboveRoot (dir : Str) : ¬Above dir ROOT := by
  intro above
  have short := above.2.length_le
  simp [ROOT] at short

theorem parentRoot {path : Str} (flat : '/' ∉ path) : parentPath path = ROOT := by
  have none_ : path.reverse.dropWhile (fun c => decide (c ≠ '/')) = [] :=
    List.dropWhile_eq_nil_iff.mpr (fun c member => by
      have inside := List.mem_reverse.mp member
      exact decide_eq_true (fun same => flat (same ▸ inside)))
  simp only [parentPath,SlashPath.split]
  rw [none_]
  rfl

theorem parentCut {parent base : Str} (flat : '/' ∉ base) : parentPath (parent ++ '/' :: base) = parent := by
  have plain : ∀ c ∈ base.reverse, decide (c ≠ '/') = true := fun c member =>
    decide_eq_true (fun same => flat (same ▸ List.mem_reverse.mp member))
  have front : (parent ++ '/' :: base).reverse.dropWhile (fun c => decide (c ≠ '/')) = '/' :: parent.reverse := by
    rw [List.reverse_append,List.reverse_cons,List.append_assoc,List.dropWhile_append_of_pos plain]
    simp
  simp only [parentPath,SlashPath.split]
  rw [front]
  simp

theorem pathCut {path : Str} (deep : '/' ∈ path) : ∃ base, path = parentPath path ++ '/' :: base ∧ '/' ∉ base := by
  obtain ⟨back,front,whole,flat⟩ := List.eq_append_cons_of_mem (List.mem_reverse.mpr deep)
  have parts : path = front.reverse ++ '/' :: back.reverse := by
    have same := congrArg List.reverse whole
    simpa using same
  have base : '/' ∉ back.reverse := fun member => flat (List.mem_reverse.mp member)
  refine ⟨back.reverse,?_,base⟩
  rw [parts,parentCut base]

theorem aboveStep {dir path : Str} : Above dir path ↔ dir ≠ ROOT ∧ (dir = parentPath path ∨ Above dir (parentPath path)) := by
  rw [aboveSplit,aboveSplit]
  refine and_congr_right (fun inside => ?_)
  by_cases deep : '/' ∈ path
  · obtain ⟨base,whole,flat⟩ := pathCut deep
    constructor
    · rintro ⟨rest,split⟩
      rcases List.append_eq_append_iff.mp (split.symm.trans whole) with ⟨middle,parent,tail⟩ | ⟨middle,same,tail⟩
      · cases middle with
        | nil => exact .inl (by rw [parent,List.append_nil])
        | cons c middle =>
          obtain rfl : '/' = c := List.head_eq_of_cons_eq tail
          exact .inr ⟨inside,middle,parent⟩
      · cases middle with
        | nil => exact .inl (by rw [same,List.append_nil])
        | cons c middle =>
          have base_ : base = middle ++ '/' :: rest := List.tail_eq_of_cons_eq tail
          exact absurd (by rw [base_]; simp) flat
    · rintro (rfl | ⟨-,rest,parent⟩)
      · exact ⟨base,whole⟩
      · exact ⟨rest ++ '/' :: base,by rw [whole,parent]; simp⟩
  · rw [parentRoot deep]
    constructor
    · rintro ⟨rest,split⟩
      exact absurd (by rw [split]; simp) deep
    · rintro (root | ⟨-,rest,empty⟩)
      · exact absurd root inside
      · simp [ROOT] at empty

theorem parentShorter {path : Str} (deep : parentPath path ≠ ROOT) : (parentPath path).length < path.length := by
  by_cases slash : '/' ∈ path
  · obtain ⟨base,whole,-⟩ := pathCut slash
    have length := congrArg List.length whole
    rw [List.length_append,List.length_cons] at length
    omega
  · exact absurd (parentRoot slash) deep

theorem withinMember {fuel : Nat} {path dir : Str} (enough : path.length ≤ fuel) :
    dir ∈ ancestorsWithin fuel path ↔ Above dir path := by
  induction fuel generalizing path with
  | zero =>
    have empty : path = [] := List.length_eq_zero_iff.mp (Nat.le_zero.mp enough)
    rw [empty]
    simp [ancestorsWithin,Above]
  | succ fuel ih =>
    rw [ancestorsWithin,aboveStep]
    split
    · next root =>
      rw [root]
      exact ⟨fun none_ => absurd none_ List.not_mem_nil,fun ⟨inside,h⟩ =>
        h.elim (fun same => absurd same inside) (fun above => absurd above (aboveRoot dir))⟩
    · next deep =>
      have shorter := parentShorter deep
      rw [List.mem_cons,ih (by omega)]
      exact ⟨fun h => ⟨h.elim (fun same => same ▸ deep) (fun above => above.1),h⟩,And.right⟩

theorem ancestorsMember {path dir : Str} : dir ∈ ancestorsOf path ↔ Above dir path := withinMember (Nat.le_refl _)

def marksOf (file : FileStatus) : List (Str × Bool) :=
  ((ancestorsOf (pathOf file)) ++ ancestorsOf file.origPath).map (fun dir => (dir,file.conflicted))

def marks (files : List FileStatus) : List (Str × Bool) := files.flatMap marksOf

theorem markLookup (dirs : List (Str × DirBadge)) (conflicted : Bool) (dir other : Str) :
    (mark conflicted dirs dir).lookup other =
      if other = dir then if conflicted ∨ dirs.lookup dir = some .conflicted then some .conflicted else some .contains
      else dirs.lookup other := by
  unfold mark
  by_cases writes : conflicted = true ∨ dirs.lookup dir ≠ some .conflicted
  · rw [if_pos writes,Records.lookupPut]
    by_cases here : other = dir
    · rw [if_pos here,if_pos here]
      cases conflicted with
      | true => simp
      | false => simpa using writes
    · rw [if_neg here,if_neg here]
  · rw [if_neg writes]
    rw [not_or,not_not] at writes
    by_cases here : other = dir
    · rw [if_pos here,if_pos (.inr writes.2),here,writes.2]
    · rw [if_neg here]

def marked (dirs : List (Str × DirBadge)) (all : List (Str × Bool)) : List (Str × DirBadge) :=
  all.foldl (fun dirs each => mark each.2 dirs each.1) dirs

theorem markedLookup (all : List (Str × Bool)) (dirs : List (Str × DirBadge)) (dir : Str) :
    (marked dirs all).lookup dir =
      if (dir,true) ∈ all ∨ dirs.lookup dir = some .conflicted then some .conflicted
      else if (dir,false) ∈ all then some .contains
      else dirs.lookup dir := by
  induction all generalizing dirs with
  | nil =>
    by_cases hot : dirs.lookup dir = some .conflicted <;> simp [marked,hot]
  | cons each all ih =>
    obtain ⟨other,conflicted⟩ := each
    rw [show marked dirs ((other,conflicted) :: all) = marked (mark conflicted dirs other) all from rfl,ih,markLookup]
    by_cases here : dir = other
    · subst here
      cases conflicted <;> by_cases hot : dirs.lookup dir = some .conflicted <;> simp [hot]
    · simp [here]

theorem badgesDirs (files : List FileStatus) (badges : Badges) :
    (files.foldl Badges.file badges).dirs = marked badges.dirs (marks files) := by
  induction files generalizing badges with
  | nil => rfl
  | cons file files ih =>
    have own : (badges.file file).dirs = marked badges.dirs (marksOf file) := by
      have each : ∀ (dirs : List (Str × DirBadge)) path, markAncestors dirs path file.conflicted =
          marked dirs ((ancestorsOf path).map (fun dir => (dir,file.conflicted))) := fun dirs path => by
        rw [marked,List.foldl_map]
        rfl
      have none_ : ancestorsOf ROOT = [] := rfl
      simp only [Badges.file,marksOf,List.map_append]
      rw [marked,List.foldl_append]
      split
      · rw [each,each]
        rfl
      · next sourceless =>
        rw [not_not.mp sourceless,each]
        rfl
    rw [List.foldl_cons,ih,own,show marks (file :: files) = marksOf file ++ marks files from rfl,marked,marked,marked,
      List.foldl_append]

theorem marksMember {files : List FileStatus} {dir : Str} {conflicted : Bool} :
    (dir,conflicted) ∈ marks files ↔
      ∃ file ∈ files, file.conflicted = conflicted ∧ (Above dir (pathOf file) ∨ Above dir file.origPath) := by
  simp only [marks,marksOf,List.mem_flatMap,List.mem_map,List.mem_append,ancestorsMember,Prod.mk.injEq]
  refine exists_congr (fun file => and_congr_right (fun _ => ?_))
  constructor
  · rintro ⟨above,there,rfl,same⟩
    exact ⟨same,there⟩
  · rintro ⟨same,there⟩
    exact ⟨dir,there,rfl,same⟩

theorem dirBadge (status : Status) (dir : Str) :
    (badgesFor status).dirs.lookup dir =
      if (dir,true) ∈ marks status.files then some .conflicted
      else if (dir,false) ∈ marks status.files then some .contains
      else none := by
  rw [badgesFor,badgesDirs,markedLookup]
  simp

theorem fileBadges {files : List FileStatus} {badges : Badges} {path : Str} :
    ((files.foldl Badges.file badges).files.lookup path).isSome ↔
      (badges.files.lookup path).isSome ∨ ∃ file ∈ files, pathOf file = path := by
  induction files generalizing badges with
  | nil => simp
  | cons file files ih =>
    have own : ((badges.file file).files.lookup path).isSome ↔ path = pathOf file ∨ (badges.files.lookup path).isSome := by
      rw [Badges.file]
      simp only [Records.lookupPut]
      split <;> simp_all
    rw [List.foldl_cons,ih,own,List.exists_mem_cons_iff,or_assoc,or_left_comm,@eq_comm _ path]

/-- The path git reports, which for a directory it does not go into ends in a slash that the tree's path has not. -/
def Reports (file : FileStatus) (path : Str) : Prop := file.path = path ++ ['/'] ∨ file.path = path ∧ ¬ ['/'] <:+ path

theorem reportsPath {file : FileStatus} {path : Str} : Reports file path ↔ pathOf file = path := by
  unfold Reports pathOf
  rcases List.eq_nil_or_concat file.path with empty | ⟨front,last,whole⟩
  · rw [empty,if_neg (by simp)]
    constructor
    · rintro (same | ⟨same,_⟩)
      · simp at same
      · exact same
    · rintro rfl
      exact .inr ⟨rfl,by simp⟩
  · rw [List.concat_eq_append] at whole
    rw [whole,List.getLast?_concat]
    by_cases slash : last = '/'
    · subst slash
      rw [if_pos rfl,List.dropLast_concat]
      constructor
      · rintro (same | ⟨rfl,ends⟩)
        · exact List.append_cancel_right same
        · exact absurd (List.suffix_append front ['/']) ends
      · exact fun same => .inl (same ▸ rfl)
    · rw [if_neg (by simpa using slash)]
      constructor
      · rintro (same | ⟨same,_⟩)
        · exact absurd (List.append_inj' same rfl).2 (by simpa using slash)
        · exact same
      · rintro rfl
        exact .inr ⟨rfl,fun ends => slash (by simpa [eq_comm] using ends)⟩

/-- A directory is above what a record reports, or above the source of its rename. -/
def Covers (file : FileStatus) (dir : Str) : Prop := (∃ path, Reports file path ∧ Above dir path) ∨ Above dir file.origPath

theorem coversAbove {file : FileStatus} {dir : Str} : Covers file dir ↔ Above dir (pathOf file) ∨ Above dir file.origPath := by
  simp only [Covers,reportsPath,exists_eq_left']

theorem badgesMark (status : Status) :
    (∀ dir, (badgesFor status).dirs.lookup dir ≠ none ↔ ∃ file ∈ status.files, Covers file dir) ∧
    (∀ dir, (badgesFor status).dirs.lookup dir = some .conflicted ↔
      ∃ file ∈ status.files, file.conflicted = true ∧ Covers file dir) ∧
    (∀ other : Status, other.files.Perm status.files → ∀ dir,
      (badgesFor other).dirs.lookup dir = (badgesFor status).dirs.lookup dir) ∧
    (∀ path, (badgesFor status).files.lookup path ≠ none ↔ ∃ file ∈ status.files, Reports file path) := by
  refine ⟨fun dir => ?_,fun dir => ?_,fun other same dir => ?_,fun path => ?_⟩
  · have either : ((dir,true) ∈ marks status.files ∨ (dir,false) ∈ marks status.files) ↔
        ∃ file ∈ status.files, Covers file dir := by
      simp only [marksMember,coversAbove]
      constructor
      · rintro (⟨file,member,-,above⟩ | ⟨file,member,-,above⟩) <;> exact ⟨file,member,above⟩
      · rintro ⟨file,member,above⟩
        cases kind : file.conflicted with
        | true => exact .inl ⟨file,member,kind,above⟩
        | false => exact .inr ⟨file,member,kind,above⟩
    rw [← either,dirBadge]
    split
    · next hot => simp [hot]
    · next cold => split <;> simp_all
  · simp only [coversAbove]
    rw [← marksMember,dirBadge]
    split
    · next hot => simp [hot]
    · next cold => split <;> simp_all
  · have equal : ∀ each, each ∈ marks other.files ↔ each ∈ marks status.files := fun each => (same.flatMap_right _).mem_iff
    rw [dirBadge,dirBadge]
    simp only [equal]
  · simp only [reportsPath]
    rw [← Option.isSome_iff_ne_none,badgesFor,fileBadges]
    simp

def builtDir : FileStatus := ⟨"src/build/".toList,none,some .untracked,false,[]⟩
def movedFile : FileStatus := ⟨"a.go".toList,some .renamed,none,true,"old/a.go".toList⟩
def building : Status := { statusFor .available with files := [builtDir,movedFile] }

theorem buildingMarked :
    (badgesFor building).files.lookup "src/build".toList ≠ none ∧ (badgesFor building).dirs.lookup "src".toList ≠ none ∧
      (badgesFor building).dirs.lookup "old".toList = some .conflicted := by
  obtain ⟨dirs,conflicted,_,files⟩ := badgesMark building
  refine ⟨(files _).mpr ⟨builtDir,by simp [building],.inl rfl⟩,(dirs _).mpr ⟨builtDir,by simp [building],.inl ?_⟩,
    (conflicted _).mpr ⟨movedFile,by simp [building],rfl,.inr (by decide)⟩⟩
  exact ⟨"src/build".toList,.inl rfl,by decide⟩

end M6t.GitBadges
