import M6t.GitBadges
import Mathlib.Data.List.Dedup

/-! Whether git tracks a path, asked of the status alone. The working tree the status is of:
the files in the index, the files on disk that are not, and what git writes of the two. -/
namespace M6t.GitTracked
open M6t.Text M6t.GitStatus M6t.GitBadges

def isTracked (status : Status) (path : Str) : Bool :=
  if status.availability ≠ .available then false
  else
    match status.files.find? (fun file => file.path = path) with
    | none => true
    | some entry => entry.worktree ≠ some .untracked

/-- What a changed record may be about: a file of the index, or one that was taken out of it. -/
def Differs (tracked : List Str) : Record → Prop
  | .ordinary x _ _ path => path ∈ tracked ∨ x = 'D'
  | .renamed _ _ _ path _ => path ∈ tracked
  | .unmerged _ _ path => path ∈ tracked
  | _ => False
instance differsDecidable (tracked : List Str) : (record : Record) → Decidable (Differs tracked record)
  | .ordinary x _ _ path => inferInstanceAs (Decidable (path ∈ tracked ∨ x = 'D'))
  | .renamed _ _ _ path _ => inferInstanceAs (Decidable (path ∈ tracked))
  | .unmerged _ _ path => inferInstanceAs (Decidable (path ∈ tracked))
  | .header _ => .isFalse id
  | .untracked _ => .isFalse id
  | .unknown _ => .isFalse id

def FilePath (path : Str) : Prop := path.getLast? ≠ some '/' ∧ recordSeparator ∉ path
instance (path) : Decidable (FilePath path) := inferInstanceAs (Decidable (_ ∧ _))

structure Worktree where
  headers : List Header
  tracked : List Str
  untracked : List Str
  changes : List Record
  paths : ∀ path ∈ tracked ++ untracked, FilePath path
  apart : ∀ path ∈ untracked, path ∉ tracked
  differs : ∀ record ∈ changes, Differs tracked record
  wf : ∀ record ∈ headers.map Record.header ++ changes, record.Wf

/-- An untracked file as git names it: the outermost directory without a tracked file in it, or else the file. -/
def shownAs (tracked : List Str) (path : Str) : Str :=
  match (ancestorsOf path).reverse.find? (fun dir => ∀ other ∈ tracked, ¬Above dir other) with
  | some dir => dir ++ ['/']
  | none => path

def Worktree.others (w : Worktree) : List Str := (w.untracked.map (shownAs w.tracked)).dedup

def Worktree.report (w : Worktree) : List Record :=
  w.headers.map Record.header ++ w.changes ++ w.others.map Record.untracked

def Shared (tracked : List Str) (path : Str) : Prop := ∀ dir, Above dir path → ∃ other ∈ tracked, Above dir other

theorem shownShared {tracked : List Str} {path : Str} (shared : Shared tracked path) : shownAs tracked path = path := by
  have none_ : (ancestorsOf path).reverse.find? (fun dir => ∀ other ∈ tracked, ¬Above dir other) = none := by
    refine List.find?_eq_none.mpr (fun dir member bare => ?_)
    obtain ⟨other,held,above⟩ := shared dir (ancestorsMember.mp (List.mem_reverse.mp member))
    exact of_decide_eq_true bare other held above
  rw [shownAs,none_]

theorem shownCollapsed {tracked : List Str} {path : Str} (alone : ¬Shared tracked path) :
    (shownAs tracked path).getLast? = some '/' := by
  unfold shownAs
  split
  · exact List.getLast?_concat
  · next none_ =>
    refine absurd (fun dir above => ?_) alone
    have bare := List.find?_eq_none.mp none_ dir (List.mem_reverse.mpr (ancestorsMember.mpr above))
    simpa using bare

theorem othersMember (w : Worktree) {path : Str} (file : FilePath path) :
    path ∈ w.others ↔ path ∈ w.untracked ∧ Shared w.tracked path := by
  rw [Worktree.others,List.mem_dedup,List.mem_map]
  constructor
  · rintro ⟨other,member,shown⟩
    by_cases shared : Shared w.tracked other
    · rw [shownShared shared] at shown
      exact ⟨shown ▸ member,shown ▸ shared⟩
    · exact absurd (shown ▸ shownCollapsed shared) file.1
  · rintro ⟨member,shared⟩
    exact ⟨path,member,shownShared shared⟩

theorem shownPlain {tracked : List Str} {path : Str} (plain : recordSeparator ∉ path) :
    recordSeparator ∉ shownAs tracked path := by
  unfold shownAs
  split
  · next dir found =>
    have above := ancestorsMember.mp (List.mem_reverse.mp (List.mem_of_find?_eq_some found))
    exact fun member => plain (above.2.subset member)
  · exact plain

theorem Worktree.reportWf (w : Worktree) : ∀ record ∈ w.report, record.Wf := by
  intro record member
  rcases List.mem_append.mp member with changed | other
  · exact w.wf record changed
  · obtain ⟨name,listed,rfl⟩ := List.mem_map.mp other
    obtain ⟨path,held,rfl⟩ := List.mem_map.mp (List.mem_dedup.mp listed)
    exact shownPlain (w.paths path (List.mem_append_right _ held)).2

def changedFiles (w : Worktree) : List FileStatus := w.changes.filterMap Record.file
def untrackedFile (path : Str) : FileStatus := ⟨path,none,some .untracked,false,[]⟩

theorem reportFiles (w : Worktree) :
    (parse (encode w.report)).files = changedFiles w ++ w.others.map untrackedFile := by
  have headerless : (w.headers.map Record.header).filterMap Record.file = [] := by
    rw [List.filterMap_map,List.filterMap_eq_nil_iff]
    exact fun _ _ => rfl
  have rest : (w.others.map Record.untracked).filterMap Record.file = w.others.map untrackedFile := by
    rw [List.filterMap_map,← List.filterMap_eq_map]
    rfl
  rw [parseEncoded w.reportWf,decoded,Worktree.report,List.filterMap_append,List.filterMap_append,headerless,rest,List.nil_append]
  rfl

theorem stateKnown (code : Char) : lettered code ≠ some .untracked := by
  unfold lettered
  split <;> exact nofun

theorem changedFrom (w : Worktree) {file : FileStatus} (member : file ∈ changedFiles w) :
    file.worktree ≠ some .untracked ∧
      (file.path ∈ w.tracked ∨ ∃ y fields, Record.ordinary 'D' y fields file.path ∈ w.changes) := by
  obtain ⟨record,listed,read⟩ := List.mem_filterMap.mp member
  have about := w.differs record listed
  cases record with
  | ordinary x y fields path =>
    cases read
    refine ⟨stateKnown y,about.imp id (fun out => ?_)⟩
    subst out
    exact ⟨y,fields,listed⟩
  | renamed x y fields path origPath => cases read; exact ⟨stateKnown y,.inl about⟩
  | unmerged xy fields path => cases read; exact ⟨nofun,.inl about⟩
  | header h => exact about.elim
  | untracked path => exact about.elim
  | unknown text => exact about.elim

theorem changedRemoved (w : Worktree) {path : Str} (out : path ∉ w.tracked) :
    (∃ file ∈ changedFiles w, file.path = path) ↔ ∃ y fields, Record.ordinary 'D' y fields path ∈ w.changes := by
  constructor
  · rintro ⟨file,member,rfl⟩
    exact (changedFrom w member).2.resolve_left out
  · rintro ⟨y,fields,listed⟩
    exact ⟨_,List.mem_filterMap.mpr ⟨_,listed,rfl⟩,rfl⟩

theorem answer (w : Worktree) (path : Str) :
    isTracked (parse (encode w.report)) path = true ↔ (∃ file ∈ changedFiles w, file.path = path) ∨ path ∉ w.others := by
  have read : (parse (encode w.report)).availability = .available := by rw [parseEncoded w.reportWf]; rfl
  rw [isTracked,if_neg (not_not.mpr read),reportFiles,List.find?_append]
  cases first : (changedFiles w).find? (fun file => file.path = path) with
  | some file =>
    have named : file.path = path := by simpa using List.find?_some first
    have known := (changedFrom w (List.mem_of_find?_eq_some first)).1
    exact ⟨fun _ => .inl ⟨file,List.mem_of_find?_eq_some first,named⟩,fun _ => decide_eq_true known⟩
  | none =>
    have silent : ¬∃ file ∈ changedFiles w, file.path = path := fun ⟨file,member,named⟩ =>
      List.find?_eq_none.mp first file member (decide_eq_true named)
    rw [Option.none_or]
    cases second : (w.others.map untrackedFile).find? (fun file => file.path = path) with
    | none =>
      refine ⟨fun _ => .inr (fun listed => ?_),fun _ => rfl⟩
      exact List.find?_eq_none.mp second _ (List.mem_map_of_mem listed) (decide_eq_true rfl)
    | some file =>
      obtain ⟨other,listed,rfl⟩ := List.mem_map.mp (List.mem_of_find?_eq_some second)
      have named : (untrackedFile other).path = path := by simpa using List.find?_some second
      obtain rfl : other = path := named
      exact ⟨fun known => absurd rfl (of_decide_eq_true known),fun h => absurd listed (h.resolve_left silent)⟩

theorem trackedWhen (w : Worktree) {path : Str} (there : path ∈ w.tracked ∨ path ∈ w.untracked) :
    (isTracked (parse (encode w.report)) path = true ↔ path ∈ w.tracked) ↔
      path ∈ w.tracked ∨ ((∀ dir, Above dir path → ∃ other ∈ w.tracked, Above dir other) ∧
        ∀ y fields, Record.ordinary 'D' y fields path ∉ w.changes) := by
  have file : FilePath path := w.paths path (List.mem_append.mpr there)
  rw [answer,othersMember w file]
  by_cases held : path ∈ w.tracked
  · have known : path ∉ w.untracked := fun other => w.apart path other held
    simp [held,known]
  · have other : path ∈ w.untracked := there.resolve_left held
    rw [changedRemoved w held]
    simp only [held,other,true_and,iff_false,false_or,not_or,not_not,not_exists]
    exact and_comm

def collapsed : Worktree where
  headers := [.head "main".toList]
  tracked := ["README.md".toList]
  untracked := ["deploy/new.yaml".toList]
  changes := []
  paths := by decide
  apart := by decide
  differs := by decide
  wf := by decide

def removed : Worktree where
  headers := []
  tracked := ["README.md".toList]
  untracked := ["kept.yaml".toList]
  changes := [.ordinary 'D' '.' (["N...","100644","000000","000000","aa","00"].map String.toList) "kept.yaml".toList]
  paths := by decide
  apart := by decide
  differs := by decide
  wf := by decide

def beside : Worktree where
  headers := []
  tracked := ["deploy/old.yaml".toList]
  untracked := ["deploy/new.yaml".toList]
  changes := [.ordinary '.' 'M' (["N...","100644","100644","100644","aa","aa"].map String.toList) "deploy/old.yaml".toList]
  paths := by decide
  apart := by decide
  differs := by decide
  wf := by decide

theorem untrackedTaken :
    (¬∀ (w : Worktree) (path : Str), path ∈ w.tracked ∨ path ∈ w.untracked →
      (isTracked (parse (encode w.report)) path = true ↔ path ∈ w.tracked)) ∧
    isTracked (parse (encode collapsed.report)) "deploy/new.yaml".toList = true ∧
    isTracked (parse (encode removed.report)) "kept.yaml".toList = true := by
  have first : isTracked (parse (encode collapsed.report)) "deploy/new.yaml".toList = true := by decide +kernel
  refine ⟨fun all => ?_,first,by decide +kernel⟩
  exact absurd ((all collapsed "deploy/new.yaml".toList (by decide)).mp first) (by decide)

theorem besideTold :
    isTracked (parse (encode beside.report)) "deploy/old.yaml".toList = true ∧
    isTracked (parse (encode beside.report)) "deploy/new.yaml".toList = false ∧
    ("deploy/new.yaml".toList ∈ beside.tracked ∨
      ((∀ dir, Above dir "deploy/new.yaml".toList → ∃ other ∈ beside.tracked, Above dir other) ∧
        ∀ y fields, Record.ordinary 'D' y fields "deploy/new.yaml".toList ∉ beside.changes)) :=
  ⟨by decide +kernel,by decide +kernel,(trackedWhen beside (.inr (by decide))).mp (by decide +kernel)⟩

end M6t.GitTracked
