import M6t.SlashPath
import M6t.Fault

/-! The names that the file operations of a worktree hand to the opened root, how far
inside it they may lead, and a path made absolute for an external tool. What the
confined operations of the system answer is a parameter. -/
namespace M6t.EntryPaths
open M6t.Text M6t.SlashPath M6t.Fault

def gitDir : Str := ".git".toList

def rootRelative (relPath : Str) : Answer Str :=
  let trimmed := if relPath = [] then dot else relPath
  let cleaned := clean trimmed
  if ¬ ValidPath cleaned then .error (errorf [.text "resolving ",.shown relPath] .errOutsideRoot)
  else if cleaned = gitDir ∨ gitDir ++ slash <+: cleaned then
    .error (errorf [.text "resolving ",.shown relPath] .errGitInternal)
  -- on Unix the wire form of a path is its native form
  else .ok cleaned

def errNoPath : Cause := .system "no path given"

def entryRelative (relPath : Str) : Answer Str := do
  let name ← rootRelative relPath
  if name = dot then .error (errorf [.text "resolving ",.shown relPath] errNoPath) else .ok name

/-- `os.OpenRoot`, and the `Stat` through the root it opens: whether a name inside
it is a directory. -/
structure Tree where
  openRoot : Str → Answer Unit
  stat : Str → Str → Answer Bool

def resolve (tree : Tree) (root relPath : Str) : Answer (Str × Bool) := do
  let _ ← wrapping [.text "opening ",.shown root] (tree.openRoot root)
  let name ← rootRelative relPath
  let isDir ← wrapping [.text "resolving ",.shown relPath] (tree.stat root name)
  .ok (join root name,isDir)

theorem resolveOk {tree : Tree} {root relPath path : Str} {isDir : Bool} :
    resolve tree root relPath = .ok (path,isDir) ↔ tree.openRoot root = .ok () ∧
      ∃ name, rootRelative relPath = .ok name ∧ tree.stat root name = .ok isDir ∧ path = join root name := by
  simp only [resolve,bindOk,wrappingOk,Except.ok.injEq,Prod.mk.injEq]
  constructor
  · rintro ⟨_,opened,name,relative,_,found,rfl,rfl⟩
    exact ⟨opened,name,relative,found,rfl⟩
  · rintro ⟨opened,name,relative,found,rfl⟩
    exact ⟨(),opened,name,relative,isDir,found,rfl,rfl⟩

def cleaned (relPath : Str) : Str := clean (if relPath = [] then dot else relPath)

variable {relPath name : Str}

theorem rootRelativeOk : rootRelative relPath = .ok name ↔
    name = cleaned relPath ∧ ValidPath name ∧ ¬(name = gitDir ∨ gitDir ++ slash <+: name) := by
  unfold rootRelative cleaned
  dsimp only
  generalize clean (if relPath = [] then dot else relPath) = path
  split
  · next escapes =>
    refine iff_of_false (by simp) ?_
    rintro ⟨rfl,valid,_⟩
    exact escapes valid
  · next valid =>
    split
    · next git =>
      refine iff_of_false (by simp) ?_
      rintro ⟨rfl,_,outside⟩
      exact outside git
    · next outside =>
      rw [Except.ok.injEq]
      exact ⟨fun same => same ▸ ⟨rfl,not_not.mp valid,outside⟩,fun parts => parts.1.symm⟩

theorem entryRelativeOk : entryRelative relPath = .ok name ↔ rootRelative relPath = .ok name ∧ name ≠ dot := by
  simp only [entryRelative,bindOk]
  constructor
  · rintro ⟨inner,relative,kept⟩
    split at kept
    · cases kept
    · next entry =>
      cases Except.ok.inj kept
      exact ⟨relative,entry⟩
  · rintro ⟨relative,entry⟩
    exact ⟨name,relative,if_neg entry⟩

theorem validRelative (valid : ValidPath name) : name.head? ≠ some '/' := by
  rcases valid with rfl | whole
  · decide
  · intro rooted
    obtain ⟨rest,rfl⟩ := List.head?_eq_some_iff.mp rooted
    have parts : ('/' :: rest).splitOn '/' = [] :: rest.splitOn '/' := List.splitOn_append_cons_self_of_not_mem List.not_mem_nil rest
    exact (whole [] (parts ▸ List.mem_cons_self)).1 rfl

theorem validElements (valid : ValidPath name) (entry : name ≠ dot) : elements name = name.splitOn '/' := by
  rcases valid with here | whole
  · exact absurd here entry
  · exact List.filter_eq_self.mpr (fun e member => decide_eq_true (whole e member).1)

theorem validUp (valid : ValidPath name) : dotdot ∉ elements name := by
  by_cases entry : name = dot
  · rw [entry]
    decide
  · intro up
    rw [validElements valid entry] at up
    exact ((valid.resolve_left entry) dotdot up).2.2 rfl

theorem splitHead {element : Str} (whole : '/' ∉ element) :
    (name.splitOn '/').head? = some element ↔ name = element ∨ element ++ slash <+: name := by
  constructor
  · intro head
    obtain ⟨rest,parts⟩ := List.head?_eq_some_iff.mp head
    have joined : ['/'].intercalate (name.splitOn '/') = name := List.intercalate_splitOn '/'
    rw [parts] at joined
    rcases eq_or_ne rest [] with rfl | more
    · exact Or.inl (by simpa using joined.symm)
    · rw [List.intercalate_cons_of_ne_nil more] at joined
      exact Or.inr ⟨_,joined⟩
  · rintro (rfl | ⟨rest,rfl⟩)
    · rw [List.splitOn_eq_singleton whole]
      rfl
    · rw [slash,List.append_assoc]
      exact congrArg List.head? (List.splitOn_append_cons_self_of_not_mem whole rest)

theorem leadingElement (valid : ValidPath name) :
    (elements name).head? = some gitDir ↔ name = gitDir ∨ gitDir ++ slash <+: name := by
  by_cases entry : name = dot
  · rw [entry]
    decide
  · rw [validElements valid entry,splitHead (by decide)]

theorem cleanedClean (valid : ValidPath (cleaned relPath)) : clean (cleaned relPath) = cleaned relPath :=
  cleanIdem (fun rooted => validRelative valid (cleanRooted rooted))

theorem cleanedAgain (valid : ValidPath (cleaned relPath)) : cleaned (cleaned relPath) = cleaned relPath := by
  have nonempty : cleaned relPath ≠ [] := by
    intro empty
    rw [empty] at valid
    exact absurd valid (by decide)
  exact (congrArg clean (if_neg nonempty)).trans (cleanedClean valid)

theorem acceptedAgain (accepted : rootRelative relPath = .ok name) : rootRelative name = .ok name := by
  obtain ⟨rfl,valid,outside⟩ := rootRelativeOk.mp accepted
  exact rootRelativeOk.mpr ⟨(cleanedAgain valid).symm,valid,outside⟩

/-- A clean path below the root, out of every `.git`. -/
structure Confined (name : Str) : Prop where
  cleaned : clean name = name
  valid : ValidPath name
  relative : name.head? ≠ some '/'
  up : dotdot ∉ elements name
  git : gitDir ∉ elements name

structure Guarded (relPath : Str) : Prop where
  root : ∀ name, rootRelative relPath = .ok name → Confined name ∧ rootRelative name = .ok name
  entry : ∀ name, entryRelative relPath = .ok name → Confined name ∧ name ≠ dot ∧ entryRelative name = .ok name

/-- A `.git` below the top of the worktree: that of a submodule, or of a repository inside this one. -/
def NestedGit (relPath : Str) : Prop :=
  ValidPath (cleaned relPath) ∧ (elements (cleaned relPath)).head? ≠ some gitDir ∧ gitDir ∈ elements (cleaned relPath)

theorem acceptedConfined (accepted : rootRelative relPath = .ok name) : Confined name ↔ ¬NestedGit relPath := by
  obtain ⟨rfl,valid,outside⟩ := rootRelativeOk.mp accepted
  rw [← leadingElement valid] at outside
  constructor
  · rintro confined ⟨_,_,git⟩
    exact confined.git git
  · intro flat
    exact ⟨cleanedClean valid,valid,validRelative valid,validUp valid,fun git => flat ⟨valid,outside,git⟩⟩

theorem guardedExact (relPath : Str) : Guarded relPath ↔ ¬NestedGit relPath := by
  constructor
  · intro guarded nested
    have accepted : rootRelative relPath = .ok (cleaned relPath) :=
      rootRelativeOk.mpr ⟨rfl,nested.1,fun git => nested.2.1 ((leadingElement nested.1).mpr git)⟩
    exact (acceptedConfined accepted).mp (guarded.root _ accepted).1 nested
  · intro flat
    constructor
    · intro name accepted
      exact ⟨(acceptedConfined accepted).mpr flat,acceptedAgain accepted⟩
    · intro name accepted
      obtain ⟨relative,entry⟩ := entryRelativeOk.mp accepted
      exact ⟨(acceptedConfined relative).mpr flat,entry,entryRelativeOk.mpr ⟨acceptedAgain relative,entry⟩⟩

theorem submoduleUnguarded : ¬Guarded "charts/.git/config".toList := by
  intro guarded
  have accepted : entryRelative "charts/.git/config".toList = .ok "charts/.git/config".toList := by decide
  exact absurd (guarded.entry _ accepted).1.git (by decide)

end M6t.EntryPaths
