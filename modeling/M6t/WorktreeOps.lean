import M6t.FileText
import M6t.PathTree
import M6t.TreeListings
import M6t.WorktreeList

/-! The operations of the tree on a worktree: `Create`, `Rename` and `Delete` by the names they accept,
on what stands in the opened root. Each call is one step. There are no symbolic links, and two names are
one only when they are spelt the same. -/
namespace M6t.WorktreeOps
open M6t.Text M6t.Fault M6t.PathTree M6t.EntryPaths
open M6t.FileText (Bytes filePerm)
open M6t.SlashPath (elements joined Plain Name)
open M6t.WorktreeList (Path Checkout Directory listAt list)
open M6t.Editor (parentPath)
open M6t.FileTree (Entry joinPath)

inductive Node
  | dir (perm : Nat)
  | file (perm : Nat) (data : Bytes)
  deriving DecidableEq, Repr

def Node.isDir : Node → Bool
  | dir _ => true
  | file _ _ => false

structure Files where
  node : Path → Option Node
  grown : Grown Node.isDir node

def dirPerm : Nat := 0o750
def errAlreadyExists : Cause := .system "path already exists"

inductive Errno
  | noEntry
  | notDir
  | taken
  | invalid
  deriving DecidableEq, Repr

def Errno.cause : Errno → Cause
  | noEntry => .system "no such file or directory"
  | notDir => .system "not a directory"
  | taken => .system "file exists"
  | invalid => .system "invalid argument"

/-- What the system has to say to one call beside what follows from the tree: `refuses` before it did
anything, `stuck` of the entries that it cannot remove. -/
structure Os where
  openRoot : Answer Unit
  refuses : Option Cause
  closes : Option Cause
  stuck : List (Path × Cause)

def barrier (f : Files) (q : Path) : Option Errno :=
  match f.node q with
  | none => some .noEntry
  | some (.file _ _) => some .notDir
  | some (.dir _) => none

def blocked (f : Files) (p : Path) : Option Errno := p.inits.dropLast.findSome? (barrier f)

theorem blockedParent {f : Files} {p : Path} (clear : blocked f p = none) (proper : p ≠ []) :
    ∃ v ∈ f.node p.dropLast, v.isDir = true := by
  have member : p.dropLast ∈ p.inits.dropLast := by
    rw [← List.dropLast_append_getLast proper,List.inits_append]
    simp
  have open_ := List.findSome?_eq_none_iff.mp clear _ member
  unfold barrier at open_
  split at open_
  · cases open_
  · cases open_
  · next perm here => exact ⟨.dir perm,here,rfl⟩

def place (f : Files) (p : Path) (v : Node) (refuses : Option Cause) : Except Cause Files :=
  match clear : blocked f p with
  | some e => .error e.cause
  | none =>
    if free : p ≠ [] ∧ (f.node p).isNone then
      match refuses with
      | some c => .error c
      | none => .ok ⟨graft f.node p (leaf v),graftGrown f.grown free.1 (leafSprung v) (fun _ => blockedParent clear free.1)⟩
    else .error Errno.taken.cause

def lstat (f : Files) (p : Path) : Except Errno Unit :=
  match blocked f p with
  | some e => .error e
  | none => if (f.node p).isSome then .ok () else .error .noEntry

def renameTo (f : Files) (a b : Path) (refuses : Option Cause) : Except Cause Files :=
  match lstat f a with
  | .error e => .error e.cause
  | .ok _ =>
    match clear : blocked f b with
    | some e => .error e.cause
    | none =>
      if fits : a ≠ [] ∧ b ≠ [] ∧ ¬ a <+: b then
        match refuses with
        | some c => .error c
        | none => .ok ⟨move f.node a b,moveGrown f.grown fits.1 fits.2.1 fits.2.2 (blockedParent clear fits.2.1)⟩
      else .error Errno.invalid.cause

def spared (left : List Path) (p q : Path) : Bool := ¬ p <+: q ∨ left.any (fun r => q <+: r)

theorem sparedUp {left : List Path} {p q : Path} {name : Str} (kept : spared left p (q ++ [name]) = true) :
    spared left p q = true := by
  simp only [spared,decide_eq_true_eq,List.any_eq_true] at kept ⊢
  rcases kept with apart | ⟨r,member,under⟩
  · exact Or.inl (fun under => apart (under.trans (List.prefix_append q _)))
  · exact Or.inr ⟨r,member,(List.prefix_append q _).trans under⟩

def removed (f : Files) (p : Path) (proper : p ≠ []) (left : List (Path × Cause)) : Except Cause Unit × Files :=
  (match left with
    | [] => .ok ()
    | r :: _ => .error r.2,
    ⟨fun q => if spared (left.map Prod.fst) p q then f.node q else none,
      keepGrown f.grown (by simp [spared,proper]) (fun _ _ => sparedUp)⟩)

def removeAll (f : Files) (p : Path) (stuck : List (Path × Cause)) : Except Cause Unit × Files :=
  match blocked f p with
  | some .noEntry => (.ok (),f)
  | some e => (.error e.cause,f)
  | none =>
    if proper : p ≠ [] then removed f p proper (stuck.filter (fun r => p <+: r.1 ∧ (f.node r.1).isSome))
    else (.error Errno.invalid.cause,f)

def existsOr (err : Cause) : Cause := if err = Errno.taken.cause then errAlreadyExists else err

def opened (os : Os) (root relPath : Str) : Answer Path := do
  let _ ← wrapping [.text "opening ",.shown root] os.openRoot
  let name ← entryRelative relPath
  .ok (elements name)

def create (os : Os) (root relPath : Str) (isDir : Bool) (f : Files) : Answer Unit × Files :=
  match opened os root relPath with
  | .error err => (.error err,f)
  | .ok p =>
    if isDir then
      match place f p (.dir dirPerm) os.refuses with
      | .error c => (.error (errorf [.text "creating directory ",.shown relPath] (existsOr c)),f)
      | .ok g => (.ok (),g)
    else
      match place f p (.file filePerm []) os.refuses with
      | .error c => (.error (errorf [.text "creating file ",.shown relPath] (existsOr c)),f)
      | .ok g =>
        match os.closes with
        | some c => (.error (errorf [.text "creating file ",.shown relPath] c),g)
        | none => (.ok (),g)

def rename (os : Os) (root fromRelPath toRelPath : Str) (f : Files) : Answer Unit × Files :=
  let sentence : List Piece := [.text "renaming ",.shown fromRelPath,.text " to ",.shown toRelPath]
  match opened os root fromRelPath with
  | .error err => (.error err,f)
  | .ok a =>
    match (entryRelative toRelPath).map elements with
    | .error err => (.error err,f)
    | .ok b =>
      match lstat f b with
      | .ok _ => (.error (errorf sentence errAlreadyExists),f)
      | .error e =>
        if e ≠ .noEntry then (.error (errorf sentence e.cause),f)
        else
          match renameTo f a b os.refuses with
          | .error c => (.error (errorf sentence c),f)
          | .ok g => (.ok (),g)

def delete (os : Os) (root relPath : Str) (f : Files) : Answer Unit × Files :=
  match opened os root relPath with
  | .error err => (.error err,f)
  | .ok p =>
    match removeAll f p os.stuck with
    | (.error c,g) => (.error (errorf [.text "deleting ",.shown relPath] c),g)
    | (.ok _,g) => (.ok (),g)

/-- `CreateEntry`, `RenameEntry` and `DeleteEntry`, each with the answers of the system it meets. -/
inductive Call
  | createEntry (os : Os) (relPath : Str) (isDir : Bool)
  | renameEntry (os : Os) (fromRelPath toRelPath : Str)
  | deleteEntry (os : Os) (relPath : Str)

def within (sentence : List Piece) (root : Str) (r : Answer Unit × Files) : Answer Unit × Files :=
  (wrapping (sentence ++ [.text " in ",.shown root]) r.1,r.2)

def perform (root : Str) (f : Files) : Call → Answer Unit × Files
  | .createEntry os relPath isDir => within [.text "creating ",.shown relPath] root (create os root relPath isDir f)
  | .renameEntry os fromRelPath toRelPath =>
    within [.text "renaming ",.shown fromRelPath,.text " to ",.shown toRelPath] root (rename os root fromRelPath toRelPath f)
  | .deleteEntry os relPath => within [.text "deleting ",.shown relPath] root (delete os root relPath f)

def session (root : Str) (calls : List Call) (f : Files) : Files := calls.foldl (fun f call => (perform root f call).2) f

def Named (relPath : Str) (p : Path) : Prop := ∃ name, entryRelative relPath = .ok name ∧ p = elements name

variable {os : Os} {root relPath : Str} {f g : Files} {p q : Path}

theorem Named.outside (named : Named relPath p) : p ≠ [] ∧ p.head? ≠ some gitDir := by
  obtain ⟨name,accepted,rfl⟩ := named
  obtain ⟨relative,entry⟩ := entryRelativeOk.mp accepted
  obtain ⟨_,valid,apart⟩ := rootRelativeOk.mp relative
  constructor
  · rw [validElements valid entry]
    exact List.splitOn_ne_nil '/' name
  · exact fun led => apart ((leadingElement valid).mp led)

theorem Named.unique (one : Named relPath p) (two : Named relPath q) : p = q := by
  obtain ⟨name,accepted,rfl⟩ := one
  obtain ⟨other,also,rfl⟩ := two
  cases accepted.symm.trans also
  rfl

theorem mappedOk {x : Answer Str} (done : x.map elements = .ok p) : ∃ name, x = .ok name ∧ p = elements name := by
  cases x with
  | error err => cases done
  | ok name => exact ⟨name,rfl,(Except.ok.inj done).symm⟩

theorem openedNamed (done : opened os root relPath = .ok p) : Named relPath p := by
  simp only [opened,bindOk,Except.ok.injEq] at done
  obtain ⟨_,_,name,accepted,rfl⟩ := done
  exact ⟨name,accepted,rfl⟩

theorem standsAbove (there : (f.node (p ++ q)).isSome = true) : (f.node p).isSome = true := f.grown.above.front there

theorem blockedMissing (missing : blocked f p = some .noEntry) : f.node p = none := by
  obtain ⟨q,member,here⟩ := List.exists_of_findSome?_eq_some missing
  obtain ⟨rest,rfl⟩ := (List.mem_inits q p).mp (List.mem_of_mem_dropLast member)
  by_contra some_
  have there := standsAbove (Option.isSome_iff_ne_none.mpr some_)
  unfold barrier at here
  split at here
  · next gone =>
    rw [gone] at there
    cases there
  · cases here
  · cases here

theorem lstatOk (found : lstat f p = .ok ()) : (f.node p).isSome = true := by
  unfold lstat at found
  split at found
  · cases found
  · split at found
    · next there => exact there
    · cases found

theorem lstatMissing (missing : lstat f p = .error .noEntry) : f.node p = none := by
  unfold lstat at missing
  split at missing
  · next e blocks =>
    cases missing
    exact blockedMissing blocks
  · split at missing
    · cases missing
    · next gone => simpa using gone

theorem placeOk {v : Node} {refuses : Option Cause} (done : place f p v refuses = .ok g) :
    f.node p = none ∧ g.node = graft f.node p (leaf v) := by
  unfold place at done
  split at done
  · cases done
  · split at done
    · next free =>
      split at done
      · cases done
      · cases done
        exact ⟨by simpa using free.2,rfl⟩
    · cases done

theorem renameToOk {a b : Path} {refuses : Option Cause} (done : renameTo f a b refuses = .ok g) :
    (f.node a).isSome = true ∧ ¬ a <+: b ∧ g.node = move f.node a b := by
  unfold renameTo at done
  split at done
  · cases done
  · next found =>
    split at done
    · cases done
    · split at done
      · next fits =>
        split at done
        · cases done
        · cases done
          exact ⟨lstatOk found,fits.2.2,rfl⟩
      · cases done

theorem createSpec (isDir : Bool) : let r := create os root relPath isDir f
    r.2 = f ∧ r.1 ≠ .ok () ∨ ∃ p v, Named relPath p ∧ v.isDir = isDir ∧ f.node p = none ∧ r.2.node = graft f.node p (leaf v) := by
  dsimp only
  unfold create
  split
  · exact Or.inl ⟨rfl,by simp⟩
  · next p start =>
    have named := openedNamed start
    split
    · next dir =>
      split
      · exact Or.inl ⟨rfl,by simp⟩
      · next g done =>
        obtain ⟨free,made⟩ := placeOk done
        exact Or.inr ⟨p,.dir dirPerm,named,dir.symm,free,made⟩
    · next dir =>
      split
      · exact Or.inl ⟨rfl,by simp⟩
      · next g done =>
        obtain ⟨free,made⟩ := placeOk done
        have made : ∃ p v, Named relPath p ∧ v.isDir = isDir ∧ f.node p = none ∧ g.node = graft f.node p (leaf v) :=
          ⟨p,.file filePerm [],named,by simpa [Node.isDir] using dir,free,made⟩
        split
        · exact Or.inr made
        · exact Or.inr made

theorem renameSpec (fromRelPath toRelPath : Str) : let r := rename os root fromRelPath toRelPath f
    r.2 = f ∧ r.1 ≠ .ok () ∨ r.1 = .ok () ∧ ∃ a b, Named fromRelPath a ∧ Named toRelPath b ∧ (f.node a).isSome = true ∧
      ¬ a <+: b ∧ f.node b = none ∧ r.2.node = move f.node a b := by
  dsimp only
  unfold rename
  split
  · exact Or.inl ⟨rfl,by simp⟩
  · next a start =>
    split
    · exact Or.inl ⟨rfl,by simp⟩
    · next b accepted =>
      split
      · exact Or.inl ⟨rfl,by simp⟩
      · next e missing =>
        split
        · exact Or.inl ⟨rfl,by simp⟩
        · next absent =>
          split
          · exact Or.inl ⟨rfl,by simp⟩
          · next g done =>
            obtain ⟨there,apart,made⟩ := renameToOk done
            obtain ⟨name,held,rfl⟩ := mappedOk accepted
            cases not_not.mp absent
            exact Or.inr ⟨rfl,a,_,openedNamed start,⟨name,held,rfl⟩,there,apart,lstatMissing missing,made⟩

theorem removeAllSpec (stuck : List (Path × Cause)) : let r := removeAll f p stuck
    (∀ q, r.2.node q = f.node q ∨ p <+: q ∧ r.2.node q = none) ∧ (r.1 = .ok () → ∀ q, p <+: q → r.2.node q = none) := by
  dsimp only
  unfold removeAll
  split
  · next missing =>
    refine ⟨fun q => Or.inl rfl,fun _ q under => ?_⟩
    obtain ⟨rest,rfl⟩ := under
    exact congrFun (f.grown.above.bare (blockedMissing missing)) rest
  · exact ⟨fun q => Or.inl rfl,fun done => by cases done⟩
  · split
    · generalize stuck.filter (fun r => p <+: r.1 ∧ (f.node r.1).isSome) = left
      unfold removed
      dsimp only
      constructor
      · intro q
        by_cases kept : spared (left.map Prod.fst) p q = true
        · exact Or.inl (if_pos kept)
        · refine Or.inr ⟨?_,if_neg kept⟩
          by_contra apart
          exact kept (by simp [spared,apart])
      · intro done q under
        cases left with
        | nil => simp [spared,under]
        | cons r left => cases done
    · exact ⟨fun q => Or.inl rfl,fun done => by cases done⟩

theorem deleteSpec : let r := delete os root relPath f
    r.2 = f ∧ r.1 ≠ .ok () ∨ ∃ p, Named relPath p ∧ (∀ q, r.2.node q = f.node q ∨ p <+: q ∧ r.2.node q = none) ∧
      (r.1 = .ok () → ∀ q, p <+: q → r.2.node q = none) := by
  dsimp only
  unfold delete
  split
  · exact Or.inl ⟨rfl,by simp⟩
  · next p start =>
    have spec := @removeAllSpec f p os.stuck
    right
    refine ⟨p,openedNamed start,?_⟩
    split
    · next c g done =>
      rw [done] at spec
      exact ⟨spec.1,fun none_ => by cases none_⟩
    · next g done =>
      rw [done] at spec
      exact ⟨spec.1,fun _ => spec.2 rfl⟩

theorem ledApart (named : Named relPath p) (rest : Path) : ¬ p <+: gitDir :: rest := by
  obtain ⟨proper,unled⟩ := named.outside
  rintro ⟨more,same⟩
  cases p with
  | nil => exact proper rfl
  | cons e p => exact unled (congrArg some (List.cons.inj same).1)

theorem performGit (call : Call) (rest : Path) : (perform root f call).2.node (gitDir :: rest) = f.node (gitDir :: rest) := by
  cases call with
  | createEntry os relPath isDir =>
    rcases @createSpec os root relPath f isDir with ⟨still,_⟩ | ⟨p,v,named,_,_,made⟩
    · exact congrArg (fun g : Files => g.node (gitDir :: rest)) still
    · exact (congrFun made _).trans (graftApart (ledApart named rest))
  | renameEntry os fromRelPath toRelPath =>
    rcases @renameSpec os root f fromRelPath toRelPath with ⟨still,_⟩ | ⟨_,a,b,source,target,_,_,_,made⟩
    · exact congrArg (fun g : Files => g.node (gitDir :: rest)) still
    · exact (congrFun made _).trans (moveApart (ledApart source rest) (ledApart target rest))
  | deleteEntry os relPath =>
    rcases @deleteSpec os root relPath f with ⟨still,_⟩ | ⟨p,named,kept,_⟩
    · exact congrArg (fun g : Files => g.node (gitDir :: rest)) still
    · rcases kept (gitDir :: rest) with same | ⟨under,_⟩
      · exact same
      · exact absurd under (ledApart named rest)

theorem sessionGit (root : Str) (calls : List Call) (f : Files) (rest : Path) :
    (session root calls f).node (gitDir :: rest) = f.node (gitDir :: rest) := by
  induction calls generalizing f with
  | nil => rfl
  | cons call calls ih => exact (ih _).trans (performGit call rest)

def goes (root : Str) (f : Files) (call : Call) (p : Path) : Path :=
  match call with
  | .renameEntry os fromRelPath toRelPath =>
    match (rename os root fromRelPath toRelPath f).1,(entryRelative fromRelPath).map elements,(entryRelative toRelPath).map elements with
    | .ok _,.ok a,.ok b => moved a b p
    | _,_,_ => p
  | _ => p

def trail (root : Str) : List Call → Files → Path → Path
  | [],_,p => p
  | call :: calls,f,p => trail root calls (perform root f call).2 (goes root f call p)

def Deletes (p : Path) : Call → Prop
  | .deleteEntry _ relPath => ∃ named, Named relPath named ∧ named <+: p
  | _ => False

def Lost (root : Str) (calls : List Call) (f : Files) (p : Path) : Prop :=
  ∃ earlier call later, calls = earlier ++ call :: later ∧ Deletes (trail root earlier f p) call

theorem lostLater {call : Call} {calls : List Call} (lost : Lost root calls (perform root f call).2 (goes root f call p)) :
    Lost root (call :: calls) f p := by
  obtain ⟨earlier,last,later,rfl,deletes⟩ := lost
  exact ⟨call :: earlier,last,later,rfl,deletes⟩

theorem Named.mapped (named : Named relPath p) : (entryRelative relPath).map elements = .ok p := by
  obtain ⟨name,accepted,rfl⟩ := named
  rw [accepted]
  rfl

theorem performCarries (call : Call) : let g := (perform root f call).2
    (∀ p, (f.node p).isSome = true → ¬Deletes p call → g.node (goes root f call p) = f.node p) ∧
      ∀ p q, (f.node p).isSome = true → (f.node q).isSome = true → goes root f call p = goes root f call q → p = q := by
  dsimp only
  cases call with
  | createEntry os relPath isDir =>
    refine ⟨fun p there _ => ?_,fun p q _ _ same => same⟩
    rcases @createSpec os root relPath f isDir with ⟨still,_⟩ | ⟨q,v,_,_,free,made⟩
    · exact congrArg (fun g : Files => g.node p) still
    · exact (congrFun made p).trans ((graftCarries (f.grown.above.bare free)).same p there)
  | renameEntry os fromRelPath toRelPath =>
    rcases @renameSpec os root f fromRelPath toRelPath with ⟨still,failed⟩ | ⟨done,a,b,source,target,_,_,free,made⟩
    · have stays : ∀ p, goes root f (.renameEntry os fromRelPath toRelPath) p = p := by
        intro p
        simp only [goes]
        split
        · next done _ _ => exact absurd done failed
        · rfl
      refine ⟨fun p there _ => ?_,fun p q _ _ same => by rwa [stays,stays] at same⟩
      rw [stays]
      exact congrArg (fun g : Files => g.node p) still
    · have carries := moveCarries (a := a) (f.grown.above.bare free)
      have moves : ∀ p, goes root f (.renameEntry os fromRelPath toRelPath) p = moved a b p := by
        intro p
        simp only [goes,done,source.mapped,target.mapped]
      refine ⟨fun p there _ => ?_,fun p q first second same => ?_⟩
      · rw [moves]
        exact (congrFun made _).trans (carries.same p there)
      · rw [moves,moves] at same
        exact carries.apart p q first second same
  | deleteEntry os relPath =>
    refine ⟨fun p there outside => ?_,fun p q _ _ same => same⟩
    rcases @deleteSpec os root relPath f with ⟨still,_⟩ | ⟨q,named,kept,_⟩
    · exact congrArg (fun g : Files => g.node p) still
    · rcases kept p with same | ⟨under,_⟩
      · exact same
      · exact absurd ⟨q,named,under⟩ outside

/-- What stands at the start stands at the end where the renames took it, each at a place of its own, or a call
to delete named what it was below by then: nothing is overwritten, and a call that fails takes nothing away. -/
theorem nothingLost (root : Str) (calls : List Call) (f : Files) :
    (∀ p, (f.node p).isSome = true → (session root calls f).node (trail root calls f p) = f.node p ∨ Lost root calls f p) ∧
      ∀ p q, (f.node p).isSome = true → (f.node q).isSome = true → trail root calls f p = trail root calls f q →
        p = q ∨ Lost root calls f p ∨ Lost root calls f q := by
  induction calls generalizing f with
  | nil => exact ⟨fun _ _ => Or.inl rfl,fun _ _ _ _ same => Or.inl same⟩
  | cons call calls ih =>
    obtain ⟨kept,apart⟩ := @performCarries root f call
    obtain ⟨later,laterApart⟩ := ih (perform root f call).2
    have stands : ∀ p, (f.node p).isSome = true → ¬Deletes p call →
        ((perform root f call).2.node (goes root f call p)).isSome = true := fun p there outside => by rwa [kept p there outside]
    have now : ∀ p, Deletes p call → Lost root (call :: calls) f p := fun p deletes => ⟨[],call,calls,rfl,deletes⟩
    constructor
    · intro p there
      by_cases deletes : Deletes p call
      · exact Or.inr (now p deletes)
      · rcases later _ (stands p there deletes) with same | lost
        · exact Or.inl (same.trans (kept p there deletes))
        · exact Or.inr (lostLater lost)
    · intro p q first second same
      by_cases deletes : Deletes p call
      · exact Or.inr (Or.inl (now p deletes))
      · by_cases also : Deletes q call
        · exact Or.inr (Or.inr (now q also))
        · rcases laterApart _ _ (stands p first deletes) (stands q second also) same with one | lost | lost
          · exact Or.inl (apart p q first second one)
          · exact Or.inr (Or.inl (lostLater lost))
          · exact Or.inr (Or.inr (lostLater lost))

theorem properInits : q ∈ p.inits.dropLast ↔ ∃ name rest, p = q ++ name :: rest := by
  induction p using List.reverseRecOn generalizing q with
  | nil => simp
  | append_singleton p last ih =>
    have inits : (p ++ [last]).inits.dropLast = p.inits := by simp [List.inits_append]
    rw [inits,List.mem_inits]
    constructor
    · rintro ⟨rest,rfl⟩
      cases rest with
      | nil => exact ⟨last,[],by simp⟩
      | cons name rest => exact ⟨name,rest ++ [last],by simp⟩
    · rintro ⟨name,rest,same⟩
      refine ⟨(name :: rest).dropLast,?_⟩
      have cut := congrArg List.dropLast same
      rw [List.dropLast_concat,List.dropLast_append_of_ne_nil (by simp)] at cut
      exact cut.symm

theorem blockedClear : blocked f p = none ↔ ∀ q name rest, p = q ++ name :: rest → barrier f q = none := by
  rw [blocked,List.findSome?_eq_none_iff]
  exact ⟨fun all q name rest split => all q (properInits.mpr ⟨name,rest,split⟩),
    fun all q member => (properInits.mp member).elim (fun name ⟨rest,split⟩ => all q name rest split)⟩

theorem blockedStands (there : (f.node p).isSome = true) : blocked f p = none := by
  refine blockedClear.mpr ?_
  rintro q name rest rfl
  rw [List.append_cons] at there
  obtain ⟨v,here,dir⟩ := f.grown.above q name (standsAbove there)
  cases v with
  | dir perm => simp only [barrier,Option.mem_def.mp here]
  | file perm data => cases dir

theorem lstatStands (there : (f.node p).isSome = true) : lstat f p = .ok () := by
  rw [lstat,blockedStands there]
  exact if_pos there

theorem filesSame (same : g.node = f.node) : g = f := by
  cases g
  cases f
  cases same
  rfl

theorem renameBack {fromRelPath toRelPath : Str} {again : Os} (done : (rename os root fromRelPath toRelPath f).1 = .ok ())
    (opens : again.openRoot = .ok ()) (willing : again.refuses = none) :
    rename again root toRelPath fromRelPath (rename os root fromRelPath toRelPath f).2 = (.ok (),f) := by
  rcases @renameSpec os root f fromRelPath toRelPath with ⟨_,failed⟩ | ⟨_,a,b,source,target,there,ab,free,made⟩
  · exact absurd done failed
  · generalize (rename os root fromRelPath toRelPath f).2 = g at made ⊢
    have ba : ¬ b <+: a := by
      rintro ⟨rest,rfl⟩
      have above := standsAbove there
      rw [free] at above
      cases above
    have arrived : (g.node b).isSome = true := by
      have same : g.node (b ++ []) = f.node (a ++ []) := (congrFun made _).trans (moveUnder [])
      rw [List.append_nil,List.append_nil] at same
      rwa [same]
    have vacant : g.node a = none := by
      have same : move f.node a b a = graft f.node a bare a := graftApart ba
      have cut : graft f.node a bare (a ++ []) = none := graftUnder []
      rw [List.append_nil] at cut
      rw [made,same,cut]
    have way : blocked g a = none := by
      refine blockedClear.mpr (fun q name rest split => ?_)
      have out : ¬ a <+: q := by
        intro under
        have shorter := under.length_le
        rw [split,List.length_append,List.length_cons] at shorter
        omega
      have away : ¬ b <+: q := fun under => ba (split ▸ under.trans (List.prefix_append q _))
      have same : g.node q = f.node q := (congrFun made q).trans (moveApart out away)
      rw [barrier,same]
      exact blockedClear.mp (blockedStands there) q name rest split
    have looked : lstat g a = .error .noEntry := by
      rw [lstat,way]
      exact if_neg (by rw [vacant]; decide)
    have opened_ : opened again root toRelPath = .ok b := by
      obtain ⟨name,accepted,rfl⟩ := target
      simp only [opened,opens,wrapping,accepted]
      rfl
    have moves : renameTo g b a none = .ok f := by
      unfold renameTo
      rw [lstatStands arrived]
      dsimp only
      split
      · next e blocks =>
        rw [way] at blocks
        cases blocks
      · rw [dif_pos ⟨target.outside.1,source.outside.1,ba⟩]
        refine congrArg Except.ok (filesSame ?_)
        exact (congrArg (move · b a) made).trans (moveBack ab ba (f.grown.above.bare free))
    simp only [rename,opened_,source.mapped,looked,willing,moves,ne_eq,not_true_eq_false,if_false]

def vacant : Files where
  node p := if p = [] then some (.dir dirPerm) else none
  grown := ⟨⟨.dir dirPerm,rfl,rfl⟩,fun p name some_ => by simp at some_⟩

def willingOs : Os := ⟨.ok (),none,none,[]⟩
def noted : Files := (create willingOs [] "notes.md".toList false vacant).2

theorem notesBack : rename willingOs [] "todo.md".toList "notes.md".toList
    (rename willingOs [] "notes.md".toList "todo.md".toList noted).2 = (.ok (),noted) :=
  renameBack (by decide +kernel) rfl rfl

def kind (f : Files) (p : Path) : Option Bool := (f.node p).map Node.isDir

structure Lists (c : Checkout) (f : Files) : Prop where
  dirs : ∀ p, (c.items p).isSome = true ↔ kind f p = some true
  entries : ∀ p d, c.items p = some d → ∀ name isDir, (∃ e ∈ d.items, e.name = name ∧ e.isDir = isDir) ↔
    kind f (p ++ [name]) = some isDir

variable {c d : Checkout} {toLower : Str → Str}

theorem directorySame {x y : Directory} (same : ∀ name isDir, (∃ e ∈ x.items, e.name = name ∧ e.isDir = isDir) ↔
    ∃ e ∈ y.items, e.name = name ∧ e.isDir = isDir) : x = y := by
  have inside : ∀ {x y : Directory}, (∀ name isDir, (∃ e ∈ x.items, e.name = name ∧ e.isDir = isDir) →
      ∃ e ∈ y.items, e.name = name ∧ e.isDir = isDir) → ∀ e ∈ x.items, e ∈ y.items := by
    intro x y sub e member
    obtain ⟨f,there,name,isDir⟩ := sub _ _ ⟨e,member,rfl,rfl⟩
    rwa [← WorktreeList.entrySame name isDir]
  have members : ∀ e, e ∈ x.items ↔ e ∈ y.items :=
    fun e => ⟨inside (fun n k => (same n k).mp) e,inside (fun n k => (same n k).mpr) e⟩
  have strict : Std.Irrefl (fun a b : Entry => WorktreeList.bytes a.name < WorktreeList.bytes b.name) := ⟨fun a => lt_irrefl _⟩
  have items : x.items = y.items := x.sorted.eq_of_mem_iff y.sorted members
  obtain ⟨_,_⟩ := x
  cases items
  rfl

theorem listSame {p q : Path} (lists : Lists c f) (lists' : Lists d g) (own : kind f p = kind g q)
    (below : ∀ name, kind f (p ++ [name]) = kind g (q ++ [name])) : (c.items p).map (list toLower) = (d.items q).map (list toLower) := by
  have there : (c.items p).isSome = (d.items q).isSome := by
    rw [Bool.eq_iff_iff,lists.dirs,lists'.dirs,own]
  cases here : c.items p with
  | none =>
    rw [here,Option.isSome_none] at there
    have gone : d.items q = none := by simpa using there.symm
    rw [gone]
  | some x =>
    rw [here,Option.isSome_some] at there
    obtain ⟨y,also⟩ := Option.isSome_iff_exists.mp there.symm
    rw [also]
    have same : x = y := directorySame (fun name isDir => by
      rw [lists.entries p x here,lists'.entries q y also,below])
    rw [same]

inductive Asked
  | create (dir name : Str) (isDir : Bool)
  | rename (path newName : Str)
  | remove (path : Str)

def Asked.call (os : Os) : Asked → Call
  | create dir name isDir => .createEntry os (joinPath dir name) isDir
  | rename path newName => .renameEntry os path (joinPath (parentPath path) newName)
  | remove path => .deleteEntry os path

def Asked.dir : Asked → Str
  | create dir _ _ => dir
  | rename path _ => parentPath path
  | remove path => parentPath path

def Asked.settles (asked : Asked) : Answer Unit → Option Failure × List Str
  | .ok _ => (none,[asked.dir])
  | .error fault => (some fault,[])

inductive Meant (front : Path) : Asked → List Path → Prop
  | create {name} (isDir) (named : Name name) : Meant front (.create (joined front) name isDir) [front ++ [name]]
  | rename {old new} (named : Name old) (next : Name new) :
    Meant front (.rename (joined (front ++ [old])) new) [front ++ [old],front ++ [new]]
  | remove {name} (named : Name name) : Meant front (.remove (joined (front ++ [name]))) [front ++ [name]]

variable {front touched : Path} {name : Str}

theorem namedJoined (names : ∀ n ∈ front, Name n) (last : Name name) (named : Named (joined (front ++ [name])) p) :
    p = front ++ [name] := by
  have all : ∀ n ∈ front ++ [name], Name n := by
    intro n member
    rcases List.mem_append.mp member with inside | own
    · exact names n inside
    · rwa [List.mem_singleton.mp own]
  have plain : ∀ n ∈ front ++ [name], Plain n := fun n member => (all n member).1
  obtain ⟨x,accepted,rfl⟩ := named
  obtain ⟨same,_,_⟩ := rootRelativeOk.mp (entryRelativeOk.mp accepted).1
  have nonempty : joined (front ++ [name]) ≠ [] := fun empty => by simpa using FileTree.joinedNil plain empty
  rw [same,cleaned,if_neg nonempty,SlashPath.cleanNames all (by simp),SlashPath.elementsJoined plain]

theorem meantDir {asked : Asked} {touched : List Path} (names : ∀ n ∈ front, Name n) (meant : Meant front asked touched) :
    asked.dir = joined front := by
  have plain : ∀ n ∈ front, Plain n := fun n member => (names n member).1
  cases meant with
  | create isDir named => rfl
  | rename named next => exact FileTree.parentSnoc plain named.1
  | remove named => exact FileTree.parentSnoc plain named.1

theorem performApart {asked : Asked} {touched : List Path} (names : ∀ n ∈ front, Name n) (meant : Meant front asked touched)
    (apart : ∀ p ∈ touched, ¬ p <+: q) : (perform root f (asked.call os)).2.node q = f.node q := by
  have plain : ∀ n ∈ front, Plain n := fun n member => (names n member).1
  cases meant with
  | @create name isDir last =>
    simp only [Asked.call,FileTree.joinSnoc plain]
    rcases @createSpec os root (joined (front ++ [name])) f isDir with ⟨still,_⟩ | ⟨p,v,named,_,_,made⟩
    · exact congrArg (fun g : Files => g.node q) still
    · cases namedJoined names last named
      exact (congrFun made q).trans (graftApart (apart _ List.mem_cons_self))
  | @rename old new last next =>
    simp only [Asked.call,FileTree.parentSnoc plain last.1,FileTree.joinSnoc plain]
    rcases @renameSpec os root f (joined (front ++ [old])) (joined (front ++ [new])) with ⟨still,_⟩ | ⟨_,a,b,source,target,_,_,_,made⟩
    · exact congrArg (fun g : Files => g.node q) still
    · cases namedJoined names last source
      cases namedJoined names next target
      exact (congrFun made q).trans (moveApart (apart _ List.mem_cons_self) (apart _ (List.mem_cons_of_mem _ List.mem_cons_self)))
  | @remove name last =>
    rcases @deleteSpec os root (joined (front ++ [name])) f with ⟨still,_⟩ | ⟨p,named,kept,_⟩
    · exact congrArg (fun g : Files => g.node q) still
    · cases namedJoined names last named
      rcases kept q with same | ⟨under,_⟩
      · exact same
      · exact absurd under (apart _ List.mem_cons_self)

theorem meantTouched {asked : Asked} {touched : List Path} (meant : Meant front asked touched) :
    ∀ p ∈ touched, ∃ name, p = front ++ [name] := by
  cases meant <;> simp

theorem requestRelists {asked : Asked} {touched : List Path} (names : ∀ n ∈ front, Name n) (meant : Meant front asked touched)
    (lists : Lists c f) (lists' : Lists d (perform root f (asked.call os)).2) :
    ((perform root f (asked.call os)).1 = .ok () → asked.settles (perform root f (asked.call os)).1 = (none,[joined front])) ∧
      (∀ fault, (perform root f (asked.call os)).1 = .error fault →
        asked.settles (perform root f (asked.call os)).1 = (some fault,[])) ∧
      ∀ dir, (∀ p ∈ touched, ¬ p <+: dir) → dir ≠ front → listAt toLower d dir = listAt toLower c dir := by
  refine ⟨fun done => by rw [done,Asked.settles,meantDir names meant],fun fault failed => by rw [failed]; rfl,?_⟩
  intro dir apart other
  have below : ∀ name, ∀ p ∈ touched, ¬ p <+: dir ++ [name] := by
    intro name p member under
    rcases List.prefix_concat_iff.mp under with own | inside
    · obtain ⟨last,rfl⟩ := meantTouched meant p member
      exact other (List.append_inj' own rfl).1.symm
    · exact apart p member inside
  have same : ∀ q, (∀ p ∈ touched, ¬ p <+: q) → kind (perform root f (asked.call os)).2 q = kind f q :=
    fun q away => congrArg (Option.map Node.isDir) (performApart names meant away)
  unfold listAt
  rw [listSame lists' lists (same dir apart) (fun name => same _ (below name))]

def nothing : Checkout := WorktreeList.ofTable [([],WorktreeList.empty)] ⟨by decide,by decide,by decide⟩
def notes : Entry := WorktreeList.item "notes.md" false (by decide)
def notesOnly : Checkout := WorktreeList.ofTable [([],⟨[notes],List.pairwise_singleton _ _⟩)] ⟨by decide,by decide,by decide⟩

theorem notedNode : noted.node = graft vacant.node [notes.name] (leaf (.file filePerm [])) := rfl

theorem nothingLists : Lists nothing vacant := by
  constructor
  · intro p
    cases p <;> simp [nothing,WorktreeList.ofTable,List.lookup_cons,kind,vacant,Node.isDir]
  · intro p d here name isDir
    cases p with
    | nil =>
      cases here
      simp [WorktreeList.empty,kind,vacant]
    | cons e p => cases here

theorem kindNoted (p : Path) : kind noted p = if p = [] then some true else if p = [notes.name] then some false else none := by
  rw [kind,notedNode]
  rcases p with _ | ⟨e,rest⟩
  · rfl
  · rw [if_neg (by simp)]
    by_cases own : e = notes.name
    · subst own
      have node := graftUnder (t := vacant.node) (p := [notes.name]) (s := leaf (.file filePerm [])) rest
      rw [List.singleton_append] at node
      rw [node]
      cases rest <;> simp [leaf,Node.isDir]
    · rw [graftApart (fun under => own (List.cons_prefix_cons.mp under).1.symm),if_neg (by simp [own])]
      rfl

theorem notesLists : Lists notesOnly noted := by
  constructor
  · intro p
    rw [kindNoted]
    rcases p with _ | ⟨e,rest⟩
    · simp [notesOnly,WorktreeList.ofTable,List.lookup_cons]
    · simp [notesOnly,WorktreeList.ofTable,List.lookup_cons]
  · intro p d here name isDir
    rcases p with _ | ⟨e,rest⟩
    · cases here
      rw [kindNoted]
      by_cases own : name = notes.name
      · subst own
        cases isDir <;> simp [notes,WorktreeList.item]
      · simp [own,Ne.symm own]
    · cases here

def noteAsked : Asked := .create (joined []) notes.name false

theorem notesRelist :
    noteAsked.settles (perform [] vacant (noteAsked.call willingOs)).1 = (none,[joined []]) ∧
      ∀ dir, (∀ p ∈ [[notes.name]], ¬ p <+: dir) → dir ≠ [] →
        listAt WorktreeList.lower notesOnly dir = listAt WorktreeList.lower nothing dir := by
  have after : Lists notesOnly (perform [] vacant (noteAsked.call willingOs)).2 := notesLists
  obtain ⟨done,_,others⟩ := requestRelists (fun _ none_ => absurd none_ List.not_mem_nil)
    (Meant.create false (by decide) : Meant [] noteAsked [[notes.name]]) nothingLists after
  exact ⟨done (by decide +kernel),others⟩

end M6t.WorktreeOps
