import M6t.WorktreeList
import M6t.Runs

/-! The fsnotify watcher: the directories the operating system was asked to watch, from the first walk
on, as events come in. A watcher hears of the entries of a directory that was taken, and of that
directory itself. Each event comes with the worktree as the handler finds it, how many directories its
walk gets to before an error, and which of them the system takes. -/
namespace M6t.FsWatcher
open M6t.Text M6t.WorktreeList M6t.Runs
open M6t.FileTree (Entry)
open M6t.EntryPaths (gitDir)

def refs : Str := "refs".toList

def visit (c : Checkout) : Nat → Path → Path → List Path
  | 0,_,_ => []
  | fuel + 1,root,p =>
    match c.items p with
    | none => []
    | some d =>
      if p ≠ root ∧ p.getLast? = some gitDir then p :: visit c fuel (p ++ [refs]) (p ++ [refs])
      else p :: d.items.flatMap (fun entry => visit c fuel root (p ++ [entry.name]))

def addTree (c : Checkout) (root : Path) : List Path := visit c (c.depth + 1) root root

structure Op where
  create : Bool
  write : Bool
  remove : Bool
  rename : Bool
  chmod : Bool
  deriving DecidableEq, Repr

def attributeOnly (op : Op) : Bool := op = ⟨false,false,false,false,true⟩

structure Handled where
  name : Path
  op : Op
  c : Checkout
  reached : Nat
  accepts : Path → Bool

inductive Event
  | handle (h : Handled)
  | flush

/-- `taken` is every directory the system ever took, `watched` the watcher's own record. -/
structure State where
  taken : List Path
  watched : List Path
  pending : List Path
  deriving DecidableEq, Repr

def State.add (s : State) (dirs : List Path) : State := { s with taken := s.taken ++ dirs, watched := s.watched ++ dirs }

def State.handle (s : State) (h : Handled) : State :=
  if attributeOnly h.op then s
  else
    let s := if h.op.create ∧ (h.c.items h.name).isSome then
        s.add (((addTree h.c h.name).take h.reached).filter h.accepts)
      else s
    let s := if h.op.remove ∨ h.op.rename then { s with watched := s.watched.filter (· ≠ h.name) } else s
    { s with pending := s.pending.insert h.name.dropLast }

def start (c : Checkout) (accepts : Path → Bool) : State := (⟨[],[],[]⟩ : State).add ((addTree c []).filter accepts)

def step (s : State) : Event → Option State
  | .handle h => if h.name ∈ s.taken ∨ h.name ≠ [] ∧ h.name.dropLast ∈ s.taken then some (s.handle h) else none
  | .flush => some { s with pending := [] }

def Allowed : Path → Prop
  | [] => True
  | e :: rest => if e = gitDir then rest = [] ∨ rest.head? = some refs else Allowed rest

/-- A `.git` with a directory in it that is not its `refs`, or such a directory. -/
def Intrudes (c : Checkout) (name : Path) : Prop :=
  ∃ above rest, name = above ++ gitDir :: rest ∧ gitDir ∉ above ∧
    (rest = [] ∧ (∃ x, x ≠ refs ∧ (c.items (name ++ [x])).isSome = true) ∨ ∃ x, rest = [x] ∧ x ≠ refs)

def calm (_ : State) : Event → Prop
  | .handle h => attributeOnly h.op = false → h.op.create = true → (h.c.items h.name).isSome = true → ¬Intrudes h.c h.name
  | .flush => True

def Goes : Path → Prop
  | [] => True
  | [_] => True
  | e :: x :: rest => if e = gitDir then x = refs ∧ Goes rest else Goes (x :: rest)

theorem allowedOutside {above rest : Path} (outside : gitDir ∉ above) : Allowed (above ++ rest) ↔ Allowed rest := by
  induction above with
  | nil => rfl
  | cons e above ih =>
    rw [List.mem_cons,not_or] at outside
    rw [List.cons_append,Allowed,if_neg (Ne.symm outside.1),ih outside.2]

theorem allowedGit {above rest : Path} (outside : gitDir ∉ above) :
    Allowed (above ++ gitDir :: rest) ↔ rest = [] ∨ rest.head? = some refs := by
  rw [allowedOutside outside,Allowed,if_pos rfl]

theorem goesPlain {e : Str} {rest : Path} (plain : e ≠ gitDir) : Goes (e :: rest) ↔ Goes rest := by
  cases rest with
  | nil => exact Iff.rfl
  | cons x rest => rw [Goes,if_neg plain]

theorem goesGit {rest : Path} : Goes (gitDir :: rest) ↔ rest = [] ∨ ∃ below, rest = refs :: below ∧ Goes below := by
  cases rest with
  | nil => exact iff_of_true trivial (Or.inl rfl)
  | cons x rest =>
    rw [Goes,if_pos rfl]
    constructor
    · rintro ⟨rfl,goes⟩
      exact Or.inr ⟨rest,rfl,goes⟩
    · rintro (none_ | ⟨below,same,goes⟩)
      · cases none_
      · cases same
        exact ⟨rfl,goes⟩

theorem goesAllowed {rest : Path} (goes : Goes rest) : Allowed rest := by
  induction rest with
  | nil => trivial
  | cons e rest ih =>
    by_cases git : e = gitDir
    · subst git
      rw [Allowed,if_pos rfl]
      rcases goesGit.mp goes with none_ | ⟨below,rfl,_⟩
      · exact Or.inl none_
      · exact Or.inr rfl
    · rw [Allowed,if_neg git]
      exact ih ((goesPlain git).mp goes)

variable {c : Checkout}

def standing (root p : Path) : Path := if p ≠ root ∧ p.getLast? = some gitDir then [gitDir] else []

theorem standingRoot (root : Path) : standing root root = [] := by simp [standing]

theorem goesStanding {root p : Path} (inside : root.length ≤ p.length) {name : Str} {rest : Path} :
    Goes (standing root (p ++ [name]) ++ rest) ↔ Goes (name :: rest) := by
  have below : p ++ [name] ≠ root := by
    rintro rfl
    rw [List.length_append,List.length_singleton] at inside
    omega
  unfold standing
  rw [List.getLast?_concat]
  by_cases git : name = gitDir
  · rw [if_pos ⟨below,congrArg some git⟩,git]
    rfl
  · rw [if_neg (fun both => git (Option.some.inj both.2)),goesPlain git]
    rfl

theorem visitMember {fuel : Nat} {root p q : Path} (inside : root.length ≤ p.length) (enough : c.depth < p.length + fuel) :
    q ∈ visit c fuel root p ↔ ∃ rest, q = p ++ rest ∧ (c.items q).isSome = true ∧ Goes (standing root p ++ rest) := by
  induction fuel generalizing root p with
  | zero =>
    refine iff_of_false List.not_mem_nil ?_
    rintro ⟨rest,rfl,there,_⟩
    have shallow := c.shallow _ there
    rw [List.length_append] at shallow
    omega
  | succ fuel ih =>
    rw [visit]
    cases here : c.items p with
    | none =>
      refine iff_of_false List.not_mem_nil ?_
      rintro ⟨rest,rfl,there,_⟩
      have inside := itemsPrefix there
      rw [here] at inside
      cases inside
    | some d =>
      have own : (c.items p).isSome = true := by rw [here]; rfl
      have deeper : ∀ name, c.depth < (p ++ [name]).length + fuel := fun name => by
        rw [List.length_append,List.length_singleton]
        omega
      dsimp only
      split
      · next git =>
        have stands : standing root p = [gitDir] := if_pos git
        rw [List.mem_cons,ih (Nat.le_refl _) (deeper refs),standingRoot,stands]
        constructor
        · rintro (rfl | ⟨rest,rfl,there,goes⟩)
          · exact ⟨[],(List.append_nil _).symm,own,trivial⟩
          · exact ⟨refs :: rest,by simp,there,goesGit.mpr (Or.inr ⟨rest,rfl,goes⟩)⟩
        · rintro ⟨rest,rfl,there,goes⟩
          rcases goesGit.mp goes with rfl | ⟨below,rfl,onward⟩
          · exact Or.inl (List.append_nil _)
          · exact Or.inr ⟨below,by simp,there,onward⟩
      · next plain =>
        have stands : standing root p = [] := if_neg plain
        have wider : ∀ name, root.length ≤ (p ++ [name]).length := fun name => by
          rw [List.length_append,List.length_singleton]
          omega
        simp only [List.mem_cons,List.mem_flatMap,ih (wider _) (deeper _),goesStanding inside,stands,List.nil_append]
        constructor
        · rintro (rfl | ⟨entry,_,rest,rfl,there,goes⟩)
          · exact ⟨[],(List.append_nil _).symm,own,trivial⟩
          · exact ⟨entry.name :: rest,by simp,there,goes⟩
        · rintro ⟨rest,rfl,there,goes⟩
          cases rest with
          | nil => exact Or.inl (List.append_nil _)
          | cons name rest =>
            have next : (c.items (p ++ [name])).isSome = true := by
              rw [List.append_cons] at there
              exact itemsPrefix there
            obtain ⟨d',held,entry,member,rfl,_⟩ := (c.child p name).mp next
            cases Option.some.inj (here.symm.trans held)
            exact Or.inr ⟨entry,member,rest,by simp,there,goes⟩

theorem addTreeMember {root q : Path} :
    q ∈ addTree c root ↔ ∃ rest, q = root ++ rest ∧ (c.items q).isSome = true ∧ Goes rest := by
  rw [addTree,visitMember (Nat.le_refl _) (by omega),standingRoot]
  rfl

theorem headRefs {above rest : Path} {x : Str} (outside : gitDir ∉ above) (allowed : Allowed (above ++ gitDir :: x :: rest)) :
    x = refs := by
  rcases (allowedGit outside).mp allowed with none_ | head
  · cases none_
  · exact Option.some.inj head

theorem heardRefs {above rest : Path} {x y : Str} (outside : gitDir ∉ above)
    (heard : Allowed (above ++ gitDir :: x :: y :: rest) ∨ Allowed (above ++ gitDir :: x :: y :: rest).dropLast) : x = refs := by
  rcases heard with own | parent
  · exact headRefs outside own
  · have shorter : (above ++ gitDir :: x :: y :: rest).dropLast = above ++ gitDir :: x :: (y :: rest).dropLast := by
      rw [List.dropLast_append_of_ne_nil (by simp)]
      rfl
    exact headRefs outside (shorter ▸ parent)

theorem addTreeAllowed {name : Path} (heard : Allowed name ∨ name ≠ [] ∧ Allowed name.dropLast) (out : ¬Intrudes c name) :
    ∀ q ∈ addTree c name, Allowed q := by
  intro q member
  obtain ⟨rest,rfl,there,goes⟩ := addTreeMember.mp member
  by_cases git : gitDir ∈ name
  · obtain ⟨above,tail,rfl,outside⟩ := List.eq_append_cons_of_mem git
    rw [List.append_assoc,List.cons_append,allowedGit outside]
    rcases tail with _ | ⟨x,_ | ⟨y,tail⟩⟩
    · cases rest with
      | nil => exact Or.inl rfl
      | cons x rest =>
        refine Or.inr (congrArg some ?_)
        by_contra other
        rw [List.append_cons] at there
        exact out ⟨above,[],rfl,outside,Or.inl ⟨rfl,x,other,itemsPrefix there⟩⟩
    · refine Or.inr (congrArg some ?_)
      by_contra other
      exact out ⟨above,[x],rfl,outside,Or.inr ⟨x,rfl,other⟩⟩
    · exact Or.inr (congrArg some (heardRefs outside (heard.imp_right And.right)))
  · rw [allowedOutside git]
    exact goesAllowed goes

/-- What the system took is allowed, and it took all that the watcher has on record. -/
structure Kept (s : State) : Prop where
  taken : ∀ p ∈ s.taken, Allowed p
  watched : ∀ p ∈ s.watched, p ∈ s.taken

theorem Kept.add {s : State} (kept : Kept s) {dirs : List Path} (allowed : ∀ p ∈ dirs, Allowed p) : Kept (s.add dirs) := by
  constructor
  · intro p member
    rcases List.mem_append.mp member with old | new
    · exact kept.taken p old
    · exact allowed p new
  · intro p member
    rcases List.mem_append.mp member with old | new
    · exact List.mem_append_left _ (kept.watched p old)
    · exact List.mem_append_right _ new

theorem startKept (c : Checkout) (accepts : Path → Bool) : Kept (start c accepts) := by
  have empty : Kept ⟨[],[],[]⟩ := ⟨fun _ none_ => absurd none_ List.not_mem_nil,fun _ none_ => absurd none_ List.not_mem_nil⟩
  refine empty.add (fun p member => ?_)
  obtain ⟨rest,rfl,_,goes⟩ := addTreeMember.mp (List.mem_of_mem_filter member)
  exact goesAllowed goes

theorem handleKept {s : State} (kept : Kept s) {h : Handled} (heard : Allowed h.name ∨ h.name ≠ [] ∧ Allowed h.name.dropLast)
    (quiet : attributeOnly h.op = false → h.op.create = true → (h.c.items h.name).isSome = true → ¬Intrudes h.c h.name) :
    Kept (s.handle h) := by
  unfold State.handle
  split
  · exact kept
  · next acts =>
    have added : Kept (if h.op.create ∧ (h.c.items h.name).isSome then
        s.add (((addTree h.c h.name).take h.reached).filter h.accepts) else s) := by
      split
      · next created =>
        refine kept.add (fun p member => ?_)
        have walked := List.mem_of_mem_take (List.mem_of_mem_filter member)
        exact addTreeAllowed heard (quiet (by simpa using acts) created.1 created.2) p walked
      · exact kept
    dsimp only
    generalize (if h.op.create ∧ (h.c.items h.name).isSome then
        s.add (((addTree h.c h.name).take h.reached).filter h.accepts) else s) = t at added ⊢
    split
    · exact ⟨added.taken,fun p member => added.watched p (List.mem_of_mem_filter member)⟩
    · exact ⟨added.taken,added.watched⟩

theorem stepKept {s t : State} {e : Event} (kept : Kept s) (quiet : calm s e) (taken : step s e = some t) : Kept t := by
  cases e with
  | flush =>
    cases Option.some.inj taken
    exact ⟨kept.taken,kept.watched⟩
  | handle h =>
    simp only [step] at taken
    split at taken
    · next heard =>
      cases Option.some.inj taken
      exact handleKept kept (heard.imp (kept.taken _) (And.imp_right (kept.taken _))) quiet
    · cases taken

theorem calmWatched (c : Checkout) (accepts : Path → Bool) (events : List Event) (s : State)
    (run : Run step calm (start c accepts) events s) : ∀ p ∈ s.watched, Allowed p := by
  have kept : Kept s := run.invariant (startKept c accepts) (fun _ _ _ kept quiet taken => stepKept kept quiet taken)
  exact fun p member => kept.taken p (kept.watched p member)

theorem intruderWalked {name : Path} (there : (c.items name).isSome = true) (intrudes : Intrudes c name) :
    ∃ q ∈ addTree c name, ¬Allowed q := by
  obtain ⟨above,rest,rfl,outside,⟨rfl,x,other,held⟩ | ⟨x,rfl,other⟩⟩ := intrudes
  · refine ⟨above ++ [gitDir] ++ [x],addTreeMember.mpr ⟨[x],rfl,held,trivial⟩,?_⟩
    rw [List.append_assoc,List.singleton_append,allowedGit outside]
    simpa using other
  · refine ⟨above ++ [gitDir,x],addTreeMember.mpr ⟨[],(List.append_nil _).symm,there,trivial⟩,?_⟩
    rw [allowedGit outside]
    simpa using other

theorem intruderInside {name : Path} (intrudes : Intrudes c name) : gitDir ∈ name := by
  obtain ⟨above,rest,rfl,_⟩ := intrudes
  exact List.mem_append_right _ List.mem_cons_self

def gitItem : Entry := item ".git" true (by decide)
def appsItem : Entry := item "apps" true (by decide)
def refsItem : Entry := item "refs" true (by decide)
def rebaseItem : Entry := item "rebase-merge" true (by decide)
def gitOnly : Directory := ⟨[gitItem],List.pairwise_singleton _ _⟩
def refsOnly : Directory := ⟨[refsItem],List.pairwise_singleton _ _⟩

def repository : Checkout :=
  ofTable [([],gitOnly),([gitDir],refsOnly),([gitDir,refs],empty)] ⟨by decide,by decide,by decide⟩

def rebasing : Checkout :=
  ofTable [([],gitOnly),([gitDir],⟨[rebaseItem,refsItem],by decide +kernel⟩),([gitDir,rebaseItem.name],empty),
    ([gitDir,refs],empty)] ⟨by decide,by decide,by decide⟩

def withApps : Checkout :=
  ofTable [([],⟨[gitItem,appsItem],by decide +kernel⟩),([gitDir],refsOnly),([gitDir,refs],empty),([appsItem.name],empty)]
    ⟨by decide,by decide,by decide⟩

def created (name : Path) (c : Checkout) : Event := .handle ⟨name,⟨true,false,false,false,false⟩,c,100,fun _ => true⟩

theorem appsWatched : ∃ s, Run step calm (start repository (fun _ => true)) [created [appsItem.name] withApps] s ∧
    ∀ p ∈ s.watched, Allowed p := by
  have quiet : calm (start repository (fun _ => true)) (created [appsItem.name] withApps) :=
    fun _ _ _ intrudes => absurd (intruderInside intrudes) (by decide)
  have run := Run.snoc (.nil : Run step calm (start repository (fun _ => true)) [] _) quiet
    (rfl : step (start repository (fun _ => true)) (created [appsItem.name] withApps) = some _)
  exact ⟨_,run,calmWatched repository (fun _ => true) _ _ run⟩

theorem rebaseWatched : ∃ s, Run step anyStep (start repository (fun _ => true)) [created [gitDir,rebaseItem.name] rebasing] s ∧
    [gitDir,rebaseItem.name] ∈ s.watched ∧ ¬Allowed [gitDir,rebaseItem.name] := by
  refine ⟨(start repository (fun _ => true)).handle ⟨[gitDir,rebaseItem.name],⟨true,false,false,false,false⟩,rebasing,100,fun _ => true⟩,
    runOfExec (by decide +kernel),by decide +kernel,?_⟩
  intro allowed
  have inside : Allowed ([] ++ gitDir :: [rebaseItem.name]) := allowed
  rw [allowedGit List.not_mem_nil] at inside
  exact absurd inside (by decide)

end M6t.FsWatcher
