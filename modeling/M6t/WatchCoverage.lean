import M6t.FsWatcher

/-! The fsnotify watcher beside a worktree that goes on changing. A walk takes one step at a time: it
looks at its root, asks for a watch, reads a directory. A watch is of a directory, and gone with it. The
system queues an event for what changes in a directory it watches; the handler takes them in order. -/
namespace M6t.WatchCoverage
open M6t.Text M6t.WorktreeList M6t.Runs
open M6t.EntryPaths (gitDir)
open M6t.FsWatcher (Op attributeOnly refs Goes addTree visit goesPlain goesGit repository withApps appsItem)
open M6t.FileTree (Entry)

inductive Task
  | lstat (root : Path)
  | visit (root p : Path)
  | read (root p : Path)
  deriving DecidableEq, Repr

/-- `watches` is what the system watches, `watched` the watcher's own record, `handling` the event
whose walk is under way. -/
structure State where
  c : Checkout
  watches : List Path
  watched : List Path
  queue : List (Path × Op)
  walk : List Task
  handling : Option (Path × Op)
  pending : List Path
  published : List (List Path)

def start (c : Checkout) : State := ⟨c,[],[],[],[.lstat []],none,[],[]⟩

inductive Event
  | change (c : Checkout) (p : Path) (ops : List Op)
  | notice (p : Path) (op : Op)
  | walk
  | handle
  | flush

section
variable (accepts : Path → Bool)

def addWatch (s : State) (dir : Path) : State :=
  if (s.c.items dir).isSome ∧ accepts dir then
    { s with watches := s.watches ++ [dir], watched := s.watched ++ [dir] }
  else s

def subdirectories (c : Checkout) (p : Path) : List Path :=
  match c.items p with
  | none => []
  | some d => (d.items.filter Entry.isDir).map (fun entry => p ++ [entry.name])

def next (root p : Path) : Task := if p ≠ root ∧ p.getLast? = some gitDir then .lstat (p ++ [refs]) else .read root p

def advance (s : State) (rest : List Task) : Task → State
  | .lstat root => { s with walk := if (s.c.items root).isSome then .visit root root :: rest else rest }
  | .visit root p => { addWatch accepts s p with walk := next root p :: rest }
  | .read root p => { s with walk := (subdirectories s.c p).map (.visit root) ++ rest }

def take (s : State) (e : Path × Op) (rest : List (Path × Op)) : State :=
  if attributeOnly e.2 then { s with queue := rest }
  else { s with queue := rest, handling := some e,
                walk := if e.2.create ∧ (s.c.items e.1).isSome then [.lstat e.1] else [] }

def finish (s : State) (e : Path × Op) : State :=
  { s with handling := none, pending := s.pending.insert e.1.dropLast,
           watched := if e.2.remove ∨ e.2.rename then s.watched.filter (· ≠ e.1) else s.watched }

def flush (s : State) : State :=
  if s.pending = [] then s else { s with published := s.published ++ [s.pending], pending := [] }

def changed (s : State) (c : Checkout) (p : Path) (ops : List Op) : State :=
  { s with c, watches := s.watches.filter (fun q => ¬ p <+: q), queue := s.queue ++ ops.map (fun op => (p,op)) }

def step (s : State) : Event → Option State
  | .change c p ops => some (changed s c p ops)
  | .notice p op => some { s with queue := s.queue ++ [(p,op)] }
  | .walk =>
    match s.walk with
    | [] => none
    | task :: rest => some (advance accepts s rest task)
  | .handle =>
    match s.walk,s.handling,s.queue with
    | [],some e,_ => some (finish s e)
    | [],none,e :: rest => some (take s e rest)
    | _,_,_ => none
  | .flush => some (flush s)

end

structure Changes (c d : Checkout) (p : Path) : Prop where
  proper : p ≠ []
  parent : (d.items p.dropLast).isSome = (c.items p.dropLast).isSome
  others : ∀ q, ¬ p <+: q → q ≠ p.dropLast → d.items q = c.items q

/-- A change in a watched directory is told, and as one that creates where a directory stands afterwards. -/
def told (s : State) : Event → Prop
  | .change c p ops => Changes s.c c p ∧ (p.dropLast ∈ s.watches →
      (∃ op ∈ ops, attributeOnly op = false) ∧ ((c.items p).isSome = true → ∃ op ∈ ops, op.create = true))
  | _ => True

variable {accepts : Path → Bool}

inductive Steps (accepts : Path → Bool) (s : State) : Event → State → Prop where
  | changes {c p ops} : Steps accepts s (.change c p ops) (changed s c p ops)
  | notices {p op} : Steps accepts s (.notice p op) { s with queue := s.queue ++ [(p,op)] }
  | walks {task rest} (walk : s.walk = task :: rest) : Steps accepts s .walk (advance accepts s rest task)
  | finishes {e} (walk : s.walk = []) (handling : s.handling = some e) : Steps accepts s .handle (finish s e)
  | passes {e rest} (queue : s.queue = e :: rest) (handling : s.handling = none) (touched : attributeOnly e.2 = true) :
      Steps accepts s .handle { s with queue := rest }
  | begins {e rest} (walk : s.walk = []) (queue : s.queue = e :: rest) (handling : s.handling = none)
      (acts : attributeOnly e.2 = false) :
      Steps accepts s .handle { s with
        queue := rest
        handling := some e
        walk := if e.2.create ∧ (s.c.items e.1).isSome then [.lstat e.1] else [] }
  | rests (none_ : s.pending = []) : Steps accepts s .flush s
  | publishes : Steps accepts s .flush { s with published := s.published ++ [s.pending], pending := [] }

theorem stepCases {s t : State} {e : Event} (taken : step accepts s e = some t) : Steps accepts s e t := by
  cases e with
  | change c p ops => exact Option.some.inj taken ▸ .changes
  | notice p op => exact Option.some.inj taken ▸ .notices
  | walk =>
    simp only [step] at taken
    split at taken
    · cases taken
    · next walk => exact Option.some.inj taken ▸ .walks walk
  | handle =>
    simp only [step] at taken
    split at taken
    · next walk handling => exact Option.some.inj taken ▸ .finishes walk handling
    · next walk handling queue =>
      rw [take] at taken
      split at taken
      · next touched => exact Option.some.inj taken ▸ .passes queue handling touched
      · next acts => exact Option.some.inj taken ▸ .begins walk queue handling (Bool.not_eq_true _ ▸ acts)
    · cases taken
  | flush =>
    simp only [step,flush] at taken
    split at taken
    · next none_ => exact Option.some.inj taken ▸ .rests none_
    · exact Option.some.inj taken ▸ .publishes

def Open (accepts : Path → Bool) (q : Path) : Prop := Goes q ∧ ∀ r, r <+: q → accepts r = true

theorem goesFront {p rest : Path} (goes : Goes (p ++ rest)) : Goes p := by
  fun_induction Goes p with
  | case1 => trivial
  | case2 => trivial
  | case3 x tail ih => exact ⟨goes.1,ih goes.2⟩
  | case4 e x tail plain ih => exact ih ((goesPlain plain).mp goes)

theorem Open.front {p q : Path} (opened : Open accepts q) (front : p <+: q) : Open accepts p := by
  obtain ⟨rest,rfl⟩ := front
  exact ⟨goesFront opened.1,fun r under => opened.2 r (under.trans (List.prefix_append _ _))⟩

def Task.reaches (q : Path) : Task → Prop
  | .lstat root => root <+: q
  | .visit _ p => p <+: q
  | .read _ p => p <+: q ∧ p ≠ q

theorem Task.further {t : Task} {q r : Path} (reached : t.reaches q) (under : q <+: r) : t.reaches r := by
  cases t with
  | lstat root => exact reached.trans under
  | visit root p => exact reached.trans under
  | read root p =>
    refine ⟨reached.1.trans under,?_⟩
    rintro rfl
    exact reached.2 (reached.1.eq_of_length (Nat.le_antisymm reached.1.length_le under.length_le))

def Awaited (s : State) (q : Path) : Prop :=
  (∃ e ∈ s.queue, e.2.create = true ∧ e.1 <+: q) ∨ ∃ t ∈ s.walk, t.reaches q

def Covers (accepts : Path → Bool) (s : State) : Prop :=
  ∀ q, Open accepts q → (s.c.items q).isSome = true → q ∈ s.watches ∨ Awaited s q

theorem startCovers (c : Checkout) : Covers accepts (start c) :=
  fun _ _ _ => Or.inr (Or.inr ⟨.lstat [],List.mem_cons_self,List.nil_prefix⟩)

theorem parentStands {c : Checkout} {p : Path} (proper : p ≠ []) (there : (c.items p).isSome = true) :
    (c.items p.dropLast).isSome = true := by
  rw [← List.dropLast_append_getLast proper] at there
  exact itemsPrefix there

theorem changedCovers {s : State} {c : Checkout} {p : Path} {ops : List Op} (covers : Covers accepts s)
    (promised : told s (.change c p ops)) : Covers accepts (changed s c p ops) := by
  obtain ⟨change,heard⟩ := promised
  intro q opened there
  by_cases under : p <+: q
  · -- what is new hangs below the parent, which is watched or still to be walked
    obtain ⟨below,rfl⟩ := under
    have stands : (c.items p).isSome = true := itemsPrefix there
    have above : p.dropLast <+: p ++ below := (List.dropLast_prefix p).trans (List.prefix_append _ _)
    rcases covers _ (opened.front above) (change.parent ▸ parentStands change.proper stands) with watched | waiting | walked
    · obtain ⟨op,member,create⟩ := (heard watched).2 stands
      exact Or.inr (Or.inl ⟨(p,op),List.mem_append_right _ (List.mem_map_of_mem member),create,List.prefix_append _ _⟩)
    · obtain ⟨e,member,create,front⟩ := waiting
      exact Or.inr (Or.inl ⟨e,List.mem_append_left _ member,create,front.trans above⟩)
    · obtain ⟨t,member,reached⟩ := walked
      exact Or.inr (Or.inr ⟨t,member,Task.further reached above⟩)
  · have before : (s.c.items q).isSome = true := by
      by_cases parent : q = p.dropLast
      · rw [parent,← change.parent,← parent]
        exact there
      · rw [← change.others q under parent]
        exact there
    rcases covers q opened before with watched | waiting | walked
    · exact Or.inl (List.mem_filter.mpr ⟨watched,by simpa using under⟩)
    · obtain ⟨e,member,rest⟩ := waiting
      exact Or.inr (Or.inl ⟨e,List.mem_append_left _ member,rest⟩)
    · exact Or.inr (Or.inr walked)

theorem subdirectoriesMember {c : Checkout} {p q : Path} :
    q ∈ subdirectories c p ↔ ∃ name, q = p ++ [name] ∧ (c.items q).isSome = true := by
  unfold subdirectories
  constructor
  · cases here : c.items p with
    | none => exact fun none_ => absurd none_ List.not_mem_nil
    | some d =>
      intro member
      obtain ⟨entry,inside,rfl⟩ := List.mem_map.mp member
      obtain ⟨held,dir⟩ := List.mem_filter.mp inside
      exact ⟨entry.name,rfl,(c.child p entry.name).mpr ⟨d,here,entry,held,rfl,dir⟩⟩
  · rintro ⟨name,rfl,there⟩
    obtain ⟨d,here,entry,held,rfl,dir⟩ := (c.child p name).mp there
    rw [here]
    exact List.mem_map.mpr ⟨entry,List.mem_filter.mpr ⟨held,dir⟩,rfl⟩

theorem goesBack {p rest : Path} (goes : Goes (p ++ rest)) : Goes rest := by
  induction p with
  | nil => exact goes
  | cons e p ih =>
    refine ih ?_
    by_cases git : e = gitDir
    · subst git
      have inside : Goes (gitDir :: (p ++ rest)) := goes
      rcases goesGit.mp inside with none_ | ⟨below,same,onward⟩
      · rw [none_]
        trivial
      · rw [same]
        exact (goesPlain (by decide)).mpr onward
    · exact (goesPlain git).mp goes

theorem addWatchKeeps (accepts : Path → Bool) (s : State) (dir : Path) :
    (addWatch accepts s dir).c = s.c ∧ (addWatch accepts s dir).queue = s.queue ∧
      (addWatch accepts s dir).handling = s.handling ∧ (addWatch accepts s dir).pending = s.pending ∧
      (addWatch accepts s dir).published = s.published ∧ ∀ q ∈ s.watches, q ∈ (addWatch accepts s dir).watches := by
  unfold addWatch
  split
  · exact ⟨rfl,rfl,rfl,rfl,rfl,fun q member => List.mem_append_left _ member⟩
  · exact ⟨rfl,rfl,rfl,rfl,rfl,fun q member => member⟩

theorem nextReaches {root p q : Path} (goes : Goes q) (under : p <+: q) (proper : p ≠ q) : (next root p).reaches q := by
  unfold next
  split
  · next git =>
    obtain ⟨rest,rfl⟩ := under
    obtain ⟨above,rfl⟩ : ∃ above, p = above ++ [gitDir] := by
      obtain ⟨_,last⟩ := git
      exact ⟨p.dropLast,(List.dropLast_append_getLast? _ last).symm⟩
    rw [List.append_assoc] at goes
    have inside : Goes (gitDir :: rest) := goesBack goes
    rcases goesGit.mp inside with none_ | ⟨below,rfl,_⟩
    · rw [none_,List.append_nil] at proper
      exact absurd rfl proper
    · exact ⟨below,by simp⟩
  · exact ⟨under,proper⟩

theorem advanceCovers {s : State} {t : Task} {rest : List Task} {q : Path} (opened : Open accepts q)
    (there : (s.c.items q).isSome = true) (reached : t.reaches q) :
    q ∈ (advance accepts s rest t).watches ∨ ∃ t' ∈ (advance accepts s rest t).walk, t'.reaches q := by
  cases t with
  | lstat root =>
    obtain ⟨below,rfl⟩ := reached
    refine Or.inr ⟨.visit root root,?_,List.prefix_append _ _⟩
    have stands : (s.c.items root).isSome = true := itemsPrefix there
    simp [advance,stands]
  | visit root p =>
    by_cases own : p = q
    · subst own
      left
      simp [advance,addWatch,there,opened.2 p (List.prefix_refl p)]
    · exact Or.inr ⟨next root p,by simp [advance],nextReaches opened.1 reached own⟩
  | read root p =>
    obtain ⟨⟨below,rfl⟩,proper⟩ := reached
    cases below with
    | nil => exact absurd (List.append_nil p).symm proper
    | cons name below =>
      rw [List.append_cons] at there
      refine Or.inr ⟨.visit root (p ++ [name]),?_,⟨below,by simp⟩⟩
      exact List.mem_append_left _ (List.mem_map_of_mem (subdirectoriesMember.mpr ⟨name,rfl,itemsPrefix there⟩))

theorem advanceKeeps (accepts : Path → Bool) (s : State) (rest : List Task) (t : Task) :
    (advance accepts s rest t).c = s.c ∧ (advance accepts s rest t).queue = s.queue ∧
      (advance accepts s rest t).handling = s.handling ∧ (advance accepts s rest t).pending = s.pending ∧
      (advance accepts s rest t).published = s.published ∧ (∀ q ∈ s.watches, q ∈ (advance accepts s rest t).watches) ∧
      ∀ t' ∈ rest, t' ∈ (advance accepts s rest t).walk := by
  cases t with
  | lstat root =>
    refine ⟨rfl,rfl,rfl,rfl,rfl,fun q member => member,fun t' member => ?_⟩
    simp only [advance]
    split
    · exact List.mem_cons_of_mem _ member
    · exact member
  | visit root p =>
    obtain ⟨c,queue,handling,pending,published,watches⟩ := addWatchKeeps accepts s p
    exact ⟨c,queue,handling,pending,published,watches,fun t' member => List.mem_cons_of_mem _ member⟩
  | read root p => exact ⟨rfl,rfl,rfl,rfl,rfl,fun q member => member,fun t' member => List.mem_append_right _ member⟩

theorem walkCovers {s : State} {t : Task} {rest : List Task} (walk : s.walk = t :: rest) (covers : Covers accepts s) :
    Covers accepts (advance accepts s rest t) := by
  obtain ⟨c,queue,_,_,_,watches,tasks⟩ := advanceKeeps accepts s rest t
  intro q opened there
  rw [c] at there
  rcases covers q opened there with watched | ⟨e,member,waits⟩ | ⟨t',member,reached⟩
  · exact Or.inl (watches q watched)
  · exact Or.inr (Or.inl ⟨e,queue ▸ member,waits⟩)
  · rw [walk] at member
    rcases List.mem_cons.mp member with rfl | later
    · exact (advanceCovers opened there reached).imp id Or.inr
    · exact Or.inr (Or.inr ⟨t',tasks t' later,reached⟩)

theorem createActs {op : Op} (create : op.create = true) : attributeOnly op = false := by
  rw [attributeOnly,decide_eq_false_iff_not]
  intro touched
  rw [touched] at create
  cases create

theorem stepCovers {s t : State} {e : Event} (covers : Covers accepts s) (promised : told s e)
    (taken : step accepts s e = some t) : Covers accepts t := by
  cases stepCases taken with
  | changes => exact changedCovers covers promised
  | notices =>
    intro q opened there
    rcases covers q opened there with watched | ⟨d,member,waits⟩ | walked
    · exact Or.inl watched
    · exact Or.inr (Or.inl ⟨d,List.mem_append_left _ member,waits⟩)
    · exact Or.inr (Or.inr walked)
  | walks walk => exact walkCovers walk covers
  | passes queue handling touched =>
    intro q opened there
    rcases covers q opened there with watched | ⟨d,member,create,front⟩ | walked
    · exact Or.inl watched
    · rw [queue] at member
      rcases List.mem_cons.mp member with rfl | later
      · exact absurd touched (by rw [createActs create]; exact Bool.false_ne_true)
      · exact Or.inr (Or.inl ⟨d,later,create,front⟩)
    · exact Or.inr (Or.inr walked)
  | begins walk queue handling acts =>
    intro q opened there
    rcases covers q opened there with watched | ⟨d,member,create,front⟩ | ⟨task,member,_⟩
    · exact Or.inl watched
    · rw [queue] at member
      rcases List.mem_cons.mp member with rfl | later
      · have stands : (s.c.items d.1).isSome = true := by
          obtain ⟨below,rfl⟩ := front
          exact itemsPrefix there
        exact Or.inr (Or.inr ⟨.lstat d.1,by simp [create,stands],front⟩)
      · exact Or.inr (Or.inl ⟨d,later,create,front⟩)
    · rw [walk] at member
      cases member
  | finishes | rests | publishes => exact covers

theorem runCovers {c : Checkout} {events : List Event} {s : State} (run : Run (step accepts) told (start c) events s) :
    Covers accepts s :=
  run.invariant (startCovers c) (fun _ _ _ covers promised taken => stepCovers covers promised taken)

def accepting (_ : Path) : Bool := true
def apps : Path := [appsItem.name]
def making : Op := ⟨true,false,false,false,false⟩
def makesApps : Event := .change withApps apps [making]

theorem appsChange : Changes repository withApps apps := by
  refine ⟨by decide,by decide,fun q apart other => ?_⟩
  have top : (q == []) = false := beq_eq_false_iff_ne.mpr other
  have own : (q == apps) = false := beq_eq_false_iff_ne.mpr (fun same => apart (same ▸ List.prefix_refl q))
  change List.lookup q _ = List.lookup q _
  simp only [List.lookup_cons,top,own,apps] at own ⊢

theorem appsMade (s : State) (same : s.c = repository) : told s makesApps :=
  ⟨same ▸ appsChange,fun _ => ⟨⟨making,List.mem_cons_self,rfl⟩,fun _ => ⟨making,List.mem_cons_self,rfl⟩⟩⟩

def made : State := changed (start repository) withApps apps [making]
def firstWalk : List Event := List.replicate 9 .walk
def handles : List Event := [.handle,.walk,.walk,.walk,.handle,.flush]

theorem settles : (exec (step accepting) made (firstWalk ++ handles)).isSome = true := by decide +kernel

def settled : State := (exec (step accepting) made (firstWalk ++ handles)).get settles

theorem settledRun : Run (step accepting) anyStep made (firstWalk ++ handles) settled :=
  runOfExec (Option.some_get settles).symm

theorem handlesTold : ∀ e ∈ firstWalk ++ handles, ∀ s, told s e := by simp [firstWalk,handles,told]

def handed (accepts : Path → Bool) (s : State) (dirs : List Path) (rest : List Task) : State :=
  { s with watches := s.watches ++ dirs.filter accepts, watched := s.watched ++ dirs.filter accepts, walk := rest }

theorem handedTwice (s : State) (dirs more : List Path) (rest last : List Task) :
    handed accepts (handed accepts s dirs rest) more last = handed accepts s (dirs ++ more) last := by
  simp [handed]

theorem handedNone (s : State) (rest : List Task) : handed accepts s [] rest = { s with walk := rest } := by
  simp [handed]

def Walks (accepts : Path → Bool) (s t : State) : Prop := ∃ n, exec (step accepts) s (List.replicate n .walk) = some t

theorem Walks.stay (s : State) : Walks accepts s s := ⟨0,rfl⟩

theorem Walks.first {s t : State} {task : Task} {rest : List Task} (walk : s.walk = task :: rest)
    (onward : Walks accepts (advance accepts s rest task) t) : Walks accepts s t := by
  obtain ⟨n,done⟩ := onward
  exact ⟨n + 1,by simp only [List.replicate_succ,exec,step,walk,Option.bind_some,done]⟩

theorem Walks.trans {s t u : State} (one : Walks accepts s t) (two : Walks accepts t u) : Walks accepts s u := by
  obtain ⟨n,done⟩ := one
  obtain ⟨m,after⟩ := two
  induction n generalizing s with
  | zero =>
    cases done
    exact ⟨m,after⟩
  | succ n ih =>
    rw [List.replicate_succ,exec] at done
    obtain ⟨v,moved,done⟩ := Option.bind_eq_some_iff.mp done
    obtain ⟨k,whole⟩ := ih done
    exact ⟨k + 1,by rw [List.replicate_succ,exec,moved,Option.bind_some,whole]⟩

theorem addWatchThere {s : State} {p : Path} (there : (s.c.items p).isSome = true) (rest : List Task) :
    { addWatch accepts s p with walk := rest } = handed accepts s [p] rest := by
  unfold addWatch handed
  cases taken : accepts p with
  | true => simp [there,taken]
  | false => simp [taken]

theorem visitNone {c : Checkout} {fuel : Nat} {root p : Path} (none_ : c.items p = none) : visit c fuel root p = [] := by
  cases fuel with
  | zero => rfl
  | succ fuel => simp [visit,none_]

theorem walksNone {s : State} {root p : Path} {rest : List Task} (none_ : s.c.items p = none)
    (walk : s.walk = .visit root p :: rest) : Walks accepts s { s with walk := rest } := by
  have unwatched : addWatch accepts s p = s := by simp [addWatch,none_]
  refine Walks.first walk ?_
  by_cases git : p ≠ root ∧ p.getLast? = some gitDir
  · have refless : s.c.items (p ++ [refs]) = none := by
      by_contra some_
      have above := itemsPrefix (Option.isSome_iff_ne_none.mpr some_)
      rw [none_] at above
      cases above
    refine @Walks.first accepts _ _ (.lstat (p ++ [refs])) rest ?_ ?_
    · simp only [advance,next,if_pos git]
    · simp only [advance,unwatched,refless,Option.isSome_none,Bool.false_eq_true,if_false]
      exact Walks.stay _
  · refine @Walks.first accepts _ _ (.read root p) rest ?_ ?_
    · simp only [advance,next,if_neg git]
    · simp only [advance,unwatched,subdirectories,none_,List.map_nil,List.nil_append]
      exact Walks.stay _

theorem walksEach {fuel : Nat} {root : Path} {ps : List Path} {rest : List Task} {c : Checkout}
    (one : ∀ p ∈ ps, ∀ s rest, s.c = c → s.walk = .visit root p :: rest → Walks accepts s (handed accepts s (visit c fuel root p) rest))
    (s : State) (same : s.c = c) (walk : s.walk = ps.map (.visit root) ++ rest) :
    Walks accepts s (handed accepts s (ps.flatMap (visit c fuel root)) rest) := by
  induction ps generalizing s with
  | nil =>
    have still : handed accepts s [] rest = s := by
      have walk : s.walk = rest := walk
      rw [handedNone,← walk]
    rw [List.flatMap_nil,still]
    exact Walks.stay s
  | cons p ps ih =>
    rw [List.flatMap_cons,← handedTwice s _ _ (ps.map (.visit root) ++ rest)]
    exact (one p List.mem_cons_self s _ same walk).trans (ih (fun q member => one q (List.mem_cons_of_mem p member)) _ same rfl)

theorem subdirectoriesVisit {c : Checkout} {fuel : Nat} {root p : Path} {d : Directory} (here : c.items p = some d) :
    (subdirectories c p).flatMap (visit c fuel root) = d.items.flatMap (fun entry => visit c fuel root (p ++ [entry.name])) := by
  rw [subdirectories,here]
  suffices each : ∀ items : List Entry, (∀ entry ∈ items, entry ∈ d.items) →
      ((items.filter Entry.isDir).map (fun entry => p ++ [entry.name])).flatMap (visit c fuel root) =
        items.flatMap (fun entry => visit c fuel root (p ++ [entry.name])) from each d.items (fun _ member => member)
  intro items inside
  induction items with
  | nil => rfl
  | cons entry items ih =>
    have later := ih (fun e member => inside e (List.mem_cons_of_mem entry member))
    cases dir : entry.isDir with
    | true => rw [List.filter_cons_of_pos dir,List.map_cons,List.flatMap_cons,List.flatMap_cons,later]
    | false =>
      have absent : c.items (p ++ [entry.name]) = none := by
        by_contra some_
        obtain ⟨e,held,twin,member,name,isDir⟩ := (c.child p entry.name).mp (Option.isSome_iff_ne_none.mpr some_)
        cases here.symm.trans held
        rw [itemUnique member (inside entry List.mem_cons_self) name,dir] at isDir
        cases isDir
      rw [List.filter_cons_of_neg (by simp [dir]),later,List.flatMap_cons,visitNone absent,List.nil_append]

theorem walksRoot {fuel : Nat} {root : Path} {c : Checkout}
    (one : ∀ s rest, s.c = c → s.walk = .visit root root :: rest → Walks accepts s (handed accepts s (visit c fuel root root) rest))
    (s : State) (rest : List Task) (same : s.c = c) (walk : s.walk = .lstat root :: rest) :
    Walks accepts s (handed accepts s (visit c fuel root root) rest) := by
  subst same
  refine Walks.first walk ?_
  cases here : s.c.items root with
  | none =>
    simp only [advance,here,Option.isSome_none,Bool.false_eq_true,if_false,visitNone here,handedNone]
    exact Walks.stay _
  | some d =>
    simp only [advance,here,Option.isSome_some,if_true]
    exact one { s with walk := .visit root root :: rest } rest rfl rfl

theorem walksVisit {c : Checkout} {fuel : Nat} {root p : Path} (enough : c.depth < p.length + fuel) (s : State)
    (rest : List Task) (same : s.c = c) (walk : s.walk = .visit root p :: rest) :
    Walks accepts s (handed accepts s (visit c fuel root p) rest) := by
  induction fuel generalizing root p s rest with
  | zero =>
    have absent : s.c.items p = none := by
      rw [same]
      by_contra some_
      have shallow := c.shallow p (Option.isSome_iff_ne_none.mpr some_)
      omega
    rw [visit,handedNone]
    exact walksNone absent walk
  | succ fuel ih =>
    cases here : c.items p with
    | none =>
      rw [visitNone here,handedNone]
      exact walksNone (same ▸ here) walk
    | some d =>
      have there : (s.c.items p).isSome = true := by rw [same,here]; rfl
      have deeper : ∀ name, c.depth < (p ++ [name]).length + fuel := fun name => by
        rw [List.length_append,List.length_singleton]
        omega
      refine Walks.first walk ?_
      rw [advance,addWatchThere there,visit,here]
      dsimp only
      by_cases git : p ≠ root ∧ p.getLast? = some gitDir
      · rw [if_pos git,next,if_pos git]
        have onward := walksRoot (ih (deeper refs)) (handed accepts s [p] (.lstat (p ++ [refs]) :: rest)) rest same rfl
        rw [handedTwice] at onward
        exact onward
      · rw [if_neg git,next,if_neg git]
        refine @Walks.first accepts _ _ (.read root p) rest rfl ?_
        have each : ∀ q ∈ subdirectories c p, ∀ s rest, s.c = c → s.walk = .visit root q :: rest →
            Walks accepts s (handed accepts s (visit c fuel root q) rest) := by
          intro q member
          obtain ⟨name,rfl,_⟩ := subdirectoriesMember.mp member
          exact ih (deeper name)
        have onward := walksEach each (handed accepts s [p] ((subdirectories c p).map (.visit root) ++ rest)) same rfl
        rw [handedTwice,subdirectoriesVisit here] at onward
        simp only [advance,handed,same] at onward ⊢
        exact onward

def Waits (s : State) (d : Path) : Prop :=
  (∃ e ∈ s.queue, attributeOnly e.2 = false ∧ e.1.dropLast = d) ∨ (∃ e, s.handling = some e ∧ e.1.dropLast = d) ∨ d ∈ s.pending

def since (s t : State) : List (List Path) := t.published.drop s.published.length

theorem sinceSame {s t : State} (same : t.published = s.published) : since s t = [] := by
  rw [since,same,List.drop_length]

theorem stepPublished {s t : State} {e : Event} (taken : step accepts s e = some t) : t.published = s.published ++ since s t := by
  suffices grown : ∃ more, t.published = s.published ++ more by
    obtain ⟨more,grown⟩ := grown
    rw [since,grown,List.drop_left]
  cases stepCases taken with
  | @walks task rest walk => exact ⟨[],by rw [(advanceKeeps accepts s rest task).2.2.2.2.1,List.append_nil]⟩
  | publishes => exact ⟨[s.pending],rfl⟩
  | _ => exact ⟨[],(List.append_nil _).symm⟩

theorem stepWaits {s t : State} {e : Event} {d : Path} (waits : Waits s d) (taken : step accepts s e = some t) :
    Waits t d ∨ d ∈ (since s t).flatten := by
  cases stepCases taken with
  | changes | notices =>
    refine Or.inl (waits.imp_left ?_)
    rintro ⟨e,member,rest⟩
    exact ⟨e,List.mem_append_left _ member,rest⟩
  | @walks task rest walk =>
    obtain ⟨_,queue,handling,pending,_⟩ := advanceKeeps accepts s rest task
    left
    rw [Waits,queue,handling,pending]
    exact waits
  | finishes walk handling =>
    left
    rcases waits with queued | ⟨f,same,dir⟩ | pending
    · exact Or.inl queued
    · rw [handling] at same
      cases same
      exact Or.inr (Or.inr (List.mem_insert_iff.mpr (Or.inl dir.symm)))
    · exact Or.inr (Or.inr (List.mem_insert_of_mem pending))
  | passes queue handling touched =>
    refine Or.inl (waits.imp_left ?_)
    rintro ⟨f,member,acts,dir⟩
    rw [queue] at member
    rcases List.mem_cons.mp member with rfl | later
    · exact absurd touched (by rw [acts]; exact Bool.false_ne_true)
    · exact ⟨f,later,acts,dir⟩
  | begins walk queue handling acts =>
    left
    rcases waits with ⟨f,member,acts,dir⟩ | ⟨f,same,_⟩ | pending
    · rw [queue] at member
      rcases List.mem_cons.mp member with rfl | later
      · exact Or.inr (Or.inl ⟨f,rfl,dir⟩)
      · exact Or.inl ⟨f,later,acts,dir⟩
    · rw [handling] at same
      cases same
    · exact Or.inr (Or.inr pending)
  | rests => exact Or.inl waits
  | publishes =>
    rcases waits with queued | handled | pending
    · exact Or.inl (Or.inl queued)
    · exact Or.inl (Or.inr (Or.inl handled))
    · right
      rw [since,List.drop_left,List.flatten_singleton]
      exact pending

theorem sinceTrans {s t u : State} {e : Event} (before : t.published = s.published ++ since s t)
    (taken : step accepts t e = some u) : u.published = s.published ++ since s u ∧ since s u = since s t ++ since t u := by
  have after := stepPublished taken
  have whole : u.published = s.published ++ (since s t ++ since t u) := by rw [after,before,List.append_assoc]
  have later : since s u = since s t ++ since t u := by
    rw [since,whole,List.drop_left]
  exact ⟨later ▸ whole,later⟩

theorem runWaits {s t : State} {events : List Event} {d : Path} (waits : Waits s d)
    (run : Run (step accepts) anyStep s events t) : Waits t d ∨ ∃ dirs ∈ since s t, d ∈ dirs := by
  have kept : t.published = s.published ++ since s t ∧ (Waits t d ∨ d ∈ (since s t).flatten) := by
    refine run.invariant (I := fun t => t.published = s.published ++ since s t ∧ (Waits t d ∨ d ∈ (since s t).flatten))
      ⟨by rw [sinceSame rfl,List.append_nil],Or.inl waits⟩ (fun t e u kept _ taken => ?_)
    obtain ⟨before,waits⟩ := kept
    obtain ⟨after,later⟩ := sinceTrans before taken
    refine ⟨after,?_⟩
    rw [later,List.flatten_append,List.mem_append]
    rcases waits with waits | told
    · exact (stepWaits waits taken).imp id Or.inr
    · exact Or.inr (Or.inl told)
  exact kept.2.imp id List.mem_flatten.mp

theorem appsTold : Waits settled [] ∨ ∃ dirs ∈ since made settled, [] ∈ dirs :=
  runWaits (Or.inl ⟨(apps,making),List.mem_cons_self,by decide,rfl⟩) settledRun

structure View where
  s : State
  due : List Path
  shown : Path → Option (List Entry)

inductive Viewed
  | watcher (e : Event)
  | list (d : Path)

section
variable (accepts) (toLower : Str → Str)

def view (v : View) : Viewed → Option View
  | .watcher e => (step accepts v.s e).map (fun t => { v with s := t, due := v.due ++ (since v.s t).flatten })
  | .list d => some { v with due := v.due.filter (· ≠ d), shown := Function.update v.shown d (listAt toLower v.s.c d) }

end

variable {toLower : Str → Str}

def stays (d : Path) (v : View) : Viewed → Prop
  | .watcher (.change c p ops) => told v.s (.change c p ops) ∧ ¬ p <+: d
  | _ => True

/-- What is shown of a watched directory is right, or an event of it is on its way to the reader. -/
structure Fresh (toLower : Str → Str) (d : Path) (v : View) : Prop where
  watched : d ∈ v.s.watches
  shown : v.shown d = listAt toLower v.s.c d ∨ Waits v.s d ∨ d ∈ v.due

theorem stepStays {s t : State} {e : Event} (quiet : ∀ c p ops, e ≠ .change c p ops) (taken : step accepts s e = some t) :
    t.c = s.c ∧ ∀ d ∈ s.watches, d ∈ t.watches := by
  cases stepCases taken with
  | @changes c p ops => exact absurd rfl (quiet c p ops)
  | @walks task rest walk =>
    obtain ⟨c,_,_,_,_,watches,_⟩ := advanceKeeps accepts s rest task
    exact ⟨c,watches⟩
  | _ => exact ⟨rfl,fun _ member => member⟩

theorem changedFresh {v w : View} {d p : Path} {c : Checkout} {ops : List Op} (fresh : Fresh toLower d v)
    (promised : told v.s (.change c p ops)) (apart : ¬ p <+: d)
    (taken : view accepts toLower v (.watcher (.change c p ops)) = some w) : Fresh toLower d w := by
  cases taken
  constructor
  · exact List.mem_filter.mpr ⟨fresh.watched,by simpa using apart⟩
  · obtain ⟨change,heard⟩ := promised
    by_cases parent : d = p.dropLast
    · obtain ⟨⟨op,member,acts⟩,_⟩ := heard (parent ▸ fresh.watched)
      exact Or.inr (Or.inl (Or.inl ⟨(p,op),List.mem_append_right _ (List.mem_map_of_mem member),acts,parent.symm⟩))
    · have same : listAt toLower c d = listAt toLower v.s.c d := by
        unfold listAt
        rw [change.others d apart parent]
      rcases fresh.shown with shown | waits | due
      · exact Or.inl (shown.trans same.symm)
      · refine Or.inr (Or.inl (waits.imp_left ?_))
        rintro ⟨e,member,rest⟩
        exact ⟨e,List.mem_append_left _ member,rest⟩
      · exact Or.inr (Or.inr (List.mem_append_left _ due))

theorem viewFresh {v w : View} {d : Path} {e : Viewed} (fresh : Fresh toLower d v) (promised : stays d v e)
    (taken : view accepts toLower v e = some w) : Fresh toLower d w := by
  cases e with
  | list e =>
    cases taken
    refine ⟨fresh.watched,?_⟩
    by_cases own : d = e
    · subst own
      exact Or.inl (Function.update_self _ _ _)
    · rcases fresh.shown with shown | waits | due
      · exact Or.inl ((Function.update_of_ne own _ _).trans shown)
      · exact Or.inr (Or.inl waits)
      · exact Or.inr (Or.inr (List.mem_filter.mpr ⟨due,by simpa using own⟩))
  | watcher e =>
    by_cases changes : ∃ c p ops, e = .change c p ops
    · obtain ⟨c,p,ops,rfl⟩ := changes
      exact changedFresh fresh promised.1 promised.2 taken
    · obtain ⟨t,moved,rfl⟩ := Option.map_eq_some_iff.mp taken
      obtain ⟨still,watches⟩ := stepStays (fun c p ops same => changes ⟨c,p,ops,same⟩) moved
      refine ⟨watches d fresh.watched,?_⟩
      rcases fresh.shown with shown | waits | due
      · exact Or.inl (by rw [shown,still])
      · exact Or.inr ((stepWaits waits moved).imp id (List.mem_append_right _))
      · exact Or.inr (Or.inr (List.mem_append_left _ due))

theorem runFresh {v w : View} {d : Path} {events : List Viewed} (watched : d ∈ v.s.watches)
    (read : v.shown d = listAt toLower v.s.c d) (run : Run (view accepts toLower) (stays d) v events w)
    (queued : w.s.queue = []) (handled : w.s.handling = none) (flushed : w.s.pending = []) (listed : w.due = []) :
    w.shown d = listAt toLower w.s.c d := by
  have fresh : Fresh toLower d w :=
    run.invariant ⟨watched,Or.inl read⟩ (fun _ _ _ fresh promised taken => viewFresh fresh promised taken)
  rcases fresh.shown with shown | (⟨e,member,_⟩ | ⟨e,same,_⟩ | member) | member
  · exact shown
  · rw [queued] at member
    cases member
  · rw [handled] at same
    cases same
  · rw [flushed] at member
    cases member
  · rw [listed] at member
    cases member

def listedRoot : View := ⟨handed accepting (start repository) (addTree repository []) [],[],listAt lower repository⟩
def relisting : List Viewed := handles.map .watcher ++ [.list []]

def rootMade : View := ⟨changed listedRoot.s withApps apps [making],[],listedRoot.shown⟩

theorem relists : (exec (view accepting lower) rootMade relisting).isSome = true := by decide +kernel

def relisted : View := (exec (view accepting lower) rootMade relisting).get relists

theorem relistingStays : ∀ e ∈ relisting, ∀ v, stays [] v e := by simp [relisting,handles,stays]

theorem rootShown : ∃ w, Run (view accepting lower) (stays []) listedRoot (.watcher makesApps :: relisting) w ∧
    w.shown [] = listAt lower w.s.c [] := by
  have promised : stays [] listedRoot (.watcher makesApps) := ⟨appsMade _ rfl,by decide⟩
  have made : Run (view accepting lower) (stays []) listedRoot [.watcher makesApps] rootMade :=
    .snoc .nil promised (by simp [view,makesApps,step,rootMade,since,changed,listedRoot])
  have run := made.append ((runOfExec (Option.some_get relists).symm).allowing relistingStays)
  exact ⟨relisted,run,runFresh (by decide +kernel) rfl run (by decide +kernel) (by decide +kernel) (by decide +kernel)
    (by decide +kernel)⟩

end M6t.WatchCoverage
