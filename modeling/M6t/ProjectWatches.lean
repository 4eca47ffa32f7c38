import M6t.Runs
import M6t.Aim

/-! The worktree watchers and the kubewatch sessions of the registered projects. Each
call of AddProject, RemoveProject and KubeHealth is a few steps, each under the lock of
the registry, the watchers or the sessions. -/
namespace M6t.ProjectWatches
open M6t.Text M6t.Fault M6t.KubeBinding M6t.Registry M6t.Aim M6t.Runs

structure SessionKey where
  root : Str
  target : Str
  ns : Str
  deriving DecidableEq, Repr

inductive Call where
  | adding (root : Str)
  | stopping (root : Str)
  | dropping (root : Str)
  | located (name rel root : Str)
  | aimed (root : Str) (binding : Binding)
  | returned
  deriving DecidableEq, Repr

structure State where
  stored : List Project
  watchers : List Str
  sessions : List SessionKey
  calls : List Call

/-- `Start` of the watch service; the watcher of a root may fail to start. -/
def startTree (watchers : List Str) (root : Str) (ok : Bool) : List Str :=
  if root ∈ watchers then watchers else if ok then root :: watchers else watchers

def watch (sessions : List SessionKey) (root : Str) (binding : Binding) : List SessionKey :=
  if binding.bound then
    if ⟨root,binding.context,binding.ns⟩ ∈ sessions then sessions else ⟨root,binding.context,binding.ns⟩ :: sessions
  else sessions

def opened (home : Str) (stored : List Project) (ok : Project → Bool) : State where
  stored := stored
  watchers := stored.foldl (fun watchers p => startTree watchers (resolved home p).path (ok p)) []
  sessions := []
  calls := []

inductive Event where
  | addProject (sys : System) (io : Disk) (path name : Str)
  | start (call : Nat) (ok : Bool)
  | removeProject (sys : System) (io : Disk) (name : Str)
  | stopTree (call : Nat)
  | stopWatches (call : Nat)
  | kubeHealth (sys : System) (io : Disk) (name rel : Str)
  | bind (call : Nat) (io : Disk)
  | watch (call : Nat)

def answered {α : Type} (answer : Answer α) (next : α → Call) : Call :=
  match answer with
  | .ok a => next a
  | .error _ => .returned

def step (home : Str) (s : State) : Event → Option State
  | .addProject sys io path name =>
      if sys.home = home then
        let out := add sys io s.stored path name
        some { s with stored := out.stored, calls := s.calls ++ [answered out.answer (fun added => .adding added.path)] }
      else none
  | .start call ok =>
      match s.calls[call]? with
      | some (.adding root) =>
          some { s with watchers := startTree s.watchers root ok, calls := s.calls.set call .returned }
      | _ => none
  | .removeProject sys io name =>
      if sys.home = home then
        let out := remove sys io s.stored name
        some { s with stored := out.stored, calls := s.calls ++ [answered out.answer (fun removed => .stopping removed.path)] }
      else none
  | .stopTree call =>
      match s.calls[call]? with
      | some (.stopping root) =>
          some { s with watchers := s.watchers.filter (fun live => live ≠ root), calls := s.calls.set call (.dropping root) }
      | _ => none
  | .stopWatches call =>
      match s.calls[call]? with
      | some (.dropping root) =>
          some { s with sessions := s.sessions.filter (fun live => live.root ≠ root), calls := s.calls.set call .returned }
      | _ => none
  | .kubeHealth sys io name rel =>
      if sys.home = home then
        some { s with calls := s.calls ++ [answered (projectPath sys ⟨s.stored,io⟩ name) (.located name rel)] }
      else none
  | .bind call io =>
      match s.calls[call]? with
      | some (.located name rel root) =>
          some { s with calls := s.calls.set call (answered (resolveBinding ⟨s.stored,io⟩ name rel) (.aimed root)) }
      | _ => none
  | .watch call =>
      match s.calls[call]? with
      | some (.aimed root binding) =>
          some { s with sessions := watch s.sessions root binding, calls := s.calls.set call .returned }
      | _ => none

section
variable (home : Str) (s : State)

def Registered (stored : List Project) (root : Str) : Prop := ∃ p ∈ stored, (resolved home p).path = root
instance (stored : List Project) (root : Str) : Decidable (Registered home stored root) :=
  inferInstanceAs (Decidable (∃ p ∈ stored, (resolved home p).path = root))

def live : List Str := s.watchers ++ s.sessions.map SessionKey.root

/-- Once every call has returned, what is live is the path of a registered project. -/
def Tidy : Prop := (∀ call ∈ s.calls, call = .returned) → ∀ root ∈ live s, Registered home s.stored root

/-- A watcher started now is of a registered root, or a RemoveProject will stop it. -/
def Kept (root : Str) : Prop := Registered home s.stored root ∨ .stopping root ∈ s.calls
instance (root : Str) : Decidable (Kept home s root) := inferInstanceAs (Decidable (_ ∨ _))

def Held (root : Str) : Prop := Kept home s root ∨ .dropping root ∈ s.calls
instance (root : Str) : Decidable (Held home s root) := inferInstanceAs (Decidable (_ ∨ _))

def timely : Event → Prop
  | .start call ok => match s.calls[call]? with
    | some (.adding root) => ok = true → root ∉ s.watchers → Kept home s root
    | _ => True
  | .watch call => match s.calls[call]? with
    | some (.aimed root binding) =>
        binding.bound = true → ⟨root,binding.context,binding.ns⟩ ∉ s.sessions → Held home s root
    | _ => True
  | .removeProject sys io name =>
      let out := remove sys io s.stored name
      ∀ root ∈ live s, Registered home s.stored root →
        Registered home out.stored root ∨ answered out.answer (fun removed => .stopping removed.path) = .stopping root
  | _ => True

instance (e : Event) : Decidable (timely home s e) := by
  unfold timely
  split
  · split <;> infer_instance
  · split <;> infer_instance
  · infer_instance
  · infer_instance

end

section Registry
variable {sys : System} {io : Disk} {stored : List Project} {path name : Str}

theorem addKeeps {p : Project} (member : p ∈ stored) : p ∈ (add sys io stored path name).stored := by
  cases ok : (add sys io stored path name).answer with
  | error err => rw [addCareful path name err ok]; exact member
  | ok answer =>
    obtain ⟨target,_,_,same⟩ := addOk ok
    rw [same] at ok ⊢
    by_cases known : ∃ p ∈ stored, expand sys.home p.path = target
    · rw [appendKnown known]
      exact member
    · have fresh : ∀ p ∈ stored, expand sys.home p.path ≠ target := fun p inside here => known ⟨p,inside,here⟩
      rw [(appendNew fresh ok).2]
      exact List.mem_append_left _ member

end Registry

variable {home : Str} {s t : State} {e : Event} {es : List Event} {root : Str}

inductive Moves (home : Str) (s : State) : Event → State → Prop where
  | addProject {sys io path name} (same : sys.home = home) :
      Moves home s (.addProject sys io path name)
        { s with
          stored := (add sys io s.stored path name).stored
          calls := s.calls ++ [answered (add sys io s.stored path name).answer (fun added => .adding added.path)] }
  | start {call root ok} (here : s.calls[call]? = some (.adding root)) :
      Moves home s (.start call ok) { s with watchers := startTree s.watchers root ok, calls := s.calls.set call .returned }
  | removeProject {sys io name} (same : sys.home = home) :
      Moves home s (.removeProject sys io name)
        { s with
          stored := (remove sys io s.stored name).stored
          calls := s.calls ++ [answered (remove sys io s.stored name).answer (fun removed => .stopping removed.path)] }
  | stopTree {call root} (here : s.calls[call]? = some (.stopping root)) :
      Moves home s (.stopTree call)
        { s with watchers := s.watchers.filter (fun live => live ≠ root), calls := s.calls.set call (.dropping root) }
  | stopWatches {call root} (here : s.calls[call]? = some (.dropping root)) :
      Moves home s (.stopWatches call)
        { s with sessions := s.sessions.filter (fun live => live.root ≠ root), calls := s.calls.set call .returned }
  | kubeHealth {sys io name rel} (same : sys.home = home) :
      Moves home s (.kubeHealth sys io name rel)
        { s with calls := s.calls ++ [answered (projectPath sys ⟨s.stored,io⟩ name) (.located name rel)] }
  | bind {call io name rel root} (here : s.calls[call]? = some (.located name rel root)) :
      Moves home s (.bind call io)
        { s with calls := s.calls.set call (answered (resolveBinding ⟨s.stored,io⟩ name rel) (.aimed root)) }
  | watch {call root binding} (here : s.calls[call]? = some (.aimed root binding)) :
      Moves home s (.watch call) { s with sessions := watch s.sessions root binding, calls := s.calls.set call .returned }

theorem stepMoves (taken : step home s e = some t) : Moves home s e t := by
  cases e <;> simp only [step] at taken
  case addProject =>
    split at taken
    · next same => cases taken; exact .addProject same
    · cases taken
  case start =>
    split at taken
    · next here => cases taken; exact .start here
    · cases taken
  case removeProject =>
    split at taken
    · next same => cases taken; exact .removeProject same
    · cases taken
  case stopTree =>
    split at taken
    · next here => cases taken; exact .stopTree here
    · cases taken
  case stopWatches =>
    split at taken
    · next here => cases taken; exact .stopWatches here
    · cases taken
  case kubeHealth =>
    split at taken
    · next same => cases taken; exact .kubeHealth same
    · cases taken
  case bind =>
    split at taken
    · next here => cases taken; exact .bind here
    · cases taken
  case watch =>
    split at taken
    · next here => cases taken; exact .watch here
    · cases taken

theorem startTreeMem {watchers : List Str} {new : Str} {ok : Bool} (member : root ∈ startTree watchers new ok) :
    root ∈ watchers ∨ root = new ∧ ok = true ∧ new ∉ watchers := by
  unfold startTree at member
  split at member
  · exact .inl member
  · next absent =>
    split at member
    · next started =>
      rcases List.mem_cons.mp member with same | old
      · exact .inr ⟨same,started,absent⟩
      · exact .inl old
    · exact .inl member

theorem watchMem {sessions : List SessionKey} {key : SessionKey} {binding : Binding}
    (member : key ∈ watch sessions root binding) :
    key ∈ sessions ∨ key = ⟨root,binding.context,binding.ns⟩ ∧ binding.bound = true ∧ key ∉ sessions := by
  unfold watch at member
  split at member
  · next bound =>
    split at member
    · exact .inl member
    · next absent =>
      rcases List.mem_cons.mp member with rfl | old
      · exact .inr ⟨rfl,bound,absent⟩
      · exact .inl old
  · exact .inl member

structure Covered (home : Str) (s : State) : Prop where
  watchers : ∀ root ∈ s.watchers, Kept home s root
  sessions : ∀ key ∈ s.sessions, Held home s key.root

theorem Covered.tidy (covered : Covered home s) : Tidy home s := by
  intro returned root alive
  have none_ : ∀ call ∈ s.calls, call ≠ .stopping root ∧ call ≠ .dropping root := by
    intro call member
    rw [returned call member]
    simp
  rcases List.mem_append.mp alive with watched | seen
  · rcases covered.watchers root watched with registered | pending
    · exact registered
    · exact absurd rfl (none_ _ pending).1
  · obtain ⟨key,member,rfl⟩ := List.mem_map.mp seen
    rcases covered.sessions key member with (registered | pending) | pending
    · exact registered
    · exact absurd rfl (none_ _ pending).1
    · exact absurd rfl (none_ _ pending).2

theorem openedCovered (stored : List Project) (ok : Project → Bool) : Covered home (opened home stored ok) where
  watchers := by
    suffices all : ∀ (rest : List Project) (watchers : List Str), (∀ p ∈ rest, p ∈ stored) →
        (∀ root ∈ watchers, Registered home stored root) →
        ∀ root ∈ rest.foldl (fun watchers p => startTree watchers (resolved home p).path (ok p)) watchers,
          Registered home stored root from
      fun root member => .inl (all stored [] (fun _ inside => inside) (by simp) root member)
    intro rest
    induction rest with
    | nil => exact fun _ _ registered => registered
    | cons p rest ih =>
      intro watchers inside registered
      refine ih _ (fun q member => inside q (List.mem_cons_of_mem p member)) (fun root member => ?_)
      rcases startTreeMem member with old | ⟨rfl,_⟩
      · exact registered root old
      · exact ⟨p,inside p List.mem_cons_self,rfl⟩
  sessions := by simp [opened]

theorem Kept.moved (kept : Kept home s root) (registered : Registered home s.stored root → Kept home t root)
    (calls : .stopping root ∈ s.calls → .stopping root ∈ t.calls) : Kept home t root :=
  kept.elim registered (fun pending => .inr (calls pending))

theorem Held.moved (held : Held home s root) (registered : Registered home s.stored root → Kept home t root)
    (calls : .stopping root ∈ s.calls → Held home t root) (later : .dropping root ∈ s.calls → .dropping root ∈ t.calls) :
    Held home t root := by
  rcases held with (filed | pending) | pending
  · exact .inl (registered filed)
  · exact calls pending
  · exact .inr (later pending)

theorem Covered.called (covered : Covered home s) {stored : List Project} {call : Call}
    (registered : ∀ root ∈ live s, Registered home s.stored root →
      Registered home stored root ∨ call = .stopping root) :
    Covered home { s with stored := stored, calls := s.calls ++ [call] } := by
  have kept : ∀ root ∈ live s, Registered home s.stored root →
      Kept home { s with stored := stored, calls := s.calls ++ [call] } root := by
    intro root alive filed
    refine (registered root alive filed).imp id (fun pending => ?_)
    exact List.mem_append_right _ (List.mem_singleton.mpr pending.symm)
  constructor
  case watchers =>
    intro root member
    exact (covered.watchers root member).moved (kept root (List.mem_append_left _ member)) (List.mem_append_left _)
  case sessions =>
    intro key member
    exact (covered.sessions key member).moved (kept key.root (List.mem_append_right _ (List.mem_map_of_mem member)))
      (fun pending => .inl (.inr (List.mem_append_left _ pending))) (List.mem_append_left _)

theorem Covered.advanced (covered : Covered home s) {call : Nat} {old new : Call} (here : s.calls[call]? = some old)
    (idle : ∀ root, old ≠ .stopping root ∧ old ≠ .dropping root) : Covered home { s with calls := s.calls.set call new } where
  watchers root member :=
    (covered.watchers root member).moved .inl (fun pending => memSet here pending (idle root).1.symm)
  sessions key member :=
    (covered.sessions key member).moved .inl (fun pending => .inl (.inr (memSet here pending (idle key.root).1.symm)))
      (fun pending => memSet here pending (idle key.root).2.symm)

theorem Covered.step (covered : Covered home s) (met : timely home s e) (taken : step home s e = some t) : Covered home t := by
  cases stepMoves taken with
  | addProject same =>
    exact covered.called (fun root _ ⟨p,member,place⟩ => .inl ⟨p,addKeeps member,place⟩)
  | removeProject same => exact covered.called met
  | kubeHealth same => exact covered.called (fun root _ filed => .inl filed)
  | bind here => exact covered.advanced here (fun root => by simp)
  | @start call root ok here =>
    have next : Covered home { s with calls := s.calls.set call .returned } := covered.advanced here (fun root => by simp)
    refine ⟨fun other member => ?_,next.sessions⟩
    rcases startTreeMem member with old | ⟨rfl,started,absent⟩
    · exact next.watchers other old
    · simp only [timely,here] at met
      exact (met started absent).moved .inl (fun pending => memSet here pending (by simp))
  | @watch call root binding here =>
    have next : Covered home { s with calls := s.calls.set call .returned } := covered.advanced here (fun root => by simp)
    refine ⟨next.watchers,fun key member => ?_⟩
    rcases watchMem member with old | ⟨rfl,bound,absent⟩
    · exact next.sessions key old
    · simp only [timely,here] at met
      exact (met bound absent).moved .inl (fun pending => .inl (.inr (memSet here pending (by simp))))
        (fun pending => memSet here pending (by simp))
  | @stopTree call root here =>
    constructor
    case watchers =>
      intro other member
      obtain ⟨old,away⟩ := List.mem_filter.mp member
      have apart : other ≠ root := of_decide_eq_true away
      exact (covered.watchers other old).moved .inl (fun pending => memSet here pending (by simpa using apart))
    case sessions =>
      intro key member
      refine (covered.sessions key member).moved .inl (fun pending => ?_) (fun pending => memSet here pending (by simp))
      by_cases same : key.root = root
      · exact .inr (same ▸ memSetSelf here)
      · exact .inl (.inr (memSet here pending (by simpa using same)))
  | @stopWatches call root here =>
    constructor
    case watchers =>
      intro other member
      exact (covered.watchers other member).moved .inl (fun pending => memSet here pending (by simp))
    case sessions =>
      intro key member
      obtain ⟨old,away⟩ := List.mem_filter.mp member
      have apart : key.root ≠ root := of_decide_eq_true away
      exact (covered.sessions key old).moved .inl (fun pending => .inl (.inr (memSet here pending (by simp))))
        (fun pending => memSet here pending (by simpa using apart))

theorem everyWatchTidy {stored : List Project} {ok : Project → Bool}
    (run : Run (step home) (timely home) (opened home stored ok) es s) : Tidy home s :=
  (run.invariant (I := Covered home) (openedCovered stored ok) (fun _ _ _ covered met taken => covered.step met taken)).tidy

def infra : Project := ⟨"infra".toList,"/srv/infra".toList,[],[],[],⟨"prod".toList,"api".toList,false,[]⟩,⟨[]⟩⟩

def seenAndRemoved : List Event :=
  [.kubeHealth .plain .sound "infra".toList [],.addProject .plain .sound "/srv/web".toList [],.bind 0 .sound,.start 1 true,
    .watch 0,.removeProject .plain .sound "infra".toList,.stopTree 2,.stopWatches 2]

theorem seenAndRemovedTidy : ∃ s, Run (step System.plain.home) (timely System.plain.home)
      (opened System.plain.home [infra] (fun _ => true)) seenAndRemoved s ∧
    (s.watchers,s.sessions) = (["/srv/web".toList],[]) ∧ Tidy System.plain.home s := by
  let start := opened System.plain.home [infra] (fun _ => true)
  have ends : (exec (guarded (step System.plain.home) (timely System.plain.home)) start seenAndRemoved).map
      (fun s => (s.watchers,s.sessions)) = some (["/srv/web".toList],[]) := by decide +kernel
  obtain ⟨s,done,seen⟩ := Option.map_eq_some_iff.mp ends
  have run := runOfGuarded done
  exact ⟨s,run,seen,everyWatchTidy run⟩

def startedLate : List Event :=
  [.addProject .plain .sound "/srv/infra".toList [],.removeProject .plain .sound "infra".toList,.stopTree 1,.stopWatches 1,
    .start 0 true]

theorem startedLateLeaks : ∃ s, Run (step System.plain.home) anyStep (opened System.plain.home [] (fun _ => true)) startedLate s ∧
    ¬Tidy System.plain.home s := by
  let start := opened System.plain.home [] (fun _ => true)
  have ends : (exec (step System.plain.home) start startedLate).map (fun s => (s.stored,s.watchers,s.calls)) =
      some ([],["/srv/infra".toList],[.returned,.returned]) := by decide +kernel
  obtain ⟨s,done,seen⟩ := Option.map_eq_some_iff.mp ends
  simp only [Prod.mk.injEq] at seen
  obtain ⟨stored,watchers,calls⟩ := seen
  refine ⟨s,runOfExec done,fun tidy => ?_⟩
  obtain ⟨p,member,_⟩ := tidy (by simp [calls]) "/srv/infra".toList (by simp [live,watchers])
  rw [stored] at member
  cases member

end M6t.ProjectWatches
