import M6t.TargetPath
import M6t.PipelineWindow

/-! The targets of one run of the pipeline, over every interleaving with the
registry's writers: what the dialog shows, what kubectl is run against and what
the log says. -/
namespace M6t.PipelineTargets
open M6t.Text M6t.Fault M6t.KubeBinding M6t.Registry M6t.Aim M6t.TargetPath M6t.Runs
open M6t.EntryPaths (Tree resolve)
open M6t.PipelineBackend M6t.PipelineWindow
open M6t.Pipeline hiding State Event step
open M6t.RegistryRuns (Call)
open M6t.PipelineRuns (infraProject applyDeploy prodBinding)

structure Linked (initial : List Project) (s : State) : Prop where
  sound : PipelineRuns.Sound s.hook
  stored : storedAfter initial s.history = s.stored
  lawful : Preceded (Lawful initial) s.history
  hook : HookLinked s.history s.hook
  numbered : ∀ run g b, .bound run g b ∈ s.history → run ≤ s.hook.generation
  calls : ∀ shown call, .confirmed shown call ∈ s.history → call ≤ s.hook.generation
  desk : ∀ d ∈ s.desk, d.mine ≤ s.hook.generation ∧ ∀ b, d.progress = .answered (.binding (.ok b)) →
    ∀ t ∈ s.hook.tasks, t.mine = d.mine → t.stage = .binding → .bound t.mine t.target b ∈ s.history
  waiting : ∀ t ∈ s.hook.tasks, t.stage = .binding → (∀ d ∈ s.desk, d.mine ≠ t.mine) →
    ∀ g b, Mark.bound t.mine g b ∉ s.history

theorem linkedOpened (project : Option Str) (initial : List Project) : Linked initial (opened project initial) where
  sound := PipelineRuns.soundMounted project
  stored := rfl
  lawful := precededNil
  hook := ⟨by simp [PipelineRuns.Shows,opened,mounted],by simp [opened,mounted],by simp [opened,mounted]⟩
  numbered := by simp [opened]
  calls := by simp [opened]
  desk := by simp [opened]
  waiting := by simp [opened,mounted]

theorem deskOfNone {s : State} {mine : Nat} (none : deskOf s mine = none) : ∀ d ∈ s.desk, d.mine ≠ mine := by
  intro d member
  have := List.find?_eq_none.mp (Option.map_eq_none_iff.mp none) d member
  simpa using this

theorem deskOfSome {s : State} {mine : Nat} {progress : Progress} (found : deskOf s mine = some progress) :
    ⟨mine,progress⟩ ∈ s.desk := by
  obtain ⟨d,hd,rfl⟩ := Option.map_eq_some_iff.mp found
  have same : d.mine = mine := by simpa using List.find?_some hd
  exact same ▸ List.mem_of_find?_eq_some hd

section Steps
variable {sys : System} {initial : List Project} {s u : State}

theorem linkedMoved {hook : Pipeline.State} (marks : List Mark) (linked : Linked initial s)
    (sound : PipelineRuns.Sound hook) (stored : storedAfter initial (marks ++ s.history) = s.stored)
    (lawful : Preceded (Lawful initial) (marks ++ s.history)) (next : HookLinked (marks ++ s.history) hook)
    (le : s.hook.generation ≤ hook.generation)
    (waits : ∀ k ∈ hook.tasks, k.stage = .binding → k ∈ s.hook.tasks ∨ k.mine = s.hook.generation + 1)
    (bindings : ∀ run g b, Mark.bound run g b ∉ marks)
    (confirmations : ∀ shown call, .confirmed shown call ∈ marks → call ≤ hook.generation) :
    Linked initial { s with hook := hook, history := marks ++ s.history } := by
  have old : ∀ run g b, Mark.bound run g b ∈ marks ++ s.history → .bound run g b ∈ s.history :=
    fun run g b member => (List.mem_append.mp member).resolve_left (bindings run g b)
  constructor
  case sound => exact sound
  case stored => exact stored
  case lawful => exact lawful
  case hook => exact next
  case numbered => exact fun run g b member => (linked.numbered run g b (old run g b member)).trans le
  case calls =>
    intro shown call member
    rcases List.mem_append.mp member with new | before
    · exact confirmations shown call new
    · exact (linked.calls shown call before).trans le
  case desk =>
    intro d member
    obtain ⟨below,known⟩ := linked.desk d member
    refine ⟨below.trans le,fun b answered t task same stage => ?_⟩
    rcases waits t task stage with before | new
    · exact List.mem_append_right _ (known b answered t before same stage)
    · omega
  case waiting =>
    intro t task stage free g b member
    have member := old t.mine g b member
    rcases waits t task stage with before | new
    · exact linked.waiting t before stage free g b member
    · exact absurd (linked.numbered t.mine g b member) (by omega)

theorem linkedWindow {e : Pipeline.Event} {hook : Pipeline.State} (linked : Linked initial s) (own : answered e = none)
    (taken : Pipeline.step s.hook e = some hook) :
    Linked initial { s with hook := hook, history := confirmation s.hook e ++ s.history } := by
  obtain ⟨le,waits⟩ := windowWaits own taken
  have sound := PipelineRuns.soundStep linked.sound taken
  have next := hookStep linked.hook (fun mine b event => by subst event; cases own) taken
  rcases confirmationCases taken with none | ⟨shown,one,seen,asks,number⟩
  · rw [none] at next ⊢
    exact linkedMoved [] linked sound linked.stored linked.lawful next le waits (by simp) (by simp)
  · rw [one] at next ⊢
    have lawful : Lawful initial (.confirmed shown (s.hook.generation + 1)) s.history :=
      ⟨linked.hook.shows shown seen asks,fun other earlier => absurd (linked.calls other _ earlier) (by omega)⟩
    exact linkedMoved [_] linked sound linked.stored (precededCons lawful linked.lawful) next le waits (by simp)
      (by simp [number])

theorem linkedMarks (marks : List Mark) {after : List Project} {desk : List Desk} (linked : Linked initial s)
    (stored : storedAfter initial (marks ++ s.history) = after) (lawful : Preceded (Lawful initial) (marks ++ s.history))
    (bindings : ∀ run g b, Mark.bound run g b ∉ marks) (confirmations : ∀ shown call, Mark.confirmed shown call ∉ marks)
    (work : ∀ d ∈ desk, d ∈ s.desk ∨
      d.mine ≤ s.hook.generation ∧ ∀ b, d.progress ≠ .answered (.binding (.ok b)))
    (kept : ∀ d ∈ s.desk, ∃ e ∈ desk, e.mine = d.mine) :
    Linked initial ⟨s.hook,after,desk,marks ++ s.history⟩ where
  sound := linked.sound
  stored := stored
  lawful := lawful
  hook := hookLater linked.hook (List.subset_append_right _ _)
  numbered run g b member := linked.numbered run g b ((List.mem_append.mp member).resolve_left (bindings run g b))
  calls shown call member := linked.calls shown call ((List.mem_append.mp member).resolve_left (confirmations shown call))
  desk d member := by
    rcases work d member with old | ⟨below,other⟩
    · obtain ⟨below,known⟩ := linked.desk d old
      exact ⟨below,fun b answered t task same stage => List.mem_append_right _ (known b answered t task same stage)⟩
    · exact ⟨below,fun b answered => absurd answered (other b)⟩
  waiting t task stage free g b member := by
    refine linked.waiting t task stage (fun d old same => ?_) g b ((List.mem_append.mp member).resolve_left (bindings _ g b))
    obtain ⟨e,inside,number⟩ := kept d old
    exact free e inside (number.trans same)

theorem linkedWrite (linked : Linked initial s) (after : List Project) :
    Linked initial { s with stored := after, history := .wrote after :: s.history } :=
  linkedMarks [.wrote after] linked rfl (precededCons trivial linked.lawful) (by simp) (by simp)
    (fun _ old => Or.inl old) (fun d old => ⟨d,old,rfl⟩)

theorem linkedBound {t : Task} {b : Binding} (linked : Linked initial s) (member : t ∈ s.hook.tasks)
    (stage : t.stage = .binding) (free : ∀ d ∈ s.desk, d.mine ≠ t.mine) (own : resolvesTo s.stored t.target = some b) :
    Linked initial { s with
      desk := ⟨t.mine,.answered (.binding (.ok b))⟩ :: s.desk
      history := .bound t.mine t.target b :: s.history } := by
  have below := (linked.sound.tasks t member).below
  constructor
  case sound => exact linked.sound
  case stored => exact linked.stored
  case lawful => exact precededCons ⟨linked.stored ▸ own,linked.waiting t member stage free⟩ linked.lawful
  case hook => exact hookLater linked.hook (List.subset_cons_self _ _)
  case numbered =>
    intro run g c old
    rcases List.mem_cons.mp old with new | old
    · exact (Mark.bound.inj new).1 ▸ below
    · exact linked.numbered run g c old
  case calls => exact fun shown call old => linked.calls shown call (by simpa using old)
  case desk =>
    intro d work
    rcases List.mem_cons.mp work with rfl | old
    · refine ⟨below,fun c answered k task same _ => ?_⟩
      cases linked.sound.distinct k task t member same
      cases answered
      exact List.mem_cons_self
    · obtain ⟨below,known⟩ := linked.desk d old
      exact ⟨below,fun c answered k task same waits => List.mem_cons_of_mem _ (known c answered k task same waits)⟩
  case waiting =>
    intro k task waits free g c bound
    have other : t.mine ≠ k.mine := free _ List.mem_cons_self
    rcases List.mem_cons.mp bound with new | old
    · exact other (Mark.bound.inj new).1.symm
    · exact linked.waiting k task waits (fun d work => free d (List.mem_cons_of_mem _ work)) g c old

theorem linkedWork {t : Task} {progress : Progress} (linked : Linked initial s) (member : t ∈ s.hook.tasks)
    (other : ∀ b, progress ≠ .answered (.binding (.ok b))) :
    Linked initial { s with desk := ⟨t.mine,progress⟩ :: s.desk } := by
  refine linkedMarks [] linked linked.stored linked.lawful (by simp) (by simp) (fun d work => ?_)
    (fun d old => ⟨d,List.mem_cons_of_mem _ old,rfl⟩)
  rcases List.mem_cons.mp work with rfl | old
  · exact Or.inr ⟨(linked.sound.tasks t member).below,other⟩
  · exact Or.inl old

theorem linkedResolve {mine : Nat} {io : Disk} (linked : Linked initial s)
    (taken : step sys s (.resolve mine io) = some u) : Linked initial u := by
  simp only [step] at taken
  split at taken <;> try contradiction
  next t found free =>
    obtain ⟨member,rfl⟩ := findTask found
    split at taken <;> try contradiction
    next stage =>
      cases Option.some.inj taken
      cases answer : resolveBinding ⟨s.stored,io⟩ t.target.project t.target.path with
      | ok b =>
        obtain ⟨_,p,named,rfl⟩ := resolveBindingOk.mp answer
        exact linkedBound linked member stage (deskOfNone free) (by simp [resolvesTo,named])
      | error failure => exact linkedWork linked member (by simp)

theorem linkedLocate {mine : Nat} {io : Disk} (linked : Linked initial s)
    (taken : step sys s (.locate mine io) = some u) : Linked initial u := by
  simp only [step] at taken
  split at taken <;> try contradiction
  next t found free =>
    obtain ⟨member,rfl⟩ := findTask found
    split at taken <;> try contradiction
    cases Option.some.inj taken
    exact linkedWork linked member (by simp)

theorem bridgeGate {α : Type} {run : List Str → Answer α} {verb : Kubectl.Verb} {tree : Tree} {first second : Read}
    {name target typed : Str} {a : α} {place : Aimed} (served : bridge verb run sys tree first second name target typed = .ok a)
    (aimed : aim sys tree first second name target = .ok place) (mutation : mutates verb)
    (guarded : place.binding.guarded = true) : typed = place.binding.context := by
  have gated : ∀ {sentence : String}, kubeCall run sys tree first second verb sentence (fun b => confirm b typed) name target = .ok a →
      typed = place.binding.context := by
    intro sentence called
    obtain ⟨t,aimed',passed,_⟩ := kubeCallOk.mp called
    cases Except.ok.inj (aimed.symm.trans aimed')
    exact confirmOk.mp passed guarded
  rcases mutation with rfl | rfl
  · exact gated served
  · exact gated served

theorem startedCases (sys : System) (tree : Tree) (first second : Read) (t : Task) (verb : Kubectl.Verb) :
    started sys tree first second t verb = [] ∨
      ∃ place argv, aim sys tree first second t.target.project t.target.path = .ok place ∧
        bridge verb .ok sys tree first second t.target.project t.target.path (typedOf t) = .ok argv ∧
        started sys tree first second t verb =
          [.ran (runOf t) t.mine t.target verb (typedOf t) place.binding] := by
  unfold started
  split
  case h_1 place argv aimed served => exact Or.inr ⟨place,argv,aimed,served,rfl⟩
  case h_2 => exact Or.inl rfl

theorem taskBound {history : List Mark} {t : Task} {verb : Kubectl.Verb} (lawful : Preceded (Lawful initial) history)
    (linked : TaskLinked history t) (call : t.call = some verb) : ∃ b, .bound (runOf t) t.target b ∈ history := by
  cases stage : t.stage with
  | binding => simp [Task.call,stage] at call
  | diffOnly b => exact ⟨b,by simpa [runOf,stage] using linked.preview b (Or.inr (Or.inl stage))⟩
  | check b => exact ⟨b,by simpa [runOf,stage] using linked.preview b (Or.inl stage)⟩
  | diff b checked => exact ⟨b,by simpa [runOf,stage] using linked.preview b (Or.inr (Or.inr ⟨checked,stage⟩))⟩
  | mutation shown typed =>
    obtain ⟨target,confirmed⟩ := linked.mutation shown typed stage
    exact ⟨shown.run.binding,by simpa [runOf,stage,target] using confirmedBound lawful confirmed⟩

theorem taskConfirmed {history : List Mark} {t : Task} {verb : Kubectl.Verb} (linked : TaskLinked history t)
    (call : t.call = some verb) (mutation : mutates verb) :
    ∃ shown, .confirmed shown t.mine ∈ history ∧ shown.started = runOf t ∧ shown.run.target = t.target := by
  cases stage : t.stage with
  | mutation shown typed =>
    obtain ⟨target,confirmed⟩ := linked.mutation shown typed stage
    exact ⟨shown,confirmed,by simp [runOf,stage],target.symm⟩
  | binding => simp [Task.call,stage] at call
  | diffOnly b => rcases mutation with rfl | rfl <;> simp [Task.call,stage] at call
  | diff b checked => rcases mutation with rfl | rfl <;> simp [Task.call,stage] at call
  | check b =>
    by_cases delete : t.target.action = .delete <;> rcases mutation with rfl | rfl <;>
      simp [Task.call,stage,checkFor,delete] at call

theorem servedLawful {io : Disk} {tree : Tree} {first : Read} {t : Task} {verb : Kubectl.Verb} {place : Aimed}
    {argv : List Str} (linked : Linked initial s) (member : t ∈ s.hook.tasks) (call : t.call = some verb)
    (aimed : aim sys tree first ⟨s.stored,io⟩ t.target.project t.target.path = .ok place)
    (served : bridge verb .ok sys tree first ⟨s.stored,io⟩ t.target.project t.target.path (typedOf t) = .ok argv) :
    Lawful initial (.ran (runOf t) t.mine t.target verb (typedOf t) place.binding) s.history := by
  obtain ⟨_,_,bound,_⟩ := aimOk.mp aimed
  obtain ⟨_,p,named,own⟩ := resolveBindingOk.mp bound
  have task := linked.hook.tasks t member
  refine ⟨?_,bridgeGate served aimed,taskBound linked.lawful task call,taskConfirmed task call⟩
  simp [linked.stored,resolvesTo,named,own]

theorem linkedServe {mine : Nat} {io : Disk} {tree : Tree} {kubectl : List Str → Answer CheckResult}
    (linked : Linked initial s) (taken : step sys s (.serve mine io tree kubectl) = some u) : Linked initial u := by
  simp only [step] at taken
  split at taken <;> try contradiction
  next t first found held =>
    obtain ⟨member,rfl⟩ := findTask found
    split at taken <;> try contradiction
    next verb call =>
      cases Option.some.inj taken
      have task := linked.hook.tasks t member
      have work : ∀ {reply : Reply}, (∀ b, reply ≠ .binding (.ok b)) → ∀ d ∈ ⟨t.mine,.answered reply⟩ :: cleared s t.mine,
          d ∈ s.desk ∨ d.mine ≤ s.hook.generation ∧ ∀ b, d.progress ≠ .answered (.binding (.ok b)) := by
        intro reply other d work
        rcases List.mem_cons.mp work with rfl | old
        · exact Or.inr ⟨(linked.sound.tasks t member).below,fun b same => other b (Progress.answered.inj same)⟩
        · exact Or.inl (List.mem_of_mem_filter old)
      have kept : ∀ {progress : Progress}, ∀ d ∈ s.desk, ∃ e ∈ ⟨t.mine,progress⟩ :: cleared s t.mine, e.mine = d.mine := by
        intro progress d old
        by_cases same : d.mine = t.mine
        · exact ⟨_,List.mem_cons_self,same.symm⟩
        · exact ⟨d,List.mem_cons_of_mem _ (List.mem_filter.mpr ⟨old,by simpa using same⟩),rfl⟩
      rcases startedCases sys tree first ⟨s.stored,io⟩ t verb with none | ⟨place,argv,aimed,served,one⟩
      · rw [none]
        exact linkedMarks [] linked linked.stored linked.lawful (by simp) (by simp) (work (by simp)) kept
      · rw [one]
        have lawful := precededCons (servedLawful linked member call aimed served) linked.lawful
        exact linkedMarks [_] linked linked.stored lawful (by simp) (by simp) (work (by simp)) kept

theorem linkedDeliver {mine : Nat} (linked : Linked initial s) (taken : step sys s (.deliver mine) = some u) :
    Linked initial u := by
  simp only [step] at taken
  split at taken <;> try contradiction
  next reply held =>
    obtain ⟨hook,answered,new⟩ := Option.bind_eq_some_iff.mp taken
    cases Option.some.inj new
    have work := deskOfSome held
    obtain ⟨generation,left⟩ := answerMoves answered
    constructor
    case sound => exact PipelineRuns.soundStep linked.sound answered
    case stored => exact linked.stored
    case lawful => exact linked.lawful
    case hook =>
      have next := hookStep linked.hook (fun number b event t member same stage => ?_) answered
      · cases reply <;> exact next
      · cases reply <;> cases event
        exact (linked.desk _ work).2 b rfl t member same stage
    case numbered => exact generation ▸ linked.numbered
    case calls => exact generation ▸ linked.calls
    case desk =>
      intro d inside
      obtain ⟨below,known⟩ := linked.desk d (List.mem_of_mem_filter inside)
      exact ⟨generation ▸ below,fun b progress t member same stage => known b progress t (left t member stage).1 same stage⟩
    case waiting =>
      intro t member stage free g b
      obtain ⟨old,other⟩ := left t member stage
      refine linked.waiting t old stage (fun d inside same => ?_) g b
      exact free d (List.mem_filter.mpr ⟨inside,by simpa [same] using other⟩) same

theorem linkedStep {e : Event} (linked : Linked initial s) (taken : step sys s e = some u) : Linked initial u := by
  cases e with
  | ui e =>
    simp only [step] at taken
    split at taken <;> try contradiction
    next own =>
      obtain ⟨hook,moved,new⟩ := Option.bind_eq_some_iff.mp taken
      cases Option.some.inj new
      exact linkedWindow linked own moved
  | write c =>
    cases Option.some.inj taken
    exact linkedWrite linked _
  | resolve mine io => exact linkedResolve linked taken
  | locate mine io => exact linkedLocate linked taken
  | serve mine io tree kubectl => exact linkedServe linked taken
  | deliver mine => exact linkedDeliver linked taken

end Steps

/-- kubectl is called for a run after the binding on screen was answered to it, for
the run's own target; and under that binding, unless a write between the two
changes what the target resolves to. -/
def RunAsShown (initial : List Project) (history : List Mark) (shown : Shown) : Prop :=
  ∀ later call target verb typed binding prior,
    history = later ++ .ran shown.started call target verb typed binding :: prior →
    target = shown.run.target ∧ ∃ since earlier,
      prior = since ++ .bound shown.started shown.run.target shown.run.binding :: earlier ∧
      (Undisturbed initial target since (.bound shown.started shown.run.target shown.run.binding :: earlier) →
        binding = shown.run.binding)

def LoggedAsShown (history : List Mark) (name : Str) (entry : RunEntry) : Prop :=
  ∃ shown, .confirmed shown entry.id ∈ history ∧ name = shown.run.target.project ∧
    entry.target = shown.run.target.path ∧ entry.action = shown.run.target.action ∧
    entry.context = shown.run.binding.context ∧ entry.ns = shown.run.binding.ns ∧
    ∀ run target verb typed binding, .ran run entry.id target verb typed binding ∈ history → mutates verb →
      run = shown.started ∧ target = shown.run.target

section Shown
variable {initial : List Project} {history : List Mark} {shown : Shown} {call : Nat}

theorem runAsShown (lawful : Preceded (Lawful initial) history) (confirmed : .confirmed shown call ∈ history) :
    RunAsShown initial history shown := by
  intro later number target verb typed binding prior split
  obtain ⟨own,_,⟨b,bound⟩,_⟩ := lawful later _ prior split
  have inside : Mark.bound shown.started target b ∈ history := by
    rw [split]
    exact List.mem_append_right _ (List.mem_cons_of_mem _ bound)
  obtain ⟨rfl,rfl⟩ := boundOnce lawful inside (confirmedBound lawful confirmed)
  obtain ⟨since,earlier,rfl⟩ := List.append_of_mem bound
  have answered := (lawful (later ++ .ran shown.started number shown.run.target verb typed binding :: since)
    (.bound shown.started shown.run.target shown.run.binding) earlier (by simpa using split)).1
  refine ⟨rfl,since,earlier,rfl,fun calm => ?_⟩
  -- what the call reads is what the binding's read answered
  have same := own.symm.trans ((undisturbedKeeps calm).trans answered)
  exact Option.some.inj same

theorem loggedAsShown {name : Str} {entry : RunEntry} (lawful : Preceded (Lawful initial) history)
    (linked : EntryLinked history name entry) : LoggedAsShown history name entry := by
  obtain ⟨shown,confirmed,project,path,action,context,ns⟩ := linked
  refine ⟨shown,confirmed,project,path,action,context,ns,fun run target verb typed binding ran mutation => ?_⟩
  obtain ⟨later,earlier,split,_,_,_,issued⟩ := lawfulAt lawful ran
  obtain ⟨other,before,started,aimed⟩ := issued mutation
  have inside : Mark.confirmed other entry.id ∈ history := by
    rw [split]
    exact List.mem_append_right _ (List.mem_cons_of_mem _ before)
  cases confirmedOnce lawful confirmed inside
  exact ⟨started.symm,aimed.symm⟩

end Shown

/-- In every run of the window, the backend and the registry's writers: each call
is aimed with what the registry resolves when it reads it, a mutation of a
protected target only with that context typed; and dialog, calls and log agree
wherever no write in between moves the target. -/
theorem targetsCoincide (sys : System) (project : Option Str) (initial : List Project) :
    ∀ es s, Run (step sys) anyStep (opened project initial) es s →
      Preceded (Lawful initial) s.history ∧
      (∀ shown call, .confirmed shown call ∈ s.history → RunAsShown initial s.history shown) ∧
      ∀ name, ∀ entry ∈ s.hook.logs name, LoggedAsShown s.history name entry := by
  intro es s run
  have linked := run.invariant (I := Linked initial) (linkedOpened project initial)
    (fun _ _ _ linked _ taken => linkedStep linked taken)
  exact ⟨linked.lawful,fun _ _ confirmed => runAsShown linked.lawful confirmed,
    fun name entry member => loggedAsShown linked.lawful (linked.hook.logs name entry member)⟩

def succeeds (argv : List Str) : Answer CheckResult := .ok ⟨argv,0,[],[]⟩
def deployPath : Str := "/work/infra/prod/deploy.yaml".toList

def deployRun : PipelineRun := { opening applyDeploy with
  phase := .ready
  binding := prodBinding
  preview := some ⟨Kubectl.Verb.validate.argv ⟨"prod-us-west".toList,"api".toList⟩ deployPath false,0,[],[]⟩
  diff := some ⟨Kubectl.Verb.diff.argv ⟨"prod-us-west".toList,"api".toList⟩ deployPath false,0,[],[]⟩ }

def deployDialog : Controller := ⟨some infraProject,some ⟨deployRun,2⟩⟩

def call (mine : Nat) : List Event := [.locate mine .sound,.serve mine .sound files succeeds,.deliver mine]

def previewedAndConfirmed : List Event :=
  [.ui .effect,.ui (.start ⟨some infraProject,none⟩ .apply applyDeploy.path),.resolve 2 .sound,.deliver 2] ++
    call 2 ++ call 2 ++ [.ui .render,.ui (.confirm deployDialog [])]

def moveProd : Call := ⟨.bindScope infraProject ⟨"prod".toList,"prod-eu-north".toList,"web".toList,false⟩,.plain,.sound⟩
def euBinding : Binding := ⟨"prod-eu-north".toList,"web".toList,false,"prod".toList⟩

structure Left where
  confirmed : Bool
  last : Option Mark
  rows : List (Str × Str)
  deriving DecidableEq, Repr

def left (s : State) : Left :=
  ⟨s.history.contains (.confirmed ⟨deployRun,2⟩ 3),s.history.head?,(s.hook.logs infraProject).map (fun e => (e.context,e.ns))⟩

def appliedUnder (binding : Binding) : Left :=
  ⟨true,some (.ran 2 3 applyDeploy .apply [] binding),[("prod-us-west".toList,"api".toList)]⟩

theorem applyAsShown :
    ∃ s, Run (step .plain) anyStep (opened (some infraProject) [infra]) (previewedAndConfirmed ++ call 3) s ∧
      left s = appliedUnder prodBinding ∧ RunAsShown [infra] s.history ⟨deployRun,2⟩ := by
  have seen : (exec (step .plain) (opened (some infraProject) [infra]) (previewedAndConfirmed ++ call 3)).map left =
      some (appliedUnder prodBinding) := by decide
  obtain ⟨s,done,shape⟩ := Option.map_eq_some_iff.mp seen
  have run := runOfExec done
  have confirmed : Mark.confirmed ⟨deployRun,2⟩ 3 ∈ s.history := List.contains_iff_mem.mp (congrArg Left.confirmed shape)
  exact ⟨s,run,shape,(targetsCoincide .plain (some infraProject) [infra] _ _ run).2.1 ⟨deployRun,2⟩ 3 confirmed⟩

/-- The folder is rebound while the mutation is under way: the dialog and the log
name one cluster, and another is changed. -/
theorem reboundUnderDialog :
    ∃ s, Run (step .plain) anyStep (opened (some infraProject) [infra])
        (previewedAndConfirmed ++ [.write moveProd] ++ call 3) s ∧
      .confirmed ⟨deployRun,2⟩ 3 ∈ s.history ∧ .ran 2 3 applyDeploy .apply [] euBinding ∈ s.history ∧
      (s.hook.logs infraProject).map (fun e => (e.context,e.ns)) = [("prod-us-west".toList,"api".toList)] ∧
      (euBinding.context,euBinding.ns) ≠ (deployRun.binding.context,deployRun.binding.ns) := by
  have seen : (exec (step .plain) (opened (some infraProject) [infra])
      (previewedAndConfirmed ++ [.write moveProd] ++ call 3)).map left = some (appliedUnder euBinding) := by decide
  obtain ⟨s,done,shape⟩ := Option.map_eq_some_iff.mp seen
  exact ⟨s,runOfExec done,List.contains_iff_mem.mp (congrArg Left.confirmed shape),List.mem_of_head? (congrArg Left.last shape),
    congrArg Left.rows shape,by decide⟩

end M6t.PipelineTargets
