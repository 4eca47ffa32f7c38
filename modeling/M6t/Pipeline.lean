import M6t.Runs
import M6t.Kubectl
import M6t.KubeBinding

/-! The diff → apply pipeline as the window drives it. The callbacks of one render
keep that render's project and run, and an await resumes whenever its promise
settles, so any rendered callback may be called at any time and calls may be
answered in any order. -/
namespace M6t.Pipeline
open M6t.Text M6t.Fault M6t.KubeBinding M6t.Runs

inductive PipelineAction where
  | apply
  | delete
  | diff
  deriving DecidableEq, Repr

inductive PipelinePhase where
  | previewing
  | blocked
  | ready
  | running
  | done
  deriving DecidableEq, Repr

structure PipelineTarget where
  project : Str
  path : Str
  action : PipelineAction
  deriving DecidableEq, Repr

abbrev CheckResult := Kubectl.Result

structure PipelineRun where
  target : PipelineTarget
  phase : PipelinePhase
  binding : Binding
  preview : Option CheckResult
  diff : Option CheckResult
  outcome : Option CheckResult
  error : Option Failure
  deriving DecidableEq, Repr

structure RunEntry where
  id : Nat
  action : PipelineAction
  target : Str
  context : Str
  ns : Str
  argv : List Str
  exitCode : Int
  stdout : Str
  stderr : Str
  failure : Option Failure
  deriving DecidableEq, Repr

def unboundBinding : Binding := ⟨[],[],false,[]⟩

def blocks (result : CheckResult) : Bool := result.exitCode ≠ 0

def runLogLimit : Nat := 50

def logged (log : List RunEntry) (entry : RunEntry) : List RunEntry := (entry :: log).take runLogLimit

def opening (target : PipelineTarget) : PipelineRun := ⟨target,.previewing,unboundBinding,none,none,none,none⟩

def checkFor (target : PipelineTarget) : Kubectl.Verb := if target.action = .delete then .deletePreview else .validate

def mutate (target : PipelineTarget) : Kubectl.Verb := if target.action = .delete then .delete else .apply

def entryFor (id : Nat) (run : PipelineRun) (reply : Answer CheckResult) : RunEntry :=
  match reply with
  | .ok outcome => ⟨id,run.target.action,run.target.path,run.binding.context,run.binding.ns,outcome.argv,
      outcome.exitCode,outcome.stdout,outcome.stderr,none⟩
  | .error failure => ⟨id,run.target.action,run.target.path,run.binding.context,run.binding.ns,[],-1,[],[],some failure⟩

/-- A run, and the generation of the `start` that opened it. The hook does not
keep that number; it tells the runs apart. -/
structure Shown where
  run : PipelineRun
  started : Nat
  deriving DecidableEq, Repr

/-- What the callbacks of one render have captured. -/
structure Controller where
  project : Option Str
  run : Option Shown
  deriving DecidableEq, Repr

inductive Stage where
  | binding
  | diffOnly (binding : Binding)
  | check (binding : Binding)
  | diff (binding : Binding) (checked : CheckResult)
  | mutation (shown : Shown) (typed : Str)
  deriving DecidableEq, Repr

structure Task where
  mine : Nat
  target : PipelineTarget
  stage : Stage
  deriving DecidableEq, Repr

def Task.call (t : Task) : Option Kubectl.Verb :=
  match t.stage with
  | .binding => none
  | .diffOnly _ => some .diff
  | .check _ => some (checkFor t.target)
  | .diff _ _ => some .diff
  | .mutation _ _ => some (mutate t.target)

inductive Seen where
  | checked (started : Nat) (target : PipelineTarget) (call : Kubectl.Verb) (exitCode : Int)
  | mutated (started : Nat) (target : PipelineTarget) (call : Nat)
  | settled (call : Nat)
  deriving DecidableEq, Repr

structure State where
  project : Option Str
  effectDue : Bool
  run : Option Shown
  generation : Nat
  logs : Str → List RunEntry
  rendered : List Controller
  tasks : List Task
  trace : List Seen

def mounted (project : Option Str) : State :=
  ⟨project,true,none,0,fun _ => [],[⟨project,none⟩],[],[]⟩

namespace State
variable (s : State)

def rerender (project : Option Str) : State :=
  { s with project := project, rendered := ⟨project,s.run⟩ :: s.rendered }

def saw (seen : Seen) : State := { s with trace := seen :: s.trace }

def drop (mine : Nat) : State := { s with tasks := s.tasks.filter (fun t => t.mine ≠ mine) }

def advance (t : Task) (stage : Stage) : State :=
  { s.drop t.mine with tasks := { t with stage := stage } :: (s.drop t.mine).tasks }

/-- `setRun`, unless the generation has moved on. -/
def fill (mine : Nat) (shown : Shown) : State :=
  if s.generation = mine then { s with run := some shown } else s

def record (name : Str) (entry : RunEntry) : State :=
  { s with logs := fun n => if n = name then logged (s.logs n) entry else s.logs n }

def close : State := { s with generation := s.generation + 1, run := none }

def start (c : Controller) (action : PipelineAction) (path : Str) : State :=
  match c.project with
  | none => s
  | some project =>
      let target : PipelineTarget := ⟨project,path,action⟩
      let mine := s.generation + 1
      { s with generation := mine, run := some ⟨opening target,mine⟩, tasks := ⟨mine,target,.binding⟩ :: s.tasks }

def confirm (c : Controller) (typed : Str) : State :=
  match c.run with
  | none => s
  | some shown =>
      if shown.run.phase ≠ .ready ∨ shown.run.target.action = .diff then s
      else
        let mine := s.generation + 1
        { s with
          generation := mine
          run := some { shown with run := { shown.run with phase := .running } }
          tasks := ⟨mine,shown.run.target,.mutation shown typed⟩ :: s.tasks
          trace := .mutated shown.started shown.run.target mine :: s.trace }

def finish (t : Task) (next : PipelineRun) : State := (s.drop t.mine).fill t.mine ⟨next,t.mine⟩

def previewFailed (t : Task) (failure : Failure) : State :=
  s.finish t { opening t.target with phase := .blocked, error := some failure }

def resumeBinding (t : Task) : Answer Binding → State
  | .error failure => s.previewFailed t failure
  | .ok binding => s.advance t (if t.target.action = .diff then .diffOnly binding else .check binding)

def resumeChecked (t : Task) (binding : Binding) (checked : CheckResult) : State :=
  let s := s.saw (.checked t.mine t.target (checkFor t.target) checked.exitCode)
  if blocks checked then
    s.finish t { opening t.target with phase := .blocked, binding := binding, preview := some checked }
  else if t.target.action = .delete then
    s.finish t { opening t.target with phase := .ready, binding := binding, preview := some checked }
  else s.advance t (.diff binding checked)

def resumeMutation (t : Task) (shown : Shown) (reply : Answer CheckResult) : State :=
  let done : PipelineRun := match reply with
    | .ok outcome => { shown.run with phase := .done, outcome := some outcome, error := none }
    | .error failure => { shown.run with phase := .done, outcome := none, error := some failure }
  (((s.saw (.settled t.mine)).drop t.mine).record shown.run.target.project (entryFor t.mine shown.run reply)).fill
    t.mine { shown with run := done }

def resumeResult (t : Task) (reply : Answer CheckResult) : State :=
  match t.stage,reply with
  | .binding,_ => s
  | .mutation shown _,reply => s.resumeMutation t shown reply
  | _,.error failure => s.previewFailed t failure
  | .check binding,.ok checked => s.resumeChecked t binding checked
  | .diffOnly binding,.ok diff =>
      s.finish t { opening t.target with phase := .ready, binding := binding, diff := some diff }
  | .diff binding checked,.ok diff =>
      s.finish t { opening t.target with phase := .ready, binding := binding, preview := some checked, diff := some diff }

end State

inductive Event where
  | render
  | setProject (project : Option Str)
  | effect
  | start (c : Controller) (action : PipelineAction) (path : Str)
  | confirm (c : Controller) (typed : Str)
  | close
  | bindingAnswered (mine : Nat) (reply : Answer Binding)
  | resultAnswered (mine : Nat) (reply : Answer CheckResult)
  deriving DecidableEq, Repr

def step (s : State) : Event → Option State
  | .render => some (s.rerender s.project)
  | .setProject project => some { s.rerender project with effectDue := s.effectDue || project ≠ s.project }
  | .effect => if s.effectDue then some { s.close with effectDue := false } else none
  | .start c action path => if c ∈ s.rendered then some (s.start c action path) else none
  | .confirm c typed => if c ∈ s.rendered then some (s.confirm c typed) else none
  | .close => some s.close
  | .bindingAnswered mine reply =>
      match s.tasks.find? (fun t => t.mine = mine) with
      | some t => if t.stage = .binding then some (s.resumeBinding t reply) else none
      | none => none
  | .resultAnswered mine reply =>
      match s.tasks.find? (fun t => t.mine = mine) with
      | some t => if t.stage ≠ .binding then some (s.resumeResult t reply) else none
      | none => none

def Shown.Asks (shown : Shown) : Prop := shown.run.phase = .ready ∧ shown.run.target.action ≠ .diff
instance (shown : Shown) : Decidable shown.Asks := by unfold Shown.Asks; infer_instance

section Inversion
variable {s u : State}

theorem confirmActs {c : Controller} {shown : Shown} (captured : c.run = some shown) (asks : shown.Asks) (typed : Str) :
    s.confirm c typed =
      { s with
        generation := s.generation + 1
        run := some { shown with run := { shown.run with phase := .running } }
        tasks := ⟨s.generation + 1,shown.run.target,.mutation shown typed⟩ :: s.tasks
        trace := .mutated shown.started shown.run.target (s.generation + 1) :: s.trace } := by
  simp only [State.confirm,captured]
  rw [if_neg (by simpa [Shown.Asks] using asks)]

theorem confirmIdle {c : Controller} (idle : ∀ shown, c.run = some shown → ¬ shown.Asks) (typed : Str) :
    s.confirm c typed = s := by
  cases captured : c.run with
  | none => simp [State.confirm,captured]
  | some shown =>
    simp only [State.confirm,captured]
    refine if_pos ?_
    by_contra asks
    exact idle shown captured (by simpa [Shown.Asks] using asks)

theorem findTask {mine : Nat} {t : Task} (found : s.tasks.find? (fun t => t.mine = mine) = some t) :
    t ∈ s.tasks ∧ t.mine = mine :=
  ⟨List.mem_of_find?_eq_some found,by simpa using List.find?_some found⟩

inductive Took (s : State) : Event → State → Prop where
  | render : Took s .render (s.rerender s.project)
  | setProject (project : Option Str) :
      Took s (.setProject project) { s.rerender project with effectDue := s.effectDue || project ≠ s.project }
  | effect (due : s.effectDue = true) : Took s .effect { s.close with effectDue := false }
  | start {c : Controller} (rendered : c ∈ s.rendered) (action : PipelineAction) (path : Str) :
      Took s (.start c action path) (s.start c action path)
  | idle {c : Controller} (idle : ∀ shown, c.run = some shown → ¬ shown.Asks) (typed : Str) :
      Took s (.confirm c typed) s
  | confirm {c : Controller} {shown : Shown} (rendered : c ∈ s.rendered) (captured : c.run = some shown)
      (asks : shown.Asks) (typed : Str) : Took s (.confirm c typed) (s.confirm c typed)
  | close : Took s .close s.close
  | binding {t : Task} (member : t ∈ s.tasks) (stage : t.stage = .binding) (reply : Answer Binding) :
      Took s (.bindingAnswered t.mine reply) (s.resumeBinding t reply)
  | result {t : Task} (member : t ∈ s.tasks) (stage : t.stage ≠ .binding) (reply : Answer CheckResult) :
      Took s (.resultAnswered t.mine reply) (s.resumeResult t reply)

theorem stepTook {e : Event} (taken : step s e = some u) : Took s e u := by
  cases e with
  | render => cases Option.some.inj taken; exact .render
  | setProject project => cases Option.some.inj taken; exact .setProject project
  | effect =>
    simp only [step] at taken
    split at taken <;> cases taken
    exact .effect (by assumption)
  | start c action path =>
    simp only [step] at taken
    split at taken <;> cases taken
    exact .start (by assumption) action path
  | confirm c typed =>
    simp only [step] at taken
    split at taken <;> cases taken
    by_cases idle : ∀ shown, c.run = some shown → ¬ shown.Asks
    · exact confirmIdle idle typed ▸ .idle idle typed
    · push Not at idle
      obtain ⟨shown,captured,asks⟩ := idle
      exact .confirm (by assumption) captured asks typed
  | close => cases Option.some.inj taken; exact .close
  | bindingAnswered mine reply =>
    cases found : s.tasks.find? (fun t => t.mine = mine) with
    | none => simp [step,found] at taken
    | some t =>
      simp only [step,found] at taken
      split at taken <;> cases taken
      obtain ⟨member,rfl⟩ := findTask found
      exact .binding member (by assumption) reply
  | resultAnswered mine reply =>
    cases found : s.tasks.find? (fun t => t.mine = mine) with
    | none => simp [step,found] at taken
    | some t =>
      simp only [step,found] at taken
      split at taken <;> cases taken
      obtain ⟨member,rfl⟩ := findTask found
      exact .result member (by assumption) reply

end Inversion

end M6t.Pipeline
