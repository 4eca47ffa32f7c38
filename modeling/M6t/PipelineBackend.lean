import M6t.RegistryRuns
import M6t.Aim
import M6t.PipelineRuns

/-! The pipeline with the backend behind it. A call issued by the window is worked
on in steps of its own (the registry is read once for a binding, twice for an
aim), and any write of the registry may land between two of them. -/
namespace M6t.PipelineBackend
open M6t.Text M6t.Fault M6t.KubeBinding M6t.Registry M6t.Aim M6t.Runs M6t.Pipeline
open M6t.EntryPaths (Tree resolve)
open M6t.RegistryRuns (Call)

inductive Reply where
  | binding (answer : Answer Binding)
  | result (answer : Answer CheckResult)

inductive Progress where
  | located (first : Read)
  | answered (reply : Reply)

structure Desk where
  mine : Nat
  progress : Progress

/-- What has happened, as far as targets go: a binding answered to a run, a
confirmation with the run on screen and the number of its call, kubectl started
under a binding, and the registry replaced. -/
inductive Mark where
  | bound (run : Nat) (target : PipelineTarget) (binding : Binding)
  | confirmed (shown : Shown) (call : Nat)
  | ran (run call : Nat) (target : PipelineTarget) (verb : Kubectl.Verb) (typed : Str) (binding : Binding)
  | wrote (after : List Project)
  deriving DecidableEq, Repr

structure State where
  hook : Pipeline.State
  stored : List Project
  desk : List Desk
  history : List Mark

def opened (project : Option Str) (stored : List Project) : State := ⟨mounted project,stored,[],[]⟩

def bridge {α : Type} (verb : Kubectl.Verb) (run : List Str → Answer α) (sys : System) (tree : Tree) (first second : Read)
    (name target typed : Str) : Answer α :=
  match verb with
  | .validate => kubeValidate run sys tree first second name target
  | .diff => kubeDiff run sys tree first second name target
  | .apply => kubeApply run sys tree first second name target typed
  | .deletePreview => kubeDeletePreview run sys tree first second name target
  | .delete => kubeDelete run sys tree first second name target typed

def runOf (t : Task) : Nat :=
  match t.stage with
  | .mutation shown _ => shown.started
  | _ => t.mine

def typedOf (t : Task) : Str :=
  match t.stage with
  | .mutation _ typed => typed
  | _ => []

inductive Event where
  | ui (e : Pipeline.Event)
  | write (c : Call)
  | resolve (mine : Nat) (io : Disk)
  | locate (mine : Nat) (io : Disk)
  | serve (mine : Nat) (io : Disk) (tree : Tree) (kubectl : List Str → Answer CheckResult)
  | deliver (mine : Nat)

def answered : Pipeline.Event → Option Nat
  | .bindingAnswered mine _ => some mine
  | .resultAnswered mine _ => some mine
  | _ => none

def confirmation (hook : Pipeline.State) : Pipeline.Event → List Mark
  | .confirm c _ =>
      match c.run with
      | some shown => if shown.Asks then [.confirmed shown (hook.generation + 1)] else []
      | none => []
  | _ => []

def answerEvent (mine : Nat) : Reply → Pipeline.Event
  | .binding answer => .bindingAnswered mine answer
  | .result answer => .resultAnswered mine answer

def started (sys : System) (tree : Tree) (first second : Read) (t : Task) (verb : Kubectl.Verb) : List Mark :=
  match aim sys tree first second t.target.project t.target.path,
    bridge verb .ok sys tree first second t.target.project t.target.path (typedOf t) with
  | .ok place,.ok _ => [.ran (runOf t) t.mine t.target verb (typedOf t) place.binding]
  | _,_ => []

def taskOf (s : State) (mine : Nat) : Option Task := s.hook.tasks.find? (fun t => t.mine = mine)
def deskOf (s : State) (mine : Nat) : Option Progress := (s.desk.find? (fun d => d.mine = mine)).map Desk.progress
def cleared (s : State) (mine : Nat) : List Desk := s.desk.filter (fun d => d.mine ≠ mine)

def step (sys : System) (s : State) : Event → Option State
  | .ui e =>
      if answered e = none then do
        let hook ← Pipeline.step s.hook e
        some { s with hook := hook, history := confirmation s.hook e ++ s.history }
      else none
  | .write c =>
      let after := (c.perform s.stored).stored
      some { s with stored := after, history := .wrote after :: s.history }
  | .resolve mine io =>
      match taskOf s mine,deskOf s mine with
      | some t,none =>
          if t.stage = .binding then
            let answer := resolveBinding ⟨s.stored,io⟩ t.target.project t.target.path
            let mark := match answer with
              | .ok binding => [Mark.bound t.mine t.target binding]
              | .error _ => []
            some { s with desk := ⟨mine,.answered (.binding answer)⟩ :: s.desk, history := mark ++ s.history }
          else none
      | _,_ => none
  -- an aim's first read, for the checkout's path
  | .locate mine io =>
      match taskOf s mine,deskOf s mine with
      | some t,none =>
          if t.stage ≠ .binding then some { s with desk := ⟨mine,.located ⟨s.stored,io⟩⟩ :: s.desk } else none
      | _,_ => none
  -- its second read, for the binding, and then kubectl
  | .serve mine io tree kubectl =>
      match taskOf s mine,deskOf s mine with
      | some t,some (.located first) =>
          match t.call with
          | none => none
          | some verb =>
              let second : Read := ⟨s.stored,io⟩
              let answer := bridge verb kubectl sys tree first second t.target.project t.target.path (typedOf t)
              some { s with
                desk := ⟨mine,.answered (.result answer)⟩ :: cleared s mine
                history := started sys tree first second t verb ++ s.history }
      | _,_ => none
  | .deliver mine =>
      match deskOf s mine with
      | some (.answered reply) => do
          let hook ← Pipeline.step s.hook (answerEvent mine reply)
          some { s with hook := hook, desk := cleared s mine }
      | _ => none

def resolvesTo (stored : List Project) (target : PipelineTarget) : Option Binding :=
  (findProject stored target.project).map (fun p => p.kube.resolve target.path)

def storedAfter (initial : List Project) : List Mark → List Project
  | [] => initial
  | .wrote after :: _ => after
  | _ :: earlier => storedAfter initial earlier

def Undisturbed (initial : List Project) (target : PipelineTarget) : List Mark → List Mark → Prop
  | [],_ => True
  | .wrote after :: since,before =>
      resolvesTo after target = resolvesTo (storedAfter initial (since ++ before)) target ∧
        Undisturbed initial target since before
  | _ :: since,before => Undisturbed initial target since before

theorem undisturbedKeeps {initial : List Project} {target : PipelineTarget} {since before : List Mark}
    (calm : Undisturbed initial target since before) :
    resolvesTo (storedAfter initial (since ++ before)) target = resolvesTo (storedAfter initial before) target := by
  induction since with
  | nil => rfl
  | cons mark since ih =>
    cases mark with
    | wrote after => exact calm.1.trans (ih calm.2)
    | bound run g b => exact ih calm
    | confirmed shown call => exact ih calm
    | ran run call g v typed b => exact ih calm

def mutates (verb : Kubectl.Verb) : Prop := verb = .apply ∨ verb = .delete

/-- What each mark says of the ones before it. A binding is the registry's own at
that moment, and a run is answered one; a confirmation is of a run on screen, with
the binding it was answered; kubectl starts under what the registry resolves at
that moment, and a mutation of a protected target only with its context typed. -/
def Lawful (initial : List Project) : Mark → List Mark → Prop
  | .bound run target binding,earlier =>
      resolvesTo (storedAfter initial earlier) target = some binding ∧ ∀ g b, Mark.bound run g b ∉ earlier
  | .confirmed shown call,earlier =>
      .bound shown.started shown.run.target shown.run.binding ∈ earlier ∧ ∀ other, Mark.confirmed other call ∉ earlier
  | .ran run call target verb typed binding,earlier =>
      resolvesTo (storedAfter initial earlier) target = some binding ∧
        (mutates verb → binding.guarded = true → typed = binding.context) ∧
        (∃ b, .bound run target b ∈ earlier) ∧
        (mutates verb → ∃ shown, .confirmed shown call ∈ earlier ∧ shown.started = run ∧ shown.run.target = target)
  | .wrote _,_ => True

section Histories
variable {initial : List Project} {history : List Mark}

theorem lawfulAt {mark : Mark} (lawful : Preceded (Lawful initial) history) (member : mark ∈ history) :
    ∃ later earlier, history = later ++ mark :: earlier ∧ Lawful initial mark earlier := by
  obtain ⟨later,earlier,split⟩ := List.append_of_mem member
  exact ⟨later,earlier,split,lawful later mark earlier split⟩

theorem olderMark {f g : Mark} (fst : f ∈ history) (snd : g ∈ history) (differ : f ≠ g) :
    (∃ later earlier, history = later ++ f :: earlier ∧ g ∈ earlier) ∨
      ∃ later earlier, history = later ++ g :: earlier ∧ f ∈ earlier := by
  obtain ⟨later,earlier,rfl⟩ := List.append_of_mem fst
  rcases List.mem_append.mp snd with before | after
  · obtain ⟨front,rest,rfl⟩ := List.append_of_mem before
    exact Or.inr ⟨front,rest ++ f :: earlier,by simp,by simp⟩
  · rcases List.mem_cons.mp after with same | old
    · exact absurd same.symm differ
    · exact Or.inl ⟨later,earlier,rfl,old⟩

theorem boundOnce {run : Nat} {g h : PipelineTarget} {b c : Binding} (lawful : Preceded (Lawful initial) history)
    (fst : .bound run g b ∈ history) (snd : .bound run h c ∈ history) : g = h ∧ b = c := by
  by_contra differ
  have differ : Mark.bound run g b ≠ .bound run h c := fun same => differ ((Mark.bound.inj same).2)
  rcases olderMark fst snd differ with ⟨later,earlier,split,old⟩ | ⟨later,earlier,split,old⟩
  · exact (lawful _ _ _ split).2 _ _ old
  · exact (lawful _ _ _ split).2 _ _ old

theorem confirmedOnce {one other : Shown} {call : Nat} (lawful : Preceded (Lawful initial) history)
    (fst : .confirmed one call ∈ history) (snd : .confirmed other call ∈ history) : one = other := by
  by_contra differ
  have differ : Mark.confirmed one call ≠ .confirmed other call := fun same => differ (Mark.confirmed.inj same).1
  rcases olderMark fst snd differ with ⟨later,earlier,split,old⟩ | ⟨later,earlier,split,old⟩
  · exact (lawful _ _ _ split).2 _ old
  · exact (lawful _ _ _ split).2 _ old

theorem confirmedBound {shown : Shown} {call : Nat} (lawful : Preceded (Lawful initial) history)
    (confirmed : .confirmed shown call ∈ history) :
    .bound shown.started shown.run.target shown.run.binding ∈ history := by
  obtain ⟨later,earlier,rfl,bound,_⟩ := lawfulAt lawful confirmed
  exact List.mem_append_right _ (List.mem_cons_of_mem _ bound)

end Histories

end M6t.PipelineBackend
