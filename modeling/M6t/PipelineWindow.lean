import M6t.PipelineBackend

/-! The window's side of the backend's history: what it holds, waits for and logs is
what the history says of its runs. -/
namespace M6t.PipelineWindow
open M6t.Text M6t.Fault M6t.KubeBinding M6t.Runs M6t.PipelineBackend
open M6t.Pipeline hiding State Event step

def Holds (t : Task) (b : Binding) : Prop :=
  t.stage = .check b ∨ t.stage = .diffOnly b ∨ ∃ checked, t.stage = .diff b checked

structure TaskLinked (history : List Mark) (t : Task) : Prop where
  preview : ∀ b, Holds t b → .bound t.mine t.target b ∈ history
  mutation : ∀ shown typed, t.stage = .mutation shown typed →
    t.target = shown.run.target ∧ .confirmed shown t.mine ∈ history

def EntryLinked (history : List Mark) (name : Str) (entry : RunEntry) : Prop :=
  ∃ shown, .confirmed shown entry.id ∈ history ∧ name = shown.run.target.project ∧
    entry.target = shown.run.target.path ∧ entry.action = shown.run.target.action ∧
    entry.context = shown.run.binding.context ∧ entry.ns = shown.run.binding.ns

structure HookLinked (history : List Mark) (hook : Pipeline.State) : Prop where
  shows : ∀ shown, PipelineRuns.Shows hook shown → shown.Asks →
    .bound shown.started shown.run.target shown.run.binding ∈ history
  tasks : ∀ t ∈ hook.tasks, TaskLinked history t
  logs : ∀ name, ∀ entry ∈ hook.logs name, EntryLinked history name entry

theorem taskLater {history longer : List Mark} {t : Task} (linked : TaskLinked history t) (sub : history ⊆ longer) :
    TaskLinked longer t :=
  ⟨fun b holds => sub (linked.preview b holds),
    fun shown typed stage => ⟨(linked.mutation shown typed stage).1,sub (linked.mutation shown typed stage).2⟩⟩

section Hook
variable {history : List Mark} {s u : Pipeline.State}

theorem hookLater {longer : List Mark} (linked : HookLinked history s) (sub : history ⊆ longer) : HookLinked longer s where
  shows shown seen asks := sub (linked.shows shown seen asks)
  tasks t member := taskLater (linked.tasks t member) sub
  logs name entry member := by
    obtain ⟨shown,confirmed,rest⟩ := linked.logs name entry member
    exact ⟨shown,sub confirmed,rest⟩

theorem hookSame (linked : HookLinked history s) (tasks : u.tasks ⊆ s.tasks) (logs : u.logs = s.logs)
    (shows : ∀ shown, PipelineRuns.Shows u shown → shown.Asks → PipelineRuns.Shows s shown) : HookLinked history u where
  shows shown seen asks := linked.shows shown (shows shown seen asks) asks
  tasks t member := linked.tasks t (tasks member)
  logs := logs ▸ linked.logs

theorem hookRerender (linked : HookLinked history s) (project : Option Str) (due : Bool) :
    HookLinked history { s.rerender project with effectDue := due } := by
  refine hookSame linked (List.Subset.refl _) rfl (fun shown seen _ => ?_)
  rcases seen with held | ⟨c,member,run⟩
  · exact Or.inl held
  · rcases List.mem_cons.mp member with rfl | old
    · exact Or.inl run
    · exact Or.inr ⟨c,old,run⟩

theorem hookClose (linked : HookLinked history s) (due : Bool) : HookLinked history { s.close with effectDue := due } := by
  refine hookSame linked (List.Subset.refl _) rfl (fun shown seen _ => ?_)
  rcases seen with held | rendered
  · cases held
  · exact Or.inr rendered

theorem hookStart (linked : HookLinked history s) (c : Controller) (action : PipelineAction) (path : Str) :
    HookLinked history (s.start c action path) := by
  cases project : c.project with
  | none => simpa only [Pipeline.State.start,project] using linked
  | some name =>
    simp only [Pipeline.State.start,project]
    constructor
    case shows =>
      intro shown seen asks
      rcases seen with held | rendered
      · cases Option.some.inj held
        exact absurd asks.1 (by simp [opening])
      · exact linked.shows shown (Or.inr rendered) asks
    case tasks =>
      intro t member
      rcases List.mem_cons.mp member with rfl | old
      · exact ⟨by simp [Holds],by simp⟩
      · exact linked.tasks t old
    case logs => exact linked.logs

theorem hookConfirm (linked : HookLinked history s) {c : Controller} {shown : Shown} (captured : c.run = some shown)
    (asks : shown.Asks) (typed : Str) :
    HookLinked (.confirmed shown (s.generation + 1) :: history) (s.confirm c typed) := by
  have longer := hookLater linked (List.subset_cons_self (.confirmed shown (s.generation + 1)) history)
  rw [confirmActs captured asks]
  constructor
  case shows =>
    intro other seen asks
    rcases seen with held | rendered
    · cases Option.some.inj held
      exact absurd asks.1 (by simp)
    · exact longer.shows other (Or.inr rendered) asks
  case tasks =>
    intro t member
    rcases List.mem_cons.mp member with rfl | old
    · refine ⟨by simp [Holds],?_⟩
      intro other word stage
      cases stage
      exact ⟨rfl,List.mem_cons_self⟩
    · exact longer.tasks t old
  case logs => exact longer.logs

theorem hookFill (linked : HookLinked history s) {mine : Nat} {shown : Shown}
    (bound : shown.Asks → .bound shown.started shown.run.target shown.run.binding ∈ history) :
    HookLinked history (s.fill mine shown) := by
  unfold Pipeline.State.fill
  split
  case isFalse => exact linked
  case isTrue =>
    refine ⟨?_,linked.tasks,linked.logs⟩
    intro other seen asks
    rcases seen with held | rendered
    · cases Option.some.inj held
      exact bound asks
    · exact linked.shows other (Or.inr rendered) asks

theorem hookDrop (linked : HookLinked history s) (mine : Nat) : HookLinked history (s.drop mine) :=
  hookSame linked (List.filter_subset_self _) rfl (fun _ seen _ => seen)

theorem hookSaw (linked : HookLinked history s) (x : Seen) : HookLinked history (s.saw x) :=
  hookSame linked (List.Subset.refl _) rfl (fun _ seen _ => seen)

theorem hookAdvance (linked : HookLinked history s) {t : Task} {stage : Stage}
    (next : TaskLinked history { t with stage := stage }) : HookLinked history (s.advance t stage) where
  shows := linked.shows
  tasks k member := by
    rcases List.mem_cons.mp member with rfl | old
    · exact next
    · exact linked.tasks k (List.mem_of_mem_filter old)
  logs := linked.logs

theorem hookRecord (linked : HookLinked history s) {name : Str} {entry : RunEntry}
    (new : EntryLinked history name entry) : HookLinked history (s.record name entry) where
  shows := linked.shows
  tasks := linked.tasks
  logs other held member := by
    by_cases same : other = name
    · have inside : held ∈ logged (s.logs other) entry := by simpa [Pipeline.State.record,same] using member
      rcases List.mem_cons.mp (List.mem_of_mem_take inside) with rfl | old
      · exact same ▸ new
      · exact linked.logs other held old
    · exact linked.logs other held (by simpa [Pipeline.State.record,same] using member)

theorem hookFinish (linked : HookLinked history s) {t : Task} {next : PipelineRun}
    (bound : next.phase = .ready → .bound t.mine next.target next.binding ∈ history) :
    HookLinked history (s.finish t next) :=
  hookFill (hookDrop linked t.mine) (fun asks => bound asks.1)

theorem hookFailed (linked : HookLinked history s) (t : Task) (failure : Failure) :
    HookLinked history (s.previewFailed t failure) :=
  hookFinish linked (fun ready => absurd ready (by simp))

theorem hookBinding (linked : HookLinked history s) (t : Task) (answer : Answer Binding)
    (known : ∀ b, answer = .ok b → .bound t.mine t.target b ∈ history) : HookLinked history (s.resumeBinding t answer) := by
  cases answer with
  | error failure => exact hookFailed linked t failure
  | ok b =>
    refine hookAdvance linked ⟨fun d holds => ?_,fun shown typed stage => ?_⟩
    · have same : b = d := by
        by_cases plain : t.target.action = .diff <;> simpa [Holds,plain] using holds
      exact same ▸ known b rfl
    · by_cases plain : t.target.action = .diff <;> simp [plain] at stage

theorem hookChecked (linked : HookLinked history s) {t : Task} {b : Binding} (bound : .bound t.mine t.target b ∈ history)
    (checked : CheckResult) : HookLinked history (s.resumeChecked t b checked) := by
  have saw := hookSaw linked (.checked t.mine t.target (checkFor t.target) checked.exitCode)
  simp only [Pipeline.State.resumeChecked]
  split
  · exact hookFinish saw (fun _ => bound)
  · split
    · exact hookFinish saw (fun _ => bound)
    · refine hookAdvance saw ⟨fun d holds => ?_,by simp⟩
      have same : b = d := by simpa [Holds] using holds
      exact same ▸ bound

theorem hookMutation (linked : HookLinked history s) {t : Task} {shown : Shown} {typed : Str}
    (member : t ∈ s.tasks) (stage : t.stage = .mutation shown typed) (answer : Answer CheckResult) :
    HookLinked history (s.resumeMutation t shown answer) := by
  have confirmed := ((linked.tasks t member).mutation shown typed stage).2
  have entry : EntryLinked history shown.run.target.project (entryFor t.mine shown.run answer) := by
    cases answer <;> exact ⟨shown,confirmed,rfl,rfl,rfl,rfl,rfl⟩
  refine hookFill (hookRecord (hookDrop (hookSaw linked _) t.mine) entry) (fun asks => ?_)
  cases answer <;> exact absurd asks.1 (by simp)

theorem hookResult (linked : HookLinked history s) {t : Task} (member : t ∈ s.tasks) (answer : Answer CheckResult) :
    HookLinked history (s.resumeResult t answer) := by
  have bound := (linked.tasks t member).preview
  cases stage : t.stage with
  | binding => simpa only [Pipeline.State.resumeResult,stage] using linked
  | mutation shown typed =>
    simpa only [Pipeline.State.resumeResult,stage] using hookMutation linked member stage answer
  | check b =>
    have bound := bound b (Or.inl stage)
    cases answer with
    | error failure => simpa only [Pipeline.State.resumeResult,stage] using hookFailed linked t failure
    | ok checked => simpa only [Pipeline.State.resumeResult,stage] using hookChecked linked bound checked
  | diffOnly b =>
    have bound := bound b (Or.inr (Or.inl stage))
    cases answer with
    | error failure => simpa only [Pipeline.State.resumeResult,stage] using hookFailed linked t failure
    | ok diff => simpa only [Pipeline.State.resumeResult,stage] using hookFinish linked (fun _ => bound)
  | diff b checked =>
    have bound := bound b (Or.inr (Or.inr ⟨checked,stage⟩))
    cases answer with
    | error failure => simpa only [Pipeline.State.resumeResult,stage] using hookFailed linked t failure
    | ok diff => simpa only [Pipeline.State.resumeResult,stage] using hookFinish linked (fun _ => bound)

theorem confirmationActs {c : Controller} {shown : Shown} (captured : c.run = some shown) (asks : shown.Asks)
    (typed : Str) : confirmation s (.confirm c typed) = [.confirmed shown (s.generation + 1)] := by
  simp only [confirmation,captured,if_pos asks]

theorem confirmationIdle {c : Controller} (idle : ∀ shown, c.run = some shown → ¬ shown.Asks) (typed : Str) :
    confirmation s (.confirm c typed) = [] := by
  cases captured : c.run with
  | none => simp only [confirmation,captured]
  | some shown => simp only [confirmation,captured,if_neg (idle shown captured)]

theorem hookStep {e : Pipeline.Event} (linked : HookLinked history s)
    (known : ∀ mine b, e = .bindingAnswered mine (.ok b) → ∀ t ∈ s.tasks, t.mine = mine → t.stage = .binding →
      .bound t.mine t.target b ∈ history)
    (taken : Pipeline.step s e = some u) : HookLinked (confirmation s e ++ history) u := by
  cases stepTook taken with
  | render => exact hookRerender linked s.project s.effectDue
  | setProject project => exact hookRerender linked project _
  | effect due => exact hookClose linked false
  | start rendered action path => exact hookStart linked _ action path
  | idle idle typed => exact hookLater linked (List.subset_append_right _ _)
  | confirm rendered captured asks typed =>
    rw [confirmationActs captured asks]
    exact hookConfirm linked captured asks typed
  | close => exact hookClose linked s.effectDue
  | binding member stage reply =>
    exact hookBinding linked _ reply (fun b ok => known _ b (by rw [ok]) _ member rfl stage)
  | result member stage reply => exact hookResult linked member reply

end Hook

section Waiting
variable {s u : Pipeline.State}

theorem fillSame (s : Pipeline.State) (mine : Nat) (shown : Shown) :
    (s.fill mine shown).tasks = s.tasks ∧ (s.fill mine shown).generation = s.generation := by
  unfold Pipeline.State.fill
  split <;> exact ⟨rfl,rfl⟩

def Moved (s u : Pipeline.State) (mine : Nat) : Prop :=
  u.generation = s.generation ∧ ∀ k ∈ u.tasks, k.stage = .binding → k ∈ s.tasks ∧ k.mine ≠ mine

theorem finishMoved (s : Pipeline.State) (t : Task) (next : PipelineRun) : Moved s (s.finish t next) t.mine := by
  obtain ⟨tasks,generation⟩ := fillSame (s.drop t.mine) t.mine ⟨next,t.mine⟩
  refine ⟨generation,fun k member _ => ?_⟩
  obtain ⟨old,other⟩ := List.mem_filter.mp (tasks ▸ member : k ∈ (s.drop t.mine).tasks)
  exact ⟨old,by simpa using other⟩

theorem advanceMoved (s : Pipeline.State) (t : Task) {stage : Stage} (next : stage ≠ .binding) :
    Moved s (s.advance t stage) t.mine := by
  refine ⟨rfl,fun k member waits => ?_⟩
  rcases List.mem_cons.mp member with rfl | old
  · exact absurd waits next
  · obtain ⟨old,other⟩ := List.mem_filter.mp old
    exact ⟨old,by simpa using other⟩

theorem bindingMoved (s : Pipeline.State) (t : Task) (answer : Answer Binding) : Moved s (s.resumeBinding t answer) t.mine := by
  cases answer with
  | error failure => exact finishMoved s t _
  | ok b => exact advanceMoved s t (by split <;> simp)

theorem resultMoved (s : Pipeline.State) {t : Task} (stage : t.stage ≠ .binding) (answer : Answer CheckResult) :
    Moved s (s.resumeResult t answer) t.mine := by
  cases h : t.stage with
  | binding => exact absurd h stage
  | diffOnly b => cases answer <;> simp only [Pipeline.State.resumeResult,h] <;> exact finishMoved s t _
  | diff b checked => cases answer <;> simp only [Pipeline.State.resumeResult,h] <;> exact finishMoved s t _
  | check b =>
    cases answer with
    | error failure =>
      simp only [Pipeline.State.resumeResult,h]
      exact finishMoved s t _
    | ok checked =>
      simp only [Pipeline.State.resumeResult,h,Pipeline.State.resumeChecked]
      split
      · exact finishMoved (s.saw _) t _
      · split
        · exact finishMoved (s.saw _) t _
        · exact advanceMoved (s.saw _) t (by simp)
  | mutation shown typed =>
    simp only [Pipeline.State.resumeResult,h,Pipeline.State.resumeMutation]
    obtain ⟨tasks,generation⟩ := fillSame
      (((s.saw (.settled t.mine)).drop t.mine).record shown.run.target.project (entryFor t.mine shown.run answer)) t.mine _
    refine ⟨generation,fun k member _ => ?_⟩
    rw [tasks] at member
    obtain ⟨old,other⟩ := List.mem_filter.mp member
    exact ⟨old,by simpa using other⟩

theorem windowWaits {e : Pipeline.Event} (own : answered e = none) (taken : Pipeline.step s e = some u) :
    s.generation ≤ u.generation ∧ ∀ k ∈ u.tasks, k.stage = .binding → k ∈ s.tasks ∨ k.mine = s.generation + 1 := by
  cases stepTook taken with
  | render => exact ⟨le_rfl,fun k member _ => Or.inl member⟩
  | setProject project => exact ⟨le_rfl,fun k member _ => Or.inl member⟩
  | effect due => exact ⟨Nat.le_succ _,fun k member _ => Or.inl member⟩
  | @start c rendered action path =>
    cases project : c.project with
    | none => simpa only [Pipeline.State.start,project] using ⟨le_rfl,fun k member _ => Or.inl member⟩
    | some name =>
      simp only [Pipeline.State.start,project]
      refine ⟨Nat.le_succ _,fun k member _ => ?_⟩
      rcases List.mem_cons.mp member with rfl | old
      · exact Or.inr rfl
      · exact Or.inl old
  | idle idle typed => exact ⟨le_rfl,fun k member _ => Or.inl member⟩
  | confirm rendered captured asks typed =>
    rw [confirmActs captured asks]
    refine ⟨Nat.le_succ _,fun k member waits => ?_⟩
    rcases List.mem_cons.mp member with rfl | old
    · cases waits
    · exact Or.inl old
  | close => exact ⟨Nat.le_succ _,fun k member _ => Or.inl member⟩
  | binding member stage reply => cases own
  | result member stage reply => cases own

theorem answerMoves {mine : Nat} {reply : Reply} (taken : Pipeline.step s (answerEvent mine reply) = some u) :
    Moved s u mine := by
  cases reply with
  | binding answer =>
    cases stepTook taken with
    | binding member stage _ => exact bindingMoved s _ answer
  | result answer =>
    cases stepTook taken with
    | result member stage _ => exact resultMoved s stage answer

theorem confirmationCases {e : Pipeline.Event} (taken : Pipeline.step s e = some u) :
    confirmation s e = [] ∨ ∃ shown, confirmation s e = [.confirmed shown (s.generation + 1)] ∧
      PipelineRuns.Shows s shown ∧ shown.Asks ∧ u.generation = s.generation + 1 := by
  cases stepTook taken with
  | idle idle typed => exact Or.inl (confirmationIdle idle typed)
  | @confirm c shown rendered captured asks typed =>
    exact Or.inr ⟨shown,confirmationActs captured asks typed,Or.inr ⟨c,rendered,captured⟩,asks,
      by rw [confirmActs captured asks]⟩
  | _ => exact Or.inl rfl

end Waiting

end M6t.PipelineWindow
