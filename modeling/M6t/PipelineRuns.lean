import M6t.Pipeline

/-! Runs of the pipeline, in every order of renders, calls and answers: what the
cluster is asked to do, and after what. -/
namespace M6t.PipelineRuns
open M6t.Text M6t.Fault M6t.KubeBinding M6t.Runs M6t.Pipeline

def Shows (s : State) (shown : Shown) : Prop := s.run = some shown ∨ ∃ c ∈ s.rendered, c.run = some shown

structure Backed (generation : Nat) (trace : List Seen) (shown : Shown) : Prop where
  below : shown.started ≤ generation
  previewed : shown.Asks → .checked shown.started shown.run.target (checkFor shown.run.target) 0 ∈ trace

structure Expected (generation : Nat) (trace : List Seen) (t : Task) : Prop where
  below : t.mine ≤ generation
  apart : (∀ shown typed, t.stage ≠ .mutation shown typed) → ∀ r g, Seen.mutated r g t.mine ∉ trace
  checked : ∀ b r, t.stage = .diff b r → .checked t.mine t.target (checkFor t.target) 0 ∈ trace
  plain : ∀ b, t.stage = .diffOnly b → t.target.action = .diff
  opened : ∀ shown typed, t.stage = .mutation shown typed → shown.started ≤ generation

structure Sound (s : State) : Prop where
  distinct : ∀ t ∈ s.tasks, ∀ k ∈ s.tasks, t.mine = k.mine → t = k
  shows : ∀ shown, Shows s shown → Backed s.generation s.trace shown
  tasks : ∀ t ∈ s.tasks, Expected s.generation s.trace t
  calls : ∀ r g c, .mutated r g c ∈ s.trace → r < c ∧ c ≤ s.generation
  fresh : ∀ shown, s.run = some shown → shown.run.phase = .ready → ∀ g c, Seen.mutated shown.started g c ∉ s.trace
  running : ∀ r g, .mutated r g s.generation ∈ s.trace → .settled s.generation ∉ s.trace →
    ∃ shown, s.run = some shown ∧ shown.run.phase = .running

theorem backedLater {generation later : Nat} {trace longer : List Seen} {shown : Shown}
    (backed : Backed generation trace shown) (le : generation ≤ later) (sub : trace ⊆ longer) :
    Backed later longer shown :=
  ⟨backed.below.trans le,fun asks => sub (backed.previewed asks)⟩

theorem expectedLater {generation later : Nat} {trace longer : List Seen} {t : Task}
    (expected : Expected generation trace t) (le : generation ≤ later) (sub : trace ⊆ longer)
    (new : ∀ r g, Seen.mutated r g t.mine ∈ longer → Seen.mutated r g t.mine ∈ trace) : Expected later longer t where
  below := expected.below.trans le
  apart preview r g member := expected.apart preview r g (new r g member)
  checked b r stage := sub (expected.checked b r stage)
  plain := expected.plain
  opened shown typed stage := (expected.opened shown typed stage).trans le

section Steps
variable {s u : State}

theorem soundSame (sound : Sound s) (run : u.run = s.run) (generation : u.generation = s.generation)
    (tasks : u.tasks ⊆ s.tasks) (trace : u.trace = s.trace) (shows : ∀ shown, Shows u shown → Shows s shown) :
    Sound u where
  distinct t ht k hk := sound.distinct t (tasks ht) k (tasks hk)
  shows shown seen := generation ▸ trace ▸ sound.shows shown (shows shown seen)
  tasks t member := generation ▸ trace ▸ sound.tasks t (tasks member)
  calls := generation ▸ trace ▸ sound.calls
  fresh := run ▸ trace ▸ sound.fresh
  running := run ▸ generation ▸ trace ▸ sound.running

theorem soundRerender (sound : Sound s) (project : Option Str) (due : Bool) :
    Sound { s.rerender project with effectDue := due } := by
  refine soundSame sound rfl rfl (List.Subset.refl _) rfl (fun shown seen => ?_)
  rcases seen with held | ⟨c,member,run⟩
  · exact Or.inl held
  · rcases List.mem_cons.mp member with rfl | old
    · exact Or.inl run
    · exact Or.inr ⟨c,old,run⟩

theorem soundDrop (sound : Sound s) (mine : Nat) : Sound (s.drop mine) :=
  soundSame sound rfl rfl (List.filter_subset_self _) rfl (fun _ seen => seen)

theorem soundRecord (sound : Sound s) (name : Str) (entry : RunEntry) : Sound (s.record name entry) :=
  soundSame sound rfl rfl (List.Subset.refl _) rfl (fun _ seen => seen)

theorem soundSaw (sound : Sound s) {x : Seen} (other : ∀ r g c, x ≠ .mutated r g c) : Sound (s.saw x) where
  distinct := sound.distinct
  shows shown seen := backedLater (sound.shows shown seen) le_rfl (List.subset_cons_self _ _)
  tasks t member := expectedLater (sound.tasks t member) le_rfl (List.subset_cons_self _ _) (fun r g inside =>
    (List.mem_cons.mp inside).resolve_left (fun same => other r g t.mine same.symm))
  calls r g c member := sound.calls r g c ((List.mem_cons.mp member).resolve_left (fun same => other r g c same.symm))
  fresh shown held ready g c member := sound.fresh shown held ready g c
    ((List.mem_cons.mp member).resolve_left (fun same => other shown.started g c same.symm))
  running r g member unsettled := sound.running r g
    ((List.mem_cons.mp member).resolve_left (fun same => other r g s.generation same.symm))
    (fun settled => unsettled (List.mem_cons_of_mem _ settled))

theorem distinctCons {t : Task} {tasks : List Task} (distinct : ∀ t ∈ tasks, ∀ k ∈ tasks, t.mine = k.mine → t = k)
    (new : ∀ k ∈ tasks, k.mine ≠ t.mine) : ∀ a ∈ t :: tasks, ∀ b ∈ t :: tasks, a.mine = b.mine → a = b := by
  intro a ha b hb same
  rcases List.mem_cons.mp ha with first | old
  · rcases List.mem_cons.mp hb with last | other
    · exact first.trans last.symm
    · exact absurd (same.symm.trans (congrArg Task.mine first)) (new b other)
  · rcases List.mem_cons.mp hb with last | other
    · exact absurd (same.trans (congrArg Task.mine last)) (new a old)
    · exact distinct a old b other same

theorem soundAdvance (sound : Sound s) {t : Task} {stage : Stage}
    (expected : Expected s.generation s.trace { t with stage := stage }) : Sound (s.advance t stage) where
  distinct := distinctCons (soundDrop sound t.mine).distinct
    (fun k member => by simpa using (List.mem_filter.mp member).2)
  shows := sound.shows
  tasks k member := by
    rcases List.mem_cons.mp member with rfl | old
    · exact expected
    · exact sound.tasks k (List.mem_of_mem_filter old)
  calls := sound.calls
  fresh := sound.fresh
  running := sound.running

theorem newNumber (sound : Sound s) (r : Nat) (g : PipelineTarget) : Seen.mutated r g (s.generation + 1) ∉ s.trace :=
  fun member => absurd (sound.calls r g _ member).2 (by omega)

theorem newTask (sound : Sound s) : ∀ k ∈ s.tasks, k.mine ≠ s.generation + 1 :=
  fun k member => by have := (sound.tasks k member).below; omega

theorem soundClose (sound : Sound s) (due : Bool) : Sound { s.close with effectDue := due } where
  distinct := sound.distinct
  shows shown seen := by
    rcases seen with held | rendered
    · cases held
    · exact backedLater (sound.shows shown (Or.inr rendered)) (Nat.le_succ _) (List.Subset.refl _)
  tasks t member := expectedLater (sound.tasks t member) (Nat.le_succ _) (List.Subset.refl _) (fun _ _ inside => inside)
  calls r g c member := ⟨(sound.calls r g c member).1,Nat.le_succ_of_le (sound.calls r g c member).2⟩
  fresh shown held := by cases held
  running r g member := absurd member (newNumber sound r g)

theorem soundStart (sound : Sound s) (c : Controller) (action : PipelineAction) (path : Str) :
    Sound (s.start c action path) := by
  cases project : c.project with
  | none => simpa only [State.start,project] using sound
  | some name =>
    simp only [State.start,project]
    constructor
    case distinct => exact distinctCons sound.distinct (newTask sound)
    case shows =>
      intro shown seen
      rcases seen with held | rendered
      · cases Option.some.inj held
        exact ⟨le_rfl,fun asks => absurd asks.1 (by simp [opening])⟩
      · exact backedLater (sound.shows shown (Or.inr rendered)) (Nat.le_succ _) (List.Subset.refl _)
    case tasks =>
      intro t member
      rcases List.mem_cons.mp member with rfl | old
      · exact ⟨le_rfl,fun _ => newNumber sound,by simp,by simp,by simp⟩
      · exact expectedLater (sound.tasks t old) (Nat.le_succ _) (List.Subset.refl _) (fun _ _ inside => inside)
    case calls =>
      exact fun r g c member => ⟨(sound.calls r g c member).1,Nat.le_succ_of_le (sound.calls r g c member).2⟩
    case fresh =>
      intro shown held ready
      cases Option.some.inj held
      simp [opening] at ready
    case running => exact fun r g member => absurd member (newNumber sound r g)

theorem soundConfirm (sound : Sound s) {c : Controller} {shown : Shown} (rendered : c ∈ s.rendered)
    (captured : c.run = some shown) (asks : shown.Asks) (typed : Str) : Sound (s.confirm c typed) := by
  have backed := sound.shows shown (Or.inr ⟨c,rendered,captured⟩)
  rw [confirmActs captured asks]
  constructor
  case distinct => exact distinctCons sound.distinct (newTask sound)
  case shows =>
    intro other seen
    rcases seen with held | rendered
    · cases Option.some.inj held
      exact ⟨Nat.le_succ_of_le backed.below,fun asks => absurd asks.1 (by simp)⟩
    · exact backedLater (sound.shows other (Or.inr rendered)) (Nat.le_succ _) (List.subset_cons_self _ _)
  case tasks =>
    intro t member
    rcases List.mem_cons.mp member with rfl | old
    · refine ⟨le_rfl,fun preview => absurd rfl (preview shown typed),by simp,by simp,?_⟩
      rintro other word stage
      cases stage
      exact Nat.le_succ_of_le backed.below
    · have expected := sound.tasks t old
      refine expectedLater expected (Nat.le_succ _) (List.subset_cons_self _ _) (fun r g inside => ?_)
      refine (List.mem_cons.mp inside).resolve_left (fun same => ?_)
      have number : t.mine = s.generation + 1 := (Seen.mutated.inj same).2.2
      exact absurd expected.below (by omega)
  case calls =>
    intro r g k member
    rcases List.mem_cons.mp member with new | old
    · obtain ⟨rfl,rfl,rfl⟩ := Seen.mutated.inj new
      exact ⟨Nat.lt_succ_of_le backed.below,le_rfl⟩
    · exact ⟨(sound.calls r g k old).1,Nat.le_succ_of_le (sound.calls r g k old).2⟩
  case fresh =>
    intro other held ready
    cases Option.some.inj held
    simp at ready
  case running => exact fun _ _ _ _ => ⟨_,rfl,rfl⟩

theorem soundFill (sound : Sound s) {mine : Nat} {shown : Shown}
    (backed : s.generation = mine → Backed s.generation s.trace shown)
    (fresh : s.generation = mine → shown.run.phase = .ready → ∀ g c, Seen.mutated shown.started g c ∉ s.trace)
    (idle : s.generation = mine → ∀ r g, .mutated r g mine ∈ s.trace → .settled mine ∈ s.trace) :
    Sound (s.fill mine shown) := by
  unfold State.fill
  split
  case isFalse => exact sound
  case isTrue current =>
    constructor
    case distinct => exact sound.distinct
    case shows =>
      intro other seen
      rcases seen with held | rendered
      · cases Option.some.inj held
        exact backed current
      · exact sound.shows other (Or.inr rendered)
    case tasks => exact sound.tasks
    case calls => exact sound.calls
    case fresh =>
      intro other held
      cases Option.some.inj held
      exact fresh current
    case running =>
      intro r g member unsettled
      subst current
      exact absurd (idle rfl r g member) unsettled

theorem soundFinish (sound : Sound s) {t : Task} {next : PipelineRun} (expected : Expected s.generation s.trace t)
    (preview : ∀ shown typed, t.stage ≠ .mutation shown typed)
    (asks : Shown.Asks ⟨next,t.mine⟩ → .checked t.mine next.target (checkFor next.target) 0 ∈ s.trace) : Sound (s.finish t next) := by
  refine soundFill (soundDrop sound t.mine) (fun _ => ⟨expected.below,asks⟩) ?_ ?_
  · intro current _ g c member
    have := sound.calls _ g c member
    have number : s.generation = t.mine := current
    simp only at this
    omega
  · exact fun _ r g member => absurd member (expected.apart preview r g)

theorem soundFailed (sound : Sound s) {t : Task} (expected : Expected s.generation s.trace t)
    (preview : ∀ shown typed, t.stage ≠ .mutation shown typed) (failure : Failure) : Sound (s.previewFailed t failure) :=
  soundFinish sound expected preview (fun asks => absurd asks.1 (by simp))

theorem soundBinding (sound : Sound s) {t : Task} (expected : Expected s.generation s.trace t) (stage : t.stage = .binding)
    (reply : Answer Binding) : Sound (s.resumeBinding t reply) := by
  have preview : ∀ shown typed, t.stage ≠ .mutation shown typed := by simp [stage]
  cases reply with
  | error failure => exact soundFailed sound expected preview failure
  | ok binding =>
    refine soundAdvance sound ⟨expected.below,fun _ => expected.apart preview,?_,?_,?_⟩
    · intro b r next; split at next <;> cases next
    · intro b next
      split at next
      · assumption
      · cases next
    · intro shown typed next; split at next <;> cases next

theorem soundChecked (sound : Sound s) {t : Task} {binding : Binding} (expected : Expected s.generation s.trace t)
    (stage : t.stage = .check binding) (checked : CheckResult) : Sound (s.resumeChecked t binding checked) := by
  have preview : ∀ shown typed, t.stage ≠ .mutation shown typed := by simp [stage]
  have saw : Sound (s.saw (.checked t.mine t.target (checkFor t.target) checked.exitCode)) := soundSaw sound (by simp)
  have still : Expected s.generation (.checked t.mine t.target (checkFor t.target) checked.exitCode :: s.trace) t :=
    expectedLater expected le_rfl (List.subset_cons_self _ _) (fun r g inside =>
      (List.mem_cons.mp inside).resolve_left (by simp))
  simp only [State.resumeChecked]
  by_cases blocked : blocks checked
  · rw [if_pos blocked]
    exact soundFinish saw still preview (fun asks => absurd asks.1 (by simp))
  · have zero : checked.exitCode = 0 := by simpa [blocks] using blocked
    have seen : .checked t.mine t.target (checkFor t.target) 0 ∈ (s.saw (.checked t.mine t.target (checkFor t.target) checked.exitCode)).trace := by
      simp [State.saw,zero]
    rw [if_neg blocked]
    by_cases delete : t.target.action = .delete
    · rw [if_pos delete]
      exact soundFinish saw still preview (fun _ => seen)
    · rw [if_neg delete]
      exact soundAdvance saw ⟨still.below,fun _ => still.apart preview,fun _ _ _ => seen,by simp,by simp⟩

theorem soundMutation (sound : Sound s) {t : Task} {shown : Shown} {typed : Str}
    (expected : Expected s.generation s.trace t) (stage : t.stage = .mutation shown typed) (reply : Answer CheckResult) :
    Sound (s.resumeMutation t shown reply) := by
  have saw : Sound (s.saw (.settled t.mine)) := soundSaw sound (by simp)
  refine soundFill (soundRecord (soundDrop saw t.mine) _ _) (fun _ => ⟨expected.opened shown typed stage,?_⟩) ?_ ?_
  · intro asks
    cases reply <;> exact absurd asks.1 (by simp)
  · intro _ ready
    cases reply <;> simp at ready
  · exact fun _ _ _ _ => List.mem_cons_self

theorem soundResult (sound : Sound s) {t : Task} (expected : Expected s.generation s.trace t) (reply : Answer CheckResult) :
    Sound (s.resumeResult t reply) := by
  cases stage : t.stage with
  | binding => simpa only [State.resumeResult,stage] using sound
  | mutation shown typed =>
    simpa only [State.resumeResult,stage] using soundMutation sound expected stage reply
  | check binding =>
    cases reply with
    | error failure => simpa only [State.resumeResult,stage] using soundFailed sound expected (by simp [stage]) failure
    | ok checked => simpa only [State.resumeResult,stage] using soundChecked sound expected stage checked
  | diffOnly binding =>
    have plain := expected.plain binding stage
    cases reply with
    | error failure => simpa only [State.resumeResult,stage] using soundFailed sound expected (by simp [stage]) failure
    | ok diff =>
      simpa only [State.resumeResult,stage] using
        soundFinish sound expected (by simp [stage]) (fun asks => absurd plain asks.2)
  | diff binding checked =>
    have seen := expected.checked binding checked stage
    cases reply with
    | error failure => simpa only [State.resumeResult,stage] using soundFailed sound expected (by simp [stage]) failure
    | ok diff =>
      simpa only [State.resumeResult,stage] using soundFinish sound expected (by simp [stage]) (fun _ => seen)

theorem soundStep {e : Event} (sound : Sound s) (taken : step s e = some u) : Sound u := by
  cases stepTook taken with
  | render => exact soundRerender sound s.project s.effectDue
  | setProject project => exact soundRerender sound project _
  | effect due => exact soundClose sound false
  | start rendered action path => exact soundStart sound _ action path
  | idle idle typed => exact sound
  | confirm rendered captured asks typed => exact soundConfirm sound rendered captured asks typed
  | close => exact soundClose sound s.effectDue
  | binding member stage reply => exact soundBinding sound (sound.tasks _ member) stage reply
  | result member stage reply => exact soundResult sound (sound.tasks _ member) reply

end Steps

theorem soundMounted (project : Option Str) : Sound (mounted project) where
  distinct := by simp [mounted]
  shows shown seen := by simp [Shows,mounted] at seen
  tasks := by simp [mounted]
  calls := by simp [mounted]
  fresh := by simp [mounted]
  running := by simp [mounted]

def PreviewedFirst (x : Seen) (earlier : List Seen) : Prop :=
  ∀ r g c, x = .mutated r g c → g.action ≠ .diff ∧ .checked r g (checkFor g) 0 ∈ earlier

def OncePerRun (x : Seen) (earlier : List Seen) : Prop :=
  ∀ r g c, x = .mutated r g c → ∀ h k, Seen.mutated r h k ∉ earlier

def Alone (x : Seen) (earlier : List Seen) : Prop :=
  ∀ r g c, x = .mutated r g c → ∀ q h k, .mutated q h k ∈ earlier → .settled k ∈ earlier

/-- A confirmation that acts is made through the run the hook holds, and every
mutation still unanswered is that of the hook's last number: no run was closed,
replaced or switched away from while it was running. -/
def calm (s : State) : Event → Prop
  | .confirm c _ => ∀ shown, c.run = some shown → shown.Asks → s.run = some shown ∧
      ∀ r g k, .mutated r g k ∈ s.trace → .settled k ∉ s.trace → k = s.generation
  | _ => True

theorem fillTrace (s : State) (mine : Nat) (shown : Shown) : (s.fill mine shown).trace = s.trace := by
  unfold State.fill
  split <;> rfl

theorem finishTrace (s : State) (t : Task) (next : PipelineRun) : (s.finish t next).trace = s.trace := fillTrace _ _ _

theorem bindingTrace (s : State) (t : Task) (reply : Answer Binding) : (s.resumeBinding t reply).trace = s.trace := by
  cases reply with
  | error failure => exact finishTrace s t _
  | ok binding => rfl

theorem resultTrace (s : State) (t : Task) (reply : Answer CheckResult) :
    (s.resumeResult t reply).trace = s.trace ∨
      ∃ x, (s.resumeResult t reply).trace = x :: s.trace ∧ ∀ r g c, x ≠ .mutated r g c := by
  cases stage : t.stage with
  | binding => exact Or.inl (by simp only [State.resumeResult,stage])
  | mutation shown typed =>
    refine Or.inr ⟨.settled t.mine,?_,by simp⟩
    simp only [State.resumeResult,stage,State.resumeMutation,fillTrace]
    rfl
  | diffOnly binding =>
    cases reply <;> exact Or.inl (by simp only [State.resumeResult,stage,State.previewFailed,finishTrace])
  | diff binding checked =>
    cases reply <;> exact Or.inl (by simp only [State.resumeResult,stage,State.previewFailed,finishTrace])
  | check binding =>
    cases reply with
    | error failure => exact Or.inl (by simp only [State.resumeResult,stage,State.previewFailed,finishTrace])
    | ok checked =>
      refine Or.inr ⟨.checked t.mine t.target (checkFor t.target) checked.exitCode,?_,by simp⟩
      simp only [State.resumeResult,stage,State.resumeChecked]
      split
      · exact finishTrace _ t _
      · split
        · exact finishTrace _ t _
        · rfl

theorem stepTrace {s u : State} {e : Event} (taken : step s e = some u) :
    (u.trace = s.trace ∨ ∃ x, u.trace = x :: s.trace ∧ ∀ r g c, x ≠ .mutated r g c) ∨
      ∃ c typed shown, e = .confirm c typed ∧ c ∈ s.rendered ∧ c.run = some shown ∧ shown.Asks ∧
        u.trace = .mutated shown.started shown.run.target (s.generation + 1) :: s.trace := by
  cases stepTook taken with
  | render => exact Or.inl (Or.inl rfl)
  | setProject project => exact Or.inl (Or.inl rfl)
  | effect due => exact Or.inl (Or.inl rfl)
  | start rendered action path => exact Or.inl (Or.inl (by unfold State.start; split <;> rfl))
  | idle idle typed => exact Or.inl (Or.inl rfl)
  | confirm rendered captured asks typed =>
    exact Or.inr ⟨_,typed,_,rfl,rendered,captured,asks,by rw [confirmActs captured asks]⟩
  | close => exact Or.inl (Or.inl rfl)
  | binding member stage reply => exact Or.inl (Or.inl (bindingTrace s _ reply))
  | result member stage reply => exact Or.inl (resultTrace s _ reply)

theorem precededStep {before : Seen → List Seen → Prop} {s u : State} {e : Event}
    (others : ∀ x earlier, (∀ r g c, x ≠ .mutated r g c) → before x earlier)
    (issued : ∀ c typed shown, e = .confirm c typed → c ∈ s.rendered → c.run = some shown → shown.Asks →
      before (.mutated shown.started shown.run.target (s.generation + 1)) s.trace)
    (kept : Preceded before s.trace) (taken : step s e = some u) : Preceded before u.trace := by
  rcases stepTrace taken with (same | ⟨x,new,other⟩) | ⟨c,typed,shown,event,rendered,captured,asks,new⟩
  · exact same ▸ kept
  · exact new ▸ precededCons (others x s.trace other) kept
  · exact new ▸ precededCons (issued c typed shown event rendered captured asks) kept

theorem previewedStep {s u : State} {e : Event} (sound : Sound s) (kept : Preceded PreviewedFirst s.trace)
    (taken : step s e = some u) : Preceded PreviewedFirst u.trace := by
  refine precededStep (fun x _ other r g c same => absurd same (other r g c)) ?_ kept taken
  rintro c typed shown _ rendered captured asks r g k same
  obtain ⟨rfl,rfl,_⟩ := Seen.mutated.inj same
  exact ⟨asks.2,(sound.shows shown (Or.inr ⟨c,rendered,captured⟩)).previewed asks⟩

theorem onceStep {s u : State} {e : Event} (sound : Sound s) (allowed : calm s e)
    (kept : Preceded OncePerRun s.trace) (taken : step s e = some u) : Preceded OncePerRun u.trace := by
  refine precededStep (fun x _ other r g c same => absurd same (other r g c)) ?_ kept taken
  rintro c typed shown rfl _ captured asks r g k same
  obtain ⟨rfl,rfl,_⟩ := Seen.mutated.inj same
  exact sound.fresh shown (allowed shown captured asks).1 asks.1

theorem aloneStep {s u : State} {e : Event} (sound : Sound s) (allowed : calm s e)
    (kept : Preceded Alone s.trace) (taken : step s e = some u) : Preceded Alone u.trace := by
  refine precededStep (fun x _ other r g c same => absurd same (other r g c)) ?_ kept taken
  rintro c typed shown rfl _ captured asks _ _ _ _ q h k earlier
  obtain ⟨held,last⟩ := allowed shown captured asks
  by_contra unsettled
  -- the last mutation is unanswered, so the run held is running and asks nothing
  obtain rfl := last q h k earlier unsettled
  obtain ⟨other,run,phase⟩ := sound.running q h earlier unsettled
  cases Option.some.inj (held.symm.trans run)
  rw [asks.1] at phase
  contradiction

/-- Every mutation was previewed; and in the runs whose confirmations are calm each
run of the pipeline mutates once, and never while a mutation is in flight. -/
theorem pipelineSequenced (project : Option Str) :
    (∀ es s, Run step anyStep (mounted project) es s → Preceded PreviewedFirst s.trace) ∧
      ∀ es s, Run step calm (mounted project) es s →
        Preceded PreviewedFirst s.trace ∧ Preceded OncePerRun s.trace ∧ Preceded Alone s.trace := by
  have previewed : ∀ es s, Run step anyStep (mounted project) es s → Sound s ∧ Preceded PreviewedFirst s.trace :=
    fun es s run => run.invariant (I := fun s => Sound s ∧ Preceded PreviewedFirst s.trace)
      ⟨soundMounted project,precededNil⟩
      (fun s e u kept _ taken => ⟨soundStep kept.1 taken,previewedStep kept.1 kept.2 taken⟩)
  refine ⟨fun es s run => (previewed es s run).2,fun es s run => ⟨?_,?_⟩⟩
  · exact (previewed es s (run.weaken (fun _ _ _ => trivial))).2
  · have kept := run.invariant (I := fun s => Sound s ∧ Preceded OncePerRun s.trace ∧ Preceded Alone s.trace)
      ⟨soundMounted project,precededNil,precededNil⟩
      (fun s e u kept allowed taken => ⟨soundStep kept.1 taken,onceStep kept.1 allowed kept.2.1 taken,
        aloneStep kept.1 allowed kept.2.2 taken⟩)
    exact kept.2

def infraProject : Str := "infra".toList
def applyDeploy : PipelineTarget := ⟨infraProject,"prod/deploy.yaml".toList,.apply⟩
def prodBinding : Binding := ⟨"prod-us-west".toList,"api".toList,false,"prod".toList⟩
def succeeded : CheckResult := ⟨[],0,[],[]⟩

def readyRun : PipelineRun := { opening applyDeploy with
  phase := .ready, binding := prodBinding, preview := some succeeded, diff := some succeeded }
def dialog : Controller := ⟨some infraProject,some ⟨readyRun,2⟩⟩

def previewed : List Event :=
  [.effect,.start ⟨some infraProject,none⟩ .apply applyDeploy.path,.bindingAnswered 2 (.ok prodBinding),
    .resultAnswered 2 (.ok succeeded),.resultAnswered 2 (.ok succeeded),.render]

theorem pressedOnce :
    ∃ s, Run step calm (mounted (some infraProject)) (previewed ++ [.confirm dialog []]) s ∧
      s.trace = [.mutated 2 applyDeploy 3,.checked 2 applyDeploy .validate 0] ∧ Preceded OncePerRun s.trace := by
  have seen : (exec step (mounted (some infraProject)) previewed).map
      (fun s => (s.trace,s.run,s.rendered.head?,s.generation)) =
      some ([.checked 2 applyDeploy .validate 0],some ⟨readyRun,2⟩,some dialog,2) := by decide
  obtain ⟨s,done,shape⟩ := Option.map_eq_some_iff.mp seen
  simp only [Prod.mk.injEq] at shape
  obtain ⟨trace,held,first,generation⟩ := shape
  have quiet : ∀ e ∈ previewed, ∀ s, calm s e := by
    intro e member s
    simp only [previewed,List.mem_cons,List.not_mem_nil,or_false] at member
    rcases member with rfl | rfl | rfl | rfl | rfl | rfl <;> trivial
  have allowed : calm s (.confirm dialog []) := by
    intro shown captured _
    refine ⟨held.trans captured,fun r g k issued => ?_⟩
    simp [trace] at issued
  have pressed : step s (.confirm dialog []) = some (s.confirm dialog []) :=
    if_pos (List.mem_of_head? first)
  have run := Run.snoc ((runOfExec done).allowing quiet) allowed pressed
  refine ⟨_,run,?_,((pipelineSequenced (some infraProject)).2 _ _ run).2.1⟩
  rw [confirmActs (rfl : dialog.run = some ⟨readyRun,2⟩) ⟨rfl,by decide⟩,generation,trace]
  rfl

theorem pressedTwice :
    ∃ s, Run step anyStep (mounted (some infraProject)) (previewed ++ [.confirm dialog [],.confirm dialog []]) s ∧
      s.trace = [.mutated 2 applyDeploy 4,.mutated 2 applyDeploy 3,.checked 2 applyDeploy .validate 0] ∧
      ¬ Preceded OncePerRun s.trace ∧ ¬ Preceded Alone s.trace := by
  have seen : (exec step (mounted (some infraProject)) (previewed ++ [.confirm dialog [],.confirm dialog []])).map
      State.trace = some [.mutated 2 applyDeploy 4,.mutated 2 applyDeploy 3,.checked 2 applyDeploy .validate 0] := by
    decide
  obtain ⟨s,done,trace⟩ := Option.map_eq_some_iff.mp seen
  refine ⟨s,runOfExec done,trace,fun once => ?_,fun alone => ?_⟩
  · exact once [] _ _ trace 2 applyDeploy 4 rfl applyDeploy 3 (by simp)
  · have settled := alone [] _ _ trace 2 applyDeploy 4 rfl 2 applyDeploy 3 (by simp)
    simp at settled

end M6t.PipelineRuns
