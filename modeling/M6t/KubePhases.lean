import M6t.KubeRows

/-! When a kubewatch session says that it is watching. The cycle records the phase
before it starts the goroutines that list. -/
namespace M6t.KubePhases
open M6t.Text M6t.Runs M6t.Declared M6t.KubePlan M6t.KubeSession M6t.KubeRows

variable {β : Type} {compute : Live β → Verdict} {key : SessionKey} {s t : State β} {e : Event β} {es : List (Event β)}

/-- While the phase is Watching, every group of the plan has had its list applied or its refusal recorded. -/
def Watched (key : SessionKey) (s : State β) : Prop :=
  s.phase = .watching → ∀ g ∈ (plan s.mapper s.planned key.ns).2,
    ∃ w ∈ s.workers, w.cycle = s.cycle ∧ w.group = g ∧ w.listed = true

def Unserved (key : SessionKey) (s : State β) : Prop := ∀ declared ∈ s.planned, keyOf s.mapper key.ns declared = none
instance : Decidable (Unserved key s) := inferInstanceAs (Decidable (∀ declared ∈ s.planned, _))

/-- The phase becomes Watching for a plan without a group only. -/
def groupless (key : SessionKey) (s : State β) : Event β → Prop
  | .loop .phase => match s.loop with
    | .seeded _ => Unserved key s
    | _ => True
  | _ => True

instance (s : State β) (e : Event β) : Decidable (groupless key s e) := by
  unfold groupless
  split
  · split <;> infer_instance
  · infer_instance

def planning : Loop → Bool
  | .connecting _ | .connected .. | .seeded _ => true
  | _ => false

def unstarted : Loop → Bool
  | .seeded _ | .watching _ => true
  | _ => false

structure Placed (s : State β) : Prop where
  phase : planning s.loop = true → s.phase = .connecting
  workers : unstarted s.loop = true → ∀ w ∈ s.workers, w.cycle = s.cycle → w.stage = .planned ∧ w.history = []

theorem Placed.framed (placed : Placed s) (same : (t.workers,t.cycle) = (s.workers,s.cycle))
    (phase : planning t.loop = true → t.phase = .connecting) (place : unstarted t.loop = true → unstarted s.loop = true) :
    Placed t := by
  obtain ⟨workers,cycle⟩ := Prod.mk.inj same
  refine ⟨phase,?_⟩
  rw [workers,cycle]
  exact fun here => placed.workers (place here)

theorem placedElsewhere (phase : planning t.loop = false) (workers : unstarted t.loop = false) : Placed t where
  phase here := absurd here (by simp [phase])
  workers here := absurd here (by simp [workers])

theorem Placed.working (placed : Placed s) (phase : t.phase = s.phase) (loop : t.loop = s.loop) (sound : Sound compute key s)
    {i : Nat} {w : Worker β} (at_ : s.workers[i]? = some w) (running : w.stage ≠ .returned ∧ w.stage ≠ .planned) : Placed t := by
  refine ⟨by rw [phase,loop]; exact placed.phase,fun here => ?_⟩
  rw [loop] at here
  have member := List.mem_of_getElem? at_
  exact absurd (placed.workers here w member (sound.active member running.1).1).1 running.2

theorem newPlaced : Placed (newSession β) := placedElsewhere rfl rfl

theorem turnPlanning {act : LoopAct} {place : Loop} (turned : Turn key s act place) (here : planning place = true) :
    planning s.loop = true := by
  cases turned with
  | reached at_ => rw [at_]; rfl
  | _ => cases here

theorem turnStarted {act : LoopAct} {place : Loop} (turned : Turn key s act place) : unstarted place = false := by
  cases turned <;> rfl

theorem Placed.seeded (placed : Placed s) (sound : Sound compute key s) {objects : List Object} {mapper : RESTMapper}
    (here : s.loop = .connected objects mapper) : Placed { s.seed key objects mapper with loop := .seeded objects } where
  phase _ := placed.phase (by rw [here]; rfl)
  workers := by
    intro _ w member now
    rcases List.mem_append.mp member with old | fresh
    · exact absurd now (Nat.ne_of_lt (Nat.lt_succ_of_le (sound.dated w old)))
    · obtain ⟨g,_,rfl⟩ := List.mem_map.mp fresh
      exact ⟨rfl,rfl⟩

theorem Placed.step (placed : Placed s) (sound : Sound compute key s) (taken : step compute key s e = some t) : Placed t := by
  cases stepMoves taken with
  | replan => exact placed.framed rfl placed.phase id
  | stop => exact placed.framed rfl placed.phase id
  | turn settled turned =>
    refine placed.framed rfl (fun here => placed.phase (turnPlanning turned here)) (fun here => ?_)
    exact absurd here (by simp [turnStarted turned])
  | notice settled here => exact placedElsewhere rfl rfl
  | renotice settled here => exact placedElsewhere rfl rfl
  | park settled here => exact placedElsewhere rfl rfl
  | connect settled here some_ => exact placed.framed rfl (fun _ => rfl) (fun at_ => by cases at_)
  | watch settled here => exact placed.framed rfl (fun at_ => by cases at_) (fun _ => by rw [here]; rfl)
  | fail settled here => exact placedElsewhere rfl rfl
  | clear settled here => exact placedElsewhere rfl rfl
  | seed settled here => exact placed.seeded sound here
  | follow settled here => exact placedElsewhere rfl rfl
  | rebuild settled here asked => exact placedElsewhere rfl rfl
  | consume settled here asked => exact placedElsewhere rfl rfl
  | failed settled here sent => exact placedElsewhere rfl rfl
  | signal owed => exact placed.framed rfl placed.phase id
  | observe at_ next idle whole => exact placed.working rfl rfl sound at_ (nextRunning next).1
  | mark at_ todo settled =>
    have member := List.mem_of_getElem? at_
    exact placed.working rfl rfl sound at_ (sound.running member (by simp [Worker.idle,todo]))
  | workSignal at_ owed =>
    have member := List.mem_of_getElem? at_
    exact placed.working rfl rfl sound at_ (sound.running member (by simp [Worker.idle,owed]))
  | workFail at_ idle going =>
    refine placed.working rfl rfl sound at_ ?_
    rcases going with here | here | ⟨here,_⟩ <;> simp [here]
  | take here set_ => exact placed.framed rfl placed.phase id
  | publish here => exact placed.framed rfl placed.phase id
  | rest here => exact placed.framed rfl placed.phase id
  | quit stopped here => exact placed.framed rfl placed.phase id

theorem unservedGroups (none_ : Unserved key s) : (plan s.mapper s.planned key.ns).2 = [] := by
  refine List.eq_nil_iff_forall_not_mem.mpr (fun g member => ?_)
  obtain ⟨declared,listed,keyed⟩ := planKept member
  exact absurd keyed (by simp [none_ declared listed])

theorem watchUnlisted (placed : Placed s) {objects : List Object} (here : s.loop = .seeded objects)
    (watched : Watched key { s.setPhase .watching [] with loop := .watching objects }) : Unserved key s := by
  intro declared listed
  cases keyed : keyOf s.mapper key.ns declared with
  | none => rfl
  | some group =>
    obtain ⟨i,at_⟩ := List.mem_iff_getElem?.mp listed
    obtain ⟨g,planned,_⟩ := planServed at_ keyed
    obtain ⟨w,member,now,_,done⟩ := watched rfl g planned
    obtain ⟨_,silent⟩ := placed.workers (by rw [here]; rfl) w member now
    simp [Worker.listed,silent] at done

theorem calmStep (calm : s.phase = .watching → Unserved key s) (placed : Placed s) (met : groupless key s e)
    (taken : step compute key s e = some t) : t.phase = .watching → Unserved key t := by
  cases stepMoves taken with
  | park | connect => exact fun impossible => by cases impossible
  | fail =>
    intro impossible
    simp only [State.setPhase,phaseFor] at impossible
    split at impossible <;> cases impossible
  | watch settled here =>
    have unserved : Unserved key s := by simpa only [groupless,here] using met
    exact fun _ => unserved
  | clear => exact fun _ declared listed => by cases listed
  | seed settled here =>
    intro watching
    have connecting := placed.phase (by rw [here]; rfl)
    exact absurd (connecting.symm.trans watching) (by decide)
  | _ => exact calm

theorem runPlaced {allowed : State β → Event β → Prop} (run : Run (step compute key) allowed (newSession β) es s) :
    Sound compute key s ∧ Placed s :=
  run.invariant (I := fun s => Sound compute key s ∧ Placed s) ⟨newSound,newPlaced⟩
    (fun _ _ _ both _ taken => ⟨both.1.step taken,both.2.step both.1 taken⟩)

theorem runCalm (run : Run (step compute key) (groupless key) (newSession β) es s) : s.phase = .watching → Unserved key s := by
  induction run with
  | nil => exact fun impossible => by cases impossible
  | snoc before met taken calm => exact calmStep calm (runPlaced before).2 met taken

theorem watchingListedIff (run : Run (step compute key) anyStep (newSession β) es s) :
    (∀ before later t, es = before ++ later → Run (step compute key) anyStep (newSession β) before t → Watched key t) ↔
      Run (step compute key) (groupless key) (newSession β) es s := by
  constructor
  · intro listed
    induction run with
    | nil => exact .nil
    | @snoc es s e t before ok taken ih =>
      have calm := ih (fun first later u same => listed first (later ++ [e]) u (by rw [same,List.append_assoc]))
      refine .snoc calm ?_ taken
      have watched := listed (es ++ [e]) [] t (by simp) (.snoc before ok taken)
      cases stepMoves taken with
      | watch settled here =>
        simp only [groupless,here]
        exact watchUnlisted (runPlaced before).2 here watched
      | park settled here => simp only [groupless,here]
      | connect settled here => simp only [groupless,here]
      | fail settled here => simp only [groupless,here]
      | turn settled turned => cases turned <;> trivial
      | _ => trivial
  · intro calm first later t same reached watching
    subst same
    obtain ⟨u,front⟩ := calm.front
    obtain rfl := front.same reached
    rw [unservedGroups (runCalm front watching)]
    exact fun g member => by cases member

def nothingServed : List (Event Unit) :=
  [.loop .check,.loop .declare,.loop (.answer (.ok ([⟨['v','1'],['C'],[],['c'],['a']⟩],[]))),.loop .notices,.loop .signal,
    .loop .phase,.loop (.connect (.ok onlyDeployments)),.loop .seed,.loop .signal,.loop .phase,.loop .signal,.loop .follow]

theorem nothingServedWatched : ∃ s, Run (step allCurrent prod) anyStep (newSession Unit) nothingServed s ∧
    s.phase = .watching ∧ Watched prod s := by
  have ends : (exec (guarded (step allCurrent prod) (groupless prod)) (newSession Unit) nothingServed).map State.phase =
      some .watching := by decide +kernel
  obtain ⟨s,done,seen⟩ := Option.map_eq_some_iff.mp ends
  have calm := runOfGuarded done
  have run := calm.weaken (fun _ _ _ => trivial)
  exact ⟨s,run,seen,(watchingListedIff run).mpr calm nothingServed [] s (by simp) run⟩

def startedWatching : List (Event Unit) :=
  [.loop .check,.loop .declare,.loop (.answer (.ok ([deployment ['a']],[]))),.loop .notices,.loop .signal,
    .loop .phase,.loop (.connect (.ok onlyDeployments)),.loop .seed,.loop .signal,.loop .phase,.loop .signal,.loop .follow]

theorem startedUnlisted : ∃ s, Run (step allCurrent prod) anyStep (newSession Unit) startedWatching s ∧ ¬Watched prod s := by
  have ends : (exec (step allCurrent prod) (newSession Unit) startedWatching).map
      (fun s => (s.phase,s.workers.map Worker.listed,(plan s.mapper s.planned prod.ns).2.length)) =
      some (.watching,[false],1) := by decide +kernel
  obtain ⟨s,done,seen⟩ := Option.map_eq_some_iff.mp ends
  simp only [Prod.mk.injEq] at seen
  obtain ⟨phase,listed,groups⟩ := seen
  refine ⟨s,runOfExec done,fun watched => ?_⟩
  obtain ⟨g,rest⟩ := List.exists_mem_of_length_pos (groups ▸ Nat.one_pos)
  obtain ⟨w,member,_,_,done_⟩ := watched phase g rest
  have inside := List.mem_map_of_mem (f := Worker.listed) member
  rw [listed,done_] at inside
  simp at inside

end M6t.KubePhases
