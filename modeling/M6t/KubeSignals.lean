import M6t.KubeSession

/-! The two signals of a kubewatch session, each a channel of one place written
without blocking. Neither a request to read the checkout again nor a change of what the
session shows is lost between its signal and the goroutine it is for. -/
namespace M6t.KubeSignals
open M6t.Text M6t.Runs M6t.Declared M6t.KubePlan M6t.KubeSession

variable {β : Type} {compute : Live β → Verdict} {key : SessionKey} {s t : State β} {e : Event β} {es : List (Event β)}

def shown (s : State β) : Phase × Str × List Notice × List Status := (s.phase,s.reason,s.notices,s.objects)

def ring : Event β → Event β
  | .work i _ => .work i .signal
  | _ => .loop .signal

/-- The goroutine that took the step has changed something and not signalled yet. -/
def owing (s : State β) : Event β → Bool
  | .work i _ => (s.workers[i]?.map Worker.owes).getD false
  | _ => s.owes

def rings : Event β → Bool
  | .loop .signal | .work _ .signal => true
  | _ => false

structure Heeded (compute : Live β → Verdict) (key : SessionKey) (es : List (Event β)) (s : State β) : Prop where
  read : s.replanned = false → (s.loop = .parked ∨ ∃ planned, s.loop = .following planned) →
    ∀ earlier later, es = earlier ++ .replan :: later → .loop .declare ∈ later
  published : s.dirty = false → s.announcer = .waiting →
    ∀ earlier e later before after, es = earlier ++ e :: later → Run (step compute key) anyStep (newSession β) earlier before →
      step compute key before e = some after → shown after ≠ shown before →
        .announce .publish ∈ later ∨ ring e ∉ later ∧ owing s e = true

/-- The loop begins to read what is declared before it waits again, if it does. -/
def due : Loop → Bool
  | .top | .waiting | .superseding _ | .stopping _ | .returned _ | .failing _ | .ended => true
  | _ => false

def isReplan : Event β → Prop
  | .replan => True
  | _ => False

def Asked (es : List (Event β)) (s : State β) : Prop :=
  s.replanned = true ∨ Answered isReplan (.loop .declare) es ∨ due s.loop = true

theorem Asked.kept (asked : Asked es s) (silent : ¬isReplan e) (token : s.replanned = true → t.replanned = true)
    (place : due s.loop = true → due t.loop = true) : Asked (es ++ [e]) t :=
  asked.imp token (Or.imp (fun answered => answered.snoc silent) place)

theorem turnDue {act : LoopAct} {place : Loop} (turned : Turn key s act place) (here : due s.loop = true) :
    due place = true ∨ act = .declare := by
  cases turned with
  | declare | redeclare => exact .inr rfl
  | read at_ | reread at_ | reached at_ | same at_ => rw [at_] at here; cases here
  | _ => exact .inl rfl

theorem askedStep (asked : Asked es s) (taken : step compute key s e = some t) : Asked (es ++ [e]) t := by
  cases stepMoves taken with
  | replan => exact .inl rfl
  | @turn act place settled turned =>
    by_cases reads : act = .declare
    · subst reads
      exact .inr (.inl (answeredNow (by simp [isReplan])))
    · exact asked.kept (by simp [isReplan]) id (fun here => (turnDue turned here).resolve_right reads)
  | notice settled here | renotice settled here | park settled here | connect settled here | watch settled here
  | clear settled here | seed settled here | follow settled here =>
    exact asked.kept (by simp [isReplan]) id (fun late => by rw [here] at late; cases late)
  | fail => exact asked.kept (by simp [isReplan]) id (fun _ => rfl)
  | rebuild | consume => exact .inr (.inr rfl)
  | failed settled here => exact asked.kept (by simp [isReplan]) id (fun late => by rw [here] at late; cases late)
  | _ => exact asked.kept (by simp [isReplan]) id id

def Notified (es : List (Event β)) (s : State β) : Prop :=
  s.dirty = true ∨ s.announcer = .taken ∨ Answered (fun e => rings e = true) (.announce .publish) es

theorem Notified.kept (notified : Notified es s) (silent : rings e ≠ true) (token : s.dirty = true → t.dirty = true)
    (place : s.announcer = .taken → t.announcer = .taken) : Notified (es ++ [e]) t :=
  notified.imp token (Or.imp place (fun answered => answered.snoc silent))

theorem notifiedStep (notified : Notified es s) (taken : step compute key s e = some t) : Notified (es ++ [e]) t := by
  cases stepMoves taken with
  | signal | workSignal => exact .inl rfl
  | take => exact .inr (.inl rfl)
  | publish => exact .inr (.inr (answeredNow (by simp [rings])))
  | rest here => exact notified.kept (by simp [rings]) id (fun taken => by rw [here] at taken; cases taken)
  | quit stopped here =>
    refine notified.kept (by simp [rings]) id (fun taken => ?_)
    rcases here with here | here <;> rw [here] at taken <;> cases taken
  | turn settled turned =>
    refine notified.kept ?_ id id
    cases turned <;> simp [rings]
  | _ => exact notified.kept (by simp [rings]) id id

theorem markShown {i : Nat} {w : Worker β} {m : Mark} {rest : List Mark} (at_ : s.workers[i]? = some w)
    (changed : shown (s.mark i w m rest) ≠ shown s) : owing (s.mark i w m rest) (.work i .mark : Event β) = true := by
  have inside := (List.getElem?_eq_some_iff.mp at_).1
  have now : owing (s.mark i w m rest) (.work i .mark : Event β) =
      (s.objects[m.index]?.map (fun row => decide (row.verdict ≠ m.verdict))).getD false := by
    simp [owing,State.mark,inside]
  rw [now]
  by_contra quiet
  refine changed (congrArg (fun objects => (s.phase,s.reason,s.notices,objects)) ?_)
  refine List.ext_getElem? (fun k => ?_)
  simp only [State.mark,List.getElem?_modify]
  by_cases here : m.index = k
  · subst here
    cases found : s.objects[m.index]? with
    | none => rfl
    | some row =>
      have same : row.verdict = m.verdict := by simpa [found] using quiet
      simp [← same]
  · cases s.objects[k]? <;> simp [here]

theorem changeOwes (taken : step compute key s e = some t) (changed : shown t ≠ shown s) : owing t e = true := by
  cases stepMoves taken with
  | notice | renotice | clear | seed => rfl
  | park | connect | watch | fail =>
    refine decide_eq_true ?_
    by_contra same
    rw [not_or,not_not,not_not] at same
    exact changed (by simp [shown,State.setPhase,same])
  | mark at_ todo settled => exact markShown at_ changed
  | _ => exact absurd rfl changed

theorem owingWork {i : Nat} {act : WorkAct β} : owing s (.work i act) = true ↔ ∃ w, s.workers[i]? = some w ∧ w.owes = true := by
  simp only [owing]
  cases s.workers[i]? <;> simp

theorem owingKept {d : Event β} (owes : owing s e = true) (other : d ≠ ring e) (taken : step compute key s d = some t) :
    owing t e = true := by
  cases e with
  | work i act =>
    obtain ⟨w,at_,owed⟩ := owingWork.mp owes
    refine owingWork.mpr ?_
    have elsewhere : ∀ {j : Nat} {v v' : Worker β}, s.workers[j]? = some v → v.owes = false →
        ∃ w, (s.workers.set j v')[i]? = some w ∧ w.owes = true := by
      intro j v v' here settled
      refine ⟨w,?_,owed⟩
      rw [List.getElem?_set_ne ?_,at_]
      rintro rfl
      rw [Option.some.inj (here.symm.trans at_),owed] at settled
      cases settled
    have settledIdle : ∀ {v : Worker β}, v.idle = true → v.owes = false := by
      intro v idle
      simp only [Worker.idle,Bool.and_eq_true,Bool.not_eq_true'] at idle
      exact idle.2
    cases stepMoves taken with
    | observe here next idle whole => exact elsewhere here (settledIdle idle)
    | mark here todo settled => exact elsewhere here settled
    | @workSignal j v here rung =>
      refine ⟨w,?_,owed⟩
      rw [List.getElem?_set_ne (fun same => other (by rw [same]; rfl)),at_]
    | workFail here idle going => exact elsewhere here (settledIdle idle)
    | seed => exact ⟨w,by rw [← at_]; exact List.getElem?_append_left (List.getElem?_eq_some_iff.mp at_).1,owed⟩
    | follow =>
      refine ⟨_,by simp only [State.follow,List.getElem?_map,at_]; rfl,?_⟩
      dsimp only
      split <;> exact owed
    | _ => exact ⟨w,at_,owed⟩
  | _ =>
    change s.owes = true at owes
    cases stepMoves taken with
    | signal => exact absurd rfl other
    | turn settled | notice settled | renotice settled | park settled | connect settled | watch settled | fail settled
    | clear settled | seed settled | follow settled | rebuild settled | consume settled | failed settled =>
      rw [settled] at owes; cases owes
    | _ => exact owes

theorem owedSince {before after : State β} {earlier later : List (Event β)}
    (run : Run (step compute key) anyStep (newSession β) (earlier ++ e :: later) s)
    (front : Run (step compute key) anyStep (newSession β) earlier before) (taken : step compute key before e = some after)
    (changed : shown after ≠ shown before) (unrung : ring e ∉ later) : owing s e = true := by
  induction later using List.reverseRecOn generalizing s with
  | nil =>
    obtain rfl := run.same (.snoc front trivial taken)
    exact changeOwes taken changed
  | append_singleton later d ih =>
    rw [← List.cons_append,← List.append_assoc] at run
    obtain ⟨u,before,_,last⟩ := run.last
    rw [List.mem_append,List.mem_singleton,not_or] at unrung
    exact owingKept (ih before unrung.1) (Ne.symm unrung.2) last

theorem everySignalHeeded (run : Run (step compute key) anyStep (newSession β) es s) : Heeded compute key es s where
  read calm waits := by
    have asked : Asked es s := run.traced (.inr (.inr rfl)) (fun _ _ _ _ asked _ taken => askedStep asked taken)
    rcases asked with token | answered | late
    · rw [calm] at token; cases token
    · exact fun earlier later split => answered earlier .replan later split trivial
    · rcases waits with here | ⟨planned,here⟩ <;> rw [here] at late <;> cases late
  published calm waits := by
    intro earlier e later before after split front taken changed
    subst split
    have notified : Notified (earlier ++ e :: later) s :=
      run.traced (.inr (.inr answeredNil)) (fun _ _ _ _ notified _ taken => notifiedStep notified taken)
    by_cases rung : ring e ∈ later
    · obtain ⟨first,rest,rfl⟩ := List.append_of_mem rung
      rcases notified with token | busy | answered
      · rw [calm] at token; cases token
      · rw [waits] at busy; cases busy
      · have split : earlier ++ e :: (first ++ ring e :: rest) = (earlier ++ e :: first) ++ ring e :: rest := by simp
        refine .inl (List.mem_append_right _ (List.mem_cons_of_mem _ (answered _ (ring e) rest split ?_)))
        cases e <;> rfl
    · exact .inr ⟨rung,owedSince run front taken changed rung⟩

def askedAgain : List (Event Unit) :=
  [.loop .check,.loop .declare,.loop (.answer (.ok ([],[]))),.loop .notices,.loop .signal,.announce .take,.loop .phase,
    .loop .signal,.announce .publish,.loop .clear,.loop .signal,.replan,.loop .consume,.loop .leave,.loop .check,
    .loop .declare,.loop (.answer (.ok ([],[]))),.loop .notices,.loop .signal,.loop .phase,.loop .clear,.loop .signal,
    .announce .rest,.announce .take,.announce .publish,.announce .rest]

def absent : Live Unit → Verdict := fun _ => notFound

theorem askedAgainHeeded : ∃ s, Run (step absent ⟨[],[]⟩) anyStep (newSession Unit) askedAgain s ∧
    (s.replanned,s.dirty,s.announcer) = (false,false,.waiting) ∧ s.loop = .parked ∧ Heeded absent ⟨[],[]⟩ askedAgain s := by
  have done : exec (step absent ⟨[],[]⟩) (newSession Unit) askedAgain = some
      ⟨.idle,nothingDeclared,[],[],.parked,false,[],[],2,[],unplanned,false,false,false,.waiting⟩ := by
    simp only [askedAgain]
    rfl
  have run := runOfExec done
  exact ⟨_,run,rfl,rfl,everySignalHeeded run⟩

end M6t.KubeSignals
