import M6t.EventConsumers
import M6t.Outbound
import M6t.Runs

/-! One `/events` connection and the consumer at its far end: any number of
publishers in `send`, the bounded queue, the write pump and the wire. The log
holds every event as its publisher returns and every read as it begins. -/
namespace M6t.EventChannel
open M6t.EventConsumers M6t.Runs
open M6t.Outbound (outboundQueue)

structure Frame where
  envelope : Envelope
  bytes : Nat
  deriving DecidableEq, Repr

/-- Where a call of `send` is: before its first select, its second, the count
of the frame it received, its third select, or the count of its own frame. -/
inductive Stage
  | offer
  | evict
  | count (bytes : Nat)
  | retry
  | lost
  deriving DecidableEq, Repr

structure Send where
  frame : Frame
  stage : Stage
  deriving DecidableEq, Repr

inductive Message
  | resync (droppedBytes : Nat)
  | event (e : Envelope)
  deriving DecidableEq, Repr

inductive Note
  | published (e : Envelope)
  | read (x : Target)
  deriving DecidableEq, Repr

/-- `hand` is the frame the write pump has, and whether the counter has been
swapped for it. -/
structure State where
  queue : List Frame
  sends : List Send
  hand : Option (Frame × Bool)
  dropped : Nat
  wire : List Message
  consumer : Consumer
  log : List Note
  deriving DecidableEq, Repr

def subscribed (c : Consumer) : State := ⟨[],[],none,0,[],c,[]⟩

inductive Event
  | publish (e : Envelope) (bytes : Nat)
  | send (i : Nat)
  | take
  | mark
  | write
  | handle
  | act (a : Action)
  deriving DecidableEq, Repr

def enqueue (s : State) (i : Nat) (f : Frame) : State :=
  { s with queue := s.queue ++ [f], sends := s.sends.eraseIdx i, log := s.log ++ [.published f.envelope] }

def sending (s : State) (i : Nat) (call : Send) : State :=
  let f := call.frame
  match call.stage with
  | .offer =>
    if s.queue.length < outboundQueue then enqueue s i f else { s with sends := s.sends.set i ⟨f,.evict⟩ }
  | .evict =>
    match s.queue with
    | [] => { s with sends := s.sends.set i ⟨f,.retry⟩ }
    | oldest :: rest => { s with queue := rest, sends := s.sends.set i ⟨f,.count oldest.bytes⟩ }
  | .count bytes => { s with dropped := s.dropped + bytes, sends := s.sends.set i ⟨f,.retry⟩ }
  | .retry =>
    if s.queue.length < outboundQueue then enqueue s i f
    else { s with sends := s.sends.set i ⟨f,.lost⟩, log := s.log ++ [.published f.envelope] }
  | .lost => { s with dropped := s.dropped + f.bytes, sends := s.sends.eraseIdx i }

def marker (dropped : Nat) : List Message := if dropped = 0 then [] else [.resync dropped]

def taking (s : State) (consumer : Consumer) (reads : List Target) : State :=
  { s with consumer, log := s.log ++ reads.map Note.read }

def step (s : State) : Event → Option State
  | .publish e bytes => some { s with sends := s.sends ++ [⟨⟨e,bytes⟩,.offer⟩] }
  | .send i => (s.sends[i]?).map (sending s i)
  | .take =>
    match s.hand,s.queue with
    | none,f :: rest => some { s with hand := some (f,false), queue := rest }
    | _,_ => none
  | .mark =>
    match s.hand with
    | some (f,false) => some { s with hand := some (f,true), dropped := 0, wire := s.wire ++ marker s.dropped }
    | _ => none
  | .write =>
    match s.hand with
    | some (f,true) => some { s with hand := none, wire := s.wire ++ [.event f.envelope] }
    | _ => none
  | .handle =>
    match s.wire with
    | [] => none
    | .resync _ :: rest => some { s with wire := rest }
    | .event e :: rest => some (taking { s with wire := rest } (dispatch s.consumer e).1 (dispatch s.consumer e).2)
  | .act a => (act s.consumer a).map (fun acted => taking s acted.1 acted.2)

def asks (x : Target) : Note → Prop
  | .published e => invalidates e x = true
  | .read _ => False
instance (x) : DecidablePred (asks x) := by
  intro n
  cases n <;> unfold asks <;> infer_instance

def Message.envelope : Message → Option Envelope
  | .event e => some e
  | .resync _ => none

def ahead (s : State) : List Envelope :=
  s.wire.filterMap Message.envelope ++ s.hand.toList.map (fun hand => hand.1.envelope) ++ s.queue.map Frame.envelope

def Due (s : State) (x : Target) : Prop := (∃ e ∈ ahead s, invalidates e x = true) ∨ x ∈ queued s.consumer
instance (s x) : Decidable (Due s x) := by unfold Due; infer_instance

def Reread (s : State) (x : Target) : Prop := Answered (asks x) (.read x) s.log
instance (s x) : Decidable (Reread s x) := by unfold Reread; infer_instance

def Covered (s : State) (x : Target) : Prop := Reread s x ∨ Due s x
instance (s x) : Decidable (Covered s x) := by unfold Covered; infer_instance

/-- An event is discarded, or handled by a ref that does not know of its target,
only where the target has been read since or will be; and so for what is owed to
a restored tab that comes up. -/
def NothingMissed (s : State) : Event → Prop
  | .send i =>
    ∀ call ∈ (s.sends[i]?).toList,
      (call.stage = .evict → ∀ oldest ∈ s.queue.head?.toList, ∀ x ∈ shows s.consumer,
        invalidates oldest.envelope x = true → Covered { s with queue := s.queue.tail } x) ∧
      (call.stage = .retry → outboundQueue ≤ s.queue.length → ∀ x ∈ shows s.consumer,
        invalidates call.frame.envelope x = true → Due s x)
  | .handle =>
    ∀ e ∈ (s.wire.head?.bind Message.envelope).toList, ∀ x ∈ shows s.consumer, invalidates e x = true →
      x ∈ sees s.consumer ∨ Covered { s with wire := s.wire.tail } x
  | .act a => ∀ x ∈ a.unread.toList, Covered s x
  | _ => True
instance (s e) : Decidable (NothingMissed s e) := by
  cases e <;> unfold NothingMissed <;> infer_instance

def Quiet (s : State) : Prop := s.queue = [] ∧ s.hand = none ∧ s.wire = [] ∧ idle s.consumer = true
instance (s) : Decidable (Quiet s) := by unfold Quiet; infer_instance

section
variable {s t : State} {x : Target}

theorem Covered.along (covered : Covered s x) (log : t.log = s.log) (consumer : t.consumer = s.consumer)
    (events : ∀ e ∈ ahead s, invalidates e x = true → e ∈ ahead t) : Covered t x := by
  rcases covered with reread | ⟨e,there,stale⟩ | again
  · exact Or.inl (by unfold Reread; rw [log]; exact reread)
  · exact Or.inr (Or.inl ⟨e,events e there stale,stale⟩)
  · exact Or.inr (Or.inr (by rw [consumer]; exact again))

theorem readsSilent (reads : List Target) : ∀ n ∈ reads.map Note.read, ¬asks x n := by
  intro n member asked
  obtain ⟨y,_,rfl⟩ := List.mem_map.mp member
  exact asked

theorem takingReads {consumer : Consumer} {reads : List Target} (now : x ∈ reads) : Covered (taking s consumer reads) x :=
  Or.inl (answeredAfter (readsSilent reads) (List.mem_map_of_mem now))

theorem Covered.taken {consumer : Consumer} {reads : List Target} (covered : Covered s x)
    (again : x ∈ queued s.consumer → x ∈ reads ∨ x ∈ queued consumer) : Covered (taking s consumer reads) x := by
  rcases covered with reread | due | waits
  · exact Or.inl (reread.append (readsSilent reads))
  · exact Or.inr (Or.inl due)
  · rcases again waits with now | later
    · exact takingReads now
    · exact Or.inr (Or.inr later)

theorem coveredEnqueue {i : Nat} {f : Frame} (covered : Covered s x) : Covered (enqueue s i f) x := by
  by_cases stale : invalidates f.envelope x = true
  · exact Or.inr (Or.inl ⟨f.envelope,by simp [ahead,enqueue],stale⟩)
  · rcases covered with reread | ⟨e,there,names⟩ | again
    · exact Or.inl (reread.snoc stale)
    · refine Or.inr (Or.inl ⟨e,?_,names⟩)
      simp only [ahead,enqueue,List.map_append,← List.append_assoc]
      exact List.mem_append_left _ there
    · exact Or.inr (Or.inr again)

theorem coveredSending {i : Nat} {call : Send} (covered : Covered s x) (shown : x ∈ shows s.consumer)
    (found : s.sends[i]? = some call) (allowed : NothingMissed s (.send i)) : Covered (sending s i call) x := by
  obtain ⟨evicts,loses⟩ := allowed call (Option.mem_toList.mpr found)
  unfold sending
  simp only
  split
  · split
    · exact coveredEnqueue covered
    · exact covered.along rfl rfl (fun e there _ => there)
  · next stage =>
    split
    · exact covered.along rfl rfl (fun e there _ => there)
    · next oldest rest queue =>
      by_cases stale : invalidates oldest.envelope x = true
      · have kept := evicts stage oldest (by simp [queue]) x shown stale
        rw [queue] at kept
        exact kept.along rfl rfl (fun e there _ => there)
      · refine covered.along rfl rfl (fun e there names => ?_)
        simp only [ahead,queue,List.map_cons,List.mem_append,List.mem_cons] at there ⊢
        rcases there with front | rfl | back
        · exact Or.inl front
        · exact absurd names stale
        · exact Or.inr back
  · exact covered.along rfl rfl (fun e there _ => there)
  · next stage =>
    split
    · exact coveredEnqueue covered
    · next full =>
      by_cases stale : invalidates call.frame.envelope x = true
      · rcases loses stage (by omega) x shown stale with due | again
        · exact Or.inr (Or.inl due)
        · exact Or.inr (Or.inr again)
      · rcases covered with reread | due | again
        · exact Or.inl (reread.snoc stale)
        · exact Or.inr (Or.inl due)
        · exact Or.inr (Or.inr again)
  · exact covered.along rfl rfl (fun e there _ => there)

theorem coveredHandled {e : Envelope} {rest : List Message} (covered : ∀ y ∈ shows s.consumer, Covered s y)
    (wire : s.wire = .event e :: rest) (allowed : NothingMissed s .handle)
    (shown : x ∈ shows (dispatch s.consumer e).1) :
    Covered (taking { s with wire := rest } (dispatch s.consumer e).1 (dispatch s.consumer e).2) x := by
  have keeps := dispatchKeeps s.consumer e
  have later : x ∈ queued (dispatch s.consumer e).1 →
      Covered (taking { s with wire := rest } (dispatch s.consumer e).1 (dispatch s.consumer e).2) x :=
    fun again => Or.inr (Or.inr again)
  rcases keeps.shown x shown with unread | now | again | old
  · cases unread
  · exact takingReads now
  · exact later again
  · have rests : Covered { s with wire := rest } x →
        Covered (taking { s with wire := rest } (dispatch s.consumer e).1 (dispatch s.consumer e).2) x :=
      fun kept => kept.taken (fun waits => keeps.queued x waits shown)
    by_cases stale : invalidates e x = true
    · rcases allowed e (by simp [wire,Message.envelope]) x old stale with seen | kept
      · rcases dispatchReads shown stale seen with now | again
        · exact takingReads now
        · exact later again
      · rw [wire] at kept
        exact rests kept
    · refine rests ((covered x old).along rfl rfl (fun d there names => ?_))
      simp only [ahead,wire,List.filterMap_cons,Message.envelope,List.cons_append,List.mem_cons] at there
      rcases there with rfl | after
      · exact absurd names stale
      · exact after

theorem coveredKept {e : Event} (covered : ∀ x ∈ shows s.consumer, Covered s x) (allowed : NothingMissed s e)
    (taken : step s e = some t) : ∀ x ∈ shows t.consumer, Covered t x := by
  cases e with
  | publish e bytes =>
    cases taken
    exact fun x shown => (covered x shown).along rfl rfl (fun e there _ => there)
  | send i =>
    obtain ⟨call,found,rfl⟩ := Option.map_eq_some_iff.mp taken
    intro x shown
    have same : (sending s i call).consumer = s.consumer := by
      unfold sending enqueue
      simp only
      split <;> first | rfl | (split <;> rfl)
    rw [same] at shown
    exact coveredSending (covered x shown) shown found allowed
  | take =>
    simp only [step] at taken
    split at taken
    · next f rest hand queue =>
      cases taken
      intro x shown
      refine (covered x shown).along rfl rfl (fun e there _ => ?_)
      simpa [ahead,hand,queue] using there
    · cases taken
  | mark =>
    simp only [step] at taken
    split at taken
    · next f hand =>
      cases taken
      intro x shown
      refine (covered x shown).along rfl rfl (fun e there _ => ?_)
      have silent : (marker s.dropped).filterMap Message.envelope = [] := by
        unfold marker
        split <;> rfl
      simpa [ahead,hand,silent] using there
    · cases taken
  | write =>
    simp only [step] at taken
    split at taken
    · next f hand =>
      cases taken
      intro x shown
      refine (covered x shown).along rfl rfl (fun e there _ => ?_)
      simpa [ahead,hand,Message.envelope] using there
    · cases taken
  | handle =>
    simp only [step] at taken
    split at taken
    · cases taken
    · next bytes rest wire =>
      cases taken
      intro x shown
      refine (covered x shown).along rfl rfl (fun e there _ => ?_)
      simpa [ahead,wire,Message.envelope] using there
    · next e rest wire =>
      cases taken
      exact fun x shown => coveredHandled covered wire allowed shown
  | act a =>
    obtain ⟨⟨consumer,reads⟩,acted,rfl⟩ := Option.map_eq_some_iff.mp taken
    have keeps := actKeeps acted
    intro x shown
    have moves : Covered s x → Covered (taking s consumer reads) x :=
      fun kept => kept.taken (fun waits => keeps.queued x waits shown)
    rcases keeps.shown x shown with unread | now | later | old
    · exact moves (allowed x unread)
    · exact takingReads now
    · exact Or.inr (Or.inr later)
    · exact moves (covered x old)

end

variable {c : Consumer} {s : State} {es : List Event}

theorem everyInvalidationIsReread (run : Run step NothingMissed (subscribed c) es s) (quiet : Quiet s) {x : Target}
    (shown : x ∈ shows s.consumer) : Answered (asks x) (.read x) s.log := by
  have initial : ∀ x ∈ shows (subscribed c).consumer, Covered (subscribed c) x := fun x _ =>
    Or.inl (show Answered (asks x) (.read x) [] from answeredNil)
  have covered : ∀ x ∈ shows s.consumer, Covered s x :=
    run.invariant (I := fun s => ∀ x ∈ shows s.consumer, Covered s x) initial
      (fun _ _ _ covered allowed taken => coveredKept covered allowed taken)
  obtain ⟨queue,hand,wire,still⟩ := quiet
  rcases covered x shown with reread | ⟨e,there,_⟩ | again
  · exact reread
  · simp [ahead,queue,hand,wire] at there
  · rw [idleQueued still] at again
    cases again

def changed (dir : String) : Event := .publish (.tree "/w".toList [dir.toList]) 40

def tree : Consumer := .fileTree "/w".toList ⟨["a".toList,"b".toList],["a".toList,"b".toList],["a".toList,"b".toList],[]⟩

def burst (first : String) : List Event :=
  [changed first,.send 0] ++ (List.replicate 63 [changed "b",.send 0]).flatten ++
    [changed "b",.send 0,.send 0,.send 0,.send 0] ++ (List.replicate 64 [.take,.mark,.write]).flatten ++
    List.replicate 65 .handle ++ List.replicate 64 (.act (.land 0))

theorem everyInvalidationIsRereadBurst :
    ∃ s, Run step NothingMissed (subscribed tree) (burst "b") s ∧ s.log.length = 129 ∧
      Answered (asks (.listing "/w".toList "b".toList)) (.read (.listing "/w".toList "b".toList)) s.log := by
  have ends : (exec (guarded step NothingMissed) (subscribed tree) (burst "b")).map (fun s =>
      (decide (Quiet s ∧ .listing "/w".toList "b".toList ∈ shows s.consumer),s.log.length)) = some (true,129) := by
    decide +kernel
  obtain ⟨s,done,seen⟩ := Option.map_eq_some_iff.mp ends
  obtain ⟨quiet,length⟩ := Prod.mk.inj seen
  obtain ⟨quiet,shown⟩ := of_decide_eq_true quiet
  exact ⟨s,runOfGuarded done,length,everyInvalidationIsReread (runOfGuarded done) quiet shown⟩

theorem discardedIsNeverReread :
    ∃ s, Run step anyStep (subscribed tree) (burst "a") s ∧ Quiet s ∧ .listing "/w".toList "a".toList ∈ shows s.consumer ∧
      ¬Answered (asks (.listing "/w".toList "a".toList)) (.read (.listing "/w".toList "a".toList)) s.log := by
  have ends : (exec step (subscribed tree) (burst "a")).map (fun s =>
      decide (Quiet s ∧ .listing "/w".toList "a".toList ∈ shows s.consumer ∧
        ¬Answered (asks (.listing "/w".toList "a".toList)) (.read (.listing "/w".toList "a".toList)) s.log)) = some true := by
    decide +kernel
  obtain ⟨s,done,seen⟩ := Option.map_eq_some_iff.mp ends
  exact ⟨s,runOfExec done,of_decide_eq_true seen⟩

end M6t.EventChannel
