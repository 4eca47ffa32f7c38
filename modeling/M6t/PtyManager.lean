import M6t.Runs

/-! The pty manager's Create, Kill and Shutdown. A session is known by the number of
the Create call that started it; its identifier is the number after "pty-". -/
namespace M6t.PtyManager
open M6t.Runs

inductive Create where
  | begun
  | failed
  | started
  | registered (id : Nat)
  | returned (id : Nat)
  deriving DecidableEq, Repr

inductive Kill where
  | unknown
  | waiting (session : Nat)
  | returned
  deriving DecidableEq, Repr

inductive Shutdown where
  | waiting (live : List Nat)
  | returned (begun : Nat)
  deriving DecidableEq, Repr

structure State where
  sessions : List (Nat × Nat)
  lastID : Nat
  reaped : List Nat
  creates : List Create
  kills : List Kill
  shutdowns : List Shutdown
  deriving DecidableEq, Repr

def new : State := ⟨[],0,[],[],[],[]⟩

inductive Event where
  | create
  | start (call : Nat) (ok : Bool)
  | register (call : Nat)
  | launch (call : Nat)
  | reap (session : Nat)
  | kill (id : Nat)
  | killed (call : Nat)
  | shutdown
  | shutDone (call : Nat)
  deriving DecidableEq, Repr

namespace State
variable (s : State)

def register (call : Nat) : State :=
  { s with
    lastID := s.lastID + 1
    sessions := (s.lastID + 1,call) :: s.sessions.filter (fun entry => entry.1 ≠ s.lastID + 1)
    creates := s.creates.set call (.registered (s.lastID + 1)) }

def kill (id : Nat) : State :=
  match s.sessions.find? (fun entry => entry.1 = id) with
  | some entry =>
      { s with
        sessions := s.sessions.filter (fun entry => entry.1 ≠ id), kills := s.kills ++ [.waiting entry.2] }
  | none => { s with kills := s.kills ++ [.unknown] }

def sweep : State := { s with sessions := [], shutdowns := s.shutdowns ++ [.waiting (s.sessions.map Prod.snd)] }

end State

def step (s : State) : Event → Option State
  | .create => some { s with creates := s.creates ++ [.begun] }
  | .start call ok =>
      match s.creates[call]? with
      | some .begun => some { s with creates := s.creates.set call (if ok then .started else .failed) }
      | _ => none
  | .register call =>
      match s.creates[call]? with
      | some .started => some (s.register call)
      | _ => none
  | .launch call =>
      match s.creates[call]? with
      | some (.registered id) => some { s with creates := s.creates.set call (.returned id) }
      | _ => none
  | .reap session =>
      match s.creates[session]? with
      | some (.returned _) => some { s with reaped := session :: s.reaped }
      | _ => none
  | .kill id => some (s.kill id)
  | .killed call =>
      match s.kills[call]? with
      | some (.waiting session) =>
          if session ∈ s.reaped then some { s with kills := s.kills.set call .returned } else none
      | _ => none
  | .shutdown => some s.sweep
  | .shutDone call =>
      match s.shutdowns[call]? with
      | some (.waiting live) =>
          if live ⊆ s.reaped then some { s with shutdowns := s.shutdowns.set call (.returned s.creates.length) } else none
      | _ => none

def Create.kept : Create → Bool
  | .registered _ | .returned _ => true
  | _ => false

def Create.finished : Create → Bool
  | .failed | .returned _ => true
  | _ => false

def Create.live : Create → Bool
  | .begun | .failed => false
  | _ => true

/-- No Shutdown has swept that returns, or returned, after this Create began. -/
def ahead (s : State) (call : Nat) : Bool :=
  s.shutdowns.all (fun shutdown => match shutdown with
    | .returned begun => begun ≤ call
    | .waiting _ => false)

/-- Whatever another call is waiting for has been reaped. -/
def settled (s : State) : Bool :=
  s.kills.all (fun kill => match kill with
    | .waiting session => session ∈ s.reaped
    | _ => true) &&
  s.shutdowns.all (fun shutdown => match shutdown with
    | .waiting live => live ⊆ s.reaped
    | .returned _ => true)

def orderly (s : State) : Event → Prop
  | .register call => ahead s call = true
  | .shutDone _ => settled s = true
  | _ => True

instance (s : State) (e : Event) : Decidable (orderly s e) := by
  unfold orderly
  split <;> infer_instance

/-- Once a Shutdown and every Create begun before it returned have returned, what
those Creates started is reaped and gone from the map. -/
def NoOrphans (s : State) : Prop :=
  ∀ begun, .returned begun ∈ s.shutdowns → (∀ (c : Nat) (call : Create), c < begun → s.creates[c]? = some call → call.finished = true) →
    ∀ (c : Nat) (call : Create), c < begun → s.creates[c]? = some call → call.live = true →
      c ∈ s.reaped ∧ ∀ id, (id,c) ∉ s.sessions

variable {s t : State} {e : Event} {es : List Event}

inductive Moves (s : State) : Event → State → Prop where
  | create : Moves s .create { s with creates := s.creates ++ [.begun] }
  | start {call ok} (begun : s.creates[call]? = some .begun) :
      Moves s (.start call ok) { s with creates := s.creates.set call (if ok then .started else .failed) }
  | register {call} (started : s.creates[call]? = some .started) : Moves s (.register call) (s.register call)
  | launch {call id} (registered : s.creates[call]? = some (.registered id)) :
      Moves s (.launch call) { s with creates := s.creates.set call (.returned id) }
  | reap {session id} (running : s.creates[session]? = some (.returned id)) :
      Moves s (.reap session) { s with reaped := session :: s.reaped }
  | kill {id} : Moves s (.kill id) (s.kill id)
  | killed {call session} (waiting : s.kills[call]? = some (.waiting session)) (gone : session ∈ s.reaped) :
      Moves s (.killed call) { s with kills := s.kills.set call .returned }
  | shutdown : Moves s .shutdown s.sweep
  | shutDone {call live} (waiting : s.shutdowns[call]? = some (.waiting live)) (gone : live ⊆ s.reaped) :
      Moves s (.shutDone call) { s with shutdowns := s.shutdowns.set call (.returned s.creates.length) }

theorem stepMoves (taken : step s e = some t) : Moves s e t := by
  cases e <;> simp only [step] at taken
  case create => cases taken; exact .create
  case kill => cases taken; exact .kill
  case shutdown => cases taken; exact .shutdown
  case start call ok =>
    split at taken
    · next begun => cases taken; exact .start begun
    · cases taken
  case register call =>
    split at taken
    · next started => cases taken; exact .register started
    · cases taken
  case launch call =>
    split at taken
    · next registered => cases taken; exact .launch registered
    · cases taken
  case reap session =>
    split at taken
    · next running => cases taken; exact .reap running
    · cases taken
  case killed call =>
    split at taken
    · next waiting =>
      split at taken
      · next gone => cases taken; exact .killed waiting gone
      · cases taken
    · cases taken
  case shutDone call =>
    split at taken
    · next waiting =>
      split at taken
      · next gone => cases taken; exact .shutDone waiting gone
      · cases taken
    · cases taken

def State.Accounted (s : State) (c : Nat) : Prop :=
  c ∈ s.reaped ∨ (∃ id, (id,c) ∈ s.sessions) ∨ .waiting c ∈ s.kills ∨ ∃ live, .waiting live ∈ s.shutdowns ∧ c ∈ live

def State.Kept (s : State) (c : Nat) : Prop := ∃ call, s.creates[c]? = some call ∧ call.kept = true

structure Sound (s : State) : Prop where
  accounted : ∀ c, s.Kept c → s.Accounted c
  distinct : ∀ id c d, (id,c) ∈ s.sessions → (id,d) ∈ s.sessions → c = d
  numbered : ∀ id c, (id,c) ∈ s.sessions → id ≤ s.lastID
  held : ∀ id c, (id,c) ∈ s.sessions → ∀ shutdown ∈ s.shutdowns, ∃ begun ≤ c, shutdown = .returned begun
  swept : ∀ begun, .returned begun ∈ s.shutdowns → ∀ c < begun, s.Kept c → c ∈ s.reaped

theorem newSound : Sound new where
  accounted := by rintro c ⟨call,found,_⟩; simp [new] at found
  distinct := by simp [new]
  numbered := by simp [new]
  held := by simp [new]
  swept := by simp [new]

theorem Sound.recreated {creates : List Create} (sound : Sound s)
    (kept : ∀ c, State.Kept { s with creates := creates } c → s.Kept c) : Sound { s with creates := creates } where
  accounted c keep := sound.accounted c (kept c keep)
  distinct := sound.distinct
  numbered := sound.numbered
  held := sound.held
  swept begun member c below keep := sound.swept begun member c below (kept c keep)

theorem keptSet {call : Nat} {create : Create} {c : Nat} (other : create.kept = true → s.Kept call)
    (keep : State.Kept { s with creates := s.creates.set call create } c) : s.Kept c := by
  obtain ⟨found,at_,kept⟩ := keep
  rw [List.getElem?_set] at at_
  split at at_
  · next same =>
    split at at_
    · cases at_; exact same ▸ other kept
    · cases at_
  · exact ⟨found,at_,kept⟩

theorem keptBegun {c : Nat} (keep : State.Kept { s with creates := s.creates ++ [.begun] } c) : s.Kept c := by
  obtain ⟨found,at_,kept⟩ := keep
  rcases Nat.lt_or_ge c s.creates.length with inside | beyond
  · rw [List.getElem?_append_left inside] at at_
    exact ⟨found,at_,kept⟩
  · rw [List.getElem?_append_right beyond] at at_
    obtain rfl : Create.begun = found := by
      simpa using List.mem_of_getElem? at_ |> List.mem_singleton.mp |> Eq.symm
    cases kept

theorem aheadOf {call : Nat} (met : ahead s call = true) {shutdown : Shutdown} (member : shutdown ∈ s.shutdowns) :
    ∃ begun ≤ call, shutdown = .returned begun := by
  have all := List.all_eq_true.mp met shutdown member
  cases shutdown with
  | waiting live => simp at all
  | returned begun => exact ⟨begun,by simpa using all,rfl⟩

theorem settledReaped (met : settled s = true) {c : Nat} (keep : s.Accounted c) (unlisted : s.sessions = []) :
    c ∈ s.reaped := by
  simp only [settled,Bool.and_eq_true,List.all_eq_true] at met
  obtain reaped | ⟨id,listed⟩ | waiting | ⟨live,waiting,inside⟩ := keep
  · exact reaped
  · rw [unlisted] at listed; cases listed
  · exact of_decide_eq_true (met.1 _ waiting)
  · exact of_decide_eq_true (met.2 _ waiting) inside

theorem Sound.registered (sound : Sound s) {call : Nat} (met : ahead s call = true) : Sound (s.register call) := by
  have fresh : s.sessions.filter (fun entry => entry.1 ≠ s.lastID + 1) = s.sessions := by
    refine List.filter_eq_self.mpr (fun entry member => decide_eq_true ?_)
    have below := sound.numbered entry.1 entry.2 member
    omega
  have members : ∀ id c, (id,c) ∈ (s.register call).sessions ↔ (id = s.lastID + 1 ∧ c = call) ∨ (id,c) ∈ s.sessions := by
    intro id c
    simp only [State.register]
    rw [fresh,List.mem_cons,Prod.mk.injEq]
  have keptBefore : ∀ c, (s.register call).Kept c → c ≠ call → s.Kept c := by
    rintro c ⟨found,at_,kept⟩ other
    simp only [State.register] at at_
    rw [List.getElem?_set_ne (Ne.symm other)] at at_
    exact ⟨found,at_,kept⟩
  constructor
  case accounted =>
    intro c keep
    by_cases same : c = call
    · exact .inr (.inl ⟨_,(members _ _).mpr (.inl ⟨rfl,same⟩)⟩)
    · obtain reaped | ⟨id,listed⟩ | rest := sound.accounted c (keptBefore c keep same)
      · exact .inl reaped
      · exact .inr (.inl ⟨id,(members _ _).mpr (.inr listed)⟩)
      · exact .inr (.inr rest)
  case distinct =>
    intro id c d first second
    rcases (members _ _).mp first with ⟨new,rfl⟩ | old <;> rcases (members _ _).mp second with ⟨new',rfl⟩ | old'
    · rfl
    · have below := sound.numbered _ _ old'; omega
    · have below := sound.numbered _ _ old; omega
    · exact sound.distinct id c d old old'
  case numbered =>
    intro id c listed
    change id ≤ s.lastID + 1
    rcases (members _ _).mp listed with ⟨new,_⟩ | old
    · exact Nat.le_of_eq new
    · exact Nat.le_succ_of_le (sound.numbered id c old)
  case held =>
    intro id c listed
    rcases (members _ _).mp listed with ⟨_,rfl⟩ | old
    · exact fun shutdown member => aheadOf met member
    · exact sound.held id c old
  case swept =>
    intro begun member c below keep
    refine sound.swept begun member c below (keptBefore c keep ?_)
    rintro rfl
    obtain ⟨_,atMost,same⟩ := aheadOf met member
    cases same
    exact Nat.not_lt.mpr atMost below

theorem Sound.killed (sound : Sound s) (id : Nat) : Sound (s.kill id) := by
  unfold State.kill
  split
  · next entry found =>
    obtain ⟨named,listed⟩ : entry.1 = id ∧ entry ∈ s.sessions :=
      ⟨by simpa using List.find?_some found,List.mem_of_find?_eq_some found⟩
    refine ⟨?accounted,?distinct,?numbered,?held,sound.swept⟩
    case accounted =>
      intro c keep
      obtain reaped | ⟨own,inside⟩ | waiting | swept := sound.accounted c keep
      · exact .inl reaped
      · by_cases same : own = id
        · have unique := sound.distinct own c entry.2 inside (by rw [same,← named]; exact listed)
          exact .inr (.inr (.inl (List.mem_append_right _ (by simp [unique]))))
        · exact .inr (.inl ⟨own,List.mem_filter.mpr ⟨inside,decide_eq_true same⟩⟩)
      · exact .inr (.inr (.inl (List.mem_append_left _ waiting)))
      · exact .inr (.inr (.inr swept))
    case distinct =>
      exact fun own c d first second =>
        sound.distinct own c d (List.mem_of_mem_filter first) (List.mem_of_mem_filter second)
    case numbered => exact fun own c inside => sound.numbered own c (List.mem_of_mem_filter inside)
    case held => exact fun own c inside => sound.held own c (List.mem_of_mem_filter inside)
  · refine ⟨?_,sound.distinct,sound.numbered,sound.held,sound.swept⟩
    intro c keep
    obtain reaped | inside | waiting | swept := sound.accounted c keep
    · exact .inl reaped
    · exact .inr (.inl inside)
    · exact .inr (.inr (.inl (List.mem_append_left _ waiting)))
    · exact .inr (.inr (.inr swept))

theorem Sound.sweeping (sound : Sound s) : Sound s.sweep where
  accounted c keep := by
    obtain reaped | ⟨id,inside⟩ | waiting | ⟨live,waiting,inside⟩ := sound.accounted c keep
    · exact .inl reaped
    · refine .inr (.inr (.inr ⟨_,List.mem_append_right _ List.mem_cons_self,?_⟩))
      exact List.mem_map.mpr ⟨_,inside,rfl⟩
    · exact .inr (.inr (.inl waiting))
    · exact .inr (.inr (.inr ⟨live,List.mem_append_left _ waiting,inside⟩))
  distinct := by simp [State.sweep]
  numbered := by simp [State.sweep]
  held := by simp [State.sweep]
  swept begun member c below keep := by
    refine sound.swept begun ?_ c below keep
    simpa [State.sweep] using member

theorem Sound.emptied (sound : Sound s) {live : List Nat} (waiting : .waiting live ∈ s.shutdowns) : s.sessions = [] := by
  refine List.eq_nil_iff_forall_not_mem.mpr (fun entry listed => ?_)
  obtain ⟨_,_,impossible⟩ := sound.held entry.1 entry.2 listed _ waiting
  cases impossible

theorem Sound.step (sound : Sound s) (met : orderly s e) (taken : step s e = some t) : Sound t := by
  cases stepMoves taken with
  | create => exact sound.recreated (fun c keep => keptBegun keep)
  | @start call ok begun =>
    refine sound.recreated (fun c keep => keptSet (fun kept => ?_) keep)
    cases ok <;> cases kept
  | register started => exact sound.registered met
  | launch registered => exact sound.recreated (fun c keep => keptSet (fun _ => ⟨_,registered,rfl⟩) keep)
  | reap running =>
    refine ⟨?_,sound.distinct,sound.numbered,sound.held,?_⟩
    · intro c keep
      obtain reaped | rest := sound.accounted c keep
      · exact .inl (List.mem_cons_of_mem _ reaped)
      · exact .inr rest
    · exact fun begun member c below keep => List.mem_cons_of_mem _ (sound.swept begun member c below keep)
  | kill => exact sound.killed _
  | @killed call session waiting gone =>
    refine ⟨?_,sound.distinct,sound.numbered,sound.held,sound.swept⟩
    intro c keep
    obtain reaped | inside | still | swept := sound.accounted c keep
    · exact .inl reaped
    · exact .inr (.inl inside)
    · by_cases same : c = session
      · exact .inl (same ▸ gone)
      · exact .inr (.inr (.inl (memSet waiting still (by simpa using same))))
    · exact .inr (.inr (.inr swept))
  | shutdown => exact sound.sweeping
  | @shutDone call live waiting gone =>
    have unlisted := sound.emptied (List.mem_of_getElem? waiting)
    have all : ∀ c, s.Kept c → c ∈ s.reaped := fun c keep => settledReaped met (sound.accounted c keep) unlisted
    refine ⟨fun c keep => .inl (all c keep),sound.distinct,sound.numbered,?_,fun _ _ c _ keep => all c keep⟩
    intro id c listed
    change (id,c) ∈ s.sessions at listed
    rw [unlisted] at listed
    cases listed

theorem Sound.noOrphans (sound : Sound s) : NoOrphans s := by
  intro begun returned every c call below found live
  have kept : call.kept = true := by
    have ended := every c call below found
    cases call with
    | begun => cases ended
    | failed => cases live
    | started => cases ended
    | registered id => rfl
    | returned id => rfl
  refine ⟨sound.swept begun returned c below ⟨call,found,kept⟩,fun id listed => ?_⟩
  obtain ⟨_,atMost,same⟩ := sound.held id c listed _ returned
  cases same
  exact Nat.not_lt.mpr atMost below

theorem everySessionReaped (run : Run step orderly new es s) : NoOrphans s :=
  (run.invariant (I := Sound) newSound (fun _ _ _ sound met taken => sound.step met taken)).noOrphans

def oneShell : List Event :=
  [.create,.start 0 true,.register 0,.launch 0,.create,.start 1 true,.register 1,.launch 1,.kill 1,.reap 0,.killed 0,.shutdown,
    .reap 1,.shutDone 0]

theorem oneShellReaped :
    ∃ s, Run step orderly new oneShell s ∧ s.shutdowns = [.returned 2] ∧ NoOrphans s := by
  have ends : (exec (guarded step orderly) new oneShell).map State.shutdowns = some [.returned 2] := by decide +kernel
  obtain ⟨s,done,seen⟩ := Option.map_eq_some_iff.mp ends
  have run := runOfGuarded done
  exact ⟨s,run,seen,everySessionReaped run⟩

def startedBeforeSweep : List Event := [.create,.start 0 true,.shutdown,.shutDone 0,.register 0,.launch 0]

theorem sweptTooEarly : ∃ s, Run step anyStep new startedBeforeSweep s ∧ ¬NoOrphans s := by
  have ends : (exec step new startedBeforeSweep).map (fun s => (s.creates,s.shutdowns,s.reaped)) =
      some ([.returned 1],[.returned 1],[]) := by decide +kernel
  obtain ⟨s,done,seen⟩ := Option.map_eq_some_iff.mp ends
  simp only [Prod.mk.injEq] at seen
  obtain ⟨creates,shutdowns,reaped⟩ := seen
  refine ⟨s,runOfExec done,fun none_ => ?_⟩
  have gone := none_ 1 (by simp [shutdowns]) ?_ 0 (.returned 1) (by decide) (by simp [creates]) rfl
  · simp [reaped] at gone
  · intro c call below found
    obtain rfl : c = 0 := by omega
    simp only [creates,List.getElem?_cons_zero,Option.some.injEq] at found
    subst found
    rfl

end M6t.PtyManager
