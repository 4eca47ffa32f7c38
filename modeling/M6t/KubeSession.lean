import M6t.Runs
import M6t.KubePlan

/-! One kubewatch session: its run loop, the goroutine of each planned group, the
announcer, and the callers of replan and stop. Each field is written under the
session's lock, and a write that changed something is followed by a signal, so a
goroutine that wrote owes one before it goes on. -/
namespace M6t.KubeSession
open M6t.Text M6t.Runs M6t.Declared M6t.KubePlan

inductive Phase where
  | idle
  | connecting
  | watching
  | reconnecting
  | unauthorized
  deriving DecidableEq, Repr

structure Failure where
  denied : Bool
  message : Str
  deriving DecidableEq, Repr

def phaseFor (err : Failure) : Phase := if err.denied then .unauthorized else .reconnecting

structure SessionKey where
  root : Str
  ns : Str

def SessionKey.unread (key : SessionKey) (err : Str) : Failure :=
  ⟨false,"reading what ".toList ++ key.root ++ " declares: ".toList ++ err⟩

def SessionKey.ended (key : SessionKey) : Failure :=
  ⟨false,"the watch on ".toList ++ key.root ++ " ended: context canceled".toList⟩

def nothingDeclared : Str := "nothing here is declared against this context and namespace".toList

structure Live (β : Type) where
  name : Str
  body : β

inductive EventType where
  | added
  | modified
  | deleted
  | bookmark
  | error
  deriving DecidableEq, Repr

inductive Observation (β : Type) where
  | listed (items : List (Live β))
  | refused (message : Str)
  | event (kind : EventType) (object : Option (Live β))

structure Mark where
  index : Nat
  verdict : Verdict
  deriving DecidableEq, Repr

section
variable {β : Type} (compute : Live β → Verdict) (names : Names)

def marksOf (name : Str) (verdict : Verdict) : List Mark := (names.indices name).map (fun index => ⟨index,verdict⟩)

def record (object : Live β) : List Mark := marksOf names object.name (compute object)

def applyList (order : List Str) (items : List (Live β)) : List Mark :=
  items.flatMap (record compute names) ++
    (order.filter (fun name => name ∉ items.map Live.name)).flatMap (fun name => marksOf names name notFound)

def parkGroup (order : List Str) (message : Str) : List Mark :=
  order.flatMap (fun name => marksOf names name ⟨.unknown,message⟩)

def applyEvent (kind : EventType) (object : Live β) : List Mark :=
  match kind with
  | .added | .modified => record compute names object
  | .deleted => marksOf names object.name notFound
  | .bookmark | .error => []

def marks (order : List Str) : Observation β → List Mark
  | .listed items => applyList compute names order items
  | .refused message => parkGroup names order message
  | .event kind (some object) => applyEvent compute names kind object
  | .event _ none => []

end

inductive Stage where
  | planned
  | listing
  | following
  | parked
  | returned
  deriving DecidableEq, Repr

/-- The goroutine of one group of one cycle: the marks it has still to make, whether
it owes a signal, and what the API server told it so far. -/
structure Worker (β : Type) where
  cycle : Nat
  group : Group
  stage : Stage
  todo : List Mark
  owes : Bool
  history : List (Observation β)

namespace Worker
variable {β : Type} (w : Worker β)

def idle : Bool := w.todo = [] && !w.owes

def next : Observation β → Option Stage
  | .listed _ => if w.stage = .listing then some .following else none
  | .refused _ => if w.stage = .listing then some .parked else none
  | .event _ _ => if w.stage = .following then some .following else none

def observed (compute : Live β → Verdict) (order : List Str) (obs : Observation β) (stage : Stage) : Worker β :=
  { w with stage := stage, todo := marks compute w.group.names order obs, history := w.history ++ [obs] }

def listed : Bool := w.history ≠ [] && (w.history.length ≠ 1 || w.idle)

end Worker

def GroupKey.describe (key : GroupKey) : Str :=
  if key.ns = [] then key.resource.resource else key.resource.resource ++ " in ".toList ++ key.ns

def Worker.fault {β : Type} (w : Worker β) (denied : Bool) (cause : Str) : Failure :=
  ⟨denied,(if w.stage = .listing then "listing ".toList else "watching ".toList) ++ GroupKey.describe w.group.key ++
    ": ".toList ++ cause⟩

/-- Where the run loop is. `following` and `parked` are the two places it waits in. -/
inductive Loop where
  | top
  | waiting
  | declaring
  | declared (objects : List Object) (notices : List Notice)
  | noted (objects : List Object)
  | parking
  | parked
  | connecting (objects : List Object)
  | connected (objects : List Object) (mapper : RESTMapper)
  | seeded (objects : List Object)
  | watching (objects : List Object)
  | following (planned : List Object)
  | superseding (planned : List Object)
  | rereading (planned : List Object)
  | reread (planned objects : List Object) (notices : List Notice)
  | compared (planned objects : List Object)
  | stopping (result : Option Failure)
  | returned (result : Option Failure)
  | failing (err : Failure)
  | ended

inductive Announcer where
  | waiting
  | taken
  | pausing
  | ended
  deriving DecidableEq, Repr

/-- `planned` and `mapper` are what the rows were last planned from, in the cycle of
that number. -/
structure State (β : Type) where
  phase : Phase
  reason : Str
  objects : List Status
  notices : List Notice
  loop : Loop
  owes : Bool
  workers : List (Worker β)
  failed : List Failure
  cycle : Nat
  planned : List Object
  mapper : RESTMapper
  replanned : Bool
  dirty : Bool
  cancelled : Bool
  announcer : Announcer

def afterCycle : Option Failure → Loop
  | none => .top
  | some err => .failing err

def unplanned : RESTMapper := fun _ _ => .error []

def newSession (β : Type) : State β :=
  ⟨.connecting,[],[],[],.top,false,[],[],0,[],unplanned,false,false,false,.waiting⟩

inductive LoopAct where
  | check
  | declare
  | answer (read : Except Str (List Object × List Notice))
  | notices
  | phase
  | clear
  | connect (access : Except Failure RESTMapper)
  | seed
  | follow
  | consume
  | compare
  | failed
  | done
  | waited
  | leave
  | signal

inductive WorkAct (β : Type) where
  | observe (obs : Observation β) (order : List Str)
  | mark
  | signal
  | fail (denied : Bool) (cause : Str)

inductive AnnounceAct where
  | take
  | publish
  | rest
  | quit
  deriving DecidableEq, Repr

inductive Event (β : Type) where
  | replan
  | stop
  | loop (act : LoopAct)
  | work (i : Nat) (act : WorkAct β)
  | announce (act : AnnounceAct)

namespace State
variable {β : Type} (s : State β)

def setPhase (phase : Phase) (reason : Str) : State β :=
  { s with phase := phase, reason := reason, owes := decide (s.phase ≠ phase ∨ s.reason ≠ reason) }

def setNotices (notices : List Notice) : State β := { s with notices := notices, owes := true }

def seed (key : SessionKey) (objects : List Object) (mapper : RESTMapper) : State β :=
  { s with
    objects := (plan mapper objects key.ns).1, owes := true, cycle := s.cycle + 1, planned := objects, mapper := mapper
    workers := s.workers ++ (plan mapper objects key.ns).2.map (fun g => ⟨s.cycle + 1,g,.planned,[],false,[]⟩) }

def clear : State β := { s with objects := [], owes := true, cycle := s.cycle + 1, planned := [], mapper := unplanned }

def follow : State β :=
  { s with
    failed := []
    workers := s.workers.map (fun w => if w.cycle = s.cycle ∧ w.stage = .planned then { w with stage := .listing } else w) }

def mark (i : Nat) (w : Worker β) (m : Mark) (rest : List Mark) : State β :=
  { s with
    objects := s.objects.modify m.index (fun row => { row with verdict := m.verdict })
    workers := s.workers.set i
      { w with todo := rest, owes := (s.objects[m.index]?.map (fun row => decide (row.verdict ≠ m.verdict))).getD false } }

def groupsOver : Bool :=
  s.cancelled || match s.loop with
    | .stopping _ => true
    | _ => false

def allReturned : Bool := s.workers.all (fun w => w.cycle ≠ s.cycle || w.stage = .returned)

end State

section
variable {β : Type} (compute : Live β → Verdict) (key : SessionKey) (s : State β)

def loopStep (act : LoopAct) : Option (State β) :=
  match act with
  | .check =>
      match s.loop with
      | .top => some { s with loop := if s.cancelled then .ended else .waiting }
      | _ => none
  | .declare =>
      match s.loop with
      | .waiting => some { s with loop := .declaring }
      | .superseding planned => some { s with loop := .rereading planned }
      | _ => none
  | .answer read =>
      match s.loop with
      | .declaring =>
          match read with
          | .error err => some { s with loop := .returned (some (key.unread err)) }
          | .ok (objects,notices) => some { s with loop := .declared objects notices }
      | .rereading planned =>
          match read with
          | .error _ => some { s with loop := .stopping none }
          | .ok (objects,notices) => some { s with loop := .reread planned objects notices }
      | _ => none
  | .notices =>
      match s.loop with
      | .declared objects notices => some { s.setNotices notices with loop := .noted objects }
      | .reread planned objects notices => some { s.setNotices notices with loop := .compared planned objects }
      | _ => none
  | .phase =>
      match s.loop with
      | .noted [] => some { s.setPhase .idle nothingDeclared with loop := .parking }
      | .noted (o :: os) => some { s.setPhase .connecting [] with loop := .connecting (o :: os) }
      | .seeded objects => some { s.setPhase .watching [] with loop := .watching objects }
      | .failing err => some { s.setPhase (phaseFor err) err.message with loop := .top }
      | _ => none
  | .clear =>
      match s.loop with
      | .parking => some { s.clear with loop := .parked }
      | _ => none
  | .connect access =>
      match s.loop with
      | .connecting objects =>
          match access with
          | .error err => some { s with loop := .returned (some err) }
          | .ok mapper => some { s with loop := .connected objects mapper }
      | _ => none
  | .seed =>
      match s.loop with
      | .connected objects mapper => some { s.seed key objects mapper with loop := .seeded objects }
      | _ => none
  | .follow =>
      match s.loop with
      | .watching objects => some { s.follow with loop := .following objects }
      | _ => none
  | .consume =>
      match s.loop, s.replanned with
      | .parked, true => some { s with replanned := false, loop := .returned none }
      | .following planned, true => some { s with replanned := false, loop := .superseding planned }
      | _, _ => none
  | .compare =>
      match s.loop with
      | .compared planned objects =>
          some { s with loop := if planned = objects then .following planned else .stopping none }
      | _ => none
  | .failed =>
      match s.loop, s.failed with
      | .following _, err :: rest => some { s with failed := rest, loop := .stopping (some err) }
      | _, _ => none
  | .done =>
      match s.loop, s.cancelled with
      | .waiting, true => some { s with loop := .ended }
      | .parked, true => some { s with loop := .returned (some key.ended) }
      | .following _, true => some { s with loop := .stopping (some key.ended) }
      | _, _ => none
  | .waited =>
      match s.loop with
      | .stopping result => if s.allReturned then some { s with loop := .returned result } else none
      | _ => none
  | .leave =>
      match s.loop with
      | .returned result =>
          some { s with loop := if s.cancelled then .ended else afterCycle result }
      | _ => none
  | .signal => none

def workStep (i : Nat) (w : Worker β) : WorkAct β → Option (State β)
  | .observe obs order =>
      match w.next obs with
      | some stage =>
          if w.idle ∧ order.isPerm w.group.names.keys then
            some { s with workers := s.workers.set i (w.observed compute order obs stage) }
          else none
      | none => none
  | .mark =>
      match w.todo, w.owes with
      | m :: rest, false => some (s.mark i w m rest)
      | _, _ => none
  | .signal => if w.owes then some { s with dirty := true, workers := s.workers.set i { w with owes := false } } else none
  | .fail denied cause =>
      if w.idle ∧ (w.stage = .listing ∨ w.stage = .following ∨ w.stage = .parked ∧ s.groupsOver) then
        some { s with failed := s.failed ++ [w.fault denied cause], workers := s.workers.set i { w with stage := .returned } }
      else none

def announceStep : AnnounceAct → Option (State β)
  | .take => if s.announcer = .waiting ∧ s.dirty then some { s with dirty := false, announcer := .taken } else none
  | .publish => if s.announcer = .taken then some { s with announcer := .pausing } else none
  | .rest => if s.announcer = .pausing then some { s with announcer := .waiting } else none
  | .quit =>
      if s.cancelled ∧ (s.announcer = .waiting ∨ s.announcer = .pausing) then some { s with announcer := .ended } else none

def step : Event β → Option (State β)
  | .replan => some { s with replanned := true }
  | .stop => some { s with cancelled := true }
  | .loop .signal => if s.owes then some { s with dirty := true, owes := false } else none
  | .loop act => if s.owes then none else loopStep key s act
  | .work i act =>
      match s.workers[i]? with
      | some w => workStep compute s i w act
      | none => none
  | .announce act => announceStep s act

end

variable {β : Type} {compute : Live β → Verdict} {key : SessionKey} {s t : State β} {e : Event β} {es : List (Event β)}

inductive Turn (key : SessionKey) (s : State β) : LoopAct → Loop → Prop where
  | check (here : s.loop = .top) (live : s.cancelled = false) : Turn key s .check .waiting
  | checkOver (here : s.loop = .top) (stopped : s.cancelled = true) : Turn key s .check .ended
  | declare (here : s.loop = .waiting) : Turn key s .declare .declaring
  | redeclare {planned} (here : s.loop = .superseding planned) : Turn key s .declare (.rereading planned)
  | unread {err} (here : s.loop = .declaring) : Turn key s (.answer (.error err)) (.returned (some (key.unread err)))
  | read {objects notices} (here : s.loop = .declaring) :
      Turn key s (.answer (.ok (objects,notices))) (.declared objects notices)
  | lost {planned err} (here : s.loop = .rereading planned) : Turn key s (.answer (.error err)) (.stopping none)
  | reread {planned objects notices} (here : s.loop = .rereading planned) :
      Turn key s (.answer (.ok (objects,notices))) (.reread planned objects notices)
  | unreached {objects err} (here : s.loop = .connecting objects) :
      Turn key s (.connect (.error err)) (.returned (some err))
  | reached {objects mapper} (here : s.loop = .connecting objects) :
      Turn key s (.connect (.ok mapper)) (.connected objects mapper)
  | same {planned} (here : s.loop = .compared planned planned) : Turn key s .compare (.following planned)
  | superseded {planned objects} (here : s.loop = .compared planned objects) (other : planned ≠ objects) :
      Turn key s .compare (.stopping none)
  | quit (here : s.loop = .waiting) (stopped : s.cancelled = true) : Turn key s .done .ended
  | unpark (here : s.loop = .parked) (stopped : s.cancelled = true) : Turn key s .done (.returned (some key.ended))
  | unfollow {planned} (here : s.loop = .following planned) (stopped : s.cancelled = true) :
      Turn key s .done (.stopping (some key.ended))
  | waited {result} (here : s.loop = .stopping result) (all : s.allReturned = true) : Turn key s .waited (.returned result)
  | again (here : s.loop = .returned none) (live : s.cancelled = false) : Turn key s .leave .top
  | retry {err} (here : s.loop = .returned (some err)) (live : s.cancelled = false) : Turn key s .leave (.failing err)
  | leave {result} (here : s.loop = .returned result) (stopped : s.cancelled = true) : Turn key s .leave .ended

inductive Moves (compute : Live β → Verdict) (key : SessionKey) (s : State β) : Event β → State β → Prop where
  | replan : Moves compute key s .replan { s with replanned := true }
  | stop : Moves compute key s .stop { s with cancelled := true }
  | turn {act place} (settled : s.owes = false) (turned : Turn key s act place) :
      Moves compute key s (.loop act) { s with loop := place }
  | notice {objects notices} (settled : s.owes = false) (here : s.loop = .declared objects notices) :
      Moves compute key s (.loop .notices) { s.setNotices notices with loop := .noted objects }
  | renotice {planned objects notices} (settled : s.owes = false) (here : s.loop = .reread planned objects notices) :
      Moves compute key s (.loop .notices) { s.setNotices notices with loop := .compared planned objects }
  | park (settled : s.owes = false) (here : s.loop = .noted []) :
      Moves compute key s (.loop .phase) { s.setPhase .idle nothingDeclared with loop := .parking }
  | connect {objects} (settled : s.owes = false) (here : s.loop = .noted objects) (some_ : objects ≠ []) :
      Moves compute key s (.loop .phase) { s.setPhase .connecting [] with loop := .connecting objects }
  | watch {objects} (settled : s.owes = false) (here : s.loop = .seeded objects) :
      Moves compute key s (.loop .phase) { s.setPhase .watching [] with loop := .watching objects }
  | fail {err} (settled : s.owes = false) (here : s.loop = .failing err) :
      Moves compute key s (.loop .phase) { s.setPhase (phaseFor err) err.message with loop := .top }
  | clear (settled : s.owes = false) (here : s.loop = .parking) :
      Moves compute key s (.loop .clear) { s.clear with loop := .parked }
  | seed {objects mapper} (settled : s.owes = false) (here : s.loop = .connected objects mapper) :
      Moves compute key s (.loop .seed) { s.seed key objects mapper with loop := .seeded objects }
  | follow {objects} (settled : s.owes = false) (here : s.loop = .watching objects) :
      Moves compute key s (.loop .follow) { s.follow with loop := .following objects }
  | rebuild (settled : s.owes = false) (here : s.loop = .parked) (asked : s.replanned = true) :
      Moves compute key s (.loop .consume) { s with replanned := false, loop := .returned none }
  | consume {planned} (settled : s.owes = false) (here : s.loop = .following planned) (asked : s.replanned = true) :
      Moves compute key s (.loop .consume) { s with replanned := false, loop := .superseding planned }
  | failed {planned err rest} (settled : s.owes = false) (here : s.loop = .following planned) (sent : s.failed = err :: rest) :
      Moves compute key s (.loop .failed) { s with failed := rest, loop := .stopping (some err) }
  | signal (owed : s.owes = true) : Moves compute key s (.loop .signal) { s with dirty := true, owes := false }
  | observe {i w obs order stage} (at_ : s.workers[i]? = some w) (next : w.next obs = some stage) (idle : w.idle = true)
      (whole : order.Perm w.group.names.keys) :
      Moves compute key s (.work i (.observe obs order))
        { s with workers := s.workers.set i (w.observed compute order obs stage) }
  | mark {i w m rest} (at_ : s.workers[i]? = some w) (todo : w.todo = m :: rest) (settled : w.owes = false) :
      Moves compute key s (.work i .mark) (s.mark i w m rest)
  | workSignal {i w} (at_ : s.workers[i]? = some w) (owed : w.owes = true) :
      Moves compute key s (.work i .signal) { s with dirty := true, workers := s.workers.set i { w with owes := false } }
  | workFail {i w denied cause} (at_ : s.workers[i]? = some w) (idle : w.idle = true)
      (running : w.stage = .listing ∨ w.stage = .following ∨ w.stage = .parked ∧ s.groupsOver = true) :
      Moves compute key s (.work i (.fail denied cause))
        { s with failed := s.failed ++ [w.fault denied cause], workers := s.workers.set i { w with stage := .returned } }
  | take (here : s.announcer = .waiting) (set : s.dirty = true) :
      Moves compute key s (.announce .take) { s with dirty := false, announcer := .taken }
  | publish (here : s.announcer = .taken) : Moves compute key s (.announce .publish) { s with announcer := .pausing }
  | rest (here : s.announcer = .pausing) : Moves compute key s (.announce .rest) { s with announcer := .waiting }
  | quit (stopped : s.cancelled = true) (here : s.announcer = .waiting ∨ s.announcer = .pausing) :
      Moves compute key s (.announce .quit) { s with announcer := .ended }

theorem loopMoves {act : LoopAct} (settled : s.owes = false) (taken : loopStep key s act = some t) :
    Moves compute key s (.loop act) t := by
  cases act <;> simp only [loopStep] at taken
  case check =>
    split at taken
    · next here =>
      cases taken
      by_cases stopped : s.cancelled = true
      · rw [if_pos stopped]
        exact .turn settled (.checkOver here stopped)
      · rw [if_neg stopped]
        exact .turn settled (.check here (Bool.not_eq_true _ ▸ stopped))
    · cases taken
  case declare =>
    split at taken
    · next here => cases taken; exact .turn settled (.declare here)
    · next here => cases taken; exact .turn settled (.redeclare here)
    · cases taken
  case answer read =>
    split at taken
    · next here =>
      rcases read with err | ⟨objects,notices⟩
      · cases taken; exact .turn settled (.unread here)
      · cases taken; exact .turn settled (.read here)
    · next here =>
      rcases read with err | ⟨objects,notices⟩
      · cases taken; exact .turn settled (.lost here)
      · cases taken; exact .turn settled (.reread here)
    · cases taken
  case notices =>
    split at taken
    · next here => cases taken; exact .notice settled here
    · next here => cases taken; exact .renotice settled here
    · cases taken
  case phase =>
    split at taken
    · next here => cases taken; exact .park settled here
    · next here => cases taken; exact .connect settled here (List.cons_ne_nil _ _)
    · next here => cases taken; exact .watch settled here
    · next here => cases taken; exact .fail settled here
    · cases taken
  case clear =>
    split at taken
    · next here => cases taken; exact .clear settled here
    · cases taken
  case connect access =>
    split at taken
    · next here =>
      cases access with
      | error err => cases taken; exact .turn settled (.unreached here)
      | ok mapper => cases taken; exact .turn settled (.reached here)
    · cases taken
  case seed =>
    split at taken
    · next here => cases taken; exact .seed settled here
    · cases taken
  case follow =>
    split at taken
    · next here => cases taken; exact .follow settled here
    · cases taken
  case consume =>
    split at taken
    · next here asked => cases taken; exact .rebuild settled here asked
    · next here asked => cases taken; exact .consume settled here asked
    · cases taken
  case compare =>
    split at taken
    · next planned objects here =>
      cases taken
      by_cases equal : planned = objects
      · subst equal
        rw [if_pos rfl]
        exact .turn settled (.same here)
      · rw [if_neg equal]
        exact .turn settled (.superseded here equal)
    · cases taken
  case failed =>
    split at taken
    · next here sent => cases taken; exact .failed settled here sent
    · cases taken
  case done =>
    split at taken
    · next here stopped => cases taken; exact .turn settled (.quit here stopped)
    · next here stopped => cases taken; exact .turn settled (.unpark here stopped)
    · next here stopped => cases taken; exact .turn settled (.unfollow here stopped)
    · cases taken
  case waited =>
    split at taken
    · next here =>
      split at taken
      · next all => cases taken; exact .turn settled (.waited here all)
      · cases taken
    · cases taken
  case leave =>
    split at taken
    · next result here =>
      cases taken
      by_cases stopped : s.cancelled = true
      · rw [if_pos stopped]
        exact .turn settled (.leave here stopped)
      · rw [if_neg stopped]
        have live : s.cancelled = false := Bool.not_eq_true _ ▸ stopped
        cases result with
        | none => exact .turn settled (.again here live)
        | some err => exact .turn settled (.retry here live)
    · cases taken
  case signal => cases taken

theorem workMoves {i : Nat} {w : Worker β} {act : WorkAct β} (at_ : s.workers[i]? = some w)
    (taken : workStep compute s i w act = some t) : Moves compute key s (.work i act) t := by
  cases act with
  | observe obs order =>
    simp only [workStep] at taken
    split at taken
    · next stage next_ =>
      split at taken
      · next met => cases taken; exact .observe at_ next_ met.1 (List.isPerm_iff.mp met.2)
      · cases taken
    · cases taken
  | mark =>
    simp only [workStep] at taken
    split at taken
    · next todo settled => cases taken; exact .mark at_ todo settled
    · cases taken
  | signal =>
    simp only [workStep] at taken
    split at taken
    · next owed => cases taken; exact .workSignal at_ owed
    · cases taken
  | fail denied cause =>
    simp only [workStep] at taken
    split at taken
    · next met => cases taken; exact .workFail at_ met.1 met.2
    · cases taken

theorem announceMoves {act : AnnounceAct} (taken : announceStep s act = some t) :
    Moves compute key s (.announce act) t := by
  cases act <;> simp only [announceStep] at taken <;> split at taken
  case take.isTrue met => cases taken; exact .take met.1 met.2
  case publish.isTrue here => cases taken; exact .publish here
  case rest.isTrue here => cases taken; exact .rest here
  case quit.isTrue met => cases taken; exact .quit met.1 met.2
  all_goals cases taken

theorem stepMoves (taken : step compute key s e = some t) : Moves compute key s e t := by
  cases e with
  | replan => cases taken; exact .replan
  | stop => cases taken; exact .stop
  | loop act =>
    by_cases signals : act = .signal
    · subst signals
      simp only [step] at taken
      split at taken
      · next owed => cases taken; exact .signal owed
      · cases taken
    · have other : (if s.owes then none else loopStep key s act) = some t := by
        cases act <;> first | exact absurd rfl signals | exact taken
      split at other
      · cases other
      · next settled => exact loopMoves (Bool.not_eq_true _ ▸ settled) other
  | work i act =>
    simp only [step] at taken
    split at taken
    · next w at_ => exact workMoves at_ taken
    · cases taken
  | announce act => exact announceMoves taken

end M6t.KubeSession
