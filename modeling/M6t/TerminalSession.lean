import M6t.Runs
import M6t.Text

/-! One terminal tab's session on the window's side: the open call, the sockets it
attaches one after another, and the input kept while none of them is open. -/
namespace M6t.TerminalSession
open M6t.Text M6t.Runs

inductive Frame where
  | input (data : Str)
  | resize (cols rows : Nat)
  | close
  deriving DecidableEq, Repr

inductive ServerMessage where
  | exit (code : Int)
  | resync (droppedBytes : Int)
  | tree (root : Str) (dirs : List Str)
  | git (root : Str)
  | health (root : Str)
  deriving DecidableEq, Repr

inductive SessionStatus where
  | running
  | exited (code : Int)
  | failed (message : Str)
  deriving DecidableEq, Repr

inductive ReadyState where
  | connecting
  | opened
  | closed
  deriving DecidableEq, Repr

inductive Handlers where
  | attached
  | delivering
  | bare
  deriving DecidableEq, Repr

structure Socket where
  sessionID : Str
  readyState : ReadyState
  handlers : Handlers
  deriving DecidableEq, Repr

/-- `opening` says that the open call has not been answered; `wire` holds what was
sent, each frame with the number of its socket. -/
structure State where
  opening : Bool
  socket : Option Nat
  sockets : List Socket
  wire : List (Nat × Frame)
  sessionID : Option Str
  pending : List Str
  closeRequested : Bool
  ended : Bool
  disposed : Bool
  autorun : Option Str
  statuses : List SessionStatus
  deriving DecidableEq, Repr

def fresh (autorun : Option Str) : State where
  opening := true
  socket := none
  sockets := []
  wire := []
  sessionID := none
  pending := []
  closeRequested := false
  ended := false
  disposed := false
  autorun := autorun
  statuses := []

def lostMessage : Str := "the connection to this terminal was lost".toList

namespace State
variable (s : State)

def isOpen (n : Nat) : Bool := s.sockets[n]?.any (fun k => k.readyState = .opened)

def up : Option Nat := s.socket.filter s.isOpen

def put (n : Nat) (frame : Frame) : State := { s with wire := s.wire ++ [(n,frame)] }

def send (data : Str) : State :=
  match s.up with
  | none => { s with pending := s.pending ++ [data] }
  | some n => s.put n (.input data)

def control (frame : Frame) : State :=
  match s.up with
  | none => s
  | some n => s.put n frame

def report (status : SessionStatus) : State :=
  if s.disposed then s else { s with statuses := s.statuses ++ [status] }

def resize (cols rows : Nat) : State := s.control (.resize cols rows)

def close : State := { s with closeRequested := true }.control .close

def turn (n : Nat) (f : Socket → Socket) : State := { s with sockets := s.sockets.modify n f }

def attach (sessionID : Str) : State :=
  { s with socket := some s.sockets.length, sockets := s.sockets ++ [⟨sessionID,.connecting,.attached⟩] }

def detach : State :=
  match s.socket with
  | none => s
  | some n => { s with socket := none }.turn n (fun k => { k with readyState := .closed, handlers := .bare })

def deliverPendingClose : Bool × State :=
  match s.socket with
  | none => (false,s)
  | some n =>
      if s.closeRequested = false ∨ s.isOpen n then (false,s)
      else (true,s.turn n (fun k => { k with handlers := .delivering }))

def dispose : State :=
  match { s with disposed := true }.deliverPendingClose with
  | (true,s) => { s with socket := none }
  | (false,s) => s.detach

def opens (id : Str) : State :=
  let s := { s with opening := false, sessionID := some id }
  if s.disposed then ({ s with closeRequested := true }.attach id).deliverPendingClose.2
  else (s.attach id).report .running

def refuses (message : Str) : State := { s with opening := false }.report (.failed message)

def flush (cols rows : Nat) : State :=
  let s := s.resize cols rows
  let s := s.pending.foldl send { s with pending := [] }
  if s.closeRequested then s.control .close else s

def typeAutorun : State :=
  match s.autorun with
  | none => s
  | some line => { s with autorun := none }.send (line ++ ['\n'])

def resync : State :=
  match s.sessionID with
  | none => s
  | some id => if id = [] then s else s.detach.attach id

def handleControl : Option ServerMessage → State
  | none => s
  | some (.exit code) => { s with ended := true }.report (.exited code)
  | some _ => s.resync

def lost : State :=
  if s.ended ∨ s.disposed then s else { s with ended := true }.report (.failed lostMessage)

end State

inductive Event where
  | typed (data : Str)
  | opens (id : Str)
  | refuses (message : Str)
  | connects (n cols rows : Nat)
  | output (n : Nat)
  | text (n : Nat) (message : Option ServerMessage)
  | drops (n : Nat)
  | close
  | resize (cols rows : Nat)
  | dispose
  deriving DecidableEq, Repr

/-- What a socket that opens runs: `flush` where `attach` left its handlers, and the
close frame followed by the socket's own end where a close waits to be delivered. -/
def onopen (s : State) (n cols rows : Nat) : Handlers → State
  | .attached => s.flush cols rows
  | .delivering => (s.put n .close).turn n (fun k => { k with readyState := .closed })
  | .bare => s

def onmessage (s : State) (n : Nat) (handle : State → State) : Option State :=
  match s.sockets[n]? with
  | none => none
  | some k =>
      if k.readyState ≠ .opened then none
      else if k.handlers = .attached then some (handle s)
      else some s

def step (s : State) : Event → Option State
  | .typed data => some (s.send data)
  | .opens id => if s.opening then some (s.opens id) else none
  | .refuses message => if s.opening then some (s.refuses message) else none
  | .connects n cols rows =>
      match s.sockets[n]? with
      | none => none
      | some k =>
          if k.readyState ≠ .connecting then none
          else some (onopen (s.turn n (fun k => { k with readyState := .opened })) n cols rows k.handlers)
  | .output n => onmessage s n State.typeAutorun
  | .text n message => onmessage s n (fun s => s.handleControl message)
  | .drops n =>
      match s.sockets[n]? with
      | none => none
      | some k =>
          let s := s.turn n (fun k => { k with readyState := .closed })
          if k.handlers = .attached then some s.lost else some s
  | .close => some s.close
  | .resize cols rows => some (s.resize cols rows)
  | .dispose => some s.dispose

def Healthy (_ : State) (e : Event) : Prop := ∀ n, e ≠ .drops n
instance (s : State) (e : Event) : Decidable (Healthy s e) :=
  match e with
  | .drops n => isFalse (fun h => h n rfl)
  | .typed _ | .opens _ | .refuses _ | .connects .. | .output _ | .text .. | .close | .resize .. | .dispose =>
      isTrue (by intro n h; cases h)

def inputs (wire : List (Nat × Frame)) : List Str :=
  wire.filterMap (fun m => match m.2 with | .input data => some data | _ => none)

def produced : Option Str → List Event → List Str
  | _, [] => []
  | line, .typed data :: es => data :: produced line es
  | some line, .output _ :: es => (line ++ ['\n']) :: produced none es
  | line, _ :: es => produced line es

def heard (es : List Event) : Bool := es.any (fun e => match e with | .output _ => true | _ => false)

theorem heardSnoc (es : List Event) (e : Event) : heard (es ++ [e]) = (heard es || heard [e]) := List.any_append

theorem producedSnoc (line : Option Str) (es : List Event) (e : Event) :
    produced line (es ++ [e]) = produced line es ++ produced (if heard es then none else line) [e] := by
  induction es generalizing line with
  | nil => rfl
  | cons d es ih =>
    cases d with
    | output n =>
      cases line with
      | none => simp [produced,ih,heard]
      | some line => simp [produced,ih,heard]
    | _ => cases line <;> simp [produced,ih,heard]

namespace State

def core (s : State) : Bool × Option Nat × List Socket × Option Str × Bool :=
  (s.opening,s.socket,s.sockets,s.sessionID,s.disposed)

variable (s : State)

@[simp] theorem corePut (n : Nat) (frame : Frame) : (s.put n frame).core = s.core := rfl

@[simp] theorem coreSend (data : Str) : (s.send data).core = s.core := by
  unfold send
  split <;> rfl

@[simp] theorem coreControl (frame : Frame) : (s.control frame).core = s.core := by
  unfold control
  split <;> rfl

@[simp] theorem coreReport (status : SessionStatus) : (s.report status).core = s.core := by
  unfold report
  split <;> rfl

theorem coreUp {s t : State} (same : t.core = s.core) : t.up = s.up := by
  simp only [core,Prod.mk.injEq] at same
  have open_ : t.isOpen = s.isOpen := by
    funext n
    simp only [isOpen,same.2.2.1]
  rw [up,up,same.2.1,open_]

theorem upSome {s : State} {n : Nat} : s.up = some n ↔ s.socket = some n ∧ s.isOpen n = true := by
  rw [up,Option.filter_eq_some_iff]

theorem isOpenOf {s : State} {n : Nat} : s.isOpen n = true ↔ ∃ k, s.sockets[n]? = some k ∧ k.readyState = .opened := by
  cases h : s.sockets[n]? <;> simp [isOpen,h]

theorem sendAll {s : State} {n : Nat} (here : s.up = some n) (l : List Str) :
    l.foldl send s = { s with wire := s.wire ++ l.map (fun data => (n,.input data)) } := by
  induction l generalizing s with
  | nil => simp
  | cons data l ih =>
    have first : s.send data = s.put n (.input data) := by rw [send,here]
    have still : (s.put n (.input data)).up = some n := (coreUp (corePut s n _)).trans here
    rw [List.foldl_cons,first,ih still]
    simp [put]

theorem flushOpen {s : State} {n : Nat} (here : s.up = some n) (cols rows : Nat) :
    s.flush cols rows = { s with
      wire := s.wire ++ (n,.resize cols rows) :: s.pending.map (fun data => (n,.input data)) ++
        if s.closeRequested then [(n,.close)] else []
      pending := [] } := by
  have sized : s.resize cols rows = s.put n (.resize cols rows) := by rw [resize,control,here]
  have still : ({ s.put n (.resize cols rows) with pending := [] } : State).up = some n := here
  unfold flush
  simp only [sized]
  rw [sendAll still]
  by_cases asked : s.closeRequested
  · have after : ({ s.put n (.resize cols rows) with
        pending := []
        wire := s.wire ++ [(n,.resize cols rows)] ++ s.pending.map (fun data => (n,.input data)) } : State).up = some n := here
    simp only [put,asked,if_true] at after ⊢
    rw [control,after]
    simp [put]
  · simp [put,asked]

end State
open State

def Quiet (sockets : List Socket) : Prop := ∀ k ∈ sockets,
  k.handlers ≠ .attached ∧ k.readyState ≠ .opened ∧ (k.readyState = .connecting → k.handlers ≠ .bare)

/-- Every socket but the current one is done with: only the current one is open or
has the handlers of `attach`, and a socket that may still open has some. -/
structure Wired (s : State) : Prop where
  newest : ∀ n, s.socket = some n → n + 1 = s.sockets.length
  opened : ∀ (n : Nat) (k : Socket), s.sockets[n]? = some k → k.readyState = .opened →
    s.socket = some n ∧ k.handlers = .attached
  attached : ∀ (n : Nat) (k : Socket), s.sockets[n]? = some k → k.handlers = .attached →
    s.socket = some n ∧ s.disposed = false ∧ k.readyState ≠ .closed
  held : s.disposed = false → ∀ n, s.socket = some n → ∃ k, s.sockets[n]? = some k ∧ k.handlers = .attached
  waiting : ∀ (n : Nat) (k : Socket), s.sockets[n]? = some k → k.readyState = .connecting → k.handlers ≠ .bare
  early : s.opening = true → s.sockets = [] ∧ s.socket = none ∧ s.sessionID = none
  reached : s.disposed = false → s.sessionID ≠ none → s.socket ≠ none

theorem wiredSame {s t : State} (same : t.core = s.core) (wired : Wired s) : Wired t := by
  simp only [core,Prod.mk.injEq] at same
  obtain ⟨opening,socket,sockets,sessionID,disposed⟩ := same
  constructor <;> simp only [opening,socket,sockets,sessionID,disposed]
  exacts [wired.newest,wired.opened,wired.attached,wired.held,wired.waiting,wired.early,wired.reached]

theorem wiredFresh (line : Option Str) : Wired (fresh line) := by
  constructor <;> simp [fresh]

section Sockets
variable {s : State}

theorem detachStill (s : State) :
    s.detach.opening = s.opening ∧ s.detach.sessionID = s.sessionID ∧ s.detach.disposed = s.disposed := by
  unfold detach
  split <;> exact ⟨rfl,rfl,rfl⟩

theorem detachQuiet (wired : Wired s) : Quiet s.detach.sockets ∧ s.detach.socket = none := by
  unfold detach
  cases current : s.socket with
  | none =>
    refine ⟨fun k member => ?_,current⟩
    obtain ⟨n,found⟩ := List.mem_iff_getElem?.mp member
    refine ⟨fun attached => ?_,fun opened => ?_,wired.waiting n k found⟩
    · have := (wired.attached n k found attached).1
      simp [current] at this
    · have := (wired.opened n k found opened).1
      simp [current] at this
  | some c =>
    refine ⟨fun k member => ?_,rfl⟩
    obtain ⟨n,found⟩ := List.mem_iff_getElem?.mp member
    simp only [turn,List.getElem?_modify] at found
    by_cases here : c = n
    · simp only [here,if_true,Option.map_eq_map,Option.map_eq_some_iff] at found
      obtain ⟨old,_,rfl⟩ := found
      simp
    · simp only [here,if_false,Option.map_eq_map,Option.map_id'] at found
      refine ⟨fun attached => ?_,fun opened => ?_,wired.waiting n k found⟩
      · exact here (Option.some.inj (current.symm.trans (wired.attached n k found attached).1))
      · exact here (Option.some.inj (current.symm.trans (wired.opened n k found opened).1))

theorem wiredAppend {t : State} {id : Str} {handlers : Handlers} (quiet : Quiet s.sockets) (opening : t.opening = false)
    (socket : t.socket = some s.sockets.length) (sockets : t.sockets = s.sockets ++ [⟨id,.connecting,handlers⟩])
    (owner : handlers = .attached ∧ t.disposed = false ∨ handlers = .delivering ∧ t.disposed = true) : Wired t := by
  have cases_ : ∀ {n : Nat} {k : Socket}, t.sockets[n]? = some k →
      k ∈ s.sockets ∨ n = s.sockets.length ∧ k = ⟨id,.connecting,handlers⟩ := by
    intro n k found
    rw [sockets,List.getElem?_append] at found
    split at found
    · exact Or.inl (List.mem_of_getElem? found)
    · rw [List.getElem?_singleton] at found
      split at found
      · exact Or.inr ⟨by omega,(Option.some.inj found).symm⟩
      · contradiction
  constructor
  case newest => intro n current; simp_all
  case opened =>
    intro n k found opened
    rcases cases_ found with old | ⟨_,rfl⟩
    · exact absurd opened (quiet k old).2.1
    · contradiction
  case attached =>
    intro n k found attached
    rcases cases_ found with old | ⟨rfl,rfl⟩
    · exact absurd attached (quiet k old).1
    · refine ⟨socket,?_,by simp⟩
      rcases owner with ⟨_,live⟩ | ⟨other,_⟩
      · exact live
      · rw [other] at attached
        contradiction
  case held =>
    intro live n current
    have mine : handlers = .attached := by
      rcases owner with ⟨mine,_⟩ | ⟨_,gone⟩
      · exact mine
      · rw [live] at gone
        contradiction
    refine ⟨⟨id,.connecting,handlers⟩,?_,mine⟩
    cases Option.some.inj (socket.symm.trans current)
    rw [sockets]
    simp
  case waiting =>
    intro n k found connecting
    rcases cases_ found with old | ⟨_,rfl⟩
    · exact (quiet k old).2.2 connecting
    · rcases owner with ⟨rfl,_⟩ | ⟨rfl,_⟩ <;> simp
  case early => simp [opening]
  case reached => simp [socket]

end Sockets

inductive Moves (s : State) : Event → State → Prop where
  | typed (data : Str) : Moves s (.typed data) (s.send data)
  | opens {id : Str} (opening : s.opening = true) (live : s.disposed = false) :
      Moves s (.opens id) (({ s with opening := false, sessionID := some id }.attach id).report .running)
  | opensLate {id : Str} (opening : s.opening = true) (gone : s.disposed = true) :
      Moves s (.opens id) { s with
        opening := false
        sessionID := some id
        closeRequested := true
        socket := some 0
        sockets := [⟨id,.connecting,.delivering⟩] }
  | refuses {message : Str} (opening : s.opening = true) : Moves s (.refuses message) (s.refuses message)
  | connects {n : Nat} {k : Socket} {cols rows : Nat} (found : s.sockets[n]? = some k)
      (connecting : k.readyState = .connecting) (attached : k.handlers = .attached) :
      Moves s (.connects n cols rows) { s.turn n (fun k => { k with readyState := .opened }) with
        wire := s.wire ++ (n,.resize cols rows) :: s.pending.map (fun data => (n,.input data)) ++
          if s.closeRequested then [(n,.close)] else []
        pending := [] }
  | delivers {n : Nat} {k : Socket} {cols rows : Nat} (found : s.sockets[n]? = some k)
      (connecting : k.readyState = .connecting) (delivering : k.handlers = .delivering) :
      Moves s (.connects n cols rows) ((s.put n .close).turn n (fun k => { k with readyState := .closed }))
  | outputs {n : Nat} (here : s.up = some n) : Moves s (.output n) s.typeAutorun
  | ignores {n : Nat} {message : Option ServerMessage} (here : s.up = some n) : Moves s (.text n message) s
  | exits {n : Nat} {code : Int} (here : s.up = some n) :
      Moves s (.text n (some (.exit code))) ({ s with ended := true }.report (.exited code))
  | resyncs {n : Nat} {message : Option ServerMessage} {id : Str} (here : s.up = some n)
      (live : s.disposed = false) (named : s.sessionID = some id) :
      Moves s (.text n message) (s.detach.attach id)
  | closes : Moves s .close s.close
  | resizes {cols rows : Nat} : Moves s (.resize cols rows) (s.resize cols rows)
  | disposesLate {n : Nat} (current : s.socket = some n) (asked : s.closeRequested = true)
      (shut : s.isOpen n = false) :
      Moves s .dispose { s.turn n (fun k => { k with handlers := .delivering }) with disposed := true, socket := none }
  | disposes (clear : s.closeRequested = false ∨ ∀ n, s.socket = some n → s.isOpen n = true) :
      Moves s .dispose { s with disposed := true }.detach

section Stepping
variable {s t : State} {e : Event}

theorem openCurrent (wired : Wired s) {n : Nat} {k : Socket} (found : s.sockets[n]? = some k)
    (opened : k.readyState = .opened) : s.up = some n ∧ k.handlers = .attached ∧ s.disposed = false := by
  obtain ⟨current,attached⟩ := wired.opened n k found opened
  exact ⟨upSome.mpr ⟨current,isOpenOf.mpr ⟨k,found,opened⟩⟩,attached,(wired.attached n k found attached).2.1⟩

theorem onmessageCurrent (wired : Wired s) {n : Nat} {handle : State → State}
    (taken : onmessage s n handle = some t) : s.up = some n ∧ s.disposed = false ∧ t = handle s := by
  unfold onmessage at taken
  split at taken
  · contradiction
  · rename_i k found
    split at taken
    · contradiction
    · rename_i opened
      obtain ⟨here,attached,live⟩ := openCurrent wired found (not_not.mp opened)
      rw [if_pos attached] at taken
      exact ⟨here,live,(Option.some.inj taken).symm⟩

theorem turnOpen {n : Nat} {k : Socket} (found : s.sockets[n]? = some k) (current : s.socket = some n) :
    (s.turn n (fun k => { k with readyState := .opened })).up = some n := by
  refine upSome.mpr ⟨current,isOpenOf.mpr ⟨{ k with readyState := .opened },?_,rfl⟩⟩
  simp [turn,found]

theorem connectMoves (wired : Wired s) {n cols rows : Nat} (taken : step s (.connects n cols rows) = some t) :
    Moves s (.connects n cols rows) t := by
  simp only [step] at taken
  split at taken
  · contradiction
  · rename_i k found
    split at taken
    · contradiction
    · rename_i connecting
      have connecting := not_not.mp connecting
      cases Option.some.inj taken
      cases handlers : k.handlers with
      | attached =>
        have here := turnOpen found (wired.attached n k found handlers).1
        rw [onopen,flushOpen here]
        exact .connects found connecting handlers
      | delivering =>
        have moved : Moves s (.connects n cols rows) _ := .delivers found connecting handlers
        have same : ((s.turn n (fun k => { k with readyState := .opened })).put n .close).turn n
            (fun k => { k with readyState := .closed }) =
            (s.put n .close).turn n (fun k => { k with readyState := .closed }) := by
          simp [turn,put,List.modify_modify_eq,Function.comp_def]
        rw [onopen,same]
        exact moved
      | bare => exact absurd handlers (wired.waiting n k found connecting)

theorem deliverCases (s : State) :
    (∃ n, s.socket = some n ∧ s.closeRequested = true ∧ s.isOpen n = false ∧
      s.deliverPendingClose = (true,s.turn n (fun k => { k with handlers := .delivering }))) ∨
    (s.closeRequested = false ∨ ∀ n, s.socket = some n → s.isOpen n = true) ∧ s.deliverPendingClose = (false,s) := by
  unfold deliverPendingClose
  cases current : s.socket with
  | none => exact Or.inr ⟨Or.inr (fun n here => by cases here),rfl⟩
  | some n =>
    dsimp only
    by_cases clear : s.closeRequested = false ∨ s.isOpen n = true
    · rw [if_pos clear]
      refine Or.inr ⟨clear.imp id (fun opened m here => ?_),rfl⟩
      cases here
      exact opened
    · rw [if_neg clear]
      obtain ⟨asked,shut⟩ := not_or.mp clear
      exact Or.inl ⟨n,rfl,by simpa using asked,by simpa using shut,rfl⟩

theorem disposeMoves : Moves s .dispose s.dispose := by
  rcases deliverCases { s with disposed := true } with ⟨n,current,asked,shut,kept⟩ | ⟨clear,dropped⟩
  · rw [dispose,kept]
    exact .disposesLate current asked shut
  · rw [dispose,dropped]
    exact .disposes clear

theorem stepMoves (wired : Wired s) (healthy : Healthy s e) (taken : step s e = some t) : Moves s e t := by
  cases e with
  | typed data => cases Option.some.inj taken; exact .typed data
  | opens id =>
    simp only [step] at taken
    split at taken
    · rename_i opening
      cases Option.some.inj taken
      obtain ⟨sockets,socket,_⟩ := wired.early opening
      unfold State.opens
      dsimp only
      split
      · rename_i gone
        have moved : Moves s (.opens id) _ := .opensLate opening gone
        simpa [attach,deliverPendingClose,isOpen,turn,sockets] using moved
      · rename_i live
        exact .opens opening (by simpa using live)
    · contradiction
  | refuses message =>
    simp only [step] at taken
    split at taken
    · rename_i opening
      cases Option.some.inj taken
      exact .refuses opening
    · contradiction
  | connects n cols rows => exact connectMoves wired taken
  | output n =>
    obtain ⟨here,_,rfl⟩ := onmessageCurrent wired taken
    exact .outputs here
  | text n message =>
    have taken : onmessage s n (fun s => s.handleControl message) = some t := taken
    obtain ⟨here,live,rfl⟩ := onmessageCurrent wired taken
    have again : Moves s (.text n message) s.resync := by
      unfold resync
      split
      · exact .ignores here
      · rename_i id named
        split
        · exact .ignores here
        · exact .resyncs here live named
    cases message with
    | none => exact .ignores here
    | some message =>
      cases message with
      | exit code => exact .exits here
      | _ => exact again
  | drops n => exact absurd rfl (healthy n)
  | close => cases Option.some.inj taken; exact .closes
  | resize cols rows => cases Option.some.inj taken; exact .resizes
  | dispose => cases Option.some.inj taken; exact disposeMoves

theorem modifyGet {n m : Nat} {f : Socket → Socket} {l : List Socket} {k : Socket} (found : (l.modify n f)[m]? = some k) :
    m = n ∧ (∃ old, l[m]? = some old ∧ k = f old) ∨ m ≠ n ∧ l[m]? = some k := by
  rw [List.getElem?_modify] at found
  by_cases here : n = m
  · simp only [here,if_true,Option.map_eq_map,Option.map_eq_some_iff] at found
    obtain ⟨old,at_,same⟩ := found
    exact Or.inl ⟨here.symm,old,at_,same.symm⟩
  · simp only [here,if_false,Option.map_eq_map,Option.map_id'] at found
    exact Or.inr ⟨Ne.symm here,found⟩

theorem wiredQuiet (quiet : Quiet t.sockets) (socket : t.socket = none) (gone : t.disposed = true)
    (early : t.opening = true → t.sockets = [] ∧ t.sessionID = none) : Wired t := by
  have each : ∀ (n : Nat) (k : Socket), t.sockets[n]? = some k → k ∈ t.sockets :=
    fun _ _ found => List.mem_of_getElem? found
  constructor
  case newest => simp [socket]
  case opened => exact fun n k found opened => absurd opened (quiet k (each n k found)).2.1
  case attached => exact fun n k found attached => absurd attached (quiet k (each n k found)).1
  case held => simp [gone]
  case waiting => exact fun n k found => (quiet k (each n k found)).2.2
  case early => exact fun opening => ⟨(early opening).1,socket,(early opening).2⟩
  case reached => simp [gone]

theorem wiredTurn {n : Nat} {k : Socket} {f : Socket → Socket} (wired : Wired s) (found : s.sockets[n]? = some k)
    (same : t.core = (s.turn n f).core) (kept : (f k).handlers = k.handlers)
    (opens : (f k).readyState = .opened → s.socket = some n ∧ k.handlers = .attached)
    (stays : k.handlers = .attached → (f k).readyState ≠ .closed)
    (waits : (f k).readyState = .connecting → k.handlers ≠ .bare) : Wired t := by
  refine wiredSame same ?_
  have turned : ∀ {m : Nat} {j : Socket}, (s.turn n f).sockets[m]? = some j →
      m = n ∧ j = f k ∨ s.sockets[m]? = some j := by
    intro m j here
    rcases modifyGet here with ⟨rfl,old,at_,rfl⟩ | ⟨_,at_⟩
    · cases Option.some.inj (found.symm.trans at_)
      exact Or.inl ⟨rfl,rfl⟩
    · exact Or.inr at_
  constructor
  case newest => simpa [turn] using wired.newest
  case opened =>
    intro m j here opened
    rcases turned here with ⟨rfl,rfl⟩ | at_
    · exact ⟨(opens opened).1,kept.trans (opens opened).2⟩
    · exact wired.opened m j at_ opened
  case attached =>
    intro m j here mine
    rcases turned here with ⟨rfl,rfl⟩ | at_
    · have before := wired.attached m k found (kept.symm.trans mine)
      exact ⟨before.1,before.2.1,stays (kept.symm.trans mine)⟩
    · exact wired.attached m j at_ mine
  case held =>
    intro live m current
    obtain ⟨j,at_,mine⟩ := wired.held live m current
    by_cases here : n = m
    · subst here
      cases Option.some.inj (found.symm.trans at_)
      exact ⟨f k,by simp [turn,found],kept.trans mine⟩
    · exact ⟨j,by simp [turn,here,at_],mine⟩
  case waiting =>
    intro m j here waiting
    rcases turned here with ⟨rfl,rfl⟩ | at_
    · exact kept ▸ waits waiting
    · exact wired.waiting m j at_ waiting
  case early =>
    intro opening
    have none := (wired.early opening).1
    simp [none] at found
  case reached => exact wired.reached

theorem wiredStep (wired : Wired s) (moved : Moves s e t) : Wired t := by
  cases moved with
  | typed data => exact wiredSame (coreSend s data) wired
  | opens opening live =>
    refine wiredSame (coreReport _ _) ?_
    have quiet : Quiet s.sockets := by simp [Quiet,(wired.early opening).1]
    exact wiredAppend quiet rfl rfl rfl (Or.inl ⟨rfl,live⟩)
  | @opensLate id opening gone =>
    have none := (wired.early opening).1
    have quiet : Quiet s.sockets := by simp [Quiet,none]
    have grown : [⟨id,.connecting,.delivering⟩] = s.sockets ++ [(⟨id,.connecting,.delivering⟩ : Socket)] := by simp [none]
    exact wiredAppend quiet rfl (by simp [none]) grown (Or.inr ⟨rfl,gone⟩)
  | refuses opening =>
    obtain ⟨sockets,socket,sessionID⟩ := wired.early opening
    refine wiredSame (coreReport _ _) ?_
    constructor <;> simp [sockets,socket,sessionID]
  | @connects n k _ _ found connecting attached =>
    have current := (wired.attached n k found attached).1
    exact wiredTurn (f := fun k => { k with readyState := .opened }) wired found rfl rfl (fun _ => ⟨current,attached⟩)
      (by simp) (by simp)
  | @delivers n k _ _ found connecting delivering =>
    exact wiredTurn (f := fun k => { k with readyState := .closed }) wired found rfl rfl (by simp) (by simp [delivering])
      (by simp)
  | outputs here =>
    unfold typeAutorun
    split
    · exact wired
    · exact wiredSame (s := s) (coreSend _ _) wired
  | ignores here => exact wired
  | exits here => exact wiredSame (s := s) (coreReport _ _) wired
  | resyncs here live named =>
    obtain ⟨opening,_,disposed⟩ := detachStill s
    refine wiredAppend (detachQuiet wired).1 ?_ rfl rfl (Or.inl ⟨rfl,disposed.trans live⟩)
    show s.detach.opening = false
    rw [opening]
    by_contra early
    have none := (wired.early (by simpa using early)).2.2
    simp [none] at named
  | closes => exact wiredSame (s := s) (coreControl _ _) wired
  | resizes => exact wiredSame (coreControl _ _) wired
  | @disposesLate n current asked shut =>
    refine wiredQuiet (fun k member => ?_) rfl rfl (fun opening => ?_)
    · obtain ⟨m,found⟩ := List.mem_iff_getElem?.mp member
      rcases modifyGet found with ⟨rfl,old,at_,rfl⟩ | ⟨other,at_⟩
      · refine ⟨by simp,fun opened => ?_,by simp⟩
        have := isOpenOf.mpr ⟨old,at_,opened⟩
        simp [shut] at this
      · refine ⟨fun mine => ?_,fun opened => ?_,wired.waiting m k at_⟩
        · exact other (Option.some.inj ((wired.attached m k at_ mine).1.symm.trans current))
        · exact other (Option.some.inj ((wired.opened m k at_ opened).1.symm.trans current))
    · have none := (wired.early opening).2.1
      simp [none] at current
  | disposes clear =>
    have quiet := detachQuiet wired
    have same : ({ s with disposed := true } : State).detach = { s.detach with disposed := true } := by
      unfold detach
      dsimp only
      split <;> rfl
    obtain ⟨opening,sessionID,_⟩ := detachStill s
    rw [same]
    refine wiredQuiet quiet.1 quiet.2 rfl (fun early => ?_)
    have start := wired.early (opening ▸ early)
    refine ⟨?_,sessionID.trans start.2.2⟩
    simp [detach,start]

end Stepping

def Told (s : State) : Prop := ∃ n, (n,Frame.close) ∈ s.wire

structure Flowing (s : State) : Prop where
  idle : s.up ≠ none → s.pending = []
  told : s.closeRequested = true → s.up ≠ none → Told s
  promised : ∀ k ∈ s.sockets, k.handlers = .delivering → s.closeRequested = true

def given (s : State) : List Str := inputs s.wire ++ s.pending

section Flow
variable {s t : State} {e : Event}

theorem inputsAppend (a b : List (Nat × Frame)) : inputs (a ++ b) = inputs a ++ inputs b := List.filterMap_append

theorem givenSend (flowing : Flowing s) (data : Str) : given (s.send data) = given s ++ [data] := by
  unfold send
  split
  · simp [given]
  · rename_i n here
    have none := flowing.idle (by simp [here])
    simp [given,put,none,inputs]

theorem autorunSend (data : Str) : (s.send data).autorun = s.autorun := by
  unfold send
  split <;> rfl

theorem keptControl {frame : Frame} (other : inputs [(0,frame)] = []) :
    given (State.control s frame) = given s ∧ (State.control s frame).autorun = s.autorun := by
  unfold State.control
  split
  · exact ⟨rfl,rfl⟩
  · rename_i n here
    have nothing : inputs [(n,frame)] = [] := other
    exact ⟨by simp [given,put,inputsAppend,nothing],rfl⟩

theorem keptReport (status : SessionStatus) :
    given (s.report status) = given s ∧ (s.report status).autorun = s.autorun := by
  unfold report
  split <;> exact ⟨rfl,rfl⟩

theorem inputsMap (n : Nat) (l : List Str) : inputs (l.map (fun data => (n,.input data))) = l := by
  induction l with
  | nil => rfl
  | cons data l ih => exact congrArg (data :: ·) ih

theorem detachForm (s : State) : ∃ sockets, s.detach = { s with socket := none, sockets := sockets } := by
  unfold detach
  split
  · rename_i none
    exact ⟨s.sockets,by rw [← none]⟩
  · exact ⟨_,rfl⟩

theorem silentEvent (typed : ∀ data, e ≠ .typed data) (output : ∀ n, e ≠ .output n)
    (kept : given t = given s ∧ t.autorun = s.autorun) :
    given t = given s ++ produced s.autorun [e] ∧ t.autorun = if heard [e] then none else s.autorun := by
  have silent : produced s.autorun [e] = [] ∧ heard [e] = false := by
    cases e with
    | typed data => exact absurd rfl (typed data)
    | output n => exact absurd rfl (output n)
    | _ => cases s.autorun <;> exact ⟨rfl,rfl⟩
  rw [silent.1,silent.2,List.append_nil]
  exact kept

theorem givenStep (flowing : Flowing s) (moved : Moves s e t) :
    given t = given s ++ produced s.autorun [e] ∧ t.autorun = if heard [e] then none else s.autorun := by
  cases moved with
  | typed data => exact ⟨givenSend flowing data,autorunSend data⟩
  | outputs here =>
    cases line : s.autorun with
    | none => exact ⟨by simp [typeAutorun,line,produced],by simp [typeAutorun,line]⟩
    | some line' =>
      have flowing' : Flowing { s with autorun := none } := ⟨flowing.idle,flowing.told,flowing.promised⟩
      rw [typeAutorun,line]
      exact ⟨givenSend flowing' (line' ++ ['\n']),autorunSend _⟩
  | @connects n _ cols rows found connecting attached =>
    refine silentEvent (by simp) (by simp) ⟨?_,rfl⟩
    have sized : inputs [(n,.resize cols rows)] = [] := rfl
    have closing : inputs (if s.closeRequested then [(n,.close)] else []) = [] := by split <;> rfl
    rw [given,List.append_assoc,inputsAppend,List.cons_append,← List.singleton_append,inputsAppend,inputsAppend,inputsMap,
      sized,closing]
    simp [given]
  | delivers found connecting delivering =>
    exact silentEvent (by simp) (by simp) ⟨by simp [given,turn,put,inputs],rfl⟩
  | opens opening live => exact silentEvent (by simp) (by simp) (keptReport _)
  | refuses opening => exact silentEvent (by simp) (by simp) (keptReport _)
  | exits here => exact silentEvent (by simp) (by simp) (keptReport _)
  | resyncs here live named =>
    obtain ⟨sockets,form⟩ := detachForm s
    rw [form]
    exact silentEvent (by simp) (by simp) ⟨rfl,rfl⟩
  | closes => exact silentEvent (by simp) (by simp) (keptControl rfl)
  | resizes => exact silentEvent (by simp) (by simp) (keptControl rfl)
  | disposes clear =>
    obtain ⟨sockets,form⟩ := detachForm { s with disposed := true }
    rw [form]
    exact silentEvent (by simp) (by simp) ⟨rfl,rfl⟩
  | _ => exact silentEvent (by simp) (by simp) ⟨rfl,rfl⟩

/-! What the steps only add to. -/

theorem wireSend (data : Str) : s.wire <+: (s.send data).wire := by
  unfold send
  split
  · exact List.prefix_rfl
  · exact List.prefix_append _ _

theorem controlForm (s : State) (frame : Frame) :
    ∃ wire, State.control s frame = { s with wire := wire } ∧ s.wire <+: wire := by
  unfold State.control
  split
  · exact ⟨s.wire,rfl,List.prefix_rfl⟩
  · exact ⟨_,rfl,List.prefix_append _ _⟩

theorem wireControl (frame : Frame) : s.wire <+: (State.control s frame).wire := by
  obtain ⟨wire,form,more⟩ := controlForm s frame
  rw [form]
  exact more

theorem wireReport (status : SessionStatus) : (s.report status).wire = s.wire := by
  unfold report
  split <;> rfl

theorem wireStep (moved : Moves s e t) : s.wire <+: t.wire := by
  cases moved with
  | typed data => exact wireSend data
  | outputs here =>
    unfold typeAutorun
    split
    · exact List.prefix_rfl
    · exact wireSend (s := { s with autorun := none }) _
  | connects found connecting attached => exact ⟨_,(List.append_assoc _ _ _).symm⟩
  | delivers found connecting delivering => exact List.prefix_append _ _
  | opens opening live => rw [wireReport]; exact List.prefix_rfl
  | refuses opening => rw [State.refuses,wireReport]
  | exits here => rw [wireReport]
  | closes => exact wireControl (s := { s with closeRequested := true }) _
  | resizes => exact wireControl _
  | resyncs here live named =>
    obtain ⟨sockets,form⟩ := detachForm s
    rw [form]
    exact List.prefix_rfl
  | disposes clear =>
    obtain ⟨sockets,form⟩ := detachForm { s with disposed := true }
    rw [form]
  | _ => exact List.prefix_rfl

theorem toldStep (told : Told s) (moved : Moves s e t) : Told t :=
  told.imp (fun _ member => (wireStep moved).subset member)

theorem attachShut (id : Str) : (s.attach id).up = none := by
  rw [up,Option.filter_eq_none_iff]
  intro n current
  cases Option.some.inj current
  simp [attach,isOpen]

theorem controlTold (asked : s.up ≠ none) : Told (State.control s .close) := by
  obtain ⟨n,here⟩ := Option.ne_none_iff_exists'.mp asked
  refine ⟨n,?_⟩
  simp [State.control,here,put]

theorem flowSame {u : State} (flowing : Flowing s) (same : u.core = s.core)
    (pending : s.up ≠ none → u.pending = s.pending) (asked : u.closeRequested = s.closeRequested)
    (wire : s.wire <+: u.wire) : Flowing u := by
  have here := coreUp same
  simp only [core,Prod.mk.injEq] at same
  constructor
  case idle => exact fun opened => (pending (here ▸ opened)).trans (flowing.idle (here ▸ opened))
  case told =>
    intro requested opened
    exact (flowing.told (asked ▸ requested) (here ▸ opened)).imp (fun _ member => wire.subset member)
  case promised => rw [asked,same.2.2.1]; exact flowing.promised

theorem flowShut {u : State} (shut : u.up = none)
    (promised : ∀ k ∈ u.sockets, k.handlers = .delivering → u.closeRequested = true) : Flowing u :=
  ⟨fun opened => absurd shut opened,fun _ opened => absurd shut opened,promised⟩

theorem flowSend (flowing : Flowing s) (data : Str) : Flowing (s.send data) := by
  refine flowSame flowing (coreSend s data) (fun opened => ?_) ?_ (wireSend data)
  · obtain ⟨n,here⟩ := Option.ne_none_iff_exists'.mp opened
    simp [send,here,put]
  · unfold send
    split <;> rfl

theorem flowReport (flowing : Flowing s) (status : SessionStatus) : Flowing (s.report status) := by
  have same := coreReport s status
  unfold report at same ⊢
  split
  · exact flowing
  · exact ⟨flowing.idle,flowing.told,flowing.promised⟩

theorem detachQuietSocket (s : State) : s.detach.socket = none := by
  obtain ⟨sockets,form⟩ := detachForm s
  rw [form]

theorem detachPromised (flowing : Flowing s) {k : Socket} (member : k ∈ s.detach.sockets)
    (delivering : k.handlers = .delivering) : s.detach.closeRequested = true := by
  unfold detach at member ⊢
  split at member
  · exact flowing.promised k member delivering
  · rename_i n current
    obtain ⟨m,here⟩ := List.mem_iff_getElem?.mp member
    rcases modifyGet here with ⟨rfl,old,at_,rfl⟩ | ⟨other,at_⟩
    · contradiction
    · exact flowing.promised k (List.mem_of_getElem? at_) delivering

theorem flowStep (flowing : Flowing s) (moved : Moves s e t) : Flowing t := by
  cases moved with
  | typed data => exact flowSend flowing data
  | opens opening live =>
    refine flowReport (flowShut (attachShut _) (fun k member delivering => ?_)) _
    rcases List.mem_append.mp member with old | new
    · exact flowing.promised k old delivering
    · cases List.mem_singleton.mp new
      contradiction
  | opensLate opening gone => exact flowShut rfl (fun _ _ _ => rfl)
  | refuses opening => exact flowReport (s := { s with opening := false }) ⟨flowing.idle,flowing.told,flowing.promised⟩ _
  | @connects n k cols rows found connecting attached =>
    refine ⟨fun _ => rfl,fun asked _ => ⟨n,?_⟩,fun j member delivering => ?_⟩
    · have asked : s.closeRequested = true := asked
      simp [asked]
    · obtain ⟨m,here⟩ := List.mem_iff_getElem?.mp member
      rcases modifyGet here with ⟨rfl,old,at_,rfl⟩ | ⟨other,at_⟩
      · exact flowing.promised old (List.mem_of_getElem? at_) delivering
      · exact flowing.promised j (List.mem_of_getElem? at_) delivering
  | @delivers n k cols rows found connecting delivering =>
    have open_ : ∀ m, ((s.put n .close).turn n (fun k => { k with readyState := .closed })).up = some m → s.up = some m := by
      intro m here
      obtain ⟨current,opened⟩ := upSome.mp here
      obtain ⟨j,at_,ready⟩ := isOpenOf.mp opened
      rcases modifyGet at_ with ⟨rfl,old,_,rfl⟩ | ⟨_,at_⟩
      · contradiction
      · exact upSome.mpr ⟨current,isOpenOf.mpr ⟨j,at_,ready⟩⟩
    refine ⟨fun here => ?_,fun _ _ => ⟨n,?_⟩,fun j member mine => ?_⟩
    · obtain ⟨m,here⟩ := Option.ne_none_iff_exists'.mp here
      exact flowing.idle (by simp [open_ m here])
    · simp [turn,put]
    · obtain ⟨m,here⟩ := List.mem_iff_getElem?.mp member
      rcases modifyGet here with ⟨rfl,old,at_,rfl⟩ | ⟨other,at_⟩
      · exact flowing.promised old (List.mem_of_getElem? at_) mine
      · exact flowing.promised j (List.mem_of_getElem? at_) mine
  | outputs here =>
    unfold typeAutorun
    split
    · exact flowing
    · exact flowSend (s := { s with autorun := none }) ⟨flowing.idle,flowing.told,flowing.promised⟩ _
  | ignores here => exact flowing
  | exits here => exact flowReport (s := { s with ended := true }) ⟨flowing.idle,flowing.told,flowing.promised⟩ _
  | resyncs here live named =>
    refine flowShut (attachShut _) (fun k member delivering => ?_)
    rcases List.mem_append.mp member with old | new
    · exact detachPromised flowing old delivering
    · cases List.mem_singleton.mp new
      contradiction
  | closes =>
    obtain ⟨wire,form,more⟩ := controlForm { s with closeRequested := true } .close
    refine ⟨fun opened => ?_,fun _ opened => controlTold ?_,fun _ _ _ => ?_⟩
    · rw [State.close,form] at opened ⊢
      exact flowing.idle opened
    · rwa [State.close,coreUp (coreControl _ _)] at opened
    · rw [State.close,form]
  | resizes =>
    obtain ⟨wire,form,more⟩ := controlForm s _
    rw [State.resize,form]
    exact flowSame flowing rfl (fun _ => rfl) rfl more
  | disposesLate current asked shut => exact flowShut rfl (fun _ _ _ => asked)
  | disposes clear =>
    have flowing' : Flowing { s with disposed := true } := ⟨flowing.idle,flowing.told,flowing.promised⟩
    have none := (detachQuietSocket { s with disposed := true })
    exact flowShut (by simp [up,none]) (fun k member => detachPromised flowing' member)

theorem sendForm (s : State) (data : Str) :
    ∃ wire pending, s.send data = { s with wire := wire, pending := pending } := by
  unfold send
  split
  · exact ⟨s.wire,_,rfl⟩
  · exact ⟨_,s.pending,rfl⟩

theorem autorunForm (s : State) :
    ∃ wire pending autorun, s.typeAutorun = { s with wire := wire, pending := pending, autorun := autorun } := by
  unfold typeAutorun
  split
  · exact ⟨s.wire,s.pending,s.autorun,rfl⟩
  · obtain ⟨wire,pending,form⟩ := sendForm { s with autorun := none } (_ ++ ['\n'])
    exact ⟨wire,pending,none,form⟩

theorem reportForm (s : State) (status : SessionStatus) :
    ∃ statuses, s.report status = { s with statuses := statuses } ∧ (s.disposed = true → statuses = s.statuses) := by
  unfold report
  split
  · exact ⟨s.statuses,rfl,fun _ => rfl⟩
  · rename_i live
    exact ⟨_,rfl,fun gone => absurd gone live⟩

theorem quietStep (gone : s.disposed = true) (moved : Moves s e t) : t.statuses = s.statuses := by
  cases moved with
  | typed data =>
    obtain ⟨wire,pending,form⟩ := sendForm s data
    rw [form]
  | opens opening live =>
    rw [gone] at live
    contradiction
  | @refuses message opening =>
    obtain ⟨statuses,form,same⟩ := reportForm { s with opening := false } (.failed message)
    rw [State.refuses,form]
    exact same gone
  | outputs here =>
    obtain ⟨wire,pending,autorun,form⟩ := autorunForm s
    rw [form]
  | @exits n code here =>
    obtain ⟨statuses,form,same⟩ := reportForm { s with ended := true } (.exited code)
    rw [form]
    exact same gone
  | resyncs here live named =>
    obtain ⟨sockets,form⟩ := detachForm s
    rw [form]
    rfl
  | closes =>
    obtain ⟨wire,form,_⟩ := controlForm { s with closeRequested := true } .close
    rw [State.close,form]
  | resizes =>
    obtain ⟨wire,form,_⟩ := controlForm s _
    rw [State.resize,form]
  | disposes clear =>
    obtain ⟨sockets,form⟩ := detachForm { s with disposed := true }
    rw [form]
  | _ => rfl

theorem disposedStep (moved : Moves s e t) : t.disposed = true ↔ s.disposed = true ∨ e = .dispose := by
  cases moved with
  | typed data =>
    obtain ⟨wire,pending,form⟩ := sendForm s data
    simp [form]
  | @opens id opening live =>
    obtain ⟨statuses,form,_⟩ := reportForm ({ s with opening := false, sessionID := some id }.attach id) .running
    rw [form]
    simp [attach]
  | @refuses message opening =>
    obtain ⟨statuses,form,_⟩ := reportForm { s with opening := false } (.failed message)
    simp [State.refuses,form]
  | outputs here =>
    obtain ⟨wire,pending,autorun,form⟩ := autorunForm s
    simp [form]
  | @exits n code here =>
    obtain ⟨statuses,form,_⟩ := reportForm { s with ended := true } (.exited code)
    simp [form]
  | resyncs here live named =>
    obtain ⟨sockets,form⟩ := detachForm s
    rw [form]
    simp [attach]
  | closes =>
    obtain ⟨wire,form,_⟩ := controlForm { s with closeRequested := true } .close
    simp [State.close,form]
  | resizes =>
    obtain ⟨wire,form,_⟩ := controlForm s _
    rw [State.resize,form]
    simp
  | disposes clear =>
    obtain ⟨sockets,form⟩ := detachForm { s with disposed := true }
    simp [form]
  | _ => simp [turn,put]

def Owes (s : State) : Prop :=
  s.disposed = false ∧ s.closeRequested = true ∨
    s.disposed = true ∧ (s.sessionID = none ∨ Told s ∨
      ∃ (n : Nat) (k : Socket), s.sockets[n]? = some k ∧ k.readyState = .connecting ∧ k.handlers = .delivering)

theorem owesSame {u : State} (owes : Owes s) (same : u.core = s.core)
    (asked : s.closeRequested = true → u.closeRequested = true) (wire : s.wire <+: u.wire) : Owes u := by
  simp only [core,Prod.mk.injEq] at same
  obtain ⟨_,_,sockets,sessionID,disposed⟩ := same
  rcases owes with ⟨live,requested⟩ | ⟨gone,left⟩
  · exact Or.inl ⟨disposed.trans live,asked requested⟩
  · refine Or.inr ⟨disposed.trans gone,?_⟩
    rw [sockets,sessionID]
    exact left.imp_right (Or.imp_left (fun told => told.imp (fun _ member => wire.subset member)))

theorem owesReached (wired : Wired s) (flowing : Flowing s) (owes : Owes s) (named : s.sessionID ≠ none) :
    Told s ∨ ∃ (n : Nat) (k : Socket), s.sockets[n]? = some k ∧ k.readyState = .connecting ∧
      (s.socket = some n ∨ k.handlers = .delivering) := by
  rcases owes with ⟨live,requested⟩ | ⟨_,none | told | ⟨n,k,found,connecting,delivering⟩⟩
  · obtain ⟨n,current⟩ := Option.ne_none_iff_exists'.mp (wired.reached live named)
    obtain ⟨k,found,attached⟩ := wired.held live n current
    cases ready : k.readyState with
    | connecting => exact Or.inr ⟨n,k,found,ready,Or.inl current⟩
    | opened =>
      have here := (openCurrent wired found ready).1
      exact Or.inl (flowing.told requested (by simp [here]))
    | closed => exact absurd ready (wired.attached n k found attached).2.2
  · exact absurd none named
  · exact Or.inl told
  · exact Or.inr ⟨n,k,found,connecting,Or.inr delivering⟩

theorem owesConnect (wired : Wired s) (owes : Owes s) {n cols rows : Nat} (moved : Moves s (.connects n cols rows) t) :
    Told t := by
  cases moved with
  | @connects _ k _ _ found connecting attached =>
    rcases owes with ⟨_,requested⟩ | ⟨gone,_⟩
    · exact ⟨n,by simp [requested]⟩
    · have live := (wired.attached n k found attached).2.1
      rw [gone] at live
      contradiction
  | delivers found connecting delivering => exact ⟨n,by simp [turn,put]⟩

theorem owesStep (wired : Wired s) (flowing : Flowing s) (owes : Owes s) (moved : Moves s e t) : Owes t := by
  have more := wireStep moved
  cases moved with
  | typed data => 
    obtain ⟨wire,pending,form⟩ := sendForm s data
    exact owesSame owes (coreSend s data) (fun asked => by rw [form]; exact asked) more
  | opens opening live =>
    rcases owes with ⟨_,requested⟩ | ⟨gone,_⟩
    · obtain ⟨statuses,form,_⟩ := reportForm ({ s with opening := false, sessionID := some _ }.attach _) .running
      rw [form]
      exact Or.inl ⟨live,requested⟩
    · rw [live] at gone
      contradiction
  | opensLate opening gone => exact Or.inr ⟨gone,Or.inr (Or.inr ⟨0,_,rfl,rfl,rfl⟩)⟩
  | @refuses message opening =>
    obtain ⟨statuses,form,_⟩ := reportForm { s with opening := false } (.failed message)
    rw [State.refuses,form]
    exact owes
  | connects found connecting attached => 
    rcases owes with ⟨live,requested⟩ | ⟨gone,_⟩
    · exact Or.inl ⟨live,requested⟩
    · have live := (wired.attached _ _ found attached).2.1
      rw [gone] at live
      contradiction
  | @delivers n k cols rows found connecting delivering =>
    rcases owes with ⟨live,requested⟩ | ⟨gone,_⟩
    · exact Or.inl ⟨live,requested⟩
    · exact Or.inr ⟨gone,Or.inr (Or.inl ⟨n,by simp [turn,put]⟩)⟩
  | outputs here =>
    obtain ⟨wire,pending,autorun,form⟩ := autorunForm s
    refine owesSame owes (by rw [form]; rfl) (fun asked => by rw [form]; exact asked) more
  | ignores here => exact owes
  | @exits n code here =>
    obtain ⟨statuses,form,_⟩ := reportForm { s with ended := true } (.exited code)
    rw [form]
    exact owes
  | resyncs here live named =>
    rcases owes with ⟨_,requested⟩ | ⟨gone,_⟩
    · obtain ⟨sockets,form⟩ := detachForm s
      rw [form]
      exact Or.inl ⟨live,requested⟩
    · rw [live] at gone
      contradiction
  | closes => exact owesSame owes (coreControl _ _) (fun _ => by
      obtain ⟨wire,form,_⟩ := controlForm { s with closeRequested := true } .close
      rw [State.close,form]) more
  | resizes =>
    obtain ⟨wire,form,_⟩ := controlForm s _
    rw [State.resize,form] at more ⊢
    exact owesSame owes rfl id more
  | @disposesLate n current asked shut =>
    refine Or.inr ⟨rfl,?_⟩
    by_cases named : s.sessionID = none
    · exact Or.inl named
    · refine Or.inr ((owesReached wired flowing owes named).imp (fun told => told.imp (fun _ member => more.subset member)) ?_)
      rintro ⟨m,k,found,connecting,owner⟩
      by_cases here : n = m
      · subst here
        exact ⟨n,{ k with handlers := .delivering },by simp [turn,found],connecting,rfl⟩
      · refine ⟨m,k,by simp [turn,here,found],connecting,?_⟩
        exact owner.resolve_left (fun same => here (Option.some.inj (current.symm.trans same)))
  | disposes clear =>
    obtain ⟨sockets,form⟩ := detachForm { s with disposed := true }
    have told : Told s → Told ({ s with disposed := true } : State).detach := fun told =>
      told.imp (fun _ member => more.subset member)
    have sessionID : ({ s with disposed := true } : State).detach.sessionID = s.sessionID := by rw [form]
    refine Or.inr ⟨by rw [form],?_⟩
    rw [sessionID]
    rcases owes with ⟨live,requested⟩ | ⟨_,none | sent | ⟨m,k,found,connecting,delivering⟩⟩
    · by_cases named : s.sessionID = none
      · exact Or.inl named
      · obtain ⟨n,current⟩ := Option.ne_none_iff_exists'.mp (wired.reached live named)
        have opened := clear.resolve_left (by simp [requested]) n current
        have here := upSome.mpr ⟨current,opened⟩
        exact Or.inr (Or.inl (told (flowing.told requested (by simp [here]))))
    · exact Or.inl none
    · exact Or.inr (Or.inl (told sent))
    -- A socket that is to deliver a close is not the current one, which is open.
    · have requested := flowing.promised k (List.mem_of_getElem? found) delivering
      have opened := clear.resolve_left (by simp [requested])
      refine Or.inr (Or.inr ⟨m,k,?_,connecting,delivering⟩)
      cases current : s.socket with
      | none => simp [detach,found]
      | some c =>
        have other : c ≠ m := by
          rintro rfl
          obtain ⟨j,at_,ready⟩ := isOpenOf.mp (opened c current)
          cases Option.some.inj (found.symm.trans at_)
          simp [connecting] at ready
        simp [detach,turn,other,found]

end Flow

structure Sound (line : Option Str) (es : List Event) (s : State) : Prop where
  wired : Wired s
  flowing : Flowing s
  given : given s = produced line es
  autorun : s.autorun = if heard es then none else line
  disposed : s.disposed = true ↔ .dispose ∈ es
  named : s.sessionID ≠ none ↔ ∃ id, .opens id ∈ es
  opening : (∀ e ∈ es, ∀ id message, e ≠ .opens id ∧ e ≠ .refuses message) → s.opening = true

section Runs
variable {line : Option Str} {es : List Event} {s : State}

theorem namedStep {t : State} {e : Event} (moved : Moves s e t) :
    (t.sessionID ≠ none ↔ s.sessionID ≠ none ∨ ∃ id, e = .opens id) ∧
      (t.opening = s.opening ∨ ∃ id message, e = .opens id ∨ e = .refuses message) := by
  have kept : ∀ {u : State}, u.core = s.core → (∀ id, e ≠ .opens id) →
      (u.sessionID ≠ none ↔ s.sessionID ≠ none ∨ ∃ id, e = .opens id) ∧
        (u.opening = s.opening ∨ ∃ id message, e = .opens id ∨ e = .refuses message) := by
    intro u same other
    simp only [core,Prod.mk.injEq] at same
    rw [same.1,same.2.2.2.1]
    exact ⟨⟨Or.inl,fun h => h.resolve_right (fun ⟨id,eq⟩ => other id eq)⟩,Or.inl rfl⟩
  cases moved with
  | typed data => exact kept (coreSend s data) (by simp)
  | @opens id opening live =>
    obtain ⟨statuses,form,_⟩ := reportForm ({ s with opening := false, sessionID := some id }.attach id) .running
    rw [form]
    exact ⟨by simp [attach],Or.inr ⟨id,[],Or.inl rfl⟩⟩
  | @opensLate id opening gone => exact ⟨by simp,Or.inr ⟨id,[],Or.inl rfl⟩⟩
  | @refuses message opening =>
    obtain ⟨statuses,form,_⟩ := reportForm { s with opening := false } (.failed message)
    rw [State.refuses,form]
    exact ⟨by simp,Or.inr ⟨[],message,Or.inr rfl⟩⟩
  | outputs here =>
    obtain ⟨wire,pending,autorun,form⟩ := autorunForm s
    exact kept (by rw [form]; rfl) (by simp)
  | exits here => exact kept ((coreReport _ _).trans rfl) (by simp)
  | resyncs here live named =>
    obtain ⟨sockets,form⟩ := detachForm s
    rw [form]
    exact ⟨by simp [attach],Or.inl rfl⟩
  | closes => exact kept ((coreControl _ _).trans rfl) (by simp)
  | resizes => exact kept (coreControl _ _) (by simp)
  | disposes clear =>
    obtain ⟨sockets,form⟩ := detachForm { s with disposed := true }
    rw [form]
    exact ⟨by simp,Or.inl rfl⟩
  | _ => exact ⟨by simp [turn,put],Or.inl rfl⟩

theorem runSound (run : Run step Healthy (fresh line) es s) : Sound line es s := by
  refine run.traced (I := Sound line) ?_ ?_
  · refine ⟨wiredFresh line,⟨fun _ => rfl,?_,?_⟩,rfl,rfl,?_,?_,fun _ => rfl⟩ <;> simp [fresh]
  · intro es s e t sound healthy taken
    have moved := stepMoves sound.wired healthy taken
    obtain ⟨given_,autorun⟩ := givenStep sound.flowing moved
    obtain ⟨named,opening⟩ := namedStep moved
    refine ⟨wiredStep sound.wired moved,flowStep sound.flowing moved,?_,?_,?_,?_,?_⟩
    · rw [given_,sound.given,sound.autorun,producedSnoc]
    · rw [autorun,sound.autorun,heardSnoc]
      cases heard es <;> cases heard [e] <;> rfl
    · rw [disposedStep moved,sound.disposed]
      simp [eq_comm]
    · rw [named,sound.named]
      simp only [List.mem_append,List.mem_singleton]
      constructor
      · rintro (⟨id,member⟩ | ⟨id,rfl⟩)
        · exact ⟨id,Or.inl member⟩
        · exact ⟨id,Or.inr rfl⟩
      · rintro ⟨id,member | same⟩
        · exact Or.inl ⟨id,member⟩
        · exact Or.inr ⟨id,same.symm⟩
    · intro unanswered
      have before := sound.opening (fun d member => unanswered d (List.mem_append_left _ member))
      rcases opening with same | ⟨id,message,answer⟩
      · exact same.trans before
      · have other := unanswered e (by simp) id message
        exact (answer.elim other.1 other.2).elim

def Asks (before : List Event) (ask : Event) : Prop :=
  ask = .close ∧ .dispose ∉ before ∨
    ask = .dispose ∧ ∀ e ∈ before, ∀ id message, e ≠ .opens id ∧ e ≠ .refuses message

structure Accounted (line : Option Str) (es : List Event) (s : State) : Prop where
  order : .dispose ∉ es → inputs s.wire ++ s.pending = produced line es
  idle : .dispose ∉ es → ∀ n, s.socket = some n → s.isOpen n = true → s.pending = []
  silent : ∀ before after u, es = before ++ .dispose :: after → Run step Healthy (fresh line) before u →
    s.statuses = u.statuses
  told : ∀ before ask after u, es = before ++ ask :: after → Asks before ask → Run step Healthy (fresh line) before u →
    (∃ n, u.isOpen n = true) ∨ (∃ n cols rows, .connects n cols rows ∈ after) → Told s
  owed : ∀ before ask after, es = before ++ ask :: after → Asks before ask → (∃ id, .opens id ∈ es) →
    Told s ∨ ∃ k ∈ s.sockets, k.readyState = .connecting

theorem silentRun {before after : List Event} (run : Run step Healthy (fresh line) (before ++ .dispose :: after) s) :
    ∃ u, Run step Healthy (fresh line) before u ∧ s.statuses = u.statuses := by
  induction after using List.reverseRecOn generalizing s with
  | nil =>
    obtain ⟨u,front,healthy,taken⟩ := run.last
    have moved := stepMoves (runSound front).wired healthy taken
    refine ⟨u,front,?_⟩
    cases moved with
    | disposesLate current asked shut => rfl
    | disposes clear =>
      obtain ⟨sockets,form⟩ := detachForm { u with disposed := true }
      rw [form]
  | append_singleton after e ih =>
    rw [← List.cons_append,← List.append_assoc] at run
    obtain ⟨v,front,healthy,taken⟩ := run.last
    obtain ⟨u,first,same⟩ := ih front
    have sound := runSound front
    have gone := sound.disposed.mpr (by simp)
    exact ⟨u,first,(quietStep gone (stepMoves sound.wired healthy taken)).trans same⟩

theorem askedRun {before after : List Event} {ask : Event} (asks : Asks before ask)
    (run : Run step Healthy (fresh line) (before ++ ask :: after) s) :
    ∃ u, Run step Healthy (fresh line) before u ∧ Owes s ∧
      ((∃ n, u.isOpen n = true) ∨ (∃ n cols rows, .connects n cols rows ∈ after) → Told s) := by
  induction after using List.reverseRecOn generalizing s with
  | nil =>
    obtain ⟨u,front,healthy,taken⟩ := run.last
    have sound := runSound front
    have moved := stepMoves sound.wired healthy taken
    refine ⟨u,front,?_⟩
    rcases asks with ⟨rfl,live⟩ | ⟨rfl,unanswered⟩
    · have live : u.disposed = false := by simpa [live] using sound.disposed
      cases moved with
      | closes =>
        obtain ⟨wire,form,_⟩ := controlForm { u with closeRequested := true } .close
        refine ⟨Or.inl ?_,?_⟩
        · rw [State.close,form]
          exact ⟨live,rfl⟩
        · rintro (⟨n,opened⟩ | ⟨_,_,_,none⟩)
          · obtain ⟨k,found,ready⟩ := isOpenOf.mp opened
            have here : ({ u with closeRequested := true } : State).up = some n := (openCurrent sound.wired found ready).1
            exact controlTold (by simp [here])
          · contradiction
    · obtain ⟨sockets,_,sessionID⟩ := sound.wired.early (sound.opening unanswered)
      have closed : Owes s := by
        refine Or.inr ⟨(disposedStep moved).mpr (Or.inr rfl),Or.inl ?_⟩
        by_contra named
        rcases (namedStep moved).1.mp named with old | ⟨id,other⟩
        · exact old sessionID
        · contradiction
      refine ⟨closed,?_⟩
      rintro (⟨n,opened⟩ | ⟨_,_,_,none⟩)
      · simp [isOpen,sockets] at opened
      · contradiction
  | append_singleton after e ih =>
    rw [← List.cons_append,← List.append_assoc] at run
    obtain ⟨v,front,healthy,taken⟩ := run.last
    obtain ⟨u,first,owes,told⟩ := ih front
    have sound := runSound front
    have moved := stepMoves sound.wired healthy taken
    refine ⟨u,first,owesStep sound.wired sound.flowing owes moved,?_⟩
    rintro (opened | ⟨n,cols,rows,member⟩)
    · exact toldStep (told (Or.inl opened)) moved
    · rcases List.mem_append.mp member with old | new
      · exact toldStep (told (Or.inr ⟨n,cols,rows,old⟩)) moved
      · cases List.mem_singleton.mp new
        exact owesConnect sound.wired owes moved

theorem runAccounted (run : Run step Healthy (fresh line) es s) : Accounted line es s := by
  have sound := runSound run
  constructor
  case order => exact fun _ => sound.given
  case idle => exact fun _ n current opened => sound.flowing.idle (by simp [upSome.mpr ⟨current,opened⟩])
  case silent =>
    rintro before after u rfl first
    obtain ⟨v,front,same⟩ := silentRun run
    rw [same,front.same first]
  case told =>
    rintro before ask after u rfl asks first
    obtain ⟨v,front,_,told⟩ := askedRun asks run
    rw [← front.same first]
    exact told
  case owed =>
    rintro before ask after rfl asks opened
    obtain ⟨_,_,owes,_⟩ := askedRun asks run
    refine (owesReached sound.wired sound.flowing owes (sound.named.mpr opened)).imp_right ?_
    rintro ⟨n,k,found,connecting,_⟩
    exact ⟨k,List.mem_of_getElem? found,connecting⟩

end Runs

def busy : List Event :=
  [.typed "ls".toList,.opens "t1".toList,.typed "\n".toList,.connects 0 80 24,.output 0,.typed "q".toList,
    .text 0 (some (.resync 512)),.typed "w".toList,.close,.dispose,.connects 1 80 24]

theorem busyAccounted : ∃ s, Run step Healthy (fresh (some "claude".toList)) busy s ∧
    Accounted (some "claude".toList) busy s := by
  have done : exec (guarded step Healthy) (fresh (some "claude".toList)) busy = some
      { opening := false
        socket := none
        sockets := [⟨"t1".toList,.closed,.bare⟩,⟨"t1".toList,.closed,.delivering⟩]
        wire := [(0,.resize 80 24),(0,.input "ls".toList),(0,.input "\n".toList),(0,.input "claude\n".toList),
          (0,.input "q".toList),(1,.close)]
        sessionID := some "t1".toList
        pending := ["w".toList]
        closeRequested := true
        ended := false
        disposed := true
        autorun := none
        statuses := [.running] } := by decide
  exact ⟨_,runOfGuarded done,runAccounted (runOfGuarded done)⟩

end M6t.TerminalSession
