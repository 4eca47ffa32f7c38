import M6t.Outbound
import M6t.Text

/-! One terminal connection: the session's queue for it, the forwarder, the
outbound queue and the read loop, with the child and the manager around them. -/
namespace M6t.Terminal
open M6t.Text M6t.Runs
open M6t.Outbound hiding State Event step

def consumerQueue : Nat := 64

def defaultCols : UInt16 := 80

def defaultRows : UInt16 := 24

def size (cols rows : UInt16) : UInt16 × UInt16 :=
  (if cols = 0 then defaultCols else cols,if rows = 0 then defaultRows else rows)

structure Control where
  type : Str
  cols : UInt16
  rows : UInt16
  deriving DecidableEq, Repr

inductive Inbound where
  | binary (data : Bytes)
  | text (message : Option Control)
  deriving DecidableEq, Repr

inductive Reader where
  | reading
  | writing (data : Bytes)
  | resizing (size : UInt16 × UInt16)
  | operating
  | killing
  | reaping
  | leaving
  | detaching
  | gone
  deriving DecidableEq, Repr

inductive Forwarder where
  | replaying
  | ranging
  | carrying (chunk : Bytes)
  | awaiting
  | exiting (code : Int)
  | finishing (code : Int)
  | finished (code : Int)
  | detached
  deriving DecidableEq, Repr

/-- Whether the session still lists the consumer, or who closed its channels. -/
inductive Consumer where
  | attached
  | ended (code : Int)
  | detached
  deriving DecidableEq, Repr

structure State where
  replay : Bytes
  registered : Bool
  ptyOpen : Bool
  exit : Option Int
  consumer : Consumer
  chunks : List Bytes
  forwarder : Forwarder
  reader : Reader
  conn : Outbound.State
  produced : List Bytes
  accepted : List Bytes
  missed : List Bytes
  deriving DecidableEq, Repr

/-- `attach`, and the goroutines `serveTerminal` starts. -/
def attach (replay : Bytes) (exit : Option Int) : State where
  replay := replay
  registered := true
  ptyOpen := exit.isNone
  exit := exit
  consumer := match exit with
    | some code => .ended code
    | none => .attached
  chunks := []
  forwarder := .replaying
  reader := .reading
  conn := newConn
  produced := []
  accepted := []
  missed := []

inductive Event where
  | broadcast (chunk : Bytes)
  | closePty
  | finish (code : Int)
  | drop
  | forward
  | conn (e : Outbound.Event)
  | receive (m : Inbound)
  | lookup
  | operate (ok : Bool)
  | kill
  | reap
  | readFails
  | close
  | detach
  | shutdown
  deriving DecidableEq, Repr

def exitText (code : Int) : Str :=
  "\x7b\"type\":\"exit\",\"payload\":\x7b\"code\":".toList ++ (toString code).toList ++ "\x7d\x7d".toList

def exitFrame (code : Int) : Frame := ⟨.text,(exitText code).map (fun c => UInt8.ofNat c.toNat)⟩

def output (chunk : Bytes) : Frame := ⟨.binary,chunk⟩

def applyControl : Option Control → Reader
  | none => .reading
  | some message =>
      if message.type = "resize".toList then .resizing (size message.cols message.rows)
      else if message.type = "close".toList then .killing
      else .reading

def own : Outbound.Event → Bool
  | .send _ | .finish | .close => false
  | _ => true

namespace State
variable (s : State)

def broadcast (chunk : Bytes) : State :=
  let s := { s with produced := s.produced ++ [chunk] }
  if s.consumer ≠ .attached then s
  else if s.chunks.length < consumerQueue then { s with chunks := s.chunks ++ [chunk], accepted := s.accepted ++ [chunk] }
  else { s with missed := s.missed ++ [chunk] }

def finish (code : Int) : State :=
  { s with exit := some code, consumer := if s.consumer = .attached then .ended code else s.consumer }

def detach : State :=
  { s with reader := .gone, consumer := if s.consumer = .attached then .detached else s.consumer }

def onConn (e : Outbound.Event) : Option State := (Outbound.step s.conn e).map (fun conn => { s with conn := conn })

def sends (f : Frame) (next : Forwarder) : Option State :=
  (s.onConn (.send f)).map (fun s => { s with forwarder := next })

end State

/-- The forwarder goes on once its last send has returned. -/
def forward (s : State) : Option State :=
  if s.conn.producer ≠ .idle then none
  else match s.forwarder with
    | .replaying =>
        if s.replay.length > 0 then s.sends (output s.replay) .ranging else some { s with forwarder := .ranging }
    | .ranging =>
        match s.chunks with
        | chunk :: rest => some { s with chunks := rest, forwarder := .carrying chunk }
        | [] => if s.consumer = .attached then none else some { s with forwarder := .awaiting }
    | .carrying chunk => s.sends (output chunk) .ranging
    | .awaiting =>
        match s.consumer with
        | .ended code => some { s with forwarder := .exiting code }
        | .detached => some { s with forwarder := .detached }
        | .attached => none
    | .exiting code => s.sends (exitFrame code) (.finishing code)
    | .finishing code => (s.onConn .finish).map (fun s => { s with forwarder := .finished code })
    | .finished _ => none
    | .detached => none

def step (s : State) : Event → Option State
  | .broadcast chunk => if s.exit = none then some (s.broadcast chunk) else none
  | .closePty => some { s with ptyOpen := false }
  | .finish code => if s.exit = none ∧ s.ptyOpen = false then some (s.finish code) else none
  | .drop => some { s with registered := false }
  | .forward => forward s
  | .conn e => if own e then s.onConn e else none
  | .receive m =>
      match s.reader,m with
      | .reading,.binary data => some { s with reader := .writing data }
      | .reading,.text message => some { s with reader := applyControl message }
      | _,_ => none
  | .lookup =>
      match s.reader with
      | .writing _ | .resizing _ => some { s with reader := if s.registered then .operating else .leaving }
      | _ => none
  | .operate ok =>
      if s.reader = .operating ∧ (ok = true → s.ptyOpen = true) then
        some { s with reader := if ok then .reading else .leaving }
      else none
  | .kill =>
      if s.reader = .killing then
        some { s with registered := false, reader := if s.registered then .reaping else .leaving }
      else none
  | .reap => if s.reader = .reaping ∧ s.exit ≠ none then some { s with reader := .reading } else none
  | .readFails => if s.reader = .reading then some { s with reader := .leaving } else none
  | .close =>
      if s.reader = .leaving then
        match s.conn.closeOnce with
        | .fresh => s.onConn .close
        | .running => none
        | .spent => some { s with reader := .detaching }
      else none
  | .detach => if s.reader = .detaching then some s.detach else none
  | .shutdown => s.onConn .close

def exitWritten (s : State) : Prop := (written s.conn.out).any (fun i => i.frame.kind = .text) = true

instance (s : State) : Decidable (exitWritten s) := inferInstanceAs (Decidable (_ = true))

def Reader.out : Reader → Bool
  | .leaving | .detaching | .gone => true
  | _ => false

def byReader : Event → Bool
  | .receive _ | .lookup | .operate _ | .kill | .reap | .readFails => true
  | _ => false

def refuses (s : State) : Event → Bool
  | .readFails | .operate false => true
  | .lookup | .kill => !s.registered
  | _ => false

inductive Moves (s : State) : Event → State → Prop where
  | broadcasts {chunk} (live : s.exit = none) : Moves s (.broadcast chunk) (s.broadcast chunk)
  | closesPty : Moves s .closePty { s with ptyOpen := false }
  | finishes {code} (live : s.exit = none) : Moves s (.finish code) (s.finish code)
  | drops : Moves s .drop { s with registered := false }
  | skips (here : s.forwarder = .replaying) (empty : s.replay = []) : Moves s .forward { s with forwarder := .ranging }
  | replays {c} (here : s.forwarder = .replaying) (some : s.replay ≠ [])
      (conn : Outbound.step s.conn (.send (output s.replay)) = .some c) :
      Moves s .forward { s with conn := c, forwarder := .ranging }
  | ranges {chunk rest} (here : s.forwarder = .ranging) (queue : s.chunks = chunk :: rest) :
      Moves s .forward { s with chunks := rest, forwarder := .carrying chunk }
  | relays {chunk c} (here : s.forwarder = .carrying chunk)
      (conn : Outbound.step s.conn (.send (output chunk)) = some c) :
      Moves s .forward { s with conn := c, forwarder := .ranging }
  | runsOut (here : s.forwarder = .ranging) (queue : s.chunks = []) (closed : s.consumer ≠ .attached) :
      Moves s .forward { s with forwarder := .awaiting }
  | learns {code} (here : s.forwarder = .awaiting) (ended : s.consumer = .ended code) :
      Moves s .forward { s with forwarder := .exiting code }
  | released (here : s.forwarder = .awaiting) (detached : s.consumer = .detached) :
      Moves s .forward { s with forwarder := .detached }
  | exits {code c} (here : s.forwarder = .exiting code)
      (conn : Outbound.step s.conn (.send (exitFrame code)) = some c) :
      Moves s .forward { s with conn := c, forwarder := .finishing code }
  | ends {code c} (here : s.forwarder = .finishing code) (conn : Outbound.step s.conn .finish = some c) :
      Moves s .forward { s with conn := c, forwarder := .finished code }
  | inner {e c} (ours : own e = true) (conn : Outbound.step s.conn e = some c) : Moves s (.conn e) { s with conn := c }
  | reads {e next registered} (mine : byReader e = true) (before : s.reader.out = false) (after : next.out = false) :
      Moves s e { s with reader := next, registered := registered }
  | refused {e registered} (mine : byReader e = true) (before : s.reader.out = false) (why : refuses s e = true) :
      Moves s e { s with reader := .leaving, registered := registered }
  | closes {c} (here : s.reader = .leaving) (conn : Outbound.step s.conn .close = some c) :
      Moves s .close { s with conn := c }
  | closed (here : s.reader = .leaving) (spent : s.conn.closeOnce = .spent) : Moves s .close { s with reader := .detaching }
  | detaches (here : s.reader = .detaching) : Moves s .detach s.detach
  | shuts {c} (conn : Outbound.step s.conn .close = some c) : Moves s .shutdown { s with conn := c }

variable {s t : State} {e : Event}

theorem onConnSome {ce : Outbound.Event} (taken : s.onConn ce = some t) :
    ∃ c, Outbound.step s.conn ce = some c ∧ t = { s with conn := c } := by
  obtain ⟨c,conn,rfl⟩ := Option.map_eq_some_iff.mp taken
  exact ⟨c,conn,rfl⟩

theorem sendsSome {f : Frame} {next : Forwarder} (taken : s.sends f next = some t) :
    ∃ c, Outbound.step s.conn (.send f) = some c ∧ t = { s with conn := c, forwarder := next } := by
  obtain ⟨u,sent,rfl⟩ := Option.map_eq_some_iff.mp taken
  obtain ⟨c,conn,rfl⟩ := onConnSome sent
  exact ⟨c,conn,rfl⟩

theorem forwardMoves (taken : forward s = some t) : Moves s .forward t := by
  unfold forward at taken
  split at taken
  · cases taken
  split at taken
  case h_1 here =>
    split at taken
    · next full =>
      obtain ⟨c,conn,rfl⟩ := sendsSome taken
      exact .replays here (List.ne_nil_of_length_pos full) conn
    · next empty =>
      cases taken
      exact .skips here (List.eq_nil_of_length_eq_zero (Nat.eq_zero_of_not_pos empty))
  case h_2 here =>
    split at taken
    · cases taken
      exact .ranges here (by assumption)
    · split at taken <;> cases taken
      exact .runsOut here (by assumption) (by assumption)
  case h_3 here =>
    obtain ⟨c,conn,rfl⟩ := sendsSome taken
    exact .relays here conn
  case h_4 here =>
    split at taken <;> cases taken
    · exact .learns here (by assumption)
    · exact .released here (by assumption)
  case h_5 here =>
    obtain ⟨c,conn,rfl⟩ := sendsSome taken
    exact .exits here conn
  case h_6 here =>
    obtain ⟨u,finished,rfl⟩ := Option.map_eq_some_iff.mp taken
    obtain ⟨c,conn,rfl⟩ := onConnSome finished
    exact .ends here conn
  all_goals cases taken

theorem controlReads (message : Option Control) : (applyControl message).out = false := by
  unfold applyControl
  cases message with
  | none => rfl
  | some message => simp only; split_ifs <;> rfl

theorem stepMoves (taken : step s e = some t) : Moves s e t := by
  cases e with
  | broadcast chunk =>
    simp only [step] at taken
    split at taken <;> cases taken
    exact .broadcasts (by assumption)
  | closePty =>
    cases taken
    exact .closesPty
  | finish code =>
    simp only [step] at taken
    split at taken <;> cases taken
    next ready => exact .finishes ready.1
  | drop =>
    cases taken
    exact .drops
  | forward => exact forwardMoves taken
  | conn ce =>
    simp only [step] at taken
    split at taken
    · obtain ⟨c,conn,rfl⟩ := onConnSome taken
      exact .inner (by assumption) conn
    · cases taken
  | receive m =>
    simp only [step] at taken
    split at taken <;> cases taken
    · next here => exact .reads rfl (by simp [here,Reader.out]) rfl
    · next here => exact .reads rfl (by simp [here,Reader.out]) (controlReads _)
  | lookup =>
    simp only [step] at taken
    split at taken <;> cases taken
    all_goals
      next here =>
      cases known : s.registered
      · exact .refused rfl (by simp [here,Reader.out]) (by simp [refuses,known])
      · exact .reads rfl (by simp [here,Reader.out]) rfl
  | operate ok =>
    simp only [step] at taken
    split at taken <;> cases taken
    next ready =>
    cases ok
    · exact .refused rfl (by simp [ready.1,Reader.out]) rfl
    · exact .reads rfl (by simp [ready.1,Reader.out]) rfl
  | kill =>
    simp only [step] at taken
    split at taken <;> cases taken
    next here =>
    cases known : s.registered
    · exact .refused rfl (by simp [here,Reader.out]) (by simp [refuses,known])
    · exact .reads rfl (by simp [here,Reader.out]) rfl
  | reap =>
    simp only [step] at taken
    split at taken <;> cases taken
    next ready => exact .reads rfl (by simp [ready.1,Reader.out]) rfl
  | readFails =>
    simp only [step] at taken
    split at taken <;> cases taken
    next here => exact .refused rfl (by simp [here,Reader.out]) rfl
  | close =>
    simp only [step] at taken
    split at taken
    · next here =>
      split at taken
      · obtain ⟨c,conn,rfl⟩ := onConnSome taken
        exact .closes here conn
      · cases taken
      · cases taken
        exact .closed here (by assumption)
    · cases taken
  | detach =>
    simp only [step] at taken
    split at taken <;> cases taken
    exact .detaches (by assumption)
  | shutdown =>
    obtain ⟨c,conn,rfl⟩ := onConnSome taken
    exact .shuts conn

theorem broadcastCases {P : State → Prop} (chunk : Bytes)
    (gone : s.consumer ≠ .attached → P { s with produced := s.produced ++ [chunk] })
    (room : s.consumer = .attached → s.chunks.length < consumerQueue → P { s with
      produced := s.produced ++ [chunk], chunks := s.chunks ++ [chunk], accepted := s.accepted ++ [chunk] })
    (full : s.consumer = .attached → consumerQueue ≤ s.chunks.length → P { s with
      produced := s.produced ++ [chunk], missed := s.missed ++ [chunk] }) : P (s.broadcast chunk) := by
  by_cases held : s.consumer = .attached
  · by_cases fits : s.chunks.length < consumerQueue
    · simpa [State.broadcast,held,fits] using room held fits
    · simpa [State.broadcast,held,fits] using full held (Nat.le_of_not_lt fits)
  · simpa [State.broadcast,held] using gone held

theorem broadcastConn (chunk : Bytes) : (s.broadcast chunk).conn = s.conn :=
  broadcastCases (P := fun t => t.conn = s.conn) chunk (fun _ => rfl) (fun _ _ => rfl) (fun _ _ => rfl)

theorem broadcastReader (chunk : Bytes) : (s.broadcast chunk).reader = s.reader :=
  broadcastCases (P := fun t => t.reader = s.reader) chunk (fun _ => rfl) (fun _ _ => rfl) (fun _ _ => rfl)

theorem connStep (taken : step s e = some t) : t.conn = s.conn ∨
    ∃ ce, Outbound.step s.conn ce = some t.conn ∧ (ce = .deliver false → e = .conn (.deliver false)) := by
  cases stepMoves taken with
  | broadcasts => exact Or.inl (broadcastConn _)
  | inner ours conn => exact Or.inr ⟨_,conn,by rintro rfl; rfl⟩
  | replays here some conn => exact Or.inr ⟨_,conn,by simp⟩
  | relays here conn | exits here conn | ends here conn | closes here conn | shuts conn =>
    exact Or.inr ⟨_,conn,by simp⟩
  | _ => exact Or.inl rfl

variable {allowed : State → Event → Prop} {replay : Bytes} {exit : Option Int} {es : List Event}

theorem connRun (run : Run step allowed (attach replay exit) es s) : ∃ ces, Run Outbound.step anyStep newConn ces s.conn := by
  refine run.invariant (I := fun s => ∃ ces, Run Outbound.step anyStep newConn ces s.conn) ⟨[],.nil⟩ ?_
  intro s e t before _ taken
  obtain ⟨ces,before⟩ := before
  rcases connStep taken with same | ⟨ce,moved,_⟩
  · exact ⟨ces,same ▸ before⟩
  · exact ⟨ces ++ [ce],.snoc before trivial moved⟩

theorem connLive (run : Run step allowed (attach replay exit) es s)
    (delivers : ∀ s e, allowed s e → e ≠ .conn (.deliver false)) : s.conn.failed = false := by
  refine run.invariant (I := fun s => s.conn.failed = false) rfl ?_
  intro s e t live ok taken
  rcases connStep taken with same | ⟨ce,moved,failing⟩
  · rwa [same]
  · rw [Outbound.failedStep moved (fun here => delivers s e ok (failing here)),live]

def carried : Forwarder → List Bytes
  | .carrying chunk => [chunk]
  | _ => []

def replayed (replay : Bytes) : List Frame := if replay = [] then [] else [output replay]

def opening (s : State) : List Frame := if s.forwarder = .replaying then [] else replayed s.replay

def closing : Forwarder → List Frame
  | .finishing code | .finished code => [exitFrame code]
  | _ => []

def rangeOver : Forwarder → Bool
  | .replaying | .ranging | .carrying _ => false
  | _ => true

def knows (f : Forwarder) (code : Int) : Prop := f = .exiting code ∨ f = .finishing code ∨ f = .finished code

def total (l : List Bytes) : Nat := (l.map List.length).sum

structure Forwarded (s : State) : Prop where
  sent : ∃ passed, s.accepted = passed ++ carried s.forwarder ++ s.chunks ∧
    s.conn.sent.map Outbound.Item.frame = opening s ++ passed.map output ++ closing s.forwarder ∧
    (s.forwarder = .replaying → passed = [])
  spent : rangeOver s.forwarder = true → s.chunks = [] ∧ s.consumer ≠ .attached
  status : ∀ code, knows s.forwarder code → s.consumer = .ended code
  ended : ∀ code, s.consumer = .ended code → s.exit = some code
  closed : s.conn.closed = true → ∃ code, s.forwarder = .finished code
  whole : s.consumer ≠ .detached → total s.produced = total s.accepted + total s.missed

theorem forwardedStart : Forwarded (attach replay exit) := by
  constructor
  case sent => exact ⟨[],rfl,rfl,fun _ => rfl⟩
  case spent => simp [attach,rangeOver]
  case status => simp [attach,knows]
  case ended =>
    intro code ended
    cases exit with
    | none => cases ended
    | some _ => cases ended; rfl
  case closed => simp [attach,newConn]
  case whole => exact fun _ => rfl

theorem innerSent {c : Outbound.State} {ce : Outbound.Event} (moved : Outbound.step s.conn ce = some c)
    (none : ce.sent = none) : c.sent.map Outbound.Item.frame = s.conn.sent.map Outbound.Item.frame := by
  simpa [none] using Outbound.sentStep rfl moved

theorem forwardedInner (forwarded : Forwarded s) {c : Outbound.State} {ce : Outbound.Event}
    (moved : Outbound.step s.conn ce = some c) (none : ce.sent = none) (other : ce ≠ .finish) :
    Forwarded { s with conn := c } := by
  obtain ⟨⟨passed,taking,sent,first⟩,spent,status,ended,closed,whole⟩ := forwarded
  refine ⟨⟨passed,taking,?_,first⟩,spent,status,ended,?_,whole⟩
  · rw [innerSent moved none]
    exact sent
  · rw [Outbound.closedStep moved other]
    exact closed

theorem forwardedSend (forwarded : Forwarded s) {c : Outbound.State} {f : Frame} {next : Forwarder}
    (moved : Outbound.step s.conn (.send f) = some c) (unfinished : ∀ code, s.forwarder ≠ .finished code)
    (started : next ≠ .replaying)
    (fits : ∀ passed, (s.forwarder = .replaying → passed = []) →
      ∃ more, passed ++ carried s.forwarder = more ++ carried next ∧
        opening s ++ passed.map output ++ closing s.forwarder ++ [f] =
          opening { s with forwarder := next } ++ more.map output ++ closing next)
    (spent : rangeOver next = true → rangeOver s.forwarder = true)
    (status : ∀ code, knows next code → knows s.forwarder code) :
    Forwarded { s with conn := c, forwarder := next } := by
  obtain ⟨⟨passed,taking,sent,first⟩,spent',status',ended,closed,whole⟩ := forwarded
  obtain ⟨more,same,line⟩ := fits passed first
  refine ⟨⟨more,?_,?_,fun here => absurd here started⟩,fun past => spent' (spent past),
    fun code known => status' code (status code known),ended,?_,whole⟩
  · rw [← same]
    exact taking
  · rw [Outbound.sentStep sent moved]
    exact line
  · rw [Outbound.closedStep moved (by simp)]
    intro shut
    obtain ⟨code,here⟩ := closed shut
    exact absurd here (unfinished code)

theorem forwardedOn (forwarded : Forwarded s) {chunks : List Bytes} {next : Forwarder}
    (unfinished : ∀ code, s.forwarder ≠ .finished code) (started : next ≠ .replaying)
    (kept : carried s.forwarder ++ s.chunks = carried next ++ chunks)
    (line : opening { s with forwarder := next } = opening s) (last : closing next = closing s.forwarder)
    (spent : rangeOver next = true → chunks = [] ∧ s.consumer ≠ .attached)
    (status : ∀ code, knows next code → s.consumer = .ended code) :
    Forwarded { s with chunks := chunks, forwarder := next } := by
  obtain ⟨⟨passed,taking,sent,first⟩,_,_,ended,closed,whole⟩ := forwarded
  refine ⟨⟨passed,?_,?_,fun here => absurd here started⟩,spent,status,ended,?_,whole⟩
  · rw [List.append_assoc,← kept,← List.append_assoc]
    exact taking
  · have same : opening { s with chunks := chunks, forwarder := next } = opening s := line
    rw [same,last]
    exact sent
  · intro shut
    obtain ⟨code,here⟩ := closed shut
    exact absurd here (unfinished code)

theorem totalSnoc (l : List Bytes) (chunk : Bytes) : total (l ++ [chunk]) = total l + chunk.length := by simp [total]

theorem forwardedBroadcast (forwarded : Forwarded s) (live : s.exit = none) (chunk : Bytes) :
    Forwarded (s.broadcast chunk) := by
  obtain ⟨⟨passed,taking,sent,first⟩,spent,status,ended,closed,whole⟩ := forwarded
  have inRange : s.consumer = .attached → rangeOver s.forwarder ≠ true := fun held past => (spent past).2 held
  refine broadcastCases chunk (fun gone => ?_) (fun held _ => ?_) (fun held _ => ?_)
  · refine ⟨⟨passed,taking,sent,first⟩,spent,status,ended,closed,fun kept => ?_⟩
    cases held : s.consumer with
    | attached => exact absurd held gone
    | detached => exact absurd held kept
    | ended code => exact absurd ((ended code held).symm.trans live) (by simp)
  · refine ⟨⟨passed,?_,sent,first⟩,fun past => absurd past (inRange held),status,ended,closed,fun kept => ?_⟩
    · simp [taking]
    · have := whole kept
      simp only [totalSnoc]
      omega
  · refine ⟨⟨passed,taking,sent,first⟩,spent,status,ended,closed,fun kept => ?_⟩
    have := whole kept
    simp only [totalSnoc]
    omega

theorem forwardedFinish (forwarded : Forwarded s) (live : s.exit = none) (code : Int) : Forwarded (s.finish code) := by
  obtain ⟨line,spent,status,ended,closed,whole⟩ := forwarded
  by_cases held : s.consumer = .attached
  · have same : s.finish code = { s with exit := some code, consumer := .ended code } := by simp [State.finish,held]
    rw [same]
    refine ⟨line,fun past => absurd held (spent past).2,fun k known => ?_,by simp,closed,fun _ => whole (by simp [held])⟩
    exact absurd (held.symm.trans (status k known)) (by simp)
  · have same : s.finish code = { s with exit := some code } := by simp [State.finish,held]
    rw [same]
    exact ⟨line,spent,status,fun k here => absurd ((ended k here).symm.trans live) (by simp),closed,whole⟩

theorem forwardedDetach (forwarded : Forwarded s) : Forwarded s.detach := by
  obtain ⟨line,spent,status,ended,closed,whole⟩ := forwarded
  by_cases held : s.consumer = .attached
  · have same : s.detach = { s with reader := .gone, consumer := .detached } := by simp [State.detach,held]
    rw [same]
    refine ⟨line,fun past => absurd held (spent past).2,fun k known => ?_,by simp,closed,by simp⟩
    exact absurd (held.symm.trans (status k known)) (by simp)
  · have same : s.detach = { s with reader := .gone } := by simp [State.detach,held]
    rw [same]
    exact ⟨line,spent,status,ended,closed,whole⟩

theorem forwardedStep (forwarded : Forwarded s) (taken : step s e = some t) : Forwarded t := by
  obtain ⟨line,spent,status,ended,closed,whole⟩ := id forwarded
  cases stepMoves taken with
  | broadcasts live => exact forwardedBroadcast forwarded live _
  | closesPty | drops | reads | refused | closed => exact ⟨line,spent,status,ended,closed,whole⟩
  | @finishes code live => exact forwardedFinish forwarded live code
  | detaches here => exact forwardedDetach forwarded
  | @inner ce c ours conn =>
    exact forwardedInner forwarded conn (by cases ce <;> simp [own,Outbound.Event.sent] at ours ⊢) (by rintro rfl; cases ours)
  | closes here conn => exact forwardedInner forwarded conn rfl (by simp)
  | shuts conn => exact forwardedInner forwarded conn rfl (by simp)
  | skips here empty =>
    exact forwardedOn forwarded (by simp [here]) (by simp) (by simp [here,carried]) (by simp [opening,here,replayed,empty])
      (by simp [here,closing]) (by simp [rangeOver]) (by simp [knows])
  | replays here some conn =>
    refine forwardedSend forwarded conn (by simp [here]) (by simp) (fun passed first => ⟨[],?_,?_⟩) (by simp [rangeOver])
      (by simp [knows])
    · simp [here,carried,first here]
    · simp [opening,here,some,closing,replayed,first here]
  | ranges here queue =>
    exact forwardedOn forwarded (by simp [here]) (by simp) (by simp [here,queue,carried]) (by simp [opening,here])
      (by simp [here,closing]) (by simp [rangeOver]) (by simp [knows])
  | @relays chunk c here conn =>
    refine forwardedSend forwarded conn (by simp [here]) (by simp) (fun passed _ => ⟨passed ++ [chunk],?_,?_⟩)
      (by simp [rangeOver]) (by simp [knows])
    · simp [here,carried]
    · simp [opening,here,closing]
  | runsOut here queue released =>
    exact forwardedOn forwarded (by simp [here]) (by simp) (by simp [here,queue,carried]) (by simp [opening,here])
      (by simp [here,closing]) (fun _ => ⟨queue,released⟩) (by simp [knows])
  | @learns code here known =>
    exact forwardedOn forwarded (by simp [here]) (by simp) (by simp [here,carried]) (by simp [opening,here])
      (by simp [here,closing]) (fun _ => spent (by simp [here,rangeOver])) (by simp [knows,known])
  | released here gone =>
    exact forwardedOn forwarded (by simp [here]) (by simp) (by simp [here,carried]) (by simp [opening,here])
      (by simp [here,closing]) (fun _ => spent (by simp [here,rangeOver])) (by simp [knows])
  | @exits code c here conn =>
    refine forwardedSend forwarded conn (by simp [here]) (by simp) (fun passed _ => ⟨passed,?_,?_⟩) (by simp [here,rangeOver])
      (by simp [here,knows])
    · simp [here,carried]
    · simp [opening,here,closing]
  | @ends code c here conn =>
    obtain ⟨passed,taking,sent,first⟩ := line
    refine ⟨⟨passed,?_,?_,by simp⟩,fun _ => spent (by simp [here,rangeOver]),fun k known => status k ?_,ended,
      fun _ => ⟨code,rfl⟩,whole⟩
    · simpa [here,carried] using taking
    · rw [innerSent conn rfl,sent]
      simp [opening,here,closing]
    · simpa [knows,here] using known

theorem runForwarded (run : Run step allowed (attach replay exit) es s) : Forwarded s :=
  run.invariant forwardedStart (fun _ _ _ forwarded _ => forwardedStep forwarded)

theorem replayKept (run : Run step allowed (attach replay exit) es s) : s.replay = replay := by
  refine run.invariant (I := fun s => s.replay = replay) rfl ?_
  intro s e t kept _ taken
  cases stepMoves taken with
  | broadcasts => exact broadcastCases (P := fun t => t.replay = replay) _ (fun _ => kept) (fun _ _ => kept) (fun _ _ => kept)
  | _ => exact kept

structure Exited (s : State) (code : Int) (earlier : List Outbound.Item) (last : Outbound.Item) : Prop where
  status : s.exit = some code
  sent : s.conn.sent = earlier ++ [last]
  exit : last.frame = exitFrame code
  before : earlier.map Outbound.Item.frame = replayed s.replay ++ s.accepted.map output
  written : last ∈ written s.conn.out
  newest : last.pos + 1 = s.conn.sent.length
  consumer : s.consumer = .ended code

theorem outputs {replay : Bytes} {chunks : List Bytes} {f : Frame} (member : f ∈ replayed replay ++ chunks.map output) :
    f.kind = .binary := by
  rcases List.mem_append.mp member with opened | chunk
  · unfold replayed at opened
    split at opened
    · cases opened
    · rw [List.mem_singleton.mp opened]
      rfl
  · obtain ⟨_,_,rfl⟩ := List.mem_map.mp chunk
    rfl

theorem lastNumber {l earlier : List Outbound.Item} {last : Outbound.Item} (split : l = earlier ++ [last])
    (numbered : l.map Outbound.Item.pos = List.range l.length) : last.pos + 1 = l.length := by
  subst split
  rw [List.length_append,List.length_singleton,List.range_succ,List.map_append] at numbered
  have same := (List.append_inj' numbered rfl).2
  simp only [List.map_cons,List.map_nil,List.cons.injEq,and_true] at same
  simp [same]

theorem closingOf (forwarded : Forwarded s) {f : Frame} (member : f ∈ s.conn.sent.map Outbound.Item.frame)
    (text : f.kind = .text) : ∃ code, s.forwarder = .finishing code ∨ s.forwarder = .finished code := by
  obtain ⟨passed,_,sent,_⟩ := forwarded.sent
  by_contra none
  have open_ : closing s.forwarder = [] := by
    cases h : s.forwarder <;> simp [h,closing] at none ⊢
  rw [sent,open_,List.append_nil] at member
  have inside : f ∈ replayed s.replay ++ passed.map output := by
    refine (List.mem_append.mp member).elim (fun opened => ?_) (List.mem_append_right _)
    unfold opening at opened
    split at opened
    · cases opened
    · exact List.mem_append_left _ opened
  exact absurd ((outputs inside).symm.trans text) (by simp)

theorem exitedOf {ces : List Outbound.Event} (sound : Outbound.Sound ces s.conn) (forwarded : Forwarded s)
    (wrote : exitWritten s) : ∃ code earlier last, Exited s code earlier last := by
  obtain ⟨i,inside,text⟩ := List.any_eq_true.mp wrote
  have text : i.frame.kind = .text := by simpa using text
  have known : i ∈ s.conn.sent := sound.lined.line.subset (by simp [Outbound.State.line,inside])
  obtain ⟨code,here⟩ := closingOf forwarded (List.mem_map_of_mem known) text
  obtain ⟨⟨passed,taking,sent,_⟩,spent,status,ended,_,_⟩ := forwarded
  have finished : carried s.forwarder = [] ∧ closing s.forwarder = [exitFrame code] ∧ opening s = replayed s.replay := by
    rcases here with here | here <;> simp [here,carried,closing,opening]
  have consumer : s.consumer = .ended code := status code (by rcases here with here | here <;> simp [knows,here])
  have queue : s.chunks = [] := (spent (by rcases here with here | here <;> simp [rangeOver,here])).1
  rw [finished.1,queue,List.append_nil,List.append_nil] at taking
  rw [finished.2.1,finished.2.2,← taking] at sent
  obtain ⟨earlier,tail,split,before,exit⟩ := List.map_eq_append_iff.mp sent
  obtain ⟨last,rest,rfl,exit,none⟩ := List.map_eq_cons_iff.mp exit
  rw [List.map_eq_nil_iff.mp none] at split
  have newest : i = last := by
    rw [split] at known
    rcases List.mem_append.mp known with old | new
    · have binary := outputs (before ▸ List.mem_map_of_mem old)
      exact absurd (binary.symm.trans text) (by simp)
    · exact List.mem_singleton.mp new
  exact ⟨code,earlier,last,ended code consumer,split,exit,before,newest ▸ inside,
    lastNumber split sound.lined.numbered,consumer⟩

theorem writtenSplit {l earlier : List Outbound.Item} {last : Outbound.Item} (sub : l.Sublist (earlier ++ [last])) (member : last ∈ l)
    (fresh : last ∉ earlier) : ∃ w, l = w ++ [last] ∧ w.Sublist earlier := by
  obtain ⟨w,tail,rfl,before,after⟩ := List.sublist_append_iff.mp sub
  refine ⟨w,?_,before⟩
  rcases List.mem_append.mp member with old | new
  · exact absurd (before.subset old) fresh
  · rcases List.sublist_singleton.mp after with rfl | rfl
    · cases new
    · rfl

theorem writtenExit {ces : List Outbound.Event} (sound : Outbound.Sound ces s.conn) {code : Int}
    {earlier : List Outbound.Item} {last : Outbound.Item} (exited : Exited s code earlier last) :
    ∃ w, written s.conn.out = w ++ [last] ∧ w.Sublist earlier := by
  have sub : (written s.conn.out).Sublist (earlier ++ [last]) := by
    rw [← exited.sent]
    refine List.Sublist.trans ?_ sound.lined.line
    simp [Outbound.State.line,List.append_assoc]
  refine writtenSplit sub exited.written (fun old => ?_)
  have binary := outputs (exited.before ▸ List.mem_map_of_mem old)
  rw [exited.exit] at binary
  cases binary

end M6t.Terminal
