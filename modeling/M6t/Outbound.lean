import M6t.Runs
import Mathlib.Data.List.Basic
import Mathlib.Algebra.Order.Ring.Nat

/-! One WebSocket connection's bounded outbound queue: a producer's sends, the
write pump and any number of closes, interleaved at every access to the queue,
the counter and the socket. -/
namespace M6t.Outbound
open M6t.Runs

abbrev Bytes := List UInt8

inductive Kind where
  | text
  | binary
  deriving DecidableEq, Repr

structure Frame where
  kind : Kind
  data : Bytes
  deriving DecidableEq, Repr

structure Item where
  pos : Nat
  frame : Frame
  deriving DecidableEq, Repr

inductive Message where
  | frame (f : Item)
  | resync (droppedBytes : Nat)
  | closure
  deriving DecidableEq, Repr

def outboundQueue : Nat := 64

/-- Where the producer is: in `send`, the frame it is sending, and the oldest one
it has received and not yet counted. -/
inductive Producer where
  | idle
  | full (f : Item)
  | holding (f oldest : Item)
  | retry (f : Item)
  | spilling (f : Item)
  | finished
  deriving DecidableEq, Repr

/-- Where the write pump is. A frame in hand is `some`; `none` is the drain of a
finished queue. `taken` has still to swap the counter. -/
inductive Writer where
  | select
  | taken (hand : Option Item)
  | marking (hand : Option Item) (dropped : Nat)
  | writing (hand : Option Item)
  | leaving
  | gone
  deriving DecidableEq, Repr

inductive Once where
  | fresh
  | running
  | spent
  deriving DecidableEq, Repr

structure State where
  frames : List Item
  closed : Bool
  dropped : Nat
  done : Bool
  closeOnce : Once
  producer : Producer
  writer : Writer
  wsCloses : Nat
  returned : Nat
  sent : List Item
  out : List Message
  discarded : List Item
  failed : Bool
  panicked : Bool
  deriving DecidableEq, Repr

def newConn : State :=
  ⟨[],false,0,false,.fresh,.idle,.select,0,0,[],[],[],false,false⟩

inductive Event where
  | send (f : Frame)
  | evict
  | count
  | retry
  | spill
  | finish
  | take
  | stop
  | swap
  | deliver (ok : Bool)
  | close
  | closeSocket
  | leave
  deriving DecidableEq, Repr

namespace State
variable (s : State)

def offer (f : Item) (otherwise : Producer) : State :=
  if s.closed then { s with panicked := true }
  else if s.frames.length < outboundQueue then { s with frames := s.frames ++ [f], producer := .idle }
  else { s with producer := otherwise }

def number (f : Frame) : Item := ⟨s.sent.length,f⟩

def record (f : Frame) : State := { s with sent := s.sent ++ [s.number f] }

def emit (m : Message) (next : Writer) : State := { s with out := s.out ++ [m], writer := next }

def broken : State := { s with failed := true, writer := .leaving }

def beginClose : State := { s with closeOnce := .running, done := true, panicked := s.panicked || s.done }

end State

def step (s : State) : Event → Option State
  | .send f =>
      match s.producer with
      | .idle => some ((s.record f).offer (s.number f) (.full (s.number f)))
      | _ => none
  | .evict =>
      match s.producer,s.frames with
      | .full f,oldest :: rest =>
          some { s with frames := rest, discarded := s.discarded ++ [oldest], producer := .holding f oldest }
      | .full f,[] => some { s with producer := .retry f }
      | _,_ => none
  | .count =>
      match s.producer with
      | .holding f oldest => some { s with dropped := s.dropped + oldest.frame.data.length, producer := .retry f }
      | _ => none
  | .retry =>
      match s.producer with
      | .retry f => some (s.offer f (.spilling f))
      | _ => none
  | .spill =>
      match s.producer with
      | .spilling f =>
          some { s with
            dropped := s.dropped + f.frame.data.length, discarded := s.discarded ++ [f], producer := .idle }
      | _ => none
  | .finish =>
      match s.producer with
      | .idle => some { s with closed := true, producer := .finished }
      | _ => none
  | .take =>
      match s.writer,s.frames,s.closed with
      | .select,f :: rest,_ => some { s with frames := rest, writer := .taken (some f) }
      | .select,[],true => some { s with writer := .taken none }
      | _,_,_ => none
  | .stop => if s.writer = .select ∧ s.done = true then some { s with writer := .leaving } else none
  | .swap =>
      match s.writer with
      | .taken hand =>
          some { s with dropped := 0, writer := if s.dropped = 0 then .writing hand else .marking hand s.dropped }
      | _ => none
  | .deliver ok =>
      if ok = true ∧ s.wsCloses ≠ 0 then none
      else match s.writer,ok with
        | .marking hand dropped,true => some (s.emit (.resync dropped) (.writing hand))
        | .marking _ _,false => some s.broken
        | .writing (some f),true => some (s.emit (.frame f) .select)
        | .writing (some _),false => some s.broken
        | .writing none,true => some (s.emit .closure .leaving)
        | .writing none,false => some s.broken
        | _,_ => none
  | .close =>
      match s.closeOnce with
      | .fresh => some s.beginClose
      | .running => none
      | .spent => some { s with returned := s.returned + 1 }
  | .closeSocket =>
      match s.closeOnce with
      | .running =>
          some { s with closeOnce := .spent, wsCloses := s.wsCloses + 1, returned := s.returned + 1 }
      | _ => none
  | .leave =>
      match s.writer,s.closeOnce with
      | .leaving,.fresh => some s.beginClose
      | .leaving,.spent => some { s with writer := .gone }
      | _,_ => none

def Producer.sending : Producer → List Item
  | .full f | .holding f _ | .retry f | .spilling f => [f]
  | _ => []

def Producer.evicted : Producer → List Item
  | .holding _ oldest => [oldest]
  | _ => []

def Writer.hand : Writer → List Item
  | .taken hand | .marking hand _ | .writing hand => hand.toList
  | _ => []

def Writer.marked : Writer → Nat
  | .marking _ dropped => dropped
  | _ => 0

def Message.written : Message → Option Item
  | .frame f => some f
  | _ => none

def Message.reported : Message → Nat
  | .resync dropped => dropped
  | _ => 0

def written (out : List Message) : List Item := out.filterMap Message.written

def reported (out : List Message) : Nat := (out.map Message.reported).sum

def size (l : List Item) : Nat := (l.map (fun i => i.frame.data.length)).sum

def ahead : Writer → List Item
  | .taken hand => hand.toList
  | _ => []

def swapped : Writer → List Item
  | .marking hand _ | .writing hand => hand.toList
  | _ => []

def waiting (s : State) : List Item := s.frames ++ s.producer.sending

def State.line (s : State) : List Item :=
  written s.out ++ s.writer.hand ++ s.frames ++ s.producer.sending

section Sizes
variable {l k : List Item} {out : List Message} {m : Message} {f : Item}

@[simp] theorem sizeNil : size [] = 0 := rfl

@[simp] theorem sizeCons : size (f :: l) = f.frame.data.length + size l := List.sum_cons

@[simp] theorem sizeAppend : size (l ++ k) = size l + size k := by simp [size]

@[simp] theorem writtenAppend : written (out ++ [m]) = written out ++ m.written.toList := by
  cases m <;> simp [written,Message.written]

@[simp] theorem reportedAppend : reported (out ++ [m]) = reported out + m.reported := by simp [reported]

end Sizes

theorem handSplit (w : Writer) : w.hand = swapped w ++ ahead w := by
  cases w <;> simp [Writer.hand,swapped,ahead]

theorem offerCases {s : State} {f : Item} {otherwise : Producer} {P : State → Prop} (opened : s.closed = false)
    (room : s.frames.length < outboundQueue → P { s with frames := s.frames ++ [f], producer := .idle })
    (full : outboundQueue ≤ s.frames.length → P { s with producer := otherwise }) : P (s.offer f otherwise) := by
  by_cases h : s.frames.length < outboundQueue
  · simpa [State.offer,opened,h] using room h
  · simpa [State.offer,opened,h] using full (Nat.le_of_not_lt h)

section Offer
variable {s : State} {f : Item} {otherwise : Producer}

@[simp] theorem offerSent : (s.offer f otherwise).sent = s.sent := by unfold State.offer; split_ifs <;> rfl

@[simp] theorem offerOut : (s.offer f otherwise).out = s.out := by unfold State.offer; split_ifs <;> rfl

@[simp] theorem offerDropped : (s.offer f otherwise).dropped = s.dropped := by unfold State.offer; split_ifs <;> rfl

@[simp] theorem offerWriter : (s.offer f otherwise).writer = s.writer := by unfold State.offer; split_ifs <;> rfl

@[simp] theorem offerDiscarded : (s.offer f otherwise).discarded = s.discarded := by
  unfold State.offer; split_ifs <;> rfl

@[simp] theorem offerClosed : (s.offer f otherwise).closed = s.closed := by unfold State.offer; split_ifs <;> rfl

@[simp] theorem offerCloseOnce : (s.offer f otherwise).closeOnce = s.closeOnce := by unfold State.offer; split_ifs <;> rfl

@[simp] theorem offerFailed : (s.offer f otherwise).failed = s.failed := by unfold State.offer; split_ifs <;> rfl

theorem offerLine (opened : s.closed = false) (held : otherwise.sending = [f]) :
    (s.offer f otherwise).line = written s.out ++ s.writer.hand ++ s.frames ++ [f] := by
  refine offerCases (P := fun t => t.line = _) opened (fun _ => ?_) (fun _ => ?_)
  · simp [State.line,Producer.sending]
  · simp [State.line,held]

theorem waitingOffer {f : Item} {otherwise : Producer} (opened : s.closed = false) (held : otherwise.sending = [f]) :
    waiting (s.offer f otherwise) = s.frames ++ [f] := by
  refine offerCases (P := fun t => waiting t = _) opened (fun _ => ?_) (fun _ => ?_)
  · simp [waiting,Producer.sending]
  · simp [waiting,held]

theorem offerEvicted (opened : s.closed = false) (none : otherwise.evicted = []) :
    (s.offer f otherwise).producer.evicted = [] :=
  offerCases (P := fun t => t.producer.evicted = []) opened (fun _ => rfl) (fun _ => none)

end Offer

inductive Moves (s : State) : Event → State → Prop where
  | sends {f} (idle : s.producer = .idle) :
      Moves s (.send f) ((s.record f).offer (s.number f) (.full (s.number f)))
  | evicts {f oldest rest} (full : s.producer = .full f) (queue : s.frames = oldest :: rest) :
      Moves s .evict { s with frames := rest, discarded := s.discarded ++ [oldest], producer := .holding f oldest }
  | finds {f} (full : s.producer = .full f) (queue : s.frames = []) : Moves s .evict { s with producer := .retry f }
  | counts {f oldest} (holding : s.producer = .holding f oldest) :
      Moves s .count { s with dropped := s.dropped + oldest.frame.data.length, producer := .retry f }
  | retries {f} (here : s.producer = .retry f) : Moves s .retry (s.offer f (.spilling f))
  | spills {f} (here : s.producer = .spilling f) :
      Moves s .spill { s with
        dropped := s.dropped + f.frame.data.length, discarded := s.discarded ++ [f], producer := .idle }
  | finishes (idle : s.producer = .idle) : Moves s .finish { s with closed := true, producer := .finished }
  | takes {f rest} (select : s.writer = .select) (queue : s.frames = f :: rest) :
      Moves s .take { s with frames := rest, writer := .taken (some f) }
  | drains (select : s.writer = .select) (queue : s.frames = []) (closed : s.closed = true) :
      Moves s .take { s with writer := .taken none }
  | stops (select : s.writer = .select) (done : s.done = true) : Moves s .stop { s with writer := .leaving }
  | swaps {hand} (here : s.writer = .taken hand) :
      Moves s .swap { s with
        dropped := 0, writer := if s.dropped = 0 then .writing hand else .marking hand s.dropped }
  | marks {hand dropped} (here : s.writer = .marking hand dropped) (live : s.wsCloses = 0) :
      Moves s (.deliver true) (s.emit (.resync dropped) (.writing hand))
  | writes {f} (here : s.writer = .writing (some f)) (live : s.wsCloses = 0) :
      Moves s (.deliver true) (s.emit (.frame f) .select)
  | ends (here : s.writer = .writing none) (live : s.wsCloses = 0) :
      Moves s (.deliver true) (s.emit .closure .leaving)
  | breaks (busy : (∃ hand dropped, s.writer = .marking hand dropped) ∨ ∃ hand, s.writer = .writing hand) :
      Moves s (.deliver false) s.broken
  | begins {e} (fresh : s.closeOnce = .fresh) (caller : e = .close ∨ e = .leave ∧ s.writer = .leaving) :
      Moves s e s.beginClose
  | repeats (spent : s.closeOnce = .spent) : Moves s .close { s with returned := s.returned + 1 }
  | closes (running : s.closeOnce = .running) :
      Moves s .closeSocket { s with
        closeOnce := .spent, wsCloses := s.wsCloses + 1, returned := s.returned + 1 }
  | leaves (leaving : s.writer = .leaving) (spent : s.closeOnce = .spent) : Moves s .leave { s with writer := .gone }

variable {s t : State} {e : Event}

theorem stepMoves (taken : step s e = some t) : Moves s e t := by
  cases e with
  | send f =>
    simp only [step] at taken
    split at taken <;> cases taken
    exact .sends (by assumption)
  | evict =>
    simp only [step] at taken
    split at taken <;> cases taken
    · exact .evicts (by assumption) (by assumption)
    · exact .finds (by assumption) (by assumption)
  | count =>
    simp only [step] at taken
    split at taken <;> cases taken
    exact .counts (by assumption)
  | retry =>
    simp only [step] at taken
    split at taken <;> cases taken
    exact .retries (by assumption)
  | spill =>
    simp only [step] at taken
    split at taken <;> cases taken
    exact .spills (by assumption)
  | finish =>
    simp only [step] at taken
    split at taken <;> cases taken
    exact .finishes (by assumption)
  | take =>
    simp only [step] at taken
    split at taken <;> cases taken
    · exact .takes (by assumption) (by assumption)
    · exact .drains (by assumption) (by assumption) (by assumption)
  | stop =>
    simp only [step] at taken
    split at taken <;> cases taken
    next ready => exact .stops ready.1 ready.2
  | swap =>
    simp only [step] at taken
    split at taken <;> cases taken
    exact .swaps (by assumption)
  | deliver ok =>
    simp only [step] at taken
    split at taken
    · cases taken
    · next live =>
      split at taken <;> cases taken
      case h_1 here => exact .marks here (by simpa using live)
      case h_2 here => exact .breaks (Or.inl ⟨_,_,here⟩)
      case h_3 here => exact .writes here (by simpa using live)
      case h_4 here => exact .breaks (Or.inr ⟨_,here⟩)
      case h_5 here => exact .ends here (by simpa using live)
      case h_6 here => exact .breaks (Or.inr ⟨_,here⟩)
  | close =>
    simp only [step] at taken
    split at taken <;> cases taken
    · exact .begins (by assumption) (Or.inl rfl)
    · exact .repeats (by assumption)
  | closeSocket =>
    simp only [step] at taken
    split at taken <;> cases taken
    exact .closes (by assumption)
  | leave =>
    simp only [step] at taken
    split at taken <;> cases taken
    · next leaving fresh => exact .begins fresh (Or.inr ⟨rfl,leaving⟩)
    · exact .leaves (by assumption) (by assumption)

structure Shut (s : State) : Prop where
  finished : s.closed = true ↔ s.producer = .finished
  calm : s.panicked = false
  fresh : s.closeOnce = .fresh → s.done = false ∧ s.wsCloses = 0 ∧ s.returned = 0
  running : s.closeOnce = .running → s.done = true ∧ s.wsCloses = 0 ∧ s.returned = 0
  spent : s.closeOnce = .spent → s.done = true ∧ s.wsCloses = 1
  gone : s.writer = .gone → s.closeOnce = .spent

theorem shutStart : Shut newConn := by constructor <;> simp [newConn]

theorem opened (shut : Shut s) (busy : s.producer ≠ .finished) : s.closed = false :=
  Bool.eq_false_iff.mpr (fun closed => busy (shut.finished.mp closed))

theorem shutStep (shut : Shut s) (taken : step s e = some t) : Shut t := by
  obtain ⟨finished,calm,fresh,running,spent,gone⟩ := id shut
  cases stepMoves taken with
  | sends idle =>
    have free := opened shut (by simp [idle])
    refine offerCases free (fun _ => ?_) (fun _ => ?_)
    · exact ⟨by simpa [idle,State.record] using finished,calm,fresh,running,spent,gone⟩
    · exact ⟨by simpa [idle,State.record] using finished,calm,fresh,running,spent,gone⟩
  | retries here =>
    refine offerCases (opened shut (by simp [here])) (fun _ => ?_) (fun _ => ?_)
    · exact ⟨by simpa [here] using finished,calm,fresh,running,spent,gone⟩
    · exact ⟨by simpa [here] using finished,calm,fresh,running,spent,gone⟩
  | evicts full _ | finds full _ | counts full | spills full =>
    have free := opened shut (by simp [full])
    exact ⟨by simp [free],calm,fresh,running,spent,gone⟩
  | finishes idle => exact ⟨by simp,calm,fresh,running,spent,gone⟩
  | takes | drains | stops | marks | writes | ends =>
    exact ⟨finished,calm,fresh,running,spent,by simp [State.emit]⟩
  | swaps here =>
    refine ⟨finished,calm,fresh,running,spent,?_⟩
    split <;> simp
  | breaks busy => exact ⟨finished,calm,fresh,running,spent,by simp [State.broken]⟩
  | begins before who =>
    have once : (s.panicked || s.done) = false := by simp [calm,(fresh before).1]
    exact ⟨finished,once,nofun,fun _ => ⟨rfl,(fresh before).2⟩,nofun,
      fun left => absurd (before.symm.trans (gone left)) (by decide)⟩
  | repeats before =>
    exact ⟨finished,calm,fun now => absurd (before.symm.trans now) (by decide),
      fun now => absurd (before.symm.trans now) (by decide),spent,gone⟩
  | closes before =>
    exact ⟨finished,calm,nofun,nofun,fun _ => ⟨(running before).1,congrArg (· + 1) (running before).2.1⟩,fun _ => rfl⟩
  | leaves _ before => exact ⟨finished,calm,fresh,running,spent,fun _ => before⟩

structure Lined (s : State) : Prop where
  numbered : s.sent.map Item.pos = List.range s.sent.length
  line : s.line.Sublist s.sent
  whole : s.failed = false → ∀ i ∈ s.sent, i ∈ s.line ∨ i ∈ s.discarded
  early : ∀ d ∈ s.discarded, d ∈ s.sent ∧ d.pos + 1 < s.sent.length

theorem ascending (lined : Lined s) : s.line.Pairwise (fun i j => i.pos < j.pos) := by
  have positions := lined.line.map Item.pos
  rw [lined.numbered] at positions
  exact List.pairwise_map.mp (List.Pairwise.sublist positions List.pairwise_lt_range)

theorem below (lined : Lined s) {i : Item} (member : i ∈ s.sent) : i.pos < s.sent.length := by
  have inside : i.pos ∈ s.sent.map Item.pos := List.mem_map_of_mem member
  rw [lined.numbered] at inside
  exact List.mem_range.mp inside

structure Roomy (s : State) : Prop where
  retry : ∀ f, s.producer = .retry f → s.frames.length < outboundQueue
  holding : ∀ f o, s.producer = .holding f o → s.frames.length < outboundQueue
  spilling : ∀ f, s.producer ≠ .spilling f
  fits : s.frames.length ≤ outboundQueue

theorem linedStart : Lined newConn := by
  constructor <;> simp [newConn,State.line,written,Writer.hand,Producer.sending]

theorem roomyStart : Roomy newConn := by constructor <;> simp [newConn]

theorem roomyStep (shut : Shut s) (roomy : Roomy s) (taken : step s e = some t) : Roomy t := by
  obtain ⟨retry,holding,spilling,fits⟩ := id roomy
  cases stepMoves taken with
  | sends idle =>
    have free := opened shut (by simp [idle])
    refine offerCases free (fun room => ?_) (fun _ => ?_)
    · exact ⟨by simp,by simp,by simp,by simpa [Nat.succ_le_iff] using room⟩
    · exact ⟨by simp,by simp,by simp,fits⟩
  | @evicts f oldest rest full queue =>
    have room : rest.length < outboundQueue := by simpa [queue,Nat.succ_le_iff] using fits
    exact ⟨by simp,fun _ _ _ => room,by simp,room.le⟩
  | finds full queue => exact ⟨fun _ _ => by simp [queue,outboundQueue],by simp,by simp,fits⟩
  | counts held => exact ⟨fun _ _ => holding _ _ held,by simp,by simp,fits⟩
  | retries here =>
    have free := opened shut (by simp [here])
    refine offerCases free (fun room => ?_) (fun full => ?_)
    · exact ⟨by simp,by simp,by simp,by simpa [Nat.succ_le_iff] using room⟩
    · exact absurd (retry _ here) (Nat.not_lt.mpr full)
  | spills here => exact absurd here (spilling _)
  | @takes f rest select queue =>
    have fewer : rest.length ≤ s.frames.length := by simp [queue]
    exact ⟨fun f h => fewer.trans_lt (retry f h),fun f o h => fewer.trans_lt (holding f o h),spilling,fewer.trans fits⟩
  | finishes idle => exact ⟨by simp,by simp,by simp,fits⟩
  | _ => exact ⟨retry,holding,spilling,fits⟩

theorem linedSame (lined : Lined s) (sent : t.sent = s.sent) (discarded : t.discarded = s.discarded)
    (line : t.line = s.line) (failed : t.failed = false → s.failed = false) : Lined t where
  numbered := sent ▸ lined.numbered
  line := by rw [line,sent]; exact lined.line
  whole live := by rw [line,sent,discarded]; exact lined.whole (failed live)
  early := by rw [sent,discarded]; exact lined.early

theorem linedSend (lined : Lined s) {f : Frame} (sent : t.sent = s.sent ++ [s.number f])
    (discarded : t.discarded = s.discarded) (line : t.line = s.line ++ [s.number f]) (failed : t.failed = s.failed) :
    Lined t where
  numbered := by simp [sent,lined.numbered,State.number,List.range_succ]
  line := by
    rw [line,sent]
    exact lined.line.append (List.Sublist.refl _)
  whole live i member := by
    rw [line,discarded]
    rcases List.mem_append.mp (sent ▸ member) with old | new
    · exact (lined.whole (failed ▸ live) i old).imp_left (List.mem_append_left _)
    · exact Or.inl (List.mem_append_right _ new)
  early d member := by
    obtain ⟨old,before⟩ := lined.early d (discarded ▸ member)
    rw [sent,List.length_append]
    exact ⟨List.mem_append_left _ old,Nat.lt_add_right _ before⟩

theorem linedEvict (lined : Lined s) {f oldest : Item} {rest : List Item} (full : s.producer = .full f)
    (queue : s.frames = oldest :: rest) : Lined { s with
      frames := rest, discarded := s.discarded ++ [oldest], producer := .holding f oldest } := by
  have before : s.line = written s.out ++ s.writer.hand ++ oldest :: (rest ++ [f]) := by
    simp [State.line,full,queue,Producer.sending]
  have order := ascending lined
  have line := lined.line
  rw [before] at line order
  have held : oldest ∈ s.sent := line.subset (by simp)
  have latest : f ∈ s.sent := line.subset (by simp)
  have older : oldest.pos < f.pos := by
    have tail := (List.pairwise_append.mp order).2.1
    exact (List.pairwise_cons.mp tail).1 f (by simp)
  constructor
  case numbered => exact lined.numbered
  case line =>
    refine List.Sublist.trans ?_ line
    simp [State.line,Producer.sending]
  case whole =>
    intro live i member
    rcases lined.whole live i member with inLine | gone
    · rw [before] at inLine
      simp only [State.line,Producer.sending,List.mem_append,List.mem_cons,List.not_mem_nil,or_false] at inLine ⊢
      tauto
    · exact Or.inr (List.mem_append_left _ gone)
  case early =>
    intro d member
    rcases List.mem_append.mp member with old | new
    · exact lined.early d old
    · cases List.mem_singleton.mp new
      exact ⟨held,lt_of_le_of_lt (Nat.succ_le_of_lt older) (below lined latest)⟩

theorem linedBreak (lined : Lined s) : Lined s.broken where
  numbered := lined.numbered
  line := List.Sublist.trans (by simp [State.line,State.broken,Writer.hand]) lined.line
  whole live := by simp [State.broken] at live
  early := lined.early

theorem linedStep (shut : Shut s) (roomy : Roomy s) (lined : Lined s) (taken : step s e = some t) : Lined t := by
  cases stepMoves taken with
  | @sends f idle =>
    have free := opened shut (by simp [idle])
    refine linedSend lined offerSent offerDiscarded ?_ offerFailed
    rw [offerLine (s := s.record f) free rfl]
    simp [State.line,State.record,idle,Producer.sending]
  | evicts full queue => exact linedEvict lined full queue
  | spills here => exact absurd here (roomy.spilling _)
  | breaks busy => exact linedBreak lined
  | retries here =>
    refine linedSame lined offerSent offerDiscarded ?_ (fun live => offerFailed ▸ live)
    rw [offerLine (opened shut (by simp [here])) rfl]
    simp [State.line,here,Producer.sending]
  | finds here | counts here | finishes here =>
    refine linedSame lined rfl rfl ?_ id
    simp [State.line,here,Producer.sending]
  | takes here queue | drains here queue =>
    refine linedSame lined rfl rfl ?_ id
    simp [State.line,here,queue,Writer.hand]
  | swaps here =>
    refine linedSame lined rfl rfl ?_ id
    by_cases none : s.dropped = 0 <;> simp [State.line,here,Writer.hand,none]
  | marks here | writes here | ends here =>
    refine linedSame lined rfl rfl ?_ id
    simp [State.line,State.emit,here,Writer.hand,Message.written]
  | stops here | leaves here =>
    refine linedSame lined rfl rfl ?_ id
    simp [State.line,here,Writer.hand]
  | begins | repeats | closes => exact linedSame lined rfl rfl rfl id

structure Caught (s : State) : Prop where
  taken : ∀ i ∈ written s.out ++ swapped s.writer, i.pos + 1 = s.sent.length → s.dropped = 0
  written : ∀ i ∈ written s.out, i.pos + 1 = s.sent.length → s.writer.marked = 0

theorem caughtStart : Caught newConn := by constructor <;> simp [newConn,written,swapped]

theorem pastInLine {i : Item} (member : i ∈ written s.out ++ swapped s.writer) : i ∈ s.line := by
  rw [State.line,handSplit]
  simp only [List.mem_append] at member ⊢
  tauto

theorem pastBefore (lined : Lined s) {i f : Item} (member : i ∈ written s.out ++ swapped s.writer)
    (sending : s.producer.sending = [f]) : i.pos + 1 < s.sent.length := by
  have order := ascending lined
  have latest : f ∈ s.sent := lined.line.subset (by simp [State.line,sending])
  rw [State.line,sending,List.pairwise_append] at order
  have before : i.pos < f.pos := by
    refine order.2.2 i ?_ f (List.mem_singleton_self f)
    rw [handSplit]
    simp only [List.mem_append] at member ⊢
    tauto
  exact lt_of_le_of_lt (Nat.succ_le_of_lt before) (below lined latest)

theorem caughtStep (roomy : Roomy s) (lined : Lined s) (caught : Caught s)
    (moved : step s e = some t) : Caught t := by
  obtain ⟨taken,done⟩ := caught
  cases stepMoves moved with
  | @sends f idle =>
    have new : ∀ i ∈ written s.out ++ swapped s.writer, i.pos + 1 ≠ (s.sent ++ [s.number f]).length := by
      intro i member last
      have := below lined (lined.line.subset (pastInLine member))
      simp at last
      omega
    refine ⟨fun i member last => ?_,fun i member last => ?_⟩
    · rw [offerOut,offerWriter] at member
      rw [offerSent] at last
      exact absurd last (new i member)
    · rw [offerOut] at member
      rw [offerSent] at last
      exact absurd last (new i (List.mem_append_left _ member))
  | retries here =>
    refine ⟨?_,?_⟩
    · simpa using taken
    · simpa using done
  | @counts f oldest holding =>
    refine ⟨fun i member last => ?_,done⟩
    have := pastBefore (f := f) lined member (by simp only [holding,Producer.sending])
    exact absurd last (Nat.ne_of_lt this)
  | spills here => exact absurd here (roomy.spilling _)
  | takes here | drains here =>
    refine ⟨fun i member => taken i ?_,fun _ _ _ => rfl⟩
    simpa [here,swapped] using member
  | swaps here =>
    refine ⟨fun _ _ _ => rfl,fun i member last => ?_⟩
    have none := taken i (List.mem_append_left _ member) last
    simp [none,Writer.marked]
  | marks here | writes here | ends here =>
    refine ⟨fun i member => taken i ?_,fun _ _ _ => rfl⟩
    simpa [State.emit,here,swapped,Message.written] using member
  | breaks busy =>
    refine ⟨fun i member => taken i ?_,fun _ _ _ => rfl⟩
    exact List.mem_append_left _ (by simpa [State.broken,swapped] using member)
  | stops here | leaves here =>
    refine ⟨fun i member => taken i ?_,fun _ _ _ => rfl⟩
    simpa [here,swapped] using member
  | evicts | finds | finishes | begins | repeats | closes => exact ⟨taken,done⟩

def Balanced (s : State) : Prop :=
  size s.line + reported s.out + s.dropped + s.writer.marked + size s.producer.evicted = size s.sent

theorem balancedStep (shut : Shut s) (taken : step s e = some t) (live : t.failed = false)
    (balanced : s.failed = false → Balanced s) : Balanced t := by
  cases stepMoves taken with
  | breaks busy => simp [State.broken] at live
  | @sends f idle =>
    have free := opened shut (by simp [idle])
    have whole := balanced ((offerFailed (s := s.record f)) ▸ live)
    simp only [Balanced,State.line,idle,Producer.sending,Producer.evicted] at whole
    rw [Balanced,offerLine (s := s.record f) free rfl,offerEvicted (s := s.record f) free rfl]
    simp [State.record] at whole ⊢
    omega
  | retries here =>
    have free := opened shut (by simp [here])
    have whole := balanced (offerFailed ▸ live)
    simp only [Balanced,State.line,here,Producer.sending,Producer.evicted] at whole
    rw [Balanced,offerLine free rfl,offerEvicted free rfl]
    simp at whole ⊢
    omega
  | evicts here queue | takes here queue | drains here queue =>
    have whole := balanced live
    simp [Balanced,State.line,here,queue,Producer.sending,Producer.evicted,Writer.hand,Writer.marked] at whole ⊢
    omega
  | finds here | counts here | spills here | finishes here =>
    have whole := balanced live
    simp [Balanced,State.line,here,Producer.sending,Producer.evicted] at whole ⊢
    omega
  | swaps here =>
    have whole := balanced live
    by_cases none : s.dropped = 0 <;> simp [Balanced,State.line,here,Writer.hand,Writer.marked,none] at whole ⊢ <;> omega
  | marks here | writes here | ends here =>
    have whole := balanced live
    simp [Balanced,State.line,State.emit,here,Writer.hand,Writer.marked,Message.written,Message.reported] at whole ⊢
    omega
  | stops here | leaves here =>
    have whole := balanced live
    simp [Balanced,State.line,here,Writer.hand,Writer.marked] at whole ⊢
    omega
  | begins | repeats | closes => exact balanced live

def Event.sent : Event → Option Frame
  | .send f => some f
  | _ => none

def sends (es : List Event) : List Frame := es.filterMap Event.sent

theorem sentStep {fs : List Frame} (sent : s.sent.map Item.frame = fs) (taken : step s e = some t) :
    t.sent.map Item.frame = fs ++ e.sent.toList := by
  cases stepMoves taken with
  | sends idle => simpa [State.record,State.number,Event.sent] using sent
  | retries here => simpa [Event.sent] using sent
  | begins fresh caller => rcases caller with rfl | ⟨rfl,_⟩ <;> simpa [State.beginClose,Event.sent] using sent
  | _ => simpa [Event.sent,State.emit,State.broken] using sent

structure Sound (es : List Event) (s : State) : Prop where
  sent : s.sent.map Item.frame = sends es
  shut : Shut s
  roomy : Roomy s
  lined : Lined s
  caught : Caught s
  balanced : s.failed = false → Balanced s

theorem soundStart : Sound [] newConn :=
  ⟨rfl,shutStart,roomyStart,linedStart,caughtStart,fun _ => rfl⟩

theorem soundStep {es : List Event} (sound : Sound es s) (taken : step s e = some t) : Sound (es ++ [e]) t where
  sent := by
    rw [sends,List.filterMap_append]
    cases h : e.sent <;> simpa [h,sends] using sentStep sound.sent taken
  shut := shutStep sound.shut taken
  roomy := roomyStep sound.shut sound.roomy taken
  lined := linedStep sound.shut sound.roomy sound.lined taken
  caught := caughtStep sound.roomy sound.lined sound.caught taken
  balanced live := balancedStep sound.shut taken live sound.balanced

theorem runSound {es : List Event} (run : Run step anyStep newConn es s) : Sound es s :=
  run.traced soundStart (fun _ _ _ _ sound _ taken => soundStep sound taken)

theorem failedStep (taken : step s e = some t) (ok : e ≠ .deliver false) : t.failed = s.failed := by
  cases stepMoves taken with
  | breaks => exact absurd rfl ok
  | sends | retries => exact offerFailed
  | _ => rfl

theorem closedStep (taken : step s e = some t) (other : e ≠ .finish) : t.closed = s.closed := by
  cases stepMoves taken with
  | finishes => exact absurd rfl other
  | sends | retries => exact offerClosed
  | _ => rfl

theorem lastWritten {es : List Event} (sound : Sound es s) (live : s.failed = false) {i : Item}
    (member : i ∈ written s.out) (last : i.pos + 1 = s.sent.length) :
    size (written s.out) + reported s.out = size s.sent ∧ ∀ j ∈ s.sent, j ∈ written s.out ∨ j ∈ s.discarded := by
  have lined := sound.lined
  have none : s.writer.hand ++ s.frames ++ s.producer.sending = [] := by
    refine List.eq_nil_iff_forall_not_mem.mpr (fun j inside => ?_)
    have order := ascending lined
    have known : j.pos < s.sent.length :=
      below lined (lined.line.subset (by simp only [State.line,List.mem_append] at inside ⊢; tauto))
    rw [State.line,List.append_assoc,List.append_assoc,List.pairwise_append] at order
    have := order.2.2 i member j (List.append_assoc .. ▸ inside)
    omega
  have line : s.line = written s.out := by rw [State.line,List.append_assoc,List.append_assoc,← List.append_assoc s.writer.hand,none,List.append_nil]
  have held : s.producer.evicted = [] := by
    have idle := (List.append_eq_nil_iff.mp none).2
    cases h : s.producer <;> simp [h,Producer.sending,Producer.evicted] at idle ⊢
  constructor
  · have whole := sound.balanced live
    rw [Balanced,line,held,sound.caught.taken i (List.mem_append_left _ member) last,
      sound.caught.written i member last] at whole
    simpa using whole
  · intro j inside
    exact line ▸ lined.whole live j inside

def accounted (s : State) : Nat :=
  size (written s.out) + reported s.out + s.dropped + size s.frames + (size s.writer.hand + s.writer.marked)

structure Accounted (es : List Event) (s : State) : Prop where
  sent : s.sent.map Item.frame = sends es
  numbered : s.sent.map Item.pos = List.range s.sent.length
  ordered : (written s.out).Sublist s.sent
  bytes : s.failed = false → accounted s + (size s.producer.sending + size s.producer.evicted) = size s.sent
  last : ∀ d ∈ s.discarded, d.pos + 1 < s.sent.length
  calm : s.panicked = false
  atMostOnce : s.wsCloses ≤ 1
  once : s.returned ≠ 0 ∨ s.writer = .gone → s.wsCloses = 1

/-- Between the producer's receive of the oldest frame and its `Add`, the bytes of
that frame are the producer's. -/
theorem everyByteAccounted {es : List Event} (run : Run step anyStep newConn es s) : Accounted es s := by
  obtain ⟨sent,shut,roomy,lined,caught,balanced⟩ := runSound run
  constructor
  case sent => exact sent
  case numbered => exact lined.numbered
  case ordered =>
    refine List.Sublist.trans ?_ lined.line
    simp [State.line,List.append_assoc]
  case bytes =>
    intro live
    have whole := balanced live
    simp only [Balanced,State.line,sizeAppend] at whole
    rw [accounted]
    omega
  case last => exact fun d member => (lined.early d member).2
  case calm => exact shut.calm
  case atMostOnce =>
    cases h : s.closeOnce with
    | fresh => exact (shut.fresh h).2.1.le.trans (Nat.zero_le 1)
    | running => exact (shut.running h).2.1.le.trans (Nat.zero_le 1)
    | spent => exact (shut.spent h).2.le
  case once =>
    intro ended
    cases h : s.closeOnce with
    | fresh =>
      rcases ended with returned | gone
      · exact absurd (shut.fresh h).2.2 returned
      · exact absurd ((shut.gone gone).symm.trans h) (by simp)
    | running =>
      rcases ended with returned | gone
      · exact absurd (shut.running h).2.2 returned
      · exact absurd ((shut.gone gone).symm.trans h) (by simp)
    | spent => exact (shut.spent h).2

def byte : Frame := ⟨.binary,[0]⟩

def flood : List Event := List.replicate 65 (.send byte) ++ [.evict]

def drained : List Event :=
  flood ++ [.count,.retry,.take,.swap,.deliver true,.deliver true,.finish] ++
    (List.replicate 63 [.take,.swap,.deliver true]).flatten ++ [.take,.swap,.deliver true,.leave,.closeSocket,.leave]

theorem drainedAccounted : ∃ s, exec step newConn drained = some s ∧ size s.sent = 65 ∧ size (written s.out) = 64 ∧
    reported s.out = 1 ∧ s.out.getLast? = some .closure ∧ s.writer = .gone ∧ Accounted drained s := by
  have ends : (exec step newConn drained).map (fun s =>
      (size s.sent,size (written s.out),reported s.out,s.out.getLast?,s.writer)) =
      some (65,64,1,some .closure,.gone) := by decide +kernel
  obtain ⟨s,done,seen⟩ := Option.map_eq_some_iff.mp ends
  simp only [Prod.mk.injEq] at seen
  obtain ⟨sent,wrote,told,last,gone⟩ := seen
  exact ⟨s,done,sent,wrote,told,last,gone,everyByteAccounted (runOfExec done)⟩

theorem evictedNotYetCounted : ∃ s, Run step anyStep newConn flood s ∧ s.failed = false ∧
    accounted s < size s.sent - size s.producer.sending := by
  have ends : (exec step newConn flood).map (fun s => (s.failed,accounted s,size s.sent - size s.producer.sending)) =
      some (false,63,64) := by decide +kernel
  obtain ⟨s,done,seen⟩ := Option.map_eq_some_iff.mp ends
  simp only [Prod.mk.injEq] at seen
  obtain ⟨live,held,total⟩ := seen
  exact ⟨s,runOfExec done,live,by omega⟩

end M6t.Outbound
