import M6t.Runs
import M6t.Scrollback
import Mathlib.Data.List.Basic

/-! One pty session's consumers. Attach, broadcast, detach and finish each hold the
session's lock; a consumer reads its channels without it. -/
namespace M6t.PtySession
open M6t.Runs M6t.Scrollback

abbrev Bytes := List UInt8

def consumerQueue : Nat := 64

/-- A buffered channel. `misused` is a send on it or a close of it after it was
closed, or a send that would block the lock's holder. -/
structure Chan (α : Type) where
  buffer : List α
  closes : Nat
  misused : Bool
  deriving DecidableEq, Repr

namespace Chan
variable {α : Type}

def empty : Chan α := ⟨[],0,false⟩

def close (c : Chan α) : Chan α := { c with closes := c.closes + 1, misused := c.misused || decide (0 < c.closes) }

def offer (c : Chan α) (capacity : Nat) (v : α) : Chan α :=
  if 0 < c.closes then { c with misused := true }
  else if c.buffer.length < capacity then { c with buffer := c.buffer ++ [v] }
  else c

def send (c : Chan α) (capacity : Nat) (v : α) : Chan α :=
  if 0 < c.closes ∨ capacity ≤ c.buffer.length then { c with misused := true }
  else { c with buffer := c.buffer ++ [v] }

end Chan

structure Ending where
  broadcast : Nat
  status : Option Int
  deriving DecidableEq, Repr

structure Attachment where
  replay : Bytes
  chunks : Chan Bytes
  exited : Chan Int
  got : List Bytes
  statuses : List Int
  attached : Nat
  ending : Option Ending
  overflowed : Bool
  deriving DecidableEq, Repr

structure State where
  scrollback : Scrollback.Ring UInt8
  consumers : List Nat
  exit : Option Int
  attachments : List Attachment
  stream : List Bytes
  deriving DecidableEq, Repr

def start (capacity : Nat) : State := ⟨newRing capacity,[],none,[],[]⟩

inductive Event where
  | attach
  | broadcast (chunk : Bytes)
  | detach (consumer : Nat)
  | finish (status : Int)
  | read (consumer : Nat)
  | readExit (consumer : Nat)
  deriving DecidableEq, Repr

namespace Attachment
variable (a : Attachment)

def offered (chunk : Bytes) : Attachment :=
  { a with
    chunks := a.chunks.offer consumerQueue chunk
    overflowed := a.overflowed || decide (consumerQueue ≤ a.chunks.buffer.length) }

def finished (broadcast : Nat) (status : Int) : Attachment :=
  { a with
    chunks := a.chunks.close, exited := (a.exited.send 1 status).close, ending := some ⟨broadcast,some status⟩ }

def released (broadcast : Nat) : Attachment :=
  { a with chunks := a.chunks.close, exited := a.exited.close, ending := some ⟨broadcast,none⟩ }

def read : Option Attachment :=
  match a.chunks.buffer with
  | chunk :: rest => some { a with chunks := { a.chunks with buffer := rest }, got := a.got ++ [chunk] }
  | [] => none

def readExit : Option Attachment :=
  match a.exited.buffer with
  | status :: rest => some { a with exited := { a.exited with buffer := rest }, statuses := a.statuses ++ [status] }
  | [] => none

end Attachment

namespace State
variable (s : State)

def each (ids : List Nat) (f : Attachment → Attachment) : List Attachment :=
  ids.foldl (fun all i => all.modify i f) s.attachments

def replace (consumer : Nat) (a : Attachment) : State := { s with attachments := s.attachments.set consumer a }

def attach : State :=
  let a : Attachment := ⟨s.scrollback.snapshot,.empty,.empty,[],[],s.stream.length,none,false⟩
  match s.exit with
  | some status => { s with attachments := s.attachments ++ [a.finished s.stream.length status] }
  | none => { s with attachments := s.attachments ++ [a], consumers := s.consumers ++ [s.attachments.length] }

def broadcast (chunk : Bytes) : State :=
  { s with
    scrollback := s.scrollback.write chunk
    attachments := s.each s.consumers (fun a => a.offered chunk)
    stream := s.stream ++ [chunk] }

def detach (consumer : Nat) : State :=
  if consumer ∈ s.consumers then
    { s with
      consumers := s.consumers.erase consumer
      attachments := s.each [consumer] (fun a => a.released s.stream.length) }
  else s

def finish (status : Int) : State :=
  { s with
    exit := some status, consumers := []
    attachments := s.each s.consumers (fun a => a.finished s.stream.length status) }

end State

def step (s : State) : Event → Option State
  | .attach => some s.attach
  | .broadcast chunk => some (s.broadcast chunk)
  | .detach consumer => if consumer < s.attachments.length then some (s.detach consumer) else none
  | .finish status => some (s.finish status)
  | .read consumer => (s.attachments[consumer]?.bind Attachment.read).map (s.replace consumer)
  | .readExit consumer => (s.attachments[consumer]?.bind Attachment.readExit).map (s.replace consumer)

/-- An attachment as its callers see it: what had been broadcast when it attached,
and how it ended. -/
structure Row where
  attached : Nat
  ending : Option Ending
  deriving DecidableEq, Repr

structure View where
  exit : Option Int
  stream : List Bytes
  rows : List Row
  deriving DecidableEq, Repr

def Row.ended (row : Row) (e : Ending) : Row := { row with ending := row.ending.or (some e) }

def View.after (v : View) : Event → View
  | .attach => { v with rows := v.rows ++ [⟨v.stream.length,v.exit.map (fun status => ⟨v.stream.length,some status⟩)⟩] }
  | .broadcast chunk => { v with stream := v.stream ++ [chunk] }
  | .detach consumer => { v with rows := v.rows.modify consumer (fun row => row.ended ⟨v.stream.length,none⟩) }
  | .finish status =>
      { v with exit := some status, rows := v.rows.map (fun row => row.ended ⟨v.stream.length,some status⟩) }
  | .read _ => v
  | .readExit _ => v

def view (es : List Event) : View := es.foldl View.after ⟨none,[],[]⟩

def Row.until (row : Row) (stream : List Bytes) : Nat := (row.ending.map Ending.broadcast).getD stream.length

def Row.span (row : Row) (stream : List Bytes) : List Bytes :=
  (stream.drop row.attached).take (row.until stream - row.attached)

def Attachment.row (a : Attachment) : Row := ⟨a.attached,a.ending⟩

structure Served (capacity : Nat) (stream : List Bytes) (row : Row) (a : Attachment) : Prop where
  replay : a.replay = last capacity (stream.take row.attached).flatten
  delivered : (a.got ++ a.chunks.buffer).Sublist (row.span stream)
  complete : a.overflowed = false → a.got ++ a.chunks.buffer = row.span stream
  chunksClosed : a.chunks.closes = if row.ending.isSome then 1 else 0
  exitedClosed : a.exited.closes = if row.ending.isSome then 1 else 0
  calm : a.chunks.misused = false ∧ a.exited.misused = false
  status : a.statuses ++ a.exited.buffer = (row.ending.bind Ending.status).toList

variable {capacity : Nat} {s t : State} {e : Event} {es : List Event} {a : Attachment} {i : Nat}

theorem eachGet {ids : List Nat} (distinct : ids.Nodup) (f : Attachment → Attachment) (all : List Attachment) :
    (ids.foldl (fun all i => all.modify i f) all)[i]? = if i ∈ ids then all[i]?.map f else all[i]? := by
  induction ids generalizing all with
  | nil => simp
  | cons id ids ih =>
    obtain ⟨fresh,distinct⟩ := List.nodup_cons.mp distinct
    rw [List.foldl_cons,ih distinct,List.getElem?_modify]
    by_cases here : id = i
    · subst here
      simp [fresh]
    · simp [here,Ne.symm here]

structure Bounded (stream : List Bytes) (row : Row) : Prop where
  attached : row.attached ≤ stream.length
  ending : ∀ e, row.ending = some e → row.attached ≤ e.broadcast ∧ e.broadcast ≤ stream.length

structure Sound (capacity : Nat) (es : List Event) (s : State) : Prop where
  ring : s.scrollback.Sound
  held : s.scrollback.buf.length = capacity
  contents : s.scrollback.contents = last capacity s.stream.flatten
  stream : s.stream = (view es).stream
  exit : s.exit = (view es).exit
  rows : s.attachments.map Attachment.row = (view es).rows
  listed : ∀ i, i ∈ s.consumers ↔ ∃ row, (view es).rows[i]? = some row ∧ row.ending = none
  distinct : s.consumers.Nodup
  bounded : ∀ (i : Nat) (a : Attachment), s.attachments[i]? = some a → Bounded s.stream a.row
  served : ∀ (i : Nat) (a : Attachment), s.attachments[i]? = some a → Served capacity s.stream a.row a

theorem soundStart (positive : 0 < capacity) : Sound capacity [] (start capacity) where
  ring := newSound positive
  held := by simp [start,newRing]
  contents := by simp [start,newContents,last]
  stream := rfl
  exit := rfl
  rows := rfl
  listed := by simp [start,view]
  distinct := List.nodup_nil
  bounded := by simp [start]
  served := by simp [start]

section Served
variable {stream : List Bytes}

theorem spanLive (live : a.ending = none) : a.row.span stream = stream.drop a.attached := by
  simp [Row.span,Row.until,Attachment.row,live,List.take_of_length_le]

theorem spanEnding (live : a.ending = none) (status : Option Int) :
    Row.span ⟨a.attached,some ⟨stream.length,status⟩⟩ stream = a.row.span stream := by
  simp [Row.span,Row.until,Attachment.row,live]

theorem liveChannels (served : Served capacity stream a.row a) (live : a.ending = none) :
    a.chunks.closes = 0 ∧ a.exited.closes = 0 ∧ a.exited.buffer = [] ∧ a.statuses = [] := by
  have chunks := served.chunksClosed
  have exited := served.exitedClosed
  have status := served.status
  simp only [Attachment.row,live,Option.isSome_none,Option.bind_none,Option.toList_none] at chunks exited status
  exact ⟨chunks,exited,(List.append_eq_nil_iff.mp status).2,(List.append_eq_nil_iff.mp status).1⟩

theorem servedFinished (served : Served capacity stream a.row a) (live : a.ending = none) (status : Int) :
    Served capacity stream (a.finished stream.length status).row (a.finished stream.length status) := by
  obtain ⟨chunks,exited,buffer,statuses⟩ := liveChannels served live
  have same : Row.span ⟨a.attached,some ⟨stream.length,some status⟩⟩ stream = a.row.span stream := spanEnding live (some status)
  constructor
  case replay => exact served.replay
  case delivered => exact same.symm ▸ served.delivered
  case complete => exact fun never => (served.complete never).trans same.symm
  case chunksClosed => simp [Attachment.finished,Attachment.row,Chan.close,chunks]
  case exitedClosed => simp [Attachment.finished,Attachment.row,Chan.close,Chan.send,exited,buffer]
  case calm => simpa [Attachment.finished,Chan.close,Chan.send,chunks,exited,buffer] using served.calm
  case status => simp [Attachment.finished,Attachment.row,Chan.close,Chan.send,exited,buffer,statuses]

theorem servedReleased (served : Served capacity stream a.row a) (live : a.ending = none) :
    Served capacity stream (a.released stream.length).row (a.released stream.length) := by
  obtain ⟨chunks,exited,buffer,statuses⟩ := liveChannels served live
  have same : Row.span ⟨a.attached,some ⟨stream.length,none⟩⟩ stream = a.row.span stream := spanEnding live none
  constructor
  case replay => exact served.replay
  case delivered => exact same.symm ▸ served.delivered
  case complete => exact fun never => (served.complete never).trans same.symm
  case chunksClosed => simp [Attachment.released,Attachment.row,Chan.close,chunks]
  case exitedClosed => simp [Attachment.released,Attachment.row,Chan.close,exited]
  case calm => simpa [Attachment.released,Chan.close,chunks,exited] using served.calm
  case status => simp [Attachment.released,Attachment.row,Chan.close,buffer,statuses]

theorem replayLater (bounded : Bounded stream a.row) (chunk : Bytes) :
    (stream ++ [chunk]).take a.attached = stream.take a.attached :=
  List.take_append_of_le_length bounded.attached

theorem servedOffered (served : Served capacity stream a.row a) (bounded : Bounded stream a.row) (live : a.ending = none)
    (chunk : Bytes) : Served capacity (stream ++ [chunk]) (a.offered chunk).row (a.offered chunk) := by
  obtain ⟨chunks,exited,buffer,statuses⟩ := liveChannels served live
  have before : a.row.span stream = stream.drop a.attached := spanLive live
  have after : (a.offered chunk).row.span (stream ++ [chunk]) = stream.drop a.attached ++ [chunk] := by
    rw [spanLive (by exact live)]
    exact List.drop_append_of_le_length bounded.attached
  have replay := (replayLater bounded chunk).symm ▸ served.replay
  have delivered := before ▸ served.delivered
  rcases Nat.lt_or_ge a.chunks.buffer.length consumerQueue with room | full
  · constructor
    case replay => exact replay
    case delivered =>
      rw [after]
      simpa [Attachment.offered,Chan.offer,chunks,room] using delivered.append (List.Sublist.refl [chunk])
    case complete =>
      intro never
      rw [after,← before,← served.complete (by simpa [Attachment.offered,room] using never)]
      simp [Attachment.offered,Chan.offer,chunks,room]
    case chunksClosed => simp [Attachment.offered,Chan.offer,chunks,room,Attachment.row,live]
    case exitedClosed => exact served.exitedClosed
    case calm => simpa [Attachment.offered,Chan.offer,chunks,room] using served.calm
    case status => exact served.status
  · constructor
    case replay => exact replay
    case delivered =>
      rw [after]
      refine List.Sublist.trans ?_ (List.sublist_append_left _ _)
      simpa [Attachment.offered,Chan.offer,chunks,Nat.not_lt.mpr full] using delivered
    case complete => simp [Attachment.offered,full]
    case chunksClosed => simp [Attachment.offered,Chan.offer,chunks,Nat.not_lt.mpr full,Attachment.row,live]
    case exitedClosed => exact served.exitedClosed
    case calm => simpa [Attachment.offered,Chan.offer,chunks,Nat.not_lt.mpr full] using served.calm
    case status => exact served.status

theorem servedLater (served : Served capacity stream a.row a) (bounded : Bounded stream a.row) {e : Ending}
    (ended : a.ending = some e) (chunk : Bytes) : Served capacity (stream ++ [chunk]) a.row a := by
  have same : a.row.span (stream ++ [chunk]) = a.row.span stream := by
    have inside := bounded.ending e ended
    have early : a.attached ≤ stream.length := bounded.attached
    simp only [Row.span,Row.until,Attachment.row,ended,Option.map_some,Option.getD_some]
    rw [List.drop_append_of_le_length early]
    exact List.take_append_of_le_length (by rw [List.length_drop]; exact Nat.sub_le_sub_right inside.2 _)
  obtain ⟨replay,delivered,complete,chunks,exited,calm,status⟩ := served
  refine ⟨?_,same ▸ delivered,same ▸ complete,chunks,exited,calm,status⟩
  exact (replayLater bounded chunk).symm ▸ replay

theorem servedRead (served : Served capacity stream a.row a) {b : Attachment} (taken : a.read = some b) :
    Served capacity stream b.row b ∧ b.row = a.row := by
  unfold Attachment.read at taken
  split at taken <;> cases taken
  next chunk rest queue =>
  obtain ⟨replay,delivered,complete,chunks,exited,calm,status⟩ := served
  rw [queue] at delivered complete
  exact ⟨⟨replay,by simpa [Attachment.row] using delivered,by simpa [Attachment.row] using complete,chunks,exited,calm,status⟩,rfl⟩

theorem servedReadExit (served : Served capacity stream a.row a) {b : Attachment} (taken : a.readExit = some b) :
    Served capacity stream b.row b ∧ b.row = a.row := by
  unfold Attachment.readExit at taken
  split at taken <;> cases taken
  next code rest queue =>
  obtain ⟨replay,delivered,complete,chunks,exited,calm,status⟩ := served
  rw [queue] at status
  exact ⟨⟨replay,delivered,complete,chunks,exited,calm,by simpa [Attachment.row] using status⟩,rfl⟩

end Served

theorem viewSnoc (es : List Event) (e : Event) : view (es ++ [e]) = (view es).after e := by
  rw [view,List.foldl_append]
  rfl

theorem eachSome {ids : List Nat} (distinct : ids.Nodup) {f : Attachment → Attachment} {b : Attachment}
    (here : (s.each ids f)[i]? = some b) :
    ∃ a, s.attachments[i]? = some a ∧ (i ∈ ids ∧ b = f a ∨ i ∉ ids ∧ b = a) := by
  rw [State.each,eachGet distinct] at here
  split at here
  · next inside =>
    obtain ⟨a,there,rfl⟩ := Option.map_eq_some_iff.mp here
    exact ⟨a,there,Or.inl ⟨inside,rfl⟩⟩
  · next outside => exact ⟨b,here,Or.inr ⟨outside,rfl⟩⟩

theorem eachRow {ids : List Nat} (distinct : ids.Nodup) {f : Attachment → Attachment} {g : Row → Row}
    (inside : ∀ a, s.attachments[i]? = some a → i ∈ ids → (f a).row = g a.row)
    (outside : ∀ a, s.attachments[i]? = some a → i ∉ ids → a.row = g a.row) :
    ((s.each ids f).map Attachment.row)[i]? = ((s.attachments.map Attachment.row)[i]?).map g := by
  rw [List.getElem?_map,State.each,eachGet distinct,List.getElem?_map]
  cases here : s.attachments[i]? with
  | none => simp
  | some a =>
    by_cases member : i ∈ ids
    · simp [member,inside a here member]
    · simpa [member] using outside a here member

theorem rowAt (sound : Sound capacity es s) (here : s.attachments[i]? = some a) : (view es).rows[i]? = some a.row := by
  rw [← sound.rows,List.getElem?_map,here]
  rfl

theorem listedLive (sound : Sound capacity es s) (here : s.attachments[i]? = some a) :
    i ∈ s.consumers ↔ a.ending = none := by
  rw [sound.listed,rowAt sound here]
  simp [Attachment.row]

theorem unlistedEnded (sound : Sound capacity es s) (here : s.attachments[i]? = some a) (outside : i ∉ s.consumers) :
    ∃ e, a.ending = some e :=
  Option.ne_none_iff_exists'.mp (fun live => outside ((listedLive sound here).mpr live))

theorem boundedLater {stream : List Bytes} {row : Row} (bounded : Bounded stream row) (chunk : Bytes) :
    Bounded (stream ++ [chunk]) row where
  attached := by rw [List.length_append]; exact Nat.le_add_right_of_le bounded.attached
  ending e ended := ⟨(bounded.ending e ended).1,by
    rw [List.length_append]; exact Nat.le_add_right_of_le (bounded.ending e ended).2⟩

theorem endedLive (row : Row) (live : row.ending = none) (e : Ending) : row.ended e = ⟨row.attached,some e⟩ := by
  simp [Row.ended,live]

theorem endedEnded (row : Row) {before : Ending} (ended : row.ending = some before) (e : Ending) : row.ended e = row := by
  cases row
  cases ended
  rfl

theorem boundedEnding (bounded : Bounded s.stream a.row) (status : Option Int) :
    Bounded s.stream ⟨a.attached,some ⟨s.stream.length,status⟩⟩ where
  attached := bounded.attached
  ending e ended := by
    cases ended
    exact ⟨bounded.attached,le_rfl⟩

def State.fresh (s : State) : Attachment := ⟨s.scrollback.snapshot,.empty,.empty,[],[],s.stream.length,none,false⟩

theorem freshServed (sound : Sound capacity es s) : Served capacity s.stream s.fresh.row s.fresh := by
  have span : s.fresh.row.span s.stream = [] := by
    rw [spanLive rfl]
    exact List.drop_of_length_le le_rfl
  constructor
  case replay =>
    change s.scrollback.snapshot = last capacity (s.stream.take s.stream.length).flatten
    rw [snapshotContents sound.ring,sound.contents,List.take_length]
  case delivered => rw [span]; exact List.Sublist.refl []
  case complete => exact fun _ => span.symm
  all_goals simp [State.fresh,Chan.empty,Attachment.row]

theorem soundAppend (sound : Sound capacity es s) {b : Attachment} {consumers : List Nat}
    (new : b.row = ⟨s.stream.length,s.exit.map (fun status => ⟨s.stream.length,some status⟩)⟩)
    (served : Served capacity s.stream b.row b) (bounded : Bounded s.stream b.row)
    (listed : ∀ i, i ∈ consumers ↔ i ∈ s.consumers ∨ i = s.attachments.length ∧ s.exit = none) (distinct : consumers.Nodup) :
    Sound capacity (es ++ [.attach]) { s with attachments := s.attachments ++ [b], consumers := consumers } := by
  have rows : (view (es ++ [.attach])).rows = (view es).rows ++ [b.row] := by
    rw [viewSnoc,new,sound.stream,sound.exit]
    rfl
  have length : (view es).rows.length = s.attachments.length := by rw [← sound.rows,List.length_map]
  have last : ∀ {i : Nat} {c : Attachment}, (s.attachments ++ [b])[i]? = some c → s.attachments[i]? = some c ∨ c = b := by
    intro i c here
    rw [List.getElem?_append] at here
    split at here
    · exact Or.inl here
    · exact Or.inr (List.mem_singleton.mp (List.mem_of_getElem? here))
  constructor
  case ring => exact sound.ring
  case held => exact sound.held
  case contents => exact sound.contents
  case stream => rw [viewSnoc]; exact sound.stream
  case exit => rw [viewSnoc]; exact sound.exit
  case rows => rw [rows,List.map_append,sound.rows]; rfl
  case listed =>
    intro i
    rw [listed,sound.listed,rows]
    rcases Nat.lt_trichotomy i (view es).rows.length with old | rfl | beyond
    · rw [List.getElem?_append_left old]
      simp [Nat.ne_of_lt (length ▸ old)]
    · simp [length,new]
    · have none : ((view es).rows ++ [b.row])[i]? = none := by
        refine List.getElem?_eq_none ?_
        rw [List.length_append]
        exact beyond
      simp [none,List.getElem?_eq_none beyond.le,Nat.ne_of_gt (length ▸ beyond)]
  case distinct => exact distinct
  case bounded =>
    intro i c here
    rcases last here with old | rfl
    · exact sound.bounded i c old
    · exact bounded
  case served =>
    intro i c here
    rcases last here with old | rfl
    · exact sound.served i c old
    · exact served

theorem soundAttach (sound : Sound capacity es s) : Sound capacity (es ++ [.attach]) s.attach := by
  have served := freshServed sound
  have bounded : Bounded s.stream s.fresh.row := ⟨le_rfl,by simp [State.fresh,Attachment.row]⟩
  have below : s.attachments.length ∉ s.consumers := by
    rw [sound.listed,← List.length_map,sound.rows]
    simp
  cases exit : s.exit with
  | some status =>
    have ends : s.attach = { s with attachments := s.attachments ++ [s.fresh.finished s.stream.length status], consumers := s.consumers } := by
      simp [State.attach,State.fresh,exit]
    rw [ends]
    exact soundAppend sound (by rw [exit]; rfl) (servedFinished served rfl status) (boundedEnding bounded (some status))
      (by simp [exit]) sound.distinct
  | none =>
    have ends : s.attach = { s with attachments := s.attachments ++ [s.fresh], consumers := s.consumers ++ [s.attachments.length] } := by
      simp [State.attach,State.fresh,exit]
    rw [ends]
    refine soundAppend sound (by rw [exit]; rfl) served bounded (by simp [exit])
      (List.nodup_append.mpr ⟨sound.distinct,List.nodup_singleton _,?_⟩)
    intro i member j last same
    exact below (List.mem_singleton.mp last ▸ same ▸ member)

theorem soundBroadcast (sound : Sound capacity es s) (chunk : Bytes) :
    Sound capacity (es ++ [.broadcast chunk]) (s.broadcast chunk) := by
  have ring := writeSound sound.ring chunk
  constructor
  case ring => exact ring.1
  case held => exact ring.2.trans sound.held
  case contents =>
    change (s.scrollback.write chunk).contents = _
    rw [writeContents sound.ring,sound.held,sound.contents,lastLast]
    simp [State.broadcast]
  case stream => simp [State.broadcast,viewSnoc,View.after,sound.stream]
  case exit => simp [State.broadcast,viewSnoc,View.after,sound.exit]
  case rows =>
    refine List.ext_getElem? (fun i => ?_)
    rw [viewSnoc]
    refine (eachRow (f := fun a => a.offered chunk) (g := id) sound.distinct (fun _ _ _ => rfl) (fun _ _ _ => rfl)).trans ?_
    rw [sound.rows,Option.map_id]
    rfl
  case listed =>
    rw [viewSnoc]
    exact sound.listed
  case distinct => exact sound.distinct
  case bounded =>
    intro i b here
    obtain ⟨a,there,⟨_,rfl⟩ | ⟨_,rfl⟩⟩ := eachSome sound.distinct here
    · exact boundedLater (sound.bounded i a there) chunk
    · exact boundedLater (sound.bounded i b there) chunk
  case served =>
    intro i b here
    obtain ⟨a,there,⟨inside,rfl⟩ | ⟨outside,rfl⟩⟩ := eachSome sound.distinct here
    · exact servedOffered (sound.served i a there) (sound.bounded i a there) ((listedLive sound there).mp inside) chunk
    · obtain ⟨e,ended⟩ := unlistedEnded sound there outside
      exact servedLater (sound.served i b there) (sound.bounded i b there) ended chunk

theorem soundQuiet (sound : Sound capacity es s) (quiet : (view es).after e = view es) : Sound capacity (es ++ [e]) s := by
  have same : view (es ++ [e]) = view es := (viewSnoc es e).trans quiet
  obtain ⟨ring,held,contents,stream,exit,rows,listed,distinct,bounded,served⟩ := sound
  exact ⟨ring,held,contents,same ▸ stream,same ▸ exit,same ▸ rows,same ▸ listed,distinct,bounded,served⟩

theorem quietDetach (sound : Sound capacity es s) {consumer : Nat} (absent : consumer ∉ s.consumers) :
    (view es).after (.detach consumer) = view es := by
  have same : (view es).rows.modify consumer (fun row => row.ended ⟨(view es).stream.length,none⟩) = (view es).rows := by
    refine List.ext_getElem? (fun i => ?_)
    rw [List.getElem?_modify]
    cases held : (view es).rows[i]? with
    | none => rfl
    | some row =>
      by_cases here : consumer = i
      · have ended : row.ending ≠ none := fun live => absent ((sound.listed consumer).mpr ⟨row,here ▸ held,live⟩)
        obtain ⟨e,ended⟩ := Option.ne_none_iff_exists'.mp ended
        simp [here,endedEnded row ended]
      · simp [here]
  rw [View.after,same]

theorem soundDetach (sound : Sound capacity es s) (consumer : Nat) :
    Sound capacity (es ++ [.detach consumer]) (s.detach consumer) := by
  unfold State.detach
  split
  · next member =>
    have only : ∀ {i}, i ∈ [consumer] ↔ i = consumer := List.mem_singleton
    constructor
    case ring => exact sound.ring
    case held => exact sound.held
    case contents => exact sound.contents
    case stream => simp [viewSnoc,View.after,sound.stream]
    case exit => simp [viewSnoc,View.after,sound.exit]
    case rows =>
      refine List.ext_getElem? (fun i => ?_)
      rw [viewSnoc]
      refine (eachRow (f := fun a => a.released s.stream.length)
        (g := fun row => if i = consumer then row.ended ⟨s.stream.length,none⟩ else row) (List.nodup_singleton consumer)
        (fun a here inside => ?_) (fun a here outside => ?_)).trans ?_
      · have same := only.mp inside
        rw [if_pos same,endedLive a.row ((listedLive sound here).mp (same ▸ member))]
        rfl
      · rw [if_neg (fun same => outside (only.mpr same))]
      · rw [sound.rows,View.after,List.getElem?_modify,sound.stream]
        congr 1
        funext row
        by_cases same : i = consumer
        · simp [same]
        · simp [same,Ne.symm same]
    case listed =>
      intro i
      rw [viewSnoc,sound.distinct.mem_erase_iff,sound.listed]
      simp only [View.after,List.getElem?_modify]
      by_cases same : i = consumer
      · simp [same,Row.ended]
      · simp [same,Ne.symm same]
    case distinct => exact sound.distinct.erase consumer
    case bounded =>
      intro i b here
      obtain ⟨a,there,⟨_,rfl⟩ | ⟨_,rfl⟩⟩ := eachSome (List.nodup_singleton consumer) here
      · exact boundedEnding (sound.bounded i a there) none
      · exact sound.bounded i b there
    case served =>
      intro i b here
      obtain ⟨a,there,⟨inside,rfl⟩ | ⟨_,rfl⟩⟩ := eachSome (List.nodup_singleton consumer) here
      · exact servedReleased (sound.served i a there) ((listedLive sound there).mp (only.mp inside ▸ member))
      · exact sound.served i b there
  · next absent => exact soundQuiet sound (quietDetach sound absent)

theorem soundFinish (sound : Sound capacity es s) (status : Int) :
    Sound capacity (es ++ [.finish status]) (s.finish status) := by
  constructor
  case ring => exact sound.ring
  case held => exact sound.held
  case contents => exact sound.contents
  case stream => simp [State.finish,viewSnoc,View.after,sound.stream]
  case exit => simp [State.finish,viewSnoc,View.after]
  case rows =>
    refine List.ext_getElem? (fun i => ?_)
    rw [viewSnoc]
    refine (eachRow (g := fun row => row.ended ⟨s.stream.length,some status⟩) sound.distinct
      (fun a here inside => ?_) (fun a here outside => ?_)).trans ?_
    · exact (endedLive a.row ((listedLive sound here).mp inside) _).symm
    · obtain ⟨e,ended⟩ := unlistedEnded sound here outside
      exact (endedEnded a.row ended _).symm
    · rw [sound.rows,View.after,List.getElem?_map,sound.stream]
  case listed =>
    intro i
    rw [viewSnoc]
    simp [State.finish,View.after,Row.ended]
  case distinct => exact List.nodup_nil
  case bounded =>
    intro i b here
    obtain ⟨a,there,⟨_,rfl⟩ | ⟨_,rfl⟩⟩ := eachSome sound.distinct here
    · exact boundedEnding (sound.bounded i a there) (some status)
    · exact sound.bounded i b there
  case served =>
    intro i b here
    obtain ⟨a,there,⟨inside,rfl⟩ | ⟨_,rfl⟩⟩ := eachSome sound.distinct here
    · exact servedFinished (sound.served i a there) ((listedLive sound there).mp inside) status
    · exact sound.served i b there

theorem soundReplace (sound : Sound capacity es s) {b : Attachment} (here : s.attachments[i]? = some a)
    (row : b.row = a.row) (served : Served capacity s.stream b.row b) (quiet : (view es).after e = view es) :
    Sound capacity (es ++ [e]) (s.replace i b) := by
  have inside := (List.getElem?_eq_some_iff.mp here).1
  have each : ∀ j c, (s.attachments.set i b)[j]? = some c → s.attachments[j]? = some c ∨ j = i ∧ c = b := by
    intro j c there
    rcases eq_or_ne i j with rfl | other
    · rw [List.getElem?_set_self inside] at there
      exact Or.inr ⟨rfl,(Option.some.inj there).symm⟩
    · rw [List.getElem?_set_ne other] at there
      exact Or.inl there
  obtain ⟨ring,held,contents,stream,exit,rows,listed,distinct,bounded,kept⟩ := soundQuiet sound quiet
  refine ⟨ring,held,contents,stream,exit,?rows,listed,distinct,fun j c there => ?bounded,fun j c there => ?served⟩
  case rows =>
    rw [← rows]
    refine List.ext_getElem? (fun j => ?_)
    rw [List.getElem?_map,List.getElem?_map,State.replace]
    rcases eq_or_ne i j with rfl | other
    · rw [List.getElem?_set_self inside,here,Option.map_some,Option.map_some,row]
    · rw [List.getElem?_set_ne other]
  case bounded =>
    rcases each j c there with old | ⟨rfl,rfl⟩
    · exact bounded j c old
    · exact row ▸ bounded j a here
  case served =>
    rcases each j c there with old | ⟨rfl,rfl⟩
    · exact kept j c old
    · exact served

theorem soundStep (sound : Sound capacity es s) (taken : step s e = some t) : Sound capacity (es ++ [e]) t := by
  cases e with
  | attach =>
    cases taken
    exact soundAttach sound
  | broadcast chunk =>
    cases taken
    exact soundBroadcast sound chunk
  | detach consumer =>
    simp only [step] at taken
    split at taken <;> cases taken
    exact soundDetach sound consumer
  | finish status =>
    cases taken
    exact soundFinish sound status
  | read consumer =>
    obtain ⟨b,read,rfl⟩ := Option.map_eq_some_iff.mp taken
    obtain ⟨a,here,read⟩ := Option.bind_eq_some_iff.mp read
    obtain ⟨served,row⟩ := servedRead (sound.served _ _ here) read
    exact soundReplace sound here row served rfl
  | readExit consumer =>
    obtain ⟨b,read,rfl⟩ := Option.map_eq_some_iff.mp taken
    obtain ⟨a,here,read⟩ := Option.bind_eq_some_iff.mp read
    obtain ⟨served,row⟩ := servedReadExit (sound.served _ _ here) read
    exact soundReplace sound here row served rfl

theorem detachOthers (sound : Sound capacity es s) {consumer : Nat} (taken : step s (.detach consumer) = some t)
    (other : i ≠ consumer) : t.attachments[i]? = s.attachments[i]? ∧ (i ∈ t.consumers ↔ i ∈ s.consumers) := by
  simp only [step] at taken
  split at taken <;> cases taken
  unfold State.detach
  split
  · refine ⟨?_,sound.distinct.mem_erase_iff.trans ⟨fun both => both.2,fun member => ⟨other,member⟩⟩⟩
    rw [State.each,eachGet (List.nodup_singleton consumer),if_neg (fun member => other (List.mem_singleton.mp member))]
  · exact ⟨rfl,Iff.rfl⟩

structure Lawful (capacity : Nat) (es : List Event) (s : State) : Prop where
  rows : s.attachments.map Attachment.row = (view es).rows
  served : ∀ (i : Nat) (a : Attachment), s.attachments[i]? = some a → Served capacity (view es).stream a.row a
  detach : ∀ consumer t i, step s (.detach consumer) = some t → i ≠ consumer →
    t.attachments[i]? = s.attachments[i]? ∧ (i ∈ t.consumers ↔ i ∈ s.consumers)

/-- In every order of the calls, each attachment is served by what was broadcast
before it attached and while it was attached, and by how it ended. -/
theorem everyAttachmentServed (positive : 0 < capacity) (run : Run step anyStep (start capacity) es s) :
    Lawful capacity es s := by
  have sound : Sound capacity es s := run.traced (soundStart positive) (fun _ _ _ _ sound _ => soundStep sound)
  exact ⟨sound.rows,fun i a here => sound.stream ▸ sound.served i a here,fun _ _ _ taken => detachOthers sound taken⟩

def twoConsumers : List Event :=
  [.broadcast [1,2,3],.attach,.attach,.broadcast [4,5],.detach 0,.detach 0,.broadcast [6],.read 1,.finish 7,.attach,.readExit 1]

theorem twoConsumersServed : ∃ s, exec step (start 4) twoConsumers = some s ∧ Lawful 4 twoConsumers s :=
  ⟨_,rfl,everyAttachmentServed (by decide) (runOfExec rfl)⟩

theorem detachedMisses : ∃ s a, Run step anyStep (start 4) [.attach,.detach 0,.broadcast [1]] s ∧
    s.attachments[0]? = some a ∧ a.overflowed = false ∧ a.got ++ a.chunks.buffer ≠ s.stream.drop a.attached :=
  ⟨_,_,runOfExec rfl,rfl,rfl,by decide⟩

end M6t.PtySession
