import M6t.Terminal

/-! The exit frame and the end of the connection: who may close the socket before
it is written. -/
namespace M6t.TerminalEnd
open M6t.Runs M6t.Terminal
open M6t.Outbound hiding State Event step size Moves stepMoves

/-- No write fails, the client does not go away and the stream server is not shut
down; and until the exit frame is written the read loop finds the session in the
manager and its pty taking input. -/
def answers (s : State) (e : Event) : Prop :=
  e ≠ .conn (.deliver false) ∧ e ≠ .shutdown ∧
    (refuses s e = true → exitWritten s ∨ e = .readFails ∧ s.conn.wsCloses ≠ 0)

instance (s : State) (e : Event) : Decidable (answers s e) := inferInstanceAs (Decidable (_ ∧ _ ∧ _))

/-- What a closed socket has carried: the exit frame last, and before it whatever
was forwarded and not discarded. -/
structure ExitFirst (s : State) (code : Int) (earlier : List Item) (last : Item) : Prop where
  exited : Exited s code earlier last
  final : (written s.conn.out).getLast? = some last
  before : ∀ i ∈ earlier, i ∈ written s.conn.out ∨ i ∈ s.conn.discarded

variable {s t : State} {e : Event} {es : List Event} {replay : Bytes} {exit : Option Int}

def told (c : Outbound.State) : Prop := (written c.out).any (fun i => i.frame.kind = .text) = true

def draining : Writer → Bool
  | .taken none | .marking none _ | .writing none | .leaving | .gone => true
  | _ => false

def shutting (c : Outbound.State) : Prop := c.closeOnce ≠ .fresh ∨ draining c.writer = true

section Conn
variable {c d : Outbound.State} {ce : Outbound.Event}

theorem toldKept (wrote : told c) (moved : Outbound.step c ce = some d) : told d := by
  unfold told at wrote ⊢
  cases Outbound.stepMoves moved with
  | sends | retries => rwa [offerOut]
  | marks | writes | ends =>
    simp only [Outbound.State.emit,writtenAppend,List.any_append,wrote,Bool.true_or]
  | _ => exact wrote

theorem shuttingStep (shut : Shut c) (ok : ce ≠ .deliver false) (moved : Outbound.step c ce = some d)
    (late : shutting d) : shutting c ∨ ce = .close ∨ c.closed = true ∧ c.frames = [] ∧ c.writer = .select := by
  cases Outbound.stepMoves moved with
  | breaks => exact absurd rfl ok
  | drains select queue closed => exact Or.inr (Or.inr ⟨closed,queue,select⟩)
  | stops select done => exact Or.inl (Or.inl (fun fresh => by simp [(shut.fresh fresh).1] at done))
  | begins fresh caller =>
    rcases caller with close | ⟨_,leaving⟩
    · exact Or.inr (Or.inl close)
    · exact Or.inl (Or.inr (by simp [leaving,draining]))
  | closes running => exact Or.inl (Or.inl (by simp [running]))
  | @swaps hand here =>
    refine Or.inl (late.imp_right (fun drains => ?_))
    cases hand with
    | none => simp [here,draining]
    | some _ =>
      split at drains <;> cases drains
  | @marks hand n here =>
    refine Or.inl (late.imp_right (fun drains => ?_))
    rw [here]
    cases hand <;> exact drains
  | takes select | writes here | ends here | leaves here => simp_all [shutting,Outbound.State.emit,draining]
  | sends | retries =>
    rw [shutting,offerCloseOnce,offerWriter] at late
    exact Or.inl late
  | _ => exact Or.inl late

end Conn

structure Carried (s : State) : Prop where
  conn : ∃ ces, Outbound.Sound ces s.conn
  live : s.conn.failed = false
  forwarded : Forwarded s
  shutting : shutting s.conn → exitWritten s
  reader : s.reader.out = true → exitWritten s

theorem carriedStart : Carried (attach replay exit) :=
  ⟨⟨[],Outbound.soundStart⟩,rfl,forwardedStart,by simp [shutting,attach,newConn,draining],by simp [attach,Reader.out]⟩

theorem drainedTold (carried : Carried s) (closed : s.conn.closed = true) (queue : s.conn.frames = [])
    (select : s.conn.writer = .select) : exitWritten s := by
  obtain ⟨ces,sound⟩ := carried.conn
  obtain ⟨code,here⟩ := carried.forwarded.closed closed
  obtain ⟨passed,_,sent,_⟩ := carried.forwarded.sent
  rw [here,closing] at sent
  obtain ⟨earlier,tail,split,_,exits⟩ := List.map_eq_append_iff.mp sent
  obtain ⟨last,rest,rfl,exits,none⟩ := List.map_eq_cons_iff.mp exits
  rw [List.map_eq_nil_iff.mp none] at split
  have member : last ∈ s.conn.sent := split ▸ List.mem_append_right _ (List.mem_singleton_self last)
  have newest := lastNumber split sound.lined.numbered
  have idle := sound.shut.finished.mp closed
  rcases sound.lined.whole carried.live last member with inLine | lost
  · rw [Outbound.State.line,queue,select,idle] at inLine
    refine List.any_eq_true.mpr ⟨last,by simpa [Writer.hand,Producer.sending] using inLine,?_⟩
    simp [exits,exitFrame]
  · exact absurd newest (Nat.ne_of_lt (sound.lined.early last lost).2)

theorem exitKept {c : Outbound.State} {ce : Outbound.Event} (moved : Outbound.step s.conn ce = some c)
    (wrote : exitWritten s) : exitWritten { s with conn := c } :=
  toldKept (c := s.conn) wrote moved

theorem carriedConn (carried : Carried s) {c : Outbound.State} {ce : Outbound.Event}
    (moved : Outbound.step s.conn ce = some c) (ok : ce ≠ .deliver false) (closer : ce = .close → exitWritten s) :
    (∃ ces, Outbound.Sound ces c) ∧ c.failed = false ∧ (shutting c → told c) ∧ (s.reader.out = true → told c) := by
  obtain ⟨ces,sound⟩ := carried.conn
  refine ⟨⟨ces ++ [ce],Outbound.soundStep sound moved⟩,?_,fun late => ?_,fun out => ?_⟩
  · rw [Outbound.failedStep moved ok]
    exact carried.live
  · have wrote : exitWritten s := by
      rcases shuttingStep sound.shut ok moved late with before | close | ⟨closed,queue,select⟩
      · exact carried.shutting before
      · exact closer close
      · exact drainedTold carried closed queue select
    exact exitKept moved wrote
  · exact exitKept moved (carried.reader out)

theorem carriedStep (carried : Carried s) (ok : answers s e) (taken : step s e = some t) : Carried t := by
  have forwarded := forwardedStep carried.forwarded taken
  obtain ⟨delivers,up,refusal⟩ := ok
  cases stepMoves taken with
  | @inner ce c ours conn =>
    obtain ⟨sound,live,shuts,reader⟩ := carriedConn carried conn (fun here => delivers (by rw [here])) (by rintro rfl; cases ours)
    exact ⟨sound,live,forwarded,shuts,reader⟩
  | replays here some conn =>
    obtain ⟨sound,live,shuts,reader⟩ := carriedConn carried conn (by simp) (by simp)
    exact ⟨sound,live,forwarded,shuts,reader⟩
  | relays here conn | exits here conn | ends here conn =>
    obtain ⟨sound,live,shuts,reader⟩ := carriedConn carried conn (by simp) (by simp)
    exact ⟨sound,live,forwarded,shuts,reader⟩
  | closes here conn =>
    have wrote := carried.reader (by simp [here,Reader.out])
    obtain ⟨sound,live,shuts,reader⟩ := carriedConn carried conn (by simp) (fun _ => wrote)
    exact ⟨sound,live,forwarded,shuts,reader⟩
  | shuts => exact absurd rfl up
  | broadcasts =>
    refine ⟨?_,?_,forwarded,?_,?_⟩
    · rw [broadcastConn]
      exact carried.conn
    · rw [broadcastConn]
      exact carried.live
    · rw [exitWritten,broadcastConn]
      exact carried.shutting
    · rw [exitWritten,broadcastConn,broadcastReader]
      exact carried.reader
  | reads mine before after =>
    exact ⟨carried.conn,carried.live,forwarded,carried.shutting,by simp [after]⟩
  | refused mine before why =>
    refine ⟨carried.conn,carried.live,forwarded,carried.shutting,fun _ => ?_⟩
    rcases refusal why with wrote | ⟨_,closed⟩
    · exact wrote
    · obtain ⟨ces,sound⟩ := carried.conn
      exact carried.shutting (Or.inl (fun fresh => closed (sound.shut.fresh fresh).2.1))
  | closed here spent => exact ⟨carried.conn,carried.live,forwarded,carried.shutting,fun _ => carried.reader (by simp [here,Reader.out])⟩
  | detaches here => exact ⟨carried.conn,carried.live,forwarded,carried.shutting,fun _ => carried.reader (by simp [here,Reader.out])⟩
  | _ => exact ⟨carried.conn,carried.live,forwarded,carried.shutting,carried.reader⟩

theorem exitFirst (carried : Carried s) (wrote : exitWritten s) : ∃ code earlier last, ExitFirst s code earlier last := by
  obtain ⟨ces,sound⟩ := carried.conn
  obtain ⟨code,earlier,last,exited⟩ := exitedOf sound carried.forwarded wrote
  have placed := (Outbound.lastWritten sound carried.live exited.written exited.newest).2
  refine ⟨code,earlier,last,exited,?_,fun i member => ?_⟩
  · obtain ⟨w,split,_⟩ := writtenExit sound exited
    simp [split]
  · exact placed i (exited.sent ▸ List.mem_append_left _ member)

/-- Once the server has closed the socket, the exit frame has gone out, last, after
all that was forwarded and not discarded. -/
theorem closedAfterExit (run : Run step answers (attach replay exit) es s) (closed : s.conn.wsCloses ≠ 0) :
    ∃ code earlier last, ExitFirst s code earlier last := by
  have carried : Carried s := run.invariant (I := Carried) carriedStart (fun _ _ _ => carriedStep)
  refine exitFirst carried (carried.shutting (Or.inl (fun fresh => ?_)))
  obtain ⟨ces,sound⟩ := carried.conn
  exact closed (sound.shut.fresh fresh).2.1

def closeFrame : Inbound := .text (some ⟨"close".toList,0,0⟩)

def killed : List Event := [.receive closeFrame,.kill,.closePty,.finish (-1),.reap]

def drained : List Event :=
  [.forward,.forward,.forward,.forward,.conn .take,.conn .swap,.conn (.deliver true),.forward,
    .conn .take,.conn .swap,.conn (.deliver true),.conn .leave,.conn .closeSocket]

theorem killedThenClosed : ∃ s, exec (guarded step answers) (attach [] none) (killed ++ drained) = some s ∧
    ∃ code earlier last, ExitFirst s code earlier last := by
  have ends : (exec (guarded step answers) (attach [] none) (killed ++ drained)).map (fun s => s.conn.wsCloses) = some 1 := by
    decide +kernel
  obtain ⟨s,done,seen⟩ := Option.map_eq_some_iff.mp ends
  exact ⟨s,done,closedAfterExit (runOfGuarded done) (by simp [seen])⟩

def killedTwice : List Event := killed ++ [.receive closeFrame,.kill,.close,.conn .closeSocket]

theorem repeatedCloseCutsExit : ∃ s, Run step anyStep (attach [] none) killedTwice s ∧ s.conn.failed = false ∧
    s.conn.wsCloses = 1 ∧ ¬ exitWritten s := by
  have ends : (exec step (attach [] none) killedTwice).map (fun s =>
      (s.conn.failed,s.conn.wsCloses,decide (exitWritten s))) = some (false,1,false) := by decide +kernel
  obtain ⟨s,done,seen⟩ := Option.map_eq_some_iff.mp ends
  simp only [Prod.mk.injEq,decide_eq_false_iff_not] at seen
  exact ⟨s,runOfExec done,seen⟩

end M6t.TerminalEnd
