import M6t.Terminal

/-! What a client can account for: bytes received, and bytes reported lost. -/
namespace M6t.TerminalStream
open M6t.Runs M6t.Terminal
open M6t.Outbound hiding State Event step size Moves stepMoves

def Event.output : Event → Option Bytes
  | .broadcast chunk => some chunk
  | _ => none

def produced (es : List Event) : List Bytes := es.filterMap Event.output

def received (out : List Message) : Nat := Outbound.size ((written out).filter (fun i => i.frame.kind = .binary))

def delivers (_ : State) (e : Event) : Prop := e ≠ .conn (.deliver false)

instance (s : State) (e : Event) : Decidable (delivers s e) := inferInstanceAs (Decidable (_ ≠ _))

def fits (s : State) : Event → Prop
  | .broadcast chunk => chunk = [] ∨ s.consumer ≠ .attached ∨ s.chunks.length < consumerQueue
  | e => e ≠ .conn (.deliver false)

instance (s : State) (e : Event) : Decidable (fits s e) := by
  unfold fits
  split <;> infer_instance

def Balances (replay : Bytes) (es : List Event) (s : State) : Prop :=
  received s.conn.out + Outbound.reported s.conn.out = replay.length + total (produced es)

variable {s t : State} {e : Event} {es : List Event} {replay : Bytes} {exit : Option Int}
  {allowed : State → Event → Prop}

theorem producedStep (taken : step s e = some t) : t.produced = s.produced ++ (Event.output e).toList := by
  cases stepMoves taken with
  | broadcasts =>
    exact broadcastCases (P := fun t => t.produced = _) _ (fun _ => rfl) (fun _ _ => rfl) (fun _ _ => rfl)
  | finishes | detaches => simp [State.finish,State.detach,Event.output]
  | reads mine | refused mine => cases e <;> simp_all [byReader,Event.output]
  | _ => simp [Event.output]

theorem producedRun (run : Run step allowed (attach replay exit) es s) : s.produced = produced es := by
  refine run.traced (I := fun es s => s.produced = produced es) rfl ?_
  intro es s e t before _ taken
  rw [producedStep taken,before,produced,produced,List.filterMap_append]
  cases h : Event.output e <;> simp [h]

theorem missedStep (taken : step s e = some t) (ok : e ≠ .conn (.deliver false)) : fits s e ∧ t.missed = s.missed ∨
    ∃ chunk, e = .broadcast chunk ∧ s.consumer = .attached ∧ consumerQueue ≤ s.chunks.length ∧
      t.missed = s.missed ++ [chunk] := by
  cases stepMoves taken with
  | @broadcasts chunk live =>
    refine broadcastCases (P := fun t => _ ∧ t.missed = s.missed ∨ ∃ c, Event.broadcast chunk = .broadcast c ∧ _ ∧ _ ∧
      t.missed = s.missed ++ [c]) chunk (fun gone => ?_) (fun _ room => ?_) (fun held full => ?_)
    · exact Or.inl ⟨Or.inr (Or.inl gone),rfl⟩
    · exact Or.inl ⟨Or.inr (Or.inr room),rfl⟩
    · exact Or.inr ⟨chunk,rfl,held,full,rfl⟩
  | reads mine | refused mine =>
    refine Or.inl ⟨?_,rfl⟩
    cases e <;> simp_all [byReader,fits]
  | _ => exact Or.inl ⟨ok,rfl⟩

theorem fitsOfMissed (run : Run step delivers (attach replay exit) es s) (none : total s.missed = 0) :
    Run step fits (attach replay exit) es s := by
  induction run with
  | nil => exact .nil
  | @snoc es s e t before ok taken ih =>
    rcases missedStep taken ok with ⟨room,same⟩ | ⟨chunk,rfl,held,full,more⟩
    · exact .snoc (ih (same ▸ none)) room taken
    · rw [more,totalSnoc] at none
      have empty : chunk = [] := List.eq_nil_of_length_eq_zero (by omega)
      exact .snoc (ih (by omega)) (Or.inl empty) taken

theorem deliversOfFits (ok : fits s e) : delivers s e := by
  cases e with
  | broadcast chunk => exact fun here => by cases here
  | _ => exact ok

theorem missedOfFits (run : Run step fits (attach replay exit) es s) : total s.missed = 0 := by
  refine run.invariant (I := fun s => total s.missed = 0) rfl ?_
  intro s e t none ok taken
  rcases missedStep taken (deliversOfFits ok) with ⟨_,same⟩ | ⟨chunk,rfl,held,full,more⟩
  · rwa [same]
  · rcases ok with rfl | gone | room
    · simp [more,none,totalSnoc]
    · exact absurd held gone
    · exact absurd room (Nat.not_lt.mpr full)

def lengths (l : List Frame) : Nat := (l.map (fun f => f.data.length)).sum

theorem sizeFrames (l : List Item) : Outbound.size l = lengths (l.map Item.frame) := by
  simp [Outbound.size,lengths,Function.comp_def]

theorem lengthsOutput (replay : Bytes) (chunks : List Bytes) :
    lengths (replayed replay ++ chunks.map output) = replay.length + total chunks := by
  have opened : lengths (replayed replay) = replay.length := by
    unfold replayed
    split
    · next empty => simp [lengths,empty]
    · simp [lengths,output]
  have rest : lengths (chunks.map output) = total chunks := by simp [lengths,total,output,Function.comp_def]
  rw [← opened,← rest,lengths,lengths,lengths,List.map_append,List.sum_append]

theorem receivedAll {l : List Item} (binary : ∀ i ∈ l, i.frame.kind = .binary) :
    l.filter (fun i => i.frame.kind = .binary) = l :=
  List.filter_eq_self.mpr (fun i member => by simp [binary i member])

theorem receivedForwarded {ces : List Outbound.Event} (sound : Outbound.Sound ces s.conn) (live : s.conn.failed = false)
    {code : Int} {earlier : List Item} {last : Item} (exited : Exited s code earlier last) :
    received s.conn.out + Outbound.reported s.conn.out = s.replay.length + total s.accepted := by
  have whole := (Outbound.lastWritten sound live exited.written exited.newest).1
  have binary : ∀ i ∈ earlier, i.frame.kind = .binary := fun i member =>
    outputs (exited.before ▸ List.mem_map_of_mem member)
  have text : last.frame.kind = .text := by rw [exited.exit]; rfl
  obtain ⟨w,split,before⟩ := writtenExit sound exited
  have got : received s.conn.out = Outbound.size w := by
    rw [received,split,List.filter_append,receivedAll (fun i member => binary i (before.subset member))]
    simp [text]
  have sent : Outbound.size earlier = s.replay.length + total s.accepted := by
    rw [sizeFrames,exited.before,lengthsOutput]
  rw [split,exited.sent,Outbound.sizeAppend,Outbound.sizeAppend] at whole
  omega

/-- With no write failing and the exit frame written, the accounts balance exactly
if no output was offered to a full session queue. -/
theorem balancedIff (run : Run step delivers (attach replay exit) es s) (wrote : exitWritten s) :
    Balances replay es s ↔ Run step fits (attach replay exit) es s := by
  obtain ⟨ces,conn⟩ := connRun run
  have sound := Outbound.runSound conn
  have forwarded := runForwarded run
  obtain ⟨code,earlier,last,exited⟩ := exitedOf sound forwarded wrote
  have got := receivedForwarded sound (connLive run (fun _ _ ok => ok)) exited
  have whole := forwarded.whole (by simp [exited.consumer])
  rw [producedRun run] at whole
  rw [replayKept run] at got
  have missed : Balances replay es s ↔ total s.missed = 0 := by
    rw [Balances,got,whole]
    omega
  exact missed.trans ⟨fitsOfMissed run,missedOfFits⟩

def delivery : List Event := [.conn .take,.conn .swap,.conn (.deliver true)]

def relay (chunks : Nat) : List Event := (List.replicate chunks (.forward :: .forward :: delivery)).flatten

/-- The child prints and ends; only then does the forwarder run, as fast as the
write pump. -/
def session (chunks relayed : Nat) : List Event :=
  List.replicate chunks (.broadcast [0]) ++ [.closePty,.finish 0,.forward] ++ relay relayed ++
    [.forward,.forward,.forward] ++ delivery ++ (.forward :: delivery) ++ [.conn .leave,.conn .closeSocket]

theorem chunksBalance : ∃ s, exec (guarded step delivers) (attach [] none) (session 64 64) = some s ∧
    received s.conn.out = 64 ∧ Balances [] (session 64 64) s ∧
    (Balances [] (session 64 64) s ↔ Run step fits (attach [] none) (session 64 64) s) := by
  have ends : (exec (guarded step delivers) (attach [] none) (session 64 64)).map (fun s =>
      (decide (exitWritten s),received s.conn.out,Outbound.reported s.conn.out)) = some (true,64,0) := by
    decide +kernel
  have sent : total (produced (session 64 64)) = 64 := by decide +kernel
  obtain ⟨s,done,seen⟩ := Option.map_eq_some_iff.mp ends
  simp only [Prod.mk.injEq,decide_eq_true_eq] at seen
  obtain ⟨wrote,got,told⟩ := seen
  exact ⟨s,done,got,by rw [Balances,got,told,sent]; rfl,balancedIff (runOfGuarded done) wrote⟩

theorem fullQueueUnbalanced : ∃ s, Run step delivers (attach [] none) (session 65 64) s ∧ exitWritten s ∧
    s.conn.wsCloses = 1 ∧ ¬ Balances [] (session 65 64) s := by
  have ends : (exec (guarded step delivers) (attach [] none) (session 65 64)).map (fun s =>
      (decide (exitWritten s),s.conn.wsCloses,received s.conn.out + Outbound.reported s.conn.out)) = some (true,1,64) := by
    decide +kernel
  have sent : total (produced (session 65 64)) = 65 := by decide +kernel
  obtain ⟨s,done,seen⟩ := Option.map_eq_some_iff.mp ends
  simp only [Prod.mk.injEq,decide_eq_true_eq] at seen
  obtain ⟨wrote,closed,got⟩ := seen
  refine ⟨s,runOfGuarded done,wrote,closed,fun balances => ?_⟩
  rw [Balances,got,sent] at balances
  simp at balances

end M6t.TerminalStream
