import M6t.Outbound

/-! Where the resync markers of a connection stand. The counter says how much was
lost, not where: a marker is in its place as long as neither party moves between
the other's access to the queue and its access to the counter. -/
namespace M6t.OutboundHoles
open M6t.Runs M6t.Outbound

/-- The writer has still to swap for a frame in hand that is not newer than the one
the producer is about to count. -/
def countsEarly (s : State) : Bool :=
  match s.producer,s.writer with
  | .holding _ oldest,.taken (some hand) => hand.pos ≤ oldest.pos
  | _,_ => false

def swapsEarly (s : State) : Bool :=
  match s.producer,s.writer with
  | .holding _ oldest,.taken (some hand) => oldest.pos ≤ hand.pos
  | _,_ => false

def countsNothing (s : State) : Bool :=
  match s.producer with
  | .holding _ oldest => oldest.frame.data.isEmpty
  | _ => false

def inPlace (s : State) (e : Event) : Prop :=
  (e = .count → countsEarly s = false ∧ countsNothing s = false) ∧ (e = .swap → swapsEarly s = false) ∧
    e ≠ .deliver false

instance (s : State) (e : Event) : Decidable (inPlace s e) := inferInstanceAs (Decidable (_ ∧ _ ∧ _))

def Older (d : Item) (l : List Item) : Prop := ∀ i ∈ l, i.pos < d.pos

def Newer (d : Item) (l : List Item) : Prop := ∀ i ∈ l, d.pos < i.pos

structure ResyncAtHole (s : State) : Prop where
  covered : ∀ d ∈ s.discarded, (∃ w ∈ written s.out, d.pos < w.pos) ∨ .closure ∈ s.out →
    ∃ earlier dropped later, s.out = earlier ++ .resync dropped :: later ∧
      Older d (written earlier) ∧ Newer d (written later)
  apart : ∀ earlier dropped later before after, s.out = earlier ++ .resync dropped :: later →
    (written earlier).getLast? = some before → (written later).head? = some after → after.pos ≠ before.pos + 1

variable {s t : State} {e : Event} {d : Item}

structure Drain (s : State) : Prop where
  taken : s.writer = .taken none → s.producer = .finished
  marking : ∀ n, s.writer = .marking none n → s.producer = .finished ∧ s.dropped = 0
  writing : s.writer = .writing none → s.producer = .finished ∧ s.dropped = 0
  closure : .closure ∈ s.out → s.producer = .finished ∧ s.dropped = 0 ∧ (s.writer = .leaving ∨ s.writer = .gone)

theorem drainStart : Drain newConn := by constructor <;> simp [newConn]

theorem drainStep (shut : Shut s) (drain : Drain s) (moved : step s e = some t) : Drain t := by
  obtain ⟨taken,marking,writing,closure⟩ := id drain
  cases stepMoves moved with
  | sends here =>
    have free := opened shut (by simp [here])
    refine offerCases free (fun _ => ?_) (fun _ => ?_)
    all_goals constructor <;> simp_all [State.record]
  | retries here =>
    have free := opened shut (by simp [here])
    refine offerCases free (fun _ => ?_) (fun _ => ?_)
    all_goals constructor <;> simp_all
  | drains select queue closed =>
    have finished := shut.finished.mp closed
    constructor <;> simp_all
  | swaps here => by_cases none : s.dropped = 0 <;> constructor <;> simp_all
  | breaks busy => rcases busy with ⟨hand,n,here⟩ | ⟨hand,here⟩ <;> constructor <;> simp_all [State.broken]
  | _ => constructor <;> simp_all [State.emit,State.beginClose]

structure Around (s : State) (earlier later : List Message) (d : Item) : Prop where
  older : Older d (written earlier)
  newer : Newer d (written later)
  rest : Newer d (s.writer.hand ++ waiting s)

structure Straddles (s : State) (d : Item) : Prop where
  older : Older d (written s.out ++ swapped s.writer)
  newer : Newer d (ahead s.writer ++ waiting s)

structure InHand (s : State) (d : Item) : Prop where
  marking : ∃ hand n, s.writer = .marking hand n
  older : Older d (written s.out)
  newer : Newer d (swapped s.writer ++ waiting s)

structure Held (s : State) (d : Item) : Prop where
  holding : ∃ f, s.producer = .holding f d
  older : Older d (written s.out ++ swapped s.writer)
  newer : Newer d (waiting s)

inductive Standing (s : State) (d : Item) : Prop where
  | marked (earlier dropped later) (at_ : s.out = earlier ++ .resync dropped :: later) (around : Around s earlier later d)
  | inHand (marker : InHand s d)
  | pending (counted : s.dropped ≠ 0) (hole : Straddles s d)
  | held (evicted : Held s d)

structure Holes (s : State) : Prop where
  standing : ∀ d ∈ s.discarded, Standing s d
  pending : s.dropped ≠ 0 → ∃ d ∈ s.discarded, Straddles s d
  marking : ∀ hand n, s.writer = .marking hand n → ∃ d ∈ s.discarded, InHand s d
  markers : ∀ earlier dropped later, s.out = earlier ++ .resync dropped :: later →
    ∃ d ∈ s.discarded, Around s earlier later d
  held : ∀ f d, s.producer = .holding f d → d ∈ s.discarded ∧ Held s d

theorem newerAppend {l k : List Item} : Newer d (l ++ k) ↔ Newer d l ∧ Newer d k := by
  simp [Newer,or_imp,forall_and]

theorem olderAppend {l k : List Item} : Older d (l ++ k) ↔ Older d l ∧ Older d k := by
  simp [Older,or_imp,forall_and]

structure Quiet (s t : State) : Prop where
  out : t.out = s.out
  marking : ∀ hand n, t.writer = .marking hand n ↔ s.writer = .marking hand n
  swapped : swapped t.writer = swapped s.writer
  ahead : ∀ i ∈ ahead t.writer ++ waiting t, i ∈ ahead s.writer ++ waiting s ∨ s.sent.length ≤ i.pos
  waiting : ∀ i ∈ waiting t, i ∈ waiting s ∨ s.sent.length ≤ i.pos
  dropped : s.dropped ≠ 0 → t.dropped ≠ 0

section Quiet
variable (quiet : Quiet s t) (early : d.pos < s.sent.length)
include quiet early

theorem newerAhead (newer : Newer d (ahead s.writer ++ waiting s)) : Newer d (ahead t.writer ++ waiting t) :=
  fun i member => (quiet.ahead i member).elim (newer i) (early.trans_le)

theorem newerWaiting (newer : Newer d (waiting s)) : Newer d (waiting t) :=
  fun i member => (quiet.waiting i member).elim (newer i) (early.trans_le)

theorem aroundQuiet {earlier later : List Message} (around : Around s earlier later d) : Around t earlier later d where
  older := around.older
  newer := around.newer
  rest := by
    have rest := around.rest
    rw [handSplit,List.append_assoc,newerAppend] at rest ⊢
    rw [quiet.swapped]
    exact ⟨rest.1,newerAhead quiet early rest.2⟩

theorem straddlesQuiet (hole : Straddles s d) : Straddles t d where
  older := by rw [quiet.out,quiet.swapped]; exact hole.older
  newer := newerAhead quiet early hole.newer

theorem inHandQuiet (marker : InHand s d) : InHand t d where
  marking := by
    obtain ⟨hand,n,here⟩ := marker.marking
    exact ⟨hand,n,(quiet.marking hand n).mpr here⟩
  older := by rw [quiet.out]; exact marker.older
  newer := by
    have newer := newerAppend.mp marker.newer
    rw [quiet.swapped]
    exact newerAppend.mpr ⟨newer.1,newerWaiting quiet early newer.2⟩

theorem heldQuiet (evicted : Held s d) {f : Item} (holding : t.producer = .holding f d) : Held t d where
  holding := ⟨f,holding⟩
  older := by rw [quiet.out,quiet.swapped]; exact evicted.older
  newer := newerWaiting quiet early evicted.newer

theorem standingQuiet (held : Held s d → Standing t d) (standing : Standing s d) : Standing t d := by
  cases standing with
  | marked earlier dropped later here around =>
    exact .marked earlier dropped later (quiet.out.trans here) (aroundQuiet quiet early around)
  | inHand marker => exact .inHand (inHandQuiet quiet early marker)
  | pending counted hole => exact .pending (quiet.dropped counted) (straddlesQuiet quiet early hole)
  | held evicted => exact held evicted

end Quiet

theorem before (lined : Lined s) (member : d ∈ s.discarded) : d.pos < s.sent.length :=
  Nat.lt_of_succ_lt (lined.early d member).2

theorem holesMove (lined : Lined s) (holes : Holes s) (quiet : Quiet s t) (kept : s.discarded ⊆ t.discarded)
    (fresh : ∀ d ∈ t.discarded, d ∈ s.discarded ∨ Standing t d)
    (released : ∀ d ∈ s.discarded, Held s d → Standing t d)
    (counted : t.dropped ≠ 0 → s.dropped ≠ 0 ∨ ∃ d ∈ t.discarded, Straddles t d)
    (held : ∀ f d, t.producer = .holding f d → d ∈ t.discarded ∧ Held t d) : Holes t where
  standing d member := by
    rcases fresh d member with old | standing
    · exact standingQuiet quiet (before lined old) (released d old) (holes.standing d old)
    · exact standing
  pending nonzero := by
    rcases counted nonzero with old | new
    · obtain ⟨d,member,hole⟩ := holes.pending old
      exact ⟨d,kept member,straddlesQuiet quiet (before lined member) hole⟩
    · exact new
  marking hand n here := by
    obtain ⟨d,member,marker⟩ := holes.marking hand n ((quiet.marking hand n).mp here)
    exact ⟨d,kept member,inHandQuiet quiet (before lined member) marker⟩
  markers earlier n later here := by
    obtain ⟨d,member,around⟩ := holes.markers earlier n later (quiet.out.symm.trans here)
    exact ⟨d,kept member,aroundQuiet quiet (before lined member) around⟩
  held := held

theorem holesQuiet (lined : Lined s) (holes : Holes s) (quiet : Quiet s t) (discarded : t.discarded = s.discarded)
    (dropped : t.dropped = s.dropped) (producer : ∀ f d, t.producer = .holding f d ↔ s.producer = .holding f d) :
    Holes t := by
  refine holesMove lined holes quiet (discarded ▸ List.Subset.refl _) (fun d member => Or.inl (discarded ▸ member))
    (fun d member evicted => ?_) (fun counted => Or.inl (dropped ▸ counted)) (fun f d holding => ?_)
  · obtain ⟨f,holding⟩ := evicted.holding
    exact .held (heldQuiet quiet (before lined member) evicted ((producer f d).mpr holding))
  · obtain ⟨member,evicted⟩ := holes.held f d ((producer f d).mp holding)
    exact ⟨discarded ▸ member,heldQuiet quiet (before lined member) evicted holding⟩

theorem holesEvict (lined : Lined s) (holes : Holes s) {f oldest : Item} {rest : List Item}
    (full : s.producer = .full f) (queue : s.frames = oldest :: rest) : Holes { s with
      frames := rest, discarded := s.discarded ++ [oldest], producer := .holding f oldest } := by
  have held : Held { s with
      frames := rest, discarded := s.discarded ++ [oldest], producer := .holding f oldest } oldest := by
    have order := ascending lined
    simp only [State.line,handSplit,full,queue,Producer.sending,List.append_assoc] at order
    rw [← List.append_assoc,← List.append_assoc,List.pairwise_append] at order
    obtain ⟨_,tail,across⟩ := order
    refine ⟨⟨f,rfl⟩,fun i member => ?_,(List.pairwise_cons.mp tail).1⟩
    exact across i (List.mem_append_left _ member) oldest List.mem_cons_self
  have fewer : ∀ i ∈ rest ++ [f], i ∈ waiting s := by
    intro i member
    simp only [waiting,full,queue,Producer.sending,List.cons_append]
    exact List.mem_cons_of_mem _ member
  refine holesMove lined holes ?quiet (List.subset_append_left _ _) (fun d member => ?fresh)
    (fun d _ evicted => ?released) Or.inl (fun g d holding => ?held)
  case quiet =>
    refine ⟨rfl,fun _ _ => Iff.rfl,rfl,fun i member => Or.inl ?_,fun i member => Or.inl (fewer i member),id⟩
    exact List.mem_append.mpr ((List.mem_append.mp member).imp_right (fewer i))
  case fresh =>
    rcases List.mem_append.mp member with old | last
    · exact Or.inl old
    · exact Or.inr (.held (List.mem_singleton.mp last ▸ held))
  case released =>
    obtain ⟨_,holding⟩ := evicted.holding
    simp [full] at holding
  case held =>
    cases holding
    exact ⟨by simp,held⟩

theorem holesCount (lined : Lined s) (holes : Holes s) {f oldest : Item} (holding : s.producer = .holding f oldest)
    (late : countsEarly s = false) (some_ : countsNothing s = false) :
    Holes { s with dropped := s.dropped + oldest.frame.data.length, producer := .retry f } := by
  obtain ⟨member,evicted⟩ := holes.held f oldest holding
  have filled : oldest.frame.data.length ≠ 0 := by simpa [countsNothing,holding] using some_
  have waits : waiting { s with dropped := s.dropped + oldest.frame.data.length, producer := .retry f } = waiting s := by
    simp [waiting,holding,Producer.sending]
  have hole : Straddles { s with dropped := s.dropped + oldest.frame.data.length, producer := .retry f } oldest := by
    refine ⟨evicted.older,newerAppend.mpr ⟨fun i inHand => ?_,waits ▸ evicted.newer⟩⟩
    cases writer : s.writer <;> simp only [writer,ahead,List.not_mem_nil,Option.mem_toList] at inHand
    simpa [countsEarly,holding,writer,inHand] using late
  refine holesMove lined holes ?quiet (List.Subset.refl _) (fun d old => Or.inl old) (fun d _ other => ?released)
    (fun _ => Or.inr ⟨oldest,member,hole⟩) (by simp)
  case quiet =>
    refine ⟨rfl,fun _ _ => Iff.rfl,rfl,fun i member => Or.inl ?_,fun i member => Or.inl ?_,fun _ => ?_⟩
    · exact waits ▸ member
    · exact waits ▸ member
    · exact Nat.ne_of_gt (Nat.add_pos_right _ (Nat.pos_of_ne_zero filled))
  case released =>
    obtain ⟨_,same⟩ := other.holding
    obtain ⟨rfl,rfl⟩ : f = _ ∧ oldest = d := by simpa [holding] using same
    exact .pending (Nat.ne_of_gt (Nat.add_pos_right _ (Nat.pos_of_ne_zero filled))) hole

def swap (s : State) (hand : Option Item) : State :=
  { s with dropped := 0, writer := if s.dropped = 0 then .writing hand else .marking hand s.dropped }

section Swap
variable {hand : Option Item} (here : s.writer = .taken hand)

theorem swapInHand : swapped (swap s hand).writer = hand.toList := by
  unfold swap
  dsimp only
  split <;> rfl

include here

theorem aroundSwap {earlier later : List Message} (around : Around s earlier later d) :
    Around (swap s hand) earlier later d where
  older := around.older
  newer := around.newer
  rest := by
    have handed : (swap s hand).writer.hand = s.writer.hand := by
      unfold swap
      rw [here]
      dsimp only
      split <;> rfl
    rw [handed]
    exact around.rest

theorem inHandSwap (hole : Straddles s d) (counted : s.dropped ≠ 0) : InHand (swap s hand) d := by
  obtain ⟨older,newer⟩ := hole
  rw [here] at older newer
  refine ⟨⟨hand,s.dropped,if_neg counted⟩,?_,?_⟩
  · simpa [swap,swapped] using older
  · rw [swapInHand]
    exact newer

theorem heldSwap (late : swapsEarly s = false) (evicted : Held s d) : Held (swap s hand) d := by
  obtain ⟨⟨f,holding⟩,older,newer⟩ := evicted
  refine ⟨⟨f,holding⟩,?_,newer⟩
  rw [swapInHand,olderAppend]
  refine ⟨(olderAppend.mp older).1,fun i member => ?_⟩
  have same : hand = some i := by simpa using member
  simpa [swapsEarly,holding,here,same] using late

theorem holesSwap (holes : Holes s) (late : swapsEarly s = false) : Holes (swap s hand) where
  standing d member := by
    cases holes.standing d member with
    | marked earlier n later out around => exact .marked earlier n later out (aroundSwap here around)
    | inHand marker =>
      obtain ⟨_,_,other⟩ := marker.marking
      simp [here] at other
    | pending counted hole => exact .inHand (inHandSwap here hole counted)
    | held evicted => exact .held (heldSwap here late evicted)
  pending counted := absurd rfl counted
  marking hand' n marking := by
    have counted : s.dropped ≠ 0 := by
      intro none
      simp [swap,none] at marking
    obtain ⟨d,member,hole⟩ := holes.pending counted
    exact ⟨d,member,inHandSwap here hole counted⟩
  markers earlier n later out := by
    obtain ⟨d,member,around⟩ := holes.markers earlier n later out
    exact ⟨d,member,aroundSwap here around⟩
  held f d holding := by
    obtain ⟨member,evicted⟩ := holes.held f d holding
    exact ⟨member,heldSwap here late evicted⟩

end Swap

structure Emits (s : State) (m : Message) (next : Writer) : Prop where
  moved : m.written.toList ++ swapped next = swapped s.writer
  taken : ahead s.writer = []
  clear : ahead next = []
  writing : ∀ hand n, next ≠ .marking hand n
  inHand : ∀ d, InHand s d → ∃ n, m = .resync n
  marker : ∀ n, m = .resync n → ∃ hand, s.writer = .marking hand n

section Emits
variable {m : Message} {next : Writer} (emits : Emits s m next)
include emits

theorem pastEmit : written (s.emit m next).out ++ swapped next = written s.out ++ swapped s.writer := by
  simp [State.emit,← emits.moved,List.append_assoc]

theorem straddlesEmit (hole : Straddles s d) : Straddles (s.emit m next) d where
  older i member := hole.older i (pastEmit emits ▸ member)
  newer := by
    have newer := hole.newer
    rw [emits.taken] at newer
    change Newer d (ahead next ++ waiting s)
    rwa [emits.clear]

theorem heldEmit (evicted : Held s d) : Held (s.emit m next) d where
  holding := evicted.holding
  older i member := evicted.older i (pastEmit emits ▸ member)
  newer := evicted.newer

theorem aroundEmit {earlier later : List Message} (around : Around s earlier later d) :
    Around (s.emit m next) earlier (later ++ [m]) d := by
  have rest := around.rest
  rw [handSplit,emits.taken,List.append_nil,← emits.moved,List.append_assoc,newerAppend] at rest
  refine ⟨around.older,?_,?_⟩
  · rw [writtenAppend]
    exact newerAppend.mpr ⟨around.newer,rest.1⟩
  · change Newer d (next.hand ++ waiting s)
    rw [handSplit,emits.clear,List.append_nil]
    exact rest.2

theorem inHandEmit (marker : InHand s d) : Around (s.emit m next) s.out [] d := by
  refine ⟨marker.older,by simp [Newer,written],fun i member => marker.newer i ?_⟩
  have same : (s.emit m next).writer.hand = swapped next := by rw [handSplit]; simp [State.emit,emits.clear]
  rw [same] at member
  rw [← emits.moved,List.append_assoc]
  exact List.mem_append_right _ member

theorem holesEmit (holes : Holes s) : Holes (s.emit m next) where
  standing d member := by
    cases holes.standing d member with
    | marked earlier n later out around =>
      exact .marked earlier n (later ++ [m]) (by simp [State.emit,out]) (aroundEmit emits around)
    | inHand marker =>
      obtain ⟨n,rfl⟩ := emits.inHand d marker
      exact .marked s.out n [] rfl (inHandEmit emits marker)
    | pending counted hole => exact .pending counted (straddlesEmit emits hole)
    | held evicted => exact .held (heldEmit emits evicted)
  pending counted := by
    obtain ⟨d,member,hole⟩ := holes.pending counted
    exact ⟨d,member,straddlesEmit emits hole⟩
  marking hand n here := absurd here (emits.writing hand n)
  markers earlier n later out := by
    rcases splitSnoc out with ⟨rest,rfl,before⟩ | ⟨rfl,rfl,rfl⟩
    · obtain ⟨d,member,around⟩ := holes.markers earlier n rest before
      exact ⟨d,member,aroundEmit emits around⟩
    · obtain ⟨hand,here⟩ := emits.marker n rfl
      obtain ⟨d,member,marker⟩ := holes.marking hand n here
      exact ⟨d,member,inHandEmit emits marker⟩
  held f d holding := by
    obtain ⟨member,evicted⟩ := holes.held f d holding
    exact ⟨member,heldEmit emits evicted⟩

end Emits

theorem holesStart : Holes newConn := by constructor <;> simp [newConn]

theorem quietRest (out : t.out = s.out) (writer : t.writer = s.writer) (dropped : t.dropped = s.dropped)
    (rest : ∀ i ∈ waiting t, i ∈ waiting s ∨ s.sent.length ≤ i.pos) : Quiet s t where
  out := out
  marking := by simp [writer]
  swapped := by rw [writer]
  ahead i member := by
    rw [writer] at member
    rcases List.mem_append.mp member with inHand | waits
    · exact Or.inl (List.mem_append_left _ inHand)
    · exact (rest i waits).imp_left (List.mem_append_right _)
  waiting := rest
  dropped := by simp [dropped]

theorem quietHand (out : t.out = s.out) (dropped : t.dropped = s.dropped)
    (before : ∀ hand n, s.writer ≠ .marking hand n) (after : ∀ hand n, t.writer ≠ .marking hand n)
    (swapped : swapped t.writer = swapped s.writer) (line : ahead t.writer ++ waiting t = ahead s.writer ++ waiting s)
    (fewer : waiting t ⊆ waiting s) : Quiet s t where
  out := out
  marking hand n := ⟨fun here => absurd here (after hand n),fun here => absurd here (before hand n)⟩
  swapped := swapped
  ahead i member := Or.inl (line ▸ member)
  waiting i member := Or.inl (fewer member)
  dropped := by simp [dropped]

theorem evictedNone {p : Producer} (none : p.evicted = []) (f d : Item) : p ≠ .holding f d := by
  rintro rfl
  simp [Producer.evicted] at none

theorem holesOffer (lined : Lined s) (holes : Holes s) {r : State} {f : Item} {otherwise : Producer}
    (out : r.out = s.out) (writer : r.writer = s.writer) (dropped : r.dropped = s.dropped)
    (discarded : r.discarded = s.discarded) (opened : r.closed = false) (idle : s.producer.evicted = [])
    (sending : otherwise.sending = [f]) (evicted : otherwise.evicted = [])
    (queued : ∀ i ∈ r.frames ++ [f], i ∈ waiting s ∨ s.sent.length ≤ i.pos) : Holes (r.offer f otherwise) := by
  have quiet : Quiet s (r.offer f otherwise) := by
    refine quietRest (offerOut.trans out) (offerWriter.trans writer) (offerDropped.trans dropped)
      (fun i member => queued i ?_)
    rwa [waitingOffer opened sending] at member
  refine holesQuiet lined holes quiet (offerDiscarded.trans discarded) (offerDropped.trans dropped) (fun g d => ?_)
  have after := evictedNone (offerEvicted (f := f) opened evicted) g d
  exact ⟨fun here => absurd here after,fun here => absurd here (evictedNone idle g d)⟩

theorem holesStep (shut : Shut s) (roomy : Roomy s) (lined : Lined s) (holes : Holes s) (ok : inPlace s e)
    (moved : step s e = some t) : Holes t := by
  cases stepMoves moved with
  | @sends f idle =>
    have free := opened shut (by simp [idle])
    refine holesOffer lined holes rfl rfl rfl rfl free (by simp [idle,Producer.evicted]) rfl rfl (fun i member => ?_)
    rcases List.mem_append.mp member with old | new
    · exact Or.inl (List.mem_append_left _ old)
    · exact Or.inr (by simp [List.mem_singleton.mp new,State.number])
  | evicts full queue => exact holesEvict lined holes full queue
  | finds here =>
    refine holesQuiet lined holes (quietRest rfl rfl rfl (fun i member => Or.inl ?_)) rfl rfl (by simp [here])
    simpa [waiting,here,Producer.sending] using member
  | counts holding => exact holesCount lined holes holding (ok.1 rfl).1 (ok.1 rfl).2
  | retries here =>
    have free := opened shut (by simp [here])
    refine holesOffer lined holes rfl rfl rfl rfl free (by simp [here,Producer.evicted]) rfl rfl
      (fun i member => Or.inl ?_)
    simpa [waiting,here,Producer.sending] using member
  | spills here => exact absurd here (roomy.spilling _)
  | finishes here =>
    refine holesQuiet lined holes (quietRest rfl rfl rfl (fun i member => Or.inl ?_)) rfl rfl (by simp [here])
    simpa [waiting,here,Producer.sending] using member
  | takes select queue =>
    refine holesQuiet lined holes (quietHand rfl rfl (by simp [select]) (by simp) (by simp [select,swapped]) ?_ ?_) rfl rfl
      (fun _ _ => Iff.rfl)
    · simp [select,queue,ahead,waiting]
    · simp [queue,waiting]
  | drains here queue | stops here queue | leaves here queue =>
    refine holesQuiet lined holes (quietHand rfl rfl (by simp [here]) (by simp) (by simp [here,swapped]) ?_ ?_) rfl rfl
      (fun _ _ => Iff.rfl)
    · simp [here,ahead,waiting]
    · exact List.Subset.refl _
  | swaps here => exact holesSwap here holes (ok.2.1 rfl)
  | marks here =>
    refine holesEmit ⟨by simp [here,swapped,Message.written],by simp [here,ahead],rfl,by simp,fun d _ => ⟨_,rfl⟩,?_⟩ holes
    intro n same
    cases same
    exact ⟨_,here⟩
  | writes here | ends here =>
    refine holesEmit ⟨by simp [here,swapped,Message.written],by simp [here,ahead],rfl,by simp,?_,by simp⟩ holes
    intro d inHand
    obtain ⟨_,_,other⟩ := inHand.marking
    simp [here] at other
  | breaks => exact absurd rfl ok.2.2
  | begins | repeats | closes =>
    exact holesQuiet lined holes (quietRest rfl rfl rfl (fun _ => Or.inl)) rfl rfl (fun _ _ => Iff.rfl)

structure Sound (s : State) : Prop where
  shut : Shut s
  roomy : Roomy s
  lined : Lined s
  drain : Drain s
  holes : Holes s

theorem soundStep (sound : Sound s) (ok : inPlace s e) (moved : step s e = some t) : Sound t where
  shut := shutStep sound.shut moved
  roomy := roomyStep sound.shut sound.roomy moved
  lined := linedStep sound.shut sound.roomy sound.lined moved
  drain := drainStep sound.shut sound.drain moved
  holes := holesStep sound.shut sound.roomy sound.lined sound.holes ok moved

theorem resyncAtHole (drain : Drain s) (holes : Holes s) : ResyncAtHole s where
  covered d member passed := by
    have overtaken : ∀ {w}, w ∈ written s.out → d.pos < w.pos → ¬ Older d (written s.out) :=
      fun inside later older => absurd (older _ inside) (Nat.not_lt.mpr later.le)
    cases holes.standing d member with
    | marked earlier n later out around => exact ⟨earlier,n,later,out,around.older,around.newer⟩
    | inHand marker =>
      rcases passed with ⟨w,inside,later⟩ | closed
      · exact absurd marker.older (overtaken inside later)
      · obtain ⟨hand,n,here⟩ := marker.marking
        simpa [here] using (drain.closure closed).2.2
    | pending counted hole =>
      rcases passed with ⟨w,inside,later⟩ | closed
      · exact absurd (olderAppend.mp hole.older).1 (overtaken inside later)
      · exact absurd (drain.closure closed).2.1 counted
    | held evicted =>
      rcases passed with ⟨w,inside,later⟩ | closed
      · exact absurd (olderAppend.mp evicted.older).1 (overtaken inside later)
      · obtain ⟨f,holding⟩ := evicted.holding
        simp [(drain.closure closed).1] at holding
  apart earlier n later before after out last first := by
    obtain ⟨d,_,around⟩ := holes.markers earlier n later out
    have low := around.older before (List.mem_of_getLast? last)
    have high := around.newer after (List.mem_of_head? first)
    omega

/-- In every run in which no marker's count is taken or added out of place, the
markers stand at the holes and nowhere else. -/
theorem everyResyncAtHole {es : List Event} (run : Run step inPlace newConn es s) : ResyncAtHole s := by
  have sound : Sound s := run.invariant (I := Sound) ⟨shutStart,roomyStart,linedStart,drainStart,holesStart⟩
    (fun _ _ _ => soundStep)
  exact resyncAtHole sound.drain sound.holes

def resend : List Event := [.evict,.count,.retry]

def write : List Event := [.swap,.deliver true]

def calm : List Event :=
  List.replicate 65 (.send byte) ++ resend ++ (.take :: .swap :: .deliver true :: .deliver true :: .take :: write)

theorem calmAtHole : ∃ s, exec (guarded step inPlace) newConn calm = some s ∧ ResyncAtHole s := by
  obtain ⟨s,done⟩ : ∃ s, exec (guarded step inPlace) newConn calm = some s :=
    Option.isSome_iff_exists.mp (by decide +kernel)
  exact ⟨s,done,everyResyncAtHole (runOfGuarded done)⟩

def overtaking : List Event :=
  [.send byte,.take] ++ List.replicate 65 (.send byte) ++ resend ++ (.swap :: .deliver true :: .deliver true :: .take :: write)

theorem markerBeforeHand : ∃ s, Run step anyStep newConn overtaking s ∧ s.failed = false ∧ ¬ ResyncAtHole s := by
  have ends : (exec step newConn overtaking).map (fun s => (s.failed,s.out,s.discarded)) =
      some (false,[.resync 1,.frame ⟨0,byte⟩,.frame ⟨2,byte⟩],[⟨1,byte⟩]) := by decide +kernel
  obtain ⟨s,done,seen⟩ := Option.map_eq_some_iff.mp ends
  simp only [Prod.mk.injEq] at seen
  obtain ⟨live,out,lost⟩ := seen
  refine ⟨s,runOfExec done,live,fun right => ?_⟩
  have passed : ∃ w ∈ written s.out, (⟨1,byte⟩ : Item).pos < w.pos := ⟨⟨2,byte⟩,by simp [out,written,Message.written],by simp⟩
  obtain ⟨earlier,n,later,split,_,newer⟩ := right.covered ⟨1,byte⟩ (by simp [lost]) (Or.inl passed)
  rw [out] at split
  have first : later = [.frame ⟨0,byte⟩,.frame ⟨2,byte⟩] := by
    rcases earlier with _ | ⟨a,_ | ⟨b,_ | ⟨c,rest⟩⟩⟩ <;> simp at split
    exact split.2.symm
  have misplaced := newer ⟨0,byte⟩ (by simp [first,written,Message.written])
  simp at misplaced

end M6t.OutboundHoles
