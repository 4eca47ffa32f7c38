import M6t.Records
import M6t.Runs

/-! The status hook of git: one read in flight, one more queued behind it, and a status kept
for each project it holds. -/
namespace M6t.GitReads
open M6t M6t.Runs
variable {κ τ ε : Type*}

structure State (κ τ ε : Type*) where
  target : Option κ
  held : List κ
  inFlight : Bool
  stale : Bool
  awaiting : List κ
  statuses : List (κ × τ)
  error : Option ε

def start : State κ τ ε := ⟨none,[],false,false,[],[],none⟩

/-- The loop's body up to its await, or the break that ends the loop. -/
def State.begin (s : State κ τ ε) : State κ τ ε :=
  match s.target with
  | none => { s with stale := false, inFlight := false }
  | some reading => { s with stale := false, awaiting := s.awaiting ++ [reading] }

def State.read (s : State κ τ ε) : State κ τ ε :=
  if s.inFlight then { s with stale := true } else State.begin { s with inFlight := true }

structure Single (s : State κ τ ε) : Prop where
  flying : s.inFlight = true → ∃ root, s.awaiting = [root]
  landed : s.inFlight = false → s.awaiting = [] ∧ s.stale = false

structure Reads (s t : State κ τ ε) : Prop where
  single : Single t
  target : t.target = s.target
  begun : t.stale = false → ∀ root, s.target = some root → t.awaiting = s.awaiting ++ [root]

theorem beginReads {s : State κ τ ε} (flying : s.inFlight = true) (landed : s.awaiting = []) : Reads s s.begin := by
  unfold State.begin
  split
  · next target => exact ⟨⟨nofun,fun _ => ⟨landed,rfl⟩⟩,rfl,fun _ root showing => by simp [target] at showing⟩
  · next reading target =>
    refine ⟨⟨fun _ => ⟨reading,by simp [landed]⟩,fun down => by simp [flying] at down⟩,rfl,fun _ root showing => ?_⟩
    rw [Option.some.inj (target.symm.trans showing)]

theorem readReads {s : State κ τ ε} (single : Single s) : Reads s s.read := by
  unfold State.read
  split
  · next flying => exact ⟨⟨fun _ => single.flying flying,fun down => by simp [flying] at down⟩,rfl,nofun⟩
  · next down =>
    have begins := @beginReads κ τ ε { s with inFlight := true } rfl (single.landed (by simpa using down)).1
    exact ⟨begins.single,begins.target,begins.begun⟩

theorem beginStill (s : State κ τ ε) : s.begin.held = s.held ∧ s.begin.statuses = s.statuses := by
  unfold State.begin
  split <;> exact ⟨rfl,rfl⟩

theorem readStill (s : State κ τ ε) : s.read.held = s.held ∧ s.read.statuses = s.statuses := by
  unfold State.read
  split
  · exact ⟨rfl,rfl⟩
  · exact beginStill _

variable [DecidableEq κ]

def State.apply (s : State κ τ ε) (root : κ) (result : Except ε τ) (showing : Bool) : State κ τ ε :=
  match result with
  | .ok read =>
      { s with statuses := Records.put s.statuses root read, error := if showing then none else s.error }
  | .error failure => { s with error := if showing then some failure else s.error }

def State.settle (s : State κ τ ε) (flight : Nat) (reading : κ) (result : Except ε τ) : State κ τ ε :=
  let s := { s with awaiting := s.awaiting.eraseIdx flight }
  if reading ∈ s.held then s.apply reading result (s.target = some reading) else s

def State.answer (s : State κ τ ε) (flight : Nat) (result : Except ε τ) : State κ τ ε :=
  match s.awaiting[flight]? with
  | none => s
  | some reading =>
      let s := s.settle flight reading result
      if s.stale then s.begin else { s with inFlight := false }

def State.select (s : State κ τ ε) (root : Option κ) : State κ τ ε :=
  if root = s.target then s
  else
    let s := { s with target := root, error := none }
    match root with
    | none => s
    | some root => State.read { s with held := root :: s.held }

def State.onGit (s : State κ τ ε) (changedRoot : κ) : State κ τ ε :=
  if s.target = some changedRoot then s.read else s

def State.closeProject (s : State κ τ ε) (closing : κ) : State κ τ ε :=
  { s with
    held := s.held.filter (· ≠ closing)
    statuses := s.statuses.filter (fun entry => entry.1 ≠ closing) }

inductive Event (κ τ ε : Type*) where
  | select (root : Option κ)
  | onGit (changedRoot : κ)
  | refresh
  | answer (flight : Nat) (result : Except ε τ)
  | closeProject (closing : κ)

def State.step (s : State κ τ ε) : Event κ τ ε → State κ τ ε
  | .select root => s.select root
  | .onGit changedRoot => s.onGit changedRoot
  | .refresh => s.read
  | .answer flight result => s.answer flight result
  | .closeProject closing => s.closeProject closing

def run (events : List (Event κ τ ε)) : State κ τ ε := events.foldl State.step start

def shown (events : List (Event κ τ ε)) : Option κ :=
  events.foldl (fun now e => match e with
    | .select root => root
    | _ => now) none

/-- What asks for a read, with this project on screen. -/
def Requests (now : Option κ) : Event κ τ ε → Prop
  | .select root => root ≠ now
  | .onGit changedRoot => now = some changedRoot
  | .refresh => True
  | _ => False

def remaining (s : State κ τ ε) : Event κ τ ε → List κ
  | .answer flight _ => s.awaiting.eraseIdx flight
  | _ => s.awaiting

/-- Once the event is over, one more read is out than it left there. -/
def Begins (earlier : List (Event κ τ ε)) (e : Event κ τ ε) (root : κ) : Prop :=
  (run (earlier ++ [e])).awaiting = remaining (run earlier) e ++ [root]

def Latest (root : κ) (events : List (Event κ τ ε)) : Prop :=
  ∃ earlier e later, events = earlier ++ e :: later ∧ Begins earlier e root ∧
    ∀ between f rest, later = between ++ f :: rest →
      ¬ Requests (shown (earlier ++ e :: between)) f ∧ ∀ other, ¬ Begins (earlier ++ e :: between) f other

def Returned (events : List (Event κ τ ε)) (root : κ) (status : τ) : Prop :=
  ∃ earlier flight later, events = earlier ++ .answer flight (.ok status) :: later ∧ (run earlier).awaiting[flight]? = some root

def Reopened (earlier later : List (Event κ τ ε)) (root : κ) : Prop :=
  ∃ between rest, later = between ++ .select (some root) :: rest ∧ shown (earlier ++ .closeProject root :: between) ≠ some root

section Steps
variable {s : State κ τ ε} {events earlier : List (Event κ τ ε)} {e : Event κ τ ε} {root : κ} {status : τ}

theorem runSnoc : run (events ++ [e]) = (run events).step e := by rw [run,List.foldl_append]; rfl

theorem Latest.now (begins : Begins events e root) : Latest root (events ++ [e]) :=
  ⟨events,e,[],rfl,begins,fun between f rest split => by simp at split⟩

theorem Latest.later (latest : Latest root events) (quiet : ¬ Requests (shown events) e) (none_ : ∀ other, ¬ Begins events e other) :
    Latest root (events ++ [e]) := by
  obtain ⟨earlier,d,later,rfl,begins,silent⟩ := latest
  refine ⟨earlier,d,later ++ [e],by simp,begins,fun between f rest split => ?_⟩
  rcases splitSnoc split with ⟨rest,rfl,old⟩ | ⟨rfl,rfl,old⟩
  · exact silent between f rest old
  · subst old
    exact ⟨quiet,none_⟩

theorem Returned.later (returned : Returned events root status) : Returned (events ++ [e]) root status := by
  obtain ⟨earlier,flight,later,rfl,out⟩ := returned
  exact ⟨earlier,flight,later ++ [e],by simp,out⟩

omit [DecidableEq κ] in
theorem Reopened.later {later : List (Event κ τ ε)} (reopened : Reopened earlier later root) : Reopened earlier (later ++ [e]) root := by
  obtain ⟨between,rest,rfl,elsewhere⟩ := reopened
  exact ⟨between,rest ++ [e],by simp,elsewhere⟩

theorem applyLoop (s : State κ τ ε) (root : κ) (result : Except ε τ) (showing : Bool) :
    ∃ statuses error, s.apply root result showing = { s with statuses := statuses, error := error } ∧
      (statuses = s.statuses ∨ ∃ read, result = .ok read ∧ statuses = Records.put s.statuses root read) := by
  cases result with
  | ok read => exact ⟨_,_,rfl,.inr ⟨read,rfl,rfl⟩⟩
  | error failure => exact ⟨_,_,rfl,.inl rfl⟩

theorem settleLoop (s : State κ τ ε) (flight : Nat) (reading : κ) (result : Except ε τ) :
    ∃ statuses error, s.settle flight reading result =
        { s with awaiting := s.awaiting.eraseIdx flight, statuses := statuses, error := error } ∧
      (statuses = s.statuses ∨ reading ∈ s.held ∧ ∃ read, result = .ok read ∧ statuses = Records.put s.statuses reading read) := by
  unfold State.settle
  dsimp only
  split
  · next held =>
    obtain ⟨statuses,error,applied,written⟩ := applyLoop _ reading result (decide (s.target = some reading))
    exact ⟨statuses,error,applied,written.imp_right (fun wrote => ⟨held,wrote⟩)⟩
  · exact ⟨_,_,rfl,.inl rfl⟩

structure Sound (events : List (Event κ τ ε)) : Prop where
  single : Single (run events)
  target : (run events).target = shown events
  fresh : (run events).stale = false → ∀ root, shown events = some root → Latest root events

theorem Sound.reads (next : State κ τ ε) (reads : Reads next ((run events).step e)) (left : next.awaiting = remaining (run events) e)
    (target : next.target = shown (events ++ [e])) : Sound (events ++ [e]) where
  single := by rw [runSnoc]; exact reads.single
  target := by rw [runSnoc,reads.target,target]
  fresh steady root showing := by
    rw [runSnoc] at steady
    refine Latest.now ?_
    rw [Begins,runSnoc,reads.begun steady root (target.trans showing),left]

theorem Sound.still (sound : Sound events) (single : Single ((run events).step e))
    (stale : ((run events).step e).stale = (run events).stale) (target : ((run events).step e).target = shown (events ++ [e]))
    (same : shown (events ++ [e]) = shown events) (quiet : ¬ Requests (shown events) e)
    (left : ((run events).step e).awaiting = remaining (run events) e) : Sound (events ++ [e]) where
  single := by rw [runSnoc]; exact single
  target := by rw [runSnoc]; exact target
  fresh steady root showing := by
    rw [runSnoc,stale] at steady
    refine (sound.fresh steady root (same ▸ showing)).later quiet (fun other begins => ?_)
    rw [Begins,runSnoc,left] at begins
    simp at begins

omit [DecidableEq κ] in
theorem shownSnoc : shown (events ++ [e]) = match e with
    | .select root => root
    | _ => shown events := by
  rw [shown,List.foldl_append]
  cases e <;> rfl

theorem Sound.answer (sound : Sound events) (flight : Nat) (result : Except ε τ) : Sound (events ++ [.answer flight result]) := by
  have same : shown (events ++ [.answer flight result]) = shown events := shownSnoc
  cases out : (run events).awaiting[flight]? with
  | none =>
    have stays : (run events).step (.answer flight result) = run events := by simp only [State.step,State.answer,out]
    refine sound.still (stays.symm ▸ sound.single) (stays.symm ▸ rfl) (by rw [stays,same,sound.target]) same id ?_
    rw [stays,remaining,List.eraseIdx_of_length_le (List.getElem?_eq_none_iff.mp out)]
  | some reading =>
    obtain ⟨statuses,error,settled,-⟩ := settleLoop (run events) flight reading result
    have flown : (run events).inFlight = true := by
      cases down : (run events).inFlight with
      | true => rfl
      | false => simp [(sound.single.landed down).1] at out
    obtain ⟨root,only⟩ := sound.single.flying flown
    have nothing : (run events).awaiting.eraseIdx flight = [] := by
      rw [only] at out ⊢
      have first : flight = 0 := by simpa using (List.getElem?_eq_some_iff.mp out).1
      rw [first,List.eraseIdx_zero,List.tail_cons]
    have taken : (run events).step (.answer flight result) =
        if (run events).stale then
          State.begin { run events with awaiting := (run events).awaiting.eraseIdx flight, statuses := statuses, error := error }
        else
          { run events with
            awaiting := (run events).awaiting.eraseIdx flight, statuses := statuses, error := error, inFlight := false } := by
      simp only [State.step,State.answer,out,settled]
    by_cases turns : (run events).stale = true
    · rw [if_pos turns] at taken
      let next : State κ τ ε :=
        { run events with awaiting := (run events).awaiting.eraseIdx flight, statuses := statuses, error := error }
      exact Sound.reads next (taken.symm ▸ beginReads flown nothing) rfl (sound.target.trans same.symm)
    · rw [if_neg turns] at taken
      rw [Bool.not_eq_true] at turns
      exact sound.still (taken.symm ▸ ⟨nofun,fun _ => ⟨nothing,turns⟩⟩) (taken.symm ▸ rfl)
        (by rw [taken,same]; exact sound.target) same id (by rw [taken]; rfl)

theorem Sound.snoc (sound : Sound events) (e : Event κ τ ε) : Sound (events ++ [e]) := by
  cases e with
  | select next =>
    have here : shown (events ++ [.select next]) = next := shownSnoc
    by_cases same : next = (run events).target
    · have stays : (run events).step (.select next) = run events := by simp only [State.step,State.select,if_pos same]
      have still : next = shown events := same.trans sound.target
      exact sound.still (stays.symm ▸ sound.single) (stays.symm ▸ rfl) (by rw [stays,here,same]) (here.trans still)
        (fun asks => asks still) (by rw [stays]; rfl)
    · cases next with
      | none =>
        have taken : (run events).step (.select none) = { run events with target := none, error := none } := by
          simp only [State.step,State.select,if_neg same]
        have single : Single ({ run events with target := none, error := none } : State κ τ ε) :=
          ⟨sound.single.flying,sound.single.landed⟩
        refine ⟨by rw [runSnoc,taken]; exact single,by rw [runSnoc,taken,here],fun _ root showing => ?_⟩
        rw [here] at showing
        cases showing
      | some root =>
        have taken : (run events).step (.select (some root)) =
            State.read { run events with target := some root, error := none, held := root :: (run events).held } := by
          simp only [State.step,State.select,if_neg same]
        let next : State κ τ ε := { run events with target := some root, error := none, held := root :: (run events).held }
        have single : Single next := ⟨sound.single.flying,sound.single.landed⟩
        exact Sound.reads next (taken.symm ▸ readReads single) rfl here.symm
  | onGit changedRoot =>
    have here : shown (events ++ [.onGit changedRoot]) = shown events := shownSnoc
    by_cases showing : (run events).target = some changedRoot
    · have taken : (run events).step (.onGit changedRoot) = (run events).read := by
        simp only [State.step,State.onGit,if_pos showing]
      exact Sound.reads (run events) (taken.symm ▸ readReads sound.single) rfl (sound.target.trans here.symm)
    · have stays : (run events).step (.onGit changedRoot) = run events := by simp only [State.step,State.onGit,if_neg showing]
      exact sound.still (stays.symm ▸ sound.single) (stays.symm ▸ rfl) (by rw [stays,here,sound.target]) here
        (fun asks => showing (sound.target.trans asks)) (by rw [stays]; rfl)
  | refresh =>
    have here : shown (events ++ [.refresh]) = shown events := shownSnoc
    exact Sound.reads (run events) (readReads sound.single) rfl (sound.target.trans here.symm)
  | answer flight result => exact sound.answer flight result
  | closeProject closing =>
    have here : shown (events ++ [.closeProject closing]) = shown events := shownSnoc
    exact sound.still ⟨sound.single.flying,sound.single.landed⟩ rfl (here.symm ▸ sound.target) here id rfl

theorem runSound (events : List (Event κ τ ε)) : Sound events := by
  induction events using List.reverseRecOn with
  | nil => exact ⟨⟨nofun,fun _ => ⟨rfl,rfl⟩⟩,rfl,fun _ root showing => by simp [shown] at showing⟩
  | append_singleton events e ih => exact ih.snoc e

inductive Keeps (s : State κ τ ε) : Event κ τ ε → State κ τ ε → Prop where
  | still {e t} (held : t.held = s.held) (statuses : t.statuses = s.statuses) (other : ∀ root, e ≠ .closeProject root) : Keeps s e t
  | selected {root t} (elsewhere : s.target ≠ some root) (held : t.held = root :: s.held) (statuses : t.statuses = s.statuses) :
    Keeps s (.select (some root)) t
  | answered {flight root read t} (out : s.awaiting[flight]? = some root) (there : root ∈ s.held) (held : t.held = s.held)
      (statuses : t.statuses = Records.put s.statuses root read) : Keeps s (.answer flight (.ok read)) t
  | closed {root t} (held : t.held = s.held.filter (· ≠ root))
      (statuses : t.statuses = s.statuses.filter (fun entry => entry.1 ≠ root)) : Keeps s (.closeProject root) t

theorem answerKeeps (flight : Nat) (result : Except ε τ) : Keeps s (.answer flight result) (s.answer flight result) := by
  unfold State.answer
  split
  · exact .still rfl rfl nofun
  · next reading out =>
    obtain ⟨statuses,error,settled,written⟩ := settleLoop s flight reading result
    have rest : ∀ t, t = (if (s.settle flight reading result).stale then (s.settle flight reading result).begin
        else { s.settle flight reading result with inFlight := false }) → t.held = s.held ∧ t.statuses = statuses := by
      rintro t rfl
      rw [settled]
      split
      · exact beginStill _
      · exact ⟨rfl,rfl⟩
    obtain ⟨held,same⟩ := rest _ rfl
    rcases written with rfl | ⟨there,read,rfl,rfl⟩
    · exact .still held same nofun
    · exact .answered out there held same

theorem stepKeeps (s : State κ τ ε) (e : Event κ τ ε) : Keeps s e (s.step e) := by
  cases e with
  | select next =>
    simp only [State.step,State.select]
    split
    · exact .still rfl rfl nofun
    · next elsewhere =>
      cases next with
      | none => exact .still rfl rfl nofun
      | some root => exact .selected (Ne.symm elsewhere) (readStill _).1 (readStill _).2
  | onGit changedRoot =>
    simp only [State.step,State.onGit]
    split
    · exact .still (readStill _).1 (readStill _).2 nofun
    · exact .still rfl rfl nofun
  | refresh => exact .still (readStill _).1 (readStill _).2 nofun
  | answer flight result => exact answerKeeps flight result
  | closeProject closing => exact .closed rfl rfl

structure Kept (events : List (Event κ τ ε)) : Prop where
  returned : ∀ root status, (run events).statuses.lookup root = some status → Returned events root status
  gone : ∀ earlier root later, events = earlier ++ .closeProject root :: later → ¬ Reopened earlier later root →
    root ∉ (run events).held ∧ (run events).statuses.lookup root = none

theorem Kept.returns (kept : Kept events) (e : Event κ τ ε) :
    ∀ root status, (run (events ++ [e])).statuses.lookup root = some status → Returned (events ++ [e]) root status := by
  intro root status found
  rw [runSnoc] at found
  cases stepKeeps (run events) e with
  | still held statuses other => exact (kept.returned root status (statuses ▸ found)).later
  | selected elsewhere held statuses => exact (kept.returned root status (statuses ▸ found)).later
  | @answered flight reading read _ out there held statuses =>
    rw [statuses,Records.lookupPut] at found
    by_cases same : root = reading
    · rw [if_pos same] at found
      cases found
      exact ⟨events,flight,[],rfl,same ▸ out⟩
    · rw [if_neg same] at found
      exact (kept.returned root status found).later
  | closed held statuses =>
    rw [statuses,Records.lookupWithout] at found
    split at found
    · cases found
    · exact (kept.returned root status found).later

theorem Kept.snoc (kept : Kept events) (e : Event κ τ ε) : Kept (events ++ [e]) := by
  refine ⟨kept.returns e,fun earlier root later split unopened => ?_⟩
  rw [runSnoc]
  rcases splitSnoc split with ⟨rest,rfl,old⟩ | ⟨rfl,rfl,old⟩
  · have before := kept.gone earlier root rest old (fun again => unopened again.later)
    cases stepKeeps (run events) e with
    | still held statuses other => exact ⟨held ▸ before.1,statuses ▸ before.2⟩
    | @selected opened _ elsewhere held statuses =>
      have apart : root ≠ opened := by
        rintro rfl
        exact unopened ⟨rest,[],rfl,old ▸ (runSound events).target ▸ elsewhere⟩
      rw [held,statuses,List.mem_cons,not_or]
      exact ⟨⟨apart,before.1⟩,before.2⟩
    | @answered flight reading read _ out there held statuses =>
      have apart : root ≠ reading := fun same => before.1 (same ▸ there)
      rw [held,statuses,Records.lookupPut,if_neg apart]
      exact before
    | @closed closing _ held statuses =>
      rw [held,statuses,Records.lookupWithout,List.mem_filter]
      refine ⟨fun inside => before.1 inside.1,?_⟩
      split
      · rfl
      · exact before.2
  · cases stepKeeps (run events) (.closeProject root) with
    | still held statuses other => exact absurd rfl (other root)
    | closed held statuses =>
      rw [held,statuses,Records.lookupWithout,List.mem_filter]
      simp

theorem runKept (events : List (Event κ τ ε)) : Kept events := by
  induction events using List.reverseRecOn with
  | nil => exact ⟨fun root status found => by simp [run,start] at found,fun earlier root later split => by simp at split⟩
  | append_singleton events e ih => exact ih.snoc e

end Steps

theorem readsFollow (events : List (Event κ τ ε)) :
    (run events).awaiting.length ≤ 1 ∧
    ((run events).awaiting = [] → ∀ root, shown events = some root → Latest root events) ∧
    (∀ root status, (run events).statuses.lookup root = some status → Returned events root status) ∧
    (∀ earlier root later status, events = earlier ++ .closeProject root :: later →
      (run events).statuses.lookup root = some status → Reopened earlier later root) := by
  obtain ⟨single,target,fresh⟩ := runSound events
  have kept := runKept events
  refine ⟨?_,fun nothing root showing => ?_,kept.returned,fun earlier root later status split found => ?_⟩
  · cases flying : (run events).inFlight with
    | true =>
      obtain ⟨root,only⟩ := single.flying flying
      simp [only]
    | false => simp [(single.landed flying).1]
  · refine fresh ?_ root showing
    cases flying : (run events).inFlight with
    | true =>
      obtain ⟨root,only⟩ := single.flying flying
      simp [only] at nothing
    | false => exact (single.landed flying).2
  · by_contra unopened
    have none_ := (kept.gone earlier root later split unopened).2
    rw [found] at none_
    cases none_

def visits : List (Event Nat String String) :=
  [.select (some 0),.onGit 0,.select (some 1),.answer 0 (.ok "clean"),.closeProject 0,.answer 0 (.ok "ahead")]

theorem visitsFollow : (run visits).awaiting = [] ∧ Latest 1 visits ∧ Returned visits 1 "ahead" ∧
    (run visits).statuses.lookup 0 = none := by
  obtain ⟨_,latest,returned,_⟩ := readsFollow visits
  exact ⟨rfl,latest rfl 1 rfl,returned 1 "ahead" rfl,rfl⟩

end M6t.GitReads
