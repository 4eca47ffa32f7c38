import M6t.GitTracked
import M6t.Fault
import M6t.Runs

/-! The git controls of the window: what they may ask for under a status, the operations they start
one at a time, and the argument vectors the backend makes of these. A click is on the controls as
drawn for the present state. -/
namespace M6t.GitControls
open M6t.Text M6t.Fault M6t.GitStatus M6t.GitTracked M6t.Runs

inductive Op where
  | pull
  | push (remote : Str) (setUpstream : Bool)
  | checkout (branch : Str)
  deriving DecidableEq, Repr

def errInvalidRef : Cause := .system "not a valid branch or remote name"

def validateRef (name : Str) : Answer Unit :=
  if name = [] ∨ name.head? = some '-' then .error (errorf [.text "resolving ",.shown name] errInvalidRef)
  else if name.any (fun c => c.toNat ≤ 0x20 || c.toNat = 0x7f) then .error (errorf [.text "resolving ",.shown name] errInvalidRef)
  else .ok ()

def argv (readOnly : Bool) (root : Str) (args : List Str) : List Str :=
  (if readOnly then ["--no-optional-locks".toList] else []) ++ ["-C".toList,root] ++ args

def Op.sentence (root : Str) : Op → List Piece
  | .pull => [.text "pulling in ",.shown root]
  | .push _ _ => [.text "pushing in ",.shown root]
  | .checkout branch => [.text "switching to ",.shown branch,.text " in ",.shown root]

def Op.args : Op → Answer (List Str)
  | .pull => .ok ["pull".toList]
  | .push _ false => .ok ["push".toList]
  | .push remote true => do
    let _ ← validateRef remote
    .ok ["push".toList,"--set-upstream".toList,remote,"HEAD".toList]
  | .checkout branch => do
    let _ ← validateRef branch
    .ok ["checkout".toList,branch,"--".toList]

def command (root : Str) (op : Op) : Answer (List Str) :=
  (wrapping (op.sentence root) op.args).map (argv false root)

def lines (out : Str) : List Str := ((out.splitOn '\n').map trimSpace).filter (fun line => line ≠ [])

def isDirty (status : Status) : Bool :=
  status.files.any (fun f => f.conflicted || f.staged.isSome || (f.worktree.isSome && f.worktree ≠ some .untracked))

def checkoutBlockedReason (status : Status) : Option String :=
  if status.availability ≠ .available then none
  else if status.branch.unborn then some "This repository has no commits yet."
  else if isDirty status then some "Commit or stash your changes before switching branches."
  else none

def needsUpstream (status : Status) : Bool :=
  status.availability = .available ∧ status.branch.detached = false ∧ status.branch.unborn = false ∧
    status.branch.name ≠ [] ∧ status.branch.upstream = []

def pushBlockedReason (status : Status) : Option String :=
  if status.availability ≠ .available then none
  else if status.branch.unborn then some "There are no commits to push yet."
  else if status.branch.detached then some "HEAD is detached — check out a branch to push."
  else if status.branch.name = [] then some "Reading the repository…"
  else none

def pullBlockedReason (status : Status) : Option String :=
  if status.availability ≠ .available then none
  else if status.branch.detached then some "HEAD is detached — check out a branch to pull."
  else if status.branch.upstream = [] then some "This branch tracks nothing to pull from."
  else none

def defaultRemote (remotes : List Str) : Str :=
  if "origin".toList ∈ remotes then "origin".toList
  else match remotes with
    | [remote] => remote
    | _ => []

/-- `refreshed` is the status read again. -/
inductive Note where
  | started (root : Str) (op : Op) (status : Status) (argv : List Str)
  | failed (root : Str) (op : Op) (err : Failure)
  | refreshed (root : Option Str)
  | listed (root : Str) (branches remotes : List Str)
  deriving DecidableEq, Repr

/-- `remote` is what the picker of remotes stands at; `flights` are the calls of operations and
`reads` those of the two lists that have not been answered. -/
structure State where
  target : Option Str
  busy : Bool
  error : Option Failure
  branches : List Str
  remotes : List Str
  remote : Str
  flights : List (Str × Op)
  reads : List Str
  log : List Note
  deriving DecidableEq, Repr

def fresh : State := ⟨none,false,none,[],[],[],[],[],[]⟩

inductive Event where
  | select (root : Option Str)
  | pull (status : Status)
  | push (status : Status)
  | choose (status : Status) (remote : Str)
  | checkout (status : Status) (branch : Str)
  | finish (i : Nat) (outcome : Option Failure)
  | listed (i : Nat) (branches remotes : List Str)
  | remount
  | dismissError
  deriving DecidableEq, Repr

namespace State
variable (s : State)

def listRefs : State := { s with reads := s.reads ++ s.target.toList }

def pick (branches remotes : List Str) : State :=
  { s with branches := branches, remotes := remotes, remote := if s.remote ∈ remotes then s.remote else defaultRemote remotes }

def select (root : Option Str) : State := ({ s with target := root, error := none }.pick [] []).listRefs

def begin (status : Status) (op : Op) : State :=
  match s.target with
  | none => s
  | some root =>
    let started := match command root op with
      | .ok argv => [Note.started root op status argv]
      | .error _ => []
    { s with busy := true, error := none, flights := s.flights ++ [(root,op)], log := s.log ++ started }

def failure (root : Str) (op : Op) (outcome : Option Failure) : Option Failure :=
  match command root op with
  | .error err => some err
  | .ok _ => outcome.map (Failure.wrap (op.sentence root))

def settle (root : Str) (op : Op) : Option Failure → State
  | none => s
  | some err => { s with error := if s.target = some root then some err else s.error, log := s.log ++ [.failed root op err] }

def finish (i : Nat) (root : Str) (op : Op) (outcome : Option Failure) : State :=
  let s := State.settle { s with flights := s.flights.eraseIdx i } root op (failure root op outcome)
  State.listRefs { s with busy := false, log := s.log ++ [.refreshed s.target] }

def listed (i : Nat) (root : Str) (branches remotes : List Str) : State :=
  let s := { s with reads := s.reads.eraseIdx i, log := s.log ++ [.listed root branches remotes] }
  if s.target = some root then s.pick branches remotes else s

end State

def live (s : State) (status : Status) (blocked : Option String) : Prop :=
  status.availability = .available ∧ s.busy = false ∧ blocked = none
instance (s status blocked) : Decidable (live s status blocked) := inferInstanceAs (Decidable (_ ∧ _))

def step (s : State) : Event → Option State
  | .select root => if root = s.target then none else some (s.select root)
  | .pull status => if live s status (pullBlockedReason status) then some (s.begin status .pull) else none
  | .push status =>
    if ¬ live s status (pushBlockedReason status) then none
    else if needsUpstream status = false then some (s.begin status (.push [] false))
    else if s.remotes = [] ∨ s.remote = [] then none
    else some (s.begin status (.push s.remote true))
  | .choose status remote =>
    if status.availability = .available ∧ s.busy = false ∧ needsUpstream status ∧ remote ∈ s.remotes then
      some { s with remote := remote }
    else none
  | .checkout status branch =>
    if live s status (checkoutBlockedReason status) ∧ branch ∈ s.branches ∧ branch ≠ [] ∧ branch ≠ status.branch.name then
      some (s.begin status (.checkout branch))
    else none
  | .finish i outcome => (s.flights[i]?).map (fun flight => s.finish i flight.1 flight.2 outcome)
  | .listed i branches remotes => (s.reads[i]?).map (fun root => s.listed i root branches remotes)
  | .remount => some { s with remote := defaultRemote s.remotes }
  | .dismissError => some { s with error := none }

def Permits (status : Status) : Op → Prop
  | .pull => status.branch.detached = false ∧ status.branch.upstream ≠ []
  | .push _ setUpstream => status.branch.detached = false ∧ status.branch.unborn = false ∧ status.branch.name ≠ [] ∧
      (setUpstream = true ↔ status.branch.upstream = [])
  | .checkout branch => status.branch.unborn = false ∧ isDirty status = false ∧ branch ≠ status.branch.name

/-- The name an operation is given was listed for the project it is run in. -/
def Listed (log : List Note) (root : Str) : Op → Prop
  | .push remote true => ∃ branches remotes, .listed root branches remotes ∈ log ∧ remote ∈ remotes
  | .checkout branch => ∃ branches remotes, .listed root branches remotes ∈ log ∧ branch ∈ branches
  | _ => True

def Plain (root : Str) (argv : List Str) : Prop :=
  ∃ args, argv = "-C".toList :: root :: args ∧ ∀ arg ∈ args, arg.head? = some '-' → arg ∈ ["--set-upstream".toList,"--".toList]

def Earned (log : List Note) : Note → Prop
  | .started root op status argv =>
    status.availability = .available ∧ Permits status op ∧ Listed log root op ∧ command root op = .ok argv ∧ Plain root argv
  | _ => True

theorem refName {name : Str} (valid : validateRef name = .ok ()) : name ≠ [] ∧ name.head? ≠ some '-' := by
  unfold validateRef at valid
  split at valid
  · contradiction
  · next whole => exact not_or.mp whole

theorem commandPlain {root : Str} {op : Op} {argv : List Str} (made : command root op = .ok argv) : Plain root argv := by
  unfold command at made
  obtain ⟨args,listed,rfl⟩ : ∃ args, op.args = .ok args ∧ GitControls.argv false root args = argv := by
    cases listed : op.args with
    | error err => simp [listed,wrapping,Except.map] at made
    | ok args =>
      simp only [listed,wrapping,Except.map,Except.ok.injEq] at made
      exact ⟨args,rfl,made⟩
  refine ⟨args,rfl,?_⟩
  cases op with
  | pull =>
    cases listed
    decide
  | push remote setUpstream =>
    cases setUpstream with
    | false =>
      cases listed
      decide
    | true =>
      obtain ⟨_,valid,same⟩ := bindOk.mp listed
      cases Except.ok.inj same
      have plain := (refName valid).2
      intro arg member dash
      simp only [List.mem_cons,List.not_mem_nil,or_false] at member
      rcases member with rfl|rfl|rfl|rfl
      · exact absurd dash (by decide)
      · simp
      · exact absurd dash plain
      · exact absurd dash (by decide)
  | checkout branch =>
    obtain ⟨_,valid,same⟩ := bindOk.mp listed
    cases Except.ok.inj same
    have plain := (refName valid).2
    intro arg member dash
    simp only [List.mem_cons,List.not_mem_nil,or_false] at member
    rcases member with rfl|rfl|rfl
    · exact absurd dash (by decide)
    · exact absurd dash plain
    · simp

structure Sound (s : State) : Prop where
  lists : s.branches = [] ∧ s.remotes = [] ∨ ∃ root, s.target = some root ∧ .listed root s.branches s.remotes ∈ s.log
  chosen : s.remote = [] ∨ s.remote ∈ s.remotes
  single : s.flights.length ≤ 1
  busy : s.busy = true ↔ s.flights ≠ []
  error : ∀ err, s.error = some err → ∃ root op, s.target = some root ∧ .failed root op err ∈ s.log
  earned : ∀ note ∈ s.log, Earned s.log note

theorem earnedMore {log : List Note} (more : List Note) {note : Note} (earned : Earned log note) : Earned (log ++ more) note := by
  cases note with
  | started root op status argv =>
    obtain ⟨shown,permits,listed,rest⟩ := earned
    refine ⟨shown,permits,?_,rest⟩
    cases op with
    | pull => trivial
    | push remote setUpstream =>
      cases setUpstream with
      | false => trivial
      | true =>
        obtain ⟨branches,remotes,member,held⟩ := listed
        exact ⟨branches,remotes,List.mem_append_left _ member,held⟩
    | checkout branch =>
      obtain ⟨branches,remotes,member,held⟩ := listed
      exact ⟨branches,remotes,List.mem_append_left _ member,held⟩
  | failed => trivial
  | refreshed => trivial
  | listed => trivial

theorem earnedAll {log more : List Note} (before : ∀ note ∈ log, Earned log note) (new : ∀ note ∈ more, Earned (log ++ more) note) :
    ∀ note ∈ log ++ more, Earned (log ++ more) note := by
  intro note member
  rcases List.mem_append.mp member with old|added
  · exact earnedMore more (before note old)
  · exact new note added

theorem defaultThere (remotes : List Str) : defaultRemote remotes = [] ∨ defaultRemote remotes ∈ remotes := by
  unfold defaultRemote
  split
  · next origin => exact .inr origin
  · split
    · exact .inr List.mem_cons_self
    · exact .inl rfl

theorem pickedThere (s : State) (branches remotes : List Str) :
    (s.pick branches remotes).remote = [] ∨ (s.pick branches remotes).remote ∈ remotes := by
  unfold State.pick
  simp only
  split
  · next kept => exact .inr kept
  · exact defaultThere remotes

section
variable {s : State}

theorem Sound.select (sound : Sound s) (root : Option Str) : Sound (s.select root) where
  lists := .inl ⟨rfl,rfl⟩
  chosen := pickedThere { s with target := root, error := none } [] []
  single := sound.single
  busy := sound.busy
  error := nofun
  earned := sound.earned

theorem Sound.begin (sound : Sound s) {status : Status} {op : Op} (shown : status.availability = .available) (idle : s.busy = false)
    (permits : Permits status op) (listed : ∀ root, s.target = some root → Listed s.log root op) : Sound (s.begin status op) := by
  unfold State.begin
  split
  · exact sound
  · next root here =>
    have none_ : s.flights = [] := by
      by_contra some_
      have busy := sound.busy.mpr some_
      rw [idle] at busy
      contradiction
    exact {
      lists := by
        rcases sound.lists with empty|⟨other,there,member⟩
        · exact .inl empty
        · exact .inr ⟨other,there,List.mem_append_left _ member⟩
      chosen := sound.chosen
      single := by simp [none_]
      busy := by simp
      error := nofun
      earned := by
        refine earnedAll sound.earned (fun note member => ?_)
        split at member
        · next argv made =>
          rw [List.mem_singleton.mp member]
          refine earnedMore _ ⟨shown,permits,listed root here,made,commandPlain made⟩
        · simp at member }

theorem Sound.settle (sound : Sound s) (root : Str) (op : Op) (failure : Option Failure) : Sound (s.settle root op failure) := by
  cases failure with
  | none => exact sound
  | some err =>
    exact {
      lists := by
        rcases sound.lists with empty|⟨other,there,member⟩
        · exact .inl empty
        · exact .inr ⟨other,there,List.mem_append_left _ member⟩
      chosen := sound.chosen
      single := sound.single
      busy := sound.busy
      error := by
        intro shown same
        simp only [State.settle] at same
        split at same
        · next here =>
          cases Option.some.inj same
          exact ⟨root,op,here,by simp [State.settle]⟩
        · obtain ⟨other,earlier,there,member⟩ := sound.error shown same
          exact ⟨other,earlier,there,List.mem_append_left _ member⟩
      earned := earnedAll sound.earned (fun note member => by rw [List.mem_singleton.mp member]; trivial) }

theorem settleFlights (root : Str) (op : Op) (failure : Option Failure) : (s.settle root op failure).flights = s.flights := by
  cases failure <;> rfl

theorem finishSettled (i : Nat) (root : Str) (op : Op) (outcome : Option Failure) : s.finish i root op outcome =
    let t := s.settle root op (State.failure root op outcome)
    State.listRefs { t with flights := t.flights.eraseIdx i, busy := false, log := t.log ++ [.refreshed t.target] } := by
  unfold State.finish
  cases State.failure root op outcome <;> rfl

theorem Sound.finish (sound : Sound s) {i : Nat} {flight : Str × Op} (at_ : s.flights[i]? = some flight)
    (outcome : Option Failure) : Sound (s.finish i flight.1 flight.2 outcome) := by
  rw [finishSettled]
  have settled := sound.settle flight.1 flight.2 (State.failure flight.1 flight.2 outcome)
  have flights := settleFlights (s := s) flight.1 flight.2 (State.failure flight.1 flight.2 outcome)
  generalize s.settle flight.1 flight.2 (State.failure flight.1 flight.2 outcome) = t at settled flights
  have landed : t.flights.eraseIdx i = [] := by
    have low := (List.getElem?_eq_some_iff.mp at_).1
    have one := sound.single
    rw [flights,← List.length_eq_zero_iff,List.length_eraseIdx_of_lt low]
    omega
  exact {
    lists := by
      rcases settled.lists with empty|⟨other,there,member⟩
      · exact .inl empty
      · exact .inr ⟨other,there,List.mem_append_left _ member⟩
    chosen := settled.chosen
    single := by simp [State.listRefs,landed]
    busy := by simp [State.listRefs,landed]
    error := by
      intro shown same
      obtain ⟨root,op,there,member⟩ := settled.error shown same
      exact ⟨root,op,there,List.mem_append_left _ member⟩
    earned := earnedAll settled.earned (fun note member => by rw [List.mem_singleton.mp member]; trivial) }

theorem Sound.listed (sound : Sound s) (i : Nat) (root : Str) (branches remotes : List Str) :
    Sound (s.listed i root branches remotes) := by
  have earned : ∀ note ∈ s.log ++ [Note.listed root branches remotes], Earned (s.log ++ [.listed root branches remotes]) note :=
    earnedAll sound.earned (fun note member => by rw [List.mem_singleton.mp member]; trivial)
  have error : ∀ err, s.error = some err → ∃ root_ op, s.target = some root_ ∧
      .failed root_ op err ∈ s.log ++ [Note.listed root branches remotes] := by
    intro shown same
    obtain ⟨root,op,there,member⟩ := sound.error shown same
    exact ⟨root,op,there,List.mem_append_left _ member⟩
  unfold State.listed
  simp only
  split
  · next here => exact {
      lists := .inr ⟨root,here,by simp [State.pick]⟩
      chosen := pickedThere _ branches remotes
      single := sound.single
      busy := sound.busy
      error := error
      earned := earned }
  · exact {
      lists := by
        rcases sound.lists with empty|⟨other,there,member⟩
        · exact .inl empty
        · exact .inr ⟨other,there,List.mem_append_left _ member⟩
      chosen := sound.chosen
      single := sound.single
      busy := sound.busy
      error := error
      earned := earned }

theorem unblocked {status : Status} (shown : status.availability = .available) :
    (pullBlockedReason status = none → status.branch.detached = false ∧ status.branch.upstream ≠ []) ∧
    (pushBlockedReason status = none → status.branch.detached = false ∧ status.branch.unborn = false ∧ status.branch.name ≠ []) ∧
    (checkoutBlockedReason status = none → status.branch.unborn = false ∧ isDirty status = false) := by
  refine ⟨?_,?_,?_⟩ <;> intro free
  · unfold pullBlockedReason at free
    split_ifs at free with h1 h2 h3
    · exact absurd shown h1
    · exact ⟨by simpa using h2,h3⟩
  · unfold pushBlockedReason at free
    split_ifs at free with h1 h2 h3 h4
    · exact absurd shown h1
    · exact ⟨by simpa using h3,by simpa using h2,h4⟩
  · unfold checkoutBlockedReason at free
    split_ifs at free with h1 h2 h3
    · exact absurd shown h1
    · exact ⟨by simpa using h2,by simpa using h3⟩

theorem Sound.named (sound : Sound s) {root : Str} (here : s.target = some root) {name : Str} :
    (name ∈ s.branches → Listed s.log root (.checkout name)) ∧ (name ∈ s.remotes → Listed s.log root (.push name true)) := by
  rcases sound.lists with ⟨none_,none'⟩|⟨other,there,member⟩
  · simp [none_,none']
  · cases here.symm.trans there
    exact ⟨fun held => ⟨_,_,member,held⟩,fun held => ⟨_,_,member,held⟩⟩

theorem Sound.step (sound : Sound s) {e : Event} {t : State} (taken : step s e = some t) : Sound t := by
  cases e with
  | select root =>
    simp only [GitControls.step] at taken
    split at taken
    · contradiction
    · cases Option.some.inj taken
      exact sound.select root
  | pull status =>
    simp only [GitControls.step] at taken
    split at taken
    · next free =>
      cases Option.some.inj taken
      exact sound.begin free.1 free.2.1 ((unblocked free.1).1 free.2.2) (fun _ _ => trivial)
    · contradiction
  | push status =>
    simp only [GitControls.step] at taken
    split_ifs at taken with free direct empty
    · cases Option.some.inj taken
      have allowed := (unblocked free.1).2.1 free.2.2
      refine sound.begin free.1 free.2.1 ⟨allowed.1,allowed.2.1,allowed.2.2,?_⟩ (fun _ _ => trivial)
      simp only [needsUpstream,free.1,allowed.1,allowed.2.1] at direct
      simpa [allowed.2.2] using direct
    · cases Option.some.inj taken
      have allowed := (unblocked free.1).2.1 free.2.2
      refine sound.begin free.1 free.2.1 ⟨allowed.1,allowed.2.1,allowed.2.2,?_⟩ (fun root here => ?_)
      · simp only [needsUpstream,free.1,allowed.1,allowed.2.1] at direct
        simpa [allowed.2.2] using direct
      · exact (sound.named here).2 (sound.chosen.resolve_left (not_or.mp empty).2)
  | choose status remote =>
    simp only [GitControls.step] at taken
    split at taken
    · next free =>
      cases Option.some.inj taken
      exact { sound with chosen := .inr free.2.2.2 }
    · contradiction
  | checkout status branch =>
    simp only [GitControls.step] at taken
    split at taken
    · next free =>
      cases Option.some.inj taken
      have allowed := (unblocked free.1.1).2.2 free.1.2.2
      exact sound.begin free.1.1 free.1.2.1 ⟨allowed.1,allowed.2,free.2.2.2⟩ (fun root here => (sound.named here).1 free.2.1)
    · contradiction
  | finish i outcome =>
    obtain ⟨flight,at_,rfl⟩ := Option.map_eq_some_iff.mp taken
    exact sound.finish at_ outcome
  | listed i branches remotes =>
    obtain ⟨root,-,rfl⟩ := Option.map_eq_some_iff.mp taken
    exact sound.listed i root branches remotes
  | remount =>
    cases Option.some.inj taken
    exact { sound with chosen := defaultThere s.remotes }
  | dismissError =>
    cases Option.some.inj taken
    exact { sound with error := nofun }

end

theorem freshSound : Sound fresh where
  lists := .inl ⟨rfl,rfl⟩
  chosen := .inl rfl
  single := by decide
  busy := by decide
  error := nofun
  earned := nofun

theorem controlsSound {s : State} {es : List Event} (run : Run step anyStep fresh es s) : Sound s :=
  run.invariant freshSound (fun _ _ _ sound _ taken => sound.step taken)

def clean (name : Str) : Status := ⟨.available,⟨name,[],0,0,false,false⟩,[]⟩

def published : List Event :=
  [.select (some "/w".toList),.listed 0 ["main".toList,"dev".toList] ["origin".toList],.checkout (clean "main".toList) "dev".toList,
    .finish 0 none,.push (clean "dev".toList),.select (some "/v".toList),.finish 0 (some ⟨[],errInvalidRef⟩)]

def publication : Note := .started "/w".toList (.push "origin".toList true) (clean "dev".toList)
  ["-C".toList,"/w".toList,"push".toList,"--set-upstream".toList,"origin".toList,"HEAD".toList]

theorem publishedSound : ∃ s, Run step anyStep fresh published s ∧ Sound s ∧ s.busy = false ∧ s.error = none ∧
    publication ∈ s.log := by
  have ends : (exec step fresh published).map (fun s => (s.busy,s.error,decide (publication ∈ s.log))) =
      some (false,none,true) := by decide +kernel
  obtain ⟨s,done,same⟩ := Option.map_eq_some_iff.mp ends
  simp only [Prod.mk.injEq,decide_eq_true_eq] at same
  exact ⟨s,runOfExec done,controlsSound (runOfExec done),same⟩

def RefName (name : Str) : Prop := name ≠ [] ∧ ∀ c ∈ name, 0x20 < c.toNat ∧ c.toNat ≠ 0x7f

def output (names : List Str) : Str := names.flatMap (fun name => name ++ ['\n'])

theorem linesRead {names : List Str} (each : ∀ name ∈ names, RefName name) :
    lines (output names) = (names.map trimSpace).filter (fun line => line ≠ []) := by
  have plain : ∀ name ∈ names, '\n' ∉ name := fun name member feed => absurd ((each name member).2 _ feed).1 (by decide)
  rw [lines,output,GoStrings.splitTerminated plain,List.map_append,List.filter_append]
  have empty : ([[]] : List Str).map trimSpace = [[]] := by decide
  simp [empty]

theorem listedName {names : List Str} (each : ∀ name ∈ names, RefName name) {line : Str} (member : line ∈ lines (output names)) :
    RefName line := by
  rw [linesRead each,List.mem_filter,List.mem_map] at member
  obtain ⟨⟨name,held,rfl⟩,some_⟩ := member
  exact ⟨of_decide_eq_true some_,fun c inside => (each name held).2 c ((trimSpaceSublist name).subset inside)⟩

theorem nameValid {name : Str} (ref : RefName name) : validateRef name = .ok () ↔ name.head? ≠ some '-' := by
  constructor
  · exact fun valid => (refName valid).2
  · intro plain
    have marks : name.any (fun c => c.toNat ≤ 0x20 || c.toNat = 0x7f) = false := by
      rw [List.any_eq_false]
      intro c member
      have := ref.2 c member
      simp
      omega
    rw [validateRef,if_neg (not_or.mpr ⟨ref.1,plain⟩),marks]
    rfl

theorem commandChecked {root branch : Str} : command root (.checkout branch) =
    .ok ["-C".toList,root,"checkout".toList,branch,"--".toList] ↔ validateRef branch = .ok () := by
  cases valid : validateRef branch with
  | error err => simp [command,Op.args,valid,wrapping,Except.map,bind,Except.bind]
  | ok _ => simp [command,Op.args,valid,wrapping,Except.map,bind,Except.bind,argv]

theorem branchesOffered {names : List Str} (each : ∀ name ∈ names, RefName name) :
    (lines (output names) = names ↔ ∀ name ∈ names, trimSpace name = name) ∧
    ∀ root, ∀ branch ∈ lines (output names), command root (.checkout branch) =
      .ok ["-C".toList,root,"checkout".toList,branch,"--".toList] ↔ branch.head? ≠ some '-' := by
  refine ⟨⟨fun same name member => ?_,fun trimmed => ?_⟩,fun root branch member => ?_⟩
  · rw [← same,linesRead each,List.mem_filter,List.mem_map] at member
    obtain ⟨⟨other,-,rfl⟩,-⟩ := member
    exact trimSpaceIdem other
  · rw [linesRead each,List.map_congr_left trimmed,List.map_id'',List.filter_eq_self]
    · exact fun name member => by simpa using (each name member).1
    · exact fun _ => rfl
  · rw [commandChecked,nameValid (listedName each member)]

theorem featureOffered : (lines (output ["main".toList,"feature/\u3000".toList]) = ["main".toList,"feature/\u3000".toList] ↔
      ∀ name ∈ ["main".toList,"feature/\u3000".toList], trimSpace name = name) ∧
    lines (output ["main".toList,"feature/\u3000".toList]) = ["main".toList,"feature/".toList] :=
  ⟨(@branchesOffered ["main".toList,"feature/\u3000".toList] (by
    simp [RefName])).1,by decide +kernel⟩

def Dirty : Record → Prop
  | .ordinary x y _ _ => x ≠ '.' ∨ y ≠ '.'
  | .renamed x y _ _ _ => x ≠ '.' ∨ y ≠ '.'
  | .unmerged _ _ _ => True
  | _ => False

theorem stateThere (code : Char) : (lettered code).isSome = true ↔ code ≠ '.' := by
  unfold lettered
  split <;> simp_all

theorem dirtyRecord {record : Record} {tracked : List Str} (about : Differs tracked record) :
    (∃ file, record.file = some file ∧
      (file.conflicted || file.staged.isSome || (file.worktree.isSome && file.worktree ≠ some .untracked)) = true) ↔ Dirty record := by
  cases record with
  | ordinary x y fields path =>
    simp [Record.file,Dirty,stateThere,stateKnown]
  | renamed x y fields path origPath =>
    simp [Record.file,Dirty,stateThere,stateKnown]
  | unmerged xy fields path => simp [Record.file,Dirty]
  | header h => exact about.elim
  | untracked path => exact about.elim
  | unknown text => exact about.elim

def NoCommit (headers : List Header) : Prop :=
  ∃ before after, headers = before ++ .initial :: after ∧ ∀ sha, .oid sha ∉ after

theorem noCommitSnoc {headers : List Header} {h : Header} (other : ∀ sha, h ≠ .oid sha) :
    NoCommit (headers ++ [h]) ↔ h = .initial ∨ NoCommit headers := by
  constructor
  · rintro ⟨before,after,split,later⟩
    rcases splitSnoc split with ⟨rest,rfl,old⟩ | ⟨_,own,_⟩
    · exact Or.inr ⟨before,rest,old,fun sha member => later sha (List.mem_append_left _ member)⟩
    · exact Or.inl own.symm
  · rintro (rfl | ⟨before,after,rfl,later⟩)
    · exact ⟨headers,[],rfl,fun _ => List.not_mem_nil⟩
    · refine ⟨before,after ++ [h],by simp,fun sha member => ?_⟩
      rcases List.mem_append.mp member with old | new
      · exact later sha old
      · exact other sha (List.mem_singleton.mp new).symm

theorem foldUnborn {branch : Branch} (born : branch.unborn = false) (headers : List Header) :
    (headers.foldl Header.fold branch).unborn = true ↔ NoCommit headers := by
  induction headers using List.reverseRecOn with
  | nil =>
    refine iff_of_false (by simp [born]) ?_
    rintro ⟨before,after,split,_⟩
    simp at split
  | append_singleton headers h ih =>
    rw [List.foldl_concat]
    cases h with
    | initial => exact iff_of_true rfl ((noCommitSnoc (by simp)).mpr (Or.inl rfl))
    | oid sha =>
      refine iff_of_false Bool.false_ne_true ?_
      rintro ⟨before,after,split,later⟩
      rcases splitSnoc split with ⟨rest,rfl,_⟩ | ⟨_,own,_⟩
      · exact later sha (List.mem_append_right _ List.mem_cons_self)
      · cases own
    | detached => exact ih.trans (by rw [noCommitSnoc (by simp)]; simp)
    | head name => exact ih.trans (by rw [noCommitSnoc (by simp)]; simp)
    | upstream name => exact ih.trans (by rw [noCommitSnoc (by simp)]; simp)
    | aheadBehind ahead behind => exact ih.trans (by rw [noCommitSnoc (by simp)]; simp)

theorem reportUnborn (w : Worktree) : (parse (encode w.report)).branch.unborn = true ↔ NoCommit w.headers := by
  have plain : ∀ records : List Record, (∀ record ∈ records, ∀ h, record ≠ .header h) →
      ∀ branch, records.foldl Record.branch branch = branch := by
    intro records bare branch
    induction records with
    | nil => rfl
    | cons record records ih =>
      have same : record.branch branch = branch := by
        cases record with
        | header h => exact absurd rfl (bare _ List.mem_cons_self h)
        | ordinary _ _ _ _ | renamed _ _ _ _ _ | unmerged _ _ _ | untracked _ | unknown _ => rfl
      rw [List.foldl_cons,same]
      exact ih (fun other member => bare other (List.mem_cons_of_mem _ member))
  have changes : ∀ record ∈ w.changes, ∀ h, record ≠ .header h := by
    rintro record member h rfl
    exact (w.differs _ member).elim
  have others : ∀ record ∈ w.others.map Record.untracked, ∀ h, record ≠ .header h := by
    rintro record member h rfl
    obtain ⟨_,_,same⟩ := List.mem_map.mp member
    cases same
  rw [parseEncoded w.reportWf,decoded,Worktree.report,List.foldl_append,List.foldl_append,plain _ others,plain _ changes,
    List.foldl_map]
  exact foldUnborn rfl w.headers

theorem switchOffered (w : Worktree) : checkoutBlockedReason (parse (encode w.report)) = none ↔
    ¬NoCommit w.headers ∧ ∀ record ∈ w.changes, ¬Dirty record := by
  have read : (parse (encode w.report)).availability = .available := by rw [parseEncoded w.reportWf]; rfl
  have dirty : isDirty (parse (encode w.report)) = true ↔ ∃ record ∈ w.changes, Dirty record := by
    have others : (w.others.map untrackedFile).any (fun f => f.conflicted || f.staged.isSome ||
        (f.worktree.isSome && f.worktree ≠ some .untracked)) = false := by
      simp [untrackedFile]
    rw [isDirty,reportFiles,List.any_append,others,Bool.or_false,List.any_eq_true]
    constructor
    · rintro ⟨file,member,shows⟩
      obtain ⟨record,listed,known⟩ := List.mem_filterMap.mp member
      exact ⟨record,listed,(dirtyRecord (w.differs record listed)).mp ⟨file,known,shows⟩⟩
    · rintro ⟨record,listed,differs⟩
      obtain ⟨file,known,shows⟩ := (dirtyRecord (w.differs record listed)).mpr differs
      exact ⟨file,List.mem_filterMap.mpr ⟨record,listed,known⟩,shows⟩
  rw [checkoutBlockedReason,if_neg (not_not.mpr read),← reportUnborn]
  by_cases unborn : (parse (encode w.report)).branch.unborn = true
  · simp [unborn]
  · by_cases differs : isDirty (parse (encode w.report)) = true
    · obtain ⟨record,listed,some_⟩ := dirty.mp differs
      simp only [unborn,differs,if_true]
      refine iff_of_false nofun (fun free => free.2 record listed some_)
    · simp only [unborn,differs]
      refine iff_of_true rfl ⟨by simp,fun record listed some_ => differs (dirty.mpr ⟨record,listed,some_⟩)⟩

end M6t.GitControls
