import M6t.Runs
import M6t.Kubectl

/-! The smoke check of the panel: the call is not cancelled when the selection
moves, and its answer is stored without asking what is selected by then. -/
namespace M6t.KubeCheck
open M6t.Text M6t.Runs
open M6t.Kubectl (Result)

structure Selection where
  project : Option Str
  rel : Str
  deriving DecidableEq, Repr

inductive Failure where
  | check (asked : Selection) (message : Str)
  | contexts (message : Str)
  deriving DecidableEq, Repr

/-- `drawn` and `generation` are what the last render was given, `cleared` and `read`
what the effects last ran for; `checks` and `configs` are the calls in flight. -/
structure State where
  drawn : Selection
  generation : Nat
  cleared : Selection
  read : Nat
  result : Option (Selection × Result)
  error : Option Failure
  checking : Bool
  checks : List Selection
  configs : List Nat
  deriving DecidableEq, Repr

def mounted (selection : Selection) : State where
  drawn := selection
  generation := 0
  cleared := selection
  read := 0
  result := none
  error := none
  checking := false
  checks := []
  configs := [0]

namespace State
variable (s : State)

def settled : Prop := s.drawn = s.cleared ∧ s.generation = s.read
instance : Decidable s.settled := inferInstanceAs (Decidable (_ ∧ _))

def clear : State :=
  if s.drawn = s.cleared then s else { s with cleared := s.drawn, result := none, error := none }

def reread : State :=
  if s.generation = s.read then s else { s with read := s.generation, configs := s.configs ++ [s.generation] }

def check : State :=
  match s.drawn.project with
  | none => s
  | some _ => { s with checking := true, error := none, checks := s.checks ++ [s.drawn] }

def answer (i : Nat) (asked : Selection) (reply : Except Str Result) : State :=
  match reply with
  | .ok result => { s with checks := s.checks.eraseIdx i, result := some (asked,result), checking := false }
  | .error message =>
      { s with checks := s.checks.eraseIdx i, result := none, error := some (.check asked message), checking := false }

def config (i asked : Nat) (failure : Option Str) : State :=
  let s' := { s with configs := s.configs.eraseIdx i }
  match failure with
  | none => s'
  | some message => if asked = s.read then { s' with error := some (.contexts message) } else s'

end State

inductive Event where
  | draw (selection : Selection)
  | refresh
  | effects
  | check
  | answer (i : Nat) (reply : Except Str Result)
  | config (i : Nat) (failure : Option Str)

def step (s : State) : Event → Option State
  | .draw selection => if s.settled then some { s with drawn := selection } else none
  | .refresh => if s.settled then some { s with generation := s.generation+1 } else none
  | .effects => some s.clear.reread
  | .check => some s.check
  | .answer i reply => s.checks[i]?.map (fun asked => s.answer i asked reply)
  | .config i failure => s.configs[i]?.map (fun asked => s.config i asked failure)

def About (selection : Selection) (s : State) : Prop :=
  (∀ asked result, s.result = some (asked,result) → asked = selection) ∧
    ∀ asked message, s.error = some (.check asked message) → asked = selection

/-- What is displayed is about the selection drawn, once the effects of that render
have run, and the panel says it is checking exactly while a check is in flight. -/
structure Displays (s : State) : Prop where
  about : s.drawn = s.cleared → About s.drawn s
  checking : s.checking = true ↔ s.checks ≠ []

/-- An answer comes for what is selected, or before the effects that take it down
again, and no other check is in flight. -/
def meets (s : State) : Event → Prop
  | .answer i _ => (∀ asked ∈ s.checks[i]?, asked = s.drawn ∨ s.drawn ≠ s.cleared) ∧ s.checks.length = 1
  | _ => True

instance (s : State) (e : Event) : Decidable (meets s e) :=
  match e with
  | .answer .. => inferInstanceAs (Decidable (_ ∧ _))
  | .draw _ | .refresh | .effects | .check | .config .. => isTrue trivial

section Step
variable {s t : State} {e : Event}

theorem aboutStill {selection : Selection} (about : About selection s) (result : t.result = s.result)
    (error : ∀ asked message, t.error = some (.check asked message) → s.error = some (.check asked message)) :
    About selection t :=
  ⟨fun asked r shown => about.1 asked r (result ▸ shown),fun asked m shown => about.2 asked m (error asked m shown)⟩

theorem displaysDraw (displays : Displays s) (settled : s.settled) (selection : Selection) :
    Displays { s with drawn := selection } := by
  refine ⟨fun same => ?_,displays.checking⟩
  have back : selection = s.drawn := same.trans settled.1.symm
  rw [back]
  exact displays.about settled.1

theorem displaysEffects (displays : Displays s) : Displays s.clear.reread := by
  have cleared : Displays s.clear := by
    unfold State.clear
    split
    · exact displays
    · exact ⟨fun _ => ⟨by simp,by simp⟩,displays.checking⟩
  unfold State.reread
  split
  · exact cleared
  · exact ⟨cleared.about,cleared.checking⟩

theorem displaysCheck (displays : Displays s) : Displays s.check := by
  unfold State.check
  split
  · exact displays
  · exact ⟨fun same => aboutStill (s := s) (displays.about same) rfl (by simp),by simp⟩

theorem displaysConfig (displays : Displays s) (i asked : Nat) (failure : Option Str) :
    Displays (s.config i asked failure) := by
  unfold State.config
  dsimp only
  split
  · exact ⟨displays.about,displays.checking⟩
  · split
    · exact ⟨fun same => aboutStill (s := s) (displays.about same) rfl (by simp),displays.checking⟩
    · exact ⟨displays.about,displays.checking⟩

theorem lastCheck {i : Nat} {asked : Selection} (found : s.checks[i]? = some asked) :
    s.checks.eraseIdx i = [] ↔ s.checks.length = 1 := by
  obtain ⟨inside,_⟩ := List.getElem?_eq_some_iff.mp found
  rw [← List.length_eq_zero_iff,List.length_eraseIdx_of_lt inside]
  omega

theorem answerChecking {i : Nat} {asked : Selection} (found : s.checks[i]? = some asked) (reply : Except Str Result) :
    ((s.answer i asked reply).checking = true ↔ (s.answer i asked reply).checks ≠ []) ↔ s.checks.length = 1 := by
  have spent : (s.answer i asked reply).checking = false ∧ (s.answer i asked reply).checks = s.checks.eraseIdx i := by
    cases reply <;> exact ⟨rfl,rfl⟩
  rw [spent.1,spent.2,← lastCheck found]
  simp only [Bool.false_eq_true,false_iff,not_not]

theorem answerAbout (displays : Displays s) (i : Nat) (asked : Selection) (reply : Except Str Result)
    (same : s.drawn = s.cleared) : About s.drawn (s.answer i asked reply) ↔ asked = s.drawn := by
  cases reply with
  | ok result =>
    constructor
    · exact fun shown => shown.1 asked result rfl
    · intro mine
      refine ⟨fun other r shown => ?_,(displays.about same).2⟩
      cases Option.some.inj shown
      exact mine
  | error message =>
    constructor
    · exact fun shown => shown.2 asked message rfl
    · intro mine
      refine ⟨fun _ _ none => (by cases none),fun other m shown => ?_⟩
      cases Option.some.inj shown
      exact mine

theorem answerDisplays (displays : Displays s) {i : Nat} {asked : Selection} (found : s.checks[i]? = some asked)
    (reply : Except Str Result) :
    Displays (s.answer i asked reply) ↔ (asked = s.drawn ∨ s.drawn ≠ s.cleared) ∧ s.checks.length = 1 := by
  have drawn : (s.answer i asked reply).drawn = s.drawn ∧ (s.answer i asked reply).cleared = s.cleared := by
    cases reply <;> exact ⟨rfl,rfl⟩
  have about := answerAbout displays i asked reply
  constructor
  · intro shown
    refine ⟨?_,(answerChecking found reply).mp shown.checking⟩
    by_cases same : s.drawn = s.cleared
    · have after := shown.about (by rw [drawn.1,drawn.2,same])
      rw [drawn.1] at after
      exact Or.inl ((about same).mp after)
    · exact Or.inr same
  · rintro ⟨mine,one⟩
    refine ⟨fun same => ?_,(answerChecking found reply).mpr one⟩
    rw [drawn.1,drawn.2] at same
    rw [drawn.1]
    exact (about same).mpr (mine.resolve_right (not_not.mpr same))

theorem displaysStep (displays : Displays s) (taken : step s e = some t) : Displays t ↔ meets s e := by
  cases e with
  | draw selection =>
    simp only [step] at taken
    split at taken
    · rename_i settled
      cases Option.some.inj taken
      exact ⟨fun _ => trivial,fun _ => displaysDraw displays settled selection⟩
    · contradiction
  | refresh =>
    simp only [step] at taken
    split at taken
    · cases Option.some.inj taken
      exact ⟨fun _ => trivial,fun _ => ⟨displays.about,displays.checking⟩⟩
    · contradiction
  | effects =>
    cases Option.some.inj taken
    exact ⟨fun _ => trivial,fun _ => displaysEffects displays⟩
  | check =>
    cases Option.some.inj taken
    exact ⟨fun _ => trivial,fun _ => displaysCheck displays⟩
  | answer i reply =>
    obtain ⟨asked,found,rfl⟩ := Option.map_eq_some_iff.mp taken
    rw [answerDisplays displays found reply]
    refine and_congr_left (fun _ => ⟨fun mine other at_ => ?_,fun all => all asked found⟩)
    cases Option.some.inj (found.symm.trans at_)
    exact mine
  | config i failure =>
    obtain ⟨asked,found,rfl⟩ := Option.map_eq_some_iff.mp taken
    exact ⟨fun _ => trivial,fun _ => displaysConfig displays i asked failure⟩

end Step

theorem displaysMounted (selection : Selection) : Displays (mounted selection) :=
  ⟨fun _ => ⟨by simp [mounted],by simp [mounted]⟩,by simp [mounted]⟩

theorem runDisplays {selection : Selection} {es : List Event} {s : State} (run : Run step meets (mounted selection) es s) :
    Displays s ∧ ∀ e t, step s e = some t → (Displays t ↔ meets s e) := by
  have displays := run.invariant (displaysMounted selection) (fun s e t before ok taken => (displaysStep before taken).mpr ok)
  exact ⟨displays,fun _ _ taken => displaysStep displays taken⟩

def dev : Selection := ⟨some "infra".toList,"dev".toList⟩
def prod : Selection := ⟨some "infra".toList,"prod".toList⟩
def version : Result := ⟨["kubectl".toList,"version".toList],0,"v1.31".toList,[]⟩

def moved : List Event := [.check,.draw prod,.effects,.answer 0 (.ok version)]

def twice : List Event := [.check,.check,.answer 0 (.ok version)]

theorem lateAnswer :
    (∃ s, Run step anyStep (mounted dev) moved s ∧ s.drawn = prod ∧ s.result = some (dev,version) ∧ ¬ Displays s) ∧
      ∃ s, Run step anyStep (mounted dev) twice s ∧ s.checking = false ∧ s.checks = [dev] ∧ ¬ Displays s := by
  constructor
  · refine ⟨_,runOfExec rfl,rfl,rfl,fun displays => ?_⟩
    exact absurd ((displays.about rfl).1 dev version rfl) (by decide)
  · refine ⟨_,runOfExec rfl,rfl,rfl,fun displays => ?_⟩
    exact absurd (displays.checking.mpr (by decide)) (by decide)

def kept : List Event := [.check,.answer 0 (.ok version),.draw prod,.effects,.check,.answer 0 (.error "refused".toList)]

theorem keptDisplays : ∃ s, Run step meets (mounted dev) kept s ∧ Displays s := by
  have done : exec (guarded step meets) (mounted dev) kept = some
      { drawn := prod
        generation := 0
        cleared := prod
        read := 0
        result := none
        error := some (.check prod "refused".toList)
        checking := false
        checks := []
        configs := [0] } := by decide
  exact ⟨_,runOfGuarded done,(runDisplays (runOfGuarded done)).1⟩

end M6t.KubeCheck
