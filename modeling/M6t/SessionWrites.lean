import M6t.Workbench
import M6t.SessionFile

/-! Writing the session. A render that finds it changed arms one timer, which hands the
session as it is when it fires to a save; saves land in the file one at a time. -/
namespace M6t.SessionWrites
open M6t.Text M6t.Session M6t.SessionStore M6t.SessionFile M6t.Workbench M6t.Fault M6t.Runs

/-- `called` is every session this launch has handed to a save, oldest first, `calls` those
that have not landed, and `landed` the others with whether the save succeeded. -/
structure Desk (Raw : Type) where
  bench : Bench
  written : State
  armed : Bool
  file : Option Raw
  calls : List State
  called : List State
  landed : List (State × Bool)

inductive Event where
  | bench (e : Workbench.Event)
  | fires
  | lands (i : Nat) (files : Files)
  | quits

variable {Raw : Type}

def opened (file : Option Raw) : Desk Raw := ⟨launch,emptySession,false,file,[],[],[]⟩

section Steps
variable (existingDir : Str → Bool) (marshal : State → Answer Raw) (unmarshal : Raw → Option State) (dir : Str)

def saved (file : Option Raw) : State := load existingDir (file.bind unmarshal)

/-- What the effects of the session do beside the workbench: the load's answer is what was
written, and the recording effect arms the timer, which nothing arms again. -/
def moved (s : Desk Raw) (e : Workbench.Event) (bench : Bench) : Desk Raw :=
  match e with
  | .loadAnswered state => { s with bench, written := state }
  | .effects => if bench.drawn.loaded = none ∨ bench.current = s.written then { s with bench } else { s with bench, armed := true }
  | _ => { s with bench }

def step (s : Desk Raw) : Event → Option (Desk Raw)
  | .bench e => (Workbench.step s.bench e).map (moved s e)
  | .fires =>
    if s.armed = true then
      some { s with
        armed := false
        written := s.bench.current
        calls := s.calls ++ [s.bench.current]
        called := s.called ++ [s.bench.current] }
    else none
  | .lands i files =>
    match s.calls[i]? with
    | none => none
    | some state =>
      let out := save existingDir files marshal dir s.file state
      some { s with
        calls := s.calls.eraseIdx i
        file := out.2
        landed := s.landed ++ [(state,match out.1 with | .ok _ => true | .error _ => false)] }
  | .quits => some (opened s.file)

/-- The session that is loaded is the one in the file, and saves land in the order they were made. -/
def InOrder (s : Desk Raw) : Event → Prop
  | .bench (.loadAnswered state) => state = saved existingDir unmarshal s.file
  | .lands i _ => i = 0
  | _ => True

instance (s : Desk Raw) (e : Event) : Decidable (InOrder existingDir unmarshal s e) :=
  match e with
  | .bench (.loadAnswered state) => inferInstanceAs (Decidable (state = saved existingDir unmarshal s.file))
  | .lands i _ => inferInstanceAs (Decidable (i = 0))
  | .bench .render | .bench .effects | .bench (.listed _) | .bench (.relisted _) | .bench (.select _)
  | .bench (.removeProject _) | .bench (.setWorkspace _) | .bench (.treeMoved _ _) | .bench (.treeListed _)
  | .bench (.editors _) | .bench (.terminals _) | .bench (.hydrated _) | .fires | .quits => isTrue trivial

end Steps

theorem benchDrawn {s t : Bench} {e : Workbench.Event} (taken : Workbench.step s e = some t) :
    (t.drawn = s.drawn ∨ t.drawn = s.view) ∧ (e ≠ .effects → (∀ state, e ≠ .loadAnswered state) → t.current = s.current) ∧
      ((∀ state, e ≠ .loadAnswered state) → t.loaded = s.loaded) := by
  cases e with
  | render =>
    simp only [Workbench.step] at taken
    split at taken
    · cases taken
    · cases taken
      exact ⟨Or.inr rfl,fun _ _ => rfl,fun _ => rfl⟩
  | effects =>
    simp only [Workbench.step] at taken
    split at taken
    · cases taken
      have ran := effectsRan s
      exact ⟨Or.inl ran.drawn,fun other => absurd rfl other,fun _ => ran.loaded⟩
    · cases taken
  | loadAnswered state =>
    simp only [Workbench.step] at taken
    split at taken
    · cases taken
      exact ⟨Or.inl rfl,fun _ other => absurd rfl (other state),fun other => absurd rfl (other state)⟩
    · cases taken
  | treeMoved root tree =>
    obtain ⟨trees,same⟩ := updateTreeOnly s root (fun _ => tree)
    cases taken
    rw [same]
    exact ⟨Or.inl rfl,fun _ _ => rfl,fun _ => rfl⟩
  | treeListed root =>
    obtain ⟨trees,same⟩ := updateTreeOnly s root id
    cases taken
    rw [same]
    exact ⟨Or.inl rfl,fun _ _ => rfl,fun _ => rfl⟩
  | editors call =>
    simp only [Workbench.step] at taken
    split at taken
    · cases taken
    · obtain ⟨editors,_,rfl⟩ := Option.map_eq_some_iff.mp taken
      exact ⟨Or.inl rfl,fun _ _ => rfl,fun _ => rfl⟩
  | terminals call =>
    simp only [Workbench.step] at taken
    split at taken
    · cases taken
    · cases taken
      exact ⟨Or.inl rfl,fun _ _ => rfl,fun _ => rfl⟩
  | hydrated i =>
    simp only [Workbench.step] at taken
    split at taken
    · cases taken
    · obtain ⟨editors,_,rfl⟩ := Option.map_eq_some_iff.mp taken
      exact ⟨Or.inl rfl,fun _ _ => rfl,fun _ => rfl⟩
  | listed list | relisted list | select name | removeProject name | setWorkspace settings =>
    cases taken
    exact ⟨Or.inl rfl,fun _ _ => rfl,fun _ => rfl⟩

theorem benchLoads {s t : Bench} {state : State} (taken : Workbench.step s (.loadAnswered state) = some t) :
    s.loaded = none ∧ t = { s with current := state, workspace := (restoredWorkspace state).settings, loaded := some state } := by
  simp only [Workbench.step] at taken
  split at taken
  · next none_ => exact ⟨none_,(Option.some.inj taken).symm⟩
  · cases taken

section Sound
variable {existingDir : Str → Bool} {marshal : State → Answer Raw} {unmarshal : Raw → Option State} {dir : Str}

structure Sound (existingDir : Str → Bool) (marshal : State → Answer Raw) (unmarshal : Raw → Option State) (s : Desk Raw) :
    Prop where
  drawn : s.bench.drawn.loaded ≠ none → s.bench.loaded ≠ none
  unread : s.bench.loaded = none → s.armed = false ∧ s.called = []
  idle : s.armed = false → s.written = s.bench.current
  last : s.called ≠ [] → s.called.getLast? = some s.written
  fresh : s.called = [] → s.bench.loaded ≠ none → s.written = saved existingDir unmarshal s.file
  order : s.landed.map Prod.fst ++ s.calls = s.called
  held : ∀ state, s.landed.getLast? = some (state,true) →
    ∃ raw, s.file = some raw ∧ marshal (normalize existingDir state) = .ok raw

variable {s : Desk Raw}

theorem openedSound (file : Option Raw) : Sound existingDir marshal unmarshal (opened file) :=
  ⟨fun none_ => absurd rfl none_,fun _ => ⟨rfl,rfl⟩,fun _ => rfl,fun some_ => absurd rfl some_,fun _ there => absurd rfl there,
    rfl,by rintro state ⟨⟩⟩

theorem Sound.loads {t : Bench} {state : State} (sound : Sound existingDir marshal unmarshal s)
    (whole : state = saved existingDir unmarshal s.file) (taken : Workbench.step s.bench (.loadAnswered state) = some t) :
    Sound existingDir marshal unmarshal (moved s (.loadAnswered state) t) := by
  obtain ⟨none_,rfl⟩ := benchLoads taken
  obtain ⟨_,uncalled⟩ := sound.unread none_
  exact ⟨fun _ => Option.some_ne_none _,fun absent => absurd absent (Option.some_ne_none _),fun _ => rfl,
    fun some_ => absurd uncalled some_,fun _ _ => whole,sound.order,sound.held⟩

theorem Sound.recorded {t : Bench} (sound : Sound existingDir marshal unmarshal s)
    (taken : Workbench.step s.bench .effects = some t) : Sound existingDir marshal unmarshal (moved s .effects t) := by
  simp only [Workbench.step] at taken
  split at taken
  · cases taken
    have ran := effectsRan s.bench
    have drawn : (effects s.bench).drawn.loaded ≠ none → (effects s.bench).loaded ≠ none := by
      rw [ran.drawn,ran.loaded]
      exact sound.drawn
    have unread : (effects s.bench).loaded = none → s.armed = false ∧ s.called = [] := by
      rw [ran.loaded]
      exact sound.unread
    have fresh : s.called = [] → (effects s.bench).loaded ≠ none → s.written = saved existingDir unmarshal s.file := by
      rw [ran.loaded]
      exact sound.fresh
    simp only [moved]
    split
    · next same =>
      refine ⟨drawn,unread,fun unarmed => ?_,sound.last,fresh,sound.order,sound.held⟩
      rcases same with waits | same
      · rw [ran.drawn] at waits
        exact (sound.idle unarmed).trans (ran.waiting waits).symm
      · exact same.symm
    · next changed =>
      have read : (effects s.bench).loaded ≠ none := drawn (fun waits => changed (Or.inl waits))
      exact ⟨drawn,fun none_ => absurd none_ read,nofun,sound.last,fresh,sound.order,sound.held⟩
  · cases taken

theorem Sound.worked {t : Bench} {e : Workbench.Event} (sound : Sound existingDir marshal unmarshal s)
    (plain : e ≠ .effects) (loads : ∀ state, e ≠ .loadAnswered state) (taken : Workbench.step s.bench e = some t) :
    Sound existingDir marshal unmarshal { s with bench := t } := by
  obtain ⟨drawn,current,loaded⟩ := benchDrawn taken
  have current := current plain loads
  have loaded := loaded loads
  refine ⟨?_,?_,?_,sound.last,?_,sound.order,sound.held⟩
  · show t.drawn.loaded ≠ none → t.loaded ≠ none
    rw [loaded]
    rcases drawn with same | same
    · rw [same]
      exact sound.drawn
    · rw [same]
      exact id
  · show t.loaded = none → _
    rw [loaded]
    exact sound.unread
  · show s.armed = false → s.written = t.current
    rw [current]
    exact sound.idle
  · show s.called = [] → t.loaded ≠ none → _
    rw [loaded]
    exact sound.fresh

theorem Sound.fired (sound : Sound existingDir marshal unmarshal s) (armed : s.armed = true) :
    Sound existingDir marshal unmarshal { s with
      armed := false
      written := s.bench.current
      calls := s.calls ++ [s.bench.current]
      called := s.called ++ [s.bench.current] } := by
  refine ⟨sound.drawn,fun none_ => ?_,fun _ => rfl,fun _ => List.getLast?_concat,?_,?_,sound.held⟩
  · rw [(sound.unread none_).1] at armed
    cases armed
  · exact fun none_ => absurd none_ (by simp)
  · show s.landed.map Prod.fst ++ (s.calls ++ [s.bench.current]) = s.called ++ [s.bench.current]
    rw [← List.append_assoc,sound.order]

theorem saveHolds {files : Files} {file : Option Raw} {state : State}
    (ok : (save existingDir files marshal dir file state).1 = .ok ()) :
    ∃ raw, (save existingDir files marshal dir file state).2 = some raw ∧ marshal (normalize existingDir state) = .ok raw := by
  unfold save at ok ⊢
  split at ok
  · next raw written => exact ⟨raw,rfl,publishNormal written⟩
  · cases ok

theorem Sound.lands {files : Files} {state : State} {rest : List State} (sound : Sound existingDir marshal unmarshal s)
    (first : s.calls = state :: rest) (t : Desk Raw)
    (taken : step existingDir marshal dir s (.lands 0 files) = some t) : Sound existingDir marshal unmarshal t := by
  simp only [step,first,List.getElem?_cons_zero,List.eraseIdx_cons_zero] at taken
  cases taken
  have called : s.called ≠ [] := by
    rw [← sound.order,first]
    simp
  refine ⟨sound.drawn,sound.unread,sound.idle,sound.last,fun none_ => absurd none_ called,?_,?_⟩
  · have order := sound.order
    rw [first] at order
    simpa using order
  · intro other last
    simp only [List.getLast?_concat,Option.some.injEq,Prod.mk.injEq] at last
    obtain ⟨rfl,ok⟩ := last
    refine @saveHolds _ existingDir marshal dir files s.file _ ?_
    split at ok
    · next answered => exact answered
    · cases ok

theorem Sound.step {e : Event} {t : Desk Raw} (sound : Sound existingDir marshal unmarshal s)
    (allowed : InOrder existingDir unmarshal s e) (taken : SessionWrites.step existingDir marshal dir s e = some t) :
    Sound existingDir marshal unmarshal t := by
  cases e with
  | bench e =>
    obtain ⟨bench,worked,rfl⟩ := Option.map_eq_some_iff.mp taken
    cases e with
    | loadAnswered state => exact sound.loads allowed worked
    | effects => exact sound.recorded worked
    | _ => exact sound.worked (by simp) (by simp) worked
  | fires =>
    simp only [SessionWrites.step] at taken
    split at taken
    · next armed =>
      cases taken
      exact sound.fired armed
    · cases taken
  | lands i files =>
    cases (allowed : i = 0)
    cases waiting : s.calls with
    | nil => simp [SessionWrites.step,waiting] at taken
    | cons state rest => exact sound.lands waiting t taken
  | quits =>
    cases taken
    exact openedSound s.file

end Sound

structure Resting (s : Desk Raw) : Prop where
  loaded : s.bench.loaded ≠ none
  unarmed : s.armed = false
  landed : s.calls = []
  succeeded : ∀ state ok, s.landed.getLast? = some (state,ok) → ok = true

section Runs
variable (existingDir : Str → Bool) (marshal : State → Answer Raw) (unmarshal : Raw → Option State) (dir : Str)

theorem runSound {file : Option Raw} {es : List Event} {s : Desk Raw}
    (run : Run (step existingDir marshal dir) (InOrder existingDir unmarshal) (opened file) es s) :
    Sound existingDir marshal unmarshal s :=
  run.invariant (openedSound file) (fun _ _ _ sound allowed taken => sound.step allowed taken)

theorem restLoads {file : Option Raw} {es : List Event} {s : Desk Raw}
    (codec : ∀ state, RoundTrips marshal unmarshal (normalize existingDir state))
    (run : Run (step existingDir marshal dir) (InOrder existingDir unmarshal) (opened file) es s) :
    (s.armed = false → s.called ≠ [] → s.called.getLast? = some s.bench.current) ∧
    (Resting s →
      saved existingDir unmarshal s.file = if s.called = [] then s.bench.current else normalize existingDir s.bench.current) := by
  have sound := runSound existingDir marshal unmarshal dir run
  refine ⟨fun unarmed some_ => sound.idle unarmed ▸ sound.last some_,fun rest => ?_⟩
  have same : s.written = s.bench.current := sound.idle rest.unarmed
  split
  · next none_ => exact (sound.fresh none_ rest.loaded).symm.trans same
  · next some_ =>
    have order := sound.order
    rw [rest.landed,List.append_nil] at order
    have landing : s.landed ≠ [] := by
      intro none_
      exact some_ (by rw [← order,none_]; rfl)
    obtain ⟨front,⟨state,ok⟩,whole⟩ := (List.eq_nil_or_concat s.landed).resolve_left landing
    have final : s.landed.getLast? = some (state,ok) := by
      rw [whole,List.concat_eq_append,List.getLast?_concat]
    have last := sound.last some_
    rw [← order,List.getLast?_map,final,same] at last
    cases Option.some.inj last
    cases rest.succeeded _ _ final
    obtain ⟨raw,there,marshalled⟩ := sound.held _ final
    have normal := normalForm existingDir s.bench.current
    rw [saved,there,Option.bind_some,codec _ raw marshalled,load,if_neg (by simp [normal.current.version])]
    exact normal.again

end Runs

def plainFiles : Files := ⟨fun _ => .ok (),.ok (),"session.yaml.tmp".toList,.ok (),.ok (),.ok (),.ok ()⟩

def widened : List Event :=
  [.bench .effects,.bench (.loadAnswered emptySession),.bench (.listed [⟨"infra".toList,"/work/infra".toList⟩]),
    .bench .render,.bench .effects,.bench .render,.bench .effects,.fires,.bench (.setWorkspace ⟨14,300,240,320⟩),
    .bench .render,.lands 0 plainFiles,.bench .effects,.fires,.lands 0 plainFiles]

theorem widenedLoads : ∃ s : Desk State,
    Run (step (fun _ => true) .ok "/cfg".toList) (InOrder (fun _ => true) some) (opened none) widened s ∧
      s.bench.current.sidebar = 300 ∧ Resting s ∧
      saved (fun _ => true) some s.file = normalize (fun _ => true) s.bench.current := by
  have ends : (exec (guarded (step (fun _ => true) .ok "/cfg".toList) (InOrder (fun _ => true) some)) (opened none : Desk State)
      widened).map (fun s => decide (s.bench.current.sidebar = 300 ∧ s.bench.loaded ≠ none ∧ s.armed = false ∧
        s.calls = [] ∧ s.called ≠ [] ∧ s.landed.map Prod.snd = [true,true])) = some true := by decide +kernel
  obtain ⟨s,done,seen⟩ := Option.map_eq_some_iff.mp ends
  obtain ⟨wide,loaded,unarmed,landed,some_,answers⟩ := of_decide_eq_true seen
  have run := runOfGuarded done
  have rest : Resting s := by
    refine ⟨loaded,unarmed,landed,fun state ok last => ?_⟩
    have final := List.getLast?_map ▸ congrArg List.getLast? answers
    rw [last] at final
    cases final
    rfl
  have whole := (restLoads (fun _ => true) .ok some "/cfg".toList (fun _ _ same => by cases same; rfl) run).2 rest
  exact ⟨s,run,wide,rest,whole.trans (if_neg some_)⟩

end M6t.SessionWrites
