import M6t.Runs
import M6t.KubeBinding
import M6t.Records

/-! The two answers the panel shows of one selection: the binding, asked for again
when the folder moves or the panel is refreshed, and the health, asked for again
when the file moves or an event arrives. A write of a binding refreshes only the
first. -/
namespace M6t.PanelHealth
open M6t.Text M6t.SlashPath M6t.Runs M6t.KubeBinding

structure Record where
  path : Str
  kube : Kube
  deriving DecidableEq, Repr

def scopeOf (rel : Str) : Str :=
  let normalized := (replaceChar '\\' '/' rel).rdropWhile (· = '/')
  (split normalized).1.dropLast

structure Selection where
  project : Option Str
  file : Option Str
  deriving DecidableEq, Repr

def Selection.folder (selection : Selection) : Str :=
  match selection.file with
  | none => []
  | some file => scopeOf file

def Selection.asking (selection : Selection) : Option Str :=
  match selection.file with
  | none => none
  | some _ => selection.project

def UNBOUND : Binding := ⟨[],[],false,[]⟩

structure BindingCall where
  name : Str
  rel : Str
  reply : Option (Except Str Binding)

structure HealthCall where
  name : Str
  rel : Str
  reply : Option (Except Str (Str × Str))

/-- `effected` and `read` are what the effects last ran for, `superseded` the binding
calls whose answers are dropped. A snapshot is known by the context and the
namespace it was produced for. -/
structure State where
  records : List (Str × Record)
  drawn : Selection
  generation : Nat
  effected : Selection
  read : Nat
  binding : Binding
  bindingCall : Option BindingCall
  superseded : Nat
  target : Option Str × Str
  snapshot : Option (Str × Str)
  error : Option Str
  healthCall : Option HealthCall
  stale : Bool
  writes : Nat
  events : List Str

def start (records : List (Str × Record)) : State where
  records := records
  drawn := ⟨none,none⟩
  generation := 0
  effected := ⟨none,none⟩
  read := 0
  binding := UNBOUND
  bindingCall := none
  superseded := 0
  target := (none,[])
  snapshot := none
  error := none
  healthCall := none
  stale := false
  writes := 0
  events := []

def missingMessage : Str := "project not found".toList

namespace State
variable (s : State)

def resolveBinding (name rel : Str) (fault : Option Str) : Except Str Binding :=
  match fault with
  | some message => .error message
  | none =>
      match s.records.lookup name with
      | none => .error missingMessage
      | some record => .ok (record.kube.resolve rel)

def kubeHealth (name rel : Str) (fault : Option Str) : Except Str (Str × Str) :=
  (s.resolveBinding name rel fault).map (fun binding => (binding.context,binding.ns))

def turn : State :=
  match s.target.1 with
  | none => { s with stale := false, healthCall := none }
  | some name => { s with stale := false, healthCall := some ⟨name,s.target.2,none⟩ }

def readHealth : State :=
  match s.healthCall with
  | some _ => { s with stale := true }
  | none => s.turn

def bindingEffect : State :=
  if (s.drawn.project,s.drawn.folder,s.generation) = (s.effected.project,s.effected.folder,s.read) then s
  else
    let s := { s with superseded := s.superseded + if s.bindingCall.isSome then 1 else 0 }
    match s.drawn.project with
    | none => { s with binding := UNBOUND, bindingCall := none }
    | some name => { s with bindingCall := some ⟨name,s.drawn.folder,none⟩ }

def healthEffect : State :=
  if (s.drawn.asking,s.drawn.file) = (s.effected.asking,s.effected.file) then s
  else
    let s := { s with target := (s.drawn.asking,s.drawn.file.getD []), snapshot := none, error := none }
    match s.drawn.asking with
    | none => s
    | some _ => s.readHealth

def effects : State :=
  let s := s.bindingEffect.healthEffect
  { s with effected := s.drawn, read := s.generation }

def bindingAnswer (reply : Except Str Binding) : State :=
  match reply with
  | .ok binding => { s with binding := binding, bindingCall := none }
  | .error _ => { s with binding := UNBOUND, bindingCall := none }

/-- The answer is published if the target has not moved, and the loop turns once more
if anything asked meanwhile. -/
def healthAnswer (call : HealthCall) (reply : Except Str (Str × Str)) : State :=
  let published :=
    if s.target = (some call.name,call.rel) then
      match reply with
      | .ok produced => { s with snapshot := some produced, error := none }
      | .error message => { s with error := some message }
    else s
  if s.stale then published.turn else { published with healthCall := none }

def root : Option Str := (s.effected.project.bind (fun name => s.records.lookup name)).map Record.path

def write (name : Str) (kube : Kube) : State :=
  { s with
    records := s.records.map (fun e => if e.1 = name then (e.1,{ e.2 with kube := kube }) else e)
    writes := s.writes+1 }

end State

inductive Event where
  | draw (selection : Selection)
  | effects
  | serveBinding (fault : Option Str)
  | bindingAnswer
  | dropped
  | serveHealth (fault : Option Str)
  | healthAnswer
  | refresh
  | write (name : Str) (kube : Kube)
  | written
  | emit (root : Str)
  | event

def step (s : State) : Event → Option State
  | .draw selection => if s.drawn = s.effected ∧ s.generation = s.read then some { s with drawn := selection } else none
  | .effects => some s.effects
  | .serveBinding fault =>
      match s.bindingCall with
      | some ⟨name,rel,none⟩ => some { s with bindingCall := some ⟨name,rel,some (s.resolveBinding name rel fault)⟩ }
      | _ => none
  | .bindingAnswer =>
      match s.bindingCall with
      | some ⟨_,_,some reply⟩ => some (s.bindingAnswer reply)
      | _ => none
  | .dropped => if s.superseded = 0 then none else some { s with superseded := s.superseded-1 }
  | .serveHealth fault =>
      match s.healthCall with
      | some ⟨name,rel,none⟩ => some { s with healthCall := some ⟨name,rel,some (s.kubeHealth name rel fault)⟩ }
      | _ => none
  | .healthAnswer =>
      match s.healthCall with
      | some ⟨name,rel,some reply⟩ => some (s.healthAnswer ⟨name,rel,some reply⟩ reply)
      | _ => none
  | .refresh => some s.readHealth
  | .write name kube => if (s.records.lookup name).isSome then some (s.write name kube) else none
  | .written => if s.writes = 0 then none else some { s with writes := s.writes-1, generation := s.generation+1 }
  | .emit root => some { s with events := s.events ++ [root] }
  | .event =>
      match s.events with
      | [] => none
      | changed :: rest =>
          let s := { s with events := rest }
          if s.root = some changed then some s.readHealth else some s

structure Quiet (s : State) : Prop where
  drawn : s.drawn = s.effected
  generation : s.generation = s.read
  binding : s.bindingCall = none
  superseded : s.superseded = 0
  health : s.healthCall = none
  writes : s.writes = 0
  events : s.events = []

def Agrees (s : State) : Prop := ∀ produced, s.snapshot = some produced → produced = (s.binding.context,s.binding.ns)

def State.record (s : State) (selection : Selection) : Option Record :=
  selection.project.bind (fun name => s.records.lookup name)

def FileAsFolder (kube : Kube) (selection : Selection) : Prop :=
  ∀ file ∈ selection.file, (kube.resolve (scopeOf file)).SameTarget (kube.resolve file)

def targetAt (kube : Kube) (file : Str) : Str × Str := ((kube.resolve file).context,(kube.resolve file).ns)

def State.pair (s : State) : Option (Str × Str) :=
  match s.effected.file with
  | none => none
  | some file => (s.record s.effected).map (fun record => targetAt record.kube file)

def State.queued (s : State) : Prop :=
  s.healthCall.isSome ∧ s.stale = true ∨ ∃ root ∈ s.events, s.root = some root

def State.mine (s : State) (call : HealthCall) : Prop := s.target = (some call.name,call.rel)

def HealthCall.brings (call : HealthCall) : Option (Str × Str) :=
  match call.reply with
  | some (.ok produced) => some produced
  | _ => none

def State.rereads (s : State) : Prop :=
  s.queued ∨ (∃ call ∈ s.healthCall, s.mine call ∧ call.reply.isNone) ∨
    (s.snapshot = none ∧ ∀ call ∈ s.healthCall, s.mine call → call.brings = none)

def State.moving (s : State) : Prop := (s.drawn.asking,s.drawn.file) ≠ (s.effected.asking,s.effected.file)

/-- A write that aims the file elsewhere comes while its health is still to be read,
and the calls find the registry and the project. -/
def meets (s : State) : Event → Prop
  | .draw selection => ∀ record ∈ s.record selection, FileAsFolder record.kube selection
  | .write name kube => s.drawn.project = some name →
      FileAsFolder kube s.drawn ∧
        (s.moving ∨ s.rereads ∨
          ∀ record ∈ s.record s.drawn, ∀ file ∈ s.drawn.file, targetAt kube file = targetAt record.kube file)
  | .serveBinding fault => ∀ call ∈ s.bindingCall, fault = none ∧ (s.records.lookup call.name).isSome
  | .serveHealth fault => ∀ call ∈ s.healthCall, s.mine call →
      (fault = none ∧ (s.records.lookup call.name).isSome) ∨ s.queued ∨ ∀ produced ∈ s.snapshot, s.pair = some produced
  | _ => True

instance (kube : Kube) (selection : Selection) : Decidable (FileAsFolder kube selection) :=
  inferInstanceAs (Decidable (∀ file ∈ selection.file, _))
instance (s : State) : Decidable s.queued := inferInstanceAs (Decidable (_ ∨ _))
instance (s : State) (call : HealthCall) : Decidable (s.mine call) := inferInstanceAs (Decidable (_ = _))
instance (s : State) : Decidable s.rereads := inferInstanceAs (Decidable (_ ∨ _ ∨ _))
instance (s : State) : Decidable s.moving := inferInstanceAs (Decidable (_ ≠ _))

instance (s : State) (e : Event) : Decidable (meets s e) :=
  match e with
  | .draw _ => inferInstanceAs (Decidable (∀ record ∈ _, _))
  | .write .. => inferInstanceAs (Decidable (_ → _))
  | .serveBinding _ => inferInstanceAs (Decidable (∀ call ∈ _, _))
  | .serveHealth _ => inferInstanceAs (Decidable (∀ call ∈ _, _))
  | .effects | .bindingAnswer | .dropped | .healthAnswer | .refresh | .written | .emit _ | .event => isTrue trivial

inductive Moves (s : State) : Event → State → Prop where
  | draws {selection : Selection} (settled : s.drawn = s.effected ∧ s.generation = s.read) :
      Moves s (.draw selection) { s with drawn := selection }
  | effects : Moves s .effects s.effects
  | servesBinding {name rel : Str} {fault : Option Str} (here : s.bindingCall = some ⟨name,rel,none⟩) :
      Moves s (.serveBinding fault) { s with bindingCall := some ⟨name,rel,some (s.resolveBinding name rel fault)⟩ }
  | answersBinding {name rel : Str} {reply : Except Str Binding} (here : s.bindingCall = some ⟨name,rel,some reply⟩) :
      Moves s .bindingAnswer (s.bindingAnswer reply)
  | drops : Moves s .dropped { s with superseded := s.superseded-1 }
  | servesHealth {name rel : Str} {fault : Option Str} (here : s.healthCall = some ⟨name,rel,none⟩) :
      Moves s (.serveHealth fault) { s with healthCall := some ⟨name,rel,some (s.kubeHealth name rel fault)⟩ }
  | answersHealth {name rel : Str} {reply : Except Str (Str × Str)} (here : s.healthCall = some ⟨name,rel,some reply⟩) :
      Moves s .healthAnswer (s.healthAnswer ⟨name,rel,some reply⟩ reply)
  | refreshes : Moves s .refresh s.readHealth
  | writes {name : Str} {kube : Kube} : Moves s (.write name kube) (s.write name kube)
  | written (pending : s.writes ≠ 0) : Moves s .written { s with writes := s.writes-1, generation := s.generation+1 }
  | emits {root : Str} : Moves s (.emit root) { s with events := s.events ++ [root] }
  | hears {changed : Str} {rest : List Str} (events : s.events = changed :: rest) :
      Moves s .event ({ s with events := rest } : State).readHealth
  | ignores {changed : Str} {rest : List Str} (events : s.events = changed :: rest) (other : s.root ≠ some changed) :
      Moves s .event { s with events := rest }

theorem stepMoves {s t : State} {e : Event} (taken : step s e = some t) : Moves s e t := by
  cases e with
  | draw selection =>
    simp only [step] at taken
    split at taken <;> cases taken
    exact .draws (by assumption)
  | effects => cases taken; exact .effects
  | serveBinding fault =>
    simp only [step] at taken
    split at taken <;> cases taken
    exact .servesBinding (by assumption)
  | bindingAnswer =>
    simp only [step] at taken
    split at taken <;> cases taken
    exact .answersBinding (by assumption)
  | dropped =>
    simp only [step] at taken
    split at taken <;> cases taken
    exact .drops
  | serveHealth fault =>
    simp only [step] at taken
    split at taken <;> cases taken
    exact .servesHealth (by assumption)
  | healthAnswer =>
    simp only [step] at taken
    split at taken <;> cases taken
    exact .answersHealth (by assumption)
  | refresh => cases taken; exact .refreshes
  | write name kube =>
    simp only [step] at taken
    split at taken <;> cases taken
    exact .writes
  | written =>
    simp only [step] at taken
    split at taken <;> cases taken
    exact .written (by assumption)
  | emit root => cases taken; exact .emits
  | event =>
    simp only [step] at taken
    split at taken
    · contradiction
    · next events =>
      split at taken <;> cases taken
      · exact .hears events
      · exact .ignores events (by assumption)

def State.due (s : State) : Prop :=
  s.queued ∨ ∃ call ∈ s.healthCall, s.mine call ∧ (call.reply = none ∨ call.brings ≠ none)

structure HealthTrue (s : State) : Prop where
  target : s.target = (s.effected.asking,s.effected.file.getD [])
  blank : s.effected.asking = none → s.snapshot = none
  held : ¬ s.moving → ∀ produced, s.snapshot = some produced → s.pair = some produced ∨ s.due
  coming : ¬ s.moving → ∀ call, s.healthCall = some call → s.mine call → ∀ produced, call.brings = some produced →
    s.pair = some produced ∨ s.queued

section Health
variable {s t : State}

theorem mineAsking (target : s.target = (s.effected.asking,s.effected.file.getD [])) {call : HealthCall}
    (mine : s.mine call) : s.effected.asking = some call.name ∧ s.effected.file.getD [] = call.rel :=
  Prod.mk.inj (target.symm.trans mine)

theorem healthTurn (target : s.target = (s.effected.asking,s.effected.file.getD []))
    (blank : s.effected.asking = none → s.snapshot = none) : HealthTrue s.turn := by
  have first : s.target.1 = s.effected.asking := by rw [target]
  unfold State.turn
  cases asking : s.target.1 with
  | none =>
    have empty := blank (first.symm.trans asking)
    exact ⟨target,blank,fun _ _ shown => by simp [empty] at shown,fun _ _ none => by simp at none⟩
  | some name =>
    refine ⟨target,blank,fun _ produced shown => Or.inr (Or.inr ⟨⟨name,s.target.2,none⟩,rfl,?_,Or.inl rfl⟩),?_⟩
    · exact Prod.ext asking rfl
    · intro _ call here _ produced brings
      cases Option.some.inj here
      simp [HealthCall.brings] at brings

theorem healthRead (target : s.target = (s.effected.asking,s.effected.file.getD []))
    (blank : s.effected.asking = none → s.snapshot = none) : HealthTrue s.readHealth := by
  unfold State.readHealth
  split
  · rename_i call here
    have queued : ({ s with stale := true } : State).queued := Or.inl ⟨by simp [here],rfl⟩
    exact ⟨target,blank,fun _ _ _ => Or.inr (Or.inl queued),fun _ _ _ _ _ _ => Or.inr queued⟩
  · exact healthTurn target blank

theorem healthIdle (target : s.target = (s.effected.asking,s.effected.file.getD []))
    (none_ : s.effected.asking = none) (empty : s.snapshot = none) : HealthTrue s := by
  refine ⟨target,fun _ => empty,fun _ _ shown => by simp [empty] at shown,fun _ call _ mine => ?_⟩
  have asked := (mineAsking target mine).1
  simp [none_] at asked

theorem publishedTarget (call : HealthCall) (reply : Except Str (Str × Str))
    (target : s.target = (s.effected.asking,s.effected.file.getD []))
    (blank : s.effected.asking = none → s.snapshot = none) :
    HealthTrue (s.healthAnswer call reply) ∨ s.stale = false := by
  by_cases waiting : s.stale
  · refine Or.inl ?_
    unfold State.healthAnswer
    dsimp only
    rw [if_pos waiting]
    split
    · rename_i mine
      have asked := (mineAsking target mine).1
      split
      · exact healthTurn target (fun none => by simp [asked] at none)
      · exact healthTurn target blank
    · exact healthTurn target blank
  · exact Or.inr (by simpa using waiting)

theorem queuedLater (once : s.stale = false) (queued : s.queued) : ∃ root ∈ s.events, s.root = some root := by
  rcases queued with ⟨_,waiting⟩ | later
  · rw [once] at waiting
    contradiction
  · exact later

theorem healthAnswered (health : HealthTrue s) {name rel : Str} {reply : Except Str (Str × Str)}
    (here : s.healthCall = some ⟨name,rel,some reply⟩) : HealthTrue (s.healthAnswer ⟨name,rel,some reply⟩ reply) := by
  rcases publishedTarget ⟨name,rel,some reply⟩ reply health.target health.blank with settled | once
  · exact settled
  · unfold State.healthAnswer
    dsimp only
    rw [if_neg (by simp [once])]
    split
    · rename_i mine
      have asked := (mineAsking health.target (show s.mine ⟨name,rel,some reply⟩ from mine)).1
      split
      · rename_i produced
        refine ⟨health.target,fun none => by simp [asked] at none,fun still p shown => ?_,fun _ _ none => by simp at none⟩
        cases Option.some.inj shown
        refine (health.coming still _ here mine produced rfl).imp id (fun queued => ?_)
        have later := queuedLater once queued
        exact Or.inl (Or.inr later)
      · rename_i message
        refine ⟨health.target,health.blank,fun still p shown => ?_,fun _ _ none => by simp at none⟩
        refine (health.held still p shown).imp id (fun due => Or.inl (Or.inr ?_))
        rcases due with queued | ⟨call,at_,_,unread | brings⟩
        · have later := queuedLater once queued
          exact later
        · cases Option.some.inj (here.symm.trans at_)
          contradiction
        · cases Option.some.inj (here.symm.trans at_)
          exact absurd rfl brings
    · rename_i other
      refine ⟨health.target,health.blank,fun still p shown => ?_,fun _ _ none => by simp at none⟩
      refine (health.held still p shown).imp id (fun due => Or.inl (Or.inr ?_))
      rcases due with queued | ⟨call,at_,mine,_⟩
      · have later := queuedLater once queued
        exact later
      · cases Option.some.inj (here.symm.trans at_)
        exact absurd mine other

theorem pairOf {call : HealthCall} (target : s.target = (s.effected.asking,s.effected.file.getD []))
    (mine : s.mine call) {record : Record} (found : s.records.lookup call.name = some record) :
    s.pair = some (targetAt record.kube call.rel) := by
  obtain ⟨asked,rel⟩ := mineAsking target mine
  cases file : s.effected.file with
  | none => simp [Selection.asking,file] at asked
  | some path =>
    have project : s.effected.project = some call.name := by simpa [Selection.asking,file] using asked
    have same : path = call.rel := by simpa [file] using rel
    simp [State.pair,file,State.record,project,found,same]

theorem healthServed (health : HealthTrue s) {name rel : Str} {fault : Option Str}
    (here : s.healthCall = some ⟨name,rel,none⟩) (ok : meets s (.serveHealth fault)) :
    HealthTrue { s with healthCall := some ⟨name,rel,some (s.kubeHealth name rel fault)⟩ } := by
  have answered : ({ s with healthCall := some ⟨name,rel,some (s.kubeHealth name rel fault)⟩ } : State).queued ↔ s.queued := by
    simp [State.queued,here,State.root]
  refine ⟨health.target,health.blank,fun still p shown => ?_,fun still call at_ mine p brings => ?_⟩
  · rcases health.held still p shown with same | queued | ⟨call,at_,mine,_⟩
    · exact Or.inl same
    · exact Or.inr (Or.inl (answered.mpr queued))
    · cases Option.some.inj (here.symm.trans at_)
      rcases ok _ here mine with ⟨rfl,known⟩ | queued | kept
      · obtain ⟨record,found⟩ := Option.isSome_iff_exists.mp known
        refine Or.inr (Or.inr ⟨_,rfl,mine,Or.inr ?_⟩)
        simp [HealthCall.brings,State.kubeHealth,State.resolveBinding,found,Except.map]
      · exact Or.inr (Or.inl (answered.mpr queued))
      · exact Or.inl (kept p shown)
  · cases Option.some.inj at_
    refine Or.inl ?_
    cases fault with
    | some message => simp [HealthCall.brings,State.kubeHealth,State.resolveBinding,Except.map] at brings
    | none =>
      cases found : s.records.lookup name with
      | none => simp [HealthCall.brings,State.kubeHealth,State.resolveBinding,found,Except.map] at brings
      | some record =>
        have pair : s.pair = some (targetAt record.kube rel) := pairOf health.target mine found
        have produced : targetAt record.kube rel = p := by
          simpa [HealthCall.brings,State.kubeHealth,State.resolveBinding,found,Except.map,targetAt] using brings
        exact pair.trans (congrArg some produced)

theorem lookupWrite (records : List (Str × Record)) (name other : Str) (kube : Kube) :
    (records.map (fun e => if e.1 = name then (e.1,{ e.2 with kube := kube }) else e)).lookup other =
      (records.lookup other).map (fun record => if other = name then { record with kube := kube } else record) :=
  Records.lookupEdited records (fun record => { record with kube := kube }) name other

theorem writeRoot (name : Str) (kube : Kube) : (s.write name kube).root = s.root := by
  unfold State.root State.write
  cases s.effected.project with
  | none => rfl
  | some project =>
    simp only [Option.bind_some,lookupWrite,Option.map_map]
    congr 1
    funext record
    simp only [Function.comp_apply]
    split <;> rfl

theorem writeQueued (name : Str) (kube : Kube) : (s.write name kube).queued ↔ s.queued := by
  simp only [State.queued,writeRoot]
  rfl

theorem healthSame (health : HealthTrue s) (target : t.target = s.target) (effected : t.effected = s.effected)
    (snapshot : t.snapshot = s.snapshot) (call : t.healthCall = s.healthCall) (drawn : t.drawn = s.drawn)
    (queued : t.queued ↔ s.queued) (pair : s.effected.asking ≠ none → t.pair = s.pair) : HealthTrue t := by
  have mine : ∀ call, t.mine call ↔ s.mine call := fun call => by rw [State.mine,State.mine,target]
  have moving : t.moving ↔ s.moving := by rw [State.moving,State.moving,drawn,effected]
  have due : t.due ↔ s.due := by simp only [State.due,queued,call,mine]
  by_cases none_ : s.effected.asking = none
  · exact healthIdle (by rw [target,effected,health.target]) (by rw [effected,none_]) (by rw [snapshot,health.blank none_])
  · have pair := pair none_
    refine ⟨by rw [target,effected,health.target],fun none => ?_,?_,?_⟩
    · rw [effected] at none
      exact absurd none none_
    · rw [moving,snapshot,pair,due]
      exact health.held
    · rw [moving,call,pair,queued]
      simp only [mine]
      exact health.coming

theorem askingParts {selection : Selection} {name : Str} (asking : selection.asking = some name) :
    selection.project = some name ∧ ∃ file, selection.file = some file := by
  cases file : selection.file with
  | none => simp [Selection.asking,file] at asking
  | some path => exact ⟨by simpa [Selection.asking,file] using asking,path,rfl⟩

theorem healthWrite (health : HealthTrue s) {name : Str} {kube : Kube} (ok : meets s (.write name kube)) :
    HealthTrue (s.write name kube) := by
  have queued := writeQueued (s := s) name kube
  cases asking : s.effected.asking with
  | none => exact healthIdle health.target asking (health.blank asking)
  | some project =>
    obtain ⟨owner,file,here⟩ := askingParts asking
    by_cases moving : s.moving
    · exact ⟨health.target,health.blank,fun still => absurd moving still,fun still => absurd moving still⟩
    · obtain ⟨drawn,path⟩ := Prod.mk.inj (not_not.mp moving)
      have also := (askingParts (drawn.trans asking)).1
      have pair : (s.write name kube).pair = (s.records.lookup project).map
          (fun record => targetAt (if project = name then { record with kube := kube } else record).kube file) := by
        simp only [State.pair,State.record,State.write,here,owner,Option.bind_some,lookupWrite,Option.map_map]
        rfl
      have before : s.pair = (s.records.lookup project).map (fun record => targetAt record.kube file) := by
        simp only [State.pair,State.record,here,owner,Option.bind_some]
      by_cases same : project = name
      · rcases (ok (same ▸ also)).2 with h | rereads | unmoved
        · exact absurd h moving
        · refine ⟨health.target,health.blank,fun _ produced shown => Or.inr ?_,
            fun _ call at_ mine produced brings => Or.inr ?_⟩
          · rcases rereads with later | ⟨call,at_,mine,unread⟩ | ⟨none,_⟩
            · exact Or.inl (queued.mpr later)
            · exact Or.inr ⟨call,at_,mine,Or.inl (Option.isNone_iff_eq_none.mp unread)⟩
            · have shown : s.snapshot = some produced := shown
              simp [none] at shown
          · rcases rereads with later | ⟨other,there,_,unread⟩ | ⟨_,none⟩
            · exact queued.mpr later
            · cases Option.some.inj (at_.symm.trans there)
              simp [HealthCall.brings,Option.isNone_iff_eq_none.mp unread] at brings
            · simp [none call at_ mine] at brings
        · refine healthSame health rfl rfl rfl rfl rfl queued (fun _ => ?_)
          rw [pair,before]
          cases found : s.records.lookup project with
          | none => rfl
          | some record =>
            have unmoved := unmoved record (by simp [State.record,also,found]) file (path.trans here)
            simp [same,unmoved]
      · refine healthSame health rfl rfl rfl rfl rfl queued (fun _ => ?_)
        rw [pair,before]
        simp [same]

theorem healthDraw (health : HealthTrue s) (settled : s.drawn = s.effected) (selection : Selection) :
    HealthTrue { s with drawn := selection } := by
  have still : ¬ s.moving := by simp [State.moving,settled]
  exact ⟨health.target,health.blank,fun _ => health.held still,fun _ => health.coming still⟩

theorem healthEvent (health : HealthTrue s) {changed : Str} {rest : List Str} (events : s.events = changed :: rest)
    (other : s.root ≠ some changed) : HealthTrue { s with events := rest } := by
  refine healthSame health rfl rfl rfl rfl rfl ?_ (fun _ => rfl)
  have root : ({ s with events := rest } : State).root = s.root := rfl
  simp only [State.queued,root,events,List.mem_cons,exists_eq_or_imp,other,false_or]

def State.seen (s : State) : State := { s with effected := s.drawn, read := s.generation }

theorem seenRead (s : State) : s.readHealth.seen = s.seen.readHealth := by
  unfold State.readHealth State.turn State.seen
  dsimp only
  split
  · rfl
  · split <;> rfl

theorem healthEffects (health : HealthTrue s) : HealthTrue s.healthEffect.seen := by
  unfold State.healthEffect
  by_cases same : (s.drawn.asking,s.drawn.file) = (s.effected.asking,s.effected.file)
  · rw [if_pos same]
    obtain ⟨asking,file⟩ := Prod.mk.inj same
    have target : s.seen.target = (s.seen.effected.asking,s.seen.effected.file.getD []) := by
      show s.target = (s.drawn.asking,s.drawn.file.getD [])
      rw [asking,file]
      exact health.target
    cases asks : s.effected.asking with
    | none => exact healthIdle target (asking.trans asks) (health.blank asks)
    | some name =>
      have owner := (askingParts (asking.trans asks)).1.trans (askingParts asks).1.symm
      have drawn : s.drawn = s.effected := by
        cases h : s.drawn
        cases k : s.effected
        simp_all
      have kept : s.seen = { s with read := s.generation } := by rw [State.seen,drawn]
      rw [kept]
      exact ⟨health.target,health.blank,health.held,health.coming⟩
  · rw [if_neg same]
    dsimp only
    split
    · rename_i none
      exact healthIdle rfl none rfl
    · rw [seenRead]
      exact healthRead rfl (fun _ => rfl)

theorem healthBindingEffect (health : HealthTrue s) : HealthTrue s.bindingEffect := by
  unfold State.bindingEffect
  split
  · exact health
  · dsimp only
    split <;> exact ⟨health.target,health.blank,health.held,health.coming⟩

theorem healthStep {e : Event} (health : HealthTrue s) (ok : meets s e) (moved : Moves s e t) : HealthTrue t := by
  cases moved with
  | draws settled => exact healthDraw health settled.1 _
  | effects => exact healthEffects (healthBindingEffect health)
  | servesBinding | drops | written => exact ⟨health.target,health.blank,health.held,health.coming⟩
  | answersBinding =>
    unfold State.bindingAnswer
    split <;> exact ⟨health.target,health.blank,health.held,health.coming⟩
  | servesHealth here => exact healthServed health here ok
  | answersHealth here => exact healthAnswered health here
  | refreshes => exact healthRead health.target health.blank
  | writes => exact healthWrite health ok
  | emits =>
    refine ⟨health.target,health.blank,fun still p shown => ?_,fun still call at_ mine p brings => ?_⟩
    · refine (health.held still p shown).imp id (Or.imp (Or.imp id ?_) id)
      rintro ⟨r,member,same⟩
      exact ⟨r,List.mem_append_left _ member,same⟩
    · refine (health.coming still call at_ mine p brings).imp id (Or.imp id ?_)
      rintro ⟨r,member,same⟩
      exact ⟨r,List.mem_append_left _ member,same⟩
  | @hears changed rest => exact healthRead (s := { s with events := rest }) health.target health.blank
  | ignores events other => exact healthEvent health events other

end Health

def State.brought (s : State) : Option Binding :=
  match s.bindingCall with
  | none => some s.binding
  | some ⟨_,_,some (.ok binding)⟩ => some binding
  | _ => none

def State.bindingDue (s : State) : Prop :=
  (s.drawn.project,s.drawn.folder,s.generation) ≠ (s.effected.project,s.effected.folder,s.read) ∨ s.writes ≠ 0 ∨
    ∃ call, s.bindingCall = some call ∧ call.reply = none

structure BindingTrue (s : State) : Prop where
  asked : ∀ call, s.bindingCall = some call → s.effected.project = some call.name ∧ s.effected.folder = call.rel
  fresh : ∀ name, s.drawn.project = some name → s.bindingDue ∨
    ∃ record, s.records.lookup name = some record ∧ s.brought = some (record.kube.resolve s.drawn.folder)
  ages : s.read ≤ s.generation
  alike : ∀ record, s.record s.drawn = some record → FileAsFolder record.kube s.drawn

section BindingHalf
variable {s t : State}

def State.core (s : State) : List (Str × Record) × Selection × Nat × Selection × Nat × Binding × Option BindingCall × Nat :=
  (s.records,s.drawn,s.generation,s.effected,s.read,s.binding,s.bindingCall,s.writes)

theorem bindingSame (binding : BindingTrue s) (same : t.core = s.core) : BindingTrue t := by
  simp only [State.core,Prod.mk.injEq] at same
  obtain ⟨records,drawn,generation,effected,read,shown,call,writes⟩ := same
  constructor
  case asked => rw [call,effected]; exact binding.asked
  case fresh =>
    simp only [State.bindingDue,State.brought,records,drawn,generation,effected,read,shown,call,writes]
    exact binding.fresh
  case ages => rw [read,generation]; exact binding.ages
  case alike => rw [State.record,records,drawn]; exact binding.alike

theorem coreTurn (s : State) : s.turn.core = s.core := by
  unfold State.turn
  split <;> rfl

theorem coreRead (s : State) : s.readHealth.core = s.core := by
  unfold State.readHealth
  split
  · rfl
  · exact coreTurn s

theorem coreHealthEffect (s : State) : s.healthEffect.core = s.core := by
  unfold State.healthEffect
  split
  · rfl
  · dsimp only
    split
    · rfl
    · exact (coreRead _).trans rfl

theorem coreHealthAnswer (s : State) (call : HealthCall) (reply : Except Str (Str × Str)) :
    (s.healthAnswer call reply).core = s.core := by
  unfold State.healthAnswer
  dsimp only
  split
  · split
    · split <;> exact (coreTurn _).trans rfl
    · exact coreTurn _
  · split
    · split <;> rfl
    · rfl

theorem coreSeen (same : t.core = s.core) : t.seen.core = s.seen.core := by
  simp only [State.core,Prod.mk.injEq] at same
  obtain ⟨records,drawn,generation,effected,read,shown,call,writes⟩ := same
  simp only [State.core,State.seen,records,drawn,generation,shown,call,writes]

theorem bindingEffects (binding : BindingTrue s) : BindingTrue s.bindingEffect.seen := by
  unfold State.bindingEffect
  split
  · rename_i same
    obtain ⟨project,folder,generation⟩ : _ ∧ _ ∧ _ := by simpa only [Prod.mk.injEq] using same
    refine ⟨fun call here => ?_,fun name drawn => ?_,Nat.le_refl _,binding.alike⟩
    · obtain ⟨owner,rel⟩ := binding.asked call here
      exact ⟨project.trans owner,folder.trans rel⟩
    · refine (binding.fresh name drawn).imp (fun due => ?_) id
      rcases due with moved | writes | unread
      · exact absurd same moved
      · exact Or.inr (Or.inl writes)
      · exact Or.inr (Or.inr unread)
  · dsimp only
    split
    · rename_i none
      refine ⟨fun call here => (by cases here),fun name drawn => ?_,Nat.le_refl _,binding.alike⟩
      have drawn : s.drawn.project = some name := drawn
      simp [none] at drawn
    · rename_i name drawn
      refine ⟨fun call here => ?_,fun _ _ => Or.inl (Or.inr (Or.inr ⟨_,rfl,rfl⟩)),Nat.le_refl _,binding.alike⟩
      cases Option.some.inj here
      exact ⟨drawn,rfl⟩

theorem bindingServed (binding : BindingTrue s) {name rel : Str} {fault : Option Str}
    (here : s.bindingCall = some ⟨name,rel,none⟩) (ok : meets s (.serveBinding fault)) :
    BindingTrue { s with bindingCall := some ⟨name,rel,some (s.resolveBinding name rel fault)⟩ } := by
  obtain ⟨rfl,known⟩ := ok _ here
  obtain ⟨record,found⟩ := Option.isSome_iff_exists.mp known
  refine ⟨fun call at_ => ?_,fun project drawn => ?_,binding.ages,binding.alike⟩
  · cases Option.some.inj at_
    exact binding.asked ⟨name,rel,none⟩ here
  · by_cases moved : (s.drawn.project,s.drawn.folder,s.generation) = (s.effected.project,s.effected.folder,s.read)
    · obtain ⟨owner,rel⟩ := binding.asked _ here
      obtain ⟨same,folder,_⟩ : _ ∧ _ ∧ _ := by simpa only [Prod.mk.injEq] using moved
      have drawn : s.drawn.project = some project := drawn
      have project : project = name := Option.some.inj (drawn.symm.trans (same.trans owner))
      refine Or.inr ⟨record,project ▸ found,?_⟩
      have folder : s.drawn.folder = _ := folder.trans rel
      simp [State.brought,State.resolveBinding,found,folder]
    · exact Or.inl (Or.inl moved)

theorem bindingAnswered (binding : BindingTrue s) {name rel : Str} {reply : Except Str Binding}
    (here : s.bindingCall = some ⟨name,rel,some reply⟩) : BindingTrue (s.bindingAnswer reply) := by
  have due : s.bindingDue → (s.drawn.project,s.drawn.folder,s.generation) ≠ (s.effected.project,s.effected.folder,s.read) ∨
      s.writes ≠ 0 := by
    rintro (moved | writes | ⟨call,at_,unread⟩)
    · exact Or.inl moved
    · exact Or.inr writes
    · cases Option.some.inj (here.symm.trans at_)
      contradiction
  cases reply with
  | ok shown =>
    refine ⟨fun call at_ => (by cases at_),fun project drawn => ?_,binding.ages,binding.alike⟩
    refine (binding.fresh project drawn).imp (fun h => Or.imp_right Or.inl (due h)) ?_
    rintro ⟨record,found,brought⟩
    exact ⟨record,found,by simpa [State.bindingAnswer,State.brought,here] using brought⟩
  | error message =>
    refine ⟨fun call at_ => (by cases at_),fun project drawn => Or.inl ?_,binding.ages,binding.alike⟩
    rcases binding.fresh project drawn with h | ⟨record,found,brought⟩
    · exact Or.imp_right Or.inl (due h)
    · simp [State.brought,here] at brought

theorem bindingWrite (binding : BindingTrue s) {name : Str} {kube : Kube} (ok : meets s (.write name kube)) :
    BindingTrue (s.write name kube) := by
  refine ⟨binding.asked,fun _ _ => Or.inl (Or.inr (Or.inl (by simp [State.write]))),binding.ages,fun record found => ?_⟩
  cases project : s.drawn.project with
  | none => simp [State.record,State.write,project] at found
  | some owner =>
    simp only [State.record,State.write,project,Option.bind_some,lookupWrite,Option.map_eq_some_iff] at found
    obtain ⟨old,before,rfl⟩ := found
    split
    · rename_i same
      exact (ok (same ▸ project)).1
    · exact binding.alike old (by simp [State.record,project,before])

theorem bindingDraw (binding : BindingTrue s) (settled : s.drawn = s.effected ∧ s.generation = s.read)
    {selection : Selection} (ok : meets s (.draw selection)) : BindingTrue { s with drawn := selection } := by
  refine ⟨binding.asked,fun name drawn => ?_,binding.ages,ok⟩
  by_cases moved : (selection.project,selection.folder,s.generation) = (s.effected.project,s.effected.folder,s.read)
  · obtain ⟨project,folder,_⟩ : _ ∧ _ ∧ _ := by simpa only [Prod.mk.injEq] using moved
    have before : s.drawn.project = some name := by rw [settled.1,← project]; exact drawn
    have same : s.drawn.folder = selection.folder := by rw [settled.1,folder]
    refine (binding.fresh name before).imp (fun due => ?_) ?_
    · rcases due with h | writes | unread
      · exact absurd (by rw [settled.1,settled.2]) h
      · exact Or.inr (Or.inl writes)
      · exact Or.inr (Or.inr unread)
    · rintro ⟨record,found,brought⟩
      exact ⟨record,found,same ▸ brought⟩
  · exact Or.inl (Or.inl moved)

theorem bindingStep {e : Event} (binding : BindingTrue s) (ok : meets s e) (moved : Moves s e t) : BindingTrue t := by
  cases moved with
  | draws settled => exact bindingDraw binding settled ok
  | effects => exact bindingSame (bindingEffects binding) (coreSeen (coreHealthEffect _))
  | servesBinding here => exact bindingServed binding here ok
  | answersBinding here => exact bindingAnswered binding here
  | answersHealth => exact bindingSame binding (coreHealthAnswer s _ _)
  | refreshes => exact bindingSame binding (coreRead s)
  | writes => exact bindingWrite binding ok
  | written pending =>
    have ages := binding.ages
    refine ⟨binding.asked,fun _ _ => Or.inl (Or.inl ?_),by dsimp only; omega,binding.alike⟩
    simp only [ne_eq,Prod.mk.injEq,not_and]
    intro _ _
    omega
  | hears => exact bindingSame binding ((coreRead _).trans rfl)
  | drops | servesHealth | emits | ignores => exact bindingSame binding rfl

end BindingHalf

theorem bindingStart (records : List (Str × Record)) : BindingTrue (start records) := by
  constructor <;> simp [start,State.record]

theorem restAgrees {s : State} (health : HealthTrue s) (binding : BindingTrue s) (quiet : Quiet s) : Agrees s := by
  intro produced shown
  have still : ¬ s.moving := by simp [State.moving,quiet.drawn]
  have idle : ¬ s.due := by simp [State.due,State.queued,quiet.health,quiet.events]
  have pair := (health.held still produced shown).resolve_right idle
  cases asking : s.effected.asking with
  | none => simp [health.blank asking] at shown
  | some name =>
    obtain ⟨owner,file,here⟩ := askingParts asking
    have drawn : s.drawn.project = some name := quiet.drawn ▸ owner
    have settled : ¬ s.bindingDue := by simp [State.bindingDue,quiet.drawn,quiet.generation,quiet.writes,quiet.binding]
    obtain ⟨record,found,brought⟩ := (binding.fresh name drawn).resolve_left settled
    have bound : s.binding = record.kube.resolve (scopeOf file) := by
      have folder : s.drawn.folder = scopeOf file := by simp [quiet.drawn,Selection.folder,here]
      simpa [State.brought,quiet.binding,folder] using brought
    have alike := binding.alike record (by simp [State.record,drawn,found]) file (by simp [quiet.drawn,here])
    have aimed : produced = targetAt record.kube file := by
      simpa [State.pair,here,State.record,owner,found,eq_comm] using pair
    rw [aimed,bound,targetAt,alike.1,alike.2]

theorem runAgrees {records : List (Str × Record)} {es : List Event} {s : State}
    (run : Run step meets (start records) es s) (quiet : Quiet s) : Agrees s := by
  have both := run.invariant (I := fun s => HealthTrue s ∧ BindingTrue s)
    ⟨healthIdle rfl rfl rfl,bindingStart records⟩
    (fun s e t before ok taken => ⟨healthStep before.1 ok (stepMoves taken),bindingStep before.2 ok (stepMoves taken)⟩)
  exact restAgrees both.1 both.2 quiet

def infra (context : Str) : Kube := ⟨"dev-east".toList,"default".toList,false,[⟨"prod".toList,context,[],true⟩]⟩
def registry : List (Str × Record) := [("infra".toList,⟨"/work/infra".toList,infra "prod-us-west".toList⟩)]
def manifest : Selection := ⟨some "infra".toList,some "prod/api.yaml".toList⟩

def opened : List Event :=
  [.draw manifest,.effects,.serveBinding none,.bindingAnswer,.serveHealth none,.healthAnswer]

def rebound : List Event :=
  opened ++ [.write "infra".toList (infra "prod-us-east".toList),.written,.effects,.serveBinding none,.bindingAnswer]

theorem reboundDisagrees : ∃ s, Run step anyStep (start registry) rebound s ∧ Quiet s ∧ ¬ Agrees s := by
  refine ⟨_,runOfExec rfl,⟨rfl,rfl,rfl,rfl,rfl,rfl,rfl⟩,fun agrees => ?_⟩
  exact absurd (agrees _ rfl) (by decide)

def inTime : List Event :=
  [.draw manifest,.effects,.serveBinding none,.bindingAnswer,.write "infra".toList (infra "prod-us-east".toList),
    .serveHealth none,.healthAnswer,.written,.effects,.serveBinding none,.bindingAnswer]

theorem inTimeAgrees : ∃ s, Run step meets (start registry) inTime s ∧ Quiet s ∧ s.snapshot ≠ none ∧ Agrees s := by
  refine ⟨_,runOfGuarded rfl,⟨rfl,rfl,rfl,rfl,rfl,rfl,rfl⟩,Option.some_ne_none _,?_⟩
  exact runAgrees (runOfGuarded (show exec (guarded step meets) (start registry) inTime = some _ from rfl))
    ⟨rfl,rfl,rfl,rfl,rfl,rfl,rfl⟩

end M6t.PanelHealth
