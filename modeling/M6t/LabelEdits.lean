import M6t.Registry
import M6t.Runs

/-! Renaming and recolouring a project from the window. A label edit sends the
whole settings of the record the window last saw, and the registry stores them
whole; other writes of the record may land in between. -/
namespace M6t.LabelEdits
open M6t.Text M6t.Fault M6t.KubeBinding M6t.Registry M6t.Runs

structure Changes where
  displayName : Option Str
  color : Option Str

def settingsFor (project : Project) (patch : Changes) : Settings :=
  ⟨patch.displayName.getD project.displayName,patch.color.getD project.color,project.kube,project.helm⟩

/-- The white space of `trim` in the window: the byte order mark counts, the next
line control does not. -/
def blank (c : Char) : Bool := (isSpace c && c.toNat != 0x85) || c.toNat == 0xfeff

def trim (s : Str) : Str := (s.dropWhile blank).rdropWhile blank

inductive Label where
  | displayName
  | color
  deriving DecidableEq, Repr

def labelOf (p : Project) : Label → Str
  | .displayName => p.displayName
  | .color => p.color

inductive Edit where
  | rename (label : Str)
  | recolor (color : Str)
  deriving DecidableEq, Repr

def Edit.changes : Edit → Changes
  | .rename label => ⟨some (trim label),none⟩
  | .recolor color => ⟨none,some color⟩

def Edit.label : Edit → Label
  | .rename _ => .displayName
  | .recolor _ => .color

/-- A write on its way to the registry: a label edit with the record it was
composed from, or settings and scopes given in full. -/
inductive Sent where
  | edit (name : Str) (held : Project) (e : Edit)
  | rebind (name : Str) (settings : Settings)
  | bindScope (name : Str) (scope : Scope)
  | unbindScope (name folder : Str)
  deriving DecidableEq, Repr

def Sent.label : Sent → Option Label
  | .edit _ _ e => some e.label
  | _ => none

def Sent.perform (sys : System) (io : Disk) (stored : List Project) : Sent → Outcome Project
  | .edit name held e => update sys io stored name (settingsFor held e.changes)
  | .rebind name settings => update sys io stored name settings
  | .bindScope name scope => Registry.bindScope sys io stored name scope
  | .unbindScope name folder => Registry.unbindScope sys io stored name folder

structure HandEdit where
  name : Str
  kube : Kube → Kube
  label : Label → Str → Str
  helm : Helm → Helm

def HandEdit.apply (h : HandEdit) (p : Project) : Project :=
  if p.name = h.name then
    { p with
      displayName := h.label .displayName p.displayName
      color := h.label .color p.color
      kube := h.kube p.kube
      helm := h.helm p.helm }
  else p

inductive Landing where
  | call (io : Disk) (sent : Sent)
  | byHand (h : HandEdit)

def Landing.apply (sys : System) (stored : List Project) : Landing → List Project
  | .call io sent => (sent.perform sys io stored).stored
  | .byHand h => stored.map h.apply

structure InFlight where
  id : Nat
  sent : Sent

inductive Answered where
  | project (updated : Project)
  | listing (listed : List Project)

structure Panel where
  stored : List Project
  list : List Project
  rendered : List (List Project)
  issued : Nat
  calls : List InFlight
  answers : List (Nat × Answered)
  landed : List Landing

def opened (stored : List Project) : Panel := ⟨stored,[],[[]],0,[],[],[]⟩

inductive Event where
  | render
  | patch (shown : List Project) (name : Str) (e : Edit)
  | send (sent : Sent)
  | land (id : Nat) (io : Disk)
  | read (io : Disk)
  | deliver (id : Nat)
  | byHand (h : HandEdit)

namespace Panel
variable (s : Panel)

def issue (sent : Sent) : Panel := { s with issued := s.issued + 1, calls := ⟨s.issued,sent⟩ :: s.calls }

def patch (shown : List Project) (name : Str) (e : Edit) : Panel :=
  match findProject shown name with
  | none => s
  -- the settings are composed now, from the list of that render
  | some held => s.issue (.edit name held e)

def land (sys : System) (io : Disk) (c : InFlight) : Panel :=
  let out := c.sent.perform sys io s.stored
  { s with
    stored := out.stored
    calls := s.calls.filter (fun d => d.id ≠ c.id)
    answers := match out.answer with
      | .ok updated => (c.id,.project updated) :: s.answers
      | .error _ => s.answers
    landed := .call io c.sent :: s.landed }

def take : Answered → List Project
  | .project updated => s.list.map (fun p => if p.name = updated.name then updated else p)
  | .listing listed => listed

end Panel

def step (sys : System) (s : Panel) : Event → Option Panel
  | .render => some { s with rendered := s.list :: s.rendered }
  | .patch shown name e => if shown ∈ s.rendered then some (s.patch shown name e) else none
  | .send sent => if sent.label = none then some (s.issue sent) else none
  | .land id io => (s.calls.find? (fun c => c.id = id)).map (s.land sys io)
  | .read io =>
      match list sys io s.stored with
      | .ok listed => some { s with issued := s.issued + 1, answers := (s.issued,.listing listed) :: s.answers }
      | .error _ => some s
  | .deliver id =>
      (s.answers.find? (fun a => a.1 = id)).map fun a =>
        { s with list := s.take a.2, answers := s.answers.filter (fun b => b.1 ≠ id) }
  | .byHand h => some { s with stored := s.stored.map h.apply, landed := .byHand h :: s.landed }

def replay (sys : System) (initial : List Project) : List Landing → List Project
  | [] => initial
  | x :: earlier => x.apply sys (replay sys initial earlier)

structure Kept (edited : Label → Prop) (p q : Project) : Prop where
  name : q.name = p.name
  kube : q.kube = p.kube
  label : ∀ g, ¬ edited g → labelOf q g = labelOf p g

abbrev Alike (edited : Label → Prop) : List Project → List Project → Prop := List.Forall₂ (Kept edited)

section Alike
variable {edited more : Label → Prop} {a b c stored : List Project} {p q r new other : Project} {name : Str}

theorem keptRefl (p : Project) : Kept edited p p := ⟨rfl,rfl,fun _ _ => rfl⟩

theorem keptTrans (first : Kept edited p q) (second : Kept edited q r) : Kept edited p r :=
  ⟨second.name.trans first.name,second.kube.trans first.kube,fun g out => (second.label g out).trans (first.label g out)⟩

theorem keptMore (kept : Kept edited p q) (sub : ∀ g, edited g → more g) : Kept more p q :=
  ⟨kept.name,kept.kube,fun g out => kept.label g (fun inside => out (sub g inside))⟩

theorem alikeRefl (stored : List Project) : Alike edited stored stored := List.forall₂_same.mpr (fun p _ => keptRefl p)

theorem alikeTrans (first : Alike edited a b) (second : Alike edited b c) : Alike edited a c := by
  induction first generalizing c with
  | nil => exact second
  | cons head tail ih =>
    cases second with
    | cons head' tail' => exact .cons (keptTrans head head') (ih tail')

theorem alikeFind (alike : Alike edited a b) (name : Str) :
    findProject a name = none ∧ findProject b name = none ∨
      ∃ p q, findProject a name = some p ∧ findProject b name = some q ∧ Kept edited p q := by
  induction alike with
  | nil => exact Or.inl ⟨rfl,rfl⟩
  | @cons p q _ _ head tail ih =>
    by_cases h : p.name = name
    · exact Or.inr ⟨p,q,by simp [findProject,h],by simp [findProject,head.name,h],head⟩
    · simpa [findProject,head.name,h] using ih

theorem alikeReplace (alike : Alike edited a b) (kept : Kept edited new other) :
    Alike edited (replaceFirst name new a) (replaceFirst name other b) := by
  induction alike with
  | nil => exact .nil
  | @cons p q _ _ head tail ih =>
    by_cases h : p.name = name
    · rw [replaceFirst,replaceFirst,if_pos h,if_pos (head.name.trans h)]
      exact .cons kept tail
    · rw [replaceFirst,replaceFirst,if_neg h,if_neg (fun same => h (head.name.symm.trans same))]
      exact .cons head ih

theorem replaceAlike (found : findProject stored name = some p) :
    Alike edited (replaceFirst name new stored) stored ↔ Kept edited new p := by
  induction stored with
  | nil => simp [findProject] at found
  | cons d rest ih =>
    by_cases h : d.name = name
    · have same : d = p := by simpa [findProject,h] using found
      subst same
      rw [replaceFirst,if_pos h]
      exact List.forall₂_cons.trans (and_iff_left (alikeRefl rest))
    · rw [replaceFirst,if_neg h]
      exact List.forall₂_cons.trans ((and_iff_right (keptRefl d)).trans (ih (by simpa [findProject,h] using found)))

end Alike

section Writes
variable {edited : Label → Prop} {sys : System} {io : Disk} {a b stored : List Project}

theorem alikeSave {α : Type} {x y : α} {next after : List Project} (alike : Alike edited a b)
    (written : Alike edited next after) : Alike edited (save io a next x).stored (save io b after y).stored := by
  cases fault : io.saveFault <;> simpa only [save,fault]

theorem alikeLoading {α : Type} {next after : List Project → Outcome α} (alike : Alike edited a b)
    (loaded : Alike edited (next a).stored (after b).stored) :
    Alike edited (loading io a next).stored (loading io b after).stored := by
  cases fault : io.loadFault <;> simpa only [loading,load,fault,refuse]

theorem alikeUpdate (alike : Alike edited a b) (name : Str) (settings : Settings) :
    Alike edited (update sys io a name settings).stored (update sys io b name settings).stored := by
  unfold update
  cases validateScopes settings.kube with
  | error err => exact alike
  | ok kube =>
    refine alikeLoading alike ?_
    rcases alikeFind alike name with ⟨first,second⟩ | ⟨p,q,first,second,kept⟩
    · simpa only [first,second,refuse] using alike
    · simp only [first,second]
      exact alikeSave alike (alikeReplace alike ⟨kept.name,rfl,fun g _ => by cases g <;> rfl⟩)

theorem alikeScopes (alike : Alike edited a b) (name : Str) (change : List Scope → List Scope) :
    Alike edited (rewriteScopes sys io a name change).stored (rewriteScopes sys io b name change).stored := by
  refine alikeLoading alike ?_
  rcases alikeFind alike name with ⟨first,second⟩ | ⟨p,q,first,second,kept⟩
  · simpa only [first,second,refuse] using alike
  · simp only [first,second,kept.kube]
    cases validateScopes { p.kube with scopes := change p.kube.scopes } with
    | error err => exact alike
    | ok kube => exact alikeSave alike (alikeReplace alike ⟨kept.name,rfl,fun g out => by
        have := kept.label g out
        cases g <;> exact this⟩)

theorem alikePerform (alike : Alike edited a b) (sent : Sent) :
    Alike edited (sent.perform sys io a).stored (sent.perform sys io b).stored := by
  cases sent with
  | edit name held e => exact alikeUpdate alike name _
  | rebind name settings => exact alikeUpdate alike name settings
  | unbindScope name folder => exact alikeScopes alike name _
  | bindScope name scope =>
    simp only [Sent.perform,bindScope]
    split
    · exact alikeScopes alike name _
    · exact alikeScopes alike name _

theorem alikeHand (alike : Alike edited a b) (h : HandEdit) : Alike edited (a.map h.apply) (b.map h.apply) := by
  refine List.forall₂_map_left_iff.mpr (List.forall₂_map_right_iff.mpr (alike.imp (fun p q kept => ?_)))
  by_cases here : p.name = h.name
  · rw [HandEdit.apply,HandEdit.apply,if_pos here,if_pos (kept.name.trans here)]
    refine ⟨kept.name,congrArg h.kube kept.kube,fun g out => ?_⟩
    have := congrArg (h.label g) (kept.label g out)
    cases g <;> exact this
  · rw [HandEdit.apply,HandEdit.apply,if_neg here,if_neg (fun same => here (kept.name.symm.trans same))]
    exact kept

theorem alikeLanding (alike : Alike edited a b) (x : Landing) : Alike edited (x.apply sys a) (x.apply sys b) := by
  cases x with
  | call io sent => exact alikePerform alike sent
  | byHand h => exact alikeHand alike h

end Writes

def Landing.Current (stored : List Project) : Landing → Prop
  | .call io (.edit name held e) => ∀ p kube, io.loadFault = none → io.saveFault = none →
      findProject stored name = some p → validateScopes held.kube = .ok kube →
        kube = p.kube ∧ ∀ g, g ≠ e.label → trimSpace (labelOf held g) = labelOf p g
  | _ => True

theorem sentKept {held p : Project} {kube : Kube} {e : Edit} :
    Kept (fun g => g = e.label) (p.withSettings { settingsFor held e.changes with kube := kube }) p ↔
      kube = p.kube ∧ ∀ g, g ≠ e.label → trimSpace (labelOf held g) = labelOf p g := by
  have other : ∀ g, g ≠ e.label →
      labelOf (p.withSettings { settingsFor held e.changes with kube := kube }) g = trimSpace (labelOf held g) := by
    intro g differs
    cases g <;> cases e <;> first | rfl | exact absurd rfl differs
  constructor
  · exact fun kept => ⟨kept.kube.symm,fun g differs => (other g differs).symm.trans (kept.label g differs).symm⟩
  · exact fun same => ⟨rfl,same.1.symm,fun g differs => ((other g differs).trans (same.2 g differs)).symm⟩

theorem editCurrent {sys : System} {io : Disk} {stored : List Project} {name : Str} {held : Project} {e : Edit} :
    Alike (fun g => g = e.label) ((Sent.edit name held e).perform sys io stored).stored stored ↔
      (Landing.call io (.edit name held e)).Current stored := by
  cases valid : validateScopes held.kube with
  | error err => simpa [Landing.Current,valid,Sent.perform,update,settingsFor,refuse] using alikeRefl stored
  | ok kube =>
    cases read : io.loadFault with
    | some err =>
      simpa [Landing.Current,read,Sent.perform,update,settingsFor,valid,loading,load,refuse] using alikeRefl stored
    | none =>
      cases found : findProject stored name with
      | none =>
        simpa [Landing.Current,found,Sent.perform,update,settingsFor,valid,loading,load,read,refuse] using alikeRefl stored
      | some p =>
        cases replaced : io.saveFault with
        | some err =>
          simpa [Landing.Current,replaced,Sent.perform,update,settingsFor,valid,loading,load,read,found,save]
            using alikeRefl stored
        | none =>
          have written : ((Sent.edit name held e).perform sys io stored).stored =
              replaceFirst name (p.withSettings { settingsFor held e.changes with kube := kube }) stored := by
            simp [Sent.perform,update,settingsFor,valid,loading,load,read,found,save,replaced]
          rw [written,replaceAlike found,sentKept]
          simp [Landing.Current,read,replaced,found,valid]

def Landing.label : Landing → Option Label
  | .call _ sent => sent.label
  | .byHand _ => none

inductive Without (edited : Label → Prop) : List Landing → List Landing → Prop where
  | nil : Without edited [] []
  | keep {history rest} (x : Landing) (tail : Without edited history rest) : Without edited (x :: history) (x :: rest)
  | drop {history rest x g} (edit : x.label = some g) (out : edited g) (tail : Without edited history rest) :
      Without edited (x :: history) rest

theorem withoutSelf {edited : Label → Prop} (history : List Landing) : Without edited history history := by
  induction history with
  | nil => exact .nil
  | cons x rest ih => exact .keep x ih

section Replay
variable {sys : System} {initial : List Project} {history : List Landing}

theorem dropAlike {edited : Label → Prop} {stored : List Project} {x : Landing} {g : Label} (edit : x.label = some g)
    (out : edited g) (current : x.Current stored) : Alike edited (x.apply sys stored) stored := by
  rcases x with ⟨io,⟨name,held,e⟩ | _ | _ | _⟩ | _ <;> try cases edit
  exact (editCurrent.mpr current).imp (fun p q kept => keptMore kept (fun f same => same ▸ out))

theorem replayAlike {edited : Label → Prop} {rest : List Landing}
    (current : Preceded (fun x earlier => x.Current (replay sys initial earlier)) history)
    (without : Without edited history rest) :
    Alike edited (replay sys initial history) (replay sys initial rest) := by
  induction without with
  | nil => exact alikeRefl initial
  | keep x tail ih => exact alikeLanding (ih (precededTail current)) x
  | drop edit out tail ih =>
    exact alikeTrans (dropAlike edit out (current [] _ _ rfl)) (ih (precededTail current))

/-- Nothing but the edited labels is lost: what is stored is, kube binding and other
labels, what the same writes store without any of the edits. -/
def NothingLost (sys : System) (initial : List Project) (history : List Landing) : Prop :=
  ∀ edited rest, Without edited history rest → Alike edited (replay sys initial history) (replay sys initial rest)

theorem nothingLostExact :
    (∀ later earlier, history = later ++ earlier → NothingLost sys initial earlier) ↔
      Preceded (fun x earlier => x.Current (replay sys initial earlier)) history := by
  constructor
  · intro kept later x earlier split
    rcases x with ⟨io,⟨name,held,e⟩ | _ | _ | _⟩ | _ <;> try trivial
    -- leave out the one edit, and compare the states on both sides of it
    exact editCurrent.mp (kept later _ split (fun g => g = e.label) earlier (.drop rfl rfl (withoutSelf earlier)))
  · intro current later earlier split edited rest without
    exact replayAlike (fun front x older inside => current (later ++ front) x older (by simp [split,inside])) without

end Replay

def Composed (rendered : List (List Project)) : Sent → Prop
  | .edit name held _ => ∃ shown ∈ rendered, findProject shown name = some held
  | _ => True

structure Sound (sys : System) (initial : List Project) (s : Panel) : Prop where
  stored : s.stored = replay sys initial s.landed
  calls : ∀ c ∈ s.calls, Composed s.rendered c.sent
  landed : ∀ io sent, .call io sent ∈ s.landed → Composed s.rendered sent

theorem composedLater {rendered : List (List Project)} {sent : Sent} (composed : Composed rendered sent)
    (shown : List Project) : Composed (shown :: rendered) sent := by
  cases sent with
  | edit name held e =>
    obtain ⟨old,member,found⟩ := composed
    exact ⟨old,List.mem_cons_of_mem _ member,found⟩
  | _ => trivial

section Steps
variable {sys : System} {initial : List Project} {s u : Panel}

theorem soundIssue {sent : Sent} (sound : Sound sys initial s) (composed : Composed s.rendered sent) :
    Sound sys initial (s.issue sent) where
  stored := sound.stored
  calls c member := by
    rcases List.mem_cons.mp member with rfl | old
    · exact composed
    · exact sound.calls c old
  landed := sound.landed

theorem soundLand {io : Disk} {c : InFlight} (sound : Sound sys initial s) (member : c ∈ s.calls) :
    Sound sys initial (s.land sys io c) where
  stored := by simp only [Panel.land,replay,Landing.apply,sound.stored]
  calls d inside := sound.calls d (List.mem_of_mem_filter inside)
  landed io' sent inside := by
    rcases List.mem_cons.mp inside with new | old
    · cases new
      exact sound.calls c member
    · exact sound.landed io' sent old

theorem soundStep {e : Event} (sound : Sound sys initial s) (taken : step sys s e = some u) : Sound sys initial u := by
  cases e with
  | render =>
    cases Option.some.inj taken
    exact ⟨sound.stored,fun c member => composedLater (sound.calls c member) _,
      fun io sent member => composedLater (sound.landed io sent member) _⟩
  | patch shown name e =>
    simp only [step] at taken
    split at taken <;> cases taken
    next rendered =>
      cases found : findProject shown name with
      | none => simpa only [Panel.patch,found] using sound
      | some held =>
        have composed : Composed s.rendered (.edit name held e) := ⟨shown,rendered,found⟩
        simpa only [Panel.patch,found] using soundIssue sound composed
  | send sent =>
    simp only [step] at taken
    split at taken <;> cases taken
    next plain => exact soundIssue sound (by cases sent <;> trivial)
  | land id io =>
    obtain ⟨c,found,rfl⟩ := Option.map_eq_some_iff.mp taken
    exact soundLand sound (List.mem_of_find?_eq_some found)
  | read io =>
    simp only [step] at taken
    split at taken <;> cases taken <;> exact ⟨sound.stored,sound.calls,sound.landed⟩
  | deliver id =>
    obtain ⟨answer,_,rfl⟩ := Option.map_eq_some_iff.mp taken
    exact ⟨sound.stored,sound.calls,sound.landed⟩
  | byHand h =>
    cases Option.some.inj taken
    refine ⟨by simp only [replay,Landing.apply,sound.stored],sound.calls,fun io sent member => ?_⟩
    exact sound.landed io sent (by simpa using member)

end Steps

theorem labelEditsKeep (sys : System) (initial : List Project) :
    ∀ es s, Run (step sys) anyStep (opened initial) es s →
      s.stored = replay sys initial s.landed ∧ (∀ io sent, .call io sent ∈ s.landed → Composed s.rendered sent) ∧
      ((∀ later earlier, s.landed = later ++ earlier → NothingLost sys initial earlier) ↔
        Preceded (fun x earlier => x.Current (replay sys initial earlier)) s.landed) := by
  intro es s run
  have sound := run.invariant (I := Sound sys initial) ⟨rfl,by simp [opened],by simp [opened]⟩
    (fun _ _ _ sound _ taken => soundStep sound taken)
  exact ⟨sound.stored,sound.landed,nothingLostExact⟩

def infraName : Str := "infra".toList
def renameInfra : Edit := .rename "Infra".toList
def protectProd : Sent := .bindScope infraName ⟨"prod".toList,"prod-us-west".toList,"api".toList,true⟩

def infra (shortPath displayName : String) (guarded : Bool) : Project :=
  ⟨infraName,"/work/infra".toList,shortPath.toList,displayName.toList,[],
    ⟨"dev-east".toList,"default".toList,false,[⟨"prod".toList,"prod-us-west".toList,"api".toList,guarded⟩]⟩,⟨[]⟩⟩

def unprotected : Project := infra "/work/infra" "" false
def protectedInfra : Project := infra "/work/infra" "" true

def protects : List Event := [.read .sound,.deliver 0,.render,.send protectProd,.land 1 .sound]

def renamedAfter : List Event :=
  protects ++ [.deliver 1,.render,.patch [protectedInfra] infraName renameInfra,.land 2 .sound]

theorem renameKeepsProtection :
    ∃ s, Run (step .plain) anyStep (opened [infra "" "" false]) renamedAfter s ∧
      s.stored = [infra "" "Infra" true] ∧ NothingLost .plain [infra "" "" false] s.landed := by
  have done : exec (step .plain) (opened [infra "" "" false]) renamedAfter = some
      { stored := [infra "" "Infra" true], list := [protectedInfra], rendered := [[protectedInfra],[unprotected],[]]
        issued := 3, calls := [], answers := [(2,.project (infra "/work/infra" "Infra" true))]
        landed := [.call .sound (.edit infraName protectedInfra renameInfra),.call .sound protectProd] } := rfl
  have run := runOfExec done
  refine ⟨_,run,rfl,?_⟩
  refine ((labelEditsKeep .plain [infra "" "" false] _ _ run).2.2.mpr ?_) [] _ rfl
  refine precededCons ?_ (precededCons trivial precededNil)
  intro p kube _ _ found valid
  have stored : findProject (replay .plain [infra "" "" false] [.call .sound protectProd]) infraName =
      some (infra "" "" true) := by decide
  cases Option.some.inj (stored.symm.trans found)
  have checked : validateScopes protectedInfra.kube = .ok (infra "" "" true).kube := by decide
  cases Except.ok.inj (checked.symm.trans valid)
  exact ⟨rfl,by rintro (_ | _) <;> decide⟩

def renamedBefore : List Event := protects ++ [.patch [unprotected] infraName renameInfra,.land 2 .sound]

theorem renameUnprotects :
    ∃ s rest, Run (step .plain) anyStep (opened [infra "" "" false]) renamedBefore s ∧
      Without (fun g => g = .displayName) s.landed rest ∧ s.stored = [infra "" "Infra" false] ∧
      replay .plain [infra "" "" false] rest = [infra "" "" true] ∧
      ¬ Alike (fun g => g = .displayName) s.stored (replay .plain [infra "" "" false] rest) := by
  have done : exec (step .plain) (opened [infra "" "" false]) renamedBefore = some
      { stored := [infra "" "Infra" false], list := [unprotected], rendered := [[unprotected],[]], issued := 3, calls := []
        answers := [(2,.project (infra "/work/infra" "Infra" false)),(1,.project protectedInfra)]
        landed := [.call .sound (.edit infraName unprotected renameInfra),.call .sound protectProd] } := rfl
  have left : replay .plain [infra "" "" false] [.call .sound protectProd] = [infra "" "" true] := by decide
  refine ⟨_,[.call .sound protectProd],runOfExec done,.drop rfl rfl (withoutSelf _),rfl,left,fun alike => ?_⟩
  rw [left] at alike
  cases alike with
  | cons head _ => exact absurd head.kube (by decide)

end M6t.LabelEdits
