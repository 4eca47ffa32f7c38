import M6t.LabelEdits
import M6t.ProjectDrag
import M6t.RegistryRuns

/-! The project strip beside the registry. Any number of the window's calls are under way at once;
each is answered from the file as it then is, and lands in the window some time later. -/
namespace M6t.ProjectStrip
open M6t.Text M6t.Fault M6t.KubeBinding M6t.Registry M6t.Runs M6t.ProjectDrag
open M6t.RegistryRuns (Op Call Reply Rooted plainRooted)
open M6t.LabelEdits (Edit settingsFor trim)

inductive After where
  | nothing
  | selects (name : Str)
  | reports (err : Failure)
  deriving DecidableEq

inductive Ask where
  | list (after : After)
  | choose
  | add (path label : Str)
  | update (name : Str) (settings : Settings) (dialog : Bool)
  | bindScope (name : Str) (scope : Scope)
  | unbindScope (name folder : Str)
  | remove (name : Str)
  | reorder (names : List Str)
  deriving DecidableEq

inductive Told where
  | path (chosen : Str)
  | listed (projects : List Project)
  | wrote (reply : Reply)
  deriving DecidableEq

def Ask.sentence : Ask → List Piece
  | .list _ => [.text "listing projects"]
  | .choose => [.text "choosing a directory"]
  | .add path _ => [.text "adding project at ",.shown path]
  | .update name _ _ => [.text "updating project ",.shown name]
  | .bindScope name scope => [.text "binding ",.shown scope.path,.text " in ",.shown name]
  | .unbindScope name folder => [.text "unbinding ",.shown folder,.text " in ",.shown name]
  | .remove name => [.text "removing project ",.shown name]
  | .reorder _ => [.text "reordering projects"]

structure Flight where
  ask : Ask
  answer : Option (Answer Told)
  deriving DecidableEq

structure PendingProject where
  path : Str
  suggested : Str
  deriving DecidableEq

def directoryName (path : Str) : Str :=
  ((path.splitOnP (fun c => c = '/' ∨ c = '\\')).filter (fun segment => segment ≠ [])).getLast?.getD path

structure View where
  list : List Project
  pending : Option PendingProject
  deriving DecidableEq

/-- `past` is every list the registry has held and `chosen` every directory the picker has answered with. -/
structure Strip where
  stored : List Project
  past : List (List Project)
  chosen : List Str
  list : List Project
  activeName : Option Str
  error : Option Failure
  pending : Option PendingProject
  drawn : View
  flights : List Flight
  deriving DecidableEq

def opened (stored : List Project) : Strip := ⟨stored,[stored],[],[],none,none,none,⟨[],none⟩,[⟨.list .nothing,none⟩]⟩

inductive Event where
  | render
  | reload
  | beginAdd
  | cancelAdd
  | commitAdd (name : Str)
  | edit (name : Str) (e : Edit)
  | rebind (name : Str) (settings : Settings)
  | bindScope (name : Str) (scope : Scope)
  | unbindScope (name folder : Str)
  | drag (active : Str) (over_ : Option Str)
  | remove (name : Str)
  | select (name : Str)
  | picks (i : Nat) (answer : Answer Str)
  | answers (i : Nat) (sys : System) (io : Disk)
  | lands (i : Nat)
  | rewrites (projects : List Project)

@[simp] def Ask.op : Ask → Option Op
  | .list _ | .choose => none
  | .add path label => some (.add path label)
  | .update name settings _ => some (.update name settings)
  | .bindScope name scope => some (.bindScope name scope)
  | .unbindScope name folder => some (.unbindScope name folder)
  | .remove name => some (.remove name)
  | .reorder names => some (.reorder names)

namespace Strip

def sends (s : Strip) (ask : Ask) : Strip := { s with flights := s.flights ++ [⟨ask,none⟩] }

def fails (s : Strip) (err : Failure) : Strip := { s with error := some err }

def replace (s : Strip) (p : Project) : Strip := { s with list := s.list.map (fun q => if q.name = p.name then p else q) }

def finish (s : Strip) : After → Strip
  | .nothing => s
  | .selects name => { s with activeName := some name }
  | .reports err => s.fails err

def listed (s : Strip) (projects : List Project) : Strip :=
  { s with
    list := projects
    activeName := Workbench.selectionAfterReload (projects.map row) s.activeName
    error := none }

def landed (s : Strip) : Ask → Answer Told → Strip
  | .choose,.ok (.path chosen) => if chosen = [] then s else { s with pending := some ⟨chosen,directoryName chosen⟩ }
  | .list after,.ok (.listed projects) => (s.listed projects).finish after
  | .list after,.error err => (s.fails err).finish after
  | .add _ _,.ok (.wrote (.project p)) => s.sends (.list (.selects p.name))
  | .update _ _ _,.ok (.wrote (.project p)) | .bindScope _ _,.ok (.wrote (.project p))
  | .unbindScope _ _,.ok (.wrote (.project p)) => s.replace p
  | .remove _,.ok _ => s.sends (.list .nothing)
  | .reorder _,.ok (.wrote (.order projects)) => { s with list := projects }
  | .reorder _,.error err => s.sends (.list (.reports err))
  -- what the dialog or the panel sent is refused there
  | .update _ _ true,.error _ | .bindScope _ _,.error _ | .unbindScope _ _,.error _ => s
  | _,.error err => s.fails err
  | _,_ => s

def perform (s : Strip) (ask : Ask) (sys : System) (io : Disk) : Answer Told × List Project :=
  match ask.op with
  | some op =>
    let out := (⟨op,sys,io⟩ : Call).perform s.stored
    ((wrapping ask.sentence out.answer).map .wrote,out.stored)
  | none => ((wrapping ask.sentence (Registry.list sys io s.stored)).map .listed,s.stored)

end Strip

def step (kit : Sortable) (s : Strip) : Event → Option Strip
  | .render => some { s with drawn := ⟨s.list,s.pending⟩ }
  | .reload => some (s.sends (.list .nothing))
  | .beginAdd => some ({ s with error := none }.sends .choose)
  | .cancelAdd => some { s with pending := none }
  | .commitAdd name =>
    match s.drawn.pending with
    | none => some s
    | some chosen => some ({ s with pending := none }.sends (.add chosen.path (trim name)))
  | .edit name e =>
    match findProject s.drawn.list name with
    | none => some s
    | some held => some (s.sends (.update name (settingsFor held e.changes) false))
  | .rebind name settings => some (s.sends (.update name settings true))
  | .bindScope name scope => some (s.sends (.bindScope name scope))
  | .unbindScope name folder => some (s.sends (.unbindScope name folder))
  | .drag active over_ =>
    match orderAfterDrag kit (s.drawn.list.map Project.name) active over_ with
    | none => some s
    | some names =>
      let ordered := orderProjects s.drawn.list names
      some ({ s with list := ordered }.sends (.reorder (ordered.map Project.name)))
  | .remove name =>
    some ({ s with activeName := Workbench.selectionAfterRemove (s.drawn.list.map row) name s.activeName }.sends (.remove name))
  | .select name => if name ∈ s.drawn.list.map Project.name then some { s with activeName := some name } else none
  | .picks i answer =>
    match s.flights[i]? with
    | some ⟨.choose,none⟩ =>
      some { s with
        flights := s.flights.set i ⟨.choose,some ((wrapping Ask.choose.sentence answer).map .path)⟩
        chosen := s.chosen ++ (match answer with | .ok path => [path] | .error _ => []) }
    | _ => none
  | .answers i sys io =>
    match s.flights[i]? with
    | some ⟨ask,none⟩ =>
      if ask = .choose then none
      else
        some { s with
          stored := (s.perform ask sys io).2
          past := s.past ++ [(s.perform ask sys io).2]
          flights := s.flights.set i ⟨ask,some (s.perform ask sys io).1⟩ }
    | _ => none
  | .lands i =>
    match s.flights[i]? with
    | some ⟨ask,some told⟩ => some ({ s with flights := s.flights.eraseIdx i }.landed ask told)
    | _ => none
  | .rewrites projects => some { s with stored := projects, past := s.past ++ [projects] }

/-- One home directory, and whoever edits the file by hand gives no two records one name. -/
def Kept (home : Str) (_ : Strip) : Event → Prop
  | .answers _ sys _ => sys.home = home ∧ Rooted sys
  | .rewrites projects => (projects.map Project.name).Nodup
  | _ => True

section Calls
variable {sys : System} {io : Disk} {before : List Project}

theorem addAnswer {path label : Str} {p : Project} (ok : (add sys io before path label).answer = .ok p) :
    ∃ q ∈ (add sys io before path label).stored, p = resolved sys.home q := by
  obtain ⟨target,_,_,same⟩ := addOk ok
  rw [same] at ok ⊢
  by_cases known : ∃ q ∈ before, expand sys.home q.path = target
  · rw [appendKnown known]
    have loaded := loadingOk ok
    rw [append,loaded] at ok
    split at ok
    · next q found => exact ⟨q,List.mem_of_find?_eq_some found,(Except.ok.inj ok).symm⟩
    · next none_ =>
      obtain ⟨q,member,here⟩ := known
      exact absurd here (by simpa using List.find?_eq_none.mp none_ q member)
  · obtain ⟨answer,written⟩ := appendNew (fun q member here => known ⟨q,member,here⟩) ok
    exact ⟨_,written ▸ List.mem_append_right _ (List.mem_singleton_self _),answer⟩

theorem replacedMember {name : Str} {p new : Project} (found : findProject before name = some p) :
    new ∈ replaceFirst name new before := by
  induction before with
  | nil => simp [findProject] at found
  | cons q rest ih =>
    by_cases here : q.name = name
    · rw [replaceFirst,if_pos here]
      exact List.mem_cons_self
    · rw [replaceFirst,if_neg here]
      exact List.mem_cons_of_mem _ (ih (by simpa [findProject,here] using found))

theorem updateAnswer {name : Str} {settings : Settings} {p : Project} (ok : (update sys io before name settings).answer = .ok p) :
    ∃ q ∈ (update sys io before name settings).stored, p = resolved sys.home q := by
  obtain ⟨held,kube,found,_,answer,written⟩ := updateOk ok
  exact ⟨_,written ▸ replacedMember found,answer⟩

theorem rewriteAnswer {name : Str} {change : List Scope → List Scope} {p : Project}
    (ok : (rewriteScopes sys io before name change).answer = .ok p) :
    ∃ q ∈ (rewriteScopes sys io before name change).stored, p = resolved sys.home q := by
  obtain ⟨held,kube,found,_,answer,written⟩ := rewriteOk ok
  exact ⟨_,written ▸ replacedMember found,answer⟩

theorem bindAnswer {name : Str} {scope : Scope} {p : Project} (ok : (bindScope sys io before name scope).answer = .ok p) :
    ∃ q ∈ (bindScope sys io before name scope).stored, p = resolved sys.home q := by
  unfold bindScope at ok ⊢
  by_cases nothing_ : scope.overridesNothing = true
  · rw [if_pos nothing_] at ok ⊢
    exact rewriteAnswer ok
  · rw [if_neg nothing_] at ok ⊢
    exact rewriteAnswer ok

theorem mapTold {α β : Type} {f : α → β} {out : Outcome α} {b : β} (ok : (out.map f).answer = .ok b) :
    ∃ a, out.answer = .ok a ∧ f a = b := by
  cases h : out.answer with
  | error err => simp [Outcome.map,h,Except.map] at ok
  | ok a => exact ⟨a,rfl,by simpa [Outcome.map,h,Except.map] using ok⟩

variable {c : Call}

theorem projectTold {p : Project} (kept : ∀ name, c.op ≠ .remove name) (ok : (c.perform before).answer = .ok (.project p)) :
    ∃ q ∈ (c.perform before).stored, p = resolved c.sys.home q := by
  unfold Call.perform at ok ⊢
  cases h : c.op with
  | remove name => exact absurd h (kept name)
  | reorder names =>
    rw [h] at ok
    obtain ⟨projects,_,same⟩ := mapTold ok
    cases same
  | add path label =>
    rw [h] at ok
    obtain ⟨answer,answered,same⟩ := mapTold ok
    cases same
    exact addAnswer answered
  | update name settings =>
    rw [h] at ok
    obtain ⟨answer,answered,same⟩ := mapTold ok
    cases same
    exact updateAnswer answered
  | bindScope name scope =>
    rw [h] at ok
    obtain ⟨answer,answered,same⟩ := mapTold ok
    cases same
    exact bindAnswer answered
  | unbindScope name folder =>
    rw [h] at ok
    obtain ⟨answer,answered,same⟩ := mapTold ok
    cases same
    exact rewriteAnswer answered

theorem orderTold {projects : List Project} (ok : (c.perform before).answer = .ok (.order projects)) :
    projects = (c.perform before).stored.map (resolved c.sys.home) := by
  unfold Call.perform at ok ⊢
  cases h : c.op with
  | reorder names =>
    rw [h] at ok
    obtain ⟨answer,answered,same⟩ := mapTold ok
    cases same
    exact reorderAnswers answered
  | add path label | update name settings | bindScope name scope | unbindScope name folder | remove name =>
    rw [h] at ok
    obtain ⟨answer,_,same⟩ := mapTold ok
    cases same

theorem performDistinct (distinct : (before.map Project.name).Nodup) (contract : Rooted c.sys) :
    ((c.perform before).stored.map Project.name).Nodup := by
  have frame := RegistryRuns.performFrame distinct contract
  have same : ∀ {name : Str}, SameBut name before (c.perform before).stored → ((c.perform before).stored.map Project.name).Nodup := by
    intro name kept
    have names := congrArg (List.map Prod.fst) (sameButIdentity kept)
    simp only [List.map_map] at names
    exact names ▸ distinct
  cases h : c.op with
  | add path label =>
    rcases RegistryRuns.carefulCases (RegistryRuns.performCareful c before) with kept | ⟨reply,ok⟩
    · exact kept.symm ▸ distinct
    · obtain ⟨target,_,_,⟨_,kept⟩ | ⟨p,written,_,_,_,lowest⟩⟩ := RegistryRuns.performRegisters contract h ok
      · exact kept.symm ▸ distinct
      · rw [written,List.map_append]
        refine List.nodup_append.mpr ⟨distinct,List.nodup_singleton _,fun name old new last => ?_⟩
        rintro rfl
        exact RegistryRuns.lowestFree lowest (List.mem_singleton.mp last ▸ old)
  | remove name =>
    rw [h] at frame
    rcases frame with kept | kept
    · exact kept.symm ▸ distinct
    · rw [kept]
      exact distinct.sublist (List.filter_sublist.map _)
  | reorder names =>
    rw [h] at frame
    exact (frame.map Project.name).nodup_iff.mpr distinct
  | update name settings | bindScope name scope | unbindScope name folder =>
    rw [h] at frame
    exact same frame

end Calls

def Stood (home : Str) (past : List (List Project)) (p : Project) : Prop := ∃ stored ∈ past, ∃ q ∈ stored, p = resolved home q

def Held (past : List (List Project)) (name : Str) : Prop := ∃ stored ∈ past, name ∈ stored.map Project.name

structure Shown (home : Str) (past : List (List Project)) (list : List Project) : Prop where
  once : (list.map Project.name).Nodup
  stood : ∀ p ∈ list, Stood home past p

structure Flown (home : Str) (past : List (List Project)) (chosen : List Str) (f : Flight) : Prop where
  added : ∀ path label, f.ask = .add path label → path ∈ chosen
  selects : ∀ name, f.ask = .list (.selects name) → Held past name
  picked : ∀ path, f.answer = some (.ok (.path path)) → path ∈ chosen
  listed : ∀ projects, f.answer = some (.ok (.listed projects)) → ∃ stored ∈ past, projects = stored.map (resolved home)
  ordered : ∀ projects, f.answer = some (.ok (.wrote (.order projects))) → ∃ stored ∈ past, projects = stored.map (resolved home)
  project : ∀ p, f.answer = some (.ok (.wrote (.project p))) → (∀ name, f.ask ≠ .remove name) → Stood home past p

structure Sound (home : Str) (s : Strip) : Prop where
  now : s.stored ∈ s.past
  distinct : ∀ stored ∈ s.past, (stored.map Project.name).Nodup
  list : Shown home s.past s.list
  drawn : Shown home s.past s.drawn.list
  active : ∀ name, s.activeName = some name → Held s.past name
  pending : ∀ p, s.pending = some p → p.path ∈ s.chosen
  offered : ∀ p, s.drawn.pending = some p → p.path ∈ s.chosen
  flights : ∀ f ∈ s.flights, Flown home s.past s.chosen f

section Strips
variable {home : Str} {past more : List (List Project)} {chosen : List Str} {list : List Project} {s t : Strip} {kit : Sortable}

theorem Stood.held {p : Project} (stood : Stood home past p) : Held past p.name := by
  obtain ⟨stored,member,q,inside,rfl⟩ := stood
  exact ⟨stored,member,List.mem_map.mpr ⟨q,inside,rfl⟩⟩

theorem Stood.grown {p : Project} (stood : Stood home past p) : Stood home (past ++ more) p := by
  obtain ⟨stored,member,rest⟩ := stood
  exact ⟨stored,List.mem_append_left _ member,rest⟩

theorem Held.grown {name : Str} (held : Held past name) : Held (past ++ more) name := by
  obtain ⟨stored,member,rest⟩ := held
  exact ⟨stored,List.mem_append_left _ member,rest⟩

theorem Shown.grown (shown : Shown home past list) : Shown home (past ++ more) list :=
  ⟨shown.once,fun p member => (shown.stood p member).grown⟩

theorem Flown.grown {f : Flight} (flown : Flown home past chosen f) : Flown home (past ++ more) chosen f where
  added := flown.added
  selects name same := (flown.selects name same).grown
  picked := flown.picked
  listed projects same := by
    obtain ⟨stored,member,rest⟩ := flown.listed projects same
    exact ⟨stored,List.mem_append_left _ member,rest⟩
  ordered projects same := by
    obtain ⟨stored,member,rest⟩ := flown.ordered projects same
    exact ⟨stored,List.mem_append_left _ member,rest⟩
  project p same kept := (flown.project p same kept).grown

theorem Flown.offered {f : Flight} (flown : Flown home past chosen f) (paths : List Str) :
    Flown home past (chosen ++ paths) f :=
  ⟨fun path label same => List.mem_append_left _ (flown.added path label same),flown.selects,
    fun path same => List.mem_append_left _ (flown.picked path same),flown.listed,flown.ordered,flown.project⟩

theorem storedShown {stored : List Project} (member : stored ∈ past) (distinct : (stored.map Project.name).Nodup) :
    Shown home past (stored.map (resolved home)) := by
  refine ⟨?_,fun p inside => ?_⟩
  · rw [List.map_map]
    exact distinct
  · obtain ⟨q,there,rfl⟩ := List.mem_map.mp inside
    exact ⟨stored,member,q,there,rfl⟩

theorem Shown.names (shown : Shown home past list) {name : Str} (member : name ∈ list.map Project.name) : Held past name := by
  obtain ⟨p,inside,rfl⟩ := List.mem_map.mp member
  exact (shown.stood p inside).held

theorem Sound.grown (sound : Sound home s) {stored : List Project} (distinct : (stored.map Project.name).Nodup)
    {flights : List Flight} (flown : ∀ f ∈ flights, Flown home (s.past ++ [stored]) s.chosen f) :
    Sound home { s with stored, past := s.past ++ [stored], flights } where
  now := List.mem_append_right _ (List.mem_singleton_self _)
  distinct later member := by
    rcases List.mem_append.mp member with old | new
    · exact sound.distinct later old
    · exact List.mem_singleton.mp new ▸ distinct
  list := sound.list.grown
  drawn := sound.drawn.grown
  active name same := (sound.active name same).grown
  pending := sound.pending
  offered := sound.offered
  flights := flown

theorem Sound.sends {ask : Ask} (sound : Sound home s) (flown : Flown home s.past s.chosen ⟨ask,none⟩) :
    Sound home (s.sends ask) :=
  { sound with
    flights := fun f member => by
      rcases List.mem_append.mp member with old | new
      · exact sound.flights f old
      · exact List.mem_singleton.mp new ▸ flown }

theorem flownPlain {ask : Ask} (added : ∀ path label, ask ≠ .add path label) (selects : ∀ name, ask ≠ .list (.selects name)) :
    Flown home past chosen ⟨ask,none⟩ :=
  ⟨fun path label same => absurd same (added path label),fun name same => absurd same (selects name),nofun,nofun,nofun,nofun⟩

theorem Sound.fails (sound : Sound home s) (err : Failure) : Sound home (s.fails err) := { sound with }

theorem Sound.selects (sound : Sound home s) {active : Option Str} (held : ∀ name, active = some name → Held s.past name) :
    Sound home { s with activeName := active } := { sound with active := held }

theorem Sound.shows (sound : Sound home s) {list : List Project} (shown : Shown home s.past list) : Sound home { s with list } :=
  { sound with list := shown }

theorem Shown.replace {p : Project} (shown : Shown home past list) (stood : Stood home past p) :
    Shown home past (list.map (fun q => if q.name = p.name then p else q)) := by
  have names : (list.map (fun q => if q.name = p.name then p else q)).map Project.name = list.map Project.name := by
    rw [List.map_map]
    refine List.map_congr_left (fun q _ => ?_)
    simp only [Function.comp_apply]
    split
    · next same => exact same.symm
    · rfl
  refine ⟨names ▸ shown.once,fun q member => ?_⟩
  obtain ⟨old,there,rfl⟩ := List.mem_map.mp member
  split
  · exact stood
  · exact shown.stood old there

theorem reloadHeld {projects : List Project} {active : Option Str} (shown : Shown home past projects)
    (held : ∀ name, active = some name → Held past name) (name : Str)
    (same : Workbench.selectionAfterReload (projects.map row) active = some name) : Held past name := by
  unfold Workbench.selectionAfterReload at same
  split at same
  · exact held name same
  · obtain ⟨first,head,rfl⟩ := Option.map_eq_some_iff.mp same
    obtain ⟨p,inside,rfl⟩ := List.mem_map.mp (List.mem_of_mem_head? head)
    exact (shown.stood p inside).held

theorem removeHeld {projects : List Project} {active : Option Str} {gone : Str} (shown : Shown home past projects)
    (held : ∀ name, active = some name → Held past name) (name : Str)
    (same : Workbench.selectionAfterRemove (projects.map row) gone active = some name) : Held past name := by
  unfold Workbench.selectionAfterRemove at same
  split at same
  · exact held name same
  · split at same
    · exact held name same
    · obtain ⟨next,there,rfl⟩ := Option.map_eq_some_iff.mp same
      obtain ⟨p,inside,rfl⟩ := List.mem_map.mp (List.mem_of_mem_filter (List.mem_of_getElem? there))
      exact (shown.stood p inside).held

theorem Sound.finish (sound : Sound home s) {after : After} (held : ∀ name, after = .selects name → Held s.past name) :
    Sound home (s.finish after) := by
  cases after with
  | nothing => exact sound
  | selects name =>
    exact sound.selects (fun other same => Option.some.inj same ▸ held name rfl)
  | reports err => exact sound.fails err

theorem Sound.listed (sound : Sound home s) {projects : List Project} (shown : Shown home s.past projects) :
    Sound home (s.listed projects) :=
  { sound with list := shown, active := reloadHeld shown sound.active }

theorem Sound.answered (sound : Sound home s) {projects : List Project}
    (told : ∃ stored ∈ s.past, projects = stored.map (resolved home)) : Shown home s.past projects := by
  obtain ⟨stored,member,rfl⟩ := told
  exact storedShown member (sound.distinct stored member)

theorem Sound.landed {ask : Ask} {told : Answer Told} (sound : Sound home s)
    (flown : Flown home s.past s.chosen ⟨ask,some told⟩) : Sound home (s.landed ask told) := by
  have plain : ∀ {ask : Ask}, (∀ path label, ask ≠ .add path label) → (∀ name, ask ≠ .list (.selects name)) →
      Sound home (s.sends ask) := fun added selects => sound.sends (flownPlain added selects)
  have replaces : ∀ {p : Project}, told = .ok (.wrote (.project p)) → (∀ name, ask ≠ .remove name) → Sound home (s.replace p) :=
    fun same kept => sound.shows (sound.list.replace (flown.project _ (congrArg some same) kept))
  cases ask with
  | list after =>
    have held : ∀ name, after = .selects name → Held s.past name := fun name same => flown.selects name (same ▸ rfl)
    cases told with
    | error err => exact (sound.fails err).finish held
    | ok told =>
      cases told with
      | listed projects => exact (sound.listed (sound.answered (flown.listed projects rfl))).finish held
      | path | wrote => exact sound
  | choose =>
    cases told with
    | error err => exact sound.fails err
    | ok told =>
      cases told with
      | path chosen =>
        simp only [Strip.landed]
        split
        · exact sound
        · exact { sound with pending := fun p same => Option.some.inj same ▸ flown.picked chosen rfl }
      | listed | wrote => exact sound
  | add path label =>
    cases told with
    | error err => exact sound.fails err
    | ok told =>
      cases told with
      | wrote reply =>
        cases reply with
        | project p =>
          have stood := flown.project p rfl nofun
          refine sound.sends ⟨nofun,fun name same => ?_,nofun,nofun,nofun,nofun⟩
          cases same
          exact stood.held
        | order => exact sound
      | path | listed => exact sound
  | update name settings dialog =>
    cases told with
    | error err =>
      cases dialog with
      | true => exact sound
      | false => exact sound.fails err
    | ok told =>
      cases told with
      | wrote reply =>
        cases reply with
        | project p => exact replaces rfl nofun
        | order => cases dialog <;> exact sound
      | path | listed => cases dialog <;> exact sound
  | bindScope | unbindScope =>
    cases told with
    | error err => exact sound
    | ok told =>
      cases told with
      | wrote reply =>
        cases reply with
        | project p => exact replaces rfl nofun
        | order => exact sound
      | path | listed => exact sound
  | remove name =>
    cases told with
    | error err => exact sound.fails err
    | ok told => exact plain nofun (fun name => by simp)
  | reorder names =>
    cases told with
    | error err => exact plain nofun (fun name => by simp)
    | ok told =>
      cases told with
      | wrote reply =>
        cases reply with
        | order projects => exact sound.shows (sound.answered (flown.ordered projects rfl))
        | project => exact sound
      | path | listed => exact sound

theorem dragShown {active : Str} {over_ : Option Str} {names : List Str} (shown : Shown home past list)
    (dragged : orderAfterDrag kit (list.map Project.name) active over_ = some names) :
    Shown home past (orderProjects list names) := by
  have distinct : names.Nodup := by
    unfold orderAfterDrag at dragged
    split at dragged
    · cases dragged
    · split at dragged
      · cases dragged
      · split at dragged
        · cases dragged
        · next target _ outside =>
          obtain ⟨from_,to_⟩ := not_or.mp outside
          have inside := List.idxOf_lt_length_of_mem (not_not.mp from_)
          have landing := List.idxOf_lt_length_of_mem (not_not.mp to_)
          rw [← Option.some.inj dragged,kit.moves _ _ _ inside landing]
          exact (movedPerm inside landing).nodup_iff.mpr shown.once
  have kept : (orderProjects list names).Perm list := orderKeeps distinct
  exact ⟨(kept.map Project.name).nodup_iff.mpr shown.once,fun p member => shown.stood p (kept.subset member)⟩

theorem Flown.read {ask : Ask} {sys : System} {io : Disk} {stored : List Project} {sentence : List Piece}
    (flown : Flown sys.home past chosen ⟨ask,none⟩) (here : stored ∈ past) :
    Flown sys.home past chosen ⟨ask,some ((wrapping sentence (Registry.list sys io stored)).map .listed)⟩ := by
  have told : ∀ out : Told, (wrapping sentence (Registry.list sys io stored)).map .listed = (.ok out : Answer Told) →
      out = .listed (stored.map (resolved sys.home)) := by
    intro out same
    cases fault : io.loadFault <;> simp_all [Registry.list,load,wrapping,Except.map]
  refine ⟨flown.added,flown.selects,fun path same => ?_,fun projects same => ?_,fun projects same => ?_,fun p same => ?_⟩
  · cases told _ (Option.some.inj same)
  · cases told _ (Option.some.inj same)
    exact ⟨stored,here,rfl⟩
  · cases told _ (Option.some.inj same)
  · cases told _ (Option.some.inj same)

theorem Flown.written {ask : Ask} {c : Call} {before : List Project} {sentence : List Piece}
    (flown : Flown c.sys.home past chosen ⟨ask,none⟩) (write : ask.op = some c.op) (here : (c.perform before).stored ∈ past) :
    Flown c.sys.home past chosen ⟨ask,some ((wrapping sentence (c.perform before).answer).map .wrote)⟩ := by
  have told : ∀ out : Told, (wrapping sentence (c.perform before).answer).map .wrote = (.ok out : Answer Told) →
      ∃ reply, (c.perform before).answer = .ok reply ∧ out = .wrote reply := by
    intro out same
    cases answered : (c.perform before).answer with
    | error err => simp [answered,wrapping,Except.map] at same
    | ok reply => exact ⟨reply,rfl,by simpa [answered,wrapping,Except.map] using same.symm⟩
  refine ⟨flown.added,flown.selects,fun path same => ?_,fun projects same => ?_,fun projects same => ?_,fun p same kept => ?_⟩
  · obtain ⟨reply,_,other⟩ := told _ (Option.some.inj same)
    cases other
  · obtain ⟨reply,_,other⟩ := told _ (Option.some.inj same)
    cases other
  · obtain ⟨reply,ok,this_⟩ := told _ (Option.some.inj same)
    cases this_
    exact ⟨_,here,orderTold ok⟩
  · obtain ⟨reply,ok,this_⟩ := told _ (Option.some.inj same)
    cases this_
    have stays : ∀ name, c.op ≠ .remove name := by
      intro name removes
      rw [removes] at write
      cases ask with
      | remove other => exact kept other rfl
      | _ => simp at write
    obtain ⟨q,inside,answer⟩ := projectTold stays ok
    exact ⟨_,here,q,inside,answer⟩

theorem Sound.answers {i : Nat} {ask : Ask} {sys : System} {io : Disk} (sound : Sound home s) (here : s.flights[i]? = some ⟨ask,none⟩)
    (under : sys.home = home) (contract : Rooted sys) :
    Sound home { s with
      stored := (s.perform ask sys io).2
      past := s.past ++ [(s.perform ask sys io).2]
      flights := s.flights.set i ⟨ask,some (s.perform ask sys io).1⟩ } := by
  subst under
  have newest : (s.perform ask sys io).2 ∈ s.past ++ [(s.perform ask sys io).2] := List.mem_append_right _ (List.mem_singleton_self _)
  have sent : Flown sys.home (s.past ++ [(s.perform ask sys io).2]) s.chosen ⟨ask,none⟩ :=
    (sound.flights _ (List.mem_of_getElem? here)).grown
  have others : ∀ told, Flown sys.home (s.past ++ [(s.perform ask sys io).2]) s.chosen ⟨ask,some told⟩ →
      ∀ f ∈ s.flights.set i ⟨ask,some told⟩, Flown sys.home (s.past ++ [(s.perform ask sys io).2]) s.chosen f := by
    intro told new f member
    rcases Runs.memSetCases member with rfl | ⟨_,_,old⟩
    · exact new
    · exact (sound.flights f (List.mem_of_getElem? old)).grown
  cases write : ask.op with
  | none =>
    have same : s.perform ask sys io = ((wrapping ask.sentence (Registry.list sys io s.stored)).map .listed,s.stored) := by
      simp only [Strip.perform,write]
    rw [same] at newest sent others ⊢
    exact sound.grown (sound.distinct _ sound.now) (others _ (sent.read newest))
  | some op =>
    have same : s.perform ask sys io = ((wrapping ask.sentence ((⟨op,sys,io⟩ : Call).perform s.stored).answer).map .wrote,
        ((⟨op,sys,io⟩ : Call).perform s.stored).stored) := by
      simp only [Strip.perform,write]
    rw [same] at newest sent others ⊢
    have written := @Flown.written _ _ ask ⟨op,sys,io⟩ s.stored ask.sentence sent write newest
    exact sound.grown (@performDistinct s.stored ⟨op,sys,io⟩ (sound.distinct _ sound.now) contract) (others _ written)

theorem Sound.step {e : Event} (sound : Sound home s) (kept : Kept home s e) (taken : ProjectStrip.step kit s e = some t) :
    Sound home t := by
  have plain : ∀ {ask : Ask}, (∀ path label, ask ≠ .add path label) → (∀ name, ask ≠ .list (.selects name)) →
      Sound home (s.sends ask) := fun added selects => sound.sends (flownPlain added selects)
  cases e with
  | render =>
    cases taken
    exact { sound with drawn := sound.list, offered := sound.pending }
  | reload => exact Option.some.inj taken ▸ plain nofun (fun name => by simp)
  | beginAdd =>
    cases taken
    have cleared : Sound home { s with error := none } := { sound with }
    exact cleared.sends (flownPlain nofun nofun)
  | cancelAdd =>
    cases taken
    exact { sound with pending := nofun }
  | commitAdd name =>
    simp only [ProjectStrip.step] at taken
    split at taken
    · exact Option.some.inj taken ▸ sound
    · next chosen drawn =>
      cases taken
      have closed : Sound home { s with pending := none } := { sound with pending := nofun }
      refine closed.sends ⟨fun path label same => ?_,nofun,nofun,nofun,nofun,nofun⟩
      cases same
      exact sound.offered chosen drawn
  | edit name e =>
    simp only [ProjectStrip.step] at taken
    split at taken
    · exact Option.some.inj taken ▸ sound
    · exact Option.some.inj taken ▸ plain nofun nofun
  | rebind | bindScope | unbindScope => exact Option.some.inj taken ▸ plain nofun nofun
  | drag active over_ =>
    simp only [ProjectStrip.step] at taken
    split at taken
    · exact Option.some.inj taken ▸ sound
    · next names dragged =>
      cases taken
      exact (sound.shows (dragShown sound.drawn dragged)).sends (flownPlain nofun nofun)
  | remove name =>
    cases taken
    exact (sound.selects (removeHeld sound.drawn sound.active)).sends (flownPlain nofun nofun)
  | select name =>
    simp only [ProjectStrip.step] at taken
    split at taken
    · next member =>
      cases taken
      exact sound.selects (fun other same => Option.some.inj same ▸ sound.drawn.names member)
    · cases taken
  | picks i answer =>
    simp only [ProjectStrip.step] at taken
    split at taken
    · next here =>
      cases taken
      refine ⟨sound.now,sound.distinct,sound.list,sound.drawn,sound.active,
        fun p same => List.mem_append_left _ (sound.pending p same),fun p same => List.mem_append_left _ (sound.offered p same),?_⟩
      intro f member
      rcases Runs.memSetCases member with rfl | ⟨_,_,old⟩
      · refine ⟨nofun,nofun,fun path same => ?_,fun projects same => ?_,fun projects same => ?_,fun p same => ?_⟩
        · cases answer with
          | error err => cases same
          | ok chosen =>
            cases same
            exact List.mem_append_right _ (List.mem_singleton_self _)
        · cases answer <;> cases same
        · cases answer <;> cases same
        · cases answer <;> cases same
      · exact (sound.flights f (List.mem_of_getElem? old)).offered _
    · cases taken
  | answers i sys io =>
    simp only [ProjectStrip.step] at taken
    split at taken
    · next ask here =>
      split at taken
      · cases taken
      · cases taken
        exact sound.answers here kept.1 kept.2
    · cases taken
  | lands i =>
    simp only [ProjectStrip.step] at taken
    split at taken
    · next ask told here =>
      cases taken
      have rest : Sound home { s with flights := s.flights.eraseIdx i } :=
        { sound with flights := fun f member => sound.flights f (List.mem_of_mem_eraseIdx member) }
      exact rest.landed (sound.flights _ (List.mem_of_getElem? here))
    · cases taken
  | rewrites projects =>
    cases taken
    exact sound.grown kept (fun f member => (sound.flights f member).grown)

end Strips

theorem openedSound {stored : List Project} {home : Str} (distinct : (stored.map Project.name).Nodup) : Sound home (opened stored) where
  now := List.mem_singleton_self _
  distinct _ member := List.mem_singleton.mp member ▸ distinct
  list := ⟨List.nodup_nil,nofun⟩
  drawn := ⟨List.nodup_nil,nofun⟩
  active := nofun
  pending := nofun
  offered := nofun
  flights _ member := List.mem_singleton.mp member ▸ flownPlain nofun nofun

/-- However many calls are under way and in whatever order they are answered and land, the strip has no
project twice and none that the registry has not held just so, the selection is of one it has held, and
only directories that were picked are registered. -/
theorem stripShows {kit : Sortable} {home : Str} {stored : List Project} {es : List Event} {s : Strip}
    (distinct : (stored.map Project.name).Nodup) (run : Run (step kit) (Kept home) (opened stored) es s) :
    (s.list.map Project.name).Nodup ∧ (∀ p ∈ s.list, ∃ held ∈ s.past, ∃ q ∈ held, p = resolved home q) ∧
      (∀ name, s.activeName = some name → ∃ held ∈ s.past, name ∈ held.map Project.name) ∧
      ∀ f ∈ s.flights, ∀ path label, f.ask = .add path label → path ∈ s.chosen := by
  have sound : Sound home s := run.invariant (openedSound distinct) (fun _ _ _ sound kept taken => sound.step kept taken)
  exact ⟨sound.list.once,sound.list.stood,sound.active,fun f member => (sound.flights f member).added⟩

def heard (i : Nat) : Event := .answers i .plain .sound

def twoAtOnce : List Event :=
  [heard 0,.lands 0,.beginAdd,.picks 0 (.ok "/srv/infra".toList),.lands 0,.render,.commitAdd " Infra ".toList,.beginAdd,
    heard 0,.lands 0,heard 1,.lands 1,.render,.edit "infra".toList (.recolor "red".toList),.picks 0 (.ok "/srv/web".toList),
    heard 1,.lands 0,.render,.commitAdd [],heard 1,.lands 0,.lands 0,heard 0,.lands 0]

theorem twoShown :
    ∃ s, exec (step .plain) (opened []) twoAtOnce = some s ∧ (s.list.map Project.name).Nodup ∧
      s.list.map Project.color = ["red".toList,[]] ∧ s.activeName = some "web".toList ∧
      s.chosen = ["/srv/infra".toList,"/srv/web".toList] := by
  have seen : (exec (step .plain) (opened []) twoAtOnce).map (fun s => (s.list.map Project.color,s.activeName,s.chosen)) =
      some (["red".toList,[]],some "web".toList,["/srv/infra".toList,"/srv/web".toList]) := by decide +kernel
  obtain ⟨s,done,shows⟩ := Option.map_eq_some_iff.mp seen
  have kept : ∀ e ∈ twoAtOnce, ∀ held, Kept System.plain.home held e := by simp [twoAtOnce,heard,Kept,plainRooted]
  have run : Run (step .plain) (Kept System.plain.home) (opened []) twoAtOnce s := (runOfExec done).allowing kept
  have distinct : (([] : List Project).map Project.name).Nodup := List.nodup_nil
  obtain ⟨colors,rest⟩ := Prod.mk.inj shows
  obtain ⟨active,chosen⟩ := Prod.mk.inj rest
  exact ⟨s,done,(stripShows distinct run).1,colors,active,chosen⟩

end M6t.ProjectStrip
