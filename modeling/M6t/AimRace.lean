import M6t.RegistryRuns
import M6t.TargetPath

/-! An aim among the registry's writes. Each of its two reads is atomic, and any
number of writes may land before, between and after them. -/
namespace M6t.AimRace
open M6t.Text M6t.SlashPath M6t.Fault M6t.KubeBinding M6t.Registry M6t.Aim M6t.TargetPath
open M6t.EntryPaths (Tree resolve)
open M6t.RegistryRuns (Call Op)
open M6t.Runs

inductive Phase where
  | idle
  | located (first : Read)
  | finished (first second : Read)
  deriving DecidableEq, Repr

structure State where
  stored : List Project
  history : List (List Project)
  phase : Phase
  deriving DecidableEq, Repr

inductive Event where
  | write (c : Call)
  | readPath (io : Disk)
  | readSettings (io : Disk)

def start (stored : List Project) : State := ⟨stored,[stored],.idle⟩

def step (s : State) : Event → Option State
  | .write c =>
      let stored := (c.perform s.stored).stored
      some { s with stored := stored, history := stored :: s.history }
  | .readPath io =>
      match s.phase with
      | .idle => some { s with phase := .located ⟨s.stored,io⟩ }
      | _ => none
  | .readSettings io =>
      match s.phase with
      | .located first => some { s with phase := .finished first ⟨s.stored,io⟩ }
      | _ => none

section Race
variable (sys : System) (tree : Tree) (name target : Str)

def Refiles (root : Str) (stored : List Project) (c : Call) : Prop :=
  ∃ path displayName checkout, c.op = .add path displayName ∧ resolve c.sys path = .ok checkout ∧
    uniqueName stored (base checkout) = name ∧ expand sys.home (abbreviate sys.home checkout) ≠ root

/-- The writes are the five that a binding can change under, by the same user,
and none of them files the name elsewhere once the path has been read. -/
def undisturbed (s : State) : Event → Prop
  | .write c => c.sys.home = sys.home ∧ (∀ names, c.op ≠ .reorder names) ∧
      ∀ first root, s.phase = .located first → projectPath sys first name = .ok root →
        ¬ Refiles sys name root s.stored c
  | _ => True

def OneRecord (s : State) : Prop :=
  ∀ first second root t, s.phase = .finished first second → projectPath sys first name = .ok root →
    aim sys tree first second name target = .ok t →
    ∃ stored ∈ s.history, ∃ p ∈ stored, p.name = name ∧ expand sys.home p.path = root ∧ t.binding = p.kube.resolve target

structure Steady (s : State) : Prop where
  current : s.stored ∈ s.history
  located : ∀ first root, s.phase = .located first → projectPath sys first name = .ok root →
    ∀ p, findProject s.stored name = some p → expand sys.home p.path = root
  finished : OneRecord sys tree name target s

variable {sys tree name target}

theorem findAppend {stored : List Project} {q p : Project} (found : findProject (stored ++ [q]) name = some p) :
    findProject stored name = some p ∨ (p = q ∧ q.name = name) := by
  rw [findProject,List.find?_append] at found
  cases before : stored.find? (fun p => p.name = name) with
  | some r => exact Or.inl (by simpa [findProject,before] using found)
  | none =>
    rw [before,Option.none_or] at found
    have last := findName found
    exact Or.inr ⟨List.mem_singleton.mp last.1,List.mem_singleton.mp last.1 ▸ last.2⟩

theorem findSameBut {other : Str} {before after : List Project} {p : Project} (same : SameBut other before after)
    (found : findProject after name = some p) : ∃ q, findProject before name = some q ∧ p.path = q.path := by
  induction same with
  | nil => simp [findProject] at found
  | @cons a b before after head tail ih =>
    by_cases h : b.name = name
    · have here : a.name = name := head.1 ▸ h
      have same : b = p := by simpa [findProject,h] using found
      exact ⟨a,by simp [findProject,here],same ▸ head.2.1⟩
    · have there : a.name ≠ name := head.1 ▸ h
      obtain ⟨q,hq,path⟩ := ih (by simpa [findProject,h] using found)
      exact ⟨q,by simpa [findProject,there] using hq,path⟩

theorem findRemoved {other : Str} {stored : List Project} {p : Project}
    (found : findProject (stored.filter (fun p => p.name ≠ other)) name = some p) : findProject stored name = some p := by
  by_cases same : name = other
  · have last := findName found
    have out := (List.mem_filter.mp last.1).2
    exact absurd (last.2.trans same) (by simpa using out)
  · rw [findProject,List.find?_filter] at found
    rw [← found,findProject]
    congr 1
    funext p
    by_cases h : p.name = name <;> simp [h,same]

theorem performFind {c : Call} {stored : List Project} {p : Project} (listed : ∀ names, c.op ≠ .reorder names)
    (found : findProject (c.perform stored).stored name = some p) :
    (∃ q, findProject stored name = some q ∧ p.path = q.path) ∨
      ∃ path displayName checkout, c.op = .add path displayName ∧ resolve c.sys path = .ok checkout ∧
        uniqueName stored (base checkout) = name ∧ p.path = abbreviate c.sys.home checkout := by
  rcases RegistryRuns.carefulCases (RegistryRuns.performCareful c stored) with same | ⟨reply,ok⟩
  · exact Or.inl ⟨p,same ▸ found,rfl⟩
  · cases h : c.op with
    | add path displayName =>
      simp only [Call.perform,h] at ok found
      obtain ⟨answer,ok⟩ := RegistryRuns.mapOk ok
      obtain ⟨checkout,place,_,same⟩ := addOk ok
      change findProject (add c.sys c.io stored path displayName).stored name = some p at found
      rw [same] at ok found
      by_cases known : ∃ q ∈ stored, expand c.sys.home q.path = checkout
      · rw [appendKnown known] at found
        exact Or.inl ⟨p,found,rfl⟩
      · have fresh : ∀ q ∈ stored, expand c.sys.home q.path ≠ checkout := fun q member here => known ⟨q,member,here⟩
        rw [(appendNew fresh ok).2] at found
        rcases findAppend found with old | ⟨rfl,named⟩
        · exact Or.inl ⟨p,old,rfl⟩
        · exact Or.inr ⟨path,displayName,checkout,rfl,place,named,rfl⟩
    | remove other =>
      simp only [Call.perform,h] at ok found
      obtain ⟨answer,ok⟩ := RegistryRuns.mapOk ok
      have written := (removeOk ok).2
      exact Or.inl ⟨p,findRemoved (written ▸ found),rfl⟩
    | reorder names => exact absurd h (listed names)
    | update other s =>
      simp only [Call.perform,h] at found
      exact Or.inl (findSameBut RegistryRuns.updateSameBut found)
    | bindScope other scope =>
      simp only [Call.perform,h] at found
      exact Or.inl (findSameBut RegistryRuns.bindSameBut found)
    | unbindScope other folder =>
      simp only [Call.perform,h] at found
      exact Or.inl (findSameBut RegistryRuns.rewriteSameBut found)

theorem steadyStart (stored : List Project) : Steady sys tree name target (start stored) where
  current := List.mem_singleton_self stored
  located := by simp [start]
  finished := by simp [OneRecord,start]

theorem steadyWrite {s : State} {c : Call} (steady : Steady sys tree name target s)
    (allowed : undisturbed sys name s (.write c)) :
    Steady sys tree name target
      ⟨(c.perform s.stored).stored,(c.perform s.stored).stored :: s.history,s.phase⟩ where
  current := List.mem_cons_self
  located first root located place p found := by
    obtain ⟨home,listed,kept⟩ := allowed
    rcases performFind listed found with ⟨q,there,path⟩ | ⟨path,displayName,checkout,named,resolved,filed,short⟩
    · exact path ▸ steady.located first root located place q there
    · by_contra moved
      rw [short,home] at moved
      exact kept first root located place ⟨path,displayName,checkout,named,resolved,filed,moved⟩
  finished first second root t finished place aimed := by
    obtain ⟨stored,member,rest⟩ := steady.finished first second root t finished place aimed
    exact ⟨stored,List.mem_cons_of_mem _ member,rest⟩

theorem steadyPath {s : State} {io : Disk} (steady : Steady sys tree name target s) :
    Steady sys tree name target { s with phase := .located ⟨s.stored,io⟩ } where
  current := steady.current
  located first root located place p found := by
    cases located
    obtain ⟨_,q,there,path⟩ := projectPathOk.mp place
    cases Option.some.inj (found.symm.trans there)
    exact path.symm
  finished := by simp [OneRecord]

theorem steadySettings {s : State} {io : Disk} {first : Read} (steady : Steady sys tree name target s)
    (here : s.phase = .located first) : Steady sys tree name target { s with phase := .finished first ⟨s.stored,io⟩ } where
  current := steady.current
  located := by simp
  finished first' second root t finished place aimed := by
    cases finished
    obtain ⟨_,_,bound,_⟩ := aimOk.mp aimed
    obtain ⟨_,p,found,binding⟩ := resolveBindingOk.mp bound
    have member := findName found
    exact ⟨s.stored,steady.current,p,member.1,member.2,steady.located first root here place p found,binding⟩

theorem steadyStep {s u : State} {e : Event} (steady : Steady sys tree name target s)
    (allowed : undisturbed sys name s e) (taken : step s e = some u) : Steady sys tree name target u := by
  cases e with
  | write c =>
    cases Option.some.inj taken
    exact steadyWrite steady allowed
  | readPath io =>
    cases phase : s.phase <;> simp only [step,phase,reduceCtorEq,Option.some.injEq] at taken
    subst taken
    exact steadyPath steady
  | readSettings io =>
    cases phase : s.phase <;> simp only [step,phase,reduceCtorEq,Option.some.injEq] at taken
    subst taken
    exact steadySettings steady phase

/-- In every run in which no write files the name at another checkout between the
two reads, root and binding come from one record of one list. -/
theorem aimOneRecord {stored : List Project} {es : List Event} {s : State}
    (run : Run step (undisturbed sys name) (start stored) es s) : OneRecord sys tree name target s :=
  (run.invariant (I := Steady sys tree name target) (steadyStart stored) (fun _ _ _ => steadyStep)).finished

end Race

def write (op : Op) : Event := .write ⟨op,.plain,.sound⟩
def prodSettings : Settings := ⟨[],[],⟨"prod-us-west".toList,"api".toList,false,[]⟩,⟨[]⟩⟩
def rebind : Event := write (.update "infra".toList prodSettings)
def rebound (path : String) : Project := ⟨"infra".toList,path.toList,[],[],[],prodSettings.kube,⟨[]⟩⟩

theorem rebindOneRecord :
    exec step (start [infra]) [.readPath .sound,rebind,.readSettings .sound] =
      some ⟨[rebound "/work/infra"],[[rebound "/work/infra"],[infra]],.finished (reads [infra]) (reads [rebound "/work/infra"])⟩ ∧
    OneRecord .plain directories "infra".toList "prod".toList
      ⟨[rebound "/work/infra"],[[rebound "/work/infra"],[infra]],
        .finished (reads [infra]) (reads [rebound "/work/infra"])⟩ := by
  have located : Run step (undisturbed .plain "infra".toList) (start [infra]) [.readPath .sound]
      ⟨[infra],[[infra]],.located (reads [infra])⟩ := .snoc .nil trivial rfl
  have calm : undisturbed .plain "infra".toList ⟨[infra],[[infra]],.located (reads [infra])⟩ rebind := by
    refine ⟨rfl,fun _ => nofun,fun first root _ _ => ?_⟩
    rintro ⟨path,displayName,checkout,named,_⟩
    cases named
  have written := Run.snoc located calm (by decide : step _ rebind =
    some ⟨[rebound "/work/infra"],[[rebound "/work/infra"],[infra]],.located (reads [infra])⟩)
  have finished : Run step (undisturbed .plain "infra".toList) (start [infra])
      [.readPath .sound,rebind,.readSettings .sound] _ :=
    .snoc written (show undisturbed .plain "infra".toList _ (.readSettings .sound) from trivial) rfl
  exact ⟨by decide,aimOneRecord finished⟩

def refiled : List Event :=
  [.readPath .sound,write (.remove "infra".toList),write (.add "/srv/infra".toList []),rebind,.readSettings .sound]

def unbound : Project := ⟨"infra".toList,"/srv/infra".toList,[],[],[],⟨[],[],false,[]⟩,⟨[]⟩⟩

def mixed : State where
  stored := [rebound "/srv/infra"]
  history := [[rebound "/srv/infra"],[unbound],[],[infra]]
  phase := .finished (reads [infra]) (reads [rebound "/srv/infra"])

theorem refiledMixes :
    exec step (start [infra]) refiled = some mixed ∧ ¬ OneRecord .plain directories "infra".toList "prod".toList mixed := by
  refine ⟨by decide,fun one => ?_⟩
  have place : projectPath .plain (reads [infra]) "infra".toList = .ok "/work/infra".toList := by decide
  have aimed : aim .plain directories (reads [infra]) (reads [rebound "/srv/infra"]) "infra".toList "prod".toList =
      .ok ⟨⟨"prod-us-west".toList,"api".toList,false,[]⟩,"/work/infra/prod".toList,true⟩ := by decide
  obtain ⟨stored,held,p,member,_,path,binding⟩ := one _ _ _ _ rfl place aimed
  have none : ∀ stored ∈ mixed.history, ∀ p ∈ stored, expand System.plain.home p.path = "/work/infra".toList →
      p.kube.resolve "prod".toList ≠ ⟨"prod-us-west".toList,"api".toList,false,[]⟩ := by decide
  exact none stored held p member path binding.symm

end M6t.AimRace
