import Mathlib.Data.List.AList
import M6t.KubeBinding

/-! The project registry: projects.yaml as a list of records, and the operations
that read it, act and write it back. Encoding and decoding of the file round-trip
and its replacement is atomic, so an operation sees the stored list or a fault and
leaves the list it meant to store or the one it found. -/
namespace M6t.Registry
open M6t.Text M6t.SlashPath M6t.Fault M6t.KubeBinding

structure Helm where
  defaultValues : List Str
  deriving DecidableEq, Repr

structure Settings where
  displayName : Str
  color : Str
  kube : Kube
  helm : Helm
  deriving DecidableEq, Repr

structure Project where
  name : Str
  path : Str
  shortPath : Str
  displayName : Str
  color : Str
  kube : Kube
  helm : Helm
  deriving DecidableEq, Repr

def Project.settings (p : Project) : Settings := ⟨p.displayName,p.color,p.kube,p.helm⟩

def Project.withSettings (p : Project) (s : Settings) : Project :=
  { p with displayName := trimSpace s.displayName, color := trimSpace s.color, kube := s.kube, helm := s.helm }

def homeMarker : Str := "~".toList

structure System where
  home : Str
  getwd : Answer Str
  evalSymlinks : Str → Answer Str
  stat : Str → Answer Bool

def System.plain : System where
  home := "/home/ada".toList
  getwd := .ok "/home/ada".toList
  evalSymlinks path := if Absolute path then .ok path else .error ⟨[],.system "no such file or directory"⟩
  stat _ := .ok true

def homeDirOr (home fallback : Str) : Str := if home = [] then fallback else home

def abbreviate (home path : Str) : Str :=
  if home = [] then path
  else if path = home then homeMarker
  else match cutPrefix (home ++ slash) path with
    | some rest => homeMarker ++ slash ++ rest
    | none => path

-- the platform's separator is the slash, so the two prefixes tried are one
def afterHomeMarker (path : Str) : Option Str := cutPrefix (homeMarker ++ slash) path

def expand (home path : Str) : Str :=
  if path = homeMarker then homeDirOr home path
  else match afterHomeMarker path with
    | none => path
    | some rest => if homeDirOr home [] = [] then path else join (homeDirOr home []) rest

def resolved (home : Str) (p : Project) : Project :=
  { p with shortPath := abbreviate home (expand home p.path), path := expand home p.path }

theorem expandAbbreviate (home path : Str) (absolute : Absolute path) :
    expand home (abbreviate home path) = path := by
  have marked : path ≠ homeMarker ∧ afterHomeMarker path = none := by
    obtain ⟨rest,rfl⟩ := List.head?_eq_some_iff.mp absolute.rooted
    exact ⟨by simp [homeMarker],by simp [afterHomeMarker,homeMarker,cutPrefix]⟩
  have plain : expand home path = path := by simp [expand,marked]
  by_cases missing : home = []
  · rw [abbreviate,if_pos missing]
    exact plain
  · by_cases whole : path = home
    · subst whole
      simp [abbreviate,missing,expand,homeDirOr]
    · cases cut : cutPrefix (home ++ slash) path with
      | none => simpa [abbreviate,missing,whole,cut] using plain
      | some rest =>
        have parts := cutPrefixExact.mp cut
        have unmarked : homeMarker ++ slash ++ rest ≠ homeMarker := by simp [homeMarker,slash]
        have after : afterHomeMarker (homeMarker ++ slash ++ rest) = some rest := cutPrefixExact.mpr rfl
        simp only [abbreviate,missing,whole,cut,if_false,expand,if_neg unmarked,after,homeDirOr]
        exact joinSplit parts missing absolute.cleaned

/-- The faults one call meets when it reads the file and when it replaces it. -/
structure Disk where
  loadFault : Option Failure
  saveFault : Option Failure
  deriving DecidableEq, Repr

def Disk.sound : Disk := ⟨none,none⟩

structure Outcome (α : Type) where
  answer : Answer α
  stored : List Project

def Outcome.map {α β : Type} (f : α → β) (out : Outcome α) : Outcome β := ⟨out.answer.map f,out.stored⟩

def load (io : Disk) (stored : List Project) : Answer (List Project) :=
  match io.loadFault with
  | some err => .error err
  | none => .ok stored

def save {α : Type} (io : Disk) (stored projects : List Project) (answer : α) : Outcome α :=
  match io.saveFault with
  | some err => ⟨.error err,stored⟩
  | none => ⟨.ok answer,projects⟩

def refuse {α : Type} (stored : List Project) (err : Failure) : Outcome α := ⟨.error err,stored⟩

def loading {α : Type} (io : Disk) (stored : List Project) (next : List Project → Outcome α) : Outcome α :=
  match load io stored with
  | .error err => refuse stored err
  | .ok projects => next projects

def findProject (projects : List Project) (name : Str) : Option Project :=
  projects.find? (fun p => p.name = name)

def replaceFirst (name : Str) (new : Project) : List Project → List Project
  | [] => []
  | p :: rest => if p.name = name then new :: rest else p :: replaceFirst name new rest

def list (sys : System) (io : Disk) (stored : List Project) : Answer (List Project) :=
  (load io stored).map (List.map (resolved sys.home))

def settings (io : Disk) (stored : List Project) (name : Str) : Answer Settings := do
  let projects ← load io stored
  match findProject projects name with
  | some p => .ok p.settings
  | none => .error (errorf [.text "reading settings for ",.shown name] .errNotFound)

def filepathAbs (sys : System) (path : Str) : Answer Str :=
  if path.head? = some '/' then .ok (clean path)
  else do
    let wd ← sys.getwd
    .ok (join wd path)

def resolve (sys : System) (path : Str) : Answer Str :=
  let trimmed := trimSpace path
  if trimmed = [] then .error ⟨[],.errPathRequired⟩
  else do
    let absolute ← wrapping [.text "resolving ",.shown trimmed] (filepathAbs sys (expand sys.home trimmed))
    wrapping [.text "resolving ",.shown absolute] (sys.evalSymlinks absolute)

def requireRepository (sys : System) (dir : Str) : Answer Unit := do
  let isDir ← wrapping [.text "reading ",.shown dir] (sys.stat dir)
  if isDir then
    match sys.stat (join dir ".git".toList) with
    | .ok _ => .ok ()
    | .error _ => .error (errorf [.text "checking ",.shown dir] .errNotRepository)
  else .error (errorf [.text "checking ",.shown dir] .errNotRepository)

def candidate (base : Str) (n : Nat) : Str := base ++ "-".toList ++ n.repr.toList

def searchName (taken : List Str) (base : Str) : Nat → Nat → Str
  | 0, n => candidate base n
  | fuel + 1, n => if candidate base n ∉ taken then candidate base n else searchName taken base fuel (n + 1)

/-- One of the first `length + 1` suffixes is free, so the search needs no more
fuel than there are projects (`candidateFree`). -/
def uniqueName (projects : List Project) (base : Str) : Str :=
  let taken := projects.map Project.name
  if base ∉ taken then base else searchName taken base taken.length 2

def newProject (home : Str) (projects : List Project) (target displayName : Str) : Project where
  name := uniqueName projects (base target)
  path := abbreviate home target
  shortPath := []
  displayName := displayName
  color := []
  kube := ⟨[],[],false,[]⟩
  helm := ⟨[]⟩

def append (sys : System) (io : Disk) (stored : List Project) (target displayName : Str) : Outcome Project :=
  loading io stored fun projects =>
    match projects.find? (fun p => expand sys.home p.path = target) with
    | some p => ⟨.ok (resolved sys.home p),stored⟩
    | none =>
        let added := newProject sys.home projects target displayName
        save io stored (projects ++ [added]) (resolved sys.home added)

def add (sys : System) (io : Disk) (stored : List Project) (path displayName : Str) : Outcome Project :=
  match resolve sys path with
  | .error err => refuse stored err
  | .ok target =>
      match requireRepository sys target with
      | .error err => refuse stored err
      | .ok _ => append sys io stored target (trimSpace displayName)

/-- The last record under the name is the one answered. -/
def remove (sys : System) (io : Disk) (stored : List Project) (name : Str) : Outcome Project :=
  loading io stored fun projects =>
    match (projects.filter (fun p => p.name = name)).getLast? with
    | none => refuse stored (errorf [.text "removing ",.shown name] .errNotFound)
    | some removed => save io stored (projects.filter (fun p => p.name ≠ name)) (resolved sys.home removed)

def remainingOf (projects : List Project) : AList (fun _ : Str => Project) :=
  projects.foldl (fun remaining p => remaining.insert p.name p) ∅

def reorderLoop : List Str → AList (fun _ : Str => Project) → List Project →
    Answer (List Project × AList (fun _ : Str => Project))
  | [], remaining, ordered => .ok (ordered,remaining)
  | name :: names, remaining, ordered =>
      match remaining.lookup name with
      | none => .error (errorf [.text "reordering ",.shown name] .errNotFound)
      | some p => reorderLoop names (remaining.erase name) (ordered ++ [p])

def reorder (sys : System) (io : Disk) (stored : List Project) (names : List Str) : Outcome (List Project) :=
  loading io stored fun projects =>
    match reorderLoop names (remainingOf projects) [] with
    | .error err => refuse stored err
    | .ok (ordered,remaining) =>
        if remaining.entries ≠ [] then
          refuse stored (errorf [.text "reordering projects"] .errIncompleteOrder)
        else save io stored ordered (ordered.map (resolved sys.home))

def update (sys : System) (io : Disk) (stored : List Project) (name : Str) (s : Settings) : Outcome Project :=
  -- the scopes are checked before the file is read
  match validateScopes s.kube with
  | .error err => refuse stored (err.wrap [.text "updating ",.shown name])
  | .ok kube =>
      loading io stored fun projects =>
        match findProject projects name with
        | none => refuse stored (errorf [.text "updating ",.shown name] .errNotFound)
        | some p =>
            let new := p.withSettings { s with kube := kube }
            save io stored (replaceFirst name new projects) (resolved sys.home new)

def rewriteScopes (sys : System) (io : Disk) (stored : List Project) (name : Str)
    (change : List Scope → List Scope) : Outcome Project :=
  loading io stored fun projects =>
    match findProject projects name with
    | none => refuse stored (errorf [.text "binding a folder in ",.shown name] .errNotFound)
    | some p =>
        match validateScopes { p.kube with scopes := change p.kube.scopes } with
        | .error err => refuse stored (err.wrap [.text "binding a folder in ",.shown name])
        | .ok validated =>
            let new := { p with kube := validated }
            save io stored (replaceFirst name new projects) (resolved sys.home new)

def without (target : Str) (scopes : List Scope) : List Scope :=
  scopes.filter (fun existing => cleanScope existing.path ≠ target)

def unbindScope (sys : System) (io : Disk) (stored : List Project) (name folder : Str) : Outcome Project :=
  rewriteScopes sys io stored name (without (cleanScope folder))

def bindScope (sys : System) (io : Disk) (stored : List Project) (name : Str) (scope : Scope) : Outcome Project :=
  if scope.overridesNothing then unbindScope sys io stored name scope.path
  else rewriteScopes sys io stored name (fun scopes => without (cleanScope scope.path) scopes ++ [scope])

def Outcome.Careful {α : Type} (before : List Project) (out : Outcome α) : Prop :=
  ∀ err, out.answer = .error err → out.stored = before

section Frames
variable {α : Type} {io : Disk} {stored : List Project}

theorem refuseCareful (err : Failure) : (refuse (α := α) stored err).Careful stored := fun _ _ => rfl

theorem saveCareful (projects : List Project) (answer : α) :
    (save io stored projects answer).Careful stored := by
  intro err refused
  cases h : io.saveFault with
  | some _ => simp [save,h]
  | none => simp [save,h] at refused

theorem saveOk {projects : List Project} {answer a : α} (ok : (save io stored projects answer).answer = .ok a) :
    a = answer ∧ (save io stored projects answer).stored = projects := by
  cases h : io.saveFault with
  | some _ => simp [save,h] at ok
  | none => simp_all [save]

theorem loadingCareful {next : List Project → Outcome α}
    (careful : (next stored).Careful stored) : (loading io stored next).Careful stored := by
  cases h : io.loadFault with
  | some err => simpa [loading,load,h] using refuseCareful err
  | none => simpa [loading,load,h] using careful

theorem loadingOk {next : List Project → Outcome α} {a : α} (ok : (loading io stored next).answer = .ok a) :
    loading io stored next = next stored := by
  cases h : io.loadFault with
  | some err => simp [loading,load,h,refuse] at ok
  | none => simp [loading,load,h]

end Frames

section Calls
variable {sys : System} {io : Disk} {stored : List Project}

theorem appendCareful (target displayName : Str) : (append sys io stored target displayName).Careful stored := by
  refine loadingCareful ?_
  split
  · exact fun _ _ => rfl
  · exact saveCareful _ _

theorem addCareful (path displayName : Str) : (add sys io stored path displayName).Careful stored := by
  unfold add
  split
  · exact refuseCareful _
  · split
    · exact refuseCareful _
    · exact appendCareful _ _

theorem removeCareful (name : Str) : (remove sys io stored name).Careful stored := by
  refine loadingCareful ?_
  split
  · exact refuseCareful _
  · exact saveCareful _ _

theorem reorderCareful (names : List Str) : (reorder sys io stored names).Careful stored := by
  refine loadingCareful ?_
  split
  · exact refuseCareful _
  · split
    · exact refuseCareful _
    · exact saveCareful _ _

theorem updateCareful (name : Str) (s : Settings) : (update sys io stored name s).Careful stored := by
  unfold update
  split
  · exact refuseCareful _
  · refine loadingCareful ?_
    split
    · exact refuseCareful _
    · exact saveCareful _ _

theorem rewriteCareful (name : Str) (change : List Scope → List Scope) :
    (rewriteScopes sys io stored name change).Careful stored := by
  refine loadingCareful ?_
  split
  · exact refuseCareful _
  · split
    · exact refuseCareful _
    · exact saveCareful _ _

theorem bindCareful (name : Str) (scope : Scope) : (bindScope sys io stored name scope).Careful stored := by
  unfold bindScope
  split
  · exact rewriteCareful _ _
  · exact rewriteCareful _ _

theorem appendKnown {target displayName : Str} (known : ∃ p ∈ stored, expand sys.home p.path = target) :
    (append sys io stored target displayName).stored = stored := by
  cases fault : io.loadFault with
  | some err => simp [append,loading,load,fault,refuse]
  | none =>
    simp only [append,loading,load,fault]
    cases found : stored.find? (fun p => expand sys.home p.path = target) with
    | some p => rfl
    | none =>
      obtain ⟨p,member,same⟩ := known
      exact absurd same (by simpa using List.find?_eq_none.mp found p member)

theorem appendNew {target displayName : Str} {answer : Project}
    (fresh : ∀ p ∈ stored, expand sys.home p.path ≠ target)
    (ok : (append sys io stored target displayName).answer = .ok answer) :
    answer = resolved sys.home (newProject sys.home stored target displayName) ∧
      (append sys io stored target displayName).stored =
        stored ++ [newProject sys.home stored target displayName] := by
  have none : stored.find? (fun p => expand sys.home p.path = target) = none :=
    List.find?_eq_none.mpr (fun p member => by simpa using fresh p member)
  have loaded := loadingOk ok
  rw [none] at loaded
  rw [append,loaded] at ok ⊢
  exact saveOk ok

theorem addOk {path displayName : Str} {answer : Project} (ok : (add sys io stored path displayName).answer = .ok answer) :
    ∃ target, resolve sys path = .ok target ∧ requireRepository sys target = .ok () ∧
      add sys io stored path displayName = append sys io stored target (trimSpace displayName) := by
  unfold add at ok ⊢
  cases place : resolve sys path with
  | error err => simp [place,refuse] at ok
  | ok target =>
    cases checked : requireRepository sys target with
    | error err => simp [place,checked,refuse] at ok
    | ok _ => exact ⟨target,rfl,checked,by simp [checked]⟩

theorem removeOk {name : Str} {answer : Project} (ok : (remove sys io stored name).answer = .ok answer) :
    (∃ p ∈ stored, p.name = name ∧ answer = resolved sys.home p) ∧
      (remove sys io stored name).stored = stored.filter (fun p => p.name ≠ name) := by
  have loaded := loadingOk ok
  rw [remove,loaded] at ok ⊢
  cases last : (stored.filter (fun p => p.name = name)).getLast? with
  | none => simp [last,refuse] at ok
  | some p =>
    simp only [last] at ok ⊢
    obtain ⟨same,written⟩ := saveOk ok
    have member := List.mem_of_getLast? last
    exact ⟨⟨p,List.mem_of_mem_filter member,by simpa using List.of_mem_filter member,same⟩,written⟩

theorem updateOk {name : Str} {s : Settings} {answer : Project} (ok : (update sys io stored name s).answer = .ok answer) :
    ∃ p kube, findProject stored name = some p ∧ validateScopes s.kube = .ok kube ∧
      answer = resolved sys.home (p.withSettings { s with kube := kube }) ∧
      (update sys io stored name s).stored = replaceFirst name (p.withSettings { s with kube := kube }) stored := by
  unfold update at ok ⊢
  cases valid : validateScopes s.kube with
  | error err => simp [valid,refuse] at ok
  | ok kube =>
    simp only [valid] at ok ⊢
    have loaded := loadingOk ok
    rw [loaded] at ok ⊢
    cases found : findProject stored name with
    | none => simp [found,refuse] at ok
    | some p =>
      simp only [found] at ok ⊢
      obtain ⟨same,written⟩ := saveOk ok
      exact ⟨p,kube,rfl,rfl,same,written⟩

theorem rewriteOk {name : Str} {change : List Scope → List Scope} {answer : Project}
    (ok : (rewriteScopes sys io stored name change).answer = .ok answer) :
    ∃ p kube, findProject stored name = some p ∧
      validateScopes { p.kube with scopes := change p.kube.scopes } = .ok kube ∧
      answer = resolved sys.home { p with kube := kube } ∧
      (rewriteScopes sys io stored name change).stored = replaceFirst name { p with kube := kube } stored := by
  have loaded := loadingOk ok
  rw [rewriteScopes,loaded] at ok ⊢
  cases found : findProject stored name with
  | none => simp [found,refuse] at ok
  | some p =>
    simp only [found] at ok ⊢
    cases valid : validateScopes { p.kube with scopes := change p.kube.scopes } with
    | error err => simp [valid,refuse] at ok
    | ok kube =>
      simp only [valid] at ok ⊢
      obtain ⟨same,written⟩ := saveOk ok
      exact ⟨p,kube,rfl,valid,same,written⟩

end Calls

theorem findName {stored : List Project} {name : Str} {p : Project} (found : findProject stored name = some p) :
    p ∈ stored ∧ p.name = name :=
  ⟨List.mem_of_find?_eq_some found,by simpa using List.find?_some found⟩

def SameBut (name : Str) (before after : List Project) : Prop :=
  List.Forall₂ (fun p q => q.name = p.name ∧ q.path = p.path ∧ (p.name ≠ name → q = p)) before after

theorem sameButRefl (name : Str) (stored : List Project) : SameBut name stored stored :=
  List.forall₂_same.mpr (fun _ _ => ⟨rfl,rfl,fun _ => rfl⟩)

theorem replaceSameBut {name : Str} {stored : List Project} {p new : Project}
    (found : findProject stored name = some p) (place : new.name = p.name ∧ new.path = p.path) :
    SameBut name stored (replaceFirst name new stored) := by
  induction stored with
  | nil => simp [findProject] at found
  | cons q rest ih =>
    by_cases h : q.name = name
    · have same : q = p := by simpa [findProject,h] using found
      subst same
      rw [replaceFirst,if_pos h]
      exact .cons ⟨place.1,place.2,fun other => absurd h other⟩ (sameButRefl name rest)
    · rw [replaceFirst,if_neg h]
      exact .cons ⟨rfl,rfl,fun _ => rfl⟩ (ih (by simpa [findProject,h] using found))

def identity (p : Project) : Str × Str := (p.name,p.path)

theorem sameButIdentity {name : Str} {before after : List Project} (same : SameBut name before after) :
    after.map identity = before.map identity := by
  induction same with
  | nil => rfl
  | cons head tail ih => simp [identity,head.1,head.2.1,ih]

end M6t.Registry
