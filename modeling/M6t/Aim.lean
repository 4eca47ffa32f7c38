import M6t.Registry
import M6t.EntryPaths
import M6t.Kubectl

/-! The bound half of the pipeline: every call finds the checkout and the binding
in the registry, confines the path, and on a protected binding asks for the
context name before anything that changes a cluster. -/
namespace M6t.Aim
open M6t.Text M6t.SlashPath M6t.Fault M6t.KubeBinding M6t.Registry
open M6t.EntryPaths (Tree resolve)

structure Read where
  stored : List Project
  io : Disk
  deriving DecidableEq, Repr

def projectPath (sys : System) (r : Read) (name : Str) : Answer Str := do
  let projects ← wrapping [.text "finding ",.shown name] (list sys r.io r.stored)
  match findProject projects name with
  | some p => .ok p.path
  | none => .error (errorf [.text "finding ",.shown name] .errNotFound)

def resolveBinding (r : Read) (name rel : Str) : Answer Binding := do
  let s ← wrapping [.text "resolving the kube binding for ",.shown name] (settings r.io r.stored name)
  .ok (s.kube.resolve rel)

structure Aimed where
  binding : Binding
  path : Str
  dir : Bool
  deriving DecidableEq, Repr

def Aimed.location (t : Aimed) : Kubectl.Binding := ⟨t.binding.context,t.binding.ns⟩

/-- The registry is read twice, for the path and for the binding. -/
def aim (sys : System) (tree : Tree) (first second : Read) (name target : Str) : Answer Aimed := do
  let root ← projectPath sys first name
  let binding ← resolveBinding second name target
  let (path,isDir) ← wrapping [.text "resolving ",.shown target,.text " in ",.shown name] (resolve tree root target)
  .ok ⟨binding,path,isDir⟩

def confirm (binding : Binding) (typed : Str) : Answer Unit :=
  if ¬ binding.guarded then .ok ()
  else if typed ≠ binding.context then .error ⟨[],.errNotConfirmed⟩
  else .ok ()

section Calls
variable {α : Type} (run : List Str → Answer α) (sys : System) (tree : Tree) (first second : Read)

def kubeCall (v : Kubectl.Verb) (sentence : String) (gate : Binding → Answer Unit) (name target : Str) : Answer α := do
  let place ← aim sys tree first second name target
  wrapping [.text sentence,.shown target,.text " in ",.shown name] do
    let _ ← gate place.binding
    v.call run place.location place.path place.dir

def kubeValidate (name target : Str) : Answer α :=
  kubeCall run sys tree first second .validate "validating " (fun _ => .ok ()) name target

def kubeDiff (name target : Str) : Answer α :=
  kubeCall run sys tree first second .diff "diffing " (fun _ => .ok ()) name target

def kubeApply (name target typed : Str) : Answer α :=
  kubeCall run sys tree first second .apply "applying " (fun b => confirm b typed) name target

def kubeDeletePreview (name target : Str) : Answer α :=
  kubeCall run sys tree first second .deletePreview "previewing the delete of " (fun _ => .ok ()) name target

def kubeDelete (name target typed : Str) : Answer α :=
  kubeCall run sys tree first second .delete "deleting " (fun b => confirm b typed) name target

end Calls

theorem findResolved {home : Str} {stored : List Project} {name : Str} :
    findProject (stored.map (resolved home)) name = (findProject stored name).map (resolved home) := by
  simp only [findProject,List.find?_map]
  rfl

section Spec
variable {sys : System} {tree : Tree} {first second r : Read} {name target root : Str}

theorem projectPathOk : projectPath sys r name = .ok root ↔
    r.io.loadFault = none ∧ ∃ p, findProject r.stored name = some p ∧ root = expand sys.home p.path := by
  cases fault : r.io.loadFault with
  | some err => simp [projectPath,list,load,fault,wrapping,bind,Except.bind,Except.map]
  | none =>
    simp only [projectPath,list,load,fault,Except.map,wrapping,bind,Except.bind,findResolved,true_and]
    cases findProject r.stored name <;> simp [resolved,eq_comm]

theorem resolveBindingOk {b : Binding} : resolveBinding r name target = .ok b ↔
    r.io.loadFault = none ∧ ∃ p, findProject r.stored name = some p ∧ b = p.kube.resolve target := by
  cases fault : r.io.loadFault with
  | some err => simp [resolveBinding,settings,load,fault,wrapping,bind,Except.bind]
  | none =>
    simp only [resolveBinding,settings,load,fault,wrapping,bind,Except.bind,true_and]
    cases findProject r.stored name <;> simp [Project.settings,eq_comm]

theorem aimOk {t : Aimed} : aim sys tree first second name target = .ok t ↔
    ∃ root, projectPath sys first name = .ok root ∧ resolveBinding second name target = .ok t.binding ∧
      resolve tree root target = .ok (t.path,t.dir) := by
  simp only [aim,bindOk,wrappingOk,Except.ok.injEq]
  constructor
  · rintro ⟨root,place,_,bound,_,confined,rfl⟩
    exact ⟨root,place,bound,confined⟩
  · rintro ⟨root,place,bound,confined⟩
    exact ⟨root,place,_,bound,_,confined,rfl⟩

theorem confirmOk {b : Binding} {typed : Str} : confirm b typed = .ok () ↔ (b.guarded = true → typed = b.context) := by
  cases h : b.guarded
  · simp [confirm,h]
  · by_cases same : typed = b.context <;> simp [confirm,h,same]

theorem kubeCallOk {α : Type} {run : List Str → Answer α} {v : Kubectl.Verb} {sentence : String}
    {gate : Binding → Answer Unit} {a : α} :
    kubeCall run sys tree first second v sentence gate name target = .ok a ↔
      ∃ t, aim sys tree first second name target = .ok t ∧ gate t.binding = .ok () ∧
        v.call run t.location t.path t.dir = .ok a := by
  simp only [kubeCall,bindOk,wrappingOk]
  constructor
  · rintro ⟨t,aimed,_,passed,started⟩
    exact ⟨t,aimed,passed,started⟩
  · rintro ⟨t,aimed,passed,started⟩
    exact ⟨t,aimed,(),passed,started⟩

end Spec

end M6t.Aim
