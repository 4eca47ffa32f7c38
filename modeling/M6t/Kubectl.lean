import M6t.Fault

/-! The argument vectors kubectl is started with. A vector states its context
and its namespace or is not built at all. What starts the process is a parameter
of every call, as it is a field of the service. -/
namespace M6t.Kubectl
open M6t.Text M6t.Fault

structure Binding where
  context : Str
  ns : Str
  deriving DecidableEq, Repr

structure Result where
  argv : List Str
  exitCode : Int
  stdout : Str
  stderr : Str
  deriving DecidableEq, Repr

def binaryName : Str := "kubectl".toList
def contextFlag : Str := "--context=".toList
def namespaceFlag : Str := "--namespace=".toList
def filenameFlag : Str := "--filename=".toList
def recursiveFlag : Str := "--recursive".toList
def dryRunFlag : Str := "--dry-run=server".toList

def words (args : List Str) : Str := " ".toList.intercalate args

def withSource (args : List Str) (target : Str) (recursive : Bool) : Answer (List Str) :=
  let trimmed := trimSpace target
  if trimmed = [] then .error (errorf [.text "running kubectl ",.shown (words args)] .errNoManifest)
  else .ok (args ++ (filenameFlag ++ trimmed) :: if recursive then [recursiveFlag] else [])

def applyArgs (target : Str) (recursive dryRun : Bool) : Answer (List Str) :=
  withSource ("apply".toList :: if dryRun then [dryRunFlag] else []) target recursive

def diffArgs (target : Str) (recursive : Bool) : Answer (List Str) :=
  withSource ["diff".toList] target recursive

def deleteArgs (target : Str) (recursive dryRun : Bool) : Answer (List Str) :=
  withSource ("delete".toList :: if dryRun then [dryRunFlag] else []) target recursive

def Binding.argv (b : Binding) (args : List Str) : Answer (List Str) :=
  let target := trimSpace b.context
  let ns := trimSpace b.ns
  if target = [] ∨ ns = [] then .error (errorf [.text "running kubectl ",.shown (words args)] .errUnbound)
  else .ok (binaryName :: (contextFlag ++ target) :: (namespaceFlag ++ ns) :: args)

section Calls
variable {α : Type} (run : List Str → Answer α) (b : Binding) (target : Str) (recursive : Bool)

def exec (args : List Str) : Answer α := do
  let argv ← b.argv args
  run argv

def validate : Answer α := do exec run b (← applyArgs target recursive true)
def diff : Answer α := do exec run b (← diffArgs target recursive)
def apply : Answer α := do exec run b (← applyArgs target recursive false)
def deletePreview : Answer α := do exec run b (← deleteArgs target recursive true)
def delete : Answer α := do exec run b (← deleteArgs target recursive false)

end Calls

inductive Verb where
  | validate
  | diff
  | apply
  | deletePreview
  | delete
  deriving DecidableEq, Repr

def Verb.call {α : Type} (v : Verb) (run : List Str → Answer α) (b : Binding) (target : Str) (recursive : Bool) : Answer α :=
  match v with
  | .validate => Kubectl.validate run b target recursive
  | .diff => Kubectl.diff run b target recursive
  | .apply => Kubectl.apply run b target recursive
  | .deletePreview => Kubectl.deletePreview run b target recursive
  | .delete => Kubectl.delete run b target recursive

def Verb.subcommand : Verb → List Str
  | .validate => ["apply".toList,dryRunFlag]
  | .diff => ["diff".toList]
  | .apply => ["apply".toList]
  | .deletePreview => ["delete".toList,dryRunFlag]
  | .delete => ["delete".toList]

def filenameOf (argv : List Str) : Option Str := argv.findSome? (cutPrefix filenameFlag)

theorem withSourceOk {args out : List Str} {target : Str} {recursive : Bool} :
    withSource args target recursive = .ok out ↔ trimSpace target ≠ [] ∧
      out = args ++ (filenameFlag ++ trimSpace target) :: if recursive then [recursiveFlag] else [] := by
  by_cases empty : trimSpace target = [] <;> simp [withSource,empty,eq_comm]

theorem argvOk {b : Binding} {args argv : List Str} :
    b.argv args = .ok argv ↔ trimSpace b.context ≠ [] ∧ trimSpace b.ns ≠ [] ∧
      argv = binaryName :: (contextFlag ++ trimSpace b.context) :: (namespaceFlag ++ trimSpace b.ns) :: args := by
  by_cases unbound : trimSpace b.context = [] ∨ trimSpace b.ns = []
  · simp only [Binding.argv,if_pos unbound,reduceCtorEq,false_iff]
    exact fun bound => unbound.elim bound.1 bound.2.1
  · obtain ⟨context,ns⟩ := not_or.mp unbound
    simp [Binding.argv,context,ns,eq_comm]

theorem callSource {α : Type} (v : Verb) (run : List Str → Answer α) (b : Binding) (target : Str) (recursive : Bool) :
    v.call run b target recursive = (withSource v.subcommand target recursive >>= exec run b) := by
  cases v <;> rfl

def Verb.argv (v : Verb) (b : Binding) (target : Str) (recursive : Bool) : List Str :=
  binaryName :: (contextFlag ++ trimSpace b.context) :: (namespaceFlag ++ trimSpace b.ns) ::
    (v.subcommand ++ (filenameFlag ++ trimSpace target) :: if recursive then [recursiveFlag] else [])

structure Ready (b : Binding) (target : Str) : Prop where
  source : trimSpace target ≠ []
  context : trimSpace b.context ≠ []
  ns : trimSpace b.ns ≠ []

theorem callOk {α : Type} {v : Verb} {run : List Str → Answer α} {b : Binding} {target : Str} {recursive : Bool} {a : α} :
    v.call run b target recursive = .ok a ↔ Ready b target ∧ run (v.argv b target recursive) = .ok a := by
  simp only [callSource,exec,bindOk,withSourceOk,argvOk]
  constructor
  · rintro ⟨_,⟨source,rfl⟩,_,⟨context,ns,rfl⟩,started⟩
    exact ⟨⟨source,context,ns⟩,started⟩
  · rintro ⟨⟨source,context,ns⟩,started⟩
    exact ⟨_,⟨source,rfl⟩,_,⟨context,ns,rfl⟩,started⟩

theorem filenameArgv (v : Verb) (b : Binding) (target : Str) (recursive : Bool) :
    filenameOf (v.argv b target recursive) = some (trimSpace target) := by
  have source : cutPrefix filenameFlag (filenameFlag ++ trimSpace target) = some (trimSpace target) :=
    cutPrefixExact.mpr rfl
  cases v <;>
    simp only [filenameOf,Verb.argv,Verb.subcommand,List.cons_append,List.nil_append,List.findSome?_cons,source] <;>
    rfl

end M6t.Kubectl
