import M6t.Aim

/-! One target string read three times: by the confined resolution, by the scopes
and by kubectl's argument vector. The last two drop white space at the ends, and
the scopes read a backslash as a slash. -/
namespace M6t.TargetPath
open M6t.Text M6t.SlashPath M6t.Fault M6t.KubeBinding M6t.Registry M6t.Aim
open M6t.EntryPaths (Tree resolve resolveOk rootRelative)

/-- The name as scopes are written against it: the root is the empty path. -/
def exactName (rel : Str) : Str := if rel = dot then [] else rel

structure OnePath (tree : Tree) (root target : Str) (kube : Kube) (t : Aimed) (argv : List Str) : Prop where
  checked : resolve tree root target = .ok (t.path,t.dir)
  source : Kubectl.filenameOf argv = some t.path
  binding : ∃ rel, rootRelative target = .ok rel ∧ t.binding = kube.bindingAt (exactName rel)

/-- The absolute path has no white space at its ends, and the same scopes cover
the target as the scopes read it and as it is. -/
structure Plain (root target : Str) (kube : Kube) : Prop where
  trimmed : ∀ {rel}, rootRelative target = .ok rel → trimSpace (join root rel) = join root rel
  covered : ∀ {rel}, rootRelative target = .ok rel → ∀ s ∈ kube.scopes,
    Covers (cleanScope s.path) (cleanScope target) ↔ Covers (cleanScope s.path) (exactName rel)

section Call
variable {sys : System} {tree : Tree} {first second : Read} {name target root : Str} {p : Project} {t : Aimed}
  {v : Kubectl.Verb} {sentence : String} {gate : Binding → Answer Unit} {argv : List Str}

theorem calledArgv (aimed : aim sys tree first second name target = .ok t)
    (called : kubeCall .ok sys tree first second v sentence gate name target = .ok argv) :
    argv = v.argv t.location t.path t.dir := by
  obtain ⟨u,aimed',_,started⟩ := kubeCallOk.mp called
  cases Except.ok.inj (aimed.symm.trans aimed')
  exact (Except.ok.inj (Kubectl.callOk.mp started).2).symm

theorem aimedParts (place : projectPath sys first name = .ok root) (record : findProject second.stored name = some p)
    (aimed : aim sys tree first second name target = .ok t) :
    resolve tree root target = .ok (t.path,t.dir) ∧ t.binding = p.kube.resolve target := by
  obtain ⟨root',place',bound,confined⟩ := aimOk.mp aimed
  cases Except.ok.inj (place.symm.trans place')
  obtain ⟨_,q,found,resolved⟩ := resolveBindingOk.mp bound
  cases Option.some.inj (record.symm.trans found)
  exact ⟨confined,resolved⟩

/-- kubectl is handed the path that was checked, under the binding of exactly that
path, for the plain targets and for no others. -/
theorem onePathExact (place : projectPath sys first name = .ok root)
    (record : findProject second.stored name = some p) (aimed : aim sys tree first second name target = .ok t)
    (called : kubeCall .ok sys tree first second v sentence gate name target = .ok argv) :
    OnePath tree root target p.kube t argv ↔ Plain root target p.kube := by
  obtain ⟨confined,bound⟩ := aimedParts place record aimed
  obtain ⟨_,rel,relative,_,path⟩ := resolveOk.mp confined
  have source : Kubectl.filenameOf argv = some (trimSpace t.path) := by
    rw [calledArgv aimed called]
    exact Kubectl.filenameArgv v t.location t.path t.dir
  constructor
  · intro one
    constructor
    · intro rel' relative'
      cases Except.ok.inj (relative.symm.trans relative')
      rw [← path]
      exact Option.some.inj (source.symm.trans one.source)
    · intro rel' relative'
      obtain ⟨rel'',relative'',same⟩ := one.binding
      cases Except.ok.inj (relative'.symm.trans relative'')
      exact (bindingSame p.kube (cleanScope target) (exactName rel')).mp (bound.symm.trans same)
  · intro plain
    refine ⟨confined,?_,rel,relative,?_⟩
    · rw [source,path,plain.trimmed relative]
    · rw [bound]
      exact (bindingSame p.kube (cleanScope target) (exactName rel)).mpr (plain.covered relative)

end Call

def infra : Project :=
  ⟨"infra".toList,"/work/infra".toList,[],[],[],
    ⟨"dev-east".toList,"default".toList,false,[⟨"prod".toList,"prod-us-west".toList,"api".toList,false⟩]⟩,⟨[]⟩⟩

def reads (stored : List Project) : Read := ⟨stored,.sound⟩
def directories : Tree := ⟨fun _ => .ok (),fun _ _ => .ok true⟩
def files : Tree := ⟨fun _ => .ok (),fun _ _ => .ok false⟩

theorem prodOnePath :
    ∃ t argv, aim .plain directories (reads [infra]) (reads [infra]) "infra".toList "prod".toList = .ok t ∧
      (OnePath directories "/work/infra".toList "prod".toList infra.kube t argv ↔
        Plain "/work/infra".toList "prod".toList infra.kube) := by
  have place : projectPath .plain (reads [infra]) "infra".toList = .ok "/work/infra".toList := by decide
  have aimed : aim .plain directories (reads [infra]) (reads [infra]) "infra".toList "prod".toList =
      .ok ⟨⟨"prod-us-west".toList,"api".toList,false,"prod".toList⟩,"/work/infra/prod".toList,true⟩ := by decide
  have called : kubeValidate .ok .plain directories (reads [infra]) (reads [infra]) "infra".toList "prod".toList =
      .ok (Kubectl.Verb.validate.argv ⟨"prod-us-west".toList,"api".toList⟩ "/work/infra/prod".toList true) := by decide
  exact ⟨_,_,aimed,onePathExact place (by decide : findProject [infra] "infra".toList = some infra) aimed called⟩

theorem blankTargetMissed :
    ∃ t argv, aim .plain directories (reads [infra]) (reads [infra]) "infra".toList "prod ".toList = .ok t ∧
      kubeApply .ok .plain directories (reads [infra]) (reads [infra]) "infra".toList "prod ".toList [] = .ok argv ∧
      t.path = "/work/infra/prod ".toList ∧ "--filename=/work/infra/prod".toList ∈ argv ∧
      ¬ OnePath directories "/work/infra".toList "prod ".toList infra.kube t argv := by
  refine ⟨⟨⟨"prod-us-west".toList,"api".toList,false,"prod".toList⟩,"/work/infra/prod ".toList,true⟩,
    Kubectl.Verb.apply.argv ⟨"prod-us-west".toList,"api".toList⟩ "/work/infra/prod ".toList true,
    by decide,by decide,rfl,by decide,?_⟩
  intro one
  exact absurd one.source (by decide)

end M6t.TargetPath
