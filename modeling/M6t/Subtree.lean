import M6t.TargetPath

/-! A mutation aimed at a directory. The binding is resolved once, at the target;
kubectl reads whatever it finds beneath, and every file there has a binding of its
own. Which files kubectl reads is a parameter. -/
namespace M6t.Subtree
open M6t.Text M6t.SlashPath M6t.Fault M6t.KubeBinding M6t.Registry M6t.Aim M6t.TargetPath
open M6t.EntryPaths (Tree)

inductive Mutation where
  | apply
  | delete
  deriving DecidableEq, Repr

def Mutation.call {α : Type} (m : Mutation) (run : List Str → Answer α) (sys : System) (tree : Tree) (first second : Read)
    (name target typed : Str) : Answer α :=
  match m with
  | .apply => kubeApply run sys tree first second name target typed
  | .delete => kubeDelete run sys tree first second name target typed

def Mutation.verb : Mutation → Kubectl.Verb
  | .apply => .apply
  | .delete => .delete

section Call
variable {sys : System} {tree : Tree} {first second : Read} {name target typed : Str} {p : Project} {t : Aimed}
  {m : Mutation} {argv : List Str} {read : List Str}

theorem mutationOk (aimed : aim sys tree first second name target = .ok t) :
    m.call .ok sys tree first second name target typed = .ok argv ↔
      (t.binding.guarded = true → typed = t.binding.context) ∧ Kubectl.Ready t.location t.path ∧
        argv = m.verb.argv t.location t.path t.dir := by
  have spec : m.call .ok sys tree first second name target typed = .ok argv ↔
      ∃ u, aim sys tree first second name target = .ok u ∧ confirm u.binding typed = .ok () ∧
        m.verb.call .ok u.location u.path u.dir = .ok argv := by
    cases m <;> simp only [Mutation.call,kubeApply,kubeDelete,kubeCallOk,Mutation.verb]
  simp only [spec,confirmOk,Kubectl.callOk,Except.ok.injEq]
  constructor
  · rintro ⟨u,aimed',confirmed,ready,rfl⟩
    cases Except.ok.inj (aimed.symm.trans aimed')
    exact ⟨confirmed,ready,rfl⟩
  · rintro ⟨confirmed,ready,rfl⟩
    exact ⟨t,aimed,confirmed,ready,rfl⟩

structure Safe (m : Mutation) (sys : System) (tree : Tree) (first second : Read) (name target : Str) (kube : Kube)
    (t : Aimed) (read : List Str) : Prop where
  aimed : ∀ file ∈ read, (kube.resolve file).SameTarget t.binding
  confirmed : ∀ file ∈ read, (kube.resolve file).guarded = true → ∀ typed argv,
    m.call .ok sys tree first second name target typed = .ok argv → typed = (kube.resolve file).context

/-- The scopes around a file and not around the target leave context and namespace
as they are, and protect only where the target is protected too. -/
structure Uniform (kube : Kube) (target : Str) (read : List Str) : Prop where
  fields : ∀ file ∈ read, kube.Alike (cleanScope file) (cleanScope target)
  ratchet : ∀ file ∈ read, ∀ s ∈ kube.scopes, s.guarded = true → Covers (cleanScope s.path) (cleanScope file) →
    kube.guarded = true ∨ ∃ r ∈ kube.scopes, r.guarded = true ∧ Covers (cleanScope r.path) (cleanScope target)

/-- A mutation the target admits is safe for the files read exactly when the
scopes beneath the target are uniform over them. -/
theorem safeExact (record : findProject second.stored name = some p)
    (accepted : ∃ typed argv, m.call .ok sys tree first second name target typed = .ok argv)
    (aimed : aim sys tree first second name target = .ok t) :
    Safe m sys tree first second name target p.kube t read ↔ Uniform p.kube target read := by
  obtain ⟨root,place,_,_⟩ := aimOk.mp aimed
  have bound : t.binding = p.kube.resolve target := (aimedParts place record aimed).2
  obtain ⟨typed₀,argv₀,started₀⟩ := accepted
  obtain ⟨_,ready,_⟩ := (mutationOk aimed).mp started₀
  constructor
  · intro safe
    constructor
    · intro file member
      have same := safe.aimed file member
      rw [bound] at same
      exact (sameTarget p.kube (cleanScope file) (cleanScope target)).mp same
    · intro file member s hs protects around
      have guarded : (p.kube.resolve file).guarded = true :=
        (guardedAt p.kube (cleanScope file)).mpr (Or.inr ⟨s,hs,protects,around⟩)
      refine (guardedAt p.kube (cleanScope target)).mp ?_
      by_contra unprotected
      have passed : t.binding.guarded = true → 'x' :: (p.kube.resolve file).context = t.binding.context := by
        rw [bound]
        exact fun protects => absurd protects unprotected
      -- any word at all passes where the target is not protected
      have wrong := safe.confirmed file member guarded _ _ ((mutationOk aimed).mpr ⟨passed,ready,rfl⟩)
      exact absurd (congrArg List.length wrong) (by simp)
  · intro uniform
    have same : ∀ file ∈ read, (p.kube.resolve file).SameTarget t.binding := by
      intro file member
      rw [bound]
      exact (sameTarget p.kube (cleanScope file) (cleanScope target)).mpr (uniform.fields file member)
    refine ⟨same,fun file member guarded typed argv started => ?_⟩
    have protects : t.binding.guarded = true := by
      rw [bound]
      refine (guardedAt p.kube (cleanScope target)).mpr ?_
      rcases (guardedAt p.kube (cleanScope file)).mp guarded with whole | ⟨s,hs,own,around⟩
      · exact Or.inl whole
      · exact uniform.ratchet file member s hs own around
    rw [(same file member).1]
    exact ((mutationOk aimed).mp started).1 protects

end Call

def guardedProd : Project :=
  ⟨"infra".toList,"/work/infra".toList,[],[],[],
    ⟨"dev-east".toList,"default".toList,false,[⟨"prod".toList,"prod-us-west".toList,"api".toList,true⟩]⟩,⟨[]⟩⟩

def deploy : Str := "prod/api/deploy.yaml".toList

theorem prodFolderSafe :
    ∃ t, aim .plain directories (reads [guardedProd]) (reads [guardedProd]) "infra".toList "prod".toList = .ok t ∧
      (Safe .apply .plain directories (reads [guardedProd]) (reads [guardedProd]) "infra".toList "prod".toList
        guardedProd.kube t [deploy] ↔ Uniform guardedProd.kube "prod".toList [deploy]) := by
  have aimed : aim .plain directories (reads [guardedProd]) (reads [guardedProd]) "infra".toList "prod".toList =
      .ok ⟨⟨"prod-us-west".toList,"api".toList,true,"prod".toList⟩,"/work/infra/prod".toList,true⟩ := by decide
  have started : Mutation.apply.call .ok .plain directories (reads [guardedProd]) (reads [guardedProd]) "infra".toList
      "prod".toList "prod-us-west".toList =
      .ok (Kubectl.Verb.apply.argv ⟨"prod-us-west".toList,"api".toList⟩ "/work/infra/prod".toList true) := by decide
  exact ⟨_,aimed,safeExact (by decide : findProject [guardedProd] "infra".toList = some guardedProd)
    ⟨_,_,started⟩ aimed⟩

theorem wholeCheckoutUnsafe :
    ∃ t argv, aim .plain directories (reads [guardedProd]) (reads [guardedProd]) "infra".toList [] = .ok t ∧
      kubeApply .ok .plain directories (reads [guardedProd]) (reads [guardedProd]) "infra".toList [] [] = .ok argv ∧
      "--context=dev-east".toList ∈ argv ∧ "--recursive".toList ∈ argv ∧
      guardedProd.kube.resolve deploy = ⟨"prod-us-west".toList,"api".toList,true,"prod".toList⟩ ∧
      ¬ Safe .apply .plain directories (reads [guardedProd]) (reads [guardedProd]) "infra".toList []
        guardedProd.kube t [deploy] := by
  refine ⟨⟨⟨"dev-east".toList,"default".toList,false,[]⟩,"/work/infra".toList,true⟩,
    Kubectl.Verb.apply.argv ⟨"dev-east".toList,"default".toList⟩ "/work/infra".toList true,
    by decide,by decide,by decide,by decide,by decide,?_⟩
  intro safe
  exact absurd (safe.aimed deploy (by simp)) (by decide)

end M6t.Subtree
