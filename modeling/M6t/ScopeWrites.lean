import M6t.Registry

/-! Binding and unbinding one folder, read through the resolution of every path.
A write stores all scopes of the record cleaned and trimmed, the ones it is not
about included. -/
namespace M6t.ScopeWrites
open M6t.Text M6t.SlashPath M6t.Layering M6t.Fault M6t.KubeBinding M6t.Registry

def unscoped (k : Kube) (folder : Str) : Kube := { k with scopes := without (cleanScope folder) k.scopes }

def rescoped (k : Kube) (b : Scope) : Kube :=
  { k with scopes := without (cleanScope b.path) k.scopes ++ if b.overridesNothing then [] else [b] }

def Canonical (k : Kube) : Prop := ∀ s ∈ k.scopes, cleanScope s.path = s.path
instance (k) : Decidable (Canonical k) := by unfold Canonical; infer_instance

section Writes
variable {sys : System} {io : Disk} {stored : List Project} {name : Str}

theorem unbindStored {folder : Str} {answer : Project} (ok : (unbindScope sys io stored name folder).answer = .ok answer) :
    ∃ old, findProject stored name = some old ∧ (unbindScope sys io stored name folder).stored =
      replaceFirst name { old with kube := (unscoped old.kube folder).normal } stored := by
  obtain ⟨old,kube,found,valid,_,written⟩ := rewriteOk ok
  refine ⟨old,found,?_⟩
  rw [unbindScope,written,(validateExact.mp valid).1]
  rfl

theorem bindStored {b : Scope} {answer : Project} (ok : (bindScope sys io stored name b).answer = .ok answer) :
    ∃ old, findProject stored name = some old ∧ (bindScope sys io stored name b).stored =
      replaceFirst name { old with kube := (rescoped old.kube b).normal } stored := by
  unfold bindScope at ok ⊢
  by_cases nothing : b.overridesNothing
  · rw [if_pos nothing] at ok ⊢
    obtain ⟨old,found,written⟩ := unbindStored ok
    exact ⟨old,found,by simpa [rescoped,unscoped,nothing] using written⟩
  · rw [if_neg nothing] at ok ⊢
    obtain ⟨old,kube,found,valid,_,written⟩ := rewriteOk ok
    refine ⟨old,found,?_⟩
    rw [written,(validateExact.mp valid).1,rescoped,if_neg nothing]

theorem findReplaced {old new : Project} (found : findProject stored name = some old) (named : new.name = name) :
    findProject (replaceFirst name new stored) name = some new := by
  induction stored with
  | nil => simp [findProject] at found
  | cons p rest ih =>
    by_cases h : p.name = name
    · simp [replaceFirst,h,findProject,named]
    · simpa [replaceFirst,h,findProject] using ih (by simpa [findProject,h] using found)

theorem replaceTwice {first second : Project} (named : first.name = name) :
    replaceFirst name second (replaceFirst name first stored) = replaceFirst name second stored := by
  induction stored with
  | nil => rfl
  | cons p rest ih => by_cases h : p.name = name <;> simp [replaceFirst,h,named,ih]

def OnlyKube (name : Str) (kube : Kube) (before after : List Project) : Prop :=
  List.Forall₂ (fun p q => q = p ∨ p.name = name ∧ q = { p with kube := kube }) before after

theorem replaceOnlyKube {old : Project} {kube : Kube} (found : findProject stored name = some old) :
    OnlyKube name kube stored (replaceFirst name { old with kube := kube } stored) := by
  induction stored with
  | nil => simp [findProject] at found
  | cons p rest ih =>
    by_cases h : p.name = name
    · have same : p = old := by simpa [findProject,h] using found
      subst same
      rw [replaceFirst,if_pos h]
      exact .cons (Or.inr ⟨h,rfl⟩) (List.forall₂_same.mpr (fun _ _ => Or.inl rfl))
    · rw [replaceFirst,if_neg h]
      exact .cons (Or.inl rfl) (ih (by simpa [findProject,h] using found))

end Writes

theorem normalPath {s : Scope} (fixed : cleanScope (cleanScope s.path) = cleanScope s.path) :
    cleanScope s.normal.path = cleanScope s.path := by
  simp [Scope.normal,fixed]

theorem normalIdem {s : Scope} (fixed : cleanScope (cleanScope s.path) = cleanScope s.path) :
    s.normal.normal = s.normal := by
  simp [Scope.normal,fixed]

theorem canonicalFixed {k : Kube} (canonical : Canonical k) {s : Scope} (member : s ∈ k.scopes) :
    cleanScope (cleanScope s.path) = cleanScope s.path := by
  rw [canonical s member]
  exact canonical s member

theorem normalSelf {k : Kube} (canonical : Canonical k)
    (trimmed : ∀ s ∈ k.scopes, trimSpace s.context = s.context ∧ trimSpace s.ns = s.ns) : k.normal = k := by
  have each : k.scopes.map Scope.normal = k.scopes := by
    conv_rhs => rw [← List.map_id k.scopes]
    refine List.map_congr_left (fun s member => ?_)
    simp [Scope.normal,canonical s member,trimmed s member]
  rw [Kube.normal,each]

def rule (s : Scope) : Match := ⟨cleanScope s.path,s.normal⟩

theorem applicableNormal {k : Kube} (fixed : ∀ s ∈ k.scopes, cleanScope (cleanScope s.path) = cleanScope s.path)
    (target : Str) : k.normal.applicable target =
      sortBySize (fun m => byteLen m.path) ((k.scopes.filter (fun s => Covers (cleanScope s.path) target)).map rule) := by
  have rules : k.normal.rules = k.scopes.map rule := by
    simp only [Kube.rules,Kube.normal,List.map_map]
    exact List.map_congr_left (fun s member => by simp [rule,normalPath (fixed s member)])
  rw [Kube.applicable,layersAt,rules,List.filter_map]
  rfl

section Reads
variable {k : Kube} {b : Scope} {target : Str}

theorem rescopedFixed (canonical : Canonical k) (spelling : cleanScope (cleanScope b.path) = cleanScope b.path) :
    ∀ s ∈ (rescoped k b).scopes, cleanScope (cleanScope s.path) = cleanScope s.path := by
  intro s member
  rcases List.mem_append.mp member with old | new
  · exact canonicalFixed canonical (List.mem_of_mem_filter old)
  · split at new
    · contradiction
    · exact (List.mem_singleton.mp new) ▸ spelling

theorem withoutFixed (canonical : Canonical k) :
    ∀ s ∈ (unscoped k b.path).scopes, cleanScope (cleanScope s.path) = cleanScope s.path :=
  fun _ member => canonicalFixed canonical (List.mem_of_mem_filter member)

theorem rescopedElsewhere (canonical : Canonical k) (spelling : cleanScope (cleanScope b.path) = cleanScope b.path)
    (outside : ¬ Covers (cleanScope b.path) target) :
    (rescoped k b).normal.applicable target = k.normal.applicable target := by
  rw [applicableNormal (rescopedFixed canonical spelling),
    applicableNormal (fun _ member => canonicalFixed canonical member)]
  have kept : (without (cleanScope b.path) k.scopes).filter (fun s => Covers (cleanScope s.path) target) =
      k.scopes.filter (fun s => Covers (cleanScope s.path) target) := by
    rw [without,List.filter_filter]
    refine List.filter_congr (fun s _ => ?_)
    by_cases around : Covers (cleanScope s.path) target
    · have : cleanScope s.path ≠ cleanScope b.path := fun same => outside (same ▸ around)
      simp [around,this]
    · simp [around]
  have new : (if b.overridesNothing then [] else [b]).filter (fun s => Covers (cleanScope s.path) target) = [] := by
    split <;> simp [outside]
  rw [rescoped,List.filter_append,kept,new,List.append_nil]

theorem rescopedHere (canonical : Canonical k) (spelling : cleanScope (cleanScope b.path) = cleanScope b.path)
    (inside : Covers (cleanScope b.path) target)
    (deepest : ∀ s ∈ k.scopes, Covers (cleanScope s.path) target → Covers (cleanScope b.path) (cleanScope s.path) →
      cleanScope s.path = cleanScope b.path) :
    (rescoped k b).normal.applicable target =
      (unscoped k b.path).normal.applicable target ++ if b.overridesNothing then [] else [rule b] := by
  rw [applicableNormal (rescopedFixed canonical spelling),applicableNormal (withoutFixed canonical),rescoped,
    List.filter_append,List.map_append]
  by_cases nothing : b.overridesNothing
  · simp [nothing,unscoped]
  · have new : ([b].filter (fun s => Covers (cleanScope s.path) target)).map rule = [rule b] := by simp [inside]
    rw [if_neg nothing,if_neg nothing,new]
    refine sortConcat _ _ _ (fun m member => ?_)
    obtain ⟨s,kept,rfl⟩ := List.mem_map.mp member
    obtain ⟨kept,around⟩ := List.mem_filter.mp kept
    obtain ⟨old,_⟩ := List.mem_filter.mp kept
    by_contra larger
    have same := deepest s old (of_decide_eq_true around)
      (coversChain inside (of_decide_eq_true around) (by simp only [rule] at larger; omega))
    exact larger (by simp [rule,same])

end Reads

structure Rebinds (before : Kube) (b : Scope) (after : Kube) : Prop where
  elsewhere : ∀ target, ¬ Covers (cleanScope b.path) (cleanScope target) →
    after.resolve target = before.normal.resolve target
  here : ∀ target, Covers (cleanScope b.path) (cleanScope target) →
    (∀ s ∈ before.scopes, Covers (cleanScope s.path) (cleanScope target) →
      Covers (cleanScope b.path) (cleanScope s.path) → cleanScope s.path = cleanScope b.path) →
    let inherited := (unscoped before b.path).normal.resolve target
    (after.resolve target).context = (nonempty (trimSpace b.context)).getD inherited.context ∧
      (after.resolve target).ns = (nonempty (trimSpace b.ns)).getD inherited.ns ∧
      (after.resolve target).guarded = (inherited.guarded || b.guarded)

theorem rescopedRebinds {k : Kube} {b : Scope} (canonical : Canonical k)
    (spelling : cleanScope (cleanScope b.path) = cleanScope b.path) : Rebinds k b (rescoped k b).normal where
  elsewhere target outside := bindingCongr ⟨rfl,rfl,rfl⟩ (rescopedElsewhere canonical spelling outside)
  here target inside deepest := by
    have layers := rescopedHere canonical spelling inside deepest
    have laid : (rescoped k b).normal.resolve target =
        (if b.overridesNothing then [] else [rule b]).foldl Binding.overlay
          ((unscoped k b.path).normal.resolve target) := by
      rw [Kube.resolve,Kube.bindingAt,layers,List.foldl_append]
      rfl
    simp only [laid]
    by_cases nothing : b.overridesNothing
    · have empty : (trimSpace b.context = [] ∧ trimSpace b.ns = []) ∧ b.guarded = false := by
        simpa [Scope.overridesNothing] using nothing
      simp [nothing,empty,nonempty]
    · simp [nothing,Binding.overlay,rule,Scope.normal,← nonemptyOverlay]

theorem rescopedAfresh {k : Kube} {b : Scope} (canonical : Canonical k) :
    (rescoped (unscoped k b.path).normal b).normal = (rescoped k b).normal := by
  have removed : without (cleanScope b.path) ((without (cleanScope b.path) k.scopes).map Scope.normal) =
      (without (cleanScope b.path) k.scopes).map Scope.normal := by
    refine List.filter_eq_self.mpr (fun n member => ?_)
    obtain ⟨s,kept,rfl⟩ := List.mem_map.mp member
    have path := normalPath (withoutFixed (b := b) canonical s kept)
    rw [path]
    exact (List.mem_filter.mp kept).2
  have stored : ((without (cleanScope b.path) k.scopes).map Scope.normal).map Scope.normal =
      (without (cleanScope b.path) k.scopes).map Scope.normal := by
    rw [List.map_map]
    exact List.map_congr_left (fun s kept => normalIdem (withoutFixed (b := b) canonical s kept))
  simp only [rescoped,Kube.normal,unscoped,List.map_append,removed,stored]

structure BindLaws (sys : System) (io : Disk) (stored : List Project) (name : Str) (old : Project) (b : Scope)
    (after : Kube) : Prop where
  record : findProject (bindScope sys io stored name b).stored name = some { old with kube := after }
  frame : OnlyKube name after stored (bindScope sys io stored name b).stored
  rebinds : Rebinds old.kube b after
  trimmed : (∀ s ∈ old.kube.scopes, trimSpace s.context = s.context ∧ trimSpace s.ns = s.ns) →
    old.kube.normal = old.kube
  nothing : b.overridesNothing → bindScope sys io stored name b = unbindScope sys io stored name b.path
  afresh : ∀ io₁ io₂ first second, (unbindScope sys io₁ stored name b.path).answer = .ok first →
    (bindScope sys io₂ (unbindScope sys io₁ stored name b.path).stored name b).answer = .ok second →
    (bindScope sys io₂ (unbindScope sys io₁ stored name b.path).stored name b).stored =
      (bindScope sys io stored name b).stored

theorem bindScopeLaws {sys : System} {io : Disk} {stored : List Project} {name : Str} {old answer : Project} {b : Scope}
    (found : findProject stored name = some old) (canonical : Canonical old.kube)
    (spelling : cleanScope (cleanScope b.path) = cleanScope b.path)
    (ok : (bindScope sys io stored name b).answer = .ok answer) :
    ∃ after, BindLaws sys io stored name old b after := by
  obtain ⟨same,found',written⟩ := bindStored ok
  cases Option.some.inj (found.symm.trans found')
  have named := (findName found).2
  refine ⟨(rescoped old.kube b).normal,?_⟩
  constructor
  case record => rw [written]; exact findReplaced found named
  case frame => rw [written]; exact replaceOnlyKube found
  case rebinds => exact rescopedRebinds canonical spelling
  case trimmed => exact normalSelf canonical
  case nothing => exact fun nothing => by rw [bindScope,if_pos nothing]
  case afresh =>
    intro io₁ io₂ first second ok₁ ok₂
    obtain ⟨old₁,found₁,written₁⟩ := unbindStored ok₁
    cases Option.some.inj (found.symm.trans found₁)
    obtain ⟨old₂,found₂,written₂⟩ := bindStored ok₂
    have between : findProject (unbindScope sys io₁ stored name b.path).stored name =
        some { old with kube := (unscoped old.kube b.path).normal } := by
      rw [written₁]
      exact findReplaced found named
    cases Option.some.inj (between.symm.trans found₂)
    rw [written₂,written,written₁,rescopedAfresh canonical]
    exact replaceTwice named

def manifests (scopes : List Scope) : Project :=
  ⟨"infra".toList,"/work/infra".toList,[],[],[],⟨"dev-east".toList,"default".toList,false,scopes⟩,⟨[]⟩⟩

def padded : List Project := [manifests [⟨"prod".toList," prod-us-west".toList,[],false⟩]]
def bindTeam : Scope := ⟨"team".toList,"team-east".toList,[],false⟩

theorem bindTeamLaws :
    ∃ after, BindLaws .plain .sound padded "infra".toList
      (manifests [⟨"prod".toList," prod-us-west".toList,[],false⟩]) bindTeam after := by
  have ok : (bindScope .plain .sound padded "infra".toList bindTeam).answer = .ok (resolved "/home/ada".toList
      (manifests [⟨"prod".toList,"prod-us-west".toList,[],false⟩,bindTeam])) := by decide
  exact bindScopeLaws (by decide) (by decide) (by decide) ok

theorem bindTrimsElsewhere :
    ∃ before after, findProject padded "infra".toList = some before ∧ Canonical before.kube ∧
      findProject (bindScope .plain .sound padded "infra".toList bindTeam).stored "infra".toList = some after ∧
      ¬ Covers bindTeam.path (cleanScope "prod".toList) ∧
      after.kube.resolve "prod".toList ≠ before.kube.resolve "prod".toList :=
  ⟨manifests [⟨"prod".toList," prod-us-west".toList,[],false⟩],
    manifests [⟨"prod".toList,"prod-us-west".toList,[],false⟩,bindTeam],
    by decide,by decide,by decide,by decide,by decide⟩

end M6t.ScopeWrites
