import M6t.TargetPath

/-! The objects of a checkout, by the binding they go to. A manifest is attributed
by the folder it sits in, and applied under its own path. The scan of the checkout
is a parameter. -/
namespace M6t.Declared
open M6t.Text M6t.SlashPath M6t.Fault M6t.KubeBinding M6t.Registry M6t.Aim M6t.TargetPath
open M6t.EntryPaths (Tree)

structure Object where
  apiVersion : Str
  kind : Str
  ns : Str
  name : Str
  file : Str
  deriving DecidableEq, Repr

structure Notice where
  file : Str
  reason : Str
  deriving DecidableEq, Repr

structure Index where
  objects : List Object
  notices : List Notice
  deriving DecidableEq, Repr

def bindingAt (sys : System) (r : Read) (root : Str) : Answer Kube := do
  let projects ← wrapping [.text "finding the project at ",.shown root] (list sys r.io r.stored)
  match projects.find? (fun p => p.path = root) with
  | some p => .ok p.kube
  | none => .error (errorf [.text "finding the project at ",.shown root] .errNotFound)

def declared (sys : System) (r : Read) (scan : Str → Answer Index) (root target ns : Str) :
    Answer (List Object × List Notice) := do
  let binding ← bindingAt sys r root
  let index ← wrapping [.text "indexing ",.shown root] (scan root)
  let kept := index.objects.filter fun o =>
    let place := binding.resolve (dir o.file)
    place.context = target && place.ns = ns
  .ok (kept,index.notices)

section Watch
variable {sys : System} {tree : Tree} {first second r : Read} {scan : Str → Answer Index} {name root file : Str}
  {p : Project} {t : Aimed} {index : Index}

theorem declaredOk {kube : Kube} {target ns : Str} {out : List Object × List Notice}
    (session : bindingAt sys r root = .ok kube) (scanned : scan root = .ok index) :
    declared sys r scan root target ns = .ok out ↔ out = (index.objects.filter (fun o =>
      (kube.resolve (dir o.file)).context = target && (kube.resolve (dir o.file)).ns = ns),index.notices) := by
  simp [declared,session,scanned,wrapping,bind,Except.bind,eq_comm]

def Watched (sys : System) (r : Read) (scan : Str → Answer Index) (root : Str) (o : Object) (t : Aimed) : Prop :=
  ∀ target ns out, declared sys r scan root target ns = .ok out →
    (o ∈ out.1 ↔ t.binding.context = target ∧ t.binding.ns = ns)

/-- Health watches where a manifest is applied exactly when the scopes around the
file only, or around its folder only, leave one context and one namespace. -/
theorem watchedExact {o : Object} (record : findProject second.stored name = some p)
    (session : bindingAt sys r root = .ok p.kube) (scanned : scan root = .ok index) (declares : o ∈ index.objects)
    (aimed : aim sys tree first second name o.file = .ok t) :
    Watched sys r scan root o t ↔ p.kube.Alike (cleanScope o.file) (cleanScope (dir o.file)) := by
  obtain ⟨place,found,_,_⟩ := aimOk.mp aimed
  have bound : t.binding = p.kube.resolve o.file := (aimedParts found record aimed).2
  have agree : t.binding.SameTarget (p.kube.resolve (dir o.file)) ↔
      p.kube.Alike (cleanScope o.file) (cleanScope (dir o.file)) := by
    rw [bound]
    exact sameTarget p.kube (cleanScope o.file) (cleanScope (dir o.file))
  rw [← agree]
  constructor
  · intro watched
    let folder := p.kube.resolve (dir o.file)
    have seen := (watched folder.context folder.ns _ ((declaredOk session scanned).mpr rfl)).mp
    exact seen (List.mem_filter.mpr ⟨declares,by simp [folder]⟩)
  · intro same target ns out listed
    rw [(declaredOk session scanned).mp listed,same.1,same.2]
    simp [declares]

end Watch

def oneManifest : Project :=
  ⟨"infra".toList,"/work/infra".toList,[],[],[],
    ⟨"dev-east".toList,"default".toList,false,[⟨"prod/app.yaml".toList,"prod-us-west".toList,[],false⟩]⟩,⟨[]⟩⟩

def app (file : String) : Object := ⟨"apps/v1".toList,"Deployment".toList,[],"app".toList,file.toList⟩
def scanned : Str → Answer Index := fun _ => .ok ⟨[app "prod/app.yaml",app "prod/web.yaml"],[]⟩

theorem webWatched :
    ∃ t, aim .plain files (reads [oneManifest]) (reads [oneManifest]) "infra".toList "prod/web.yaml".toList = .ok t ∧
      (Watched .plain (reads [oneManifest]) scanned "/work/infra".toList (app "prod/web.yaml") t ↔
        oneManifest.kube.Alike (cleanScope "prod/web.yaml".toList) (cleanScope (dir "prod/web.yaml".toList))) := by
  have aimed : aim .plain files (reads [oneManifest]) (reads [oneManifest]) "infra".toList (app "prod/web.yaml").file =
      .ok ⟨⟨"dev-east".toList,"default".toList,false,[]⟩,"/work/infra/prod/web.yaml".toList,false⟩ := by decide
  have session : bindingAt .plain (reads [oneManifest]) "/work/infra".toList = .ok oneManifest.kube := by decide
  exact ⟨_,aimed,watchedExact (by decide : findProject [oneManifest] "infra".toList = some oneManifest) session
    (rfl : scanned "/work/infra".toList = _) (by decide) aimed⟩

theorem namedManifestMissed :
    validateScopes oneManifest.kube = .ok oneManifest.kube ∧ ∃ t,
      aim .plain files (reads [oneManifest]) (reads [oneManifest]) "infra".toList "prod/app.yaml".toList = .ok t ∧
      t.binding.context = "prod-us-west".toList ∧
      declared .plain (reads [oneManifest]) scanned "/work/infra".toList "prod-us-west".toList "default".toList =
        .ok ([],[]) ∧
      ¬ Watched .plain (reads [oneManifest]) scanned "/work/infra".toList (app "prod/app.yaml") t := by
  refine ⟨by decide,⟨⟨"prod-us-west".toList,"default".toList,false,"prod/app.yaml".toList⟩,
    "/work/infra/prod/app.yaml".toList,false⟩,by decide,rfl,by decide,?_⟩
  intro watched
  have seen := (watched "prod-us-west".toList "default".toList ([],[]) (by decide)).mpr ⟨rfl,rfl⟩
  simp at seen

end M6t.Declared
