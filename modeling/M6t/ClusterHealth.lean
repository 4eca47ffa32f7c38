import M6t.Grouping
import M6t.KubeRows
import M6t.ManifestScan

/-! The health panel of one file: which rows of a session it draws, under which headings and in
what order. A session is told what its binding's checkout declares, scanned anew every time. -/
namespace M6t.ClusterHealth
open M6t.Text M6t.Fault M6t.Runs M6t.Declared M6t.Manifest M6t.ManifestScan M6t.Grouping
open M6t.KubePlan (Status Verdict RESTMapper Stands row rowStands)
open M6t.KubeSession M6t.KubeRows

def forFile (objects : List Status) (file : Str) : List Status := objects.filter (fun object => object.file = file)

def byKind (objects : List Status) : List (Str × List Status) := groupBy Status.kind objects

def NotAfter (k l : Str) : Prop := compareText k l ≤ 0

instance : Std.Antisymm NotAfter where
  antisymm k l before after := by
    rcases textBefore.mp before with same | less
    · exact same
    · exact (textBefore.mp after).elim Eq.symm (fun more => absurd more (List.lt_asymm less))

theorem notAfterLess {k l : Str} (before : NotAfter k l) (apart : k ≠ l) : k < l := (textBefore.mp before).resolve_left apart

def KindMajor (objects : List Object) : Prop := (objects.map Object.kind).Pairwise NotAfter

theorem orderKind {a b : Object} (before : objectOrder a b ≤ 0) : NotAfter a.kind b.kind := by
  unfold objectOrder Manifest.compare at before
  unfold NotAfter
  split at before
  · exact before
  · next tied => exact le_of_eq (not_ne_iff.mp tied)

section Bridge
variable {Node : Type} (decoder : Decoder Node) (sorting : Sorting.SortFunc)

theorem scanOrdered {openRoot : Str → Answer (TreeWalk.Tree Str (Item Node))} {root : Str} {index : Index}
    (scanned : scan decoder sorting openRoot root = .ok index) : KindMajor index.objects := by
  obtain ⟨tree,_,sorted⟩ := bindOk.mp scanned
  cases sorted
  exact List.pairwise_map.mpr ((sorting.ordered objectRanks _).imp orderKind)

theorem declaredOrdered {sys : Registry.System} {r : Aim.Read} {openRoot : Str → Answer (TreeWalk.Tree Str (Item Node))}
    {root target ns : Str} {out : List Object × List Notice}
    (told : declared sys r (scan decoder sorting openRoot) root target ns = .ok out) : KindMajor out.1 := by
  obtain ⟨kube,session,told⟩ := bindOk.mp told
  obtain ⟨index,scanned,told⟩ := bindOk.mp told
  cases told
  exact (scanOrdered decoder sorting (wrappingOk.mp scanned)).sublist (List.filter_sublist.map _)

/-- Whatever the registry and the checkout hold when it is asked, the bridge's answer is what a session is told. -/
def Bridged {β : Type} (root target ns : Str) (_ : State β) (e : Event β) : Prop :=
  ∀ out, e = .loop (.answer (.ok out)) →
    ∃ sys r openRoot, declared sys r (scan decoder sorting openRoot) root target ns = .ok out

end Bridge

/-- The declarations a cycle has read and not yet planned. -/
def carried : Loop → List Object
  | .declared objects _ | .noted objects | .connecting objects | .connected objects _ => objects
  | _ => []

structure Ordered {β : Type} (s : State β) : Prop where
  planned : KindMajor s.planned
  carried : KindMajor (carried s.loop)

section Sessions
variable {Node : Type} {decoder : Decoder Node} {sorting : Sorting.SortFunc} {root target ns : Str}
variable {β : Type} {compute : Live β → Verdict} {key : SessionKey} {s t : State β} {e : Event β} {es : List (Event β)}

theorem newOrdered : Ordered (newSession β) := ⟨List.Pairwise.nil,List.Pairwise.nil⟩

theorem Ordered.step (ordered : Ordered s) (told : Bridged decoder sorting root target ns s e)
    (taken : step compute key s e = some t) : Ordered t := by
  obtain ⟨planned,pending⟩ := ordered
  have none_ : KindMajor [] := List.Pairwise.nil
  cases stepMoves taken with
  | turn settled turned =>
    refine ⟨planned,?_⟩
    cases turned with
    | read here =>
      obtain ⟨sys,r,openRoot,declares⟩ := told _ rfl
      exact declaredOrdered decoder sorting declares
    | reached here =>
      rw [here] at pending
      exact pending
    | _ => exact none_
  | notice settled here | connect settled here =>
    rw [here] at pending
    exact ⟨planned,pending⟩
  | clear settled here => exact ⟨none_,none_⟩
  | seed settled here =>
    rw [here] at pending
    exact ⟨pending,none_⟩
  | renotice | park | watch | fail | follow | rebuild | consume | failed => exact ⟨planned,none_⟩
  | _ => exact ⟨planned,pending⟩

theorem runOrdered (run : Run (step compute key) (Bridged decoder sorting root target ns) (newSession β) es s) : Ordered s :=
  run.invariant newOrdered (fun _ _ _ ordered told taken => ordered.step told taken)

theorem rowsOrdered (sound : Sound compute key s) (ordered : Ordered s) : (s.objects.map Status.kind).Pairwise NotAfter := by
  have kinds : s.objects.map Status.kind = s.planned.map Object.kind := by
    have rows := congrArg (List.map Status.kind) sound.rows
    rw [List.map_map,List.map_map] at rows
    refine (Eq.trans ?_ rows).trans (List.map_congr_left (fun declared _ => ?_))
    · rfl
    · simp only [Function.comp_apply,blank,row]
      split <;> rfl
  rw [kinds]
  exact ordered.planned

theorem rowsOfFile (sound : Sound compute key s) (file : Str) : (forFile s.objects file).map blank =
    (s.planned.filter (fun declared => declared.file = file)).map (fun declared => blank (row s.mapper key.ns declared)) := by
  have kept : ∀ rows : List Status, (rows.filter (fun object => object.file = file)).map blank =
      (rows.map blank).filter (fun object => object.file = file) := fun rows => by
    rw [List.filter_map]
    rfl
  rw [forFile,kept,sound.rows,List.filter_map]
  refine congrArg _ (List.filter_congr (fun declared _ => ?_))
  simp only [Function.comp_apply,blank,row]
  split <;> rfl

theorem blankStands {mapper : RESTMapper} {fallback : Str} {declared : Object} {object : Status}
    (same : blank object = blank (row mapper fallback declared)) : Stands mapper fallback declared object := by
  have stands := (rowStands mapper fallback declared).1
  simp only [blank,KubePlan.Status.mk.injEq] at same
  obtain ⟨apiVersion,kind,ns,name,file,_⟩ := same
  exact ⟨apiVersion.trans stands.apiVersion,kind.trans stands.kind,name.trans stands.name,file.trans stands.file,ns.trans stands.ns⟩

theorem panelRows (run : Run (step compute key) (Bridged decoder sorting root target ns) (newSession β) es s) (file : Str) :
    (byKind (forFile s.objects file)).flatMap Prod.snd = forFile s.objects file ∧
      ((byKind (forFile s.objects file)).map Prod.fst).Pairwise (· < ·) ∧
      (∀ g ∈ byKind (forFile s.objects file), g.2 ≠ [] ∧ ∀ object ∈ g.2, object.kind = g.1) ∧
      List.Forall₂ (Stands s.mapper key.ns) (s.planned.filter (fun declared => declared.file = file)) (forFile s.objects file) := by
  have sound := runSound run
  have ordered : ((forFile s.objects file).map Status.kind).Pairwise NotAfter :=
    (rowsOrdered sound (runOrdered run)).sublist (List.filter_sublist.map _)
  have grouped : Grouped Status.kind (forFile s.objects file) (byKind (forFile s.objects file)) := groupGrouped _
  obtain ⟨flat,headings,-⟩ := groupOrdered ordered
  refine ⟨flat,?_,fun g member => ⟨grouped.filled member,fun object inside => ?_⟩,?_⟩
  · exact (headings.and grouped.once).imp (fun both => notAfterLess both.1 both.2)
  · rw [grouped.whole g member] at inside
    exact of_decide_eq_true (List.mem_filter.mp inside).2
  · have rows := rowsOfFile sound file
    rw [← List.forall₂_eq_eq_eq (α := Status)] at rows
    rw [List.forall₂_map_left_iff,List.forall₂_map_right_iff] at rows
    exact rows.flip.imp (fun declared object same => blankStands same)

end Sessions

def twoManifests : TreeWalk.Tree Str (Item Manifest.Node) :=
  .node (.dir false none)
    (.more "web.yaml".toList (.node (.file (.ok (90,[manifest "v1" "Service" "web",manifest "apps/v1" "Deployment" "web"]))) .none)
      (.more "worker.yaml".toList (.node (.file (.ok (60,[manifest "apps/v1" "Deployment" "worker"]))) .none) .none))

def declares (version kind name file : String) : Object := ⟨version.toList,kind.toList,[],name.toList,file.toList⟩

def inOrder : List Object :=
  [declares "apps/v1" "Deployment" "web" "web.yaml",declares "apps/v1" "Deployment" "worker" "worker.yaml",
    declares "v1" "Service" "web" "web.yaml"]

def defaultKey : SessionKey := ⟨"/work/infra".toList,"default".toList⟩

def deploymentsServed : RESTMapper := fun _ kind =>
  if kind = "Deployment".toList then .ok ⟨⟨"apps".toList,"v1".toList,"deployments".toList⟩,true⟩ else .error "no matches".toList

def planning : List (Event Unit) :=
  [.loop .check,.loop .declare,.loop (.answer (.ok (inOrder,[]))),.loop .notices,.loop .signal,.loop .phase,
    .loop (.connect (.ok deploymentsServed)),.loop .seed]

theorem webPanel : ∃ s, Run (step allCurrent defaultKey)
      (Bridged (yaml (fun _ => misfit)) .insertion "/work/infra".toList "dev-east".toList "default".toList) (newSession Unit) planning s ∧
    (byKind (forFile s.objects "web.yaml".toList)).map Prod.fst = ["Deployment".toList,"Service".toList] ∧
    (forFile s.objects "web.yaml".toList).map Status.ns = ["default".toList,[]] ∧
    (byKind (forFile s.objects "web.yaml".toList)).flatMap Prod.snd = forFile s.objects "web.yaml".toList := by
  have ends : (exec (step allCurrent defaultKey) (newSession Unit) planning).map (fun s =>
      ((byKind (forFile s.objects "web.yaml".toList)).map Prod.fst,(forFile s.objects "web.yaml".toList).map Status.ns)) =
      some (["Deployment".toList,"Service".toList],["default".toList,[]]) := by
    decide +kernel
  obtain ⟨s,done,seen⟩ := Option.map_eq_some_iff.mp ends
  obtain ⟨headings,spaces⟩ := Prod.mk.inj seen
  have told : declared .plain (TargetPath.reads [oneManifest]) (scan (yaml (fun _ => misfit)) .insertion (fun _ => .ok twoManifests))
      "/work/infra".toList "dev-east".toList "default".toList = .ok (inOrder,[]) := by decide +kernel
  have run : Run (step allCurrent defaultKey)
      (Bridged (yaml (fun _ => misfit)) .insertion "/work/infra".toList "dev-east".toList "default".toList) (newSession Unit)
      planning s := (runOfExec done).allowing (fun e member t out same => by
    subst same
    have whole : out = (inOrder,[]) := by simpa [planning] using member
    exact whole ▸ ⟨.plain,TargetPath.reads [oneManifest],_,told⟩)
  exact ⟨s,run,headings,spaces,(panelRows run "web.yaml".toList).1⟩

end M6t.ClusterHealth
