import M6t.Declared
import M6t.Sorting

/-! The index of a checkout: each document of a YAML stream is an object, a notice or
nothing, and both lists are sorted. The decoder is a parameter: it hands out the
documents of a stream in order, each read into the identity fields or with the reason
why it does not fit them. -/
namespace M6t.Manifest
open M6t.Text M6t.Fault M6t.KubeBinding M6t.Registry M6t.Declared M6t.Sorting M6t.TargetPath

structure Document where
  apiVersion : Str
  kind : Str
  name : Str
  ns : Str
  deriving DecidableEq, Repr

/-- `states` is what a document says of itself, also where its shape does not fit. -/
structure Decoder (Node : Type) where
  unmarshal : Node → Except Str Document
  states : Node → Document
  read : ∀ {node doc}, unmarshal node = .ok doc → states node = doc

def note (index : Index) (file why : Str) : Index :=
  { index with notices := index.notices ++ [⟨file,why⟩] }

def absent (version kind name : Str) : Str :=
  let missing := (if version = [] then ["apiVersion".toList] else []) ++
    (if kind = [] then ["kind".toList] else []) ++
    (if name = [] then ["metadata.name".toList] else [])
  " and ".toList.intercalate missing

def classify (index : Index) (name : Str) (doc : Document) : Index :=
  let kind := trimSpace doc.kind
  let version := trimSpace doc.apiVersion
  let object := trimSpace doc.name
  if kind = [] ∧ version = [] then index
  else
    let missing := absent version kind object
    if missing ≠ [] then note index name ("not indexed: a document is missing ".toList ++ missing)
    else { index with objects := index.objects ++ [⟨version,kind,trimSpace doc.ns,object,name⟩] }

def decode {Node : Type} (decoder : Decoder Node) (index : Index) (name : Str) : List Node → Index
  | [] => index
  | node :: rest =>
    match decoder.unmarshal node with
    | .error reason => note index name reason -- and the rest of the file is not read
    | .ok doc => decode decoder (classify index name doc) name rest

def Document.Claims (doc : Document) : Prop := trimSpace doc.apiVersion ≠ [] ∨ trimSpace doc.kind ≠ []
def Document.Whole (doc : Document) : Prop :=
  trimSpace doc.apiVersion ≠ [] ∧ trimSpace doc.kind ≠ [] ∧ trimSpace doc.name ≠ []
def Document.Partial (doc : Document) : Prop := doc.Claims ∧ ¬doc.Whole

instance (doc : Document) : Decidable doc.Claims := inferInstanceAs (Decidable (_ ∨ _))
instance (doc : Document) : Decidable doc.Whole := inferInstanceAs (Decidable (_ ∧ _ ∧ _))
instance (doc : Document) : Decidable doc.Partial := inferInstanceAs (Decidable (_ ∧ _))

def Document.object (doc : Document) (file : Str) : Object :=
  ⟨trimSpace doc.apiVersion,trimSpace doc.kind,trimSpace doc.ns,trimSpace doc.name,file⟩

structure Adds (file : Str) (doc : Document) (before after : Index) : Prop where
  objects : after.objects = before.objects ++ if doc.Whole then [doc.object file] else []
  notices : ∃ reasons : List Str, after.notices = before.notices ++ reasons.map (Notice.mk file) ∧
    reasons.length = if doc.Partial then 1 else 0

section
variable {Node : Type} {decoder : Decoder Node} {index : Index} {file : Str} {node : Node} {rest stream : List Node} {doc : Document}

def Indexed (decoder : Decoder Node) (index : Index) (file : Str) (stream : List Node) : Prop :=
  ∀ before node after, stream = before ++ node :: after →
    Adds file (decoder.states node) (decode decoder index file before) (decode decoder index file (before ++ [node]))

def Decoder.fits (decoder : Decoder Node) (node : Node) : Bool := (decoder.unmarshal node).isOk

def Spared (decoder : Decoder Node) (stream : List Node) : Prop :=
  match stream.dropWhile decoder.fits with
  | [] => True
  | misfit :: rest => (decoder.states misfit).Partial ∧ ∀ later ∈ rest, ¬(decoder.states later).Claims

theorem absentNothing {version kind name : Str} : absent version kind name = [] ↔ version ≠ [] ∧ kind ≠ [] ∧ name ≠ [] := by
  unfold absent
  by_cases v : version = [] <;> by_cases k : kind = [] <;> by_cases n : name = [] <;> simp [v,k,n]

theorem wholeClaims (whole : doc.Whole) : doc.Claims := .inl whole.1

theorem classified (index : Index) (file : Str) (doc : Document) : Adds file doc index (classify index file doc) := by
  unfold classify
  by_cases claims : doc.Claims
  · have some_ : ¬(trimSpace doc.kind = [] ∧ trimSpace doc.apiVersion = []) := fun none =>
      claims.elim (fun version => version none.2) (fun kind => kind none.1)
    simp only [some_,if_false]
    by_cases whole : doc.Whole
    · have missing : absent (trimSpace doc.apiVersion) (trimSpace doc.kind) (trimSpace doc.name) = [] :=
        absentNothing.mpr whole
      simp only [missing,ne_eq,not_true_eq_false,if_false]
      exact ⟨by simp [whole,Document.object],[],by simp,by simp [Document.Partial,whole]⟩
    · have missing : absent (trimSpace doc.apiVersion) (trimSpace doc.kind) (trimSpace doc.name) ≠ [] := fun nothing =>
        whole (absentNothing.mp nothing)
      simp only [missing,ne_eq,not_false_eq_true,if_true]
      exact ⟨by simp [note,whole],[_],rfl,by simp [Document.Partial,claims,whole]⟩
  · have nothing : trimSpace doc.kind = [] ∧ trimSpace doc.apiVersion = [] := by
      simpa [Document.Claims,and_comm] using claims
    have whole : ¬doc.Whole := fun whole => claims (wholeClaims whole)
    rw [if_pos nothing]
    exact ⟨by simp [whole],[],by simp,by simp [Document.Partial,claims]⟩

theorem addsNothing : Adds file doc index index ↔ ¬doc.Claims := by
  constructor
  · intro same claims
    by_cases whole : doc.Whole
    · simpa [whole] using same.objects
    · obtain ⟨reasons,kept,count⟩ := same.notices
      simp_all [Document.Partial]
  · intro silent
    have whole : ¬doc.Whole := fun whole => silent (wholeClaims whole)
    exact ⟨by simp [whole],[],by simp,by simp [Document.Partial,silent]⟩

theorem addsNotice {why : Str} : Adds file doc index (note index file why) ↔ doc.Partial := by
  constructor
  · intro noted
    obtain ⟨reasons,kept,count⟩ := noted.notices
    by_contra whole
    rw [if_neg whole,List.length_eq_zero_iff] at count
    subst count
    simp [note] at kept
  · intro part
    exact ⟨by simp [note,part.2],[why],rfl,by simp [part]⟩

theorem indexedRead (fits : decoder.unmarshal node = .ok doc) :
    Indexed decoder index file (node :: rest) ↔ Indexed decoder (classify index file doc) file rest := by
  constructor
  · intro whole before later after split
    have adds := whole (node :: before) later after (congrArg (node :: ·) split)
    simpa [decode,fits] using adds
  · intro later before at_ after split
    cases before with
    | nil =>
      obtain ⟨rfl,-⟩ := List.cons.inj split
      rw [decoder.read fits]
      simpa [decode,fits] using classified index file doc
    | cons first before =>
      obtain ⟨rfl,tail⟩ := List.cons.inj split
      simpa [decode,fits] using later before at_ after tail

theorem indexedMisfit {why : Str} (misfit : decoder.unmarshal node = .error why) :
    Indexed decoder index file (node :: rest) ↔
      (decoder.states node).Partial ∧ ∀ later ∈ rest, ¬(decoder.states later).Claims := by
  constructor
  · intro whole
    refine ⟨?_,fun later there => ?_⟩
    · have adds := whole [] node rest rfl
      exact addsNotice.mp (by simpa [decode,misfit] using adds)
    · obtain ⟨before,after,rfl⟩ := List.append_of_mem there
      have adds := whole (node :: before) later after rfl
      exact addsNothing.mp (by simpa [decode,misfit] using adds)
  · rintro ⟨part,silent⟩ before at_ after split
    cases before with
    | nil =>
      obtain ⟨rfl,-⟩ := List.cons.inj split
      simpa [decode,misfit] using addsNotice.mpr part
    | cons first before =>
      obtain ⟨rfl,rfl⟩ := List.cons.inj split
      have nothing := silent at_ (List.mem_append_right _ List.mem_cons_self)
      simpa [decode,misfit] using addsNothing.mpr nothing

theorem streamIndexed (decoder : Decoder Node) (index : Index) (file : Str) (stream : List Node) :
    Indexed decoder index file stream ↔ Spared decoder stream := by
  induction stream generalizing index with
  | nil => exact iff_of_true (fun before _ _ none => absurd none (by simp)) trivial
  | cons node rest ih =>
    cases read : decoder.unmarshal node with
    | ok doc =>
      rw [indexedRead read,ih]
      simp [Spared,Decoder.fits,read,Except.isOk,Except.toBool]
    | error why =>
      rw [indexedMisfit read]
      simp [Spared,Decoder.fits,read,Except.isOk,Except.toBool]

end

inductive Node where
  | null
  | scalar (text : Str)
  | sequence
  | mapping (fields : List (Str × Node))

def textual : Option Node → Bool
  | none | some .null | some (.scalar _) => true
  | some _ => false

def said : Option Node → Str
  | some (.scalar text) => text
  | _ => []

def Node.field (key : String) : Node → Option Node
  | .mapping fields => fields.lookup key.toList
  | _ => none

def Node.keysOnce : Node → Bool
  | .mapping fields => (fields.map Prod.fst).Nodup
  | .null => true
  | _ => false

def Node.identity (node : Node) : Document :=
  let metadata := (node.field "metadata").getD .null
  ⟨said (node.field "apiVersion"),said (node.field "kind"),said (metadata.field "name"),said (metadata.field "namespace")⟩

def Node.fits (node : Node) : Bool :=
  let metadata := (node.field "metadata").getD .null
  node.keysOnce && textual (node.field "apiVersion") && textual (node.field "kind") &&
    metadata.keysOnce && textual (metadata.field "name") && textual (metadata.field "namespace")

def yaml (complaint : Node → Str) : Decoder Node where
  unmarshal node := if node.fits then .ok node.identity else .error (complaint node)
  states := Node.identity
  read := by
    intro node doc read
    split at read
    · exact Except.ok.inj read
    · exact absurd read nofun

def text (s : String) : Node := .scalar s.toList
def record (fields : List (String × Node)) : Node := .mapping (fields.map (fun f => (f.1.toList,f.2)))
def manifest (version kind name : String) : Node :=
  record [("apiVersion",text version),("kind",text kind),("metadata",record [("name",text name)])]
def misfit : Str := "yaml: unmarshal errors:\n  line 1: cannot unmarshal !!seq into manifest.document".toList

theorem listEndsFile :
    decode (yaml (fun _ => misfit)) ⟨[],[]⟩ "deploy.yaml".toList [.sequence,manifest "apps/v1" "Deployment" "web"] =
      ⟨[],[⟨"deploy.yaml".toList,misfit⟩]⟩ ∧
    ¬(Node.identity .sequence).Claims ∧ (manifest "apps/v1" "Deployment" "web").identity.Whole ∧
    ¬Indexed (yaml (fun _ => misfit)) ⟨[],[]⟩ "deploy.yaml".toList [.sequence,manifest "apps/v1" "Deployment" "web"] := by
  refine ⟨by decide,by decide,by decide,fun indexed => ?_⟩
  have lost := (indexed [.sequence] (manifest "apps/v1" "Deployment" "web") [] rfl).objects
  exact absurd lost (by decide)

def compare : List Int → Int
  | [] => 0
  | key :: keys => if key ≠ 0 then key else compare keys

def compareText (s t : Str) : Int := if s = t then 0 else if s < t then -1 else 1

def objectOrder (a b : Object) : Int :=
  compare [compareText a.kind b.kind,compareText a.ns b.ns,compareText a.name b.name,compareText a.file b.file]

def noticeOrder (a b : Notice) : Int := compare [compareText a.file b.file,compareText a.reason b.reason]

def sortIndex (sorting : SortFunc) (index : Index) : Index :=
  ⟨sorting.sort objectOrder index.objects,sorting.sort noticeOrder index.notices⟩

def superseded (sys : System) (r : Aim.Read) (scan : Str → Answer Index) (root target ns : Str) (planned : List Object) : Bool :=
  match declared sys r scan root target ns with
  | .error _ => true
  | .ok (objects,_) => planned ≠ objects

theorem textTied {s t : Str} : compareText s t = 0 ↔ s = t := by
  unfold compareText
  split
  · next same => simp [same]
  · next other => split <;> simp [other]

theorem textBefore {s t : Str} : compareText s t ≤ 0 ↔ s = t ∨ s < t := by
  unfold compareText
  split
  · next same => simp [same]
  · next other => split <;> simp_all

theorem textRanks : Ranks compareText where
  turned s t := by
    unfold compareText
    by_cases same : s = t
    · simp [same]
    by_cases less : s < t
    · simp [same,Ne.symm same,less,List.lt_asymm less]
    have more : t < s := by_contra fun not => same (notLess s t less not)
    simp [same,Ne.symm same,less,more]
  trans s t u := by
    simp only [textBefore]
    rintro (rfl | less) (rfl | more)
    · exact .inl rfl
    · exact .inr more
    · exact .inr less
    · exact .inr (List.lt_trans less more)

theorem noneRanks {α : Type} : Ranks (fun _ _ : α => compare []) := ⟨fun _ _ => Iff.rfl,fun _ _ _ _ _ => le_refl 0⟩

theorem objectRanks : Ranks objectOrder :=
  (textRanks.on Object.kind).andThen ((textRanks.on Object.ns).andThen
    ((textRanks.on Object.name).andThen ((textRanks.on Object.file).andThen noneRanks)))

theorem compareTied {keys : List Int} : compare keys = 0 ↔ ∀ key ∈ keys, key = 0 := by
  induction keys with
  | nil => simp [compare]
  | cons key keys ih =>
    unfold compare
    split
    · next other => simp [other]
    · next zero => simp_all

section
variable {a b : Object} {found found' : List Object} {sorting : SortFunc}

/-- What `objectOrder` cannot tell apart: it never asks for the apiVersion. -/
def Tied (a b : Object) : Prop := a.kind = b.kind ∧ a.ns = b.ns ∧ a.name = b.name ∧ a.file = b.file

theorem objectTied : objectOrder a b = 0 ↔ Tied a b := by
  simp [objectOrder,compareTied,textTied,Tied]

theorem tiedAlike (tied : Tied a b) : Alike objectOrder a b := by
  obtain ⟨kind,ns,name,file⟩ := tied
  intro c
  simp only [objectOrder,kind,ns,name,file,and_self]

structure Steady (sorting : SortFunc) (found : List Object) : Prop where
  sorted : ∀ found' notices notices', found'.Perm found →
    (sortIndex sorting ⟨found',notices'⟩).objects = (sortIndex sorting ⟨found,notices⟩).objects
  running : ∀ {sys : System} {r again : Aim.Read} {scan rescan : Str → Answer Index} {root target ns found' notices notices' planned},
    found'.Perm found → bindingAt sys again root = bindingAt sys r root →
    scan root = .ok (sortIndex sorting ⟨found,notices⟩) → rescan root = .ok (sortIndex sorting ⟨found',notices'⟩) →
    declared sys r scan root target ns = .ok planned → superseded sys again rescan root target ns planned.1 = false

theorem keptRunning {sys : System} {r again : Aim.Read} {scan rescan : Str → Answer Index} {root target ns : Str}
    {index index' : Index} {planned : List Object × List Notice} (same : index'.objects = index.objects)
    (binding : bindingAt sys again root = bindingAt sys r root) (scanned : scan root = .ok index)
    (rescanned : rescan root = .ok index') (kept : declared sys r scan root target ns = .ok planned) :
    superseded sys again rescan root target ns planned.1 = false := by
  cases bound : bindingAt sys r root with
  | error err => simp [declared,bound,bind,Except.bind] at kept
  | ok kube =>
    have first := (declaredOk bound scanned).mp kept
    have second : declared sys again rescan root target ns = .ok _ := (declaredOk (binding.trans bound) rescanned).mpr rfl
    unfold superseded
    rw [second,first,same]
    simp

theorem indexSteady (sorting : SortFunc) (found : List Object) :
    Steady sorting found ↔ ∀ a ∈ found, ∀ b ∈ found, Tied a b → a.apiVersion = b.apiVersion := by
  constructor
  · intro steady a first b second tied
    exact congrArg Object.apiVersion
      (exchanged sorting (fun m perm => steady.sorted m [] [] perm) first second (tiedAlike tied))
  · intro apart
    have sorted : ∀ found' : List Object, found'.Perm found → sorting.sort objectOrder found' = sorting.sort objectOrder found := by
      intro found' perm
      refine sortedSame sorting objectRanks perm (fun a first b second tie => ?_)
      have tied := objectTied.mp tie
      have version := apart a first b second tied
      obtain ⟨kind,ns,name,file⟩ := tied
      cases a
      cases b
      simp_all
    exact ⟨fun found' _ _ perm => sorted found' perm,fun perm => keptRunning (sorted _ perm)⟩

end

def service (version : String) : Object := ⟨version.toList,"Service".toList,[],"web".toList,"web.yaml".toList⟩
def inOrder (found : List Object) : Str → Answer Index := fun _ => .ok (sortIndex SortFunc.insertion ⟨found,[]⟩)

theorem swappedSupersedes :
    declared .plain (reads [oneManifest]) (inOrder [service "v1",service "serving.knative.dev/v1"])
      "/work/infra".toList "dev-east".toList "default".toList = .ok ([service "v1",service "serving.knative.dev/v1"],[]) ∧
    superseded .plain (reads [oneManifest]) (inOrder [service "serving.knative.dev/v1",service "v1"])
      "/work/infra".toList "dev-east".toList "default".toList [service "v1",service "serving.knative.dev/v1"] = true ∧
    ¬Steady SortFunc.insertion [service "v1",service "serving.knative.dev/v1"] := by
  refine ⟨by decide,by decide,fun steady => ?_⟩
  have same := steady.sorted [service "serving.knative.dev/v1",service "v1"] [] [] (List.Perm.swap _ _ _)
  exact absurd same (by decide)

end M6t.Manifest
