import M6t.SlashPath

/-! One tab of the editor strip: what it holds and the transitions the strip
performs on it. A file's text is what the frontend holds, its line endings
already normalized. Keys are the numbers the strip counts them with. -/
namespace M6t.Editor
open M6t.Text

inductive IconKind
  | dir | kubernetes | helm | kustomize | actions | yaml | md | go | ts | tsx | js | json | shell | toml | docker
  | make | file
  deriving DecidableEq, Repr

def ROOT : Str := []

def parentPath (path : Str) : Str := (SlashPath.split path).1.dropLast
def baseName (path : Str) : Str := (SlashPath.split path).2

/-- `toLowerCase` as far as an ASCII name can tell: beside the ASCII capitals,
two code points have a lower case that holds an ASCII letter. -/
def toLowerCase (s : Str) : Str :=
  s.flatMap (fun c =>
    if c.toNat = 0x212A then ['k']
    else if c.toNat = 0x130 then ['i',Char.ofNat 0x307]
    else [c.toLower])

def BY_NAME : List (String × IconKind) :=
  [("dockerfile",.docker),("containerfile",.docker),("makefile",.make),("gnumakefile",.make),
    ("chart.yaml",.helm),("chart.lock",.helm),("kustomization.yaml",.kustomize),("kustomization.yml",.kustomize)]

def BY_EXTENSION : List (String × IconKind) :=
  [(".md",.md),(".markdown",.md),(".go",.go),(".ts",.ts),(".mts",.ts),(".cts",.ts),(".tsx",.tsx),(".js",.js),
    (".mjs",.js),(".cjs",.js),(".jsx",.js),(".json",.json),(".sh",.shell),(".bash",.shell),(".zsh",.shell),
    (".toml",.toml),(".dockerfile",.docker),(".mk",.make)]

def extensionOf (name : Str) : Str :=
  let stem := name.rdropWhile (· ≠ '.')
  if stem.length ≤ 1 then [] else '.' :: name.drop stem.length

def yamlKind (path name : Str) : IconKind :=
  let dirs := SlashPath.elements (parentPath path)
  if dirs[0]? = some ".github".toList ∧ dirs[1]? = some "workflows".toList then .actions
  else if (cutPrefix "values".toList name).isSome ∨ "templates".toList ∈ dirs then .helm
  else .yaml

def iconKind (path : Str) (isDir : Bool) : IconKind :=
  if isDir then .dir
  else
    let name := toLowerCase (baseName path)
    match BY_NAME.lookup (String.ofList name) with
    | some kind => kind
    | none =>
      let extension := extensionOf name
      if extension = ".yaml".toList ∨ extension = ".yml".toList then yamlKind path name
      else (BY_EXTENSION.lookup (String.ofList extension)).getD .file

inductive EditorTabKind | yaml | markdown | text
  deriving DecidableEq, Repr

def YAML_ICONS : List IconKind := [.yaml,.kubernetes,.helm,.kustomize,.actions]

def kindFromIcon (icon : IconKind) : EditorTabKind :=
  if icon ∈ YAML_ICONS then .yaml
  else if icon = .md then .markdown
  else .text

inductive EditorTabStatus | loading | ready | error
  deriving DecidableEq, Repr

inductive EditorMode | preview | edit
  deriving DecidableEq, Repr

structure FileContent where
  content : Str
  crlf : Bool
  mixedEol : Bool
  readOnly : Bool
  size : Nat
  deriving DecidableEq, Repr

def plainText (content : String) : FileContent := ⟨content.toList,false,false,false,content.length⟩

structure EditorTab where
  key : Nat
  project : Str
  root : Str
  path : Str
  title : Str
  kind : EditorTabKind
  mode : EditorMode
  blame : Bool
  status : EditorTabStatus
  content : Str
  baseline : Str
  crlf : Bool
  readOnly : Bool
  mixedEol : Bool
  size : Nat
  conflict : Option Str
  saving : Bool
  error : Option Str
  deriving DecidableEq, Repr

def isDirty (tab : EditorTab) : Bool := tab.status = .ready && tab.content ≠ tab.baseline

def canSave (tab : EditorTab) : Bool :=
  isDirty tab && !tab.readOnly && !tab.saving && tab.conflict = none

def newTab (key : Nat) (project root path : Str) (kind : EditorTabKind) : EditorTab where
  key
  project
  root
  path
  title := baseName path
  kind
  mode := if kind = .markdown then .preview else .edit
  blame := false
  status := .loading
  content := []
  baseline := []
  crlf := false
  readOnly := false
  mixedEol := false
  size := 0
  conflict := none
  saving := false
  error := none

def withLoaded (tab : EditorTab) (file : FileContent) : EditorTab :=
  { tab with
    status := .ready
    content := file.content
    baseline := file.content
    crlf := file.crlf
    readOnly := file.readOnly
    mixedEol := file.mixedEol
    size := file.size
    conflict := none
    error := none }

def withError (tab : EditorTab) (message : Str) : EditorTab := { tab with status := .error, error := some message }

def withEdit (tab : EditorTab) (content : Str) : EditorTab :=
  if tab.readOnly then tab else { tab with content, error := none }

def withSaving (tab : EditorTab) : EditorTab := { tab with saving := true, error := none }

def withSaved (tab : EditorTab) (saved : Str) : EditorTab :=
  { tab with baseline := saved, saving := false, conflict := none, error := none }

def withSaveFailed (tab : EditorTab) (message : Str) : EditorTab :=
  { tab with saving := false, error := some message }

def withReloadFailed (tab : EditorTab) (message : Str) : EditorTab := { tab with error := some message }

def withMode (tab : EditorTab) (mode : EditorMode) : EditorTab := { tab with mode }

def withExternalChange (tab : EditorTab) (file : FileContent) : EditorTab :=
  if tab.status ≠ .ready ∨ tab.saving then tab
  else if !isDirty tab then withLoaded tab file
  else if file.content = tab.baseline then tab
  else { tab with conflict := some file.content, crlf := file.crlf }

def resolveKeepMine (tab : EditorTab) : EditorTab :=
  match tab.conflict with
  | none => tab
  | some disk => { tab with baseline := disk, conflict := none }

def resolveTakeDisk (tab : EditorTab) : EditorTab :=
  match tab.conflict with
  | none => tab
  | some disk => { tab with content := disk, baseline := disk, conflict := none }

@[simp] theorem withEditStatus (tab : EditorTab) (text : Str) : (withEdit tab text).status = tab.status := by
  unfold withEdit
  split <;> rfl

@[simp] theorem withEditSaving (tab : EditorTab) (text : Str) : (withEdit tab text).saving = tab.saving := by
  unfold withEdit
  split <;> rfl

@[simp] theorem withEditConflict (tab : EditorTab) (text : Str) : (withEdit tab text).conflict = tab.conflict := by
  unfold withEdit
  split <;> rfl

@[simp] theorem withEditBaseline (tab : EditorTab) (text : Str) : (withEdit tab text).baseline = tab.baseline := by
  unfold withEdit
  split <;> rfl

theorem withEditContent {tab : EditorTab} {text : Str} (moved : (withEdit tab text).content ≠ tab.content) :
    (withEdit tab text).content = text := by
  unfold withEdit at moved ⊢
  split at moved
  · exact absurd rfl moved
  · next editable => rw [if_neg editable]

theorem externalCases (tab : EditorTab) (file : FileContent) :
    ((tab.status ≠ .ready ∨ tab.saving = true) ∧ withExternalChange tab file = tab) ∨
      tab.status = .ready ∧ tab.saving = false ∧
        (isDirty tab = false ∧ withExternalChange tab file = withLoaded tab file ∨
          isDirty tab = true ∧ file.content = tab.baseline ∧ withExternalChange tab file = tab ∨
          isDirty tab = true ∧ file.content ≠ tab.baseline ∧
            withExternalChange tab file = { tab with conflict := some file.content, crlf := file.crlf }) := by
  unfold withExternalChange
  split
  · next away => exact .inl ⟨away,rfl⟩
  · next here =>
    obtain ⟨ready,idle⟩ := not_or.mp here
    refine .inr ⟨not_not.mp ready,by simpa using idle,?_⟩
    cases dirty : isDirty tab with
    | false => exact .inl ⟨rfl,rfl⟩
    | true =>
      by_cases same : file.content = tab.baseline
      · exact .inr (.inl ⟨rfl,same,by simp [same]⟩)
      · exact .inr (.inr ⟨rfl,same,by simp [same]⟩)

end M6t.Editor
