import M6t.Manifest
import M6t.TreeWalk

/-! The scan of a checkout: which of its files are indexed, and what is said of the rest. What the opened
root answers is a parameter: the tree under it, at each file what opening it gives, at each directory
whether there is a `Chart.yaml` to stat and why it cannot be read. -/
namespace M6t.ManifestScan
open M6t.Text M6t.Fault M6t.KubeBinding M6t.Registry M6t.Aim M6t.Declared M6t.Manifest M6t.TreeWalk M6t.Sorting
open M6t.SlashPath (dot joined Plain)

def maxFileSize : Nat := 8 * 2 ^ 20
def nodeModules : Str := "node_modules".toList

inductive Item (Node : Type)
  | file (opened : Except Str (Nat × List Node))
  | dir (chart : Bool) (unreadable : Option Str)

/-- The name of a path: what the walk joins from the names of its entries. -/
def nameOf (p : List Str) : Str := if p = [] then dot else joined p

def baseOf (p : List Str) : Str := p.getLast?.getD dot

def chartNotice : Str := "Helm chart: its objects come from rendering the chart, not from the files on disk".toList

def skipDir (index : Index) (name entry : Str) (chart : Bool) : Index × Bool :=
  if name = dot then (index,true)
  else if dot <+: entry ∨ entry = nodeModules then (index,false)
  else if chart then (note index name chartNotice,false)
  else (index,true)

def isYAML (name : Str) : Bool := ".yaml".toList <:+ name ∨ ".yml".toList <:+ name

def tooLarge (size : Nat) : Str :=
  "too large to index (".toList ++ (toString size).toList ++ " bytes, limit ".toList ++ (toString maxFileSize).toList ++ ")".toList

section
variable {Node : Type} (decoder : Decoder Node)

def read (index : Index) (name : Str) : Except Str (Nat × List Node) → Index
  | .error why => note index name why
  | .ok (size,stream) => if maxFileSize < size then note index name (tooLarge size) else decode decoder index name stream

def visit (p : List Str) (item : Item Node) (index : Index) : Index × Bool :=
  match item with
  | .file opened => (if isYAML (baseOf p) then read decoder index (nameOf p) opened else index,false)
  | .dir chart unreadable =>
    match skipDir index (nameOf p) (baseOf p) chart,unreadable with
    | (index,false),_ => (index,false)
    | (index,true),some why => (note index (nameOf p) why,false)
    | (index,true),none => (index,true)

def scan (sorting : SortFunc) (openRoot : Str → Answer (Tree Str (Item Node))) (root : Str) : Answer Index := do
  let tree ← wrapping [.text "indexing ",.shown root] (openRoot root)
  .ok (sortIndex sorting (tree.walk (visit decoder) [] ⟨[],[]⟩))

end

def Index.append (a b : Index) : Index := ⟨a.objects ++ b.objects,a.notices ++ b.notices⟩
def nothing : Index := ⟨[],[]⟩

variable {Node : Type} {decoder : Decoder Node} {index : Index} {p : List Str} {item : Item Node}

theorem appendNothing : Index.append index nothing = index := by simp [Index.append,nothing]

theorem appendAssoc (a b c : Index) : Index.append (Index.append a b) c = Index.append a (Index.append b c) := by
  simp [Index.append]

theorem noteAdds (name why : Str) : note index name why = Index.append index (note nothing name why) := by
  simp [note,Index.append,nothing]

theorem classifyAdds (name : Str) (doc : Document) : classify index name doc = Index.append index (classify nothing name doc) := by
  unfold classify
  dsimp only
  split
  · exact appendNothing.symm
  · split
    · exact noteAdds _ _
    · simp [Index.append,nothing]

theorem decodeAdds (name : Str) (stream : List Node) : decode decoder index name stream = Index.append index (decode decoder nothing name stream) := by
  induction stream generalizing index with
  | nil => exact appendNothing.symm
  | cons node rest ih =>
    unfold decode
    split
    · exact noteAdds _ _
    · next doc _ =>
      have first := @ih (classify index name doc)
      have second := @ih (classify nothing name doc)
      rw [first,second,classifyAdds,appendAssoc]

def adds (decoder : Decoder Node) (v : List Str × Item Node) : Index := (visit decoder v.1 v.2 nothing).1

def goesOn (name entry : Str) (chart : Bool) : Bool := name = dot ∨ ¬(dot <+: entry ∨ entry = nodeModules) ∧ chart = false

def Entered (p : List Str) : Item Node → Bool
  | .file _ => false
  | .dir chart unreadable => goesOn (nameOf p) (baseOf p) chart && unreadable.isNone

theorem readAdds (name : Str) (opened : Except Str (Nat × List Node)) :
    read decoder index name opened = Index.append index (read decoder nothing name opened) := by
  unfold read
  split
  · exact noteAdds _ _
  · split
    · exact noteAdds _ _
    · exact decodeAdds _ _

theorem skipDirAdds (name entry : Str) (chart : Bool) : skipDir index name entry chart =
    (Index.append index (skipDir nothing name entry chart).1,
      goesOn name entry chart) := by
  unfold skipDir goesOn
  by_cases root : name = dot
  · simp [root,appendNothing]
  · by_cases dotted : dot <+: entry ∨ entry = nodeModules
    · simp [root,dotted,appendNothing]
    · cases chart
      · simp [root,dotted,appendNothing]
      · simp [root,dotted,← noteAdds]

theorem visitAdds : visit decoder p item index = (Index.append index (adds decoder (p,item)),Entered p item) := by
  unfold adds visit Entered
  cases item with
  | file opened =>
    dsimp only
    split
    · rw [readAdds]
    · rw [appendNothing]
  | dir chart unreadable =>
    dsimp only
    have own : Index.append nothing (skipDir nothing (nameOf p) (baseOf p) chart).1 = (skipDir nothing (nameOf p) (baseOf p) chart).1 := by
      simp [Index.append,nothing]
    rw [skipDirAdds,@skipDirAdds nothing,own]
    cases goesOn (nameOf p) (baseOf p) chart with
    | false => rfl
    | true =>
      cases unreadable with
      | none => rfl
      | some why =>
        dsimp only
        rw [noteAdds,appendAssoc,← noteAdds]
        rfl

/-- One index from the entries that the walk came to: each of them once, and all whose way in is read. -/
structure Scanned (decoder : Decoder Node) (tree : Tree Str (Item Node)) (visits : List (List Str × Item Node)) (index : Index) : Prop where
  once : (visits.map Prod.fst).Nodup
  reached : ∀ p item, (p,item) ∈ visits ↔ tree.At p item ∧ ∀ u v, p = u ++ v → v ≠ [] → ∀ above, tree.At u above → Entered u above = true
  objects : index.objects.Perm (visits.flatMap (fun v => (adds decoder v).objects))
  notices : index.notices.Perm (visits.flatMap (fun v => (adds decoder v).notices))

theorem foldAdds (visits : List (List Str × Item Node)) : visits.foldl (each (visit decoder)) index =
    ⟨index.objects ++ visits.flatMap (fun v => (adds decoder v).objects),
      index.notices ++ visits.flatMap (fun v => (adds decoder v).notices)⟩ := by
  induction visits generalizing index with
  | nil => simp
  | cons v visits ih => simp [ih,each,visitAdds,Index.append,List.append_assoc]

variable {sorting : SortFunc} {openRoot : Str → Answer (Tree Str (Item Node))} {root : Str} {tree : Tree Str (Item Node)}

theorem scanVisits (opened : openRoot root = .ok tree) (distinct : tree.Distinct) : ∃ index,
    scan decoder sorting openRoot root = .ok index ∧ Scanned decoder tree (tree.visits Entered []) index := by
  have steady : ∀ p item index, (visit decoder p item index).2 = Entered p item := fun p item index => by rw [visitAdds]
  have folded : tree.walk (visit decoder) [] nothing = (tree.visits Entered []).foldl (each (visit decoder)) nothing :=
    tree.walkVisits steady [] nothing
  rw [foldAdds] at folded
  refine ⟨sortIndex sorting (tree.walk (visit decoder) [] nothing),?_,?_⟩
  · simp only [scan,opened,wrapping]
    rfl
  · rw [folded]
    refine ⟨tree.visitsOnce distinct [],fun p item => ?_,?_,?_⟩
    · rw [tree.visitsMember distinct]
      constructor
      · rintro ⟨r,rfl,there,clear⟩
        exact ⟨there,clear⟩
      · rintro ⟨there,clear⟩
        exact ⟨p,rfl,there,clear⟩
    · exact sorting.same objectOrder _
    · exact sorting.same noticeOrder _

theorem scanExact (opened : openRoot root = .ok tree) (distinct : tree.Distinct) : ∃ visits index,
    scan decoder sorting openRoot root = .ok index ∧ Scanned decoder tree visits index := by
  obtain ⟨index,done,whole⟩ := @scanVisits Node decoder sorting openRoot root tree opened distinct
  exact ⟨_,index,done,whole⟩

def checkout : Tree Str (Item Manifest.Node) :=
  .node (.dir false none) (.more ".github".toList (.node (.dir false none) (.more "ci.yaml".toList (.node (.file (.ok (5,[.sequence]))) .none) .none))
    (.more "deploy.yaml".toList (.node (.file (.ok (80,[manifest "apps/v1" "Deployment" "web"]))) .none)
      (.more "shop".toList (.node (.dir true none) (.more "values.yaml".toList (.node (.file (.ok (3,[.null]))) .none) .none)) .none)))

theorem checkoutDistinct : checkout.Distinct := by
  simp [checkout,Tree.Distinct,Forest.Distinct,Forest.names]

theorem checkoutScanned : ∃ visits index, scan (yaml (fun _ => misfit)) .insertion (fun _ => .ok checkout) [] = .ok index ∧
    Scanned (yaml (fun _ => misfit)) checkout visits index :=
  scanExact rfl checkoutDistinct

example : scan (yaml (fun _ => misfit)) .insertion (fun _ => .ok checkout) [] =
    .ok ⟨[⟨"apps/v1".toList,"Deployment".toList,[],"web".toList,"deploy.yaml".toList⟩],[⟨"shop".toList,chartNotice⟩]⟩ := by
  decide +kernel

theorem skipDirObjects (name entry : Str) (chart : Bool) : (skipDir nothing name entry chart).1.objects = [] := by
  unfold skipDir
  split
  · rfl
  · split
    · rfl
    · split <;> rfl

theorem addsObjects {o : Object} : o ∈ (adds decoder (p,item)).objects ↔ ∃ size stream, item = .file (.ok (size,stream)) ∧
    isYAML (baseOf p) = true ∧ size ≤ maxFileSize ∧ o ∈ (decode decoder nothing (nameOf p) stream).objects := by
  unfold adds visit
  cases item with
  | dir chart unreadable =>
    refine iff_of_false ?_ (fun found => by obtain ⟨_,_,same,_⟩ := found; cases same)
    have none_ := skipDirObjects (nameOf p) (baseOf p) chart
    dsimp only
    generalize skipDir nothing (nameOf p) (baseOf p) chart = r at none_ ⊢
    obtain ⟨index,goes⟩ := r
    cases goes <;> cases unreadable <;> simp_all [note]
  | file opened =>
    dsimp only
    constructor
    · intro member
      split at member
      · next yaml =>
        unfold read at member
        split at member
        · cases member
        · next size stream =>
          split at member
          · cases member
          · next fits => exact ⟨size,stream,rfl,yaml,not_lt.mp fits,member⟩
      · cases member
    · rintro ⟨size,stream,same,yaml,fits,member⟩
      cases same
      rw [if_pos yaml,read,if_neg (not_lt.mpr fits)]
      exact member

structure Indexed (decoder : Decoder Node) (tree : Tree Str (Item Node)) (p : List Str) (o : Object) : Prop where
  way : ∀ u v, p = u ++ v → v ≠ [] → ∀ above, tree.At u above → Entered u above = true
  yaml : isYAML (baseOf p) = true
  declares : ∃ size stream, tree.At p (.file (.ok (size,stream))) ∧ size ≤ maxFileSize ∧
    o ∈ (decode decoder nothing (nameOf p) stream).objects

end M6t.ManifestScan
