import M6t.GitBadges
import M6t.Sorting
import Mathlib.Data.List.Lex
import Mathlib.Data.List.MinMax
import Mathlib.Data.List.Sort

/-! The rows of the changed-only mode: every path git reports under the directories that hold it,
filed in two passes and flattened depth first. The lower case of a name is a parameter. -/
namespace M6t.GitChangedRows
open M6t.Text M6t.GitStatus M6t.GitBadges
open M6t.Editor (ROOT parentPath baseName)
open M6t.FileTree (TreeEntry TreeRow)

def units (s : Str) : List Nat :=
  s.flatMap (fun c =>
    if c.toNat < 0x10000 then [c.toNat]
    else [0xd800 + (c.toNat - 0x10000) / 0x400,0xdc00 + (c.toNat - 0x10000) % 0x400])

structure Filed where
  children : List (Str × List TreeEntry)
  placed : List Str
  deriving DecidableEq, Repr

def place (filed : Filed) (entry : TreeEntry) : Filed :=
  if entry.path ∈ filed.placed then filed
  else
    { placed := filed.placed ++ [entry.path]
      children :=
        match filed.children.lookup (parentPath entry.path) with
        | none => Records.put filed.children (parentPath entry.path) [entry]
        | some siblings => Records.put filed.children (parentPath entry.path) (siblings ++ [entry]) }

def dirEntry (dir : Str) : TreeEntry := ⟨baseName dir,true,dir⟩
def fileEntry (file : FileStatus) : TreeEntry := ⟨baseName (pathOf file),isDirEntry file,pathOf file⟩

def placeAncestors (filed : Filed) (file : FileStatus) : Filed :=
  (ancestorsOf (pathOf file)).foldl (fun filed dir => place filed (dirEntry dir)) filed

def filedFor (status : Status) : Filed :=
  status.files.foldl (fun filed file => place filed (fileEntry file)) (status.files.foldl placeAncestors ⟨[],[]⟩)

def byTreeOrder (toLowerCase : Str → Str) (a b : TreeEntry) : Int :=
  if a.isDir ≠ b.isDir then if a.isDir then -1 else 1
  else
    let x := units (toLowerCase a.name)
    let y := units (toLowerCase b.name)
    if x < y then -1 else if y < x then 1 else 0

def flatten (toLowerCase : Str → Str) (children : List (Str × List TreeEntry)) : Nat → Str → Nat → List TreeRow
  | 0,_,_ => []
  | fuel + 1,dir,depth =>
    (((children.lookup dir).getD []).insertionSort (fun a b => byTreeOrder toLowerCase a b ≤ 0)).flatMap (fun entry =>
      ⟨entry,depth⟩ :: if entry.isDir then flatten toLowerCase children fuel entry.path (depth + 1) else [])

def longest (files : List FileStatus) : Nat := (files.map (fun file => file.path.length)).foldr max 0

def changedRows (toLowerCase : Str → Str) (status : Status) : List TreeRow :=
  flatten toLowerCase (filedFor status).children (longest status.files + 1) ROOT 0

def Under (dir path : Str) : Prop := path ≠ ROOT ∧ (dir = ROOT ∨ Above dir path)

theorem aboveTrans {a b c : Str} (first : Above a b) (second : Above b c) : Above a c :=
  ⟨first.1,first.2.trans ((List.prefix_append b ['/']).trans second.2)⟩

theorem aboveShorter {dir path : Str} (above : Above dir path) : dir.length < path.length := by
  have short := above.2.length_le
  rw [List.length_append,List.length_singleton] at short
  omega

theorem aboveIrrefl (path : Str) : ¬Above path path := fun above => Nat.lt_irrefl _ (aboveShorter above)

theorem aboveSome {dir path : Str} (above : Above dir path) : path ≠ ROOT := fun root => aboveRoot dir (root ▸ above)

theorem underParent {path : Str} (some_ : path ≠ ROOT) : Under (parentPath path) path := by
  by_cases root : parentPath path = ROOT
  · exact ⟨some_,.inl root⟩
  · exact ⟨some_,.inr (aboveStep.mpr ⟨root,.inl rfl⟩)⟩

theorem underStep {dir path : Str} (under : Under dir path) : parentPath path = dir ∨ Under dir (parentPath path) := by
  obtain ⟨some_,rfl | above⟩ := under
  · by_cases root : parentPath path = ROOT
    · exact .inl root
    · exact .inr ⟨root,.inl rfl⟩
  · obtain ⟨inside,same | above⟩ := aboveStep.mp above
    · exact .inl same.symm
    · exact .inr ⟨aboveSome above,.inr above⟩

theorem underAbove {dir middle path : Str} (under : Under dir middle) (above : Above middle path) : Under dir path :=
  ⟨aboveSome above,under.2.imp id (fun first => aboveTrans first above)⟩

theorem underSome {dir path : Str} (inside : dir ≠ ROOT) : Under dir path ↔ Above dir path :=
  ⟨fun under => under.2.resolve_left inside,fun above => ⟨aboveSome above,.inr above⟩⟩

theorem siblingNotAbove {dir child path : Str} (some_ : child ≠ ROOT) (inside : parentPath child = dir)
    (beside : parentPath path = dir) : ¬Above child path := by
  intro above
  have around : Under dir child := inside ▸ underParent some_
  rcases (aboveStep.mp above).2 with same | deeper
  · rw [beside] at same
    rcases around.2 with root | higher
    · exact some_ (same.trans root)
    · exact aboveIrrefl dir (same ▸ higher)
  · rw [beside] at deeper
    rcases around.2 with root | higher
    · exact aboveRoot child (root ▸ deeper)
    · exact aboveIrrefl dir (aboveTrans higher deeper)

theorem childUnique {dir first second path : Str} (first_ : first ≠ ROOT) (second_ : second ≠ ROOT)
    (inside : parentPath first = dir) (inside' : parentPath second = dir)
    (holds : path = first ∨ Above first path) (holds' : path = second ∨ Above second path) : first = second := by
  induction size : path.length using Nat.strong_induction_on generalizing path with
  | _ n ih =>
    rcases holds with rfl | above
    · rcases holds' with same | above'
      · exact same
      · exact absurd above' (siblingNotAbove second_ inside' inside)
    · rcases holds' with rfl | above'
      · exact absurd above (siblingNotAbove first_ inside inside')
      · have up := (aboveStep.mp above).2
        have up' := (aboveStep.mp above').2
        have deep : parentPath path ≠ ROOT := up.elim (fun same => same ▸ first_) aboveSome
        exact ih _ (size ▸ parentShorter deep) (up.imp Eq.symm id) (up'.imp Eq.symm id) rfl

theorem withinEnough {fuel fuel' : Nat} {path : Str} (enough : path.length ≤ fuel) (enough' : path.length ≤ fuel') :
    ancestorsWithin fuel path = ancestorsWithin fuel' path := by
  induction fuel generalizing fuel' path with
  | zero =>
    have empty : path = [] := List.length_eq_zero_iff.mp (Nat.le_zero.mp enough)
    cases fuel' <;> simp [ancestorsWithin,empty,parentRoot,ROOT]
  | succ fuel ih =>
    cases fuel' with
    | zero =>
      have empty : path = [] := List.length_eq_zero_iff.mp (Nat.le_zero.mp enough')
      simp [ancestorsWithin,empty,parentRoot,ROOT]
    | succ fuel' =>
      rw [ancestorsWithin,ancestorsWithin]
      by_cases root : parentPath path = ROOT
      · rw [if_pos root,if_pos root]
      · have shorter := parentShorter root
        rw [if_neg root,if_neg root,@ih fuel' (parentPath path) (by omega) (by omega)]

theorem ancestorsStep {path : Str} (deep : parentPath path ≠ ROOT) :
    ancestorsOf path = parentPath path :: ancestorsOf (parentPath path) := by
  have shorter := parentShorter deep
  rw [ancestorsOf,ancestorsOf,← withinEnough (Nat.le_add_right path.length 1) (Nat.le_refl _),ancestorsWithin,if_neg deep,
    withinEnough (Nat.le_of_lt shorter) (Nat.le_refl _)]

theorem ancestorsRoot {path : Str} (flat : parentPath path = ROOT) : ancestorsOf path = [] := by
  rw [ancestorsOf]
  cases path.length with
  | zero => rfl
  | succ n => rw [ancestorsWithin,if_pos flat]

/-- Everything placed so far, the first of each path. -/
def keep (kept : List TreeEntry) (entry : TreeEntry) : List TreeEntry :=
  if entry.path ∈ kept.map TreeEntry.path then kept else kept ++ [entry]

def dirEntries (files : List FileStatus) : List TreeEntry :=
  files.flatMap (fun file => (ancestorsOf (pathOf file)).map dirEntry)

def keptOf (files : List FileStatus) : List TreeEntry := (files.map fileEntry).foldl keep ((dirEntries files).foldl keep [])

structure Holds (filed : Filed) (kept : List TreeEntry) : Prop where
  placed : filed.placed = kept.map TreeEntry.path
  children : ∀ dir, (filed.children.lookup dir).getD [] = kept.filter (fun entry => parentPath entry.path = dir)

theorem Holds.place {filed : Filed} {kept : List TreeEntry} (holds : Holds filed kept) (entry : TreeEntry) :
    Holds (place filed entry) (keep kept entry) := by
  rw [GitChangedRows.place,keep,holds.placed]
  split
  · exact holds
  · refine ⟨by rw [List.map_append]; rfl,fun dir => ?_⟩
    have same : (match filed.children.lookup (parentPath entry.path) with
        | none => Records.put filed.children (parentPath entry.path) [entry]
        | some siblings => Records.put filed.children (parentPath entry.path) (siblings ++ [entry])) =
        Records.put filed.children (parentPath entry.path)
          ((filed.children.lookup (parentPath entry.path)).getD [] ++ [entry]) := by
      cases filed.children.lookup (parentPath entry.path) <;> rfl
    rw [same,Records.lookupPut,List.filter_append,List.filter_singleton,← holds.children]
    by_cases here : dir = parentPath entry.path
    · subst here
      simp
    · simp [here,Ne.symm here]

theorem Holds.all {filed : Filed} {kept : List TreeEntry} (holds : Holds filed kept) (entries : List TreeEntry) :
    Holds (entries.foldl GitChangedRows.place filed) (entries.foldl keep kept) := by
  induction entries generalizing filed kept with
  | nil => exact holds
  | cons entry entries ih => exact ih (holds.place entry)

theorem filedHolds (status : Status) : Holds (filedFor status) (keptOf status.files) := by
  have first : status.files.foldl placeAncestors ⟨[],[]⟩ = (dirEntries status.files).foldl place ⟨[],[]⟩ := by
    rw [dirEntries,List.foldl_flatMap]
    simp only [List.foldl_map]
    rfl
  have second : filedFor status = (status.files.map fileEntry).foldl place ((dirEntries status.files).foldl place ⟨[],[]⟩) := by
    rw [List.foldl_map,← first]
    rfl
  rw [second]
  have empty : Holds ⟨[],[]⟩ [] := ⟨rfl,fun _ => rfl⟩
  exact (empty.all _).all _

theorem keepOnce {kept : List TreeEntry} (entry : TreeEntry) (once : (kept.map TreeEntry.path).Nodup) :
    ((keep kept entry).map TreeEntry.path).Nodup := by
  unfold keep
  split
  · exact once
  · next fresh =>
    rw [List.map_append,List.map_singleton]
    exact List.nodup_append_comm.mp (List.nodup_cons.mpr ⟨fresh,once⟩)

theorem keepMember {kept : List TreeEntry} {entry other : TreeEntry} :
    other ∈ keep kept entry ↔ other ∈ kept ∨ other = entry ∧ entry.path ∉ kept.map TreeEntry.path := by
  unfold keep
  split
  · next there => exact ⟨.inl,fun h => h.resolve_right (fun fresh => fresh.2 there)⟩
  · next fresh => simp only [List.mem_append,List.mem_singleton,fresh,not_false_eq_true,and_true]

theorem keptOnce {kept : List TreeEntry} (entries : List TreeEntry) (once : (kept.map TreeEntry.path).Nodup) :
    ((entries.foldl keep kept).map TreeEntry.path).Nodup := by
  induction entries generalizing kept with
  | nil => exact once
  | cons entry entries ih => exact ih (keepOnce entry once)

theorem keptStays {kept : List TreeEntry} (entries : List TreeEntry) {other : TreeEntry} (there : other ∈ kept) :
    other ∈ entries.foldl keep kept := by
  induction entries generalizing kept with
  | nil => exact there
  | cons entry entries ih => exact ih (keepMember.mpr (.inl there))

theorem keptFrom {kept entries : List TreeEntry} {other : TreeEntry} (there : other ∈ entries.foldl keep kept) :
    other ∈ kept ∨ other ∈ entries := by
  induction entries generalizing kept with
  | nil => exact .inl there
  | cons entry entries ih =>
    rcases ih there with old | later
    · rcases keepMember.mp old with before | ⟨rfl,-⟩
      · exact .inl before
      · exact .inr List.mem_cons_self
    · exact .inr (List.mem_cons_of_mem _ later)

theorem keptPath {kept entries : List TreeEntry} {entry : TreeEntry} (member : entry ∈ entries) :
    entry.path ∈ (entries.foldl keep kept).map TreeEntry.path := by
  induction entries generalizing kept with
  | nil => exact absurd member List.not_mem_nil
  | cons first entries ih =>
    rcases List.mem_cons.mp member with rfl | later
    · by_cases held : entry.path ∈ kept.map TreeEntry.path
      · obtain ⟨old,there,same⟩ := List.mem_map.mp held
        exact List.mem_map.mpr ⟨old,keptStays _ there,same⟩
      · have own : entry ∈ keep kept entry := keepMember.mpr (.inr ⟨rfl,held⟩)
        exact List.mem_map_of_mem (keptStays entries own)
    · exact ih later

structure Tree (kept : List TreeEntry) : Prop where
  once : (kept.map TreeEntry.path).Nodup
  inside : ∀ entry ∈ kept, entry.path ≠ ROOT
  named : ∀ entry ∈ kept, entry.name = baseName entry.path
  closed : ∀ entry ∈ kept, ∀ dir, Above dir entry.path → dirEntry dir ∈ kept

theorem Tree.dir {kept : List TreeEntry} (tree : Tree kept) {entry : TreeEntry} (member : entry ∈ kept)
    (held : dirEntry entry.path ∈ kept) : entry.isDir = true := by
  have own : entry = dirEntry entry.path := List.inj_on_of_nodup_map tree.once member held rfl
  rw [own]
  rfl

theorem dirEntriesMember {files : List FileStatus} {entry : TreeEntry} :
    entry ∈ dirEntries files ↔ ∃ dir, entry = dirEntry dir ∧ ∃ file ∈ files, Above dir (pathOf file) := by
  simp only [dirEntries,List.mem_flatMap,List.mem_map,ancestorsMember]
  constructor
  · rintro ⟨file,member,dir,above,rfl⟩
    exact ⟨dir,rfl,file,member,above⟩
  · rintro ⟨dir,rfl,file,member,above⟩
    exact ⟨file,member,dir,above,rfl⟩

theorem keptDirs {files : List FileStatus} {dir : Str} (holds : ∃ file ∈ files, Above dir (pathOf file)) :
    dirEntry dir ∈ keptOf files := by
  refine keptStays _ ?_
  have member : dirEntry dir ∈ dirEntries files := dirEntriesMember.mpr ⟨dir,rfl,holds⟩
  obtain ⟨entry,there,same⟩ := List.mem_map.mp (@keptPath [] _ _ member)
  obtain ⟨other,rfl,-⟩ := dirEntriesMember.mp ((keptFrom there).resolve_left List.not_mem_nil)
  obtain rfl : other = dir := same
  exact there

theorem keptMember {files : List FileStatus} {entry : TreeEntry} (there : entry ∈ keptOf files) :
    (∃ dir, entry = dirEntry dir ∧ ∃ file ∈ files, Above dir (pathOf file)) ∨ ∃ file ∈ files, entry = fileEntry file := by
  rcases keptFrom there with first | second
  · exact .inl (dirEntriesMember.mp ((keptFrom first).resolve_left List.not_mem_nil))
  · obtain ⟨file,member,rfl⟩ := List.mem_map.mp second
    exact .inr ⟨file,member,rfl⟩

theorem keptPaths {files : List FileStatus} {path : Str} :
    path ∈ (keptOf files).map TreeEntry.path ↔ ∃ file ∈ files, path = pathOf file ∨ Above path (pathOf file) := by
  constructor
  · intro there
    obtain ⟨entry,member,rfl⟩ := List.mem_map.mp there
    rcases keptMember member with ⟨dir,rfl,file,reported,above⟩ | ⟨file,reported,rfl⟩
    · exact ⟨file,reported,.inr above⟩
    · exact ⟨file,reported,.inl rfl⟩
  · rintro ⟨file,reported,rfl | above⟩
    · exact @keptPath _ _ (fileEntry file) (List.mem_map_of_mem reported)
    · exact List.mem_map_of_mem (keptDirs ⟨file,reported,above⟩)

theorem keptTree {files : List FileStatus} (named : ∀ file ∈ files, pathOf file ≠ ROOT) : Tree (keptOf files) where
  once := keptOnce _ (keptOnce _ List.nodup_nil)
  inside := fun entry member => by
    rcases keptMember member with ⟨dir,rfl,file,-,above⟩ | ⟨file,reported,rfl⟩
    · exact above.1
    · exact named file reported
  named := fun entry member => by
    rcases keptMember member with ⟨dir,rfl,-⟩ | ⟨file,-,rfl⟩ <;> rfl
  closed := fun entry member dir above => by
    rcases keptMember member with ⟨lower,rfl,file,reported,above'⟩ | ⟨file,reported,rfl⟩
    · exact keptDirs ⟨file,reported,aboveTrans above above'⟩
    · exact keptDirs ⟨file,reported,above⟩

def Before (toLowerCase : Str → Str) (a b : TreeEntry) : Prop :=
  a.isDir = true ∧ b.isDir = false ∨ a.isDir = b.isDir ∧ units (toLowerCase a.name) ≤ units (toLowerCase b.name)

variable {toLowerCase : Str → Str}

theorem treeOrderBefore {a b : TreeEntry} : byTreeOrder toLowerCase a b ≤ 0 ↔ Before toLowerCase a b := by
  unfold byTreeOrder Before
  by_cases same : a.isDir = b.isDir
  · rw [if_neg (not_not.mpr same)]
    simp only [same,true_and]
    rcases lt_trichotomy (units (toLowerCase a.name)) (units (toLowerCase b.name)) with less | equal | more
    · simp [less,le_of_lt less]
    · simp [equal]
    · simp [more,not_lt_of_gt more,not_le_of_gt more]
  · rw [if_pos same]
    cases dir : a.isDir <;> cases dir' : b.isDir <;> simp_all

theorem treeOrderKind {a b : TreeEntry} : byTreeOrder toLowerCase a b ≤ 0 ↔
    Sorting.KindFirst TreeEntry.isDir (fun entry => units (toLowerCase entry.name)) a b := treeOrderBefore

theorem beforeTotal : Std.Total (fun a b => byTreeOrder toLowerCase a b ≤ 0) := ⟨fun a b => by
  simp only [treeOrderKind]
  exact Sorting.kindTotal a b⟩

theorem beforeTrans : IsTrans TreeEntry (fun a b => byTreeOrder toLowerCase a b ≤ 0) := ⟨fun a b c first second => by
  simp only [treeOrderKind] at *
  exact Sorting.kindTrans first second⟩

theorem sortedBefore (entries : List TreeEntry) :
    (entries.insertionSort (fun a b => byTreeOrder toLowerCase a b ≤ 0)).Pairwise (Before toLowerCase) := by
  have := @beforeTotal toLowerCase
  have := @beforeTrans toLowerCase
  have ordered := List.pairwise_insertionSort (fun a b => byTreeOrder toLowerCase a b ≤ 0) entries
  exact ordered.imp (fun h => treeOrderBefore.mp h)

section
variable {kept : List TreeEntry} {children : List (Str × List TreeEntry)}
  (tree : Tree kept)
  (lists : ∀ dir, (children.lookup dir).getD [] = kept.filter (fun entry => parentPath entry.path = dir))

def depthOf (dir : Str) : Nat := if dir = ROOT then 0 else (ancestorsOf dir).length + 1

theorem childDepth (path : Str) : (ancestorsOf path).length = depthOf (parentPath path) := by
  unfold depthOf
  split
  · next flat => rw [ancestorsRoot flat]; rfl
  · next deep => rw [ancestorsStep deep]; rfl

theorem dirDepth {path : Str} (some_ : path ≠ ROOT) : depthOf path = depthOf (parentPath path) + 1 := by
  rw [← childDepth,depthOf,if_neg some_]

def Enough (kept : List TreeEntry) (fuel : Nat) (dir : Str) : Prop := ∀ entry ∈ kept, entry.path.length < dir.length + fuel

theorem underShorter {dir path : Str} (under : Under dir path) : dir.length < path.length := by
  rcases under.2 with rfl | above
  · exact List.length_pos_of_ne_nil under.1
  · exact aboveShorter above

theorem Enough.child {fuel : Nat} {dir : Str} {child : TreeEntry} (enough : Enough kept (fuel + 1) dir)
    (under : Under dir child.path) : Enough kept fuel child.path := by
  intro entry member
  have short := enough entry member
  have shorter := underShorter under
  omega

def segment (toLowerCase : Str → Str) (children : List (Str × List TreeEntry)) (fuel depth : Nat) (entry : TreeEntry) :
    List TreeRow :=
  ⟨entry,depth⟩ :: if entry.isDir then flatten toLowerCase children fuel entry.path (depth + 1) else []

def listing (toLowerCase : Str → Str) (kept : List TreeEntry) (dir : Str) : List TreeEntry :=
  (kept.filter (fun entry => parentPath entry.path = dir)).insertionSort (fun a b => byTreeOrder toLowerCase a b ≤ 0)

theorem listingMember {dir : Str} {entry : TreeEntry} :
    entry ∈ listing toLowerCase kept dir ↔ entry ∈ kept ∧ parentPath entry.path = dir := by
  rw [listing,List.mem_insertionSort,List.mem_filter,decide_eq_true_iff]

include lists in
theorem flattenSegments (fuel : Nat) (dir : Str) (depth : Nat) :
    flatten toLowerCase children (fuel + 1) dir depth =
      (listing toLowerCase kept dir).flatMap (segment toLowerCase children fuel depth) := by
  rw [flatten,lists]
  rfl

include tree in
theorem childUnder {dir : Str} {child : TreeEntry} (member : child ∈ kept) (inside : parentPath child.path = dir) :
    Under dir child.path :=
  inside ▸ underParent (tree.inside child member)

include tree in
theorem holder {dir : Str} {entry : TreeEntry} (member : entry ∈ kept) (under : Under dir entry.path) :
    ∃ child ∈ kept, parentPath child.path = dir ∧ (entry = child ∨ child.isDir = true ∧ Above child.path entry.path) := by
  induction size : entry.path.length using Nat.strong_induction_on generalizing entry with
  | _ n ih =>
    rcases underStep under with inside | above
    · exact ⟨entry,member,inside,.inl rfl⟩
    · have up : Above (parentPath entry.path) entry.path := aboveStep.mpr ⟨above.1,.inl rfl⟩
      have parent := tree.closed entry member _ up
      obtain ⟨child,held,inside,same | ⟨dir_,higher⟩⟩ := ih _ (size ▸ aboveShorter up) parent above rfl
      · have own : dirEntry (parentPath entry.path) = child := same
        exact ⟨child,held,inside,.inr ⟨own ▸ rfl,own ▸ up⟩⟩
      · exact ⟨child,held,inside,.inr ⟨dir_,aboveTrans higher up⟩⟩

include tree lists in
theorem flattenMember {fuel : Nat} {dir : Str} (enough : Enough kept fuel dir) (row : TreeRow) :
    row ∈ flatten toLowerCase children fuel dir (depthOf dir) ↔
      row.entry ∈ kept ∧ Under dir row.entry.path ∧ row.depth = (ancestorsOf row.entry.path).length := by
  induction fuel generalizing dir row with
  | zero =>
    refine ⟨fun none_ => absurd none_ List.not_mem_nil,fun ⟨member,under,_⟩ => ?_⟩
    have short := enough _ member
    have shorter := underShorter under
    omega
  | succ fuel ih =>
    rw [flattenSegments lists,List.mem_flatMap]
    constructor
    · rintro ⟨child,listed,there⟩
      obtain ⟨member,inside⟩ := listingMember.mp listed
      have under := childUnder tree member inside
      rcases List.mem_cons.mp there with rfl | deeper
      · exact ⟨member,under,by rw [childDepth,inside]⟩
      · split at deeper
        · rw [← inside,← dirDepth under.1,ih (enough.child under)] at deeper
          exact ⟨deeper.1,underAbove under ((underSome under.1).mp deeper.2.1),deeper.2.2⟩
        · exact absurd deeper List.not_mem_nil
    · rintro ⟨member,under,depth⟩
      obtain ⟨child,held,inside,same | ⟨dir_,above⟩⟩ := holder tree member under
      · refine ⟨child,listingMember.mpr ⟨held,inside⟩,List.mem_cons.mpr (.inl ?_)⟩
        obtain ⟨entry,level⟩ := row
        obtain rfl : entry = child := same
        have level_ : level = depthOf dir := by rw [← inside,← childDepth]; exact depth
        rw [level_]
      · refine ⟨child,listingMember.mpr ⟨held,inside⟩,List.mem_cons_of_mem _ ?_⟩
        have under' := childUnder tree held inside
        rw [if_pos dir_,← inside,← dirDepth under'.1,ih (enough.child under')]
        exact ⟨member,(underSome under'.1).mpr above,depth⟩

include tree lists in
theorem belowMember {fuel : Nat} {dir : Str} {child : TreeEntry} (enough : Enough kept (fuel + 1) dir)
    (listed : child ∈ listing toLowerCase kept dir) {row : TreeRow}
    (there : row ∈ if child.isDir then flatten toLowerCase children fuel child.path (depthOf dir + 1) else []) :
    Above child.path row.entry.path := by
  obtain ⟨member,inside⟩ := listingMember.mp listed
  have under := childUnder tree member inside
  split at there
  · rw [← inside,← dirDepth under.1,flattenMember tree lists (enough.child under)] at there
    exact (underSome under.1).mp there.2.1
  · exact absurd there List.not_mem_nil

include tree in
theorem listingOnce (dir : Str) :
    (listing toLowerCase kept dir).Pairwise (fun a b => a.path ≠ b.path) := by
  have once : ((kept.filter (fun entry => parentPath entry.path = dir)).map TreeEntry.path).Nodup :=
    tree.once.sublist (List.filter_sublist.map _)
  have perm := List.perm_insertionSort (fun a b => byTreeOrder toLowerCase a b ≤ 0)
    (kept.filter (fun entry => parentPath entry.path = dir))
  exact List.pairwise_map.mp ((perm.map TreeEntry.path).nodup_iff.mpr once)

include tree lists in
theorem flattenPairwise {R : TreeRow → TreeRow → Prop}
    (down : ∀ child ∈ kept, ∀ level row, Above child.path row.entry.path → R ⟨child,level⟩ row)
    (across : ∀ dir, (listing toLowerCase kept dir).Pairwise (fun a b => ∀ x y : TreeRow,
      x.entry = a ∨ Above a.path x.entry.path → y.entry = b ∨ Above b.path y.entry.path → R x y))
    {fuel : Nat} {dir : Str} (enough : Enough kept fuel dir) :
    (flatten toLowerCase children fuel dir (depthOf dir)).Pairwise R := by
  induction fuel generalizing dir with
  | zero => exact List.Pairwise.nil
  | succ fuel ih =>
    rw [flattenSegments lists,List.pairwise_flatMap]
    have inside : ∀ child ∈ listing toLowerCase kept dir, ∀ row ∈ segment toLowerCase children fuel (depthOf dir) child,
        row.entry = child ∨ Above child.path row.entry.path := fun child listed row there =>
      (List.mem_cons.mp there).imp (congrArg TreeRow.entry) (belowMember tree lists enough listed)
    refine ⟨fun child listed => ?_,(across dir).imp_of_mem (fun listed listed' apart x there y there' => ?_)⟩
    · obtain ⟨member,parent⟩ := listingMember.mp listed
      have under := childUnder tree member parent
      rw [segment,List.pairwise_cons]
      constructor
      · exact fun row there => down child member _ row (belowMember tree lists enough listed there)
      · split
        · rw [← parent,← dirDepth under.1]
          exact ih (enough.child under)
        · exact List.Pairwise.nil
    · exact apart x y (inside _ listed x there) (inside _ listed' y there')

include tree in
theorem heldOnce {dir : Str} {a b : TreeEntry} (first : a ∈ listing toLowerCase kept dir)
    (second : b ∈ listing toLowerCase kept dir) (apart : a.path ≠ b.path) {path : Str}
    (holds : path = a.path ∨ Above a.path path) (holds' : path = b.path ∨ Above b.path path) : False := by
  obtain ⟨member,inside⟩ := listingMember.mp first
  obtain ⟨member',inside'⟩ := listingMember.mp second
  exact apart (childUnique (tree.inside a member) (tree.inside b member') inside inside' holds holds')

include tree lists in
theorem flattenOnce {fuel : Nat} {dir : Str} (enough : Enough kept fuel dir) :
    (flatten toLowerCase children fuel dir (depthOf dir)).Pairwise (fun x y => x.entry.path ≠ y.entry.path) := by
  refine flattenPairwise tree lists (fun child _ level row above same => ?_) (fun dir => ?_) enough
  · exact aboveIrrefl child.path (by rw [← same] at above; exact above)
  · refine (listingOnce tree dir).imp_of_mem (fun {a b} first second apart x y holds holds' same => ?_)
    have held : x.entry.path = a.path ∨ Above a.path x.entry.path := holds.imp (congrArg TreeEntry.path) id
    have held' : y.entry.path = b.path ∨ Above b.path y.entry.path := holds'.imp (congrArg TreeEntry.path) id
    exact heldOnce tree first second apart held (same ▸ held')

include tree lists in
theorem flattenAcross {R : TreeEntry → TreeEntry → Prop} (ordered : ∀ dir, (listing toLowerCase kept dir).Pairwise R)
    {fuel : Nat} {dir : Str} (enough : Enough kept fuel dir) :
    (flatten toLowerCase children fuel dir (depthOf dir)).Pairwise (fun x y =>
      parentPath x.entry.path = parentPath y.entry.path → R x.entry y.entry) := by
  refine flattenPairwise tree lists (fun child member level row above same => ?_) (fun dir => ?_) enough
  · exact absurd above (siblingNotAbove (tree.inside child member) same rfl)
  · refine ((listingOnce tree dir).and (ordered dir)).imp_of_mem (fun {a b} first second apart x y holds holds' same => ?_)
    obtain ⟨member,inside⟩ := listingMember.mp first
    obtain ⟨member',inside'⟩ := listingMember.mp second
    have some_ := tree.inside a member
    have some_' := tree.inside b member'
    rcases holds with rfl | above
    · rcases holds' with rfl | above'
      · exact apart.2
      · exact absurd above' (siblingNotAbove some_' inside' (same.symm.trans inside))
    · rcases holds' with rfl | above'
      · exact absurd above (siblingNotAbove some_ inside (same.trans inside'))
      · -- both stand deeper, so the directory they share lies in both entries
        have up := (aboveStep.mp above).2.imp Eq.symm id
        have up' := (aboveStep.mp above').2.imp Eq.symm id
        exact (heldOnce tree first second apart.1 up (same ▸ up')).elim

include tree lists in
theorem flattenSiblings {fuel : Nat} {dir : Str} (enough : Enough kept fuel dir) :
    (flatten toLowerCase children fuel dir (depthOf dir)).Pairwise (fun x y =>
      parentPath x.entry.path = parentPath y.entry.path → Before toLowerCase x.entry y.entry) :=
  flattenAcross tree lists (fun _ => sortedBefore _) enough

theorem segmentSplit {α β : Type*} {f : α → List β} {entries : List α} {before after : List β} {row : β}
    (split : entries.flatMap f = before ++ row :: after) :
    ∃ entry ∈ entries, ∃ front back rest, f entry = front ++ row :: back ∧ after = back ++ rest := by
  induction entries generalizing before with
  | nil => simp at split
  | cons first entries ih =>
    rw [List.flatMap_cons] at split
    rcases List.append_eq_append_iff.mp split with ⟨middle,-,tail⟩ | ⟨middle,own,tail⟩
    · obtain ⟨entry,member,found⟩ := ih tail
      exact ⟨entry,List.mem_cons_of_mem _ member,found⟩
    · cases middle with
      | nil =>
        obtain ⟨entry,member,found⟩ := @ih [] tail.symm
        exact ⟨entry,List.mem_cons_of_mem _ member,found⟩
      | cons other middle =>
        obtain ⟨rfl,after_⟩ := List.cons.inj tail
        exact ⟨first,List.mem_cons_self,before,middle,_,own,after_⟩

include tree lists in
theorem flattenBlock {fuel : Nat} {dir : Str} (enough : Enough kept fuel dir) {before after : List TreeRow} {row : TreeRow}
    (split_ : flatten toLowerCase children fuel dir (depthOf dir) = before ++ row :: after) :
    ∃ block rest, after = block ++ rest ∧
      ∀ other, other ∈ block.map TreeRow.entry ↔ other ∈ kept ∧ Above row.entry.path other.path := by
  induction fuel generalizing dir before after with
  | zero => simp [flatten] at split_
  | succ fuel ih =>
    rw [flattenSegments lists] at split_
    obtain ⟨child,listed,front,back,rest,own,tail⟩ := segmentSplit split_
    obtain ⟨member,inside⟩ := listingMember.mp listed
    have under := childUnder tree member inside
    rw [segment,← inside,← dirDepth under.1] at own
    cases front with
    | nil =>
      obtain ⟨rfl,block⟩ := List.cons.inj own
      refine ⟨back,rest,tail,fun other => ?_⟩
      rw [← block]
      cases kind : child.isDir with
      | true =>
        rw [if_pos rfl,List.mem_map]
        constructor
        · rintro ⟨row,there,rfl⟩
          rw [flattenMember tree lists (enough.child under)] at there
          exact ⟨there.1,(underSome under.1).mp there.2.1⟩
        · rintro ⟨held,above⟩
          exact ⟨⟨other,(ancestorsOf other.path).length⟩,(flattenMember tree lists (enough.child under) _).mpr
            ⟨held,(underSome under.1).mpr above,rfl⟩,rfl⟩
      | false =>
        refine ⟨fun none_ => absurd none_ List.not_mem_nil,fun ⟨held,above⟩ => ?_⟩
        exact absurd (tree.dir member (tree.closed other held _ above)) (by rw [kind]; decide)
    | cons first front =>
      obtain ⟨-,deeper⟩ := List.cons.inj own
      split at deeper
      · obtain ⟨block,rest',within,exactly⟩ := ih (enough.child under) deeper
        exact ⟨block,rest' ++ rest,by rw [tail,within,List.append_assoc],exactly⟩
      · exact absurd deeper (by simp)

include tree in
theorem listingNone {dir : Str} (enough : Enough kept 0 dir) : listing toLowerCase kept dir = [] := by
  refine List.eq_nil_iff_forall_not_mem.mpr (fun child listed => ?_)
  obtain ⟨member,inside⟩ := listingMember.mp listed
  have short := enough child member
  have shorter := underShorter (childUnder tree member inside)
  omega

include tree lists in
theorem flattenEnough {fuel fuel' : Nat} {dir : Str} {depth : Nat} (enough : Enough kept fuel dir)
    (enough' : Enough kept fuel' dir) : flatten toLowerCase children fuel dir depth = flatten toLowerCase children fuel' dir depth := by
  induction fuel generalizing fuel' dir depth with
  | zero =>
    cases fuel' with
    | zero => rfl
    | succ fuel' => rw [flattenSegments lists,listingNone tree enough]; rfl
  | succ fuel ih =>
    cases fuel' with
    | zero => rw [flattenSegments lists,listingNone tree enough']; rfl
    | succ fuel' =>
      rw [flattenSegments lists,flattenSegments lists]
      refine List.flatMap_congr (fun child listed => ?_)
      obtain ⟨member,inside⟩ := listingMember.mp listed
      have under := childUnder tree member inside
      rw [segment,segment]
      split
      · rw [ih (enough.child under) (enough'.child under)]
      · rfl

end

theorem longestMember {files : List FileStatus} {file : FileStatus} (member : file ∈ files) :
    file.path.length ≤ longest files :=
  List.le_max_of_le' 0 (List.mem_map_of_mem member) (Nat.le_refl _)

theorem pathShorter (file : FileStatus) : (pathOf file).length ≤ file.path.length := by
  unfold pathOf
  split
  · rw [List.length_dropLast]
    omega
  · exact Nat.le_refl _

theorem longEnough {files : List FileStatus} {fuel : Nat} (long : longest files < fuel) :
    Enough (keptOf files) fuel ROOT := by
  intro entry member
  have short : ∃ file ∈ files, entry.path.length ≤ (pathOf file).length := by
    obtain ⟨file,reported,same | above⟩ := keptPaths.mp (List.mem_map_of_mem member)
    · exact ⟨file,reported,same ▸ Nat.le_refl _⟩
    · exact ⟨file,reported,Nat.le_of_lt (aboveShorter above)⟩
  obtain ⟨file,reported,le⟩ := short
  have whole := pathShorter file
  have most := longestMember reported
  have root : ROOT.length = 0 := rfl
  omega

/-- The rows of a list of records: what they hold, and where each stands. -/
structure Laid (toLowerCase : Str → Str) (files : List FileStatus) (rows : List TreeRow) : Prop where
  once : (rows.map (fun row => row.entry.path)).Nodup
  paths : ∀ path, (∃ row ∈ rows, row.entry.path = path) ↔ ∃ file ∈ files, path = pathOf file ∨ Above path (pathOf file)
  named : ∀ row ∈ rows, row.entry.name = baseName row.entry.path
  dirs : ∀ row ∈ rows, (∃ file ∈ files, Above row.entry.path (pathOf file)) → row.entry.isDir = true
  depth : ∀ row ∈ rows, row.depth = (ancestorsOf row.entry.path).length
  block : ∀ before row after, rows = before ++ row :: after → ∃ block rest, after = block ++ rest ∧
    ∀ path, (∃ below ∈ block, below.entry.path = path) ↔
      Above row.entry.path path ∧ ∃ other ∈ rows, other.entry.path = path
  siblings : rows.Pairwise (fun a b =>
    parentPath a.entry.path = parentPath b.entry.path → Before toLowerCase a.entry b.entry)

theorem changedRowsLaid (toLowerCase : Str → Str) (status : Status) (named : ∀ file ∈ status.files, pathOf file ≠ ROOT) :
    Laid toLowerCase status.files (changedRows toLowerCase status) ∧
    ∀ fuel, longest status.files < fuel →
      flatten toLowerCase (filedFor status).children fuel ROOT 0 = changedRows toLowerCase status := by
  have tree := keptTree named
  have lists := (filedHolds status).children
  have enough : Enough (keptOf status.files) (longest status.files + 1) ROOT := longEnough (Nat.lt_succ_self _)
  have member : ∀ row, row ∈ changedRows toLowerCase status ↔ row.entry ∈ keptOf status.files ∧
      Under ROOT row.entry.path ∧ row.depth = (ancestorsOf row.entry.path).length :=
    flattenMember tree lists enough
  have shown : ∀ entry ∈ keptOf status.files, ∃ row ∈ changedRows toLowerCase status, row.entry = entry :=
    fun entry held => ⟨⟨entry,(ancestorsOf entry.path).length⟩,(member _).mpr ⟨held,⟨tree.inside entry held,.inl rfl⟩,rfl⟩,rfl⟩
  have pathShown : ∀ path, (∃ row ∈ changedRows toLowerCase status, row.entry.path = path) ↔
      path ∈ (keptOf status.files).map TreeEntry.path := by
    intro path
    constructor
    · rintro ⟨row,there,rfl⟩
      exact List.mem_map_of_mem ((member row).mp there).1
    · intro held
      obtain ⟨entry,entered,rfl⟩ := List.mem_map.mp held
      obtain ⟨row,there,rfl⟩ := shown entry entered
      exact ⟨row,there,rfl⟩
  refine ⟨⟨?_,fun path => ?_,fun row there => ?_,fun row there above => ?_,fun row there => ?_,fun before row after split_ => ?_,?_⟩,
    fun fuel long => ?_⟩
  · exact List.pairwise_map.mpr (flattenOnce tree lists enough)
  · rw [pathShown,keptPaths]
  · exact tree.named _ ((member row).mp there).1
  · exact tree.dir ((member row).mp there).1 (keptDirs above)
  · exact ((member row).mp there).2.2
  · obtain ⟨block,rest,after_,exactly⟩ := flattenBlock tree lists enough split_
    refine ⟨block,rest,after_,fun path => ?_⟩
    rw [pathShown]
    constructor
    · rintro ⟨below,there,rfl⟩
      obtain ⟨held,above⟩ := (exactly _).mp (List.mem_map_of_mem there)
      exact ⟨above,List.mem_map_of_mem held⟩
    · rintro ⟨above,held⟩
      obtain ⟨entry,entered,rfl⟩ := List.mem_map.mp held
      obtain ⟨below,there,rfl⟩ := List.mem_map.mp ((exactly entry).mpr ⟨entered,above⟩)
      exact ⟨below,there,rfl⟩
  · exact flattenSiblings tree lists enough
  · exact flattenEnough tree lists (longEnough long) enough

def changed (path : String) : FileStatus := ⟨path.toList,none,some .modified,false,[]⟩

def crossed : Status :=
  { statusFor .available with
    files := [changed "old",changed "Zed",changed "lib/x/b",{ changed "old/" with worktree := some .untracked },changed "lib"] }

theorem crossedLaid :
    (changedRows id crossed).map (fun row => (String.ofList row.entry.path,row.entry.isDir,row.depth)) =
      [("lib",true,0),("lib/x",true,1),("lib/x/b",false,2),("Zed",false,0),("old",false,0)] ∧
    Laid id crossed.files (changedRows id crossed) :=
  ⟨by decide +kernel,(changedRowsLaid id crossed (by decide +kernel)).1⟩

end M6t.GitChangedRows
