import M6t.GitChangedRows
import M6t.WorktreeList

/-! One directory in the two modes of the tree: as `List` lists it, and as the rows of the
changed-only mode show what git reports in it. The two lower cases of a name are parameters. -/
namespace M6t.TreeOrders
open M6t.Text M6t.GitStatus M6t.GitBadges M6t.GitChangedRows M6t.Sorting M6t.WorktreeList
open M6t.Editor (ROOT parentPath baseName)
open M6t.FileTree (Entry TreeEntry TreeRow joinPath)
open M6t.EntryPaths (gitDir)

section
variable (toLower toLowerCase : Str → Str)

def listPaths (d : Directory) (dir : Str) : List Str := (list toLower d).map (fun entry => joinPath dir entry.name)

def rowPaths (status : Status) : List Str := (changedRows toLowerCase status).map (fun row => row.entry.path)

/-- Both modes have the paths they share in one order. -/
def SameOrder (status : Status) (d : Directory) (dir : Str) : Prop :=
  (listPaths toLower d dir).filter (· ∈ rowPaths toLowerCase status) =
    (rowPaths toLowerCase status).filter (· ∈ listPaths toLower d dir)
instance (status d dir) : Decidable (SameOrder toLower toLowerCase status d dir) := inferInstanceAs (Decidable (_ = _))

def met (files : List FileStatus) : List TreeEntry := dirEntries files ++ files.map fileEntry

def metAt (files : List FileStatus) (path : Str) : Nat := (met files).findIdx (fun entry => entry.path = path)

def rowOf (files : List FileStatus) (path : Str) : Option TreeEntry := (met files).find? (fun entry => entry.path = path)

def RowsBefore (files : List FileStatus) : TreeEntry → TreeEntry → Prop :=
  Stably (fun a b => byTreeOrder toLowerCase a b ≤ 0) (fun a b => metAt files a.path < metAt files b.path)

/-- Whatever `List` has before another name, git's records have before it too. -/
def Compared (status : Status) (d : Directory) (dir : Str) : Prop :=
  ∀ a ∈ d.items, ∀ b ∈ d.items, a.name ≠ gitDir → b.name ≠ gitDir → ∀ x y,
    rowOf status.files (joinPath dir a.name) = some x → rowOf status.files (joinPath dir b.name) = some y →
    ListsBefore toLower a b → RowsBefore toLowerCase status.files x y

end

variable {toLower toLowerCase : Str → Str}

theorem metKept (files : List FileStatus) : keptOf files = (met files).foldl keep [] := by
  rw [keptOf,met,List.foldl_append]

theorem keepPaths {entries : List TreeEntry} {path : Str} :
    path ∈ (entries.foldl keep []).map TreeEntry.path ↔ path ∈ entries.map TreeEntry.path := by
  constructor
  · intro held
    obtain ⟨entry,there,rfl⟩ := List.mem_map.mp held
    exact List.mem_map_of_mem ((keptFrom there).resolve_left List.not_mem_nil)
  · intro held
    obtain ⟨entry,there,rfl⟩ := List.mem_map.mp held
    exact keptPath there

theorem keepFirst (entries : List TreeEntry) (entry : TreeEntry) :
    entry ∈ entries.foldl keep [] ↔ entries.find? (fun e => e.path = entry.path) = some entry := by
  induction entries using List.reverseRecOn with
  | nil => simp
  | append_singleton before last ih =>
    rw [List.foldl_append,List.foldl_cons,List.foldl_nil,keepMember,ih,List.find?_append,keepPaths]
    cases found : before.find? (fun e => e.path = entry.path) with
    | some first =>
      have there : entry.path ∈ before.map TreeEntry.path :=
        List.mem_map.mpr ⟨first,List.mem_of_find?_eq_some found,by simpa using List.find?_some found⟩
      rw [Option.some_or,or_iff_left]
      rintro ⟨rfl,fresh⟩
      exact fresh there
    | none =>
      have fresh : entry.path ∉ before.map TreeEntry.path := by
        intro held
        obtain ⟨other,there,same⟩ := List.mem_map.mp held
        exact List.find?_eq_none.mp found other there (by simpa using same)
      rw [Option.none_or,List.find?_singleton]
      constructor
      · rintro (none_ | ⟨rfl,_⟩)
        · cases none_
        · simp
      · intro own
        split at own
        · cases Option.some.inj own
          exact Or.inr ⟨rfl,fresh⟩
        · cases own

theorem keepOrdered (entries : List TreeEntry) : (entries.foldl keep []).Pairwise (fun a b =>
    entries.findIdx (fun e => e.path = a.path) < entries.findIdx (fun e => e.path = b.path)) := by
  induction entries using List.reverseRecOn with
  | nil => exact List.Pairwise.nil
  | append_singleton before last ih =>
    have early : ∀ entry ∈ before.foldl keep [], before.findIdx (fun e => e.path = entry.path) < before.length := by
      intro entry member
      have there := (keptFrom member).resolve_left List.not_mem_nil
      exact List.findIdx_lt_length_of_exists ⟨entry,there,by simp⟩
    have kept : (before.foldl keep []).Pairwise (fun a b =>
        (before ++ [last]).findIdx (fun e => e.path = a.path) < (before ++ [last]).findIdx (fun e => e.path = b.path)) := by
      refine ih.imp_of_mem (fun {a b} first second less => ?_)
      rw [List.findIdx_append,List.findIdx_append,if_pos (early a first),if_pos (early b second)]
      exact less
    rw [List.foldl_append,List.foldl_cons,List.foldl_nil,keep]
    split
    · exact kept
    · next fresh =>
      refine List.pairwise_append.mpr ⟨kept,List.pairwise_singleton _ _,?_⟩
      intro a first b own
      cases List.mem_singleton.mp own
      have none_ : before.findIdx (fun e => e.path = last.path) = before.length := by
        refine List.findIdx_eq_length.mpr (fun e member => ?_)
        rw [keepPaths] at fresh
        exact decide_eq_false (fun same => fresh (same ▸ List.mem_map_of_mem member))
      rw [List.findIdx_append,List.findIdx_append,if_pos (early a first),none_,if_neg (Nat.lt_irrefl _)]
      have low := early a first
      omega

theorem rowsOrdered {status : Status} (named : ∀ file ∈ status.files, pathOf file ≠ ROOT) :
    (changedRows toLowerCase status).Pairwise (fun x y =>
      parentPath x.entry.path = parentPath y.entry.path → RowsBefore toLowerCase status.files x.entry y.entry) := by
  have := @beforeTotal toLowerCase
  have := @beforeTrans toLowerCase
  have enough : Enough (keptOf status.files) (longest status.files + 1) ROOT := longEnough (Nat.lt_succ_self _)
  refine flattenAcross (keptTree named) (filedHolds status).children (fun dir => ?_) enough
  refine sortStably (List.Pairwise.sublist List.filter_sublist ?_)
  rw [metKept]
  exact keepOrdered (met status.files)

theorem joinParent (dir : Str) (entry : Entry) : parentPath (joinPath dir entry.name) = dir := by
  have flat : '/' ∉ entry.name := entry.plain.2.2
  unfold joinPath
  split
  · next root => rw [root,parentRoot flat]
  · exact parentCut flat

theorem joinInjective {dir a b : Str} (same : joinPath dir a = joinPath dir b) : a = b := by
  unfold joinPath at same
  split at same
  · exact same
  · simpa using same

theorem listsAsymm {a b : Entry} : ListsBefore toLower a b → ¬ListsBefore toLower b a :=
  stablyAsymm (fun _ _ => lt_asymm)

theorem rowsAsymm {files : List FileStatus} {a b : TreeEntry} :
    RowsBefore toLowerCase files a b → ¬RowsBefore toLowerCase files b a :=
  stablyAsymm (fun _ _ => Nat.lt_asymm)

theorem listPathMember {d : Directory} {dir path : Str} :
    path ∈ listPaths toLower d dir ↔ ∃ entry ∈ d.items, entry.name ≠ gitDir ∧ joinPath dir entry.name = path := by
  simp only [listPaths,List.mem_map,listMember,and_assoc]

section
variable {status : Status} (named : ∀ file ∈ status.files, pathOf file ≠ ROOT)
include named

theorem rowFiled {entry : TreeEntry} :
    (∃ row ∈ changedRows toLowerCase status, row.entry = entry) ↔ rowOf status.files entry.path = some entry := by
  have tree := keptTree named
  have enough : Enough (keptOf status.files) (longest status.files + 1) ROOT := longEnough (Nat.lt_succ_self _)
  have member : ∀ row, row ∈ changedRows toLowerCase status ↔ row.entry ∈ keptOf status.files ∧
      Under ROOT row.entry.path ∧ row.depth = (ancestorsOf row.entry.path).length :=
    flattenMember tree (filedHolds status).children enough
  rw [rowOf,← keepFirst,← metKept]
  constructor
  · rintro ⟨row,there,rfl⟩
    exact ((member row).mp there).1
  · intro held
    exact ⟨⟨entry,(ancestorsOf entry.path).length⟩,(member _).mpr ⟨held,⟨tree.inside entry held,.inl rfl⟩,rfl⟩,rfl⟩

theorem rowPathMember {path : Str} :
    path ∈ rowPaths toLowerCase status ↔ ∃ entry, rowOf status.files path = some entry := by
  constructor
  · intro there
    obtain ⟨row,shown,rfl⟩ := List.mem_map.mp there
    exact ⟨row.entry,(rowFiled named).mp ⟨row,shown,rfl⟩⟩
  · rintro ⟨entry,filed⟩
    obtain rfl : entry.path = path := by simpa using List.find?_some filed
    obtain ⟨row,shown,rfl⟩ := (rowFiled named).mpr filed
    exact List.mem_map_of_mem shown

theorem rowPathsOnce : (rowPaths toLowerCase status).Nodup :=
  List.pairwise_map.mpr (flattenOnce (keptTree named) (filedHolds status).children (longEnough (Nat.lt_succ_self _)))

end

/-! The two comparisons as relations of paths. -/

def ListsFirst (toLower : Str → Str) (d : Directory) (dir p q : Str) : Prop :=
  ∃ a ∈ d.items, ∃ b ∈ d.items, joinPath dir a.name = p ∧ joinPath dir b.name = q ∧ ListsBefore toLower a b

def RowsFirst (toLowerCase : Str → Str) (files : List FileStatus) (p q : Str) : Prop :=
  ∃ x y, rowOf files p = some x ∧ rowOf files q = some y ∧ RowsBefore toLowerCase files x y

theorem listsFirstAsymm {d : Directory} {dir p q : Str} (first : ListsFirst toLower d dir p q) : ¬ListsFirst toLower d dir q p := by
  rintro ⟨b',second',a',first',same,same',back⟩
  obtain ⟨a,member,b,member',rfl,rfl,before⟩ := first
  obtain rfl := itemUnique second' member' (joinInjective same)
  obtain rfl := itemUnique first' member (joinInjective same')
  exact listsAsymm before back

theorem rowsFirstAsymm {files : List FileStatus} {p q : Str} (first : RowsFirst toLowerCase files p q) :
    ¬RowsFirst toLowerCase files q p := by
  rintro ⟨y',x',filed',filed,back⟩
  obtain ⟨x,y,found,found',before⟩ := first
  cases Option.some.inj (found.symm.trans filed)
  cases Option.some.inj (found'.symm.trans filed')
  exact rowsAsymm before back

theorem listPathsOrdered (d : Directory) (dir : Str) : (listPaths toLower d dir).Pairwise (ListsFirst toLower d dir) := by
  refine List.pairwise_map.mpr ((listOrdered d).imp_of_mem (fun {a b} first second before => ?_))
  exact ⟨a,(listMember.mp first).1,b,(listMember.mp second).1,rfl,rfl,before⟩

theorem rowPathsOrdered {status : Status} (named : ∀ file ∈ status.files, pathOf file ≠ ROOT) (d : Directory) (dir : Str) :
    ((rowPaths toLowerCase status).filter (· ∈ listPaths toLower d dir)).Pairwise (RowsFirst toLowerCase status.files) := by
  rw [rowPaths,List.filter_map,List.pairwise_map]
  refine ((rowsOrdered named).sublist List.filter_sublist).imp_of_mem (fun {x y} first second before => ?_)
  obtain ⟨shown,listed⟩ := List.mem_filter.mp first
  obtain ⟨shown',listed'⟩ := List.mem_filter.mp second
  obtain ⟨a,_,_,path⟩ := listPathMember.mp (of_decide_eq_true listed)
  obtain ⟨b,_,_,path'⟩ := listPathMember.mp (of_decide_eq_true listed')
  have together : parentPath x.entry.path = parentPath y.entry.path :=
    (congrArg parentPath path).symm.trans ((joinParent dir a).trans ((joinParent dir b).symm.trans (congrArg parentPath path')))
  exact ⟨x.entry,y.entry,(rowFiled named).mp ⟨x,shown,rfl⟩,(rowFiled named).mp ⟨y,shown',rfl⟩,before together⟩

theorem sameOrderExact (toLower toLowerCase : Str → Str) (status : Status)
    (named : ∀ file ∈ status.files, pathOf file ≠ ROOT) (d : Directory) (dir : Str) :
    SameOrder toLower toLowerCase status d dir ↔ Compared toLower toLowerCase status d dir := by
  refine (sameOrder (@listPathsOrdered toLower d dir) (@rowPathsOrdered toLower toLowerCase status named d dir)
    (rowPathsOnce named) (fun _ _ => listsFirstAsymm) (fun _ _ => rowsFirstAsymm)).trans ?_
  constructor
  · intro agree a first b second visible visible' x y filed filed' before
    obtain ⟨x',y',found,found',ordered⟩ := agree (joinPath dir a.name) (listPathMember.mpr ⟨a,first,visible,rfl⟩)
      (joinPath dir b.name) (listPathMember.mpr ⟨b,second,visible',rfl⟩) ((rowPathMember named).mpr ⟨x,filed⟩)
      ((rowPathMember named).mpr ⟨y,filed'⟩) ⟨a,first,b,second,rfl,rfl,before⟩
    cases Option.some.inj (found.symm.trans filed)
    cases Option.some.inj (found'.symm.trans filed')
    exact ordered
  · rintro compared p listed q listed' shown shown' ⟨a,first,b,second,rfl,rfl,before⟩
    obtain ⟨x,filed⟩ := (rowPathMember named).mp shown
    obtain ⟨y,filed'⟩ := (rowPathMember named).mp shown'
    obtain ⟨a',_,visible,same⟩ := listPathMember.mp listed
    obtain ⟨b',_,visible',same'⟩ := listPathMember.mp listed'
    rw [joinInjective same] at visible
    rw [joinInjective same'] at visible'
    exact ⟨x,y,filed,filed',compared a first b second visible visible' x y filed filed' before⟩

def untracked (path : String) : FileStatus := { changed path with worktree := some .untracked }

def twins : Directory := ⟨[item "README" false (by decide),item "readme" false (by decide)],by decide +kernel⟩
def twinsStatus : Status := { statusFor .available with files := [changed "readme",untracked "README"] }

def vendored : Directory := ⟨[item "db.yaml" false (by decide),item "vendor" true (by decide)],by decide +kernel⟩
def vendoredStatus : Status := { statusFor .available with files := [changed "db.yaml",changed "vendor"] }

theorem modesReorder : ¬SameOrder lower lower twinsStatus twins ROOT ∧ ¬SameOrder lower lower vendoredStatus vendored ROOT := by
  constructor
  · decide +kernel
  · decide +kernel

def checkout : Directory :=
  ⟨[item "README" false (by decide),item "queues" true (by decide),item "redis.yaml" false (by decide)],by decide +kernel⟩
def checkoutStatus : Status := { statusFor .available with files := [untracked "README",changed "queues/db.yaml",changed "redis.yaml"] }

theorem checkoutExact : (∀ file ∈ checkoutStatus.files, pathOf file ≠ ROOT) ∧
    SameOrder lower lower checkoutStatus checkout ROOT ∧ Compared lower lower checkoutStatus checkout ROOT := by
  have named : ∀ file ∈ checkoutStatus.files, pathOf file ≠ ROOT := by decide +kernel
  have agree : SameOrder lower lower checkoutStatus checkout ROOT := by decide +kernel
  exact ⟨named,agree,(sameOrderExact lower lower checkoutStatus named checkout ROOT).mp agree⟩

end M6t.TreeOrders
