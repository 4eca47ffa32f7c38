import M6t.FileTree
import M6t.Sorting
import M6t.Utf8
import M6t.EntryPaths
import Mathlib.Data.List.Lex
import Mathlib.Data.List.MinMax

/-! What `List` answers for the directories of a worktree. A path is its elements, the root none of
them. A symbolic link is an entry that is no directory. The lower case of a name is a parameter. -/
namespace M6t.WorktreeList
open M6t.Text M6t.Sorting
open M6t.FileTree (Entry)
open M6t.EntryPaths (gitDir)

def bytes (s : Str) : List Nat := (Utf8.encode s).map UInt8.toNat

structure Directory where
  items : List Entry
  sorted : items.Pairwise (fun a b => bytes a.name < bytes b.name)

section
variable (toLower : Str → Str)

def less (a b : Entry) : Bool :=
  if a.isDir ≠ b.isDir then a.isDir else decide (bytes (toLower a.name) < bytes (toLower b.name))

def sortEntries (entries : List Entry) : List Entry := entries.insertionSort (fun a b => less toLower b a = false)

def list (d : Directory) : List Entry := sortEntries toLower (d.items.filter (fun item => item.name ≠ gitDir))

end

variable {toLower : Str → Str}

theorem listMember {d : Directory} {entry : Entry} : entry ∈ list toLower d ↔ entry ∈ d.items ∧ entry.name ≠ gitDir := by
  rw [list,sortEntries,List.mem_insertionSort,List.mem_filter,decide_eq_true_iff]

def ListsBefore (toLower : Str → Str) : Entry → Entry → Prop :=
  Stably (fun a b => less toLower b a = false) (fun a b => bytes a.name < bytes b.name)

theorem lessKind {a b : Entry} :
    less toLower b a = false ↔ KindFirst Entry.isDir (fun entry => bytes (toLower entry.name)) a b := by
  unfold less KindFirst
  by_cases same : b.isDir = a.isDir
  · simp [same]
  · rw [if_pos same]
    cases dir : a.isDir <;> cases dir' : b.isDir <;> simp_all

theorem lessTotal : Std.Total (fun a b : Entry => less toLower b a = false) := ⟨fun a b => by
  simp only [lessKind]
  exact kindTotal a b⟩

theorem lessTrans : IsTrans Entry (fun a b => less toLower b a = false) := ⟨fun a b c first second => by
  simp only [lessKind] at *
  exact kindTrans first second⟩

theorem listOrdered (d : Directory) : (list toLower d).Pairwise (ListsBefore toLower) := by
  have := @lessTotal toLower
  have := @lessTrans toLower
  exact sortStably (d.sorted.sublist List.filter_sublist)

theorem itemUnique {d : Directory} {a b : Entry} (first : a ∈ d.items) (second : b ∈ d.items) (same : a.name = b.name) : a = b := by
  by_contra apart
  rcases pairEither d.sorted first second apart with less | less
  · exact absurd (same ▸ less) (lt_irrefl _)
  · exact absurd (same ▸ less) (lt_irrefl _)

theorem entrySame {a b : Entry} (name : a.name = b.name) (kind : a.isDir = b.isDir) : a = b := by
  obtain ⟨_,_,_⟩ := a
  obtain ⟨_,_,_⟩ := b
  cases name
  cases kind
  rfl

def names (toLower : Str → Str) (d : Directory) : List Str := (list toLower d).map Entry.name

theorem listSame {d e : Directory} : list toLower d = list toLower e ↔ names toLower d = names toLower e ∧
    ∀ a ∈ d.items, ∀ b ∈ e.items, a.name ≠ gitDir → a.name = b.name → a.isDir = b.isDir := by
  constructor
  · intro same
    refine ⟨congrArg (List.map Entry.name) same,fun a member b member' visible name => ?_⟩
    have there : a ∈ list toLower e := same ▸ listMember.mpr ⟨member,visible⟩
    exact congrArg Entry.isDir (itemUnique (listMember.mp there).1 member' name)
  · rintro ⟨same,kinds⟩
    refine mapSame same (fun a there b there' name => ?_)
    obtain ⟨member,visible⟩ := listMember.mp there
    exact entrySame name (kinds a member b (listMember.mp there').1 visible name)

abbrev Path := List Str
instance memPath (p : Path) (paths : List Path) : Decidable (p ∈ paths) := inferInstance

/-- The directories of a worktree at one time, `none` where there is not one. -/
structure Checkout where
  items : Path → Option Directory
  root : (items []).isSome = true
  child : ∀ p name, (items (p ++ [name])).isSome = true ↔
    ∃ d, items p = some d ∧ ∃ entry ∈ d.items, entry.name = name ∧ entry.isDir = true
  depth : Nat
  shallow : ∀ p, (items p).isSome = true → p.length ≤ depth

def listAt (toLower : Str → Str) (c : Checkout) (relDir : Path) : Option (List Entry) :=
  if relDir.head? = some gitDir then none else (c.items relDir).map (list toLower)

variable {c : Checkout}

theorem listAtPlain {dir : Path} (outside : gitDir ∉ dir) : listAt toLower c dir = (c.items dir).map (list toLower) := by
  have led : dir.head? ≠ some gitDir := fun led => outside (List.mem_of_mem_head? led)
  rw [listAt,if_neg led]

theorem itemsPrefix {p q : Path} (there : (c.items (p ++ q)).isSome = true) : (c.items p).isSome = true := by
  induction q using List.reverseRecOn with
  | nil => rwa [List.append_nil] at there
  | append_singleton q name ih =>
    rw [← List.append_assoc,c.child] at there
    obtain ⟨d,held,_⟩ := there
    exact ih (by rw [held]; rfl)

abbrev Table := List (Path × Directory)

/-- Every directory is an entry of the one above it, and every entry that is a directory has its own row. -/
structure Whole (table : Table) : Prop where
  root : (table.lookup []).isSome = true
  above : ∀ row ∈ table, row.1 ≠ [] → ∃ d ∈ table.lookup row.1.dropLast, ∃ entry ∈ d.items,
    entry.isDir = true ∧ row.1 = row.1.dropLast ++ [entry.name]
  below : ∀ row ∈ table, ∀ entry ∈ row.2.items, entry.isDir = true → (table.lookup (row.1 ++ [entry.name])).isSome = true

theorem lookupRow {table : Table} {p : Path} {d : Directory} (found : table.lookup p = some d) : (p,d) ∈ table := by
  obtain ⟨before,after,whole,_⟩ := List.lookup_eq_some_iff.mp found
  rw [whole]
  exact List.mem_append_right _ List.mem_cons_self

def deepest (table : Table) : Nat := (table.map (fun row => row.1.length)).foldr max 0

theorem deepestRow {table : Table} {row : Path × Directory} (member : row ∈ table) : row.1.length ≤ deepest table :=
  List.le_max_of_le' 0 (List.mem_map_of_mem member) (Nat.le_refl _)

def ofTable (table : Table) (whole : Whole table) : Checkout where
  items p := table.lookup p
  root := whole.root
  child p name := by
    constructor
    · intro there
      obtain ⟨d,found⟩ := Option.isSome_iff_exists.mp there
      obtain ⟨above,held,entry,member,dir,last⟩ := whole.above _ (lookupRow found) (by simp)
      rw [List.dropLast_concat] at held last
      cases List.append_cancel_left last
      exact ⟨above,held,entry,member,rfl,dir⟩
    · rintro ⟨d,found,entry,member,rfl,dir⟩
      exact whole.below _ (lookupRow found) entry member dir
  depth := deepest table
  shallow p there := by
    obtain ⟨d,found⟩ := Option.isSome_iff_exists.mp there
    exact deepestRow (lookupRow found)

def lower (s : Str) : Str := s.map Char.toLower

def empty : Directory := ⟨[],List.Pairwise.nil⟩
def item (name : String) (isDir : Bool) (plain : SlashPath.Plain name.toList) : Entry := ⟨name.toList,isDir,plain⟩

end M6t.WorktreeList
