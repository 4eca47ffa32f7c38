import M6t.Text
import M6t.Records

/-! The workbench's trees, one for each project, by the path of its root. What a
tree is besides its changed-files filter is its own. -/
namespace M6t.ProjectTrees
open M6t.Text

class Filtered (τ : Type) where
  initialTree : τ
  changedOnly : τ → Bool
  withFilter : Bool → τ → τ
  filtered : ∀ on tree, changedOnly (withFilter on tree) = on
  unmoved : ∀ tree, withFilter (changedOnly tree) tree = tree

export Filtered (changedOnly withFilter)

abbrev ProjectTrees (τ : Type) := List (Str × τ)

variable {τ : Type} [Filtered τ]

def changedOnlyOf (trees : ProjectTrees τ) : Bool := (trees.head?.map (fun entry => changedOnly entry.2)).getD false

def treeFor (trees : ProjectTrees τ) (root : Option Str) : τ :=
  (root.bind (fun root => trees.lookup root)).getD (withFilter (changedOnlyOf trees) Filtered.initialTree)

def withTree (trees : ProjectTrees τ) (root : Str) (next : τ) : ProjectTrees τ :=
  let stored := Records.put trees root next
  if changedOnly next = changedOnlyOf trees then stored
  else stored.map (fun entry => (entry.1,withFilter (changedOnly next) entry.2))

def withoutTree (trees : ProjectTrees τ) (root : Str) : ProjectTrees τ := trees.filter (fun entry => entry.1 ≠ root)

variable {trees : ProjectTrees τ} {root other : Str} {next tree : τ} {on : Bool}

theorem treeThere (found : trees.lookup root = some tree) : treeFor trees (some root) = tree := by
  simp [treeFor,found]

theorem lookupWithTree (trees : ProjectTrees τ) (root : Str) (next : τ) : (withTree trees root next).lookup root = some next := by
  unfold withTree
  simp only
  split
  · rw [Records.lookupPut,if_pos rfl]
  · rw [Records.lookupEach _ (withFilter (changedOnly next)),Records.lookupPut,if_pos rfl,Option.map_some,Filtered.unmoved]

theorem lookupElsewhere (trees : ProjectTrees τ) (root other : Str) (next : τ) (apart : other ≠ root) :
    ∃ on : τ → Bool, (withTree trees root next).lookup other =
      (trees.lookup other).map (fun tree => withFilter (on tree) tree) := by
  unfold withTree
  simp only
  split
  · refine ⟨changedOnly,?_⟩
    rw [Records.lookupPut,if_neg apart]
    cases trees.lookup other <;> simp [Filtered.unmoved]
  · refine ⟨fun _ => changedOnly next,?_⟩
    rw [Records.lookupEach _ (withFilter (changedOnly next)),Records.lookupPut,if_neg apart]

theorem lookupDropped (trees : ProjectTrees τ) (root other : Str) :
    (withoutTree trees root).lookup other = if other = root then none else trees.lookup other :=
  Records.lookupWithout trees root other

def Uniform (trees : ProjectTrees τ) (on : Bool) : Prop := ∀ entry ∈ trees, changedOnly entry.2 = on

theorem uniformTree (uniform : Uniform trees on) (found : trees.lookup root = some tree) : changedOnly tree = on := by
  obtain ⟨before,after,whole,_⟩ := List.lookup_eq_some_iff.mp found
  exact uniform (root,tree) (by simp [whole])

theorem uniformOf (uniform : Uniform trees on) (some_ : trees ≠ []) : changedOnlyOf trees = on := by
  cases trees with
  | nil => exact absurd rfl some_
  | cons entry rest => exact uniform entry List.mem_cons_self

theorem uniformOff (uniform : Uniform trees false) : changedOnlyOf trees = false := by
  cases trees with
  | nil => rfl
  | cons entry rest => exact uniform entry List.mem_cons_self

/-- A project without a tree is given the filter of the window. -/
theorem uniformFor (uniform : Uniform trees false) (root : Option Str) : changedOnly (treeFor trees root) = false := by
  unfold treeFor
  cases found : root.bind (fun root => trees.lookup root) with
  | none => exact (Filtered.filtered _ _).trans (uniformOff uniform)
  | some tree =>
    obtain ⟨path,_,there⟩ := Option.bind_eq_some_iff.mp found
    exact uniformTree uniform there

theorem uniformPut (uniform : Uniform trees on) (root : Str) (same : changedOnly next = on) :
    Uniform (Records.put trees root next) on := by
  unfold Records.put
  split
  · intro entry member
    obtain ⟨old,there,rfl⟩ := List.mem_map.mp member
    split
    · exact same
    · exact uniform old there
  · intro entry member
    rcases List.mem_append.mp member with old | new
    · exact uniform entry old
    · cases List.mem_singleton.mp new; exact same

/-- The filter is the window's: a write sets it for every project. -/
theorem uniformWrite (uniform : Uniform trees on) (root : Str) (next : τ) :
    Uniform (withTree trees root next) (changedOnly next) := by
  unfold withTree
  simp only
  split
  · next same =>
    by_cases none_ : trees = []
    · subst none_
      exact uniformPut (fun entry member => absurd member List.not_mem_nil) root rfl
    · rw [uniformOf uniform none_] at same
      exact uniformPut (same ▸ uniform) root rfl
  · intro entry member
    obtain ⟨old,_,rfl⟩ := List.mem_map.mp member
    exact Filtered.filtered _ _

theorem uniformWithout (uniform : Uniform trees on) (root : Str) : Uniform (withoutTree trees root) on :=
  fun entry member => uniform entry (List.mem_filter.mp member).1

end M6t.ProjectTrees
