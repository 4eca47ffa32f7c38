import Mathlib.Data.List.Basic
import Mathlib.Data.List.Nodup

/-! Walking a tree from its root down, each node before what is below it. What is done at a node also
says whether the walk goes on below it. -/
namespace M6t.TreeWalk
variable {κ α σ : Type}

mutual
inductive Tree (κ α : Type)
  | node (here : α) (below : Forest κ α)
inductive Forest (κ α : Type)
  | none
  | more (name : κ) (first : Tree κ α) (rest : Forest κ α)
end

section
variable (fn : List κ → α → σ → σ × Bool)

mutual
def Tree.walk (p : List κ) : Tree κ α → σ → σ
  | .node here below,s => if (fn p here s).2 then below.walk p (fn p here s).1 else (fn p here s).1
def Forest.walk (p : List κ) : Forest κ α → σ → σ
  | .none,s => s
  | .more name first rest,s => rest.walk p (first.walk (p ++ [name]) s)
end

end

section
variable (enters : List κ → α → Bool)

mutual
def Tree.visits (p : List κ) : Tree κ α → List (List κ × α)
  | .node here below => (p,here) :: if enters p here then below.visits p else []
def Forest.visits (p : List κ) : Forest κ α → List (List κ × α)
  | .none => []
  | .more name first rest => first.visits (p ++ [name]) ++ rest.visits p
end

end

section
variable {fn : List κ → α → σ → σ × Bool} {enters : List κ → α → Bool}

def each (fn : List κ → α → σ → σ × Bool) (s : σ) (v : List κ × α) : σ := (fn v.1 v.2 s).1

mutual
theorem Tree.walkVisits (steady : ∀ p a s, (fn p a s).2 = enters p a) (p : List κ) (t : Tree κ α) (s : σ) :
    t.walk fn p s = (t.visits enters p).foldl (each fn) s := by
  cases t with
  | node here below =>
    rw [Tree.walk,Tree.visits,List.foldl_cons,steady]
    split
    · exact below.walkVisits steady p _
    · rfl
theorem Forest.walkVisits (steady : ∀ p a s, (fn p a s).2 = enters p a) (p : List κ) (f : Forest κ α) (s : σ) :
    f.walk fn p s = (f.visits enters p).foldl (each fn) s := by
  cases f with
  | none => rfl
  | more name first rest =>
    rw [Forest.walk,Forest.visits,List.foldl_append,first.walkVisits steady]
    exact rest.walkVisits steady p _
end

end

mutual
inductive Tree.At : Tree κ α → List κ → α → Prop
  | here {a f} : Tree.At (.node a f) [] a
  | inner {a f p b} (inside : Forest.At f p b) : Tree.At (.node a f) p b
inductive Forest.At : Forest κ α → List κ → α → Prop
  | first {name t f p b} (inside : Tree.At t p b) : Forest.At (.more name t f) (name :: p) b
  | later {name t f p b} (inside : Forest.At f p b) : Forest.At (.more name t f) p b
end

def Forest.names : Forest κ α → List κ
  | .none => []
  | .more name _ rest => name :: rest.names

mutual
def Tree.Distinct : Tree κ α → Prop
  | .node _ below => below.names.Nodup ∧ below.Distinct
def Forest.Distinct : Forest κ α → Prop
  | .none => True
  | .more _ first rest => first.Distinct ∧ rest.Distinct
end

variable {enters : List κ → α → Bool} {t : Tree κ α} {f : Forest κ α} {p q r : List κ} {a b : α} {name : κ}

theorem atNode : (Tree.node a f).At r b ↔ r = [] ∧ b = a ∨ f.At r b := by
  constructor
  · intro inside
    cases inside with
    | here => exact Or.inl ⟨rfl,rfl⟩
    | inner inside => exact Or.inr inside
  · rintro (⟨rfl,rfl⟩ | inside)
    · exact .here
    · exact .inner inside

theorem atMore : (Forest.more name t f).At r b ↔ (∃ s, r = name :: s ∧ t.At s b) ∨ f.At r b := by
  constructor
  · intro inside
    cases inside with
    | first inside => exact Or.inl ⟨_,rfl,inside⟩
    | later inside => exact Or.inr inside
  · rintro (⟨s,rfl,inside⟩ | inside)
    · exact .first inside
    · exact .later inside

theorem Forest.named : (f : Forest κ α) → f.At r b → ∃ name rest, r = name :: rest ∧ name ∈ f.names
  | .none,inside => nomatch inside
  | .more _ _ f,inside => by
    rcases atMore.mp inside with ⟨s,rfl,_⟩ | inside
    · exact ⟨_,s,rfl,List.mem_cons_self⟩
    · obtain ⟨n,rest,same,member⟩ := f.named inside
      exact ⟨n,rest,same,List.mem_cons_of_mem _ member⟩

def Clear (enters : List κ → α → Bool) (At : List κ → α → Prop) (p r : List κ) : Prop :=
  ∀ u v, r = u ++ v → v ≠ [] → ∀ a, At u a → enters (p ++ u) a = true

theorem clearNode (named : ∃ name rest, r = name :: rest) : Clear enters (Tree.node a f).At p r ↔
    enters p a = true ∧ Clear enters f.At p r := by
  have rootless : ∀ c, ¬f.At [] c := fun c inside => by
    obtain ⟨_,_,same,_⟩ := f.named inside
    cases same
  constructor
  · intro clear
    refine ⟨?_,fun u v split proper c inside => clear u v split proper c (.inner inside)⟩
    obtain ⟨name,rest,rfl⟩ := named
    simpa using clear [] (name :: rest) rfl (by simp) a .here
  · rintro ⟨go,clear⟩ u v split proper c inside
    rcases atNode.mp inside with ⟨rfl,rfl⟩ | inside
    · rwa [List.append_nil]
    · exact clear u v split proper c inside

theorem clearFirst (apart : name ∉ f.names) {s : List κ} : Clear enters (Forest.more name t f).At p (name :: s) ↔
    Clear enters t.At (p ++ [name]) s := by
  constructor
  · intro clear u v split proper c inside
    have go := clear (name :: u) v (by rw [split]; rfl) proper c (.first inside)
    rwa [List.append_assoc]
  · intro clear u v split proper c inside
    rcases atMore.mp inside with ⟨w,rfl,deep⟩ | deep
    · have go := clear w v (List.cons.inj split).2 proper c deep
      rwa [List.append_assoc] at go
    · obtain ⟨n,rest,rfl,member⟩ := f.named deep
      cases (List.cons.inj split).1
      exact absurd member apart

theorem clearLater {n : κ} {s : List κ} (apart : name ≠ n) : Clear enters (Forest.more name t f).At p (n :: s) ↔
    Clear enters f.At p (n :: s) := by
  constructor
  · exact fun clear u v split proper c inside => clear u v split proper c (.later inside)
  · intro clear u v split proper c inside
    rcases atMore.mp inside with ⟨w,rfl,_⟩ | inside
    · exact absurd (List.cons.inj split).1.symm apart
    · exact clear u v split proper c inside

mutual
/-- The walk comes to a node when it goes into all that are above it. -/
theorem Tree.visitsMember : (t : Tree κ α) → t.Distinct → (p q : List κ) → (b : α) →
    ((q,b) ∈ t.visits enters p ↔ ∃ r, q = p ++ r ∧ t.At r b ∧ Clear enters t.At p r)
  | .node here below,distinct,p,q,b => by
    rw [Tree.visits,List.mem_cons]
    constructor
    · rintro (own | inside)
      · cases own
        exact ⟨[],(List.append_nil _).symm,.here,fun u v split proper => absurd (List.append_eq_nil_iff.mp split.symm).2 proper⟩
      · split at inside
        · next go =>
          obtain ⟨r,rfl,there,clear⟩ := (below.visitsMember distinct.1 distinct.2 p q b).mp inside
          obtain ⟨n,rest,same,_⟩ := below.named there
          exact ⟨r,rfl,.inner there,(clearNode ⟨n,rest,same⟩).mpr ⟨go,clear⟩⟩
        · cases inside
    · rintro ⟨r,rfl,there,clear⟩
      rcases atNode.mp there with ⟨rfl,rfl⟩ | there
      · exact Or.inl (by rw [List.append_nil])
      · obtain ⟨n,rest,same,_⟩ := below.named there
        obtain ⟨go,clear⟩ := (clearNode ⟨n,rest,same⟩).mp clear
        rw [if_pos go]
        exact Or.inr ((below.visitsMember distinct.1 distinct.2 p _ b).mpr ⟨r,rfl,there,clear⟩)
theorem Forest.visitsMember : (f : Forest κ α) → f.names.Nodup → f.Distinct → (p q : List κ) → (b : α) →
    ((q,b) ∈ f.visits enters p ↔ ∃ r, q = p ++ r ∧ f.At r b ∧ Clear enters f.At p r)
  | .none,_,_,p,q,b => by
    refine iff_of_false List.not_mem_nil ?_
    rintro ⟨r,_,there,_⟩
    cases there
  | .more name first rest,apart,distinct,p,q,b => by
    obtain ⟨fresh,apart⟩ := List.nodup_cons.mp apart
    rw [Forest.visits,List.mem_append,first.visitsMember distinct.1 (p ++ [name]) q b,
      rest.visitsMember apart distinct.2 p q b]
    constructor
    · rintro (⟨r,rfl,there,clear⟩ | ⟨r,rfl,there,clear⟩)
      · exact ⟨name :: r,by simp,.first there,(clearFirst fresh).mpr clear⟩
      · obtain ⟨n,s,rfl,member⟩ := rest.named there
        exact ⟨n :: s,rfl,.later there,(clearLater (fun same : name = n => fresh (same ▸ member))).mpr clear⟩
    · rintro ⟨r,rfl,there,clear⟩
      rcases atMore.mp there with ⟨s,rfl,deep⟩ | deep
      · exact Or.inl ⟨s,by simp,deep,(clearFirst fresh).mp clear⟩
      · obtain ⟨n,s,rfl,member⟩ := rest.named deep
        exact Or.inr ⟨n :: s,rfl,deep,(clearLater (fun same : name = n => fresh (same ▸ member))).mp clear⟩
end

theorem Forest.visitsBelow (f : Forest κ α) (apart : f.names.Nodup) (distinct : f.Distinct) (member : (q,b) ∈ f.visits enters p) :
    ∃ n rest, q = p ++ n :: rest ∧ n ∈ f.names := by
  obtain ⟨r,rfl,there,_⟩ := (f.visitsMember apart distinct p q b).mp member
  obtain ⟨n,rest,rfl,held⟩ := f.named there
  exact ⟨n,rest,rfl,held⟩

mutual
theorem Tree.visitsOnce : (t : Tree κ α) → t.Distinct → (p : List κ) → ((t.visits enters p).map Prod.fst).Nodup
  | .node here below,distinct,p => by
    rw [Tree.visits,List.map_cons,List.nodup_cons]
    split
    · refine ⟨?_,below.visitsOnce distinct.1 distinct.2 p⟩
      intro member
      obtain ⟨⟨q,b⟩,inside,rfl⟩ := List.mem_map.mp member
      obtain ⟨n,rest,same,_⟩ := below.visitsBelow distinct.1 distinct.2 inside
      simp at same
    · exact ⟨List.not_mem_nil,List.nodup_nil⟩
theorem Forest.visitsOnce : (f : Forest κ α) → f.names.Nodup → f.Distinct → (p : List κ) →
    ((f.visits enters p).map Prod.fst).Nodup
  | .none,_,_,_ => List.nodup_nil
  | .more name first rest,apart,distinct,p => by
    obtain ⟨fresh,apart⟩ := List.nodup_cons.mp apart
    rw [Forest.visits,List.map_append,List.nodup_append]
    refine ⟨first.visitsOnce distinct.1 (p ++ [name]),rest.visitsOnce apart distinct.2 p,?_⟩
    intro q one r two same
    subst same
    obtain ⟨⟨q,b⟩,inside,rfl⟩ := List.mem_map.mp one
    obtain ⟨⟨r,c⟩,also,again⟩ := List.mem_map.mp two
    obtain ⟨s,rfl,_,_⟩ := (first.visitsMember distinct.1 (p ++ [name]) q b).mp inside
    obtain ⟨n,rest_,rfl,member⟩ := rest.visitsBelow apart distinct.2 also
    rw [List.append_assoc] at again
    cases (List.cons.inj (List.append_cancel_left again)).1
    exact fresh member
end

end M6t.TreeWalk
