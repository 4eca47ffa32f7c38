import Mathlib.Data.List.Basic
import Mathlib.Data.List.Infix
import Mathlib.Data.List.DropRight

/-! Trees as what stands at each path, `none` where nothing does: cutting a subtree out, putting one in,
moving one. Which of the values may have something below them is a parameter. -/
namespace M6t.PathTree
variable {κ ν : Type*}

def subtree (t : List κ → Option ν) (p : List κ) : List κ → Option ν := fun q => t (p ++ q)

def bare : List κ → Option ν := fun _ => none

def leaf (v : ν) : List κ → Option ν
  | [] => some v
  | _ :: _ => none

section
variable [DecidableEq κ]

def graft (t : List κ → Option ν) (p : List κ) (s : List κ → Option ν) : List κ → Option ν :=
  fun q => if p <+: q then s (q.drop p.length) else t q

def move (t : List κ → Option ν) (a b : List κ) : List κ → Option ν := graft (graft t a bare) b (subtree t a)

end

variable {t u s : List κ → Option ν} {p q a b : List κ}

theorem underApart (ab : ¬ a <+: b) (ba : ¬ b <+: a) (under : a <+: q) : ¬ b <+: q :=
  fun other => (List.prefix_or_prefix_of_prefix under other).elim ab ba

section
variable [DecidableEq κ]

theorem graftUnder (rest : List κ) : graft t p s (p ++ rest) = s rest := by
  rw [graft,if_pos (List.prefix_append p rest),List.drop_left]

theorem graftApart (apart : ¬ p <+: q) : graft t p s q = t q := if_neg apart

@[simp] theorem subtreeGraft : subtree (graft t p s) p = s := funext (fun rest => graftUnder rest)

@[simp] theorem graftSubtree : graft t p (subtree t p) = t := by
  funext q
  by_cases under : p <+: q
  · obtain ⟨rest,rfl⟩ := under
    exact graftUnder rest
  · exact graftApart under

@[simp] theorem graftTwice : graft (graft t p u) p s = graft t p s := by
  funext q
  by_cases under : p <+: q
  · obtain ⟨rest,rfl⟩ := under
    rw [graftUnder,graftUnder]
  · rw [graftApart under,graftApart under,graftApart under]

theorem subtreeApart (ab : ¬ a <+: b) (ba : ¬ b <+: a) : subtree (graft t a s) b = subtree t b :=
  funext (fun rest => graftApart (underApart ba ab (List.prefix_append b rest)))

theorem graftSwap (ab : ¬ a <+: b) (ba : ¬ b <+: a) : graft (graft t a s) b u = graft (graft t b u) a s := by
  funext q
  by_cases first : a <+: q
  · have other := underApart ab ba first
    obtain ⟨rest,rfl⟩ := first
    rw [graftApart other,graftUnder,graftUnder]
  · by_cases second : b <+: q
    · obtain ⟨rest,rfl⟩ := second
      rw [graftUnder,graftApart first,graftUnder]
    · rw [graftApart second,graftApart first,graftApart first,graftApart second]

theorem moveApart (out : ¬ a <+: q) (away : ¬ b <+: q) : move t a b q = t q := by
  rw [move,graftApart away,graftApart out]

theorem moveUnder (rest : List κ) : move t a b (b ++ rest) = t (a ++ rest) := graftUnder rest

theorem moveBack (ab : ¬ a <+: b) (ba : ¬ b <+: a) (free : subtree t b = bare) : move (move t a b) b a = t := by
  have carried : subtree (move t a b) b = subtree t a := subtreeGraft
  calc move (move t a b) b a = graft (graft (move t a b) b bare) a (subtree t a) := by rw [move,carried]
    _ = graft (graft (graft t a bare) b bare) a (subtree t a) := by rw [move,graftTwice]
    _ = graft (graft t b bare) a (subtree t a) := by rw [graftSwap ab ba,graftTwice]
    _ = graft t b bare := by rw [← subtreeApart ba ab,graftSubtree]
    _ = t := by rw [← free,graftSubtree]

end

section
variable {dir : ν → Bool}

def Sprung (dir : ν → Bool) (s : List κ → Option ν) : Prop :=
  ∀ p name, (s (p ++ [name])).isSome = true → ∃ v ∈ s p, dir v = true

structure Grown (dir : ν → Bool) (t : List κ → Option ν) : Prop where
  root : ∃ v ∈ t [], dir v = true
  above : Sprung dir t

theorem bareSprung : Sprung dir (bare : List κ → Option ν) := fun _ _ some_ => by cases some_

theorem leafSprung (v : ν) : Sprung dir (leaf v : List κ → Option ν) := by
  intro p name some_
  cases p <;> cases some_

theorem Sprung.subtree (sprung : Sprung dir t) (p : List κ) : Sprung dir (PathTree.subtree t p) := by
  intro q name some_
  refine sprung (p ++ q) name ?_
  rw [List.append_assoc]
  exact some_

theorem Sprung.front (sprung : Sprung dir t) (there : (t (p ++ q)).isSome = true) : (t p).isSome = true := by
  induction q using List.reverseRecOn with
  | nil => rwa [List.append_nil] at there
  | append_singleton q name ih =>
    rw [← List.append_assoc] at there
    obtain ⟨v,held,_⟩ := sprung _ _ there
    exact ih (by rw [held]; rfl)

theorem Sprung.bare (sprung : Sprung dir t) (free : t p = none) : PathTree.subtree t p = PathTree.bare := by
  funext rest
  by_contra some_
  have there := @Sprung.front κ ν t p _ dir sprung (Option.isSome_iff_ne_none.mpr some_)
  rw [free] at there
  cases there

theorem graftGrown [DecidableEq κ] (grown : Grown dir t) (proper : p ≠ []) (sprung : Sprung dir s)
    (parent : (s []).isSome = true → ∃ v ∈ t p.dropLast, dir v = true) : Grown dir (graft t p s) := by
  constructor
  · rw [graftApart (fun under => proper (List.prefix_nil.mp under))]
    exact grown.root
  · intro q name some_
    by_cases under : p <+: q
    · obtain ⟨rest,rfl⟩ := under
      rw [List.append_assoc,graftUnder] at some_
      rw [graftUnder]
      exact sprung rest name some_
    · rw [graftApart under]
      by_cases own : p = q ++ [name]
      · subst own
        rw [List.dropLast_concat] at parent
        refine parent ?_
        have here : graft t (q ++ [name]) s (q ++ [name]) = s [] := by
          simpa using graftUnder (t := t) (p := q ++ [name]) (s := s) []
        rwa [here] at some_
      · rw [graftApart (fun below => (List.prefix_concat_iff.mp below).elim own under)] at some_
        exact grown.above q name some_

theorem pruneGrown [DecidableEq κ] (grown : Grown dir t) (proper : p ≠ []) : Grown dir (graft t p bare) :=
  graftGrown grown proper bareSprung (fun none_ => by cases none_)

/-- What is left when all below a place is taken away but some, which is never left hanging. -/
theorem keepGrown {keep : List κ → Bool} (grown : Grown dir t) (root : keep [] = true)
    (closed : ∀ p name, keep (p ++ [name]) = true → keep p = true) :
    Grown dir (fun q => if keep q then t q else none) := by
  constructor
  · rw [if_pos root]
    exact grown.root
  · intro q name some_
    dsimp only at some_ ⊢
    split at some_
    · next kept =>
      rw [if_pos (closed q name kept)]
      exact grown.above q name some_
    · cases some_

theorem moveGrown [DecidableEq κ] (grown : Grown dir t) (source : a ≠ []) (target : b ≠ []) (out : ¬ a <+: b)
    (parent : ∃ v ∈ t b.dropLast, dir v = true) : Grown dir (move t a b) := by
  refine graftGrown (pruneGrown grown source) target (grown.above.subtree a) (fun _ => ?_)
  rw [graftApart (fun under => out (under.trans (List.dropLast_prefix b)))]
  exact parent

end

/-- All that stands in the one tree stands in the other, each at a place of its own. -/
structure Carries (t u : List κ → Option ν) (track : List κ → List κ) : Prop where
  same : ∀ p, (t p).isSome = true → u (track p) = t p
  apart : ∀ p q, (t p).isSome = true → (t q).isSome = true → track p = track q → p = q

theorem Carries.trans {f g : List κ → List κ} (one : Carries t u f) (two : Carries u s g) : Carries t s (g ∘ f) := by
  have stands : ∀ p, (t p).isSome = true → (u (f p)).isSome = true := fun p there => by rwa [one.same p there]
  constructor
  · intro p there
    exact (two.same _ (stands p there)).trans (one.same p there)
  · intro p q first second same
    exact one.apart p q first second (two.apart _ _ (stands p first) (stands q second) same)

section
variable [DecidableEq κ]

theorem graftCarries (free : subtree t p = bare) : Carries t (graft t p s) id := by
  refine ⟨fun q there => graftApart ?_,fun _ _ _ _ same => same⟩
  rintro ⟨rest,rfl⟩
  have none_ : t (p ++ rest) = none := congrFun free rest
  rw [none_] at there
  cases there

def moved (a b : List κ) (q : List κ) : List κ := if a <+: q then b ++ q.drop a.length else q

theorem movedUnder (rest : List κ) : moved a b (a ++ rest) = b ++ rest := by
  rw [moved,if_pos (List.prefix_append a rest),List.drop_left]

theorem moveCarries (free : subtree t b = bare) : Carries t (move t a b) (moved a b) := by
  have vacant : ∀ rest, t (b ++ rest) = none := fun rest => congrFun free rest
  constructor
  · intro q there
    by_cases under : a <+: q
    · obtain ⟨rest,rfl⟩ := under
      rw [movedUnder,moveUnder]
    · rw [moved,if_neg under]
      refine moveApart under ?_
      rintro ⟨rest,rfl⟩
      rw [vacant] at there
      cases there
  · intro q r first second same
    by_cases inside : a <+: q
    · obtain ⟨rest,rfl⟩ := inside
      rw [movedUnder] at same
      by_cases also : a <+: r
      · obtain ⟨more,rfl⟩ := also
        rw [movedUnder] at same
        rw [List.append_cancel_left same]
      · rw [moved,if_neg also] at same
        rw [← same,vacant] at second
        cases second
    · by_cases also : a <+: r
      · obtain ⟨more,rfl⟩ := also
        rw [moved,if_neg inside,movedUnder] at same
        rw [same,vacant] at first
        cases first
      · rwa [moved,moved,if_neg inside,if_neg also] at same

end

end M6t.PathTree
