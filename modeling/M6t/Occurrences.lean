import Mathlib.Data.List.Infix

/-! Counting and replacing the occurrences of one sequence in another, from the
left and never overlapping. The first argument is how much of the last
occurrence is still to be passed. -/
namespace M6t.Occurrences
variable {α : Type*} [DecidableEq α] (old new : List α)

def countFrom : Nat → List α → Nat
  | _,[] => 0
  | skip + 1,_ :: s => countFrom skip s
  | 0,a :: s => if old <+: a :: s then countFrom (old.length - 1) s + 1 else countFrom 0 s

def replaceFrom : Nat → List α → List α
  | _,[] => []
  | skip + 1,_ :: s => replaceFrom skip s
  | 0,a :: s => if old <+: a :: s then new ++ replaceFrom (old.length - 1) s else a :: replaceFrom 0 s

def count (s : List α) : Nat := countFrom old 0 s
def replaceAll (s : List α) : List α := replaceFrom old new 0 s

theorem countSkip (l s : List α) : countFrom old l.length (l ++ s) = count old s := by
  induction l with
  | nil => rfl
  | cons a l ih => exact ih

theorem replaceSkip (l s : List α) : replaceFrom old new l.length (l ++ s) = replaceAll old new s := by
  induction l with
  | nil => rfl
  | cons a l ih => exact ih

@[simp] theorem countNil : count old [] = 0 := rfl
@[simp] theorem replaceNil : replaceAll old new [] = [] := rfl

variable {old new}

theorem countHit (some_ : old ≠ []) (s : List α) : count old (old ++ s) = count old s + 1 := by
  cases old with
  | nil => exact absurd rfl some_
  | cons a l =>
    have here : a :: l <+: a :: (l ++ s) := List.prefix_append (a :: l) s
    rw [count,List.cons_append,countFrom,if_pos here]
    exact congrArg (· + 1) (countSkip (a :: l) l s)

theorem countMiss {a : α} {s : List α} (miss : ¬old <+: a :: s) : count old (a :: s) = count old s := by
  rw [count,countFrom,if_neg miss]
  rfl

theorem replaceHit (some_ : old ≠ []) (s : List α) : replaceAll old new (old ++ s) = new ++ replaceAll old new s := by
  cases old with
  | nil => exact absurd rfl some_
  | cons a l =>
    have here : a :: l <+: a :: (l ++ s) := List.prefix_append (a :: l) s
    rw [replaceAll,List.cons_append,replaceFrom,if_pos here]
    exact congrArg (new ++ ·) (replaceSkip (a :: l) new l s)

theorem replaceMiss {a : α} {s : List α} (miss : ¬old <+: a :: s) :
    replaceAll old new (a :: s) = a :: replaceAll old new s := by
  rw [replaceAll,replaceFrom,if_neg miss]
  rfl

theorem byOccurrence {P : List α → Prop} (some_ : old ≠ []) (nil : P []) (hit : ∀ s, P s → P (old ++ s))
    (miss : ∀ a s, ¬old <+: a :: s → P s → P (a :: s)) (s : List α) : P s := by
  induction length : s.length using Nat.strong_induction_on generalizing s with
  | _ n ih =>
    subst length
    cases s with
    | nil => exact nil
    | cons a s =>
      by_cases here : old <+: a :: s
      · obtain ⟨rest,split⟩ := here
        rw [← split]
        refine hit rest (ih _ ?_ rest rfl)
        have bound := congrArg List.length split
        have positive := List.length_pos_of_ne_nil some_
        simp only [List.length_append,List.length_cons] at bound
        simp only [List.length_cons]
        omega
      · exact miss a s here (ih _ (by simp) s rfl)

theorem replaceThrough {a : α} {l s : List α} (away : a ∉ s) (t : List α) :
    replaceAll (a :: l) new (s ++ t) = s ++ replaceAll (a :: l) new t := by
  induction s with
  | nil => rfl
  | cons b s ih =>
    rw [List.cons_append,replaceMiss]
    · rw [ih (fun member => away (List.mem_cons_of_mem b member))]
      rfl
    · intro start
      exact away (List.mem_cons.mpr (.inl (List.cons_prefix_cons.mp start).1))

theorem countEach {a b : α} {s : List α} : count [a] (b :: s) = count [a] s + if a = b then 1 else 0 := by
  by_cases same : a = b
  · subst same
    have hit := countHit (List.cons_ne_nil a []) s
    simpa using hit
  · rw [countMiss (by simp [same]),if_neg same]
    rfl

theorem replaceEach {a : α} (s : List α) : replaceAll [a] new s = s.flatMap (fun b => if b = a then new else [b]) := by
  induction s with
  | nil => rfl
  | cons b s ih =>
    by_cases same : a = b
    · subst same
      have hit : replaceAll [a] new (a :: s) = new ++ replaceAll [a] new s := replaceHit (List.cons_ne_nil a []) s
      simp [hit,ih]
    · rw [replaceMiss (by simp [same]),ih]
      simp [Ne.symm same]

end M6t.Occurrences
