import Mathlib.Data.List.Basic

/-! Changes to a text, as runs that are kept and runs that are replaced, and its lines by their
positions. A position between two elements belongs to the element after it. -/
namespace M6t.TextChanges
variable {α : Type*}

inductive Section (α : Type*) where
  | keep (length : Nat)
  | replace (length : Nat) (inserted : List α)
  deriving DecidableEq, Repr

def apply : List (Section α) → List α → List α
  | [],text => text
  | .keep n :: changes,text => text.take n ++ apply changes (text.drop n)
  | .replace n inserted :: changes,text => inserted ++ apply changes (text.drop n)

/-- Where the element at a position is afterwards: behind what is put in at the position. -/
def moved : List (Section α) → Nat → Nat
  | [],pos => pos
  | .keep n :: changes,pos => if pos < n then pos else n + moved changes (pos - n)
  | .replace n inserted :: changes,pos => if pos < n then 0 else inserted.length + moved changes (pos - n)

/-- A run that is replaced starts before the position and ends after it. -/
def Crossed : List (Section α) → Nat → Prop
  | [],_ => False
  | .keep n :: changes,pos => n ≤ pos ∧ Crossed changes (pos - n)
  | .replace n _ :: changes,pos => 0 < pos ∧ pos < n ∨ n ≤ pos ∧ Crossed changes (pos - n)

instance crossedDecidable : (changes : List (Section α)) → (pos : Nat) → Decidable (Crossed changes pos)
  | [],_ => .isFalse id
  | .keep n :: changes,pos =>
    have := crossedDecidable changes (pos - n)
    inferInstanceAs (Decidable (n ≤ pos ∧ Crossed changes (pos - n)))
  | .replace n _ :: changes,pos =>
    have := crossedDecidable changes (pos - n)
    inferInstanceAs (Decidable (0 < pos ∧ pos < n ∨ n ≤ pos ∧ Crossed changes (pos - n)))

def ranges : Nat → List (Section α) → List (Nat × Nat)
  | _,[] => []
  | at_,.keep n :: changes => ranges (at_ + n) changes
  | at_,.replace n _ :: changes => (at_,at_ + n) :: ranges (at_ + n) changes

def Spares (changes : List (Section α)) (start finish : Nat) : Prop :=
  ∀ range ∈ ranges 0 changes, range.2 ≤ start ∨ finish ≤ range.1
instance (changes : List (Section α)) (start finish) : Decidable (Spares changes start finish) :=
  inferInstanceAs (Decidable (∀ _ ∈ _, _))

def replaces : Section α → Bool
  | .keep _ => false
  | .replace _ _ => true

variable {changes : List (Section α)} {text : List α} {start finish at_ len : Nat}

theorem rangesFrom {range : Nat × Nat} (member : range ∈ ranges at_ changes) : at_ ≤ range.1 ∧ range.1 ≤ range.2 := by
  induction changes generalizing at_ with
  | nil => exact absurd member List.not_mem_nil
  | cons change changes ih =>
    cases change with
    | keep n =>
      have later := ih member
      omega
    | replace n inserted =>
      rcases List.mem_cons.mp member with rfl | rest
      · exact ⟨Nat.le_refl _,Nat.le_add_right _ _⟩
      · have later := ih rest
        omega

theorem keptMoved (keeps : changes.any replaces = false) (pos : Nat) : moved changes pos = pos := by
  induction changes generalizing pos with
  | nil => rfl
  | cons change changes ih =>
    rw [List.any_cons,Bool.or_eq_false_iff] at keeps
    cases change with
    | keep n =>
      rw [moved,ih keeps.2]
      split <;> omega
    | replace n inserted => exact absurd keeps.1 nofun

theorem keptApply (keeps : changes.any replaces = false) (text : List α) : apply changes text = text := by
  induction changes generalizing text with
  | nil => rfl
  | cons change changes ih =>
    rw [List.any_cons,Bool.or_eq_false_iff] at keeps
    cases change with
    | keep n => rw [apply,ih keeps.2,List.take_append_drop]
    | replace n inserted => exact absurd keeps.1 nofun

theorem sparedFront (spares : ∀ range ∈ ranges at_ changes, finish ≤ range.1) (fits : finish ≤ at_ + text.length) :
    (apply changes text).take (finish - at_) = text.take (finish - at_) := by
  induction changes generalizing at_ text with
  | nil => rfl
  | cons change changes ih =>
    cases change with
    | keep n =>
      rw [apply,List.take_append]
      by_cases short : finish - at_ ≤ n
      · have none_ : finish - at_ - (text.take n).length = 0 := by rw [List.length_take]; omega
        rw [none_,List.take_zero,List.append_nil,List.take_take,Nat.min_eq_left short]
      · have whole : (text.take n).length = n := by rw [List.length_take]; omega
        have rest := @ih (text.drop n) (at_ + n) spares (by rw [List.length_drop]; omega)
        rw [whole,List.take_of_length_le (by omega),Nat.sub_sub,rest,← Nat.sub_sub]
        conv_rhs => rw [← List.take_append_drop n text,List.take_append,whole,List.take_of_length_le (by omega)]
    | replace n inserted =>
      have here := spares _ List.mem_cons_self
      rw [Nat.sub_eq_zero_of_le here,List.take_zero,List.take_zero]

theorem sparedFrom (from_ : at_ ≤ start) (fits : start + len ≤ at_ + text.length)
    (spares : ∀ range ∈ ranges at_ changes, range.2 ≤ start ∨ start + len ≤ range.1) :
    ((apply changes text).drop (moved changes (start - at_))).take len = (text.drop (start - at_)).take len := by
  induction changes generalizing at_ text with
  | nil => rfl
  | cons change changes ih =>
    cases change with
    | keep n =>
      rw [moved]
      split
      · next inside =>
        have after : ∀ range ∈ ranges at_ (.keep n :: changes), start + len ≤ range.1 := fun range member => by
          have later := rangesFrom (show range ∈ ranges (at_ + n) changes from member)
          rcases spares range member with before | after
          · omega
          · exact after
        have front := sparedFront after fits
        have width : start + len - at_ = start - at_ + len := by omega
        rw [width] at front
        rw [List.take_drop,List.take_drop,front]
      · next past =>
        have whole : (text.take n).length = n := by rw [List.length_take]; omega
        have rest := @ih (text.drop n) (at_ + n) (by omega) (by rw [List.length_drop]; omega) spares
        rw [← Nat.sub_sub,List.drop_drop] at rest
        have same : n + (start - at_ - n) = start - at_ := by omega
        rw [apply,List.drop_append,whole,Nat.add_sub_cancel_left,List.drop_of_length_le (by rw [whole]; omega),List.nil_append,rest,
          same]
    | replace n inserted =>
      rw [moved]
      rcases spares _ List.mem_cons_self with before | after
      · have past : ¬start - at_ < n := by simp only at before; omega
        have rest := @ih (text.drop n) (at_ + n) (by simp only at before; omega) (by rw [List.length_drop]; omega)
          (fun range member => spares range (List.mem_cons_of_mem _ member))
        rw [← Nat.sub_sub,List.drop_drop] at rest
        have same : n + (start - at_ - n) = start - at_ := by omega
        rw [if_neg past,apply,List.drop_append,Nat.add_sub_cancel_left,List.drop_of_length_le (Nat.le_add_right _ _),
          List.nil_append,rest,same]
      · have none_ : len = 0 := by simp only at after; omega
        rw [none_,List.take_zero,List.take_zero]

theorem spared (spares : Spares changes start (start + len)) (fits : start + len ≤ text.length) :
    ((apply changes text).drop (moved changes start)).take len = (text.drop start).take len :=
  sparedFrom (Nat.zero_le start) (by omega) spares

theorem sparedCrossing (from_ : at_ ≤ start) (wide : start ≤ finish)
    (spares : ∀ range ∈ ranges at_ changes, range.2 ≤ start ∨ finish ≤ range.1) : ¬Crossed changes (start - at_) := by
  induction changes generalizing at_ with
  | nil => exact id
  | cons change changes ih =>
    cases change with
    | keep n =>
      rintro ⟨past,crossed⟩
      rw [Nat.sub_sub] at crossed
      exact ih (by omega) spares crossed
    | replace n inserted =>
      rintro (⟨inside,within⟩ | ⟨past,crossed⟩)
      · have here := spares _ List.mem_cons_self
        simp only at here
        omega
      · rw [Nat.sub_sub] at crossed
        exact ih (by omega) (fun range member => spares range (List.mem_cons_of_mem _ member)) crossed

theorem sparedCrossed (spares : Spares changes start finish) (wide : start ≤ finish) : ¬Crossed changes start :=
  sparedCrossing (Nat.zero_le start) wide spares

structure Line (α : Type*) where
  number : Nat
  start : Nat
  text : List α
  deriving DecidableEq, Repr

def linesFrom : Nat → Nat → List (List α) → List (Line α)
  | _,_,[] => []
  | number,start,text :: rest => ⟨number,start,text⟩ :: linesFrom (number + 1) (start + text.length + 1) rest

theorem fromStart {number : Nat} {texts : List (List α)} {line : Line α} (member : line ∈ linesFrom number start texts) :
    start ≤ line.start := by
  induction texts generalizing number start with
  | nil => exact absurd member List.not_mem_nil
  | cons text rest ih =>
    rcases List.mem_cons.mp member with rfl | later
    · exact Nat.le_refl _
    · have further := ih later
      omega

theorem fromOwn {number : Nat} {texts : List (List α)} {line : Line α} (member : line ∈ linesFrom number start texts) :
    (linesFrom number start texts).find? (fun other => line.start ≤ other.start + other.text.length) = some line := by
  induction texts generalizing number start with
  | nil => exact absurd member List.not_mem_nil
  | cons text rest ih =>
    rcases List.mem_cons.mp member with rfl | later
    · exact List.find?_cons_of_pos (by simp)
    · have further := fromStart later
      rw [linesFrom,List.find?_cons_of_neg (by simp only [decide_eq_true_eq]; omega)]
      exact ih later

theorem fromNumber {number i : Nat} {texts : List (List α)} {line : Line α}
    (there : (linesFrom number start texts)[i]? = some line) : line.number = number + i := by
  induction texts generalizing number start i with
  | nil => exact absurd there nofun
  | cons text rest ih =>
    cases i with
    | zero =>
      cases Option.some.inj there
      rfl
    | succ i =>
      have further := @ih _ (number + 1) i there
      omega

theorem fromOrdered (number start : Nat) (texts : List (List α)) :
    (linesFrom number start texts).Pairwise (fun a b => a.start < b.start) := by
  induction texts generalizing number start with
  | nil => exact List.Pairwise.nil
  | cons text rest ih =>
    refine List.pairwise_cons.mpr ⟨fun line member => ?_,ih _ _⟩
    have further := fromStart member
    simp only
    omega

theorem fromText (newline : α) {number : Nat} {texts : List (List α)} {line : Line α}
    (member : line ∈ linesFrom number start texts) :
    ∃ before after, [newline].intercalate texts = before ++ line.text ++ after ∧ start + before.length = line.start := by
  induction texts generalizing number start with
  | nil => exact absurd member List.not_mem_nil
  | cons text rest ih =>
    rcases List.mem_cons.mp member with rfl | later
    · cases rest with
      | nil => exact ⟨[],[],by simp,rfl⟩
      | cons next rest => exact ⟨[],newline :: [newline].intercalate (next :: rest),by simp,rfl⟩
    · cases rest with
      | nil => exact absurd later List.not_mem_nil
      | cons next rest =>
        obtain ⟨before,after,whole,where_⟩ := ih later
        refine ⟨text ++ newline :: before,after,?_,?_⟩
        · rw [List.intercalate_cons_cons,whole]
          simp
        · rw [List.length_append,List.length_cons,← where_]
          omega

section
variable [DecidableEq α] {newline : α}

def linesOf (newline : α) (text : List α) : List (Line α) := linesFrom 1 0 (text.splitOn newline)

/-- The line that holds a position, the last one for a position past the end. -/
def lineAt (newline : α) (text : List α) (pos : Nat) : Line α :=
  ((linesOf newline text).find? (fun line => pos ≤ line.start + line.text.length)).getD
    ((linesOf newline text).getLastD ⟨1,0,[]⟩)

theorem lineAtOwn {line : Line α} (member : line ∈ linesOf newline text) : lineAt newline text line.start = line := by
  rw [lineAt,linesOf,fromOwn member]
  rfl

theorem sameStart {line other : Line α} (member : line ∈ linesOf newline text) (member' : other ∈ linesOf newline text)
    (same : line.start = other.start) : line = other := by
  rw [← lineAtOwn member,same,lineAtOwn member']

theorem linesSome (newline : α) (text : List α) : linesOf newline text ≠ [] := by
  rw [linesOf]
  cases parts : text.splitOn newline with
  | nil => exact absurd parts (List.splitOn_ne_nil _ _)
  | cons first rest => exact List.cons_ne_nil _ _

theorem lineAtMember (pos : Nat) : lineAt newline text pos ∈ linesOf newline text := by
  rw [lineAt]
  cases found : (linesOf newline text).find? (fun line => pos ≤ line.start + line.text.length) with
  | some line => exact List.mem_of_find?_eq_some found
  | none =>
    rw [Option.getD_none,List.getLastD_eq_getLast?,List.getLast?_eq_getLast_of_ne_nil (linesSome newline text)]
    exact List.getLast_mem _

theorem lineText {line : Line α} (member : line ∈ linesOf newline text) :
    line.start + line.text.length ≤ text.length ∧ (text.drop line.start).take line.text.length = line.text := by
  obtain ⟨before,after,whole,where_⟩ := fromText newline member
  rw [List.intercalate_splitOn] at whole
  have start_ : line.start = before.length := by omega
  constructor
  · rw [whole,start_,List.length_append,List.length_append]
    omega
  · rw [whole,start_,List.append_assoc,List.drop_left,List.take_left]

end

end M6t.TextChanges
