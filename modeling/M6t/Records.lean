import Mathlib.Data.List.Basic

/-! Records as lists of their entries, oldest first: writing a key that is there
keeps its place, as a JavaScript object does. -/
namespace M6t.Records
variable {κ α β : Type*} [BEq κ] [LawfulBEq κ]

theorem lookupMapped (record : List (κ × α)) (f : κ → α → β) (key : κ) :
    (record.map (fun entry => (entry.1,f entry.1 entry.2))).lookup key = (record.lookup key).map (f key) := by
  induction record with
  | nil => rfl
  | cons entry record ih =>
    rw [List.map_cons,List.lookup_cons,List.lookup_cons]
    cases here : key == entry.1 with
    | true =>
      cases eq_of_beq here
      rfl
    | false => exact ih

theorem lookupEach (record : List (κ × α)) (f : α → β) (key : κ) :
    (record.map (fun entry => (entry.1,f entry.2))).lookup key = (record.lookup key).map f :=
  lookupMapped record (fun _ => f) key

variable [DecidableEq κ]

def put (record : List (κ × α)) (key : κ) (value : α) : List (κ × α) :=
  if (record.lookup key).isSome then record.map (fun entry => if entry.1 = key then (key,value) else entry)
  else record ++ [(key,value)]

theorem lookupEdited (record : List (κ × α)) (edit : α → α) (key other : κ) :
    (record.map (fun entry => if entry.1 = key then (entry.1,edit entry.2) else entry)).lookup other =
      (record.lookup other).map (fun value => if other = key then edit value else value) := by
  rw [← lookupMapped record (fun other value => if other = key then edit value else value) other]
  congr 1
  refine List.map_congr_left (fun entry _ => ?_)
  split <;> rfl

theorem lookupReplaced (record : List (κ × α)) (key other : κ) (value : α) :
    (record.map (fun entry => if entry.1 = key then (key,value) else entry)).lookup other =
      if other = key then (record.lookup key).map (fun _ => value) else record.lookup other := by
  have same : record.map (fun entry => if entry.1 = key then (key,value) else entry) =
      record.map (fun entry => if entry.1 = key then (entry.1,value) else entry) := by
    refine List.map_congr_left (fun entry _ => ?_)
    by_cases here : entry.1 = key
    · rw [if_pos here,if_pos here,here]
    · rw [if_neg here,if_neg here]
  rw [same,lookupEdited record (fun _ => value)]
  by_cases here : other = key
  · subst here
    simp
  · simp [here]

theorem lookupPut (record : List (κ × α)) (key other : κ) (value : α) :
    (put record key value).lookup other = if other = key then some value else record.lookup other := by
  unfold put
  split
  · next there =>
    rw [lookupReplaced]
    obtain ⟨old,found⟩ := Option.isSome_iff_exists.mp there
    simp [found]
  · next absent =>
    rw [Option.not_isSome_iff_eq_none] at absent
    rw [List.lookup_append]
    by_cases here : other = key
    · subst here
      simp [absent]
    · have apart : (other == key) = false := by simpa using here
      simp [List.lookup_cons,apart,here]

theorem lookupWithout (record : List (κ × α)) (key other : κ) :
    (record.filter (fun entry => entry.1 ≠ key)).lookup other = if other = key then none else record.lookup other := by
  induction record with
  | nil => simp
  | cons entry record ih =>
    by_cases gone : entry.1 = key
    · rw [List.filter_cons_of_neg (by simpa using gone),ih,List.lookup_cons]
      grind
    · rw [List.filter_cons_of_pos (by simpa using gone),List.lookup_cons,List.lookup_cons,ih]
      grind

end M6t.Records
