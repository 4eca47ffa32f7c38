import Mathlib.Data.List.Induction
import Mathlib.Data.List.Sort

/-! Layers over nested regions. Every rule is written for a region and sets some
fields; a place takes each field from the innermost rule around it that sets the
field. Regions are compared by a covering relation in which the regions around
one place form a chain. -/
namespace M6t.Layering

section Sorting
variable {α : Type*} (size : α → ℕ)

def sortBySize (l : List α) : List α := l.insertionSort (fun a b => size a ≤ size b)

theorem memSort {l : List α} {a : α} : a ∈ sortBySize size l ↔ a ∈ l :=
  List.mem_insertionSort _

theorem sortPairwise (l : List α) : (sortBySize size l).Pairwise (fun a b => size a ≤ size b) :=
  haveI : IsTrans α (fun a b => size a ≤ size b) := ⟨fun _ _ _ => Nat.le_trans⟩
  haveI : Std.Total (fun a b : α => size a ≤ size b) := ⟨fun a b => Nat.le_total (size a) (size b)⟩
  List.pairwise_insertionSort _ l

theorem insertFilter (keep : α → Bool) (a : α) (l : List α)
    (sorted : l.Pairwise (fun a b => size a ≤ size b)) :
    (l.orderedInsert (fun a b => size a ≤ size b) a).filter keep =
      if keep a then (l.filter keep).orderedInsert (fun a b => size a ≤ size b) a else l.filter keep := by
  induction l with
  | nil => cases h : keep a <;> simp [h]
  | cons b l ih =>
    obtain ⟨below,rest⟩ := List.pairwise_cons.mp sorted
    have ih := ih rest
    by_cases hab : size a ≤ size b
    · rw [List.orderedInsert_cons_of_le _ l hab]
      cases ha : keep a
      · simp [ha]
      · have front : ∀ c ∈ (b :: l).filter keep, size a ≤ size c := by
          intro c hc
          rcases List.mem_cons.mp (List.mem_of_mem_filter hc) with rfl | inside
          · exact hab
          · exact hab.trans (below c inside)
        rw [List.filter_cons_of_pos ha]
        cases hf : (b :: l).filter keep with
        | nil => simp
        | cons c cs =>
          have := front c (by simp [hf])
          simp [this]
    · rw [List.orderedInsert_of_not_le _ l hab]
      cases ha : keep a <;> cases hb : keep b <;> simp_all

theorem sortFilter (keep : α → Bool) (l : List α) :
    sortBySize size (l.filter keep) = (sortBySize size l).filter keep := by
  induction l with
  | nil => rfl
  | cons a l ih =>
    have step := insertFilter size keep a (sortBySize size l) (sortPairwise size l)
    rw [← ih] at step
    show _ = ((sortBySize size l).orderedInsert _ a).filter keep
    rw [step]
    cases ha : keep a
    · simp [ha]
    · rw [List.filter_cons_of_pos ha]
      rfl

theorem sortConcat (l : List α) (x : α) (largest : ∀ a ∈ l, size a ≤ size x) :
    sortBySize size (l ++ [x]) = sortBySize size l ++ [x] := by
  have insertConcat : ∀ (s : List α) (a : α), size a ≤ size x →
      (s ++ [x]).orderedInsert (fun a b => size a ≤ size b) a =
        s.orderedInsert (fun a b => size a ≤ size b) a ++ [x] := by
    intro s a ha
    induction s with
    | nil => simp [ha]
    | cons b s ih =>
      by_cases hab : size a ≤ size b
      · simp [hab]
      · simp [hab,ih]
  induction l with
  | nil => rfl
  | cons a l ih =>
    show (sortBySize size (l ++ [x])).orderedInsert _ a = (sortBySize size l).orderedInsert _ a ++ [x]
    rw [ih (fun b hb => largest b (List.mem_cons_of_mem _ hb))]
    exact insertConcat _ a (largest a List.mem_cons_self)

theorem filterHalves {l : List α} {keep : α → Bool}
    (closed : l.Pairwise (fun a b => keep b = true → keep a = true)) :
    l = l.filter keep ++ l.filter (fun a => !keep a) := by
  induction l with
  | nil => rfl
  | cons a l ih =>
    obtain ⟨before,rest⟩ := List.pairwise_cons.mp closed
    cases ha : keep a
    · have none : l.filter keep = [] := by
        refine List.filter_eq_nil_iff.mpr (fun b hb => ?_)
        intro hk
        rw [before b hb hk] at ha
        contradiction
      have all : l.filter (fun b => !keep b) = l := by
        refine List.filter_eq_self.mpr (fun b hb => ?_)
        have := List.filter_eq_nil_iff.mp none b hb
        simpa using this
      simp [ha,none,all]
    · rw [List.filter_cons_of_pos ha,List.filter_cons_of_neg (by simp [ha]),List.cons_append,← ih rest]

end Sorting

section LastWriter
variable {α V : Type*} (pick : α → Option V)

def lastSet (layers : List α) : Option V := (layers.filterMap pick).getLast?

@[simp] theorem lastSetNil : lastSet pick [] = none := rfl

theorem lastSetAppend (a b : List α) : lastSet pick (a ++ b) = (lastSet pick b).or (lastSet pick a) := by
  simp [lastSet,List.filterMap_append,List.getLast?_append]

theorem lastSetConcat (a : List α) (x : α) : lastSet pick (a ++ [x]) = (pick x).or (lastSet pick a) := by
  rw [lastSetAppend]
  cases h : pick x <;> simp [lastSet,h]

theorem lastSetNone {layers : List α} : lastSet pick layers = none ↔ ∀ a ∈ layers, pick a = none := by
  simp [lastSet]

theorem lastSetSome {layers : List α} {v : V} (h : lastSet pick layers = some v) :
    ∃ before a after, layers = before ++ a :: after ∧ pick a = some v ∧ ∀ b ∈ after, pick b = none := by
  induction layers using List.reverseRecOn with
  | nil => simp at h
  | append_singleton layers x ih =>
    rw [lastSetConcat] at h
    cases hx : pick x with
    | some w =>
      rw [hx] at h
      exact ⟨layers,x,[],rfl,hx.trans h,by simp⟩
    | none =>
      rw [hx] at h
      obtain ⟨before,a,after,rfl,sets,silent⟩ := ih h
      refine ⟨before,a,after ++ [x],by simp,sets,fun b hb => ?_⟩
      rcases List.mem_append.mp hb with inner | last
      · exact silent b inner
      · exact (List.mem_singleton.mp last) ▸ hx

end LastWriter

section Regions
variable {α R V : Type*} (covers : R → R → Prop) [DecidableRel covers] (size : R → ℕ) (region : α → R)

/-- Covering is transitive, and of two regions around one place the smaller one
covers the larger. -/
structure Nested : Prop where
  trans : ∀ {a b c}, covers a b → covers b c → covers a c
  chain : ∀ {a b c}, covers a c → covers b c → size a ≤ size b → covers a b

def layersAt (rules : List α) (p : R) : List α :=
  sortBySize (fun a => size (region a)) (rules.filter (fun a => covers (region a) p))

def shared (rules : List α) (p q : R) : List α :=
  (layersAt covers size region rules p).filter (fun a => covers (region a) q)

def apart (rules : List α) (p q : R) : List α :=
  (layersAt covers size region rules p).filter (fun a => !decide (covers (region a) q))

variable {covers size region} {rules : List α} {p q : R}

theorem memLayers {a : α} :
    a ∈ layersAt covers size region rules p ↔ a ∈ rules ∧ covers (region a) p := by
  simp [layersAt,memSort]

theorem layersSplit (nested : Nested covers size) :
    layersAt covers size region rules p =
      shared covers size region rules p q ++ apart covers size region rules p q := by
  refine filterHalves ?_
  refine (sortPairwise (fun a => size (region a)) _).imp_of_mem ?_
  intro a b ha hb le inside
  have ca := (memLayers.mp ha).2
  have cb := (memLayers.mp hb).2
  exact decide_eq_true (nested.trans (nested.chain ca cb le) (of_decide_eq_true inside))

theorem sharedComm : shared covers size region rules p q = shared covers size region rules q p := by
  simp only [shared,layersAt,← sortFilter,List.filter_filter]
  congr 2
  funext a
  exact Bool.and_comm _ _

theorem layersDetermined (nested : Nested covers size) {a : α}
    (innermost : (layersAt covers size region rules p).getLast? = some a) {b : α} (member : b ∈ rules) :
    covers (region b) p ↔ covers (region b) (region a) := by
  have ha := memLayers.mp (List.mem_of_getLast? innermost)
  refine ⟨fun around => ?_,fun around => nested.trans around ha.2⟩
  obtain ⟨outer,eq⟩ : ∃ outer, layersAt covers size region rules p = outer ++ [a] := by
    obtain ⟨outer,h⟩ := List.getLast?_eq_some_iff.mp innermost
    exact ⟨outer,h⟩
  have sorted := sortPairwise (fun a => size (region a)) (rules.filter (fun a => decide (covers (region a) p)))
  have inside : b ∈ layersAt covers size region rules p := memLayers.mpr ⟨member,around⟩
  rw [eq] at inside
  rcases List.mem_append.mp inside with before | last
  · have le : size (region b) ≤ size (region a) := by
      change (layersAt covers size region rules p).Pairwise _ at sorted
      rw [eq] at sorted
      exact (List.pairwise_append.mp sorted).2.2 b before a (by simp)
    exact nested.chain around ha.2 le
  · have same : b = a := by simpa using last
    subst same
    exact nested.chain around ha.2 le_rfl

variable (pick : α → Option V) (start : V)

def inForce (covers : R → R → Prop) [DecidableRel covers] (size : R → ℕ) (region : α → R)
    (pick : α → Option V) (start : V) (rules : List α) (p : R) : V :=
  (lastSet pick (layersAt covers size region rules p)).getD start

theorem inForceShared (nested : Nested covers size) :
    inForce covers size region pick start rules p =
      (lastSet pick (apart covers size region rules p q)).getD
        ((lastSet pick (shared covers size region rules p q)).getD start) := by
  rw [inForce,layersSplit nested (q := q),lastSetAppend]
  cases lastSet pick (apart covers size region rules p q) <;> simp

/-- The rule a field is taken from: the region of every other rule that sets the
field here lies strictly around its own. -/
structure Decides (covers : R → R → Prop) (size : R → ℕ) (region : α → R) (pick : α → Option V) (rules : List α)
    (p : R) (a : α) (v : V) : Prop where
  member : a ∈ rules
  around : covers (region a) p
  sets : pick a = some v
  innermost : ∀ b ∈ rules, covers (region b) p → (pick b).isSome → b ≠ a →
    covers (region b) (region a) ∧ size (region b) < size (region a)

theorem inForceDecided (nested : Nested covers size) (strict : ∀ {a b}, covers a b → size b ≤ size a → a = b)
    (distinct : (rules.map region).Nodup) :
    (∃ a, Decides covers size region pick rules p a (inForce covers size region pick start rules p)) ∨
      (∀ a ∈ rules, covers (region a) p → pick a = none) ∧ inForce covers size region pick start rules p = start := by
  rw [inForce]
  cases last : lastSet pick (layersAt covers size region rules p) with
  | none =>
    refine Or.inr ⟨fun a member around => ?_,rfl⟩
    exact (lastSetNone pick).mp last a (memLayers.mpr ⟨member,around⟩)
  | some v =>
    obtain ⟨before,a,after,layers,sets,silent⟩ := lastSetSome pick last
    obtain ⟨member,around⟩ := memLayers.mp (layers ▸ List.mem_append_right before List.mem_cons_self)
    refine Or.inl ⟨a,member,around,sets,fun b hb inside other different => ?_⟩
    have sorted : (layersAt covers size region rules p).Pairwise (fun a b => size (region a) ≤ size (region b)) :=
      sortPairwise (fun a => size (region a)) _
    rw [layers] at sorted
    have earlier : b ∈ before := by
      have here : b ∈ before ++ a :: after := layers ▸ memLayers.mpr ⟨hb,inside⟩
      rcases List.mem_append.mp here with h | h
      · exact h
      · rcases List.mem_cons.mp h with same | later
        · exact absurd same different
        · rw [silent b later] at other
          contradiction
    have le := (List.pairwise_append.mp sorted).2.2 b earlier a List.mem_cons_self
    have encloses := nested.chain inside around le
    refine ⟨encloses,lt_of_not_ge (fun ge => different ?_)⟩
    exact List.inj_on_of_nodup_map distinct hb member (strict encloses ge)

/-- The field is the same at two places exactly when the rules around only one of
them, laid over the ones around both, come out alike. -/
def Alike (covers : R → R → Prop) [DecidableRel covers] (size : R → ℕ) (region : α → R)
    (pick : α → Option V) (start : V) (rules : List α) (p q : R) : Prop :=
  let common := (lastSet pick (shared covers size region rules p q)).getD start
  (lastSet pick (apart covers size region rules p q)).getD common =
    (lastSet pick (apart covers size region rules q p)).getD common

theorem inForceAlike (nested : Nested covers size) :
    inForce covers size region pick start rules p = inForce covers size region pick start rules q ↔
      Alike covers size region pick start rules p q := by
  rw [Alike,inForceShared pick start nested (q := q),inForceShared pick start nested (p := q) (q := p),
    sharedComm (p := q) (q := p)]

end Regions
end M6t.Layering
