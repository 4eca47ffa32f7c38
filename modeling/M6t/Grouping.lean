import Mathlib.Data.List.Induction
import Mathlib.Data.List.Nodup
import Mathlib.Order.Defs.PartialOrder

/-! Items grouped by a key in one pass: a group opens where its first item comes, and later
items of its key join it. -/
namespace M6t.Grouping
variable {α κ : Type*} [DecidableEq κ] (key : α → κ)

def place (groups : List (κ × List α)) (a : α) : List (κ × List α) :=
  if key a ∈ groups.map Prod.fst then groups.map (fun g => if g.1 = key a then (g.1,g.2 ++ [a]) else g)
  else groups ++ [(key a,[a])]

def groupBy (items : List α) : List (κ × List α) := items.foldl (place key) []

/-- Each key once, its group the items of that key in their order. -/
structure Grouped (items : List α) (groups : List (κ × List α)) : Prop where
  once : (groups.map Prod.fst).Nodup
  known : ∀ k, k ∈ groups.map Prod.fst ↔ k ∈ items.map key
  whole : ∀ g ∈ groups, g.2 = items.filter (fun a => key a = g.1)

variable {key} {items : List α} {groups : List (κ × List α)} {a : α}

theorem placeKeys : (place key groups a).map Prod.fst =
    if key a ∈ groups.map Prod.fst then groups.map Prod.fst else groups.map Prod.fst ++ [key a] := by
  unfold place
  split
  · rw [List.map_map]
    refine List.map_congr_left (fun g _ => ?_)
    simp only [Function.comp_apply]
    split <;> rfl
  · simp

theorem Grouped.place (grouped : Grouped key items groups) : Grouped key (items ++ [a]) (place key groups a) := by
  obtain ⟨once,known,whole⟩ := grouped
  have joins : ∀ g ∈ groups, (items ++ [a]).filter (fun b => key b = g.1) = if g.1 = key a then g.2 ++ [a] else g.2 := by
    intro g member
    rw [List.filter_append,← whole g member]
    by_cases same : g.1 = key a
    · simp [same]
    · simp [same,Ne.symm same]
  refine ⟨?_,fun k => ?_,fun g member => ?_⟩
  · rw [placeKeys]
    split
    · exact once
    · next fresh => exact List.nodup_append.mpr ⟨once,List.nodup_singleton _,fun k old b new => by
        rintro rfl
        exact fresh (List.mem_singleton.mp new ▸ old)⟩
  · rw [placeKeys,List.map_append,List.mem_append,← known k,List.map_singleton,List.mem_singleton]
    split
    · next old => exact ⟨Or.inl,fun either => either.elim id (fun same => same ▸ old)⟩
    · rw [List.mem_append,List.mem_singleton]
  · unfold Grouping.place at member
    split at member
    · obtain ⟨old,there,rfl⟩ := List.mem_map.mp member
      by_cases same : old.1 = key a
      · rw [if_pos same]
        exact ((joins old there).trans (if_pos same)).symm
      · rw [if_neg same]
        exact ((joins old there).trans (if_neg same)).symm
    · next fresh =>
      rcases List.mem_append.mp member with old | new
      · have other : g.1 ≠ key a := fun same => fresh (same ▸ List.mem_map_of_mem old)
        exact ((joins g old).trans (if_neg other)).symm
      · cases List.mem_singleton.mp new
        have none_ : items.filter (fun b => key b = key a) = [] := by
          refine List.filter_eq_nil_iff.mpr (fun b inside => ?_)
          simpa using fun same => fresh ((known _).mpr (List.mem_map.mpr ⟨b,inside,same⟩))
        simp [List.filter_append,none_]

theorem groupSnoc : groupBy key (items ++ [a]) = place key (groupBy key items) a := by
  rw [groupBy,List.foldl_append]
  rfl

theorem groupGrouped (items : List α) : Grouped key items (groupBy key items) := by
  induction items using List.reverseRecOn with
  | nil => exact ⟨List.nodup_nil,by simp [groupBy],by simp [groupBy]⟩
  | append_singleton items a ih =>
    rw [groupSnoc]
    exact ih.place

theorem Grouped.filled (grouped : Grouped key items groups) {g : κ × List α} (member : g ∈ groups) : g.2 ≠ [] := by
  obtain ⟨a,inside,same⟩ := List.mem_map.mp ((grouped.known g.1).mp (List.mem_map_of_mem member))
  rw [grouped.whole g member]
  exact List.ne_nil_of_mem (List.mem_filter.mpr ⟨inside,decide_eq_true same⟩)

section Ordered
variable {r : κ → κ → Prop} [Std.Antisymm r]

theorem placeLast {front : List (κ × List α)} {group : List α} (apart : key a ∉ front.map Prod.fst) :
    place key (front ++ [(key a,group)]) a = front ++ [(key a,group ++ [a])] := by
  have others : front.map (fun g => if g.1 = key a then (g.1,g.2 ++ [a]) else g) = front := by
    refine (List.map_congr_left (fun g member => ?_)).trans (List.map_id front)
    exact if_neg (fun same : g.1 = key a => apart (same ▸ List.mem_map_of_mem member))
  rw [place,if_pos (by simp),List.map_append,others]
  simp

omit [DecidableEq κ] in
/-- The last key of the list is the only one that can come again. -/
theorem lastAgain {keys : List κ} {k last : κ} (ordered : keys.Pairwise r) (final : keys.getLast? = some last)
    (least : r last k) (again : k ∈ keys) : last = k := by
  obtain ⟨front,rfl⟩ := List.getLast?_eq_some_iff.mp final
  rcases List.mem_append.mp again with earlier | here
  · exact Std.Antisymm.antisymm _ _ least ((List.pairwise_append.mp ordered).2.2 _ earlier _ (List.mem_singleton_self _))
  · exact (List.mem_singleton.mp here).symm

theorem groupOrdered (ordered : (items.map key).Pairwise r) :
    (groupBy key items).flatMap Prod.snd = items ∧ ((groupBy key items).map Prod.fst).Pairwise r ∧
      ((groupBy key items).map Prod.fst).getLast? = (items.map key).getLast? := by
  induction items using List.reverseRecOn with
  | nil => simp [groupBy]
  | append_singleton items a ih =>
    have grouped : Grouped key items (groupBy key items) := groupGrouped items
    rw [List.map_append,List.map_singleton] at ordered ⊢
    obtain ⟨before,_,least⟩ := List.pairwise_append.mp ordered
    have least : ∀ k ∈ items.map key, r k (key a) := fun k inside => least k inside _ (List.mem_singleton_self _)
    obtain ⟨flat,apart,last⟩ := ih before
    rw [groupSnoc,List.getLast?_concat]
    by_cases old : key a ∈ (groupBy key items).map Prod.fst
    · obtain ⟨front,⟨k,group⟩,shape⟩ := (List.eq_nil_or_concat (groupBy key items)).resolve_left
        (fun none_ => by simp [none_] at old)
      rw [List.concat_eq_append] at shape
      have once := grouped.once
      rw [shape] at last apart flat once
      rw [List.map_append,List.map_singleton] at last once
      have final : (items.map key).getLast? = some k := last.symm.trans List.getLast?_concat
      have same : k = key a :=
        lastAgain before final (least k (List.mem_of_getLast? final)) ((grouped.known _).mp old)
      subst same
      have fresh : key a ∉ front.map Prod.fst := fun member =>
        (List.nodup_append.mp once).2.2 _ member _ (List.mem_singleton_self _) rfl
      rw [shape,placeLast fresh]
      refine ⟨?_,by simpa using apart,by simp⟩
      rw [List.flatMap_append] at flat ⊢
      simp only [List.flatMap_cons,List.flatMap_nil,List.append_nil] at flat ⊢
      rw [← List.append_assoc,flat]
    · rw [place,if_neg old,List.flatMap_append,flat,List.map_append]
      refine ⟨by simp,List.pairwise_append.mpr ⟨apart,List.pairwise_singleton _ _,fun k inside last_ new => ?_⟩,by simp⟩
      cases List.mem_singleton.mp new
      exact least k ((grouped.known k).mp inside)

end Ordered

end M6t.Grouping
