import Mathlib.Data.List.Dedup
import M6t.Registry

/-! Reordering the tab strip. The records are indexed by name and the list is
rebuilt from the index, so what two records of one name share is one entry. -/
namespace M6t.Reorder
open M6t.Text M6t.Fault M6t.Registry

theorem consKeys {α β : Type} [DecidableEq α] {index : AList (fun _ : α => β)} {key : α} {keys : List α}
    (present : key ∈ index) : (key :: keys).Perm index.keys ↔ keys.Perm (index.erase key).keys := by
  rw [AList.keys_erase,List.cons_perm_iff_perm_erase]
  exact and_iff_right (AList.mem_keys.mp present)

abbrev Index := AList (fun _ : Str => Project)

def Index.records (index : Index) : List Project := index.entries.map Sigma.snd

theorem remainingSnoc (projects : List Project) (p : Project) :
    remainingOf (projects ++ [p]) = (remainingOf projects).insert p.name p := by
  simp [remainingOf]

theorem memRemaining {projects : List Project} {name : Str} :
    name ∈ remainingOf projects ↔ name ∈ projects.map Project.name := by
  induction projects using List.reverseRecOn with
  | nil => simp [remainingOf]
  | append_singleton projects p ih => rw [remainingSnoc,AList.mem_insert,ih]; simp [or_comm]

theorem remainingKeys (projects : List Project) :
    (remainingOf projects).keys.Perm (projects.map Project.name).dedup := by
  refine (List.perm_ext_iff_of_nodup (AList.keys_nodup _) (List.nodup_dedup _)).mpr (fun name => ?_)
  rw [List.mem_dedup,← AList.mem_keys,memRemaining]

theorem remainingRecords {projects : List Project} (distinct : (projects.map Project.name).Nodup) :
    (Index.records (remainingOf projects)).Perm projects := by
  induction projects using List.reverseRecOn with
  | nil => simp [Index.records,remainingOf]
  | append_singleton projects p ih =>
    rw [List.map_append,List.nodup_append] at distinct
    obtain ⟨before,_,apart⟩ := distinct
    have fresh : p.name ∉ remainingOf projects := fun inside =>
      apart p.name (memRemaining.mp inside) p.name (by simp) rfl
    rw [remainingSnoc,Index.records,AList.entries_insert_of_notMem fresh,List.map_cons]
    exact ((ih before).cons p).trans (List.perm_append_singleton p projects).symm

theorem lookupKeys (index : Index) : index.keys.filterMap (fun name => index.lookup name) = index.records := by
  have each : ∀ entry ∈ index.entries, index.lookup entry.1 = some entry.2 := fun entry inside =>
    AList.mem_lookup_iff.mpr inside
  simp only [AList.keys,List.keys,Index.records,List.filterMap_map]
  rw [← List.filterMap_eq_map]
  exact List.filterMap_congr (fun entry inside => by simpa using each entry inside)

theorem reorderLoopExact {names : List Str} {index : Index} {ordered out : List Project} :
    (∃ rest, reorderLoop names index ordered = .ok (out,rest) ∧ rest.entries = []) ↔
      names.Perm index.keys ∧ out = ordered ++ names.filterMap (fun name => index.lookup name) := by
  induction names generalizing index ordered with
  | nil =>
    have empty : index.entries = [] ↔ List.Perm [] index.keys := by
      simp [AList.keys,List.keys]
    simp only [reorderLoop,Except.ok.injEq,Prod.mk.injEq,List.filterMap_nil,List.append_nil,← empty]
    constructor
    · rintro ⟨_,⟨rfl,rfl⟩,done⟩; exact ⟨done,rfl⟩
    · rintro ⟨done,rfl⟩; exact ⟨index,⟨rfl,rfl⟩,done⟩
  | cons name names ih =>
    cases found : index.lookup name with
    | none =>
      have absent := AList.mem_keys.not.mp (AList.lookup_eq_none.mp found)
      simp only [reorderLoop,found,reduceCtorEq,false_and,exists_false,false_iff,not_and]
      exact fun same => absurd (same.subset List.mem_cons_self) absent
    | some p =>
      have present : name ∈ index := AList.lookup_isSome.mp (by rw [found]; rfl)
      simp only [reorderLoop,found]
      have later : names.Perm (index.erase name).keys →
          names.filterMap (fun n => (index.erase name).lookup n) = names.filterMap (fun n => index.lookup n) :=
        fun same => List.filterMap_congr (fun n inside =>
          AList.lookup_erase_ne (AList.mem_erase.mp (AList.mem_keys.mpr (same.subset inside))).1)
      rw [ih,consKeys present]
      refine and_congr_right (fun same => ?_)
      rw [later same,List.append_assoc,List.filterMap_cons,found,List.singleton_append]

section Calls
variable {sys : System} {io : Disk} {stored : List Project} {names : List Str}

theorem reorderOk {answer : List Project} :
    (reorder sys io stored names).answer = .ok answer →
      names.Perm (stored.map Project.name).dedup ∧
      (reorder sys io stored names).stored = names.filterMap (fun name => (remainingOf stored).lookup name) := by
  intro ok
  have loaded := loadingOk ok
  rw [reorder,loaded] at ok ⊢
  cases walked : reorderLoop names (remainingOf stored) [] with
  | error err => simp [walked,refuse] at ok
  | ok result =>
    obtain ⟨ordered,rest⟩ := result
    simp only [walked] at ok ⊢
    by_cases left : rest.entries ≠ []
    · simp [left,refuse] at ok
    · rw [if_neg left] at ok ⊢
      obtain ⟨same,out⟩ := reorderLoopExact.mp ⟨rest,walked,not_not.mp left⟩
      exact ⟨same.trans (remainingKeys stored),(saveOk ok).2.trans out⟩

theorem reorderSaves {answer : List Project} (ok : (reorder sys io stored names).answer = .ok answer) :
    io.saveFault = none := by
  have loaded := loadingOk ok
  rw [reorder,loaded] at ok
  split at ok
  · simp [refuse] at ok
  · split at ok
    · simp [refuse] at ok
    · cases fault : io.saveFault with
      | none => rfl
      | some err => simp [save,fault] at ok

theorem reorderAccepts (complete : names.Perm (stored.map Project.name).dedup) (loads : io.loadFault = none)
    (saves : io.saveFault = none) : ∃ answer, (reorder sys io stored names).answer = .ok answer := by
  have same := complete.trans (remainingKeys stored).symm
  obtain ⟨rest,walked,left⟩ := reorderLoopExact.mpr ⟨same,(List.nil_append _).symm⟩
  simp [reorder,loading,load,loads,walked,left,save,saves]

theorem reorderPerm {answer : List Project} (distinct : (stored.map Project.name).Nodup)
    (ok : (reorder sys io stored names).answer = .ok answer) :
    (reorder sys io stored names).stored.Perm stored := by
  obtain ⟨same,written⟩ := reorderOk ok
  have order := (same.trans (remainingKeys stored).symm).filterMap (fun name => (remainingOf stored).lookup name)
  rw [written]
  exact order.trans (lookupKeys (remainingOf stored) ▸ remainingRecords distinct)

end Calls

def Settled (stored : List Project) (out : Outcome (List Project)) : Prop :=
  match out.answer with
  | .error _ => out.stored = stored
  | .ok _ => out.stored.Perm stored

/-- Reordering settles unless two records share a name, the request names every
name once and the file can be read and replaced: then one of the two is lost. -/
theorem reorderSettles (sys : System) (io : Disk) (stored : List Project) (names : List Str) :
    Settled stored (reorder sys io stored names) ↔
      (stored.map Project.name).Nodup ∨ ¬ names.Perm (stored.map Project.name).dedup ∨
        io.loadFault ≠ none ∨ io.saveFault ≠ none := by
  cases answered : (reorder sys io stored names).answer with
  | error err =>
    simp only [Settled,answered,reorderCareful names err answered,true_iff]
    by_cases complete : names.Perm (stored.map Project.name).dedup
    · refine Or.inr (Or.inr ?_)
      by_contra fine
      obtain ⟨loads,saves⟩ := not_or.mp fine
      obtain ⟨answer,ok⟩ : ∃ answer, (reorder sys io stored names).answer = .ok answer :=
        reorderAccepts complete (not_not.mp loads) (not_not.mp saves)
      rw [answered] at ok
      contradiction
    · exact Or.inr (Or.inl complete)
  | ok answer =>
    simp only [Settled,answered]
    obtain ⟨complete,written⟩ := reorderOk answered
    constructor
    · intro kept
      refine Or.inl (List.dedup_eq_self.mp ((List.dedup_sublist _).eq_of_length_le ?_))
      calc (stored.map Project.name).length
          = (reorder sys io stored names).stored.length := by rw [List.length_map,kept.length_eq]
        _ ≤ names.length := by rw [written]; exact List.length_filterMap_le _ _
        _ = (stored.map Project.name).dedup.length := complete.length_eq
    · intro condition
      rcases condition with distinct | incomplete | unreadable | unwritable
      · exact reorderPerm distinct answered
      · exact absurd complete incomplete
      · cases fault : io.loadFault with
        | none => exact absurd fault unreadable
        | some err => simp [reorder,loading,load,fault,refuse] at answered
      · exact absurd (reorderSaves answered) unwritable

def twin (path : String) : Project :=
  ⟨"infra".toList,path.toList,[],[],[],⟨"prod-us-west".toList,"api".toList,true,[]⟩,⟨[]⟩⟩

theorem reorderDropsTwin :
    (reorder .plain .sound [twin "/work/one",twin "/work/two"] ["infra".toList]).stored = [twin "/work/two"] ∧
      ¬ Settled [twin "/work/one",twin "/work/two"]
        (reorder .plain .sound [twin "/work/one",twin "/work/two"] ["infra".toList]) :=
  ⟨by decide,fun kept => absurd (List.Perm.length_eq kept) (by decide)⟩

end M6t.Reorder
