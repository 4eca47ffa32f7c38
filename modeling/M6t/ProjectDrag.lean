import M6t.Reorder
import M6t.Workbench

/-! Dragging a tab of the project strip: the order a drop settles on, the list drawn at once
and the registry's answer to it. -/
namespace M6t.ProjectDrag
open M6t.Text M6t.Fault M6t.Registry

section Moved
variable {α : Type} {l : List α} {i j : Nat}

def moved (l : List α) (i j : Nat) : List α :=
  match l[i]? with
  | none => l
  | some a => (l.eraseIdx i).insertIdx j a

theorem movedAt {a : α} (here : l[i]? = some a) : moved l i j = (l.eraseIdx i).insertIdx j a := by
  simp [moved,here]

theorem takenPerm {a : α} (here : l[i]? = some a) : (a :: l.eraseIdx i).Perm l := by
  obtain ⟨bound,same⟩ := List.getElem?_eq_some_iff.mp here
  have parts := List.insertIdx_eraseIdx_getElem bound
  rw [same] at parts
  have left : i ≤ (l.eraseIdx i).length := by
    rw [List.length_eraseIdx_of_lt bound]
    omega
  calc (a :: l.eraseIdx i).Perm ((l.eraseIdx i).insertIdx i a) := (List.perm_insertIdx a _ left).symm
    _ = l := parts

theorem movedPerm (inside : i < l.length) (target : j < l.length) : (moved l i j).Perm l := by
  have here : l[i]? = some l[i] := List.getElem?_eq_getElem inside
  have room : j ≤ (l.eraseIdx i).length := by
    rw [List.length_eraseIdx_of_lt inside]
    omega
  rw [movedAt here]
  exact (List.perm_insertIdx _ _ room).trans (takenPerm here)

theorem movedLands (inside : i < l.length) (target : j < l.length) : (moved l i j)[j]? = l[i]? := by
  have here : l[i]? = some l[i] := List.getElem?_eq_getElem inside
  have room : j ≤ (l.eraseIdx i).length := by
    rw [List.length_eraseIdx_of_lt inside]
    omega
  rw [movedAt here,here,List.getElem?_insertIdx_self,if_pos room]

theorem insertedErased [BEq α] [LawfulBEq α] {a : α} (outside : a ∉ l) : (l.insertIdx j a).erase a = l := by
  induction l generalizing j with
  | nil => cases j <;> simp
  | cons b l ih =>
    obtain ⟨other,outside⟩ := not_or.mp (mt List.mem_cons.mpr outside)
    cases j with
    | zero => simp
    | succ j => rw [List.insertIdx_succ_cons,List.erase_cons_tail (by simpa using Ne.symm other),ih outside]

theorem movedRest [BEq α] [LawfulBEq α] {a : α} (distinct : l.Nodup) (here : l[i]? = some a) :
    (moved l i j).erase a = l.erase a := by
  have outside : a ∉ l.eraseIdx i :=
    (List.nodup_cons.mp ((takenPerm here).symm.nodup distinct)).1
  have first : l.idxOf a = i := by
    obtain ⟨bound,same⟩ := List.getElem?_eq_some_iff.mp here
    rw [← same]
    exact List.Nodup.idxOf_getElem distinct i bound
  rw [movedAt here,insertedErased outside,List.erase_eq_eraseIdx_of_idxOf first]

end Moved

structure Sortable where
  arrayMove : List Str → Nat → Nat → List Str
  moves : ∀ names i j, i < names.length → j < names.length → arrayMove names i j = moved names i j

def Sortable.plain : Sortable := ⟨moved,fun _ _ _ _ _ => rfl⟩

def orderAfterDrag (kit : Sortable) (names : List Str) (active : Str) (over_ : Option Str) : Option (List Str) :=
  match over_ with
  | none => none
  | some over_ =>
    if active = over_ then none
    else if active ∉ names ∨ over_ ∉ names then none
    else some (kit.arrayMove names (names.idxOf active) (names.idxOf over_))

def orderProjects (projects : List Project) (names : List Str) : List Project :=
  let named := names.filterMap (fun name => projects.findIdx? (fun p => p.name = name))
  -- two records of one name are two objects, so the rest is told by index
  let rest := (List.range projects.length).filter (fun index => index ∉ named)
  (named ++ rest).filterMap (fun index => projects[index]?)

theorem namedAt {projects : List Project} {name : Str} {index : Nat}
    (found : projects.findIdx? (fun p => p.name = name) = some index) :
    ∃ p, projects[index]? = some p ∧ p.name = name := by
  obtain ⟨bound,same,-⟩ := List.findIdx?_eq_some_iff_getElem.mp found
  exact ⟨_,List.getElem?_eq_getElem bound,by simpa using same⟩

theorem rangeAt (projects : List Project) :
    (List.range projects.length).filterMap (fun index => projects[index]?) = projects := by
  induction projects with
  | nil => rfl
  | cons p rest ih =>
    rw [List.length_cons,List.range_succ_eq_map]
    simpa [List.filterMap_map,Function.comp_def] using ih

theorem orderKeeps {projects : List Project} {names : List Str} (distinct : names.Nodup) :
    (orderProjects projects names).Perm projects := by
  have apart : (names.filterMap (fun name => projects.findIdx? (fun p => p.name = name))).Nodup := by
    refine distinct.filterMap (fun name other index one two => ?_)
    obtain ⟨p,here,same⟩ := namedAt one
    obtain ⟨q,there,alike⟩ := namedAt two
    rw [here] at there
    cases there
    exact same.symm.trans alike
  have inside : ∀ index ∈ names.filterMap (fun name => projects.findIdx? (fun p => p.name = name)),
      index ∈ List.range projects.length := by
    intro index member
    obtain ⟨name,_,found⟩ := List.mem_filterMap.mp member
    obtain ⟨bound,-⟩ := List.findIdx?_eq_some_iff_getElem.mp found
    exact List.mem_range.mpr bound
  have indices : (names.filterMap (fun name => projects.findIdx? (fun p => p.name = name)) ++
      (List.range projects.length).filter (fun index =>
        index ∉ names.filterMap (fun name => projects.findIdx? (fun p => p.name = name)))).Perm
      (List.range projects.length) := by
    refine (List.perm_ext_iff_of_nodup ?_ List.nodup_range).mpr (fun index => ?_)
    · refine List.nodup_append.mpr ⟨apart,List.nodup_range.filter _,fun index named other rest same => ?_⟩
      have free := (List.mem_filter.mp rest).2
      simp only [decide_eq_true_eq] at free
      exact free (same ▸ named)
    · rw [List.mem_append,List.mem_filter,decide_eq_true_eq]
      constructor
      · rintro (named | free)
        · exact inside index named
        · exact free.1
      · intro there
        by_cases named : index ∈ names.filterMap (fun name => projects.findIdx? (fun p => p.name = name))
        · exact Or.inl named
        · exact Or.inr ⟨there,named⟩
  have kept := indices.filterMap (fun index => projects[index]?)
  rwa [rangeAt] at kept

theorem sameNames {l a b : List Project} (distinct : (l.map Project.name).Nodup) (one : a.Perm l) (two : b.Perm l)
    (alike : a.map Project.name = b.map Project.name) : a = b := by
  refine List.ext_getElem? (fun i => ?_)
  have at_ : (a.map Project.name)[i]? = (b.map Project.name)[i]? := by rw [alike]
  rw [List.getElem?_map,List.getElem?_map] at at_
  cases here : a[i]? with
  | none =>
    rw [here] at at_
    exact (Option.map_eq_none_iff.mp at_.symm).symm
  | some p =>
    rw [here] at at_
    obtain ⟨q,there,same⟩ := Option.map_eq_some_iff.mp at_.symm
    have inject := List.inj_on_of_nodup_map distinct (one.subset (List.mem_of_getElem? here))
      (two.subset (List.mem_of_getElem? there)) same.symm
    rw [there,inject]

theorem orderNames {projects : List Project} {names : List Str} (distinct : (projects.map Project.name).Nodup)
    (complete : names.Perm (projects.map Project.name)) : (orderProjects projects names).map Project.name = names := by
  have kept : (orderProjects projects names).Perm projects := orderKeeps (complete.symm.nodup distinct)
  have named : ((names.filterMap (fun name => projects.findIdx? (fun p => p.name = name))).filterMap
      (fun index => projects[index]?)).map Project.name = names := by
    rw [List.filterMap_filterMap,List.map_filterMap]
    rw [List.filterMap_congr (g := some)]
    · exact List.filterMap_some
    · intro name member
      obtain ⟨p,inside,same⟩ := List.mem_map.mp (complete.subset member)
      cases found : projects.findIdx? (fun p => p.name = name) with
      | none => exact absurd same (by simpa using List.findIdx?_eq_none_iff.mp found p inside)
      | some index =>
        obtain ⟨q,here,called⟩ := namedAt found
        simp [here,called]
  -- everything is named, so nothing is left to follow
  have count := congrArg List.length named
  have size := kept.length_eq
  simp only [orderProjects,List.filterMap_append,List.length_append] at size
  rw [List.length_map] at count
  rw [complete.length_eq,List.length_map] at count
  have rest := List.eq_nil_of_length_eq_zero (Nat.add_left_cancel ((count ▸ size).trans (Nat.add_zero _).symm))
  simp only [orderProjects,List.filterMap_append,rest,List.append_nil,named]

structure Window where
  list : List Project
  activeName : Option Str
  error : Option Failure
  deriving DecidableEq

def row (p : Project) : Workbench.Project := ⟨p.name,p.path⟩

def Window.listed (w : Window) : Answer (List Project) → Window
  | .ok projects =>
      { w with
        list := projects
        activeName := Workbench.selectionAfterReload (projects.map row) w.activeName
        error := none }
  | .error err => { w with error := some err }

/-- A move from the drop to the last word on it: `again` is the file as the reload
after a refusal meets it. -/
def move (sys : System) (io again : Disk) (stored : List Project) (w : Window) (names : List Str) : Window × List Project :=
  let ordered := orderProjects w.list names
  let out := reorder sys io stored (ordered.map Project.name)
  match out.answer with
  | .ok projects => ({ w with list := projects },out.stored)
  | .error err => ({ ({ w with list := ordered } : Window).listed (list sys again out.stored) with error := some err },out.stored)

def settle (kit : Sortable) (sys : System) (io again : Disk) (stored : List Project) (w : Window) (active : Str)
    (over_ : Option Str) : Window × List Project :=
  match orderAfterDrag kit (w.list.map Project.name) active over_ with
  | none => (w,stored)
  | some names => move sys io again stored w names

def Window.Shows (sys : System) (w : Window) (stored : List Project) : Prop := w.list = stored.map (resolved sys.home)

theorem reorderAnswers {sys : System} {io : Disk} {stored answer : List Project} {names : List Str}
    (ok : (reorder sys io stored names).answer = .ok answer) :
    answer = (reorder sys io stored names).stored.map (resolved sys.home) := by
  have loaded := loadingOk ok
  rw [reorder,loaded] at ok ⊢
  cases walked : reorderLoop names (remainingOf stored) [] with
  | error err => simp [walked,refuse] at ok
  | ok result =>
    obtain ⟨ordered,rest⟩ := result
    simp only [walked] at ok ⊢
    by_cases left : rest.entries ≠ []
    · simp [left,refuse] at ok
    · rw [if_neg left] at ok ⊢
      obtain ⟨same,written⟩ := saveOk ok
      rw [same,written]

theorem remainingNamed {projects : List Project} {name : Str} {p : Project}
    (found : (remainingOf projects).lookup name = some p) : p.name = name := by
  induction projects using List.reverseRecOn with
  | nil => simp [remainingOf] at found
  | append_singleton projects q ih =>
    rw [Reorder.remainingSnoc] at found
    by_cases last : name = q.name
    · subst last
      rw [AList.lookup_insert] at found
      cases found
      rfl
    · rw [AList.lookup_insert_ne last] at found
      exact ih found

theorem reorderNames {sys : System} {io : Disk} {stored answer : List Project} {names : List Str}
    (ok : (reorder sys io stored names).answer = .ok answer) :
    (reorder sys io stored names).stored.map Project.name = names := by
  obtain ⟨complete,written⟩ := Reorder.reorderOk ok
  rw [written,List.map_filterMap]
  refine (List.filterMap_congr (fun name member => ?_)).trans List.filterMap_some
  have known := Reorder.memRemaining.mpr (List.mem_dedup.mp (complete.subset member))
  obtain ⟨p,found⟩ := Option.isSome_iff_exists.mp (AList.lookup_isSome.mpr known)
  rw [found,Option.map_some,remainingNamed found]

section Moves
variable {sys : System} {io again : Disk} {stored : List Project} {w : Window} {names : List Str}

theorem moveAccepted {projects : List Project}
    (ok : (reorder sys io stored ((orderProjects w.list names).map Project.name)).answer = .ok projects) :
    move sys io again stored w names =
      ({ w with list := projects },(reorder sys io stored ((orderProjects w.list names).map Project.name)).stored) := by
  simp only [move,ok]

theorem moveRefused {err : Failure}
    (refused : (reorder sys io stored ((orderProjects w.list names).map Project.name)).answer = .error err) :
    move sys io again stored w names =
      ({ ({ w with list := orderProjects w.list names } : Window).listed (list sys again stored) with error := some err },
        stored) := by
  simp only [move,refused,reorderCareful _ err refused]

theorem reloadShows (readable : again.loadFault = none) : (w.listed (list sys again stored)).Shows sys stored := by
  simp [Window.Shows,Window.listed,Registry.list,load,readable,Except.map]

theorem moveShows (readable : again.loadFault = none) :
    (move sys io again stored w names).1.Shows sys (move sys io again stored w names).2 := by
  cases answered : (reorder sys io stored ((orderProjects w.list names).map Project.name)).answer with
  | ok projects =>
    rw [moveAccepted answered]
    exact reorderAnswers answered
  | error err =>
    rw [moveRefused answered]
    exact reloadShows readable

theorem moveKeeps (distinct : (stored.map Project.name).Nodup) : (move sys io again stored w names).2.Perm stored := by
  cases answered : (reorder sys io stored ((orderProjects w.list names).map Project.name)).answer with
  | ok projects =>
    rw [moveAccepted answered]
    exact Reorder.reorderPerm distinct answered
  | error err =>
    rw [moveRefused answered]

theorem resolvedNames (projects : List Project) :
    (projects.map (resolved sys.home)).map Project.name = projects.map Project.name := by
  rw [List.map_map]
  rfl

theorem moveDrawn (distinct : (stored.map Project.name).Nodup) (shown : w.Shows sys stored)
    (complete : names.Perm (stored.map Project.name)) :
    move sys .sound again stored w names =
      ({ w with list := orderProjects w.list names },(reorder sys .sound stored names).stored) ∧
      orderProjects w.list names = (reorder sys .sound stored names).stored.map (resolved sys.home) ∧
      (orderProjects w.list names).map Project.name = names := by
  have listed : (w.list.map Project.name).Nodup := by rwa [shown,resolvedNames]
  have every : names.Perm (w.list.map Project.name) := by rwa [shown,resolvedNames]
  have named := orderNames listed every
  have whole : names.Perm (stored.map Project.name).dedup := by rwa [List.dedup_eq_self.mpr distinct]
  obtain ⟨answer,ok⟩ : ∃ answer, (reorder sys .sound stored names).answer = .ok answer :=
    Reorder.reorderAccepts whole rfl rfl
  have written := reorderAnswers ok
  have same : answer = orderProjects w.list names := by
    refine sameNames listed ?_ (orderKeeps (complete.symm.nodup distinct)) ?_
    · rw [written,shown]
      exact (Reorder.reorderPerm distinct ok).map _
    · rw [written,resolvedNames,named,reorderNames ok]
  refine ⟨?_,same.symm.trans written,named⟩
  rw [moveAccepted (by rw [named]; exact ok),named,same]

theorem dragNames {kit : Sortable} {names : List Str} {active over_ : Str} (dragged : active ∈ names) (target : over_ ∈ names)
    (apart : active ≠ over_) :
    orderAfterDrag kit names active (some over_) = some (moved names (names.idxOf active) (names.idxOf over_)) := by
  have lifted := List.idxOf_lt_length_iff.mpr dragged
  have dropped := List.idxOf_lt_length_iff.mpr target
  simp [orderAfterDrag,apart,dragged,target,kit.moves names _ _ lifted dropped]

end Moves

/-- Whatever the order sent, what is in the file and whether it can be replaced, the strip ends
up showing the file as it then is; with distinct names no project is lost. -/
theorem moveSettles (sys : System) (io again : Disk) (stored : List Project) (w : Window) (names : List Str)
    (readable : again.loadFault = none) :
    (move sys io again stored w names).1.Shows sys (move sys io again stored w names).2 ∧
      ((stored.map Project.name).Nodup → (move sys io again stored w names).2.Perm stored) ∧
      ((∃ err, (move sys io again stored w names).1.error = some err) ∧ (move sys io again stored w names).2 = stored ∨
        (move sys io again stored w names).1.error = w.error ∧
          (move sys io again stored w names).2.map Project.name = (orderProjects w.list names).map Project.name) := by
  refine ⟨moveShows readable,moveKeeps,?_⟩
  cases answered : (reorder sys io stored ((orderProjects w.list names).map Project.name)).answer with
  | ok projects =>
    rw [moveAccepted answered]
    exact Or.inr ⟨rfl,reorderNames answered⟩
  | error err =>
    rw [moveRefused answered]
    exact Or.inl ⟨⟨err,rfl⟩,rfl⟩

theorem dragSettles (kit : Sortable) {sys : System} {again : Disk} {stored : List Project} {w : Window} {active over_ : Str}
    (distinct : (stored.map Project.name).Nodup) (shown : w.Shows sys stored)
    (dragged : active ∈ w.list.map Project.name) (target : over_ ∈ w.list.map Project.name) (apart : active ≠ over_) :
    let before := w.list.map Project.name
    let out := settle kit sys .sound again stored w active (some over_)
    let after := out.1.list.map Project.name
    out.1.Shows sys out.2 ∧ out.2.Perm stored ∧ after[before.idxOf over_]? = some active ∧
      after.erase active = before.erase active ∧
      out.1.list = orderProjects w.list (moved before (before.idxOf active) (before.idxOf over_)) := by
  intro before out after
  have listed : before.Nodup := by
    show (w.list.map Project.name).Nodup
    rwa [shown,resolvedNames]
  have lifted := List.idxOf_lt_length_iff.mpr dragged
  have dropped := List.idxOf_lt_length_iff.mpr target
  have here : before[before.idxOf active]? = some active := by
    rw [List.getElem?_eq_getElem lifted,List.getElem_idxOf]
  have complete : (moved before (before.idxOf active) (before.idxOf over_)).Perm (stored.map Project.name) := by
    have same : before = stored.map Project.name := by
      show w.list.map Project.name = _
      rw [shown,resolvedNames]
    rw [← same]
    exact movedPerm lifted dropped
  obtain ⟨drawn,shows,named⟩ := @moveDrawn sys again stored w _ distinct shown complete
  have settled : out = move sys .sound again stored w (moved before (before.idxOf active) (before.idxOf over_)) := by
    show settle kit sys .sound again stored w active (some over_) = _
    rw [settle,dragNames dragged target apart]
  have order : after = moved before (before.idxOf active) (before.idxOf over_) := by
    show out.1.list.map Project.name = _
    rw [settled,drawn]
    exact named
  refine ⟨?_,?_,?_,?_,?_⟩
  · rw [settled,drawn]
    exact shows
  · rw [settled]
    exact moveKeeps distinct
  · rw [order,movedLands lifted dropped,here]
  · rw [order,movedRest listed here]
  · rw [settled,drawn]

def tab (name : String) : Project :=
  ⟨name.toList,("/work/" ++ name).toList,[],[],[],⟨"prod".toList,"api".toList,true,[]⟩,⟨[]⟩⟩

def strip (names : List String) : Window := ⟨(names.map tab).map (resolved System.plain.home),none,none⟩

theorem staleSettles :
    (Disk.sound.loadFault = none) ∧
    (move .plain ⟨none,some ⟨[],.system "disk full"⟩⟩ .sound [tab "docs",tab "infra"] (strip ["infra","web"])
      ["web".toList,"infra".toList]).1.Shows .plain
      (move .plain ⟨none,some ⟨[],.system "disk full"⟩⟩ .sound [tab "docs",tab "infra"] (strip ["infra","web"])
        ["web".toList,"infra".toList]).2 :=
  ⟨rfl,(moveSettles .plain ⟨none,some ⟨[],.system "disk full"⟩⟩ .sound [tab "docs",tab "infra"] (strip ["infra","web"])
    ["web".toList,"infra".toList] rfl).1⟩

theorem webSettles :
    let out := settle .plain .plain .sound .sound [tab "docs",tab "infra",tab "web"] (strip ["docs","infra","web"])
      "web".toList (some "docs".toList)
    out.1.Shows .plain out.2 ∧ (out.1.list.map Project.name)[0]? = some "web".toList := by
  have settled := @dragSettles .plain .plain .sound [tab "docs",tab "infra",tab "web"] (strip ["docs","infra","web"])
    "web".toList "docs".toList (by decide) rfl (by decide) (by decide) (by decide)
  exact ⟨settled.1,settled.2.2.1⟩

end M6t.ProjectDrag
