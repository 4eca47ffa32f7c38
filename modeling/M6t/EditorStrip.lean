import M6t.Editor
import M6t.Runs
import Mathlib.Data.List.TakeWhile
import Mathlib.Data.List.Perm.Basic

/-! The editor strip across all projects: the tabs as every queued update leaves
them, the tabs as the last render drew them, and the strip the handlers read,
which an effect of a render sets. A read started by `open` or `restore` is in
flight until its answer lands. -/
namespace M6t.EditorStrip
open M6t.Text M6t.Editor M6t.Runs

def tabsForProject (tabs : List EditorTab) : Option Str → List EditorTab
  | none => []
  | some project => tabs.filter (fun tab => tab.project = project)

def findTabKey (tabs : List EditorTab) (project path : Str) : Option Nat :=
  (tabs.find? (fun tab => tab.project = project ∧ tab.path = path)).map EditorTab.key

def mapTab (tabs : List EditorTab) (key : Nat) (transform : EditorTab → EditorTab) : List EditorTab :=
  tabs.map (fun tab => if tab.key = key then transform tab else tab)

def removeTab (tabs : List EditorTab) (key : Nat) : List EditorTab := tabs.filter (fun tab => tab.key ≠ key)

def selectionAfterClose (tabs : List EditorTab) (key : Nat) (active : Option Nat) : Option Nat :=
  if active ≠ some key then active
  else
    match tabs.findIdx? (fun tab => tab.key = key) with
    | none => active
    | some index =>
      let remaining := removeTab tabs key
      (remaining[min index (remaining.length - 1)]?).map EditorTab.key

structure RestoredEditor where
  path : Str
  mode : EditorMode
  deriving DecidableEq, Repr

structure RestoredEditors where
  files : List RestoredEditor
  active : Option Str
  deriving DecidableEq, Repr

/-- One call of `restore`: the files still to be looked at, the tabs it has
opened, and the read it waits for with the key set aside for it. With none it
has resolved. -/
structure Restore where
  project : Str
  root : Str
  files : List RestoredEditor
  active : Option Str
  opened : List (Nat × Str)
  reading : Option (Nat × RestoredEditor)
  deriving DecidableEq, Repr

structure Load where
  key : Nat
  root : Str
  path : Str
  deriving DecidableEq, Repr

abbrev Selections := List (Str × Option Nat)

def select (active : Selections) (project : Str) (key : Option Nat) : Selections :=
  (project,key) :: active.filter (fun entry => entry.1 ≠ project)

def selected (active : Selections) (project : Str) : Option Nat := (active.lookup project).join

structure Strip where
  tabs : List EditorTab
  rendered : List EditorTab
  shown : List EditorTab
  keys : Nat
  activeByProject : Selections
  loads : List Load
  restores : List Restore
  deriving DecidableEq, Repr

def Strip.empty : Strip := ⟨[],[],[],0,[],[],[]⟩

def finish (s : Strip) (project : Str) (active : Option Str) (opened : List (Nat × Str)) : Strip :=
  match (opened.find? (fun tab => some tab.2 = active)).or opened.head? with
  | none => s
  | some focus => { s with activeByProject := select s.activeByProject project (some focus.1) }

def resume (s : Strip) (r : Restore) : Strip × Restore :=
  match r.files.dropWhile (fun file => (findTabKey s.shown r.project file.path).isSome) with
  | [] => (finish s r.project r.active r.opened,{ r with files := [], reading := none })
  | file :: files => ({ s with keys := s.keys + 1 },{ r with files, reading := some (s.keys + 1,file) })

def begin_ (s : Strip) (project root : Str) (saved : RestoredEditors) : Strip :=
  let (t,r) := resume s ⟨project,root,saved.files,saved.active,[],none⟩
  { t with restores := t.restores ++ [r] }

def opens (s : Strip) (project root path : Str) : Strip :=
  match findTabKey s.shown project path with
  | some existing => { s with activeByProject := select s.activeByProject project (some existing) }
  | none =>
    let key := s.keys + 1
    { s with
      keys := key
      tabs := s.tabs ++ [newTab key project root path (kindFromIcon (iconKind path false))]
      activeByProject := select s.activeByProject project (some key)
      loads := s.loads ++ [⟨key,root,path⟩] }

def close (s : Strip) (key : Nat) : Strip :=
  let active :=
    match s.shown.find? (fun tab => tab.key = key) with
    | none => s.activeByProject
    | some closing =>
      let siblings := tabsForProject s.shown (some closing.project)
      select s.activeByProject closing.project
        (selectionAfterClose siblings key (selected s.activeByProject closing.project))
  { s with tabs := removeTab s.tabs key, activeByProject := active }

def closeProject (s : Strip) (project : Str) : Strip :=
  { s with
    tabs := s.tabs.filter (fun tab => tab.project ≠ project)
    activeByProject := s.activeByProject.filter (fun entry => entry.1 ≠ project) }

def restored (key : Nat) (project root : Str) (file : RestoredEditor) (content : FileContent) : EditorTab :=
  withMode (withLoaded (newTab key project root file.path (kindFromIcon (iconKind file.path false))) content) file.mode

inductive Event
  | open_ (project root path : Str)
  | restore (project root : Str) (saved : RestoredEditors)
  | close (key : Nat)
  | closeProject (project : Str)
  | select (project : Str) (key : Nat)
  | setMode (key : Nat) (mode : EditorMode)
  | loaded (i : Nat) (content : FileContent)
  | loadFailed (i : Nat) (message : Str)
  | restoreRead (i : Nat) (content : FileContent)
  | restoreFailed (i : Nat)
  | resolved (i : Nat)
  | render
  | effect
  deriving DecidableEq, Repr

def step (s : Strip) : Event → Option Strip
  | .open_ project root path => some (opens s project root path)
  | .restore project root saved => some (begin_ s project root saved)
  | .close key => some (close s key)
  | .closeProject project => some (closeProject s project)
  | .select project key => some { s with activeByProject := select s.activeByProject project (some key) }
  | .setMode key mode => some { s with tabs := mapTab s.tabs key (fun tab => withMode tab mode) }
  | .loaded i content =>
    (s.loads[i]?).map (fun load =>
      { s with tabs := mapTab s.tabs load.key (fun tab => withLoaded tab content), loads := s.loads.eraseIdx i })
  | .loadFailed i message =>
    (s.loads[i]?).map (fun load =>
      { s with tabs := mapTab s.tabs load.key (fun tab => withError tab message), loads := s.loads.eraseIdx i })
  | .restoreRead i content =>
    match s.restores[i]? with
    | some ⟨project,root,files,active,opened,some (key,file)⟩ =>
      let t := { s with tabs := s.tabs ++ [restored key project root file content] }
      let (u,r) := resume t ⟨project,root,files,active,opened ++ [(key,file.path)],none⟩
      some { u with restores := u.restores.set i r }
    | _ => none
  | .restoreFailed i =>
    match s.restores[i]? with
    | some ⟨project,root,files,active,opened,some _⟩ =>
      let (u,r) := resume s ⟨project,root,files,active,opened,none⟩
      some { u with restores := u.restores.set i r }
    | _ => none
  | .resolved i =>
    match s.restores[i]? with
    | some ⟨_,_,_,_,_,none⟩ => some { s with restores := s.restores.eraseIdx i }
    | _ => none
  | .render => some { s with rendered := s.tabs }
  | .effect => some { s with shown := s.rendered }

def place (tab : EditorTab) : Str × Str := (tab.project,tab.path)

def Restore.awaits (r : Restore) : Option (Str × Str) := r.reading.map (fun read => (r.project,read.2.path))

def places (s : Strip) : List (Str × Str) := s.tabs.map place ++ s.restores.filterMap Restore.awaits

def nextFile (s : Strip) (project : Str) (files : List RestoredEditor) : Option (Str × Str) :=
  (files.find? (fun file => (findTabKey s.shown project file.path).isNone)).map (fun file => (project,file.path))

/-- A file is asked for only where the strip the handlers read is not missing a
tab of it and no other restore is reading it; a project is closed only with no
restore of it waiting for a read. -/
def Lagless (s : Strip) : Event → Prop
  | .open_ project _ path => findTabKey s.shown project path = none → (project,path) ∉ places s
  | .restore project _ saved => ∀ file ∈ nextFile s project saved.files, file ∉ places s
  | .restoreRead i _ => ∀ r ∈ s.restores[i]?, ∀ file ∈ nextFile s r.project r.files, file ∉ places s
  | .restoreFailed i =>
    ∀ r ∈ s.restores[i]?, ∀ file ∈ nextFile s r.project r.files,
      file ∉ places { s with restores := s.restores.eraseIdx i }
  | .closeProject project => ∀ r ∈ s.restores, r.project = project → r.reading = none
  | _ => True
instance (s e) : Decidable (Lagless s e) := by
  cases e <;> unfold Lagless <;> infer_instance

theorem resumeStays (s : Strip) (r : Restore) :
    (resume s r).1.tabs = s.tabs ∧ (resume s r).1.restores = s.restores ∧ (resume s r).2.project = r.project := by
  unfold resume finish
  split
  · split <;> exact ⟨rfl,rfl,rfl⟩
  · exact ⟨rfl,rfl,rfl⟩

theorem resumeAwaits (s : Strip) (r : Restore) : (resume s r).2.awaits = nextFile s r.project r.files := by
  have front := List.find?_not_eq_head?_dropWhile (l := r.files) (fun file => (findTabKey s.shown r.project file.path).isSome)
  simp only [Option.not_isSome] at front
  unfold resume nextFile
  rw [front]
  split
  · next none_ => rw [none_]; rfl
  · next file files some_ => rw [some_]; rfl

theorem resumePlaces (s : Strip) (r : Restore) (others : List Restore) :
    (s.tabs.map place ++ ((resume s r).2 :: others).filterMap Restore.awaits).Perm
      ((nextFile s r.project r.files).toList ++ (s.tabs.map place ++ others.filterMap Restore.awaits)) := by
  have awaits := resumeAwaits s r
  cases next : nextFile s r.project r.files with
  | none => simp [awaits,next]
  | some file => simp [awaits,next]

theorem placesWithout {s : Strip} {i : Nat} {r : Restore} (found : s.restores[i]? = some r) :
    (places s).Perm (r.awaits.toList ++ (s.tabs.map place ++ (s.restores.eraseIdx i).filterMap Restore.awaits)) := by
  have bound := (List.getElem?_eq_some_iff.mp found).1
  have same := (List.getElem?_eq_some_iff.mp found).2
  have whole : s.restores.Perm (r :: s.restores.eraseIdx i) := by
    have perm := List.getElem_cons_eraseIdx_perm bound
    rw [same] at perm
    exact perm.symm
  have listed := (whole.filterMap Restore.awaits).append_left (s.tabs.map place)
  refine listed.trans ?_
  cases awaits : r.awaits with
  | none => simp [awaits]
  | some file => simp [awaits]

theorem nextFresh {s : Strip} {project : Str} {files : List RestoredEditor} {l : List (Str × Str)} (nodup : l.Nodup)
    (fresh : ∀ file ∈ nextFile s project files, file ∉ l) : ((nextFile s project files).toList ++ l).Nodup := by
  cases next : nextFile s project files with
  | none => simpa using nodup
  | some file => simpa using ⟨fresh file next,nodup⟩

theorem mapTabPlaces {tabs : List EditorTab} {key : Nat} {f : EditorTab → EditorTab} (same : ∀ tab, place (f tab) = place tab) :
    (mapTab tabs key f).map place = tabs.map place := by
  unfold mapTab
  rw [List.map_map]
  refine List.map_congr_left (fun tab _ => ?_)
  simp only [Function.comp]
  split
  · exact same tab
  · rfl

theorem mappedPlaces {s : Strip} {key : Nat} {f : EditorTab → EditorTab} {loads : List Load}
    (same : ∀ tab, place (f tab) = place tab) (nodup : (places s).Nodup) :
    (places { s with tabs := mapTab s.tabs key f, loads }).Nodup := by
  show ((mapTab s.tabs key f).map place ++ s.restores.filterMap Restore.awaits).Nodup
  rw [mapTabPlaces same]
  exact nodup

theorem placesFewer {s t : Strip} (nodup : (places s).Nodup) (tabs : t.tabs.Sublist s.tabs)
    (restores : t.restores.Sublist s.restores) : (places t).Nodup :=
  nodup.sublist ((tabs.map place).append (restores.filterMap Restore.awaits))

theorem setPlaces {s : Strip} {i : Nat} {r next : Restore} (found : s.restores[i]? = some r) (tabs : List EditorTab) :
    (tabs.map place ++ (s.restores.set i next).filterMap Restore.awaits).Perm
      (tabs.map place ++ (next :: s.restores.eraseIdx i).filterMap Restore.awaits) := by
  have bound := (List.getElem?_eq_some_iff.mp found).1
  exact ((List.set_perm_cons_eraseIdx bound next).filterMap Restore.awaits).append_left _

theorem opensPlaces {s : Strip} {project root path : Str} (nodup : (places s).Nodup)
    (allowed : Lagless s (.open_ project root path)) : (places (opens s project root path)).Nodup := by
  unfold opens
  split
  · exact nodup
  · next missing =>
    have fresh : (project,path) ∉ places s := allowed missing
    refine (List.Perm.nodup_iff ?_).mpr (List.nodup_cons.mpr ⟨fresh,nodup⟩)
    simp only [places,List.map_append,List.append_assoc]
    exact List.perm_middle

theorem beginPlaces {s : Strip} {project root : Str} {saved : RestoredEditors} (nodup : (places s).Nodup)
    (allowed : Lagless s (.restore project root saved)) : (places (begin_ s project root saved)).Nodup := by
  let r : Restore := ⟨project,root,saved.files,saved.active,[],none⟩
  obtain ⟨tabs,restores,_⟩ := resumeStays s r
  have perm : (places (begin_ s project root saved)).Perm
      ((nextFile s project saved.files).toList ++ places s) := by
    show ((resume s r).1.tabs.map place ++ ((resume s r).1.restores ++ [(resume s r).2]).filterMap Restore.awaits).Perm _
    rw [tabs,restores]
    refine List.Perm.trans ?_ (resumePlaces s r s.restores)
    exact ((List.perm_append_singleton _ _).filterMap Restore.awaits).append_left _
  exact perm.nodup_iff.mpr (nextFresh nodup allowed)

theorem resumedPlaces {s t : Strip} {i : Nat} {old r : Restore} (found : s.restores[i]? = some old)
    (same : t.restores = s.restores)
    (fresh : ((nextFile t r.project r.files).toList ++ places { t with restores := s.restores.eraseIdx i }).Nodup) :
    (places { (resume t r).1 with restores := (resume t r).1.restores.set i (resume t r).2 }).Nodup := by
  obtain ⟨tabs,restores,_⟩ := resumeStays t r
  have perm := (setPlaces found t.tabs).trans (resumePlaces t r (s.restores.eraseIdx i))
  show ((resume t r).1.tabs.map place ++ ((resume t r).1.restores.set i (resume t r).2).filterMap Restore.awaits).Nodup
  rw [tabs,restores,same]
  exact perm.nodup_iff.mpr fresh

theorem readPlaces {s : Strip} {i : Nat} {content : FileContent} {project root : Str} {files : List RestoredEditor}
    {active : Option Str} {opened : List (Nat × Str)} {key : Nat} {file : RestoredEditor} (nodup : (places s).Nodup)
    (found : s.restores[i]? = some ⟨project,root,files,active,opened,some (key,file)⟩)
    (allowed : Lagless s (.restoreRead i content)) :
    let t := { s with tabs := s.tabs ++ [restored key project root file content] }
    let r : Restore := ⟨project,root,files,active,opened ++ [(key,file.path)],none⟩
    (places { (resume t r).1 with restores := (resume t r).1.restores.set i (resume t r).2 }).Nodup := by
  intro t r
  have landed : (t.tabs.map place ++ (s.restores.eraseIdx i).filterMap Restore.awaits).Perm (places s) := by
    refine List.Perm.trans ?_ (placesWithout found).symm
    simp only [t,List.map_append,List.append_assoc]
    exact List.perm_middle
  have fresh := nextFresh (s := s) nodup (allowed _ found)
  exact resumedPlaces found rfl ((landed.append_left _).nodup_iff.mpr fresh)

theorem failedPlaces {s : Strip} {i : Nat} {project root : Str} {files : List RestoredEditor} {active : Option Str}
    {opened : List (Nat × Str)} {read : Nat × RestoredEditor} (nodup : (places s).Nodup)
    (found : s.restores[i]? = some ⟨project,root,files,active,opened,some read⟩) (allowed : Lagless s (.restoreFailed i)) :
    let r : Restore := ⟨project,root,files,active,opened,none⟩
    (places { (resume s r).1 with restores := (resume s r).1.restores.set i (resume s r).2 }).Nodup := by
  intro r
  have rest : (places { s with restores := s.restores.eraseIdx i }).Nodup :=
    placesFewer nodup (List.Sublist.refl _) (List.eraseIdx_sublist _ _)
  have fresh := allowed _ found
  exact resumedPlaces found rfl (nextFresh rest fresh)

theorem placesKept {s t : Strip} {e : Event} (nodup : (places s).Nodup) (allowed : Lagless s e) (taken : step s e = some t) :
    (places t).Nodup := by
  cases e with
  | open_ project root path => cases taken; exact opensPlaces nodup allowed
  | restore project root saved => cases taken; exact beginPlaces nodup allowed
  | close key => cases taken; exact placesFewer nodup List.filter_sublist (List.Sublist.refl _)
  | closeProject project => cases taken; exact placesFewer nodup List.filter_sublist (List.Sublist.refl _)
  | select project key => cases taken; exact nodup
  | setMode key mode =>
    cases taken
    exact mappedPlaces (fun tab => rfl) nodup
  | loaded i content =>
    obtain ⟨load,_,rfl⟩ := Option.map_eq_some_iff.mp taken
    exact mappedPlaces (fun tab => rfl) nodup
  | loadFailed i message =>
    obtain ⟨load,_,rfl⟩ := Option.map_eq_some_iff.mp taken
    exact mappedPlaces (fun tab => rfl) nodup
  | restoreRead i content =>
    simp only [step] at taken
    split at taken
    · next found =>
      cases taken
      exact readPlaces nodup found allowed
    · cases taken
  | restoreFailed i =>
    simp only [step] at taken
    split at taken
    · next found =>
      cases taken
      exact failedPlaces nodup found allowed
    · cases taken
  | resolved i =>
    simp only [step] at taken
    split at taken
    · cases taken
      exact placesFewer nodup (List.Sublist.refl _) (List.eraseIdx_sublist _ _)
    · cases taken
  | render => cases taken; exact nodup
  | effect => cases taken; exact nodup

def asks : Event → Option Str
  | .open_ project _ _ => some project
  | .restore project _ _ => some project
  | _ => none

structure Gone (s : Strip) (project : Str) : Prop where
  tabs : ∀ tab ∈ s.tabs, tab.project ≠ project
  restores : ∀ r ∈ s.restores, r.project = project → r.reading = none

theorem goneNow {s : Strip} {project : Str} (allowed : Lagless s (.closeProject project)) :
    Gone (closeProject s project) project := by
  refine ⟨?_,allowed⟩
  intro tab member
  simpa using (List.mem_filter.mp member).2

theorem goneMapped {s : Strip} {project : Str} {key : Nat} {f : EditorTab → EditorTab} {loads : List Load}
    (same : ∀ tab, (f tab).project = tab.project) (gone : Gone s project) :
    Gone { s with tabs := mapTab s.tabs key f, loads } project := by
  refine ⟨?_,gone.restores⟩
  intro tab member
  obtain ⟨old,there,rfl⟩ := List.mem_map.mp member
  split
  · rw [same]; exact gone.tabs old there
  · exact gone.tabs old there

theorem goneResumed {s t : Strip} {project : Str} {i : Nat} {r : Restore} (gone : Gone s project) (other : r.project ≠ project)
    (restores : t.restores = s.restores) (tabs : ∀ tab ∈ t.tabs, tab.project ≠ project) :
    Gone { (resume t r).1 with restores := (resume t r).1.restores.set i (resume t r).2 } project := by
  obtain ⟨sameTabs,sameRestores,sameProject⟩ := resumeStays t r
  refine ⟨sameTabs ▸ tabs,?_⟩
  show ∀ q ∈ (resume t r).1.restores.set i (resume t r).2,_
  rw [sameRestores,restores]
  intro q member here
  rcases Runs.memSetCases member with rfl | ⟨k,_,old⟩
  · exact absurd (sameProject ▸ here) other
  · exact gone.restores q (List.mem_of_getElem? old) here

theorem goneKept {s t : Strip} {project : Str} {e : Event} (gone : Gone s project) (silent : asks e ≠ some project)
    (taken : step s e = some t) : Gone t project := by
  cases e with
  | open_ asked root path =>
    have other : asked ≠ project := fun same => silent (congrArg some same)
    cases taken
    unfold opens
    split
    · exact ⟨gone.tabs,gone.restores⟩
    · refine ⟨?_,gone.restores⟩
      intro tab member
      rcases List.mem_append.mp member with old | new
      · exact gone.tabs tab old
      · cases List.mem_singleton.mp new
        exact other
  | restore asked root saved =>
    have other : asked ≠ project := fun same => silent (congrArg some same)
    cases taken
    let r : Restore := ⟨asked,root,saved.files,saved.active,[],none⟩
    obtain ⟨sameTabs,sameRestores,sameProject⟩ := resumeStays s r
    refine ⟨?_,?_⟩
    · show ∀ tab ∈ (resume s r).1.tabs,_
      rw [sameTabs]
      exact gone.tabs
    · show ∀ q ∈ (resume s r).1.restores ++ [(resume s r).2],_
      rw [sameRestores]
      intro q member here
      rcases List.mem_append.mp member with old | new
      · exact gone.restores q old here
      · rw [List.mem_singleton.mp new,sameProject] at here
        exact absurd here other
  | close key =>
    cases taken
    exact ⟨fun tab member => gone.tabs tab (List.mem_filter.mp member).1,gone.restores⟩
  | closeProject closed =>
    cases taken
    exact ⟨fun tab member => gone.tabs tab (List.mem_filter.mp member).1,gone.restores⟩
  | select asked key => cases taken; exact ⟨gone.tabs,gone.restores⟩
  | setMode key mode => cases taken; exact goneMapped (fun tab => rfl) gone
  | loaded i content =>
    obtain ⟨load,_,rfl⟩ := Option.map_eq_some_iff.mp taken
    exact goneMapped (fun tab => rfl) gone
  | loadFailed i message =>
    obtain ⟨load,_,rfl⟩ := Option.map_eq_some_iff.mp taken
    exact goneMapped (fun tab => rfl) gone
  | restoreRead i content =>
    simp only [step] at taken
    split at taken
    · next asked root files active opened key file found =>
      have other : asked ≠ project := fun same => nomatch gone.restores _ (List.mem_of_getElem? found) same
      cases taken
      refine goneResumed gone other rfl ?_
      intro tab member
      rcases List.mem_append.mp member with old | new
      · exact gone.tabs tab old
      · cases List.mem_singleton.mp new
        exact other
    · cases taken
  | restoreFailed i =>
    simp only [step] at taken
    split at taken
    · next asked root files active opened read found =>
      have other : asked ≠ project := fun same => nomatch gone.restores _ (List.mem_of_getElem? found) same
      cases taken
      exact goneResumed gone other rfl gone.tabs
    · cases taken
  | resolved i =>
    simp only [step] at taken
    split at taken
    · cases taken
      exact ⟨gone.tabs,fun r member => gone.restores r ((List.eraseIdx_sublist _ _).mem member)⟩
    · cases taken
  | render => cases taken; exact ⟨gone.tabs,gone.restores⟩
  | effect => cases taken; exact ⟨gone.tabs,gone.restores⟩

variable {s : Strip} {es : List Event}

theorem closedStays (run : Run step Lagless Strip.empty es s) {earlier later : List Event} {project : Str}
    (split : es = earlier ++ .closeProject project :: later) (silent : ∀ e ∈ later, asks e ≠ some project) :
    Gone s project := by
  induction run generalizing earlier later with
  | nil => simp at split
  | @snoc es s e t before ok taken ih =>
    rcases splitSnoc split with ⟨rest,rfl,old⟩ | ⟨_,rfl,_⟩
    · have gone := ih old (fun d member => silent d (List.mem_append_left _ member))
      exact goneKept gone (silent e (by simp)) taken
    · cases taken
      exact goneNow ok

theorem stripHoldsEachFileOnce (run : Run step Lagless Strip.empty es s) :
    (s.tabs.map place).Nodup ∧ ∀ earlier later project, es = earlier ++ .closeProject project :: later →
      (∀ e ∈ later, asks e ≠ some project) → ∀ tab ∈ s.tabs, tab.project ≠ project := by
  have nodup : (places s).Nodup :=
    run.invariant (I := fun s => (places s).Nodup) (by simp [places,Strip.empty])
      (fun _ _ _ nodup allowed taken => placesKept nodup allowed taken)
  exact ⟨(List.nodup_append.mp nodup).1,fun earlier later project split silent => (closedStays run split silent).tabs⟩

def saved (paths : List String) : RestoredEditors := ⟨paths.map (fun path => ⟨path.toList,.edit⟩),none⟩

theorem stripHoldsEachFileOnceRestored :
    ∃ s, Run step Lagless Strip.empty
        [.open_ "p".toList "/w".toList "a".toList,.render,.effect,.restore "p".toList "/w".toList (saved ["a","b","c"]),
          .restoreRead 0 (plainText "b"),.open_ "p".toList "/w".toList "d".toList,.loaded 0 (plainText "a"),.restoreFailed 0,
          .resolved 0,.closeProject "p".toList,.open_ "q".toList "/v".toList "a".toList,.loaded 0 (plainText "d")] s ∧
      s.tabs.map place = [("q".toList,"a".toList)] ∧ ∀ tab ∈ s.tabs, tab.project ≠ "p".toList := by
  have ends : (exec (guarded step Lagless) Strip.empty
      [.open_ "p".toList "/w".toList "a".toList,.render,.effect,.restore "p".toList "/w".toList (saved ["a","b","c"]),
        .restoreRead 0 (plainText "b"),.open_ "p".toList "/w".toList "d".toList,.loaded 0 (plainText "a"),.restoreFailed 0,
        .resolved 0,.closeProject "p".toList,.open_ "q".toList "/v".toList "a".toList,.loaded 0 (plainText "d")]).map
        (fun s => s.tabs.map place) = some [("q".toList,"a".toList)] := by decide +kernel
  obtain ⟨s,done,seen⟩ := Option.map_eq_some_iff.mp ends
  refine ⟨s,runOfGuarded done,seen,?_⟩
  exact (stripHoldsEachFileOnce (runOfGuarded done)).2
    [.open_ "p".toList "/w".toList "a".toList,.render,.effect,.restore "p".toList "/w".toList (saved ["a","b","c"]),
      .restoreRead 0 (plainText "b"),.open_ "p".toList "/w".toList "d".toList,.loaded 0 (plainText "a"),.restoreFailed 0,
      .resolved 0]
    [.open_ "q".toList "/v".toList "a".toList,.loaded 0 (plainText "d")] "p".toList rfl (by decide)

/-- A file opened by the user while a restore reads it gets a second tab, and a
project closed in the meantime comes back with it. -/
theorem stripRestoresOver :
    (∃ s, Run step anyStep Strip.empty
        [.restore "p".toList "/w".toList (saved ["a"]),.open_ "p".toList "/w".toList "a".toList,
          .restoreRead 0 (plainText "a")] s ∧ ¬(s.tabs.map place).Nodup) ∧
      ∃ s, Run step anyStep Strip.empty
        [.restore "p".toList "/w".toList (saved ["a"]),.closeProject "p".toList,.restoreRead 0 (plainText "a")] s ∧
        s.tabs.map place = [("p".toList,"a".toList)] := by
  refine ⟨?_,?_⟩
  · have ends : (exec step Strip.empty
        [.restore "p".toList "/w".toList (saved ["a"]),.open_ "p".toList "/w".toList "a".toList,
          .restoreRead 0 (plainText "a")]).map (fun s => decide (s.tabs.map place).Nodup) = some false := by decide +kernel
    obtain ⟨s,done,seen⟩ := Option.map_eq_some_iff.mp ends
    exact ⟨s,runOfExec done,of_decide_eq_false seen⟩
  · have ends : (exec step Strip.empty
        [.restore "p".toList "/w".toList (saved ["a"]),.closeProject "p".toList,.restoreRead 0 (plainText "a")]).map
          (fun s => s.tabs.map place) = some [("p".toList,"a".toList)] := by decide +kernel
    obtain ⟨s,done,seen⟩ := Option.map_eq_some_iff.mp ends
    exact ⟨s,runOfExec done,seen⟩

end M6t.EditorStrip
