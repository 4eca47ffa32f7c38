import M6t.TerminalStrip

/-! One restore of each strip, with nobody else at the strips: what it leaves is
the saved tabs whose files read, in order, with the saved selection. -/
namespace M6t.StripRestore
open M6t.Text M6t.Editor M6t.EditorStrip

structure Plan where
  project : Str
  root : Str
  files : List RestoredEditor
  active : Option Str
  read : Str → Option FileContent

def Plan.readable (p : Plan) (file : RestoredEditor) : Bool := (p.read file.path).isSome

def openedOf (tabs : List EditorTab) : List (Nat × Str) := tabs.map (fun tab => (tab.key,tab.path))

def call (p : Plan) (tabs : List EditorTab) (left : List RestoredEditor) (reading : Option (Nat × RestoredEditor)) : Restore :=
  ⟨p.project,p.root,left,p.active,openedOf tabs,reading⟩

def focusOf (active : Option Str) (tabs : List EditorTab) : Option Nat :=
  ((tabs.find? (fun tab => some tab.path = active)).or tabs.head?).map EditorTab.key

/-- The files looked at so far have their tabs. -/
structure Opened (p : Plan) (seen : List RestoredEditor) (s : Strip) : Prop where
  faces : s.tabs.map (fun tab => (tab.path,tab.mode)) = (seen.filter p.readable).map (fun file => (file.path,file.mode))
  own : ∀ tab ∈ s.tabs, tab.project = p.project
  keys : (s.tabs.map EditorTab.key).Nodup
  bound : ∀ tab ∈ s.tabs, tab.key ≤ s.keys
  rendered : ∀ tab ∈ s.rendered, tab ∈ s.tabs
  shown : ∀ tab ∈ s.shown, tab ∈ s.tabs

structure Waits (p : Plan) (s : Strip) (seen left : List RestoredEditor) (key : Nat) (file : RestoredEditor) : Prop where
  opened : Opened p seen s
  files : p.files = seen ++ file :: left
  restores : s.restores = [call p s.tabs left (some (key,file))]
  fresh : ∀ tab ∈ s.tabs, tab.key < key
  bound : key ≤ s.keys
  unselected : s.activeByProject = []

structure Ends (p : Plan) (s : Strip) (restores : List Restore) : Prop where
  opened : Opened p p.files s
  restores : s.restores = restores
  focus : selected s.activeByProject p.project = focusOf p.active s.tabs

inductive Underway (p : Plan) (s : Strip) : Prop where
  | waits {seen left key file} (waits : Waits p s seen left key file)
  | ends (ends : Ends p s [call p s.tabs [] none])

variable {p : Plan} {s t : Strip}

theorem openedPaths {seen : List RestoredEditor} (opened : Opened p seen s) {tab : EditorTab} (member : tab ∈ s.tabs) :
    ∃ file ∈ seen, file.path = tab.path := by
  have face : (tab.path,tab.mode) ∈ (seen.filter p.readable).map (fun file => (file.path,file.mode)) := by
    rw [← opened.faces]
    exact List.mem_map_of_mem member
  obtain ⟨file,there,same⟩ := List.mem_map.mp face
  exact ⟨file,(List.mem_filter.mp there).1,(Prod.mk.inj same).1⟩

theorem selectedNow (active : Selections) (project : Str) (key : Option Nat) :
    selected (select active project key) project = key := by
  simp [selected,select]

theorem finishFocus (unselected : s.activeByProject = []) :
    selected (finish s p.project p.active (openedOf s.tabs)).activeByProject p.project = focusOf p.active s.tabs := by
  have focus : ((openedOf s.tabs).find? (fun tab => some tab.2 = p.active)).or (openedOf s.tabs).head? =
      ((s.tabs.find? (fun tab => some tab.path = p.active)).or s.tabs.head?).map (fun tab => (tab.key,tab.path)) := by
    unfold openedOf
    rw [List.find?_map,List.head?_map,Option.map_or]
    rfl
  unfold finish focusOf
  rw [focus]
  cases (s.tabs.find? (fun tab => some tab.path = p.active)).or s.tabs.head? with
  | none => simp [unselected,selected]
  | some tab => exact selectedNow _ _ _

theorem finishKeeps (s : Strip) (project : Str) (active : Option Str) (opened : List (Nat × Str)) :
    ∃ activeByProject, finish s project active opened = { s with activeByProject } := by
  unfold finish
  split
  · exact ⟨s.activeByProject,rfl⟩
  · exact ⟨_,rfl⟩

theorem resumeUnderway {seen left : List RestoredEditor} (opened : Opened p seen s) (files : p.files = seen ++ left)
    (nodup : (p.files.map RestoredEditor.path).Nodup) (unselected : s.activeByProject = []) :
    Underway p { (resume s (call p s.tabs left none)).1 with restores := [(resume s (call p s.tabs left none)).2] } := by
  cases left with
  | nil =>
    obtain ⟨active,keeps⟩ := finishKeeps s p.project p.active (openedOf s.tabs)
    have focus := finishFocus (p := p) unselected
    have whole : seen = p.files := by rw [files,List.append_nil]
    subst whole
    show Underway p { (finish s p.project p.active (openedOf s.tabs)) with restores := [call p s.tabs [] none] }
    rw [keeps] at focus ⊢
    exact .ends ⟨⟨opened.faces,opened.own,opened.keys,opened.bound,opened.rendered,opened.shown⟩,rfl,focus⟩
  | cons file left =>
    have missing : findTabKey s.shown p.project file.path = none := by
      unfold findTabKey
      rw [Option.map_eq_none_iff,List.find?_eq_none]
      intro tab member here
      obtain ⟨other,there,same⟩ := openedPaths opened (opened.shown tab member)
      have path : tab.path = file.path := (of_decide_eq_true here).2
      rw [files,List.map_append,List.map_cons] at nodup
      have apart := (List.nodup_append.mp nodup).2.2 _ (List.mem_map_of_mem there) _ List.mem_cons_self
      exact apart (same.trans path)
    have stops : resume s (call p s.tabs (file :: left) none) =
        ({ s with keys := s.keys + 1 },call p s.tabs left (some (s.keys + 1,file))) := by
      unfold resume
      simp [call,missing]
    rw [stops]
    refine .waits ⟨⟨opened.faces,opened.own,opened.keys,?_,opened.rendered,opened.shown⟩,files,rfl,?_,le_refl _,unselected⟩
    · exact fun tab member => Nat.le_succ_of_le (opened.bound tab member)
    · exact fun tab member => Nat.lt_succ_of_le (opened.bound tab member)

theorem beginUnderway {project root : Str} {saved : RestoredEditors} {read : Str → Option FileContent}
    (nodup : (saved.files.map RestoredEditor.path).Nodup) (blank : s.tabs = [] ∧ s.rendered = [] ∧ s.shown = [])
    (idle : s.restores = []) (unselected : s.activeByProject = []) :
    Underway ⟨project,root,saved.files,saved.active,read⟩ (begin_ s project root saved) := by
  obtain ⟨tabs,rendered,shown⟩ := blank
  let p : Plan := ⟨project,root,saved.files,saved.active,read⟩
  have opened : Opened p [] s :=
    ⟨by rw [tabs]; rfl,by simp [tabs],by simp [tabs],by simp [tabs],by simp [rendered],by simp [shown]⟩
  have underway := resumeUnderway opened rfl nodup unselected
  unfold begin_
  rw [tabs] at underway
  rw [show (⟨project,root,saved.files,saved.active,[],none⟩ : Restore) = call p [] saved.files none from rfl]
  simp only
  rw [(resumeStays _ _).2.1,idle]
  exact underway

theorem restoresFirst {r : Restore} (only : s.restores = [r]) : s.restores[0]? = some r := by rw [only]; rfl
theorem restoresSet {r next : Restore} (only : s.restores = [r]) : s.restores.set 0 next = [next] := by rw [only]; rfl

theorem readUnderway {content : FileContent} {seen left : List RestoredEditor} {key : Nat} {file : RestoredEditor}
    (waits : Waits p s seen left key file) (nodup : (p.files.map RestoredEditor.path).Nodup)
    (answered : p.read file.path = some content) (taken : step s (.restoreRead 0 content) = some t) : Underway p t := by
  obtain ⟨opened,files,restores,fresh,bound,unselected⟩ := waits
  have landed : Opened p (seen ++ [file]) { s with tabs := s.tabs ++ [restored key p.project p.root file content] } := by
    refine ⟨?_,?_,?_,?_,?_,?_⟩
    · simp [List.map_append,List.filter_append,opened.faces,Plan.readable,answered,restored,withMode,withLoaded,newTab]
    · intro tab member
      rcases List.mem_append.mp member with old | new
      · exact opened.own tab old
      · cases List.mem_singleton.mp new; rfl
    · rw [List.map_append]
      refine List.nodup_append.mpr ⟨opened.keys,by simp,?_⟩
      intro a old b new
      obtain ⟨tab,member,rfl⟩ := List.mem_map.mp old
      cases List.mem_singleton.mp new
      exact Nat.ne_of_lt (fresh tab member)
    · intro tab member
      rcases List.mem_append.mp member with old | new
      · exact opened.bound tab old
      · cases List.mem_singleton.mp new; exact bound
    · exact fun tab member => List.mem_append_left _ (opened.rendered tab member)
    · exact fun tab member => List.mem_append_left _ (opened.shown tab member)
  have underway := resumeUnderway landed (files.trans (List.append_cons seen file left)) nodup unselected
  have opens : openedOf s.tabs ++ [(key,file.path)] =
      openedOf (s.tabs ++ [restored key p.project p.root file content]) := by
    simp [openedOf,restored,withMode,withLoaded,newTab]
  simp only [step,restoresFirst restores,call,opens] at taken
  cases taken
  rw [(resumeStays _ _).2.1,restoresSet restores]
  exact underway

theorem failedUnderway {seen left : List RestoredEditor} {key : Nat} {file : RestoredEditor}
    (waits : Waits p s seen left key file) (nodup : (p.files.map RestoredEditor.path).Nodup)
    (answered : p.read file.path = none) (taken : step s (.restoreFailed 0) = some t) : Underway p t := by
  obtain ⟨opened,files,restores,fresh,bound,unselected⟩ := waits
  have passed : Opened p (seen ++ [file]) s := by
    refine ⟨?_,opened.own,opened.keys,opened.bound,opened.rendered,opened.shown⟩
    simp [List.filter_append,opened.faces,Plan.readable,answered]
  have underway := resumeUnderway passed (files.trans (List.append_cons seen file left)) nodup unselected
  simp only [step,restoresFirst restores,call] at taken
  cases taken
  rw [(resumeStays _ _).2.1,restoresSet restores]
  exact underway

theorem Opened.renders {seen : List RestoredEditor} (opened : Opened p seen s) : Opened p seen { s with rendered := s.tabs } :=
  ⟨opened.faces,opened.own,opened.keys,opened.bound,fun _ member => member,opened.shown⟩

theorem Opened.shows {seen : List RestoredEditor} (opened : Opened p seen s) : Opened p seen { s with shown := s.rendered } :=
  ⟨opened.faces,opened.own,opened.keys,opened.bound,opened.rendered,opened.rendered⟩

theorem Underway.renders (underway : Underway p s) : Underway p { s with rendered := s.tabs } := by
  cases underway with
  | waits w => exact .waits ⟨w.opened.renders,w.files,w.restores,w.fresh,w.bound,w.unselected⟩
  | ends e => exact .ends ⟨e.opened.renders,e.restores,e.focus⟩

theorem Underway.shows (underway : Underway p s) : Underway p { s with shown := s.rendered } := by
  cases underway with
  | waits w => exact .waits ⟨w.opened.shows,w.files,w.restores,w.fresh,w.bound,w.unselected⟩
  | ends e => exact .ends ⟨e.opened.shows,e.restores,e.focus⟩

/-- A read that is answered is the one that was begun. -/
def Answers (read : Str → Str → Option FileContent) (s : Strip) (i : Nat) (content : Option FileContent) : Prop :=
  ∀ r ∈ (s.restores[i]?).toList, ∀ reading ∈ r.reading.toList, read r.root reading.2.path = content

theorem onlyRestore {i : Nat} {r other : Restore} (only : s.restores = [r]) (found : s.restores[i]? = some other) :
    i = 0 ∧ other = r := by
  rw [only] at found
  obtain ⟨bound,same⟩ := List.getElem?_eq_some_iff.mp found
  have first : i = 0 := by simpa using bound
  subst first
  exact ⟨rfl,same.symm⟩

theorem Underway.reads {read : Str → Str → Option FileContent} {i : Nat} {content : FileContent} (underway : Underway p s)
    (answers : p.read = read p.root) (nodup : (p.files.map RestoredEditor.path).Nodup)
    (answered : Answers read s i (some content)) (taken : step s (.restoreRead i content) = some t) : Underway p t := by
  cases underway with
  | ends e =>
    simp only [step] at taken
    split at taken
    · next found => cases (onlyRestore e.restores found).2
    · cases taken
  | waits w =>
    have first : i = 0 := by
      simp only [step] at taken
      split at taken
      · next found => exact (onlyRestore w.restores found).1
      · cases taken
    subst first
    have found := answered _ (Option.mem_toList.mpr (restoresFirst w.restores)) _ (Option.mem_toList.mpr rfl)
    exact readUnderway w nodup (by rw [answers]; exact found) taken

theorem Underway.fails {read : Str → Str → Option FileContent} {i : Nat} (underway : Underway p s)
    (answers : p.read = read p.root) (nodup : (p.files.map RestoredEditor.path).Nodup)
    (answered : Answers read s i none) (taken : step s (.restoreFailed i) = some t) : Underway p t := by
  cases underway with
  | ends e =>
    simp only [step] at taken
    split at taken
    · next found => cases (onlyRestore e.restores found).2
    · cases taken
  | waits w =>
    have first : i = 0 := by
      simp only [step] at taken
      split at taken
      · next found => exact (onlyRestore w.restores found).1
      · cases taken
    subst first
    have found := answered _ (Option.mem_toList.mpr (restoresFirst w.restores)) _ (Option.mem_toList.mpr rfl)
    exact failedUnderway w nodup (by rw [answers]; exact found) taken

theorem Underway.resolves {i : Nat} (underway : Underway p s) (taken : step s (.resolved i) = some t) : Ends p t [] := by
  simp only [step] at taken
  split at taken
  · next found =>
    cases taken
    cases underway with
    | waits w => cases (onlyRestore w.restores found).2
    | ends e =>
      obtain ⟨opened,only,focus⟩ := e
      obtain ⟨rfl,_⟩ := onlyRestore only found
      exact ⟨⟨opened.faces,opened.own,opened.keys,opened.bound,opened.rendered,opened.shown⟩,by rw [only]; rfl,focus⟩
  · cases taken

theorem Ends.renders (ends : Ends p s []) : Ends p { s with rendered := s.tabs } [] :=
  ⟨ends.opened.renders,ends.restores,ends.focus⟩

theorem Ends.shows (ends : Ends p s []) : Ends p { s with shown := s.rendered } [] :=
  ⟨ends.opened.shows,ends.restores,ends.focus⟩

theorem openedAll {seen : List RestoredEditor} (opened : Opened p seen s) :
    EditorStrip.tabsForProject s.tabs (some p.project) = s.tabs := by
  refine List.filter_eq_self.mpr (fun tab member => ?_)
  simpa using opened.own tab member

theorem findByKey {tabs : List EditorTab} (keys : (tabs.map EditorTab.key).Nodup) {tab : EditorTab} (member : tab ∈ tabs) :
    tabs.find? (fun other => some other.key = some tab.key) = some tab := by
  induction tabs with
  | nil => cases member
  | cons first rest ih =>
    obtain ⟨fresh,keys⟩ := List.nodup_cons.mp keys
    rcases List.mem_cons.mp member with rfl | later
    · simp
    · have other : first.key ≠ tab.key := fun same => fresh (same ▸ List.mem_map_of_mem later)
      rw [List.find?_cons_of_neg (by simpa using other)]
      exact ih keys later

def Plan.reopened (p : Plan) : List RestoredEditor := p.files.filter p.readable

theorem endsPath (ends : Ends p s []) :
    ((s.tabs.find? (fun tab => some tab.key = selected s.activeByProject p.project)).map EditorTab.path) =
      ((p.reopened.find? (fun file => some file.path = p.active)).or p.reopened.head?).map RestoredEditor.path := by
  have paths : s.tabs.map EditorTab.path = p.reopened.map RestoredEditor.path := by
    have faces := congrArg (List.map Prod.fst) ends.opened.faces
    rw [List.map_map,List.map_map] at faces
    exact faces
  have found : s.tabs.find? (fun tab => some tab.key = selected s.activeByProject p.project) =
      (s.tabs.find? (fun tab => some tab.path = p.active)).or s.tabs.head? := by
    rw [ends.focus]
    unfold focusOf
    cases focus : (s.tabs.find? (fun tab => some tab.path = p.active)).or s.tabs.head? with
    | none => simp
    | some tab =>
      have member : tab ∈ s.tabs := by
        rcases Option.or_eq_some_iff.mp focus with found | ⟨_,head⟩
        · exact List.mem_of_find?_eq_some found
        · exact List.mem_of_mem_head? head
      exact findByKey ends.opened.keys member
  rw [found,Option.map_or,Option.map_or,← List.head?_map,← List.head?_map,paths]
  congr 1
  have left := List.find?_map (f := EditorTab.path) (p := fun path => decide (some path = p.active)) (l := s.tabs)
  have right := List.find?_map (f := RestoredEditor.path) (p := fun path => decide (some path = p.active)) (l := p.reopened)
  rw [paths] at left
  exact left.symm.trans right

open M6t.TerminalStrip (TerminalTab RestoredTerminal RestoredTerminals SessionStatus restoredTabs)

/-- What of a tab its shell has no say in. -/
def face (tab : TerminalTab) : Nat × Str × Str × Str := (tab.key,tab.project,tab.title,tab.cwd)

def seat (tabs : List TerminalTab) (active : Nat) : Option Nat := (tabs[active]?.or tabs.head?).map TerminalTab.key

structure Seated (project : Str) (saved : RestoredTerminals) (s : TerminalStrip.Strip) (keys : Nat) : Prop where
  faces : s.tabs.map face = (restoredTabs keys project saved.tabs).map face
  focus : selected s.activeByProject project = seat (restoredTabs keys project saved.tabs) saved.active

section
variable {project : Str} {saved : RestoredTerminals} {s : TerminalStrip.Strip} {keys : Nat}

theorem restoreSeats (blank : s.tabs = []) (unselected : s.activeByProject = []) :
    Seated project saved (TerminalStrip.restore s project saved) s.keys := by
  unfold TerminalStrip.restore
  simp only
  split
  · next none_ =>
    obtain ⟨_,head⟩ := Option.or_eq_none_iff.mp none_
    have empty : restoredTabs s.keys project saved.tabs = [] := List.head?_eq_none_iff.mp head
    exact ⟨by rw [blank,empty],by rw [unselected,empty]; rfl⟩
  · next focus found =>
    refine ⟨by rw [blank,List.nil_append],?_⟩
    unfold seat
    rw [found]
    exact selectedNow _ _ _

theorem Seated.hears {key : Nat} {status : SessionStatus} (seated : Seated project saved s keys)
    (goesOn : TerminalStrip.endingClosesTheTab status = false) :
    Seated project saved (TerminalStrip.onStatus s key status) keys := by
  rw [TerminalStrip.statusPatches goesOn]
  refine ⟨Eq.trans ?_ seated.faces,seated.focus⟩
  unfold TerminalStrip.patchTab
  rw [List.map_map]
  refine List.map_congr_left (fun tab _ => ?_)
  simp only [Function.comp]
  split
  · cases status <;> rfl
  · rfl

theorem restoredFaces (tabs : List RestoredTerminal) (keys : Nat) :
    (restoredTabs keys project tabs).map (fun tab => (⟨tab.title,tab.cwd⟩ : RestoredTerminal)) = tabs ∧
      (restoredTabs keys project tabs).map TerminalTab.key = List.range' (keys + 1) tabs.length := by
  induction tabs generalizing keys with
  | nil => exact ⟨rfl,rfl⟩
  | cons first rest ih =>
    obtain ⟨shapes,numbers⟩ := ih (keys + 1)
    refine ⟨?_,?_⟩
    · simp [restoredTabs,TerminalStrip.newTab,shapes]
    · simp [restoredTabs,TerminalStrip.newTab,numbers,List.range'_succ]

theorem Seated.own (seated : Seated project saved s keys) :
    TerminalStrip.tabsForProject s.tabs (some project) = s.tabs := by
  refine List.filter_eq_self.mpr (fun tab member => ?_)
  have there : face tab ∈ (restoredTabs keys project saved.tabs).map face := by
    rw [← seated.faces]
    exact List.mem_map_of_mem member
  obtain ⟨other,restored,same⟩ := List.mem_map.mp there
  simp only [face,Prod.mk.injEq] at same
  simpa [← same.2.1] using TerminalStrip.restoredProject other restored

theorem Seated.shapes (seated : Seated project saved s keys) :
    s.tabs.map (fun tab => (⟨tab.title,tab.cwd⟩ : RestoredTerminal)) = saved.tabs := by
  have faces := congrArg (List.map (fun f : Nat × Str × Str × Str => (⟨f.2.2.1,f.2.2.2⟩ : RestoredTerminal))) seated.faces
  rw [List.map_map,List.map_map] at faces
  exact faces.trans (restoredFaces saved.tabs keys).1

theorem Seated.numbers (seated : Seated project saved s keys) :
    s.tabs.map TerminalTab.key = List.range' (keys + 1) saved.tabs.length := by
  have faces := congrArg (List.map Prod.fst) seated.faces
  rw [List.map_map,List.map_map] at faces
  exact faces.trans (restoredFaces saved.tabs keys).2

theorem Seated.position (seated : Seated project saved s keys)
    (inside : saved.active < saved.tabs.length ∨ saved.active = 0) :
    (s.tabs.findIdx? (fun tab => some tab.key = selected s.activeByProject project)).getD 0 = saved.active := by
  have numbers : (restoredTabs keys project saved.tabs).map TerminalTab.key = List.range' (keys + 1) saved.tabs.length :=
    (restoredFaces saved.tabs keys).2
  by_cases here : saved.active < saved.tabs.length
  · have focus : seat (restoredTabs keys project saved.tabs) saved.active = some (keys + 1 + saved.active) := by
      have sought : ((restoredTabs keys project saved.tabs)[saved.active]?).map TerminalTab.key = some (keys + 1 + saved.active) := by
        rw [← List.getElem?_map,numbers]
        simp [here]
      obtain ⟨tab,found,same⟩ := Option.map_eq_some_iff.mp sought
      simp [seat,found,same]
    have found : (s.tabs.map TerminalTab.key).findIdx? (fun key => some key = some (keys + 1 + saved.active)) = some saved.active := by
      rw [seated.numbers,List.findIdx?_eq_some_iff_getElem]
      refine ⟨by simpa using here,by simp,?_⟩
      intro j before
      simp only [List.getElem_range']
      simp
      omega
    rw [seated.focus,focus]
    rw [List.findIdx?_map] at found
    exact congrArg (fun i => i.getD 0) found
  · have zero : saved.active = 0 := inside.resolve_left here
    have empty : saved.tabs = [] := List.length_eq_zero_iff.mp (by omega)
    have none_ : s.tabs = [] := List.map_eq_nil_iff.mp (seated.shapes.trans empty)
    rw [none_,zero]
    rfl

end

end M6t.StripRestore
