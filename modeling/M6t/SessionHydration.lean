import M6t.SessionRecord
import Mathlib.Data.List.Flatten

/-! How often a project's saved tabs are put back. A hydration begins with the
call that restores the editors and ends with the one that restores the
terminals; in between the project counts as not hydrated. -/
namespace M6t.SessionHydration
open M6t.Text M6t.Session M6t.Workbench M6t.Runs
open M6t.Editor (EditorTab)
open M6t.TerminalStrip (TerminalTab RestoredTerminal)

def OneAtATime (s : Bench) : Event → Prop
  | .effects => ∀ began ∈ starts s, ∀ h ∈ s.hydrating, h.project ≠ began.1
  | _ => True
instance (s e) : Decidable (OneAtATime s e) :=
  match e with
  | .effects => inferInstanceAs (Decidable (∀ began ∈ starts s, ∀ h ∈ s.hydrating, h.project ≠ began.1))
  | .render | .loadAnswered _ | .listed _ | .relisted _ | .select _ | .removeProject _ | .setWorkspace _
  | .treeMoved _ _ | .treeListed _ | .editors _ | .terminals _ | .hydrated _ => isTrue trivial

def byHand : Event → Bool
  | .editors (.open_ _ _ _) => true
  | .terminals (.create _ _ _) => true
  | _ => false

def added (s t : Bench) (e : Event) : List EditorTab × List TerminalTab :=
  if byHand e then ([],[]) else (t.editors.tabs.drop s.editors.tabs.length,t.terminals.tabs.drop s.terminals.tabs.length)

/-- The tabs that the steps append to the two strips, except those the user opens. -/
def arrivals (s : Bench) : List Event → List EditorTab × List TerminalTab
  | [] => ([],[])
  | e :: es =>
    match step s e with
    | none => ([],[])
    | some t => ((added s t e).1 ++ (arrivals t es).1,(added s t e).2 ++ (arrivals t es).2)

def ownPaths (tabs : List EditorTab) (project : Str) : List Str :=
  (tabs.filter (fun tab => tab.project = project)).map EditorTab.path
def ownTitles (tabs : List TerminalTab) (project : Str) : List Str :=
  (tabs.filter (fun tab => tab.project = project)).map TerminalTab.title

def answer : Event → Option State
  | .loadAnswered state => some state
  | _ => none

def recordIn (session : Option State) (project : Str) : Option ProjectSession :=
  session.bind (fun state => state.projects.find? (fun record => record.name = project))
def savedRecord (es : List Event) (project : Str) : Option ProjectSession := recordIn (es.findSome? answer) project

def savedPaths (record : Option ProjectSession) : List Str := (record.toList.flatMap ProjectSession.editors).map SavedEditor.path
def savedTitles (record : Option ProjectSession) : List Str :=
  (record.toList.flatMap ProjectSession.terminals).map SavedTerminal.title

theorem arrivalsSnoc {s u t : Bench} {es : List Event} {e : Event} (done : exec step s es = some u) (taken : step u e = some t) :
    arrivals s (es ++ [e]) = ((arrivals s es).1 ++ (added u t e).1,(arrivals s es).2 ++ (added u t e).2) := by
  induction es generalizing s with
  | nil =>
    cases done
    simp [arrivals,taken]
  | cons first es ih =>
    obtain ⟨v,moved,done⟩ := Option.bind_eq_some_iff.mp done
    simp [arrivals,moved,ih done]

theorem addedFewer {s t : Bench} {e : Event} (editors : t.editors.tabs.length ≤ s.editors.tabs.length)
    (terminals : t.terminals.tabs.length ≤ s.terminals.tabs.length) : added s t e = ([],[]) := by
  simp [added,List.drop_eq_nil_of_le editors,List.drop_eq_nil_of_le terminals]

structure Tally (s : Bench) (project : Str) : Prop where
  balance : s.begun.count project = (s.hydrating.map Hydration.project).count project + s.hydrated.count project
  once : s.begun.count project ≤ 1

def owes (r : EditorStrip.Restore) : List Str := (r.reading.toList.map Prod.snd ++ r.files).map EditorStrip.RestoredEditor.path

def owedPaths (s : Bench) (project : Str) : List Str :=
  (s.editors.restores.filter (fun r => r.project = project)).flatMap owes
def owedTitles (s : Bench) (project : Str) : List Str :=
  (s.hydrating.filter (fun h => h.project = project)).flatMap (fun h => h.terminals.tabs.map RestoredTerminal.title)

structure Restoring (s : Bench) (project : Str) (session : Option State) (paths titles : List Str) : Prop where
  loaded : s.loaded = session
  tally : Tally s project
  paired : s.editors.restores.map EditorStrip.Restore.project = s.hydrating.map Hydration.project
  fresh : project ∉ s.begun → paths = [] ∧ titles = []
  record : project ∉ s.hydrated → projectSession s.current project = none ∨ projectSession s.current project = recordIn session project
  editors : (paths ++ owedPaths s project).Sublist (savedPaths (recordIn session project))
  terminals : (titles ++ owedTitles s project).Sublist (savedTitles (recordIn session project))

structure SameCalls (s t : Bench) : Prop where
  loaded : t.loaded = s.loaded
  begun : t.begun = s.begun
  hydrating : t.hydrating = s.hydrating
  hydrated : t.hydrated = s.hydrated
  restores : t.editors.restores = s.editors.restores

section Steps
variable {s t : Bench} {e : Event} {project : Str} {session : Option State} {paths titles : List Str}

theorem Restoring.same (restoring : Restoring s project session paths titles) (calls : SameCalls s t)
    (record : project ∉ s.hydrated →
      projectSession t.current project = projectSession s.current project ∨ projectSession t.current project = none) :
    Restoring t project session paths titles := by
  obtain ⟨loads,begun,hydrating,hydrated,restores⟩ := calls
  obtain ⟨loaded,⟨balance,once⟩,paired,fresh,recorded,editors,terminals⟩ := restoring
  refine ⟨loads.trans loaded,⟨by rw [begun,hydrating,hydrated]; exact balance,by rw [begun]; exact once⟩,by rw [restores,hydrating]; exact paired,
    by rw [begun]; exact fresh,?_,by unfold owedPaths; rw [restores]; exact editors,
    by unfold owedTitles; rw [hydrating]; exact terminals⟩
  rw [hydrated]
  intro absent
  rcases record absent with same | dropped
  · rw [same]
    exact recorded absent
  · exact Or.inl dropped

theorem Restoring.quiet (restoring : Restoring s project session paths titles) (calls : SameCalls s t) (current : t.current = s.current)
    (none_ : added s t e = ([],[])) :
    Restoring t project session (paths ++ ownPaths (added s t e).1 project) (titles ++ ownTitles (added s t e).2 project) := by
  rw [none_]
  simpa [ownPaths,ownTitles] using restoring.same calls (fun _ => Or.inl (by rw [current]))

theorem beforeCalls (s : Bench) : SameCalls s (beforeHydration s) ∧ (beforeHydration s).current = s.current := by
  obtain ⟨_,_,_,_,_,same,_⟩ := beforeHydrationOnly s
  rw [same]
  exact ⟨⟨rfl,rfl,rfl,rfl,rfl⟩,rfl⟩

theorem recordKept {previous : State} {live : LiveSession} {hydrated registered : List Str} (absent : project ∉ hydrated) :
    projectSession (nextSession previous live hydrated registered) project = projectSession previous project ∨
      projectSession (nextSession previous live hydrated registered) project = none := by
  have keeps : recordFor project previous live hydrated = projectSession previous project := if_neg (fun there => absent there.2)
  show List.find? _ (List.filterMap _ _) = _ ∨ List.find? _ (List.filterMap _ _) = none
  rw [SessionRecord.findRecords,keeps]
  by_cases listed : project ∈ if registered ≠ [] then registered else previous.projects.map ProjectSession.name
  · exact Or.inl (if_pos listed)
  · exact Or.inr (if_neg listed)

theorem Restoring.recorded (restoring : Restoring s project session paths titles) :
    Restoring (recordingEffect s) project session paths titles := by
  by_cases loaded : s.drawn.loaded = none
  · rwa [recordingWaits loaded]
  · rw [recordingRecords loaded]
    exact restoring.same ⟨rfl,rfl,rfl,rfl,rfl⟩ recordKept

theorem resumeOwes (s : EditorStrip.Strip) (r : EditorStrip.Restore) :
    (owes (EditorStrip.resume s r).2).Sublist (r.files.map EditorStrip.RestoredEditor.path) := by
  unfold EditorStrip.resume
  split
  · exact List.nil_sublist _
  · next file files rest =>
    have left := List.dropWhile_sublist (l := r.files) (fun file => (EditorStrip.findTabKey s.shown r.project file.path).isSome)
    rw [rest] at left
    exact left.map _

theorem savedFiles (record : Option ProjectSession) :
    (restoredEditors record).files.map EditorStrip.RestoredEditor.path = savedPaths record := by
  cases record with
  | none => rfl
  | some record => simp [restoredEditors,savedPaths,Function.comp_def]

theorem savedShells (record : Option ProjectSession) (root : Str) :
    (restoredTerminals record root).tabs.map RestoredTerminal.title = savedTitles record := by
  cases record with
  | none => rfl
  | some record => simp [restoredTerminals,savedTitles,Function.comp_def]

theorem Restoring.hydrate {name path : Str} (restoring : Restoring s project session paths titles) (new : name ∉ s.hydrated)
    (idle : ∀ h ∈ s.hydrating, h.project ≠ name) : Restoring (hydrate s name path) project session paths titles := by
  obtain ⟨trees,same⟩ := hydrateOnly s name path
  rw [same]
  let r : EditorStrip.Restore :=
    ⟨name,path,(restoredEditors (projectSession s.current name)).files,(restoredEditors (projectSession s.current name)).active,
      [],none⟩
  obtain ⟨_,restores,named⟩ := EditorStrip.resumeStays s.editors r
  have begins : (EditorStrip.begin_ s.editors name path (restoredEditors (projectSession s.current name))).restores =
      s.editors.restores ++ [(EditorStrip.resume s.editors r).2] := congrArg (· ++ _) restores
  obtain ⟨loaded,⟨balance,once⟩,paired,fresh,record,editors,terminals⟩ := restoring
  have unpaired : name ∉ s.hydrating.map Hydration.project := by
    intro member
    obtain ⟨h,there,same⟩ := List.mem_map.mp member
    exact idle h there same
  have waiting : (s.hydrating.map Hydration.project).count name = 0 := List.count_eq_zero.mpr unpaired
  have finished : s.hydrated.count name = 0 := List.count_eq_zero.mpr new
  refine ⟨loaded,⟨?_,?_⟩,?_,?_,record,?_,?_⟩
  · simp only [List.count_cons,List.map_append,List.count_append,List.map_cons,List.map_nil,List.count_nil,balance]
    omega
  · rw [List.count_cons]
    by_cases same : name = project
    · subst same
      simp [balance,waiting,finished]
    · simpa [same] using once
  · show (EditorStrip.begin_ _ _ _ _).restores.map _ = _
    rw [begins,List.map_append,List.map_append,paired]
    exact congrArg (_ ++ [·]) named
  · exact fun absent => fresh (fun there => absent (List.mem_cons_of_mem _ there))
  · show (paths ++ (List.filter _ (EditorStrip.begin_ _ _ _ _).restores).flatMap owes).Sublist _
    rw [begins,List.filter_append,List.flatMap_append]
    by_cases same : name = project
    · subst same
      have never : name ∉ s.begun := List.count_eq_zero.mp (by rw [balance,waiting,finished])
      have others : s.editors.restores.filter (fun r => r.project = name) = [] := by
        refine List.filter_eq_nil_iff.mpr (fun other there => ?_)
        simpa using fun same => unpaired (paired ▸ List.mem_map.mpr ⟨other,there,same⟩)
      have mine : ([(EditorStrip.resume s.editors r).2].filter (fun r => r.project = name)).flatMap owes =
          owes (EditorStrip.resume s.editors r).2 := by simp [named,r]
      have left := resumeOwes s.editors r
      rw [(fresh never).1,others,mine]
      show (owes (EditorStrip.resume s.editors r).2).Sublist _
      rw [show r.files.map _ = _ from savedFiles _] at left
      rcases record new with none_ | same
      · rw [none_] at left
        exact left.trans (List.nil_sublist _)
      · rwa [same] at left
    · have other : ([(EditorStrip.resume s.editors r).2].filter (fun r => r.project = project)) = [] := by simp [named,r,same]
      rw [other,List.flatMap_nil,List.append_nil]
      exact editors
  · show (titles ++ (List.filter _ (s.hydrating ++ [_])).flatMap _).Sublist _
    rw [List.filter_append,List.flatMap_append]
    by_cases same : name = project
    · subst same
      have never : name ∉ s.begun := List.count_eq_zero.mp (by rw [balance,waiting,finished])
      have others : s.hydrating.filter (fun h => h.project = name) = [] :=
        List.filter_eq_nil_iff.mpr (fun h there => by simpa using idle h there)
      rw [(fresh never).2,others]
      rcases record new with none_ | same
      · simp [none_,savedShells,savedTitles]
      · simp [same,savedShells]
    · simpa [same,owedTitles] using terminals

theorem Restoring.effects (restoring : Restoring s project session paths titles) (allowed : OneAtATime s .effects) :
    Restoring (effects s) project session paths titles := by
  obtain ⟨before,current⟩ := beforeCalls s
  have restoring := restoring.same before (fun _ => Or.inl (by rw [current]))
  refine Restoring.recorded ?_
  unfold hydrationEffect
  rw [startsBefore]
  cases begins : starts s with
  | none => exact restoring.same ⟨rfl,rfl,rfl,rfl,rfl⟩ (fun _ => Or.inl rfl)
  | some began =>
    obtain ⟨name,path⟩ := began
    have new : name ∉ (beforeHydration s).hydrated := by
      rw [before.hydrated]
      exact (startsReady begins).2.2.1
    have idle : ∀ h ∈ (beforeHydration s).hydrating, h.project ≠ name := by
      rw [before.hydrating]
      exact allowed _ begins
    have keyed : SameCalls (beforeHydration s) { beforeHydration s with keyed := hydrationKey (beforeHydration s) } :=
      ⟨rfl,rfl,rfl,rfl,rfl⟩
    exact (restoring.same keyed (fun _ => Or.inl rfl)).hydrate new idle

/-- A restore that goes on appends the tab it was reading. -/
structure Goes (s t : EditorStrip.Strip) (i : Nat) (r next : EditorStrip.Restore) : Prop where
  found : s.restores[i]? = some r
  restores : t.restores = s.restores.set i next
  project : next.project = r.project
  mine : ∀ tab ∈ t.tabs.drop s.tabs.length, tab.project = r.project
  owed : ((t.tabs.drop s.tabs.length).map EditorTab.path ++ owes next).Sublist (owes r)

theorem stripMoves {s t : EditorStrip.Strip} {e : EditorStrip.Event} (own : ownCall e = false)
    (taken : EditorStrip.step s e = some t) :
    t.restores = s.restores ∧ (byHand (.editors e) = false → t.tabs.length ≤ s.tabs.length) ∨
      byHand (.editors e) = false ∧ ∃ i r next, Goes s t i r next := by
  cases e with
  | open_ project root path =>
    cases taken
    refine Or.inl ⟨?_,fun hand => by cases hand⟩
    unfold EditorStrip.opens
    split <;> rfl
  | close key => cases taken; exact Or.inl ⟨rfl,fun _ => List.length_filter_le _ _⟩
  | closeProject project => cases taken; exact Or.inl ⟨rfl,fun _ => List.length_filter_le _ _⟩
  | select project key => cases taken; exact Or.inl ⟨rfl,fun _ => le_refl _⟩
  | setMode key mode => cases taken; exact Or.inl ⟨rfl,fun _ => (List.length_map _).le⟩
  | loaded i content =>
    obtain ⟨load,_,rfl⟩ := Option.map_eq_some_iff.mp taken
    exact Or.inl ⟨rfl,fun _ => (List.length_map _).le⟩
  | loadFailed i message =>
    obtain ⟨load,_,rfl⟩ := Option.map_eq_some_iff.mp taken
    exact Or.inl ⟨rfl,fun _ => (List.length_map _).le⟩
  | restoreRead i content =>
    simp only [EditorStrip.step] at taken
    split at taken
    · next project root files active opened key file found =>
      cases taken
      let u : EditorStrip.Strip := { s with tabs := s.tabs ++ [EditorStrip.restored key project root file content] }
      obtain ⟨tabs,restores,same⟩ := EditorStrip.resumeStays u ⟨project,root,files,active,opened ++ [(key,file.path)],none⟩
      have left := resumeOwes u ⟨project,root,files,active,opened ++ [(key,file.path)],none⟩
      refine Or.inr ⟨rfl,i,_,_,found,congrArg (List.set · i _) restores,same,?_,?_⟩
      · rw [tabs,List.drop_left]
        exact List.forall_mem_singleton.mpr rfl
      · rw [tabs,List.drop_left]
        exact left.cons_cons file.path
    · cases taken
  | restoreFailed i =>
    simp only [EditorStrip.step] at taken
    split at taken
    · next project root files active opened read found =>
      cases taken
      obtain ⟨tabs,restores,same⟩ := EditorStrip.resumeStays s ⟨project,root,files,active,opened,none⟩
      have left := resumeOwes s ⟨project,root,files,active,opened,none⟩
      refine Or.inr ⟨rfl,i,_,_,found,congrArg (List.set · i _) restores,same,?_,?_⟩
      · rw [tabs,List.drop_length]
        exact List.forall_mem_nil _
      · rw [tabs,List.drop_length]
        exact left.trans (List.sublist_cons_self _ _)
    · cases taken
  | restore project root saved => cases own
  | resolved i => cases own
  | render => cases own
  | effect => cases own

theorem shellsFewer {s : TerminalStrip.Strip} {e : TerminalStrip.Event} (own : ownTerminalCall e = false)
    (hand : byHand (.terminals e) = false) : (TerminalStrip.step s e).tabs.length ≤ s.tabs.length := by
  cases e with
  | create project cwd autorun => cases hand
  | close key => exact List.length_filter_le _ _
  | closeProject project => exact List.length_filter_le _ _
  | rename key title =>
    show (TerminalStrip.renameTab s.tabs key title).length ≤ _
    unfold TerminalStrip.renameTab
    simp only
    split
    · exact le_refl _
    · exact (List.length_map _).le
  | restart key => exact (List.length_map _).le
  | onStatus key status =>
    show (TerminalStrip.onStatus s key status).tabs.length ≤ _
    unfold TerminalStrip.onStatus
    split
    · exact List.length_filter_le _ _
    · exact (List.length_map _).le
  | select project key => exact le_refl _
  | restore project saved => cases own
  | render => cases own
  | effect => cases own

theorem restoreAppends (s : TerminalStrip.Strip) (project : Str) (saved : TerminalStrip.RestoredTerminals) :
    (TerminalStrip.restore s project saved).tabs = s.tabs ++ TerminalStrip.restoredTabs s.keys project saved.tabs := by
  unfold TerminalStrip.restore
  simp only
  split
  · next none_ =>
    obtain ⟨_,empty⟩ := Option.or_eq_none_iff.mp none_
    rw [List.head?_eq_none_iff.mp empty,List.append_nil]
  · rfl

theorem restoredTitles (keys : Nat) (project : Str) (saved : List RestoredTerminal) :
    (TerminalStrip.restoredTabs keys project saved).map TerminalTab.title = saved.map RestoredTerminal.title := by
  induction saved generalizing keys with
  | nil => rfl
  | cons first rest ih => exact congrArg (first.title :: ·) (ih (keys + 1))

theorem Tally.waiting (tally : Tally s project) : (s.hydrating.map Hydration.project).count project ≤ 1 := by
  have balance := tally.balance
  have once := tally.once
  omega

theorem Restoring.goes {editors : EditorStrip.Strip} {i : Nat} {r next : EditorStrip.Restore}
    (restoring : Restoring s project session paths titles) (goes : Goes s.editors editors i r next) :
    Restoring { s with editors } project session
      (paths ++ ownPaths (editors.tabs.drop s.editors.tabs.length) project) titles := by
  obtain ⟨found,restores,same,mine,owed⟩ := goes
  obtain ⟨loaded,tally,paired,fresh,record,toCome,terminals⟩ := restoring
  have once : (s.editors.restores.map EditorStrip.Restore.project).count project ≤ 1 := paired ▸ tally.waiting
  have named := mapSetSame EditorStrip.Restore.project found same
  have here : r ∈ s.editors.restores := List.mem_of_getElem? found
  refine ⟨loaded,⟨tally.balance,tally.once⟩,?_,?_,record,?_,terminals⟩
  · rw [restores,named]
    exact paired
  · intro never
    refine ⟨?_,(fresh never).2⟩
    have none_ : (s.hydrating.map Hydration.project).count project = 0 := by
      have := tally.balance
      rw [List.count_eq_zero.mpr never] at this
      omega
    have other : r.project ≠ project := by
      rintro rfl
      exact List.count_eq_zero.mp none_ (paired ▸ List.mem_map_of_mem here)
    have nothing : (editors.tabs.drop s.editors.tabs.length).filter (fun tab => tab.project = project) = [] :=
      List.filter_eq_nil_iff.mpr (fun tab member => by simpa [mine tab member] using other)
    rw [(fresh never).1,ownPaths,nothing]
    rfl
  · unfold owedPaths at toCome ⊢
    rw [restores]
    by_cases mineToo : r.project = project
    · have all : (editors.tabs.drop s.editors.tabs.length).filter (fun tab => tab.project = project) =
          editors.tabs.drop s.editors.tabs.length :=
        List.filter_eq_self.mpr (fun tab member => by simpa [mine tab member] using mineToo)
      have bound : i < s.editors.restores.length := (List.getElem?_eq_some_iff.mp found).1
      rw [onlyOne found once mineToo] at toCome
      rw [ownPaths,all,onlyOne (List.getElem?_set_self bound) (named ▸ once) (same.trans mineToo),List.append_assoc]
      simp only [List.flatMap_cons,List.flatMap_nil,List.append_nil] at toCome ⊢
      exact ((List.append_sublist_append_left paths).mpr owed).trans toCome
    · have nothing : (editors.tabs.drop s.editors.tabs.length).filter (fun tab => tab.project = project) = [] :=
        List.filter_eq_nil_iff.mpr (fun tab member => by simpa [mine tab member] using mineToo)
      rw [ownPaths,nothing,setOther found same mineToo,List.map_nil,List.append_nil]
      exact toCome

theorem Restoring.finishes {i : Nat} {h : Hydration} (restoring : Restoring s project session paths titles)
    (found : s.hydrating[i]? = some h) (taken : step s (.hydrated i) = some t) :
    Restoring t project session (paths ++ ownPaths (added s t (.hydrated i)).1 project)
      (titles ++ ownTitles (added s t (.hydrated i)).2 project) := by
  simp only [step,found] at taken
  obtain ⟨strip,resolves,rfl⟩ := Option.map_eq_some_iff.mp taken
  have left : strip.tabs = s.editors.tabs ∧ strip.restores = s.editors.restores.eraseIdx i := by
    simp only [EditorStrip.step] at resolves
    split at resolves
    · cases resolves; exact ⟨rfl,rfl⟩
    · cases resolves
  obtain ⟨tabs,restores⟩ := left
  obtain ⟨loaded,tally,paired,fresh,record,editors,terminals⟩ := restoring
  have bound := (List.getElem?_eq_some_iff.mp found).1
  have whole : (s.hydrating.map Hydration.project).count project =
      ((s.hydrating.eraseIdx i).map Hydration.project).count project + if h.project = project then 1 else 0 := by
    have perm := (List.getElem_cons_eraseIdx_perm bound).map Hydration.project
    rw [(List.getElem?_eq_some_iff.mp found).2] at perm
    rw [← perm.count_eq,List.map_cons,List.count_cons]
    simp [beq_iff_eq]
  have balance := tally.balance
  have none_ : ownPaths (strip.tabs.drop s.editors.tabs.length) project = [] := by rw [tabs,List.drop_length]; rfl
  have shells := restoreAppends s.terminals h.project h.terminals
  simp only [added,byHand,Bool.false_eq_true,if_false,none_,List.append_nil,shells,List.drop_left]
  refine ⟨loaded,⟨?_,tally.once⟩,?_,?_,?_,?_,?_⟩
  · show s.begun.count project =
      ((s.hydrating.eraseIdx i).map Hydration.project).count project + (h.project :: s.hydrated).count project
    rw [balance,whole,List.count_cons]
    simp only [beq_iff_eq]
    omega
  · show strip.restores.map _ = (s.hydrating.eraseIdx i).map _
    rw [restores,← List.eraseIdx_map,← List.eraseIdx_map,paired]
  · intro never
    refine ⟨(fresh never).1,?_⟩
    have other : h.project ≠ project := by
      rintro rfl
      have none_ : s.begun.count h.project = 0 := List.count_eq_zero.mpr never
      rw [if_pos rfl] at whole
      omega
    rw [(fresh never).2,ownTitles,List.filter_eq_nil_iff.mpr]
    · rfl
    · exact fun tab member => by simpa [TerminalStrip.restoredProject tab member] using other
  · exact fun absent => record (fun there => absent (List.mem_cons_of_mem _ there))
  · refine List.Sublist.trans (List.Sublist.append_left ?_ paths) editors
    show (List.filter _ strip.restores |>.flatMap owes).Sublist _
    rw [restores]
    exact ((List.eraseIdx_sublist _ i).filter _).flatMap owes
  · by_cases mine : h.project = project
    · have nothing : (s.hydrating.eraseIdx i).filter (fun h => h.project = project) = [] := by
        have once := tally.waiting
        rw [whole,if_pos mine] at once
        have zero : ((s.hydrating.eraseIdx i).map Hydration.project).count project = 0 := by omega
        refine List.filter_eq_nil_iff.mpr (fun other member => ?_)
        simpa using fun same => List.count_eq_zero.mp zero (List.mem_map.mpr ⟨other,member,same⟩)
      have all : ∀ tab ∈ TerminalStrip.restoredTabs s.terminals.keys h.project h.terminals.tabs,
          decide (tab.project = project) = true :=
        fun tab member => by simpa [TerminalStrip.restoredProject tab member] using mine
      unfold owedTitles at terminals ⊢
      rw [onlyOne found tally.waiting mine] at terminals
      rw [ownTitles,List.filter_eq_self.mpr all,nothing,restoredTitles]
      simpa using terminals
    · rw [ownTitles,List.filter_eq_nil_iff.mpr,List.map_nil,List.append_nil]
      · refine List.Sublist.trans (List.Sublist.append_left ?_ titles) terminals
        exact ((List.eraseIdx_sublist _ i).filter _).flatMap _
      · exact fun tab member => by simpa [TerminalStrip.restoredProject tab member] using mine

theorem Restoring.kept (restoring : Restoring s project session paths titles) (allowed : OneAtATime s e)
    (unanswered : answer e = none) (taken : step s e = some t) :
    Restoring t project session (paths ++ ownPaths (added s t e).1 project) (titles ++ ownTitles (added s t e).2 project) := by
  cases e with
  | render =>
    simp only [step] at taken
    split at taken
    · cases taken
    · cases taken
      exact restoring.quiet ⟨rfl,rfl,rfl,rfl,rfl⟩ rfl (addedFewer (le_refl _) (le_refl _))
  | effects =>
    obtain ⟨_,ran⟩ := Option.ite_none_right_eq_some.mp taken
    cases ran
    have ran := effectsRan s
    rw [addedFewer (by rw [ran.editors]) (by rw [ran.terminals])]
    simpa [ownPaths,ownTitles] using restoring.effects allowed
  | loadAnswered state => cases unanswered
  | listed list => cases taken; exact restoring.quiet ⟨rfl,rfl,rfl,rfl,rfl⟩ rfl (addedFewer (le_refl _) (le_refl _))
  | relisted list => cases taken; exact restoring.quiet ⟨rfl,rfl,rfl,rfl,rfl⟩ rfl (addedFewer (le_refl _) (le_refl _))
  | select name => cases taken; exact restoring.quiet ⟨rfl,rfl,rfl,rfl,rfl⟩ rfl (addedFewer (le_refl _) (le_refl _))
  | removeProject name =>
    cases taken
    exact restoring.quiet ⟨rfl,rfl,rfl,rfl,rfl⟩ rfl (addedFewer (List.length_filter_le _ _) (List.length_filter_le _ _))
  | setWorkspace settings => cases taken; exact restoring.quiet ⟨rfl,rfl,rfl,rfl,rfl⟩ rfl (addedFewer (le_refl _) (le_refl _))
  | treeMoved root tree =>
    cases taken
    obtain ⟨trees,same⟩ := updateTreeOnly s root (fun _ => tree)
    rw [same]
    exact restoring.quiet ⟨rfl,rfl,rfl,rfl,rfl⟩ rfl (addedFewer (le_refl _) (le_refl _))
  | treeListed root =>
    cases taken
    obtain ⟨trees,same⟩ := updateTreeOnly s root id
    rw [same]
    exact restoring.quiet ⟨rfl,rfl,rfl,rfl,rfl⟩ rfl (addedFewer (le_refl _) (le_refl _))
  | editors e =>
    simp only [step] at taken
    split at taken
    · cases taken
    · next own =>
      obtain ⟨strip,moved,rfl⟩ := Option.map_eq_some_iff.mp taken
      rcases stripMoves (Bool.eq_false_iff.mpr own) moved with ⟨restores,fewer⟩ | ⟨hand,i,r,next,goes⟩
      · cases hand : byHand (.editors e) with
        | true =>
          have none_ : added s { s with editors := strip } (.editors e) = ([],[]) := by simp [added,hand]
          exact restoring.quiet ⟨rfl,rfl,rfl,rfl,restores⟩ rfl none_
        | false => exact restoring.quiet ⟨rfl,rfl,rfl,rfl,restores⟩ rfl (addedFewer (fewer hand) (le_refl _))
      · simp only [added,hand,Bool.false_eq_true,if_false,List.drop_length,ownTitles,List.filter_nil,List.map_nil,List.append_nil]
        exact restoring.goes goes
  | terminals e =>
    simp only [step] at taken
    split at taken
    · cases taken
    · next own =>
      cases taken
      refine restoring.quiet ⟨rfl,rfl,rfl,rfl,rfl⟩ rfl ?_
      cases hand : byHand (.terminals e) with
      | true => simp [added,hand]
      | false => exact addedFewer (le_refl _) (shellsFewer (Bool.eq_false_iff.mpr own) hand)
  | hydrated i =>
    cases found : s.hydrating[i]? with
    | none => simp [step,found] at taken
    | some h => exact restoring.finishes found taken

end Steps

theorem Restoring.loads {s t : Bench} {project : Str} {session : Option State} {paths titles : List Str} {state : State}
    (restoring : Restoring s project session paths titles) (taken : step s (.loadAnswered state) = some t) :
    session = none ∧ Restoring t project (some state) paths titles ∧ added s t (.loadAnswered state) = ([],[]) := by
  obtain ⟨unloaded,moved⟩ := Option.ite_none_right_eq_some.mp taken
  cases moved
  obtain ⟨loaded,tally,paired,fresh,_,editors,terminals⟩ := restoring
  cases loaded.symm.trans unloaded
  refine ⟨rfl,⟨rfl,⟨tally.balance,tally.once⟩,paired,fresh,fun _ => Or.inr rfl,?_,?_⟩,addedFewer (le_refl _) (le_refl _)⟩
  · exact (List.sublist_nil.mp editors).symm ▸ List.nil_sublist _
  · exact (List.sublist_nil.mp terminals).symm ▸ List.nil_sublist _

variable {s : Bench} {es : List Event}

theorem restoringRun (run : Run step OneAtATime launch es s) (project : Str) :
    exec step launch es = some s ∧
      Restoring s project (es.findSome? answer) (ownPaths (arrivals launch es).1 project)
        (ownTitles (arrivals launch es).2 project) := by
  refine run.traced (I := fun es s => exec step launch es = some s ∧
    Restoring s project (es.findSome? answer) (ownPaths (arrivals launch es).1 project)
      (ownTitles (arrivals launch es).2 project)) ?_ ?_
  · exact ⟨rfl,rfl,⟨rfl,Nat.zero_le _⟩,rfl,fun _ => ⟨rfl,rfl⟩,fun _ => Or.inl rfl,List.nil_sublist _,List.nil_sublist _⟩
  · rintro es s e t ⟨done,restoring⟩ allowed taken
    refine ⟨by rw [execSnoc,done]; exact taken,?_⟩
    have more := arrivalsSnoc done taken
    have paths : ownPaths (arrivals launch (es ++ [e])).1 project =
        ownPaths (arrivals launch es).1 project ++ ownPaths (added s t e).1 project := by simp [more,ownPaths]
    have titles : ownTitles (arrivals launch (es ++ [e])).2 project =
        ownTitles (arrivals launch es).2 project ++ ownTitles (added s t e).2 project := by simp [more,ownTitles]
    rw [paths,titles,List.findSome?_append]
    cases loads : answer e with
    | none =>
      have same : (es.findSome? answer).or ([e].findSome? answer) = es.findSome? answer := by simp [loads]
      rw [same]
      exact restoring.kept allowed loads taken
    | some state =>
      obtain rfl : e = Event.loadAnswered state := by cases e <;> cases loads; rfl
      obtain ⟨unloaded,restoring,nothing⟩ := restoring.loads taken
      rw [unloaded,nothing]
      simpa [ownPaths,ownTitles,answer] using restoring

theorem eachProjectRestoredOnce (run : Run step OneAtATime launch es s) (project : Str) :
    (ownPaths (arrivals launch es).1 project).Sublist (savedPaths (savedRecord es project)) ∧
      (ownTitles (arrivals launch es).2 project).Sublist (savedTitles (savedRecord es project)) := by
  have restoring := (restoringRun run project).2
  exact ⟨(List.sublist_append_left _ _).trans restoring.editors,(List.sublist_append_left _ _).trans restoring.terminals⟩

def kept : State :=
  { emptySession with
    activeProject := "a".toList
    projects := [⟨"a".toList,[⟨"main".toList,"edit".toList⟩],"main".toList,[⟨"shell 1".toList,[]⟩],0,[],[],false⟩] }

def arrival : List Event := [.effects,.loadAnswered kept,.listed SessionRecord.pair,.render,.effects,.render,.effects]

def switching : List Event :=
  arrival ++ [.select "b".toList,.render,.effects,.editors (.restoreRead 0 (Editor.plainText "x")),.hydrated 0,
    .editors (.open_ "b".toList "/b".toList "x".toList),.select "a".toList,.render,.effects,.hydrated 0]

theorem eachProjectRestoredOnceSwitching :
    ∃ s, Run step OneAtATime launch switching s ∧
      ownPaths (arrivals launch switching).1 "a".toList = ["main".toList] ∧
      ownTitles (arrivals launch switching).2 "a".toList = ["shell 1".toList] ∧
      s.editors.tabs.map EditorStrip.place = [("a".toList,"main".toList),("b".toList,"x".toList)] ∧
      (ownPaths (arrivals launch switching).1 "a".toList).Sublist (savedPaths (savedRecord switching "a".toList)) ∧
      (ownTitles (arrivals launch switching).2 "a".toList).Sublist (savedTitles (savedRecord switching "a".toList)) := by
  have ends : (exec (guarded step OneAtATime) launch switching).map (fun s => s.editors.tabs.map EditorStrip.place) =
      some [("a".toList,"main".toList),("b".toList,"x".toList)] := by decide +kernel
  obtain ⟨s,done,seen⟩ := Option.map_eq_some_iff.mp ends
  exact ⟨s,runOfGuarded done,by decide +kernel,by decide +kernel,seen,eachProjectRestoredOnce (runOfGuarded done) "a".toList⟩

def returning : List Event :=
  arrival ++ [.select "b".toList,.render,.effects,.select "a".toList,.render,.effects,
    .editors (.restoreRead 0 (Editor.plainText "x")),.editors (.restoreRead 2 (Editor.plainText "x")),.hydrated 0,.hydrated 1]

/-- Leaving `a` and coming back while its file is read restores it again. -/
theorem returnRestoresTwice :
    ∃ s, Run step anyStep launch returning s ∧
      s.terminals.tabs.map (fun tab => (tab.project,tab.title)) =
        [("a".toList,"shell 1".toList),("a".toList,"shell 1".toList)] ∧
      s.editors.tabs.map EditorStrip.place = [("a".toList,"main".toList),("a".toList,"main".toList)] ∧
      ¬(ownPaths (arrivals launch returning).1 "a".toList).Sublist (savedPaths (savedRecord returning "a".toList)) ∧
      ¬(ownTitles (arrivals launch returning).2 "a".toList).Sublist (savedTitles (savedRecord returning "a".toList)) := by
  have ends : (exec step launch returning).map
      (fun s => (s.terminals.tabs.map (fun tab => (tab.project,tab.title)),s.editors.tabs.map EditorStrip.place)) =
      some ([("a".toList,"shell 1".toList),("a".toList,"shell 1".toList)],
        [("a".toList,"main".toList),("a".toList,"main".toList)]) := by decide +kernel
  obtain ⟨s,done,seen⟩ := Option.map_eq_some_iff.mp ends
  obtain ⟨shells,tabs⟩ := Prod.mk.inj seen
  exact ⟨s,runOfExec done,shells,tabs,by decide +kernel,by decide +kernel⟩

end M6t.SessionHydration
