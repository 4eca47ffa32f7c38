import M6t.Session

/-! What the session store hands over: a file it cannot use is the zero session,
and one it can is normalized. Whether a directory is still there is a parameter. -/
namespace M6t.SessionStore
open M6t.Text M6t.Session

def VERSION : Int := 1
def maxProjects : Nat := 64
def maxEditors : Nat := 200
def maxTerminals : Nat := 32
def maxExpanded : Nat := 2000

/-- The loop over a list with the keys seen so far: an entry of no use and a
second one of a key are passed. -/
def firsts {α : Type} (key : α → Str) (useless : Str → Bool) : List Str → List α → List α
  | _,[] => []
  | seen,x :: xs =>
    if useless (key x) ∨ key x ∈ seen then firsts key useless seen xs
    else x :: firsts key useless (key x :: seen) xs

def normalizeEditors (editors : List SavedEditor) : List SavedEditor :=
  firsts SavedEditor.path (· = []) [] (editors.take maxEditors)

def activeEditor (editors : List SavedEditor) (active : Str) : Str :=
  if ∃ e ∈ editors, e.path = active then active else []

def normalizeTerminals (existingDir : Str → Bool) (terminals : List SavedTerminal) : List SavedTerminal :=
  (terminals.take maxTerminals).map (fun t => { t with cwd := if existingDir t.cwd then t.cwd else [] })

def clampIndex (index : Int) (length : Nat) : Int := if index < 0 ∨ (length : Int) ≤ index then 0 else index

def uniqueStrings (values : List Str) (limit : Nat) : List Str := firsts id (fun _ => false) [] (values.take limit)

def normalizeProject (existingDir : Str → Bool) (p : ProjectSession) : ProjectSession :=
  let editors := normalizeEditors p.editors
  let terminals := normalizeTerminals existingDir p.terminals
  { p with
    editors
    activeEditor := activeEditor editors p.activeEditor
    terminals
    activeTerminal := clampIndex p.activeTerminal terminals.length
    treeExpanded := uniqueStrings p.treeExpanded maxExpanded }

def normalizeProjects (existingDir : Str → Bool) (projects : List ProjectSession) : List ProjectSession :=
  (firsts ProjectSession.name (· = []) [] (projects.take maxProjects)).map (normalizeProject existingDir)

def normalize (existingDir : Str → Bool) (state : State) : State :=
  { state with version := VERSION, projects := normalizeProjects existingDir state.projects }

/-- `none` is a file that cannot be read or does not parse. -/
def load (existingDir : Str → Bool) : Option State → State
  | none => emptySession
  | some stored => if stored.version ≠ VERSION then emptySession else normalize existingDir stored

section
variable {α : Type} {key : α → Str} {useless : Str → Bool}

theorem firstsUnseen (xs : List α) (seen : List Str) : ∀ x ∈ firsts key useless seen xs, key x ∉ seen ∧ useless (key x) = false := by
  induction xs generalizing seen with
  | nil => simp [firsts]
  | cons first rest ih =>
    intro x member
    unfold firsts at member
    split at member
    · exact ih seen x member
    · next fresh =>
      rcases List.mem_cons.mp member with rfl | later
      · exact ⟨fun there => fresh (Or.inr there),by simpa using fun bad => fresh (Or.inl bad)⟩
      · have old := ih (key first :: seen) x later
        exact ⟨fun there => old.1 (List.mem_cons_of_mem _ there),old.2⟩

theorem firstsNodup (xs : List α) (seen : List Str) : ((firsts key useless seen xs).map key).Nodup := by
  induction xs generalizing seen with
  | nil => exact List.nodup_nil
  | cons first rest ih =>
    unfold firsts
    split
    · exact ih seen
    · refine List.nodup_cons.mpr ⟨?_,ih _⟩
      intro member
      obtain ⟨x,there,same⟩ := List.mem_map.mp member
      exact (firstsUnseen rest (key first :: seen) x there).1 (by simp [same])

end

structure Tidy (record : ProjectSession) : Prop where
  editors : (record.editors.map SavedEditor.path).Nodup
  named : ∀ e ∈ record.editors, e.path ≠ []
  active : record.activeEditor = [] ∨ ∃ e ∈ record.editors, e.path = record.activeEditor
  terminal : record.activeTerminal = 0 ∨ 0 ≤ record.activeTerminal ∧ record.activeTerminal < record.terminals.length
  expanded : record.treeExpanded.Nodup

theorem activeEditorOpen (editors : List SavedEditor) (active : Str) :
    activeEditor editors active = [] ∨ ∃ e ∈ editors, e.path = activeEditor editors active := by
  unfold activeEditor
  split
  · next there => exact Or.inr there
  · exact Or.inl rfl

theorem clampIndexInside (index : Int) (length : Nat) :
    clampIndex index length = 0 ∨ 0 ≤ clampIndex index length ∧ clampIndex index length < length := by
  unfold clampIndex
  split
  · exact Or.inl rfl
  · next inside => exact Or.inr ⟨by omega,by omega⟩

theorem normalizeProjectTidy (existingDir : Str → Bool) (p : ProjectSession) : Tidy (normalizeProject existingDir p) := by
  refine ⟨firstsNodup _ _,?_,activeEditorOpen _ _,clampIndexInside _ _,?_⟩
  · intro e member
    simpa using (firstsUnseen _ _ e member).2
  · have nodup : ((uniqueStrings p.treeExpanded maxExpanded).map id).Nodup := firstsNodup _ _
    rwa [List.map_id] at nodup

theorem loadTidy {existingDir : Str → Bool} {file : Option State} {name : Str} {record : ProjectSession}
    (found : projectSession (load existingDir file) name = some record) : Tidy record := by
  have member : record ∈ (load existingDir file).projects := List.mem_of_find?_eq_some found
  cases file with
  | none => cases member
  | some stored =>
    simp only [load] at member
    split at member
    · cases member
    · obtain ⟨p,_,rfl⟩ := List.mem_map.mp member
      exact normalizeProjectTidy existingDir p

theorem loadNames (existingDir : Str → Bool) (file : Option State) :
    ((load existingDir file).projects.map ProjectSession.name).Nodup := by
  cases file with
  | none => exact List.nodup_nil
  | some stored =>
    simp only [load]
    split
    · exact List.nodup_nil
    · show ((List.map (normalizeProject existingDir) _).map ProjectSession.name).Nodup
      rw [List.map_map]
      exact firstsNodup _ _

theorem recordFound {state : State} (unique : (state.projects.map ProjectSession.name).Nodup) {record : ProjectSession}
    (member : record ∈ state.projects) : projectSession state record.name = some record := by
  unfold projectSession
  generalize state.projects = records at unique member
  induction records with
  | nil => cases member
  | cons first rest ih =>
    obtain ⟨fresh,unique⟩ := List.nodup_cons.mp unique
    rcases List.mem_cons.mp member with rfl | later
    · simp
    · have other : first.name ≠ record.name := fun same => fresh (same ▸ List.mem_map_of_mem later)
      rw [List.find?_cons_of_neg (by simpa using other)]
      exact ih unique later

end M6t.SessionStore
