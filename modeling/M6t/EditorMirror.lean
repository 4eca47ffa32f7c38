import M6t.EditorBuffer

/-! What the tab last heard of the file, next to what it shows of it. The last
answer that reached the tab outside a save is kept as a ghost that no transition
reads. -/
namespace M6t.EditorMirror
open M6t.Text M6t.Editor M6t.EditorBuffer M6t.Runs

structure Heard where
  editing : Editing
  last : FileContent
  deriving DecidableEq, Repr

def heardAfter (s : Heard) : Transition → FileContent
  | .external file => if s.editing.tab.saving then s.last else file
  | _ => s.last

def hear (s : Heard) (e : Transition) : Option Heard :=
  (step s.editing e).map (fun editing => ⟨editing,heardAfter s e⟩)

/-- A tab that has just been given its file, with no save of it started. -/
def opened (tab : EditorTab) (file : FileContent) : Heard := ⟨⟨withLoaded tab file,none⟩,file⟩

structure SameForm (tab : EditorTab) (file : FileContent) : Prop where
  crlf : tab.crlf = file.crlf
  readOnly : tab.readOnly = file.readOnly
  mixedEol : tab.mixedEol = file.mixedEol
instance (tab file) : Decidable (SameForm tab file) :=
  decidable_of_iff (tab.crlf = file.crlf ∧ tab.readOnly = file.readOnly ∧ tab.mixedEol = file.mixedEol)
    ⟨fun h => ⟨h.1,h.2.1,h.2.2⟩,fun h => ⟨h.crlf,h.readOnly,h.mixedEol⟩⟩

structure UpToDate (s : Heard) : Prop where
  form : s.editing.tab.status = .ready → isDirty s.editing.tab = false → SameForm s.editing.tab s.last
  conflict : ∀ disk, s.editing.tab.conflict = some disk → disk = s.last.content
instance (s) : Decidable (UpToDate s) :=
  decidable_of_iff
    ((s.editing.tab.status = .ready → isDirty s.editing.tab = false → SameForm s.editing.tab s.last) ∧
      (∀ disk ∈ s.editing.tab.conflict, disk = s.last.content))
    ⟨fun h => ⟨h.1,h.2⟩,fun h => ⟨h.form,h.conflict⟩⟩

/-- An answer that reaches a tab with unsaved edits is taken over by it only so
far: beside a conflict's text, its carriage returns and nothing else. -/
def Mirrorable (s : Heard) : Transition → Prop
  | .external file =>
    let tab := s.editing.tab
    tab.saving = false → isDirty tab = true →
      if file.content = tab.baseline then tab.conflict = none ∧ SameForm tab file
      else tab.readOnly = file.readOnly ∧ tab.mixedEol = file.mixedEol
  | _ => True
instance (s e) : Decidable (Mirrorable s e) := by
  cases e <;> unfold Mirrorable <;> infer_instance

structure Mirror (s : Heard) : Prop where
  held : Held s.editing
  form : SameForm s.editing.tab s.last
  conflict : ∀ disk, s.editing.tab.conflict = some disk → disk = s.last.content

theorem elsewhere {s t : Editing} {e : Transition} (taken : step s e = some t) (quiet : ∀ file, e ≠ .external file) :
    (∀ file, SameForm s.tab file → SameForm t.tab file) ∧
      (t.tab.conflict = none ∨ t.tab.conflict = s.tab.conflict) := by
  cases e with
  | edit content =>
    cases taken
    refine ⟨fun file form => ?_,.inr (by simp)⟩
    unfold withEdit
    split <;> exact ⟨form.crlf,form.readOnly,form.mixedEol⟩
  | save =>
    obtain ⟨_,rfl⟩ := saveTaken taken
    exact ⟨fun file form => ⟨form.crlf,form.readOnly,form.mixedEol⟩,.inr rfl⟩
  | saved =>
    obtain ⟨w,_,rfl⟩ := Option.map_eq_some_iff.mp taken
    exact ⟨fun file form => ⟨form.crlf,form.readOnly,form.mixedEol⟩,.inl rfl⟩
  | saveFailed message =>
    obtain ⟨w,_,rfl⟩ := Option.map_eq_some_iff.mp taken
    exact ⟨fun file form => ⟨form.crlf,form.readOnly,form.mixedEol⟩,.inr rfl⟩
  | reloadFailed message =>
    cases taken
    exact ⟨fun file form => ⟨form.crlf,form.readOnly,form.mixedEol⟩,.inr rfl⟩
  | external file => exact absurd rfl (quiet file)
  | keepMine =>
    cases taken
    unfold resolveKeepMine
    split
    · exact ⟨fun file form => form,.inr rfl⟩
    · exact ⟨fun file form => ⟨form.crlf,form.readOnly,form.mixedEol⟩,.inl rfl⟩
  | takeDisk =>
    cases taken
    unfold resolveTakeDisk
    split
    · exact ⟨fun file form => form,.inr rfl⟩
    · exact ⟨fun file form => ⟨form.crlf,form.readOnly,form.mixedEol⟩,.inl rfl⟩

theorem answerKept {s : Heard} {file : FileContent} (mirror : Mirror s) (allowed : Mirrorable s (.external file)) :
    Mirror ⟨{ s.editing with tab := withExternalChange s.editing.tab file },heardAfter s (.external file)⟩ := by
  have held := heldKept mirror.held (e := .external file) rfl
  obtain ⟨⟨ready,_⟩,form,conflict⟩ := mirror
  rcases externalCases s.editing.tab file with
      ⟨away,same⟩ | ⟨_,idle,⟨_,same⟩ | ⟨dirty,calm,same⟩ | ⟨dirty,changed,same⟩⟩
  · have saving : s.editing.tab.saving = true := away.resolve_left (not_not.mpr ready)
    exact ⟨held,by simpa [same,heardAfter,saving] using form,by simpa [same,heardAfter,saving] using conflict⟩
  · refine ⟨held,?_,?_⟩
    · simp only [same,heardAfter,idle]
      exact ⟨rfl,rfl,rfl⟩
    · simp [same,withLoaded]
  · have meets := allowed idle dirty
    rw [if_pos calm] at meets
    refine ⟨held,?_,?_⟩
    · simpa [same,heardAfter,idle] using meets.2
    · simp [same,meets.1]
  · have meets := allowed idle dirty
    rw [if_neg changed] at meets
    refine ⟨held,?_,?_⟩
    · simp only [same,heardAfter,idle]
      exact ⟨rfl,meets.1,meets.2⟩
    · intro disk shown
      simp only [same,Option.some.injEq] at shown
      simp [heardAfter,idle,shown]

theorem mirrorKept {s t : Heard} {e : Transition} (mirror : Mirror s) (allowed : Mirrorable s e) (taken : hear s e = some t) :
    Mirror t := by
  obtain ⟨editing,stepped,rfl⟩ := Option.map_eq_some_iff.mp taken
  by_cases answer : ∃ file, e = .external file
  · obtain ⟨file,rfl⟩ := answer
    cases stepped
    exact answerKept mirror allowed
  · have quiet : ∀ file, e ≠ .external file := fun file same => answer ⟨file,same⟩
    obtain ⟨form,conflict⟩ := elsewhere stepped quiet
    have last : heardAfter s e = s.last := by
      cases e <;> first | rfl | exact absurd rfl (quiet _)
    refine ⟨heldKept mirror.held stepped,by rw [last]; exact form _ mirror.form,?_⟩
    intro disk shown
    rw [last]
    rcases conflict with cleared | kept
    · simp [cleared] at shown
    · exact mirror.conflict disk (kept ▸ shown)

variable {s : Heard} {es : List Transition}

theorem mirrorsLastAnswer {tab : EditorTab} {file : FileContent} (idle : tab.saving = false)
    (run : Run hear Mirrorable (opened tab file) es s) : UpToDate s := by
  have mirror : Mirror s := by
    refine run.invariant ⟨⟨rfl,?_⟩,⟨rfl,rfl,rfl⟩,?_⟩ (fun _ _ _ mirror allowed taken => mirrorKept mirror allowed taken)
    · simp [opened,withLoaded,idle]
    · simp [opened,withLoaded]
  exact ⟨fun _ _ => mirror.form,mirror.conflict⟩

def sample : EditorTab := newTab 1 "p".toList "/w".toList "f".toList .text

theorem mirrorsLastAnswerResolved :
    ∃ s, Run hear Mirrorable (opened sample (plainText "a"))
        [.edit "ab".toList,.external (plainText "c"),.external (plainText "d"),.takeDisk,.edit "e".toList,.save,.saved] s ∧
      s.last = plainText "d" ∧ UpToDate s := by
  have ends : (exec (guarded hear Mirrorable) (opened sample (plainText "a"))
      [.edit "ab".toList,.external (plainText "c"),.external (plainText "d"),.takeDisk,.edit "e".toList,.save,.saved]).map
        Heard.last = some (plainText "d") := by decide +kernel
  obtain ⟨s,done,last⟩ := Option.map_eq_some_iff.mp ends
  exact ⟨s,runOfGuarded done,last,mirrorsLastAnswer rfl (runOfGuarded done)⟩

/-- The file came to mix its line endings while the tab held an edit. Taking the
disk's text then leaves a clean tab that may be edited and saved. -/
theorem mirrorLosesReadOnly :
    let mixed : FileContent := ⟨"b".toList,false,true,true,1⟩
    ∃ s, Run hear anyStep (opened sample (plainText "a")) [.edit "ab".toList,.external mixed,.takeDisk] s ∧
      s.last = mixed ∧ s.editing.tab.readOnly = false ∧ ¬UpToDate s := by
  intro mixed
  have ends : (exec hear (opened sample (plainText "a")) [.edit "ab".toList,.external mixed,.takeDisk]).map
      (fun s => (s.last,s.editing.tab.readOnly,decide (UpToDate s))) = some (mixed,false,false) := by decide +kernel
  obtain ⟨s,done,seen⟩ := Option.map_eq_some_iff.mp ends
  simp only [Prod.mk.injEq,decide_eq_false_iff_not] at seen
  exact ⟨s,runOfExec done,seen.1,seen.2.1,seen.2.2⟩

end M6t.EditorMirror
