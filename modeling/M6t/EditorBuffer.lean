import M6t.Editor
import M6t.Runs

/-! One editor tab through any sequence of edits, saves and answers from disk.
A save in flight carries the buffer it writes; the tab itself only holds the
flag that one is. -/
namespace M6t.EditorBuffer
open M6t.Text M6t.Editor M6t.Runs

structure Editing where
  tab : EditorTab
  inFlight : Option Str
  deriving DecidableEq, Repr

inductive Transition
  | edit (content : Str)
  | save
  | saved
  | saveFailed (message : Str)
  | reloadFailed (message : Str)
  | external (file : FileContent)
  | keepMine
  | takeDisk
  deriving DecidableEq, Repr

def step (s : Editing) : Transition → Option Editing
  | .edit content => some { s with tab := withEdit s.tab content }
  | .save => if canSave s.tab then some ⟨withSaving s.tab,some s.tab.content⟩ else none
  | .saved => s.inFlight.map (fun written => ⟨withSaved s.tab written,none⟩)
  | .saveFailed message => s.inFlight.map (fun _ => ⟨withSaveFailed s.tab message,none⟩)
  | .reloadFailed message => some { s with tab := withReloadFailed s.tab message }
  | .external file => some { s with tab := withExternalChange s.tab file }
  | .keepMine => some { s with tab := resolveKeepMine s.tab }
  | .takeDisk => some { s with tab := resolveTakeDisk s.tab }

theorem saveTaken {s t : Editing} (taken : step s .save = some t) :
    canSave s.tab = true ∧ t = ⟨withSaving s.tab,some s.tab.content⟩ := by
  obtain ⟨savable,landed⟩ := Option.ite_none_right_eq_some.mp taken
  exact ⟨savable,(Option.some.inj landed).symm⟩

structure Held (s : Editing) : Prop where
  ready : s.tab.status = .ready
  flagged : s.inFlight.isSome = s.tab.saving

theorem heldKept {s t : Editing} {e : Transition} (held : Held s) (taken : step s e = some t) : Held t := by
  obtain ⟨ready,flagged⟩ := held
  cases e with
  | edit content =>
    cases taken
    exact ⟨by simpa using ready,by simpa using flagged⟩
  | save =>
    obtain ⟨_,rfl⟩ := saveTaken taken
    exact ⟨ready,rfl⟩
  | saved =>
    obtain ⟨w,_,rfl⟩ := Option.map_eq_some_iff.mp taken
    exact ⟨ready,rfl⟩
  | saveFailed message =>
    obtain ⟨w,_,rfl⟩ := Option.map_eq_some_iff.mp taken
    exact ⟨ready,rfl⟩
  | reloadFailed message => cases taken; exact ⟨ready,flagged⟩
  | external file =>
    cases taken
    rcases externalCases s.tab file with ⟨_,same⟩ | ⟨_,_,⟨_,same⟩ | ⟨_,_,same⟩ | ⟨_,_,same⟩⟩
    · exact ⟨by rw [same]; exact ready,by rw [same]; exact flagged⟩
    · exact ⟨by rw [same]; rfl,by rw [same]; exact flagged⟩
    · exact ⟨by rw [same]; exact ready,by rw [same]; exact flagged⟩
    · exact ⟨by rw [same]; exact ready,by rw [same]; exact flagged⟩
  | keepMine =>
    cases taken
    unfold resolveKeepMine
    split <;> exact ⟨ready,flagged⟩
  | takeDisk =>
    cases taken
    unfold resolveTakeDisk
    split <;> exact ⟨ready,flagged⟩

/-- What may move the buffer: the user's own edit, the disk's text the user
chose, or the disk's text where the tab had no edits of its own. -/
inductive Consent (s : Editing) : Transition → Str → Prop
  | edited {content} : Consent s (.edit content) content
  | taken {disk} (offered : s.tab.conflict = some disk) : Consent s .takeDisk disk
  | adopted {file} (clean : isDirty s.tab = false) : Consent s (.external file) file.content

theorem movedConsent {s t : Editing} {e : Transition} (taken : step s e = some t)
    (moved : t.tab.content ≠ s.tab.content) : Consent s e t.tab.content := by
  cases e with
  | edit content =>
    cases taken
    rw [withEditContent moved]
    exact .edited
  | save =>
    obtain ⟨_,rfl⟩ := saveTaken taken
    exact absurd rfl moved
  | saved =>
    obtain ⟨w,_,rfl⟩ := Option.map_eq_some_iff.mp taken
    exact absurd rfl moved
  | saveFailed message =>
    obtain ⟨w,_,rfl⟩ := Option.map_eq_some_iff.mp taken
    exact absurd rfl moved
  | reloadFailed message => cases taken; exact absurd rfl moved
  | external file =>
    cases taken
    rcases externalCases s.tab file with ⟨_,same⟩ | ⟨_,_,⟨clean,same⟩ | ⟨_,_,same⟩ | ⟨_,_,same⟩⟩
    · exact absurd (congrArg EditorTab.content same) moved
    · show Consent s _ (withExternalChange s.tab file).content
      rw [same]
      exact .adopted clean
    · exact absurd (congrArg EditorTab.content same) moved
    · exact absurd (congrArg EditorTab.content same) moved
  | keepMine =>
    cases taken
    unfold resolveKeepMine at moved
    split at moved <;> exact absurd rfl moved
  | takeDisk =>
    cases taken
    unfold resolveTakeDisk at moved ⊢
    split at moved
    · exact absurd rfl moved
    · next disk offered => exact .taken offered

theorem savedDirty {tab : EditorTab} (ready : tab.status = .ready) (written : Str) :
    isDirty (withSaved tab written) = true ↔ tab.content ≠ written := by
  simp [isDirty,withSaved,ready]

theorem conflictHolds {tab : EditorTab} (conflict : tab.conflict ≠ none) : canSave tab = false := by
  simp [canSave,conflict]

variable {start s : Editing} {es : List Transition}

theorem bufferMovesByConsent (ready : start.tab.status = .ready)
    (flagged : start.inFlight.isSome = start.tab.saving) (run : Run step anyStep start es s) :
    (∀ e t, step s e = some t → t.tab.content ≠ s.tab.content → Consent s e t.tab.content) ∧
      (∀ written t, s.inFlight = some written → step s .saved = some t →
        (isDirty t.tab = true ↔ t.tab.content ≠ written)) ∧
      (s.tab.conflict ≠ none → step s .save = none) := by
  have held : Held s := run.invariant ⟨ready,flagged⟩ (fun _ _ _ held _ taken => heldKept held taken)
  refine ⟨fun e t => movedConsent,?_,?_⟩
  · intro written t flight taken
    have landed : t = ⟨withSaved s.tab written,none⟩ := by simpa [step,flight] using taken.symm
    subst landed
    exact savedDirty held.ready written
  · intro conflict
    simp [step,conflictHolds conflict]

theorem bufferMovesByConsentTyping :
    let file : FileContent := plainText "a"
    let start : Editing := ⟨withLoaded (newTab 1 "p".toList "/w".toList "f".toList .text) file,none⟩
    let es : List Transition := [.edit "ab".toList,.save,.edit "abc".toList]
    (exec step start es).map (fun s => (step s .saved).map (fun t => isDirty t.tab)) = some (some true) ∧
      ∃ s, exec step start es = some s ∧ (s.tab.conflict ≠ none → step s .save = none) := by
  refine ⟨by decide +kernel,?_⟩
  have ends : (exec step (Editing.mk (withLoaded (newTab 1 "p".toList "/w".toList "f".toList .text)
      (plainText "a")) none) [.edit "ab".toList,.save,.edit "abc".toList]).isSome := by decide +kernel
  obtain ⟨s,done⟩ := Option.isSome_iff_exists.mp ends
  exact ⟨s,done,(bufferMovesByConsent rfl rfl (runOfExec done)).2.2⟩

end M6t.EditorBuffer
