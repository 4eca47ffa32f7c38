import M6t.Editor
import M6t.Runs

/-! One ready editor tab and the file behind it: the user, the saves, whoever
else writes the file, the change events and the re-reads they start, in any
order. A read holds what it sampled until its answer lands; a save's write lands
before the save is answered. -/
namespace M6t.EditorFile
open M6t.Text M6t.Editor M6t.Runs

structure Save where
  written : Str
  landed : Bool
  deriving DecidableEq, Repr

/-- `shown` is the tab as the handlers find it: the state of the last render
whose effects have run. -/
structure Desk where
  tab : EditorTab
  shown : EditorTab
  disk : FileContent
  saves : List Save
  events : Nat
  reads : List (Option FileContent)
  deriving DecidableEq, Repr

inductive Event
  | edit (content : Str)
  | keepMine
  | takeDisk
  | rendered
  | save
  | landed (i : Nat) (file : FileContent)
  | saved (i : Nat)
  | saveFailed (i : Nat) (message : Str)
  | external (file : FileContent)
  | changed
  | sampled (i : Nat)
  | answered (i : Nat)
  deriving DecidableEq, Repr

def step (s : Desk) : Event → Option Desk
  | .edit content => some { s with tab := withEdit s.tab content }
  | .keepMine => some { s with tab := resolveKeepMine s.tab }
  | .takeDisk => some { s with tab := resolveTakeDisk s.tab }
  | .rendered => some { s with shown := s.tab }
  | .save =>
    if canSave s.shown then
      some { s with tab := withSaving s.tab, saves := s.saves ++ [⟨s.shown.content,false⟩] }
    else none
  | .landed i file =>
    if s.saves[i]? = some ⟨file.content,false⟩ then
      some { s with disk := file, saves := s.saves.set i ⟨file.content,true⟩, events := s.events + 1 }
    else none
  | .saved i =>
    match s.saves[i]? with
    | some ⟨written,true⟩ => some { s with tab := withSaved s.tab written, saves := s.saves.eraseIdx i }
    | _ => none
  | .saveFailed i message =>
    match s.saves[i]? with
    | some ⟨_,false⟩ => some { s with tab := withSaveFailed s.tab message, saves := s.saves.eraseIdx i }
    | _ => none
  | .external file => some { s with disk := file, events := s.events + 1 }
  | .changed => if s.events = 0 then none else some { s with events := s.events - 1, reads := s.reads ++ [none] }
  | .sampled i => if s.reads[i]? = some none then some { s with reads := s.reads.set i (some s.disk) } else none
  | .answered i =>
    match s.reads[i]? with
    | some (some file) => some { s with tab := withExternalChange s.tab file, reads := s.reads.eraseIdx i }
    | _ => none

def opened (tab : EditorTab) (disk : FileContent) : Desk := ⟨tab,tab,disk,[],0,[]⟩

structure Quiet (s : Desk) : Prop where
  saves : s.saves = []
  events : s.events = 0
  reads : s.reads = []
instance (s) : Decidable (Quiet s) :=
  decidable_of_iff (s.saves = [] ∧ s.events = 0 ∧ s.reads = [])
    ⟨fun h => ⟨h.1,h.2.1,h.2.2⟩,fun h => ⟨h.saves,h.events,h.reads⟩⟩

def Settled (s : Desk) : Prop := s.tab.baseline = s.disk.content ∨ s.tab.conflict = some s.disk.content
instance (s) : Decidable (Settled s) := by unfold Settled; infer_instance

def Current (disk : FileContent) : Option FileContent → Prop
  | none => True
  | some file => file.content = disk.content
instance (disk r) : Decidable (Current disk r) := by
  cases r <;> unfold Current <;> infer_instance

def Pending (s : Desk) : Prop := 0 < s.events ∨ ∃ r ∈ s.reads, Current s.disk r
instance (s) : Decidable (Pending s) := by unfold Pending; infer_instance

def WroteDisk (s : Desk) : Prop := ∀ save ∈ s.saves, save.landed = true → save.written = s.disk.content
instance (s) : Decidable (WroteDisk s) := by unfold WroteDisk; infer_instance

/-- The answer is today's text, or one that the tab, already offering today's,
takes for a false alarm. -/
def Teaches (s : Desk) (file : FileContent) : Prop :=
  file.content = s.disk.content ∨
    isDirty s.tab = true ∧ file.content = s.tab.baseline ∧ s.tab.conflict = some s.disk.content
instance (s file) : Decidable (Teaches s file) := by unfold Teaches; infer_instance

def Reconciled (s : Desk) : Event → Prop
  | .answered i =>
    Pending { s with reads := s.reads.eraseIdx i } ∨
      WroteDisk s ∧ (s.saves ≠ [] ∨ ∀ r ∈ s.reads[i]?, ∀ file ∈ r, Teaches s file)
  | .saveFailed _ _ => Pending s ∨ Settled s ∨ 1 < s.saves.length
  | .keepMine | .takeDisk =>
    Pending s ∨ s.saves ≠ [] ∨ ∀ disk ∈ s.tab.conflict, disk = s.disk.content
  | _ => True
instance (s e) : Decidable (Reconciled s e) := by
  cases e <;> unfold Reconciled <;> infer_instance

def Covered (s : Desk) : Prop := WroteDisk s ∧ (s.saves ≠ [] ∨ Settled s)

structure Sound (s : Desk) : Prop where
  ready : s.tab.status = .ready
  flagged : s.tab.saving = true → s.saves ≠ []
  covered : Pending s ∨ Covered s

theorem soundTab {s : Desk} {tab : EditorTab} (sound : Sound s) (ready : tab.status = .ready)
    (flagged : tab.saving = true → s.saves ≠ [])
    (settled : Settled s → Pending s ∨ s.saves ≠ [] ∨ Settled { s with tab }) : Sound { s with tab } := by
  refine ⟨ready,flagged,?_⟩
  rcases sound.covered with waiting | ⟨wrote,some_ | same⟩
  · exact .inl waiting
  · exact .inr ⟨wrote,.inl some_⟩
  · rcases settled same with waiting | rest
    · exact .inl waiting
    · exact .inr ⟨wrote,rest⟩

theorem pendingEvent {s : Desk} {disk : FileContent} : Pending { s with disk, events := s.events + 1 } :=
  .inl (Nat.succ_pos _)

theorem savesLeft {s : Desk} {i : Nat} {save : Save} (member : save ∈ s.saves.eraseIdx i) : save ∈ s.saves :=
  (List.eraseIdx_sublist _ _).mem member

theorem settledEdit {s : Desk} {content : Str} (settled : Settled s) :
    Settled { s with tab := withEdit s.tab content } := by
  simpa [Settled] using settled

theorem keepMineTab (tab : EditorTab) :
    (resolveKeepMine tab).status = tab.status ∧ (resolveKeepMine tab).saving = tab.saving := by
  unfold resolveKeepMine
  split <;> exact ⟨rfl,rfl⟩

theorem takeDiskTab (tab : EditorTab) :
    (resolveTakeDisk tab).status = tab.status ∧ (resolveTakeDisk tab).saving = tab.saving := by
  unfold resolveTakeDisk
  split <;> exact ⟨rfl,rfl⟩

theorem settledKeepMine {s : Desk} (offered : ∀ disk ∈ s.tab.conflict, disk = s.disk.content) (settled : Settled s) :
    Settled { s with tab := resolveKeepMine s.tab } := by
  unfold Settled resolveKeepMine at *
  split
  · exact settled
  · next disk conflict => exact .inl (offered disk conflict)

theorem settledTakeDisk {s : Desk} (offered : ∀ disk ∈ s.tab.conflict, disk = s.disk.content) (settled : Settled s) :
    Settled { s with tab := resolveTakeDisk s.tab } := by
  unfold Settled resolveTakeDisk at *
  split
  · exact settled
  · next disk conflict => exact .inl (offered disk conflict)

theorem settledAnswer {s : Desk} {file : FileContent} (ready : s.tab.status = .ready) (idle : s.tab.saving = false)
    (teaches : Teaches s file) : Settled { s with tab := withExternalChange s.tab file } := by
  unfold Settled
  rcases externalCases s.tab file with
      ⟨away,_⟩ | ⟨_,_,⟨clean,same⟩ | ⟨_,calm,same⟩ | ⟨_,changed,same⟩⟩
  · exact absurd away (by simp [ready,idle])
  · rcases teaches with today | ⟨dirty,_,_⟩
    · exact .inl (by rw [same]; exact today)
    · simp [clean] at dirty
  · rcases teaches with today | ⟨_,_,offered⟩
    · exact .inl (by rw [same]; exact calm.symm.trans today)
    · exact .inr (by rw [same]; exact offered)
  · rcases teaches with today | ⟨_,calm,_⟩
    · exact .inr (by rw [same]; exact congrArg some today)
    · exact absurd calm changed

theorem externalTab (tab : EditorTab) (file : FileContent) (ready : tab.status = .ready) :
    (withExternalChange tab file).status = .ready ∧ (withExternalChange tab file).saving = tab.saving := by
  rcases externalCases tab file with ⟨_,same⟩ | ⟨_,_,⟨_,same⟩ | ⟨_,_,same⟩ | ⟨_,_,same⟩⟩
  · rw [same]; exact ⟨ready,rfl⟩
  · rw [same]; exact ⟨rfl,rfl⟩
  · rw [same]; exact ⟨ready,rfl⟩
  · rw [same]; exact ⟨ready,rfl⟩

theorem resolvedSound {s : Desk} {tab : EditorTab} (sound : Sound s)
    (same : tab.status = s.tab.status ∧ tab.saving = s.tab.saving)
    (allowed : Pending s ∨ s.saves ≠ [] ∨ ∀ disk ∈ s.tab.conflict, disk = s.disk.content)
    (settles : (∀ disk ∈ s.tab.conflict, disk = s.disk.content) → Settled s → Settled { s with tab }) :
    Sound { s with tab } := by
  obtain ⟨status,saving⟩ := same
  refine soundTab sound (status ▸ sound.ready) (fun h => sound.flagged (saving ▸ h)) (fun settled => ?_)
  rcases allowed with waiting | some_ | offered
  · exact .inl waiting
  · exact .inr (.inl some_)
  · exact .inr (.inr (settles offered settled))

theorem answeredSound {s : Desk} {i : Nat} {file : FileContent} (sound : Sound s)
    (found : s.reads[i]? = some (some file)) (allowed : Reconciled s (.answered i)) :
    Sound { s with tab := withExternalChange s.tab file, reads := s.reads.eraseIdx i } := by
  have moved := externalTab s.tab file sound.ready
  refine ⟨moved.1,fun saving => sound.flagged (moved.2 ▸ saving),?_⟩
  rcases allowed with waiting | ⟨wrote,some_ | teaches⟩
  · exact .inl waiting
  · exact .inr ⟨wrote,.inl some_⟩
  · refine .inr ⟨wrote,?_⟩
    by_cases none_ : s.saves = []
    · have idle : s.tab.saving = false := by
        cases saving : s.tab.saving with
        | false => rfl
        | true => exact absurd none_ (sound.flagged saving)
      exact .inr (settledAnswer sound.ready idle (teaches _ found _ rfl))
    · exact .inl none_

theorem savedSound {s : Desk} {i : Nat} {written : Str} (sound : Sound s)
    (found : s.saves[i]? = some ⟨written,true⟩) :
    Sound { s with tab := withSaved s.tab written, saves := s.saves.eraseIdx i } := by
  refine ⟨sound.ready,nofun,?_⟩
  rcases sound.covered with waiting | ⟨wrote,_⟩
  · exact .inl waiting
  · have member := List.mem_of_getElem? found
    exact .inr ⟨fun save left => wrote save (savesLeft left),.inr (.inl (wrote _ member rfl))⟩

theorem saveFailedSound {s : Desk} {i : Nat} {written message : Str} (sound : Sound s)
    (found : s.saves[i]? = some ⟨written,false⟩) (allowed : Reconciled s (.saveFailed i message)) :
    Sound { s with tab := withSaveFailed s.tab message, saves := s.saves.eraseIdx i } := by
  refine ⟨sound.ready,nofun,?_⟩
  rcases sound.covered with waiting | ⟨wrote,_⟩
  · exact .inl waiting
  have left : WroteDisk { s with tab := withSaveFailed s.tab message, saves := s.saves.eraseIdx i } :=
    fun save member => wrote save (savesLeft member)
  rcases allowed with waiting | settled | others
  · exact .inl waiting
  · exact .inr ⟨left,.inr settled⟩
  · refine .inr ⟨left,.inl ?_⟩
    have bound := (List.getElem?_eq_some_iff.mp found).1
    have length := List.length_eraseIdx_of_lt bound
    intro none_
    rw [show s.saves.eraseIdx i = [] from none_] at length
    simp only [List.length_nil] at length
    omega

theorem soundKept {s t : Desk} {e : Event} (sound : Sound s) (allowed : Reconciled s e) (taken : step s e = some t) :
    Sound t := by
  cases e with
  | edit content =>
    cases taken
    exact soundTab sound (by simpa using sound.ready) (by simpa using sound.flagged) (fun same => .inr (.inr (settledEdit same)))
  | keepMine => cases taken; exact resolvedSound sound (keepMineTab s.tab) allowed settledKeepMine
  | takeDisk => cases taken; exact resolvedSound sound (takeDiskTab s.tab) allowed settledTakeDisk
  | rendered =>
    cases taken
    exact ⟨sound.ready,sound.flagged,sound.covered⟩
  | save =>
    obtain ⟨_,landed⟩ := Option.ite_none_right_eq_some.mp taken
    cases landed
    refine ⟨sound.ready,by simp,?_⟩
    rcases sound.covered with waiting | ⟨wrote,_⟩
    · exact .inl waiting
    · refine .inr ⟨fun save member wrote_ => ?_,by simp⟩
      rcases List.mem_append.mp member with old | new
      · exact wrote save old wrote_
      · cases List.mem_singleton.mp new
        cases wrote_
  | landed i file =>
    obtain ⟨found,moved⟩ := Option.ite_none_right_eq_some.mp taken
    cases moved
    exact ⟨sound.ready,fun saving => by simpa using sound.flagged saving,.inl pendingEvent⟩
  | saved i =>
    simp only [step] at taken
    split at taken
    · next written found =>
      cases taken
      exact savedSound sound found
    · cases taken
  | saveFailed i message =>
    simp only [step] at taken
    split at taken
    · next written found =>
      cases taken
      exact saveFailedSound sound found allowed
    · cases taken
  | external file =>
    cases taken
    exact ⟨sound.ready,sound.flagged,.inl pendingEvent⟩
  | changed =>
    simp only [step] at taken
    split at taken
    · cases taken
    · cases taken
      exact ⟨sound.ready,sound.flagged,.inl (.inr ⟨none,by simp,trivial⟩)⟩
  | sampled i =>
    obtain ⟨found,moved⟩ := Option.ite_none_right_eq_some.mp taken
    cases moved
    exact ⟨sound.ready,sound.flagged,.inl (.inr ⟨some s.disk,Runs.memSetSelf found,rfl⟩)⟩
  | answered i =>
    simp only [step] at taken
    split at taken
    · next file found =>
      cases taken
      exact answeredSound sound found allowed
    · cases taken

theorem quietSettled {s : Desk} (sound : Sound s) (quiet : Quiet s) : Settled s := by
  obtain ⟨saves,events,reads⟩ := quiet
  rcases sound.covered with waiting | ⟨_,some_ | settled⟩
  · rcases waiting with event | ⟨r,member,_⟩
    · omega
    · simp [reads] at member
  · exact absurd saves some_
  · exact settled

variable {tab : EditorTab} {disk : FileContent} {s : Desk} {es : List Event}

theorem quietTabKnowsFile (ready : tab.status = .ready) (idle : tab.saving = false)
    (settled : tab.baseline = disk.content ∨ tab.conflict = some disk.content)
    (run : Run step Reconciled (opened tab disk) es s) (quiet : Quiet s) : Settled s := by
  have start : Sound (opened tab disk) := by
    refine ⟨ready,?_,.inr ⟨nofun,.inr settled⟩⟩
    simp [opened,idle]
  exact quietSettled (run.invariant start (fun _ _ _ sound allowed taken => soundKept sound allowed taken)) quiet

def sample : EditorTab := withLoaded (newTab 1 "p".toList "/w".toList "f".toList .text) (plainText "a")

theorem quietTabKnowsFileConflict :
    ∃ s, Run step Reconciled (opened sample (plainText "a"))
        [.edit "ab".toList,.rendered,.save,.landed 0 (plainText "ab"),.external (plainText "c"),.edit "abc".toList,.saved 0,
          .changed,.sampled 0,.changed,.answered 0,.sampled 0,.answered 0] s ∧
      s.tab.conflict = some "c".toList ∧ Settled s := by
  have ends : (exec (guarded step Reconciled) (opened sample (plainText "a"))
      [.edit "ab".toList,.rendered,.save,.landed 0 (plainText "ab"),.external (plainText "c"),.edit "abc".toList,.saved 0,
        .changed,.sampled 0,.changed,.answered 0,.sampled 0,.answered 0]).map
        (fun s => (s.tab.conflict,decide (Quiet s))) = some (some "c".toList,true) := by decide +kernel
  obtain ⟨s,done,seen⟩ := Option.map_eq_some_iff.mp ends
  simp only [Prod.mk.injEq,decide_eq_true_eq] at seen
  exact ⟨s,runOfGuarded done,seen.1,quietTabKnowsFile rfl rfl (.inl rfl) (runOfGuarded done) seen.2⟩

/-- The same writer, heard of while the save was still in flight: both answers
are passed over, and the tab ends clean over a file that holds another text. -/
theorem quietTabMissesWriter :
    ∃ s, Run step anyStep (opened sample (plainText "a"))
        [.edit "ab".toList,.rendered,.save,.landed 0 (plainText "ab"),.external (plainText "c"),.changed,.changed,
          .sampled 0,.sampled 1,.answered 0,.answered 0,.saved 0] s ∧
      Quiet s ∧ isDirty s.tab = false ∧ ¬Settled s := by
  have ends : (exec step (opened sample (plainText "a"))
      [.edit "ab".toList,.rendered,.save,.landed 0 (plainText "ab"),.external (plainText "c"),.changed,.changed,
        .sampled 0,.sampled 1,.answered 0,.answered 0,.saved 0]).map
        (fun s => (decide (Quiet s),isDirty s.tab,decide (Settled s))) = some (true,false,false) := by decide +kernel
  obtain ⟨s,done,seen⟩ := Option.map_eq_some_iff.mp ends
  simp only [Prod.mk.injEq,decide_eq_true_eq,decide_eq_false_iff_not] at seen
  exact ⟨s,runOfExec done,seen.1,seen.2.1,seen.2.2⟩

end M6t.EditorFile
