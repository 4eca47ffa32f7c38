import M6t.FileText
import M6t.Runs

/-! Calls of `WriteFile` on one path, step by step. All of them go through one
scratch name. A name leads to an inode, and a call that has opened the scratch
writes to the inode it was given, wherever the name leads by then. -/
namespace M6t.AtomicWrite
open M6t.FileText M6t.Runs

structure Inode where
  data : Bytes
  mode : Nat
  deriving DecidableEq, Repr

/-- `file` is the inode behind `f`, and once `f` is closed the one that was.
`published` is what the target held right after the rename of the call. -/
inductive Stage
  | begun
  | opened (file written : Nat)
  | synced (file : Nat)
  | closed (file : Nat)
  | moded (file : Nat)
  | removing
  | failed
  | published (content : Bytes)
  deriving DecidableEq, Repr

structure Call where
  data : Bytes
  perm : Nat
  stage : Stage
  deriving DecidableEq, Repr

structure Disk where
  inodes : List Inode
  scratch : Option Nat
  target : Option Nat
  calls : List Call
  deriving DecidableEq, Repr

inductive Event
  | begin_ (data : Bytes) (perm : Nat)
  | openScratch (i mode : Nat)
  | write (i n : Nat)
  | sync (i : Nat)
  | close (i : Nat)
  | chmod (i : Nat)
  | rename (i : Nat)
  | fail (i : Nat)
  | remove (i : Nat)
  deriving DecidableEq, Repr

def contentOf (inodes : List Inode) (file : Nat) : Bytes := ((inodes[file]?).map Inode.data).getD []

def targetContent (s : Disk) : Option Bytes := s.target.map (contentOf s.inodes)

def writeAt (data : Bytes) (offset : Nat) (chunk : Bytes) : Bytes :=
  data.take offset ++ List.replicate (offset - data.length) 0 ++ chunk ++ data.drop (offset + chunk.length)

def Disk.advance (s : Disk) (i : Nat) (call : Call) (stage : Stage) : Disk :=
  { s with calls := s.calls.set i { call with stage } }

def Disk.truncated (s : Disk) (mode : Nat) : Disk × Nat :=
  match s.scratch with
  | some file => ({ s with inodes := s.inodes.modify file (fun inode => { inode with data := [] }) },file)
  | none => ({ s with inodes := s.inodes ++ [⟨[],mode⟩], scratch := some s.inodes.length },s.inodes.length)

def step (s : Disk) : Event → Option Disk
  | .begin_ data perm => some { s with calls := s.calls ++ [⟨data,perm,.begun⟩] }
  | .openScratch i mode =>
    match s.calls[i]? with
    | some ⟨data,perm,.begun⟩ =>
      let (t,file) := s.truncated mode
      some (t.advance i ⟨data,perm,.begun⟩ (.opened file 0))
    | _ => none
  | .write i n =>
    match s.calls[i]? with
    | some ⟨data,perm,.opened file written⟩ =>
      if 0 < n ∧ written + n ≤ data.length then
        let chunk := (data.drop written).take n
        let t := { s with inodes := s.inodes.modify file (fun inode => { inode with data := writeAt inode.data written chunk }) }
        some (t.advance i ⟨data,perm,.opened file written⟩ (.opened file (written + n)))
      else none
    | _ => none
  | .sync i =>
    match s.calls[i]? with
    | some ⟨data,perm,.opened file written⟩ =>
      if written = data.length then some (s.advance i ⟨data,perm,.opened file written⟩ (.synced file)) else none
    | _ => none
  | .close i =>
    match s.calls[i]? with
    | some ⟨data,perm,.synced file⟩ => some (s.advance i ⟨data,perm,.synced file⟩ (.closed file))
    | _ => none
  | .chmod i =>
    match s.calls[i]? with
    | some ⟨data,perm,.closed file⟩ =>
      match s.scratch with
      | some name =>
        let t := { s with inodes := s.inodes.modify name (fun inode => { inode with mode := perm }) }
        some (t.advance i ⟨data,perm,.closed file⟩ (.moded file))
      | none => some (s.advance i ⟨data,perm,.closed file⟩ .removing)
    | _ => none
  | .rename i =>
    match s.calls[i]? with
    | some ⟨data,perm,.moded file⟩ =>
      match s.scratch with
      | some name =>
        let t := { s with scratch := none, target := some name }
        some (t.advance i ⟨data,perm,.moded file⟩ (.published (contentOf s.inodes name)))
      | none => some (s.advance i ⟨data,perm,.moded file⟩ .removing)
    | _ => none
  | .fail i =>
    match s.calls[i]? with
    | some ⟨data,perm,.begun⟩ => some (s.advance i ⟨data,perm,.begun⟩ .failed)
    | some ⟨data,perm,.opened file written⟩ => some (s.advance i ⟨data,perm,.opened file written⟩ .removing)
    | some ⟨data,perm,.synced file⟩ => some (s.advance i ⟨data,perm,.synced file⟩ .removing)
    | some ⟨data,perm,.closed file⟩ => some (s.advance i ⟨data,perm,.closed file⟩ .removing)
    | some ⟨data,perm,.moded file⟩ => some (s.advance i ⟨data,perm,.moded file⟩ .removing)
    | _ => none
  | .remove i =>
    match s.calls[i]? with
    | some ⟨data,perm,.removing⟩ => some ({ s with scratch := none }.advance i ⟨data,perm,.removing⟩ .failed)
    | _ => none

def holds : Stage → Option Nat
  | .opened file _ => some file
  | .synced file => some file
  | .closed file => some file
  | .moded file => some file
  | _ => none

def Call.progress (call : Call) : Nat :=
  match call.stage with
  | .opened _ written => written
  | _ => call.data.length

/-- A call opens the scratch only when no other call stands between its own open
and its rename. -/
def Alone (s : Disk) : Event → Prop
  | .openScratch _ _ => ∀ call ∈ s.calls, holds call.stage = none
  | _ => True
instance (s e) : Decidable (Alone s e) := by
  cases e <;> unfold Alone <;> infer_instance

structure Own (s : Disk) (call : Call) (file : Nat) : Prop where
  there : file < s.inodes.length
  apart : s.target ≠ some file
  named : s.scratch = none ∨ s.scratch = some file
  content : contentOf s.inodes file = call.data.take call.progress

structure Names (s : Disk) : Prop where
  scratch : ∀ file, s.scratch = some file → file < s.inodes.length ∧ s.target ≠ some file
  target : ∀ file, s.target = some file → file < s.inodes.length

structure Sound (before : Option Bytes) (s : Disk) : Prop where
  names : Names s
  own : ∀ call ∈ s.calls, ∀ file, holds call.stage = some file → Own s call file
  solo : ∀ (i j : Nat) (a b : Call), s.calls[i]? = some a → s.calls[j]? = some b → holds a.stage ≠ none → holds b.stage ≠ none → i = j
  whole : targetContent s = before ∨ ∃ call ∈ s.calls, targetContent s = some call.data
  honest : ∀ call ∈ s.calls, ∀ content, call.stage = .published content → content = call.data

variable {before : Option Bytes} {s t : Disk} {i : Nat} {call : Call} {stage : Stage}

theorem sameData (found : s.calls[i]? = some call) (kept : t.calls = s.calls) {other : Call} (member : other ∈ s.calls) :
    ∃ moved ∈ (t.advance i call stage).calls, moved.data = other.data := by
  show ∃ moved ∈ t.calls.set i _,_
  rw [kept]
  by_cases same : other = call
  · subst same
    exact ⟨_,Runs.memSetSelf found,rfl⟩
  · exact ⟨other,Runs.memSet found member same,rfl⟩

theorem wholeAdvance (sound : Sound before s) (found : s.calls[i]? = some call) (kept : t.calls = s.calls)
    (whole : targetContent t = targetContent s ∨ targetContent t = some call.data) :
    targetContent (t.advance i call stage) = before ∨
      ∃ other ∈ (t.advance i call stage).calls, targetContent (t.advance i call stage) = some other.data := by
  show targetContent t = before ∨ ∃ other ∈ (t.advance i call stage).calls,targetContent t = some other.data
  have called {other : Call} (member : other ∈ s.calls) (content : targetContent t = some other.data) :
      ∃ moved ∈ (t.advance i call stage).calls, targetContent t = some moved.data := by
    obtain ⟨moved,there,same⟩ := sameData found kept member
    exact ⟨moved,there,by rw [same]; exact content⟩
  rcases whole with same | own
  · rcases sound.whole with old | ⟨other,member,content⟩
    · exact .inl (same.trans old)
    · exact .inr (called member (same.trans content))
  · exact .inr (called (List.mem_of_getElem? found) own)

theorem honestAdvance (sound : Sound before s) (kept : t.calls = s.calls)
    (honest : ∀ content, stage = .published content → content = call.data) :
    ∀ other ∈ (t.advance i call stage).calls, ∀ content, other.stage = .published content → content = other.data := by
  intro other member content published
  have member : other ∈ s.calls.set i { call with stage } := kept ▸ member
  rcases Runs.memSetCases member with rfl | ⟨k,_,old⟩
  · exact honest content published
  · exact sound.honest other (List.mem_of_getElem? old) content published

theorem soundMover (sound : Sound before s) (found : s.calls[i]? = some call) (kept : t.calls = s.calls)
    (others : ∀ j other, j ≠ i → s.calls[j]? = some other → holds other.stage = none) (names : Names t)
    (own : ∀ file, holds stage = some file → Own t { call with stage } file)
    (whole : targetContent t = targetContent s ∨ targetContent t = some call.data)
    (honest : ∀ content, stage = .published content → content = call.data) : Sound before (t.advance i call stage) := by
  have only {j : Nat} {other : Call} (at_ : (t.advance i call stage).calls[j]? = some other)
      (held : holds other.stage ≠ none) : j = i := by
    by_contra away
    have at_ : (s.calls.set i { call with stage })[j]? = some other := kept ▸ at_
    rw [List.getElem?_set_ne (Ne.symm away)] at at_
    exact held (others j other away at_)
  refine ⟨⟨names.scratch,names.target⟩,?_,?_,wholeAdvance sound found kept whole,honestAdvance sound kept honest⟩
  · intro other member file held
    have member : other ∈ s.calls.set i { call with stage } := kept ▸ member
    rcases Runs.memSetCases member with rfl | ⟨k,away,old⟩
    · have mine := own file held
      exact ⟨mine.there,mine.apart,mine.named,mine.content⟩
    · simp [others k other away old] at held
  · intro j k a b atJ atK heldA heldB
    rw [only atJ heldA,only atK heldB]

theorem soundBystander (sound : Sound before s) (found : s.calls[i]? = some call) (kept : t.calls = s.calls)
    (inodes : t.inodes = s.inodes) (target : t.target = s.target) (scratch : t.scratch = none ∨ t.scratch = s.scratch)
    (quiet : holds stage = none) (silent : ∀ content, stage ≠ .published content) : Sound before (t.advance i call stage) := by
  have named {file : Nat} (name : t.scratch = some file) : s.scratch = some file := by
    rcases scratch with gone | same
    · simp [gone] at name
    · exact same ▸ name
  have content : targetContent t = targetContent s := by simp [targetContent,inodes,target]
  have old {j : Nat} {other : Call} (at_ : (t.advance i call stage).calls[j]? = some other)
      (held : holds other.stage ≠ none) : s.calls[j]? = some other := by
    have at_ : (s.calls.set i { call with stage })[j]? = some other := kept ▸ at_
    by_cases here : i = j
    · subst here
      rw [List.getElem?_set_self'] at at_
      simp only [found] at at_
      cases at_
      exact absurd quiet held
    · rwa [List.getElem?_set_ne here] at at_
  refine ⟨⟨?_,?_⟩,?_,?_,wholeAdvance sound found kept (.inl content),
    honestAdvance sound kept (fun content published => absurd published (silent content))⟩
  · intro file name
    show file < t.inodes.length ∧ t.target ≠ some file
    rw [inodes,target]
    exact sound.names.scratch file (named name)
  · intro file name
    show file < t.inodes.length
    rw [inodes]
    exact sound.names.target file (target ▸ name)
  · intro other member file held
    obtain ⟨j,at_⟩ := List.mem_iff_getElem?.mp member
    have mine := sound.own other (List.mem_of_getElem? (old at_ (by simp [held]))) file held
    refine ⟨inodes ▸ mine.there,target ▸ mine.apart,?_,inodes ▸ mine.content⟩
    rcases scratch with gone | same
    · exact .inl gone
    · exact same ▸ mine.named
  · intro j k a b atJ atK heldA heldB
    exact sound.solo j k a b (old atJ heldA) (old atK heldB) heldA heldB

theorem contentElsewhere {inodes : List Inode} {f : Inode → Inode} {file other : Nat} (apart : other ≠ file) :
    contentOf (inodes.modify file f) other = contentOf inodes other := by
  simp [contentOf,Ne.symm apart]

theorem contentThere {inodes : List Inode} {f : Inode → Inode} {file : Nat} (there : file < inodes.length) :
    contentOf (inodes.modify file f) file = (f inodes[file]).data := by
  simp [contentOf,there]

theorem contentMode {inodes : List Inode} {file other mode : Nat} :
    contentOf (inodes.modify file (fun inode => { inode with mode })) other = contentOf inodes other := by
  by_cases same : other = file
  · subst same
    by_cases there : other < inodes.length
    · rw [contentThere there]
      simp [contentOf,there]
    · simp [contentOf,there]
  · exact contentElsewhere same

theorem targetElsewhere {f : Inode → Inode} {file : Nat} (apart : s.target ≠ some file) :
    targetContent { s with inodes := s.inodes.modify file f } = targetContent s := by
  unfold targetContent
  cases target : s.target with
  | none => rfl
  | some other =>
    refine congrArg some (contentElsewhere ?_)
    rintro rfl
    exact apart target

theorem namesModified {f : Inode → Inode} {file : Nat} (names : Names s) :
    Names { s with inodes := s.inodes.modify file f } := by
  refine ⟨?_,?_⟩
  · intro other name
    simpa using names.scratch other name
  · intro other name
    simpa using names.target other name

theorem writeContinues {data : Bytes} {written n : Nat} (fits : written + n ≤ data.length) :
    writeAt (data.take written) written ((data.drop written).take n) = data.take (written + n) := by
  have short : (data.take written).length = written := by simp; omega
  have chunk : ((data.drop written).take n).length = n := by simp; omega
  have past : (data.take written).drop (written + n) = [] := List.drop_of_length_le (by omega)
  unfold writeAt
  rw [short,chunk,past,List.take_take,Nat.min_self,Nat.sub_self,List.replicate_zero,List.append_nil,List.append_nil]
  exact List.take_add.symm

theorem othersFree (sound : Sound before s) (found : s.calls[i]? = some call) (held : holds call.stage ≠ none) :
    ∀ j other, j ≠ i → s.calls[j]? = some other → holds other.stage = none := by
  intro j other away at_
  by_contra also
  exact away (sound.solo j i other call at_ found also held)

theorem truncatedSound {data : Bytes} {perm mode file : Nat} (sound : Sound before s)
    (found : s.calls[i]? = some ⟨data,perm,.begun⟩) (alone : ∀ call ∈ s.calls, holds call.stage = none)
    (made : s.truncated mode = (t,file)) : Sound before (t.advance i ⟨data,perm,.begun⟩ (.opened file 0)) := by
  have others (j : Nat) (other : Call) (_ : j ≠ i) (at_ : s.calls[j]? = some other) : holds other.stage = none :=
    alone other (List.mem_of_getElem? at_)
  unfold Disk.truncated at made
  split at made
  · next name =>
    cases made
    have known := sound.names.scratch file name
    refine soundMover sound found rfl others (namesModified sound.names) ?_ (.inl (targetElsewhere known.2)) nofun
    intro other held
    cases held
    refine ⟨by simpa using known.1,known.2,.inr name,?_⟩
    rw [contentThere known.1]
    rfl
  · next name =>
    cases made
    have apart : s.target ≠ some s.inodes.length := fun same => Nat.lt_irrefl _ (sound.names.target _ same)
    refine soundMover sound found rfl others ⟨?_,?_⟩ ?_ (.inl ?_) nofun
    · intro other name
      cases name
      exact ⟨by simp,apart⟩
    · intro other target
      exact Nat.lt_of_lt_of_le (sound.names.target other target) (by simp)
    · intro other held
      cases held
      exact ⟨by simp,apart,.inr rfl,by simp [contentOf,Call.progress]⟩
    · unfold targetContent
      cases target : s.target with
      | none => rfl
      | some other =>
        have bound := sound.names.target other target
        simp [contentOf,List.getElem?_append_left bound]

theorem writtenSound {data : Bytes} {perm file written n : Nat} (sound : Sound before s)
    (found : s.calls[i]? = some ⟨data,perm,.opened file written⟩) (fits : written + n ≤ data.length) :
    Sound before (Disk.advance
      { s with inodes := s.inodes.modify file (fun inode => { inode with data := writeAt inode.data written ((data.drop written).take n) }) }
      i ⟨data,perm,.opened file written⟩ (.opened file (written + n))) := by
  have mine := sound.own _ (List.mem_of_getElem? found) file rfl
  refine soundMover sound found rfl (othersFree sound found nofun) (namesModified sound.names) ?_
    (.inl (targetElsewhere mine.apart)) nofun
  intro other held
  cases held
  refine ⟨by simpa using mine.there,mine.apart,mine.named,?_⟩
  have there := mine.there
  have content : s.inodes[file].data = data.take written := by
    simpa [contentOf,there,Call.progress] using mine.content
  rw [contentThere mine.there,content]
  exact writeContinues fits

theorem heldSound {file : Nat} (sound : Sound before s) (found : s.calls[i]? = some call) (held : holds call.stage = some file)
    (whole : call.progress = call.data.length) (next : holds stage = some file)
    (last : ({ call with stage } : Call).progress = call.data.length) (silent : ∀ content, stage ≠ .published content) :
    Sound before (s.advance i call stage) := by
  have mine := sound.own _ (List.mem_of_getElem? found) file held
  refine soundMover sound found rfl (othersFree sound found (by simp [held])) sound.names ?_ (.inl rfl)
    (fun content published => absurd published (silent content))
  intro other also
  cases Option.some.inj (next.symm.trans also)
  exact ⟨mine.there,mine.apart,mine.named,by rw [last,← whole]; exact mine.content⟩

theorem modedSound {data : Bytes} {perm file name : Nat} (sound : Sound before s)
    (found : s.calls[i]? = some ⟨data,perm,.closed file⟩) :
    Sound before (Disk.advance
      { s with inodes := s.inodes.modify name (fun inode => { inode with mode := perm }) }
      i ⟨data,perm,.closed file⟩ (.moded file)) := by
  have mine := sound.own _ (List.mem_of_getElem? found) file rfl
  refine soundMover sound found rfl (othersFree sound found nofun) (namesModified sound.names) ?_ (.inl ?_) nofun
  · intro other held
    cases held
    exact ⟨by simpa using mine.there,mine.apart,mine.named,by rw [contentMode]; exact mine.content⟩
  · unfold targetContent
    cases target : s.target with
    | none => rfl
    | some other => exact congrArg some contentMode

theorem renamedSound {data : Bytes} {perm file name : Nat} (sound : Sound before s)
    (found : s.calls[i]? = some ⟨data,perm,.moded file⟩) (scratch : s.scratch = some name) :
    Sound before (Disk.advance { s with scratch := none, target := some name } i ⟨data,perm,.moded file⟩
      (.published (contentOf s.inodes name))) := by
  have mine := sound.own _ (List.mem_of_getElem? found) file rfl
  have same : name = file := by
    rcases mine.named with gone | named
    · simp [gone] at scratch
    · exact Option.some.inj (scratch.symm.trans named)
  subst same
  have content : contentOf s.inodes name = data := by
    simpa [Call.progress] using mine.content
  refine soundMover sound found rfl (othersFree sound found nofun) ⟨nofun,?_⟩ nofun (.inr (congrArg some content)) ?_
  · intro other target
    cases target
    exact mine.there
  · intro published same
    cases same
    exact content

theorem begunSound {data : Bytes} {perm : Nat} (sound : Sound before s) :
    Sound before { s with calls := s.calls ++ [⟨data,perm,.begun⟩] } := by
  have old {j : Nat} {other : Call} (at_ : (s.calls ++ [⟨data,perm,.begun⟩])[j]? = some other)
      (held : holds other.stage ≠ none) : s.calls[j]? = some other := by
    by_cases bound : j < s.calls.length
    · rwa [List.getElem?_append_left bound] at at_
    · have last : other = ⟨data,perm,.begun⟩ := by
        rw [List.getElem?_append_right (by omega)] at at_
        exact List.mem_singleton.mp (List.mem_of_getElem? at_)
      exact absurd (congrArg (fun call : Call => holds call.stage) last) held
  refine ⟨⟨sound.names.scratch,sound.names.target⟩,?_,?_,?_,?_⟩
  · intro other member file held
    obtain ⟨j,at_⟩ := List.mem_iff_getElem?.mp member
    have mine := sound.own other (List.mem_of_getElem? (old at_ (by simp [held]))) file held
    exact ⟨mine.there,mine.apart,mine.named,mine.content⟩
  · intro j k a b atJ atK heldA heldB
    exact sound.solo j k a b (old atJ heldA) (old atK heldB) heldA heldB
  · rcases sound.whole with same | ⟨other,member,content⟩
    · exact .inl same
    · exact .inr ⟨other,List.mem_append_left _ member,content⟩
  · intro other member content published
    rcases List.mem_append.mp member with there | new
    · exact sound.honest other there content published
    · cases List.mem_singleton.mp new
      cases published

theorem soundKept {e : Event} (sound : Sound before s) (allowed : Alone s e) (taken : step s e = some t) : Sound before t := by
  cases e with
  | begin_ data perm =>
    cases taken
    exact begunSound sound
  | openScratch i mode =>
    simp only [step] at taken
    split at taken
    · next data perm found =>
      cases taken
      exact truncatedSound sound found allowed rfl
    · cases taken
  | write i n =>
    simp only [step] at taken
    split at taken
    · next data perm file written found =>
      obtain ⟨⟨_,fits⟩,moved⟩ := Option.ite_none_right_eq_some.mp taken
      cases moved
      exact writtenSound sound found fits
    · cases taken
  | sync i =>
    simp only [step] at taken
    split at taken
    · next data perm file written found =>
      obtain ⟨whole,moved⟩ := Option.ite_none_right_eq_some.mp taken
      cases moved
      exact heldSound sound found rfl whole rfl rfl nofun
    · cases taken
  | close i =>
    simp only [step] at taken
    split at taken
    · next data perm file found =>
      cases taken
      exact heldSound sound found rfl rfl rfl rfl nofun
    · cases taken
  | chmod i =>
    simp only [step] at taken
    split at taken
    · next data perm file found =>
      split at taken
      · cases taken
        exact modedSound sound found
      · cases taken
        exact soundBystander sound found rfl rfl rfl (.inr rfl) rfl nofun
    · cases taken
  | rename i =>
    simp only [step] at taken
    split at taken
    · next data perm file found =>
      split at taken
      · next name scratch =>
        cases taken
        exact renamedSound sound found scratch
      · cases taken
        exact soundBystander sound found rfl rfl rfl (.inr rfl) rfl nofun
    · cases taken
  | fail i =>
    simp only [step] at taken
    split at taken
    any_goals cases taken
    all_goals exact soundBystander sound (by assumption) rfl rfl rfl (.inr rfl) rfl nofun
  | remove i =>
    simp only [step] at taken
    split at taken
    · next data perm found =>
      cases taken
      exact soundBystander sound found rfl rfl rfl (.inl rfl) rfl nofun
    · cases taken

variable {start : Disk} {es : List Event}

theorem savesStayWhole (names : Names start) (idle : start.calls = []) (run : Run step Alone start es s) :
    (targetContent s = targetContent start ∨ ∃ call ∈ s.calls, targetContent s = some call.data) ∧
      ∀ call ∈ s.calls, ∀ content, call.stage = .published content → content = call.data := by
  have first : Sound (targetContent start) start :=
    ⟨names,by simp [idle],by simp [idle],.inl rfl,by simp [idle]⟩
  have sound := run.invariant first (fun _ _ _ sound allowed taken => soundKept sound allowed taken)
  exact ⟨sound.whole,sound.honest⟩

def crashed : Disk := ⟨[⟨[111],0o640⟩,⟨[7,7,7],0o640⟩],some 1,some 0,[]⟩

theorem savesStayWholeTwice :
    ∃ s, Run step Alone crashed
        [.begin_ [97,98] 0o640,.begin_ [99] 0o640,.openScratch 0 0o600,.write 0 1,.write 0 1,.sync 0,.close 0,.chmod 0,
          .rename 0,.openScratch 1 0o600,.write 1 1,.sync 1,.close 1,.chmod 1,.rename 1] s ∧
      targetContent s = some [99] ∧ ∀ call ∈ s.calls, ∀ content, call.stage = .published content → content = call.data := by
  have ends : (exec (guarded step Alone) crashed
      [.begin_ [97,98] 0o640,.begin_ [99] 0o640,.openScratch 0 0o600,.write 0 1,.write 0 1,.sync 0,.close 0,.chmod 0,
        .rename 0,.openScratch 1 0o600,.write 1 1,.sync 1,.close 1,.chmod 1,.rename 1]).map targetContent =
        some (some [99]) := by decide +kernel
  obtain ⟨s,done,seen⟩ := Option.map_eq_some_iff.mp ends
  have names : Names crashed := ⟨by decide,by decide⟩
  exact ⟨s,runOfGuarded done,seen,(savesStayWhole names rfl (runOfGuarded done)).2⟩

/-- The second call empties the file the first one is about to rename, and the
first one answers nil. -/
theorem savesTruncateEachOther :
    ∃ s, Run step anyStep ⟨[⟨[111],0o640⟩],none,some 0,[]⟩
        [.begin_ [97,98] 0o640,.openScratch 0 0o640,.write 0 2,.sync 0,.close 0,.chmod 0,.begin_ [99] 0o640,
          .openScratch 1 0o640,.rename 0] s ∧
      targetContent s = some [] ∧ s.calls = [⟨[97,98],0o640,.published []⟩,⟨[99],0o640,.opened 1 0⟩] := by
  have ends : (exec step ⟨[⟨[111],0o640⟩],none,some 0,[]⟩
      [.begin_ [97,98] 0o640,.openScratch 0 0o640,.write 0 2,.sync 0,.close 0,.chmod 0,.begin_ [99] 0o640,
        .openScratch 1 0o640,.rename 0]).map (fun s => (targetContent s,s.calls)) =
        some (some [],[⟨[97,98],0o640,.published []⟩,⟨[99],0o640,.opened 1 0⟩]) := by decide +kernel
  obtain ⟨s,done,seen⟩ := Option.map_eq_some_iff.mp ends
  simp only [Prod.mk.injEq] at seen
  exact ⟨s,runOfExec done,seen.1,seen.2⟩

end M6t.AtomicWrite
