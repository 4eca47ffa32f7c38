import M6t.EditorStrip
import M6t.Records

/-! Git's attribution of the lines on screen. One hook reads the blame of the
active tab and holds one answer; each mounted editor takes over what its pane is
handed when the effects of a render run. What git read, and for whom, goes along
with a blame as a ghost that no step reads. -/
namespace M6t.EditorBlame
open M6t.Text M6t.Editor M6t.Runs
open M6t.EditorStrip (Strip mapTab tabsForProject selected)

structure BlameCommit where
  sha : Str
  author : Str
  authorTime : Int
  summary : Str
  uncommitted : Bool
  deriving DecidableEq, Repr

structure Blame where
  lines : List Int
  commits : List BlameCommit
  deriving DecidableEq, Repr

def commitAt (blame : Blame) (line : Nat) : Option BlameCommit :=
  if line < 1 ∨ line > blame.lines.length then none
  else (blame.lines[line - 1]?).bind (fun index =>
    if index < 0 ∨ index ≥ blame.commits.length then none else blame.commits[index.toNat]?)

structure Anchor where
  number : Nat
  text : Str
  commit : BlameCommit
  deriving DecidableEq, Repr

def marksFor (blame : Blame) (doc : Str) : List Anchor :=
  let lines := doc.splitOn '\n'
  (List.range' 1 (min blame.lines.length lines.length)).filterMap (fun number =>
    match commitAt blame number,lines[number - 1]? with
    | some commit,some text => if commit.uncommitted then none else some ⟨number,text,commit⟩
    | _,_ => none)

structure Wanted where
  root : Str
  path : Str
  baseline : Str
  deriving DecidableEq, Repr

structure Reading where
  id : Nat
  blame : Blame
  wanted : Wanted
  text : Option Str
  deriving DecidableEq, Repr

structure Ask where
  id : Nat
  wanted : Wanted
  reply : Option (Option Reading)
  deriving DecidableEq, Repr

structure Mark where
  reading : Reading
  root : Str
  path : Str
  doc : Str
  deriving DecidableEq, Repr

def Mark.anchors (mark : Mark) : List Anchor := marksFor mark.reading.blame mark.doc

structure Host where
  key : Nat
  doc : Str
  marks : Option Mark
  content : Str
  blame : Option Reading
  current : Bool
  deriving DecidableEq, Repr

structure Save where
  key : Nat
  root : Str
  path : Str
  written : Str
  landed : Bool
  deriving DecidableEq, Repr

structure State where
  strip : Strip
  project : Option Str
  disk : List ((Str × Str) × Str)
  saves : List Save
  held : Option Reading
  ask : Option Ask
  asks : Nat
  wanted : Option Wanted
  hosts : List Host
  due : Bool
  drawnProject : Option Str
  drawnKey : Option Nat
  drawnBlame : Option Reading
  deriving DecidableEq, Repr

def fresh : State := ⟨Strip.empty,none,[],[],none,none,0,none,[],false,none,none,none⟩

def activeKey (s : State) : Option Nat := s.project.bind (fun project => selected s.strip.activeByProject project)

def blameIsCurrent (tab : EditorTab) : Bool := tab.status = .ready && !isDirty tab

def edits (tab : EditorTab) : Bool := tab.status = .ready && !(tab.kind = .markdown && tab.mode = .preview)

def mounted (s : State) : List EditorTab := if s.drawnProject = none then [] else s.strip.rendered.filter edits

def paneBlame (s : State) (tab : EditorTab) : Option Reading := if some tab.key = s.drawnKey then s.drawnBlame else none

def hostOf (s : State) (key : Nat) : Option Host := s.hosts.find? (fun host => host.key = key)

/-- The document once `setContent` has run: it does where the content drawn moved. -/
def document (s : State) (tab : EditorTab) : Str :=
  match hostOf s tab.key with
  | none => tab.content
  | some host => if host.content = tab.content then host.doc else tab.content

def fires (s : State) (tab : EditorTab) : Bool :=
  match hostOf s tab.key with
  | none => true
  | some host => host.blame ≠ paneBlame s tab ∨ host.current ≠ blameIsCurrent tab

def installed (s : State) (tab : EditorTab) : Option Mark :=
  if fires s tab && blameIsCurrent tab then
    (paneBlame s tab).map (fun reading => ⟨reading,tab.root,tab.path,document s tab⟩)
  else (hostOf s tab.key).bind Host.marks

def pane (s : State) (tab : EditorTab) : Host :=
  ⟨tab.key,document s tab,installed s tab,tab.content,paneBlame s tab,blameIsCurrent tab⟩

def echoed (s : State) (drawn : List EditorTab) : List EditorTab :=
  drawn.foldl
    (fun tabs tab =>
      if (hostOf s tab.key).any (fun host => host.doc ≠ document s tab) then
        mapTab tabs tab.key (fun t => withEdit t tab.content)
      else tabs)
    s.strip.tabs

def activeTab (s : State) : Option EditorTab :=
  (tabsForProject s.strip.rendered s.drawnProject).find? (fun tab => some tab.key = s.drawnKey)

def wantedOf (tab : Option EditorTab) : Option Wanted :=
  match tab with
  | none => none
  | some tab => if tab.status = .ready then some ⟨tab.root,tab.path,tab.baseline⟩ else none

def runEffects (s : State) : State :=
  let now := wantedOf (activeTab s)
  let t := { s with
    hosts := (mounted s).map (pane s)
    strip := { s.strip with tabs := echoed s (mounted s), shown := s.strip.rendered }
    due := false
    wanted := now }
  if now = s.wanted then t
  else
    match now with
    | none => { t with held := none, ask := none }
    | some wanted => { t with ask := some ⟨s.asks + 1,wanted,none⟩, asks := s.asks + 1 }

def onTabs (s : State) (key : Nat) (change : EditorTab → EditorTab) : State :=
  { s with strip := { s.strip with tabs := mapTab s.strip.tabs key change } }

inductive Event
  | strip (e : EditorStrip.Event)
  | project (project : Option Str)
  | edit (key : Nat) (content : Str)
  | keepMine (key : Nat)
  | takeDisk (key : Nat)
  | save (key : Nat)
  | landed (i : Nat)
  | saved (i : Nat)
  | saveFailed (i : Nat) (message : Str)
  | written (root path : Str) (text : Option Str)
  | reloaded (key : Nat) (file : FileContent)
  | reloadFailed (key : Nat) (message : Str)
  | served (blame : Option Blame)
  | answered
  | render
  | effects
  deriving DecidableEq, Repr

/-- A render waits for the effects of the one before it. A re-read of a file may
answer with any text, whatever the disk holds by then. -/
def step (s : State) : Event → Option State
  | .strip e =>
    if e = .render ∨ e = .effect then none else (EditorStrip.step s.strip e).map (fun strip => { s with strip })
  | .project project => some { s with project }
  | .edit key content =>
    match hostOf s key,s.strip.rendered.find? (fun tab => tab.key = key) with
    | some _,some tab =>
      if tab.readOnly then none
      else
        let t := onTabs s key (fun tab => withEdit tab content)
        some { t with hosts := s.hosts.map (fun host => if host.key = key then { host with doc := content } else host) }
    | _,_ => none
  | .keepMine key => some (onTabs s key resolveKeepMine)
  | .takeDisk key => some (onTabs s key resolveTakeDisk)
  | .save key =>
    match s.strip.shown.find? (fun tab => tab.key = key) with
    | some tab =>
      if canSave tab then
        some { onTabs s key withSaving with saves := s.saves ++ [⟨key,tab.root,tab.path,tab.content,false⟩] }
      else none
    | none => none
  | .landed i =>
    match s.saves[i]? with
    | some ⟨key,root,path,written,false⟩ =>
      some { s with
        disk := Records.put s.disk (root,path) written
        saves := s.saves.set i ⟨key,root,path,written,true⟩ }
    | _ => none
  | .saved i =>
    match s.saves[i]? with
    | some ⟨key,_,_,written,true⟩ =>
      some { onTabs s key (fun tab => withSaved tab written) with saves := s.saves.eraseIdx i }
    | _ => none
  | .saveFailed i message =>
    match s.saves[i]? with
    | some ⟨key,_,_,_,false⟩ =>
      some { onTabs s key (fun tab => withSaveFailed tab message) with saves := s.saves.eraseIdx i }
    | _ => none
  | .written root path text =>
    some { s with
      disk := match text with
        | none => s.disk.filter (fun entry => entry.1 ≠ (root,path))
        | some text => Records.put s.disk (root,path) text }
  | .reloaded key file => some (onTabs s key (fun tab => withExternalChange tab file))
  | .reloadFailed key message => some (onTabs s key (fun tab => withReloadFailed tab message))
  | .served blame =>
    match s.ask with
    | some ⟨id,wanted,none⟩ =>
      let reading := blame.map (fun blame => (⟨id,blame,wanted,s.disk.lookup (wanted.root,wanted.path)⟩ : Reading))
      some { s with ask := some ⟨id,wanted,some reading⟩ }
    | _ => none
  | .answered =>
    match s.ask with
    | some ⟨_,_,some reading⟩ => some { s with held := reading, ask := none }
    | _ => none
  | .render =>
    if s.due then none
    else some { s with
      strip := { s.strip with rendered := s.strip.tabs }
      due := true
      drawnProject := s.project
      drawnKey := activeKey s
      drawnBlame := s.held }
  | .effects => if s.due then some (runEffects s) else none

def Honest (reading : Reading) : Prop := reading.text = some reading.wanted.baseline
instance (reading) : Decidable (Honest reading) := inferInstanceAs (Decidable (_ = _))

def Truthful (mark : Mark) : Prop :=
  mark.reading.wanted.root = mark.root ∧ mark.reading.wanted.path = mark.path ∧ mark.reading.text = some mark.doc
instance (mark) : Decidable (Truthful mark) := inferInstanceAs (Decidable (_ ∧ _ ∧ _))

def Lawful (s : State) : Prop := ∀ host ∈ s.hosts, ∀ mark ∈ host.marks, Truthful mark
instance (s) : Decidable (Lawful s) := inferInstanceAs (Decidable (∀ _ ∈ _, ∀ _ ∈ _, _))

/-- Git reads a file while the disk holds the baseline it was asked for; a clean
tab's editor takes over a blame only where it was asked for that tab's file, with
the baseline that its document holds. -/
def meets (s : State) : Event → Prop
  | .served (some _) => ∀ ask ∈ s.ask, s.disk.lookup (ask.wanted.root,ask.wanted.path) = some ask.wanted.baseline
  | .effects =>
    ∀ tab ∈ mounted s, blameIsCurrent tab → fires s tab →
      ∀ reading ∈ paneBlame s tab, reading.wanted = ⟨tab.root,tab.path,document s tab⟩
  | _ => True
instance (s e) : Decidable (meets s e) :=
  match e with
  | .served (some _) => inferInstanceAs (Decidable (∀ _ ∈ _, _))
  | .effects => inferInstanceAs (Decidable (∀ _ ∈ _, _ → _ → ∀ _ ∈ _, _))
  | .served none | .strip _ | .project _ | .edit .. | .keepMine _ | .takeDisk _ | .save _ | .landed _ | .saved _
  | .saveFailed .. | .written .. | .reloaded .. | .reloadFailed .. | .answered | .render => inferInstanceAs (Decidable True)

inductive Moves (s : State) : Event → State → Prop where
  | serves {blame : Option Blame} {id : Nat} {wanted : Wanted} (asked : s.ask = some ⟨id,wanted,none⟩) :
      Moves s (.served blame) { s with
        ask := some ⟨id,wanted,some (blame.map (fun blame => ⟨id,blame,wanted,s.disk.lookup (wanted.root,wanted.path)⟩))⟩ }
  | answers {id : Nat} {wanted : Wanted} {reading : Option Reading} (asked : s.ask = some ⟨id,wanted,some reading⟩) :
      Moves s .answered { s with held := reading, ask := none }
  | draws : Moves s .render { s with
      strip := { s.strip with rendered := s.strip.tabs }
      due := true
      drawnProject := s.project
      drawnKey := activeKey s
      drawnBlame := s.held }
  | effects : Moves s .effects (runEffects s)
  | beside {e : Event} (strip : Strip) (project : Option Str) (disk : List ((Str × Str) × Str)) (saves : List Save)
      {hosts : List Host} (marks : hosts.map Host.marks = s.hosts.map Host.marks) :
      Moves s e { s with strip, project, disk, saves, hosts }

theorem stepMoves {s t : State} {e : Event} (taken : step s e = some t) : Moves s e t := by
  cases e with
  | served blame =>
    simp only [step] at taken
    split at taken <;> cases taken
    exact .serves (by assumption)
  | answered =>
    simp only [step] at taken
    split at taken <;> cases taken
    exact .answers (by assumption)
  | render =>
    simp only [step] at taken
    split at taken <;> cases taken
    exact .draws
  | effects =>
    simp only [step] at taken
    split at taken <;> cases taken
    exact .effects
  | strip e =>
    simp only [step] at taken
    split at taken <;> try contradiction
    obtain ⟨strip,_,rfl⟩ := Option.map_eq_some_iff.mp taken
    exact .beside strip _ _ _ rfl
  | edit key content =>
    simp only [step] at taken
    repeat' split at taken
    all_goals cases taken
    -- Typing moves the document under the mark that its editor has.
    refine .beside _ _ _ _ ?_
    rw [List.map_map]
    refine List.map_congr_left (fun host _ => ?_)
    simp only [Function.comp]
    split <;> rfl
  | project _ | keepMine _ | takeDisk _ | written _ _ _ | reloaded _ _ | reloadFailed _ _ =>
    cases taken
    exact .beside _ _ _ _ rfl
  | save _ | landed _ | saved _ | saveFailed _ _ =>
    simp only [step] at taken
    repeat' split at taken
    all_goals cases taken
    exact .beside _ _ _ _ rfl

def replied (s : State) : Option Reading := s.ask.bind (fun ask => ask.reply.join)

def readings (s : State) : List Reading := s.held.toList ++ (replied s).toList ++ s.drawnBlame.toList

variable {s t : State}

theorem effectsReadings (s : State) : ∀ reading ∈ readings (runEffects s), reading ∈ readings s := by
  intro reading member
  unfold runEffects at member
  by_cases same : wantedOf (activeTab s) = s.wanted
  · rw [if_pos same] at member
    exact member
  · rw [if_neg same] at member
    split at member
    · simp only [readings,replied,Option.bind_none,Option.toList_none,List.nil_append,List.mem_append] at member ⊢
      exact .inr member
    · simp only [readings,replied,Option.bind_some,Option.join_none,Option.toList_none,List.append_nil,
        List.mem_append] at member ⊢
      exact member.elim (fun held => .inl (.inl held)) .inr

theorem stepReadings {e : Event} (moved : Moves s e t) :
    ∀ reading ∈ readings t, reading ∈ readings s ∨
      ∃ blame ask, e = .served (some blame) ∧ s.ask = some ask ∧ reading.wanted = ask.wanted ∧
        reading.text = s.disk.lookup (ask.wanted.root,ask.wanted.path) := by
  intro reading member
  cases moved with
  | @serves blame id wanted asked =>
    cases blame with
    | none => exact .inl (by simpa [readings,replied,asked] using member)
    | some blame =>
      simp only [readings,replied,Option.bind_some,Option.join_some,Option.map_some,Option.toList_some,List.mem_append,
        List.mem_singleton] at member
      rcases member with (held | now) | drawn
      · exact .inl (by simp [readings,held])
      · exact .inr ⟨blame,_,rfl,asked,now ▸ rfl,now ▸ rfl⟩
      · exact .inl (by simp [readings,drawn])
  | answers asked =>
    simp only [readings,replied,Option.bind_none,Option.toList_none,List.append_nil,List.mem_append] at member
    rcases member with held | drawn
    · exact .inl (by simpa [readings,replied,asked] using .inr (.inl (by simpa using held)))
    · exact .inl (by simp [readings,drawn])
  | draws =>
    simp only [readings,replied,List.mem_append] at member ⊢
    exact .inl (.inl (member.elim id .inl))
  | effects => exact .inl (effectsReadings s reading member)
  | beside => exact .inl member

theorem stepHonest {e : Event} (honest : ∀ reading ∈ readings s, Honest reading) (ok : meets s e)
    (moved : Moves s e t) : ∀ reading ∈ readings t, Honest reading := by
  intro reading member
  rcases stepReadings moved reading member with old | ⟨blame,ask,rfl,asked,same,read⟩
  · exact honest reading old
  · have disk : s.disk.lookup (ask.wanted.root,ask.wanted.path) = some ask.wanted.baseline := ok ask asked
    show reading.text = some reading.wanted.baseline
    rw [read,disk,same]

theorem effectsHosts (s : State) : (runEffects s).hosts = (mounted s).map (pane s) := by
  unfold runEffects
  by_cases same : wantedOf (activeTab s) = s.wanted
  · rw [if_pos same]
  · rw [if_neg same]
    split <;> rfl

theorem installedNow {tab : EditorTab} (runs : fires s tab = true) (clean : blameIsCurrent tab = true) :
    installed s tab = (paneBlame s tab).map (fun reading => ⟨reading,tab.root,tab.path,document s tab⟩) := by
  unfold installed
  rw [runs,clean]
  rfl

theorem installedBefore {tab : EditorTab} (idle : ¬(fires s tab = true ∧ blameIsCurrent tab = true)) :
    installed s tab = (hostOf s tab.key).bind Host.marks := by
  unfold installed
  rw [if_neg (by simpa using idle)]

theorem handedOut {tab : EditorTab} {reading : Reading} (handed : reading ∈ paneBlame s tab) : reading ∈ readings s := by
  unfold paneBlame at handed
  split at handed
  · exact List.mem_append_right _ (Option.mem_toList.mpr handed)
  · contradiction

theorem truthfulHonest {reading : Reading} {root path doc : Str} (honest : Honest reading) :
    Truthful ⟨reading,root,path,doc⟩ ↔ reading.wanted = ⟨root,path,doc⟩ := by
  unfold Truthful
  rw [show reading.text = some reading.wanted.baseline from honest]
  obtain ⟨id,blame,⟨wantedRoot,wantedPath,baseline⟩,text⟩ := reading
  simp

theorem effectsLawful (honest : ∀ reading ∈ readings s, Honest reading) (lawful : Lawful s) :
    Lawful (runEffects s) ↔ meets s .effects := by
  unfold Lawful
  rw [effectsHosts]
  constructor
  · intro holds tab member clean runs reading handed
    have host : pane s tab ∈ (mounted s).map (pane s) := List.mem_map_of_mem member
    have marked : (⟨reading,tab.root,tab.path,document s tab⟩ : Mark) ∈ (pane s tab).marks := by
      show _ ∈ installed s tab
      rw [installedNow runs clean,show paneBlame s tab = some reading from handed]
      rfl
    exact (truthfulHonest (honest reading (handedOut handed))).mp (holds _ host _ marked)
  · intro holds host there mark marked
    obtain ⟨tab,member,rfl⟩ := List.mem_map.mp there
    have put : mark ∈ installed s tab := marked
    by_cases now : fires s tab = true ∧ blameIsCurrent tab = true
    · rw [installedNow now.1 now.2] at put
      obtain ⟨reading,handed,rfl⟩ := Option.map_eq_some_iff.mp put
      exact (truthfulHonest (honest reading (handedOut handed))).mpr (holds tab member now.2 now.1 reading handed)
    -- Going dirty clears nothing: the mark is the one of an earlier render.
    · rw [installedBefore now] at put
      obtain ⟨before,found,kept⟩ := Option.bind_eq_some_iff.mp put
      exact lawful before (List.mem_of_find?_eq_some found) mark kept

theorem marksLawful : Lawful s ↔ ∀ marks ∈ s.hosts.map Host.marks, ∀ mark ∈ marks, Truthful mark := by
  simp [Lawful]

theorem stepLawful {e : Event} (honest : ∀ reading ∈ readings s, Honest reading) (lawful : Lawful s) (ok : meets s e)
    (moved : Moves s e t) : Lawful t := by
  cases moved with
  | serves | answers | draws => exact lawful
  | effects => exact (effectsLawful honest lawful).mpr ok
  | beside strip project disk saves marks =>
    rw [marksLawful] at lawful ⊢
    exact marks ▸ lawful

theorem runInstalls {es : List Event} (run : Run step meets fresh es s) :
    Lawful s ∧ ∀ t, step s .effects = some t → (Lawful t ↔ meets s .effects) := by
  have both := run.invariant (I := fun s => (∀ reading ∈ readings s, Honest reading) ∧ Lawful s)
    ⟨by simp [readings,replied,fresh],by simp [Lawful,fresh]⟩
    (fun _ _ _ before ok taken => ⟨stepHonest before.1 ok (stepMoves taken),
      stepLawful before.1 before.2 ok (stepMoves taken)⟩)
  refine ⟨both.2,fun t taken => ?_⟩
  simp only [step] at taken
  split at taken <;> try contradiction
  cases Option.some.inj taken
  exact effectsLawful both.1 both.2

theorem anchored {mark : Mark} (truthful : Truthful mark) {anchor : Anchor} (member : anchor ∈ mark.anchors) :
    ∃ text, mark.reading.text = some text ∧ (text.splitOn '\n')[anchor.number - 1]? = some anchor.text ∧
      commitAt mark.reading.blame anchor.number = some anchor.commit ∧ anchor.commit.uncommitted = false := by
  refine ⟨mark.doc,truthful.2.2,?_⟩
  obtain ⟨number,_,placed⟩ := List.mem_filterMap.mp member
  split at placed
  · next commit text attributed line =>
    split at placed
    · contradiction
    · next committed =>
      cases Option.some.inj placed
      exact ⟨line,attributed,by simpa using committed⟩
  · contradiction

def first : BlameCommit := ⟨"4b825dc".toList,"dev".toList,1700000000,"first".toList,false⟩
def second : BlameCommit := ⟨"9fceb02".toList,"dev".toList,1700086400,"second".toList,false⟩
def oneLine (commit : BlameCommit) : Blame := ⟨[0],[commit]⟩

def readFirst : List Event :=
  [.project (some "p".toList),.written "/w".toList "a".toList (some "one".toList),
    .written "/w".toList "b".toList (some "two".toList),.strip (.open_ "p".toList "/w".toList "a".toList),
    .strip (.loaded 0 (plainText "one")),.render,.effects,.served (some (oneLine first)),.answered,.render,.effects]

def switched : List Event :=
  readFirst ++ [.strip (.open_ "p".toList "/w".toList "b".toList),.render,.effects,.strip (.loaded 0 (plainText "two")),
    .render,.effects,.served (some (oneLine second)),.answered,.render,.effects,.strip (.select "p".toList 1),.render,
    .effects]

def savedOver : List Event :=
  readFirst ++ [.edit 1 "two".toList,.render,.effects,.save 1,.landed 0,.saved 0,.render,.effects]

def shownAnchors (s : State) : List (Option (List Anchor)) := s.hosts.map (fun host => host.marks.map Mark.anchors)

theorem runInstallsStale :
    (∃ s, Run step anyStep fresh switched s ∧ ¬Lawful s ∧
        shownAnchors s = [some [⟨1,"one".toList,second⟩],none]) ∧
      ∃ s, Run step anyStep fresh savedOver s ∧ ¬Lawful s ∧ shownAnchors s = [some [⟨1,"two".toList,first⟩]] := by
  constructor
  · have ends : (exec step fresh switched).map (fun s => (decide (Lawful s),shownAnchors s)) =
        some (false,[some [⟨1,"one".toList,second⟩],none]) := by decide +kernel
    obtain ⟨s,done,seen⟩ := Option.map_eq_some_iff.mp ends
    obtain ⟨unlawful,shown⟩ := Prod.mk.inj seen
    exact ⟨s,runOfExec done,of_decide_eq_false unlawful,shown⟩
  · have ends : (exec step fresh savedOver).map (fun s => (decide (Lawful s),shownAnchors s)) =
        some (false,[some [⟨1,"two".toList,first⟩]]) := by decide +kernel
    obtain ⟨s,done,seen⟩ := Option.map_eq_some_iff.mp ends
    obtain ⟨unlawful,shown⟩ := Prod.mk.inj seen
    exact ⟨s,runOfExec done,of_decide_eq_false unlawful,shown⟩

theorem runInstallsFirst : ∃ s, Run step meets fresh readFirst s ∧ Lawful s ∧
    shownAnchors s = [some [⟨1,"one".toList,first⟩]] := by
  have ends : (exec (guarded step meets) fresh readFirst).map shownAnchors =
      some [some [⟨1,"one".toList,first⟩]] := by decide +kernel
  obtain ⟨s,done,shown⟩ := Option.map_eq_some_iff.mp ends
  exact ⟨s,runOfGuarded done,(runInstalls (runOfGuarded done)).1,shown⟩

end M6t.EditorBlame
