import M6t.SessionStore
import M6t.Fault

/-! The session file: what a save writes, what a load makes of it, and the normal
form both agree on. The file system and the YAML codec are parameters. -/
namespace M6t.SessionFile
open M6t.Text M6t.Session M6t.SessionStore M6t.Fault

def configFile : String := "session.yaml"
def tempFile : String := configFile ++ ".tmp"

def errNoConfigDir : Cause := .system "no configuration directory is available for the session"

structure Files where
  openRoot : Str → Answer Unit
  openFile : Answer Unit
  name : Str
  write : Answer Unit
  sync : Answer Unit
  close : Answer Unit
  rename : Answer Unit

def open_ (files : Files) (dir : Str) : Answer Unit :=
  if dir = [] then .error ⟨[],errNoConfigDir⟩ else wrapping [.text "opening ",.shown dir] (files.openRoot dir)

def writeAll (files : Files) : Answer Unit := do
  wrapping [.text "writing ",.shown files.name] files.write
  wrapping [.text "syncing ",.shown files.name] files.sync
  wrapping [.text "closing ",.shown files.name] files.close

section
variable {Raw : Type} (existingDir : Str → Bool) (files : Files) (marshal : State → Answer Raw)

def publish (dir : Str) (state : State) : Answer Raw := do
  let raw ← wrapping [.text ("encoding " ++ configFile)] (marshal (normalize existingDir state))
  open_ files dir
  wrapping [.text ("creating " ++ tempFile)] files.openFile
  writeAll files
  wrapping [.text ("replacing " ++ configFile)] files.rename
  .ok raw

/-- The answer of a save, and what `session.yaml` holds after it. -/
def save (dir : Str) (stored : Option Raw) (state : State) : Answer Unit × Option Raw :=
  match publish existingDir files marshal dir state with
  | .ok raw => (.ok (),some raw)
  | .error err => (.error err,stored)

end

structure Capped (record : ProjectSession) : Prop where
  editors : record.editors.length ≤ maxEditors
  terminals : record.terminals.length ≤ maxTerminals
  expanded : record.treeExpanded.length ≤ maxExpanded

structure Pointed (record : ProjectSession) : Prop where
  editors : (record.editors.map SavedEditor.path).Nodup
  named : ∀ e ∈ record.editors, e.path ≠ []
  active : record.activeEditor = [] ∨ ∃ e ∈ record.editors, e.path = record.activeEditor
  terminal : record.activeTerminal = 0 ∨ 0 ≤ record.activeTerminal ∧ record.activeTerminal < record.terminals.length

structure Listed (state : State) : Prop where
  capped : state.projects.length ≤ maxProjects
  names : (state.projects.map ProjectSession.name).Nodup
  named : ∀ record ∈ state.projects, record.name ≠ []
  records : ∀ record ∈ state.projects, Capped record ∧ Pointed record

structure Current (existingDir : Str → Bool) (state : State) : Prop where
  version : state.version = VERSION
  found : ∀ record ∈ state.projects, ∀ t ∈ record.terminals, t.cwd = [] ∨ existingDir t.cwd = true
  expanded : ∀ record ∈ state.projects, record.treeExpanded.Nodup

section
variable {α : Type} {key : α → Str} {useless : Str → Bool}

theorem firstsSublist (seen : List Str) (xs : List α) : (firsts key useless seen xs).Sublist xs := by
  induction xs generalizing seen with
  | nil => exact List.Sublist.slnil
  | cons first rest ih =>
    unfold firsts
    split
    · exact (ih seen).cons first
    · exact (ih (key first :: seen)).cons_cons first

theorem firstsSelf {seen : List Str} {xs : List α} (once : (xs.map key).Nodup)
    (fresh : ∀ x ∈ xs, useless (key x) = false ∧ key x ∉ seen) : firsts key useless seen xs = xs := by
  induction xs generalizing seen with
  | nil => rfl
  | cons first rest ih =>
    obtain ⟨other,once⟩ := List.nodup_cons.mp once
    obtain ⟨useful,unseen⟩ := fresh first List.mem_cons_self
    rw [firsts,if_neg (by simp [useful,unseen])]
    congr 1
    refine ih once (fun x member => ?_)
    obtain ⟨use,new⟩ := fresh x (List.mem_cons_of_mem _ member)
    refine ⟨use,?_⟩
    rw [List.mem_cons,not_or]
    exact ⟨fun same => other (same ▸ List.mem_map_of_mem member),new⟩

theorem firstsCapped (limit : Nat) (xs : List α) : (firsts key useless [] (xs.take limit)).length ≤ limit :=
  (firstsSublist [] (xs.take limit)).length_le.trans (List.length_take_le limit xs)

end

theorem activeSelf {editors : List SavedEditor} {active : Str} (open_ : active = [] ∨ ∃ e ∈ editors, e.path = active) :
    activeEditor editors active = active := by
  unfold activeEditor
  split
  · rfl
  · next closed => exact (open_.resolve_right closed).symm

theorem clampSelf {index : Int} {length : Nat} (inside : index = 0 ∨ 0 ≤ index ∧ index < length) :
    clampIndex index length = index := by
  unfold clampIndex
  split <;> omega

theorem terminalsSelf {existingDir : Str → Bool} {terminals : List SavedTerminal} (fits : terminals.length ≤ maxTerminals)
    (found : ∀ t ∈ terminals, t.cwd = [] ∨ existingDir t.cwd = true) : normalizeTerminals existingDir terminals = terminals := by
  rw [normalizeTerminals,List.take_of_length_le fits]
  refine (List.map_congr_left (fun t member => ?_)).trans (List.map_id _)
  rcases found t member with none_ | there
  · obtain ⟨title,cwd⟩ := t
    subst none_
    simp
  · simp [there]

theorem recordSelf {existingDir : Str → Bool} {record : ProjectSession} (capped : Capped record) (pointed : Pointed record)
    (found : ∀ t ∈ record.terminals, t.cwd = [] ∨ existingDir t.cwd = true) (once : record.treeExpanded.Nodup) :
    normalizeProject existingDir record = record := by
  have editors : normalizeEditors record.editors = record.editors := by
    rw [normalizeEditors,List.take_of_length_le capped.editors]
    exact firstsSelf pointed.editors (fun e member => ⟨by simpa using pointed.named e member,List.not_mem_nil⟩)
  have expanded : uniqueStrings record.treeExpanded maxExpanded = record.treeExpanded := by
    rw [uniqueStrings,List.take_of_length_le capped.expanded]
    exact firstsSelf (by rwa [List.map_id]) (fun _ _ => ⟨rfl,List.not_mem_nil⟩)
  simp only [normalizeProject,editors,terminalsSelf capped.terminals found,activeSelf pointed.active,
    clampSelf pointed.terminal,expanded]

theorem normalizeSelf {existingDir : Str → Bool} {state : State} (listed : Listed state) (current : Current existingDir state) :
    normalize existingDir state = state := by
  have projects : normalizeProjects existingDir state.projects = state.projects := by
    rw [normalizeProjects,List.take_of_length_le listed.capped,
      firstsSelf listed.names (fun p member => ⟨by simpa using listed.named p member,List.not_mem_nil⟩)]
    refine (List.map_congr_left (fun record member => ?_)).trans (List.map_id _)
    obtain ⟨capped,pointed⟩ := listed.records record member
    exact recordSelf capped pointed (current.found record member) (current.expanded record member)
  rw [SessionStore.normalize,projects,← current.version]

theorem terminalsFound (existingDir : Str → Bool) (terminals : List SavedTerminal) :
    ∀ t ∈ normalizeTerminals existingDir terminals, t.cwd = [] ∨ existingDir t.cwd = true := by
  intro t member
  obtain ⟨old,_,rfl⟩ := List.mem_map.mp member
  by_cases there : existingDir old.cwd = true
  · exact Or.inr (by simp [there])
  · exact Or.inl (by simp [there])

theorem recordCapped (existingDir : Str → Bool) (p : ProjectSession) : Capped (normalizeProject existingDir p) :=
  ⟨firstsCapped _ _,by simp [normalizeProject,normalizeTerminals],firstsCapped _ _⟩

theorem normalizeMember {existingDir : Str → Bool} {state : State} {record : ProjectSession}
    (member : record ∈ (normalize existingDir state).projects) :
    ∃ p, p.name ≠ [] ∧ record = normalizeProject existingDir p := by
  obtain ⟨p,kept,rfl⟩ := List.mem_map.mp member
  exact ⟨p,by simpa using (firstsUnseen _ _ p kept).2,rfl⟩

theorem normalizeListed (existingDir : Str → Bool) (state : State) : Listed (normalize existingDir state) := by
  constructor
  · show (List.map _ _).length ≤ maxProjects
    rw [List.length_map]
    exact firstsCapped _ _
  · show ((List.map (normalizeProject existingDir) _).map ProjectSession.name).Nodup
    rw [List.map_map]
    exact firstsNodup _ _
  · intro record member
    obtain ⟨p,named,rfl⟩ := normalizeMember member
    exact named
  · intro record member
    obtain ⟨p,_,rfl⟩ := normalizeMember member
    have tidy := normalizeProjectTidy existingDir p
    exact ⟨recordCapped existingDir p,tidy.editors,tidy.named,tidy.active,tidy.terminal⟩

theorem normalizeCurrent (existingDir : Str → Bool) (state : State) : Current existingDir (normalize existingDir state) := by
  constructor
  · rfl
  · intro record member
    obtain ⟨p,_,rfl⟩ := normalizeMember member
    exact terminalsFound existingDir p.terminals
  · intro record member
    obtain ⟨p,_,rfl⟩ := normalizeMember member
    exact (normalizeProjectTidy existingDir p).expanded

structure NormalForm (existingDir : Str → Bool) (state : State) : Prop where
  again : normalize existingDir (normalize existingDir state) = normalize existingDir state
  listed : Listed (normalize existingDir state)
  current : Current existingDir (normalize existingDir state)
  same : Listed state → Current existingDir state → normalize existingDir state = state

theorem normalForm (existingDir : Str → Bool) (state : State) : NormalForm existingDir state := by
  have listed := normalizeListed existingDir state
  have current := normalizeCurrent existingDir state
  exact ⟨normalizeSelf listed current,listed,current,normalizeSelf⟩

theorem publishNormal {Raw : Type} {existingDir : Str → Bool} {files : Files} {marshal : State → Answer Raw} {dir : Str}
    {state : State} {raw : Raw} (written : publish existingDir files marshal dir state = .ok raw) :
    marshal (normalize existingDir state) = .ok raw := by
  simp only [publish,bindOk,wrappingOk] at written
  obtain ⟨encoded,marshalled,_,_,_,_,_,_,_,_,same⟩ := written
  cases Except.ok.inj same
  exact marshalled

/-- The codec gives back the state it was given. -/
def RoundTrips {Raw : Type} (marshal : State → Answer Raw) (unmarshal : Raw → Option State) (state : State) : Prop :=
  ∀ raw, marshal state = .ok raw → unmarshal raw = some state

theorem normalizedAndLoaded {Raw : Type} (existingDir : Str → Bool) (files : Files) (marshal : State → Answer Raw)
    (unmarshal : Raw → Option State) (dir : Str) (stored : Option Raw) (state : State) :
    NormalForm existingDir state ∧
    (RoundTrips marshal unmarshal (normalize existingDir state) → (save existingDir files marshal dir stored state).1 = .ok () →
      load existingDir ((save existingDir files marshal dir stored state).2.bind unmarshal) = normalize existingDir state) := by
  have normal := normalForm existingDir state
  refine ⟨normal,?_⟩
  intro roundTrip saved
  unfold save at saved ⊢
  split
  · next raw written =>
    rw [Option.bind_some,roundTrip raw (publishNormal written),load,if_neg (by simp [normal.current.version])]
    exact normal.again
  · next failed =>
    rw [failed] at saved
    cases saved

def bare (name : Str) : ProjectSession := ⟨name,[],[],[],0,[],[],false⟩

def repeated : State := ⟨0,[],0,0,0,0,false,[bare "infra".toList,bare [],bare "infra".toList]⟩
def tidied : State := ⟨1,[],0,0,0,0,false,[bare "infra".toList]⟩
def tidiedText : Str := "version: 1\nprojects:\n    - name: infra\n".toList

def writable : Files := ⟨fun _ => .ok (),.ok (),"/home/me/.config/m6t/session.yaml.tmp".toList,.ok (),.ok (),.ok (),.ok ()⟩
def marshalTidied (state : State) : Answer Str := if state = tidied then .ok tidiedText else .error ⟨[],.system "not this state"⟩
def unmarshalTidied (raw : Str) : Option State := if raw = tidiedText then some tidied else none

theorem repeatedLoaded : NormalForm (fun _ => true) repeated ∧
    load (fun _ => true) ((save (fun _ => true) writable marshalTidied "/home/me/.config/m6t".toList none repeated).2.bind unmarshalTidied) =
      normalize (fun _ => true) repeated := by
  have normal : normalize (fun _ => true) repeated = tidied := by decide
  have applied := normalizedAndLoaded (fun _ => true) writable marshalTidied unmarshalTidied "/home/me/.config/m6t".toList none repeated
  refine ⟨applied.1,applied.2 ?_ (by decide)⟩
  intro raw marshalled
  rw [normal,marshalTidied,if_pos rfl] at marshalled
  cases marshalled
  rw [normal]
  decide

def staleTerminal : State := ⟨1,[],0,0,0,0,false,[⟨"infra".toList,[],[],[⟨"bash".toList,"/work/gone".toList⟩],0,[],[],false⟩]⟩

theorem listedButChanged : Listed staleTerminal ∧ normalize (fun _ => false) staleTerminal ≠ staleTerminal := by
  refine ⟨⟨by decide,by decide,by decide,?_⟩,by decide⟩
  intro record member
  cases List.mem_singleton.mp member
  exact ⟨⟨by decide,by decide,by decide⟩,⟨by decide,by decide,Or.inl rfl,Or.inl rfl⟩⟩

end M6t.SessionFile
