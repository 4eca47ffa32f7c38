import M6t.Editor

/-! What listens on the event channel: the file tree and the editor strip, which
read each thing an event names that they know of, and the git status and the
cluster health, which have one read in flight and ask again behind it. -/
namespace M6t.EventConsumers
open M6t.Text
open M6t.Editor (ROOT parentPath)

inductive Envelope
  | exit (code : Int)
  | tree (root : Str) (dirs : List Str)
  | git (root : Str)
  | health (root : Str)
  deriving DecidableEq, Repr

inductive Target
  | listing (root dir : Str)
  | file (root path : Str)
  | status (root : Str)
  | health (root project rel : Str)
  deriving DecidableEq, Repr

def fromWire (dir : Str) : Str := if dir = ".".toList then ROOT else dir

def invalidates : Envelope → Target → Bool
  | .tree root dirs,.listing r dir => root = r && dir ∈ dirs.map fromWire
  | .tree root dirs,.file r path => root = r && parentPath path ∈ dirs.map fromWire
  | .git root,.status r => root = r
  | .health root,.health r _ _ => root = r
  | _,_ => false

/-- `shown` is the state as every queued update leaves it, `drawn` what the last
render drew of it and `known` the ref the event handler reads. -/
structure Refs (α : Type) where
  shown : List α
  drawn : List α
  known : List α
  reading : List α
  deriving DecidableEq, Repr

structure Loop where
  inFlight : Bool
  stale : Bool
  deriving DecidableEq, Repr

inductive Consumer
  | fileTree (root : Str) (dirs : Refs Str)
  | editorTabs (tabs : Refs (Str × Str))
  | gitStatus (root : Str) (loop : Loop)
  | health (root : Str) (asked : Option (Str × Str)) (loop : Loop)
  deriving DecidableEq, Repr

def affectedTrackedDirs (tracked wireDirs : List Str) : List Str := (wireDirs.map fromWire).filter (· ∈ tracked)

def tabsInChangedDirs (tabs : List (Str × Str)) (root : Str) (wireDirs : List Str) : List (Str × Str) :=
  tabs.filter (fun tab => tab.1 = root ∧ parentPath tab.2 ∈ wireDirs.map fromWire)

def lists (dirs : Refs Str) (asked : List Str) : Refs Str :=
  { dirs with
    shown := asked.foldl (fun shown dir => if dir ∈ shown then shown else shown ++ [dir]) dirs.shown
    reading := dirs.reading ++ asked }

def turn (target : Option Target) : Loop × List Target :=
  match target with
  | none => (⟨false,false⟩,[])
  | some x => (⟨true,false⟩,[x])

def read (target : Option Target) (loop : Loop) : Loop × List Target :=
  if loop.inFlight then ({ loop with stale := true },[]) else turn target

def answered (target : Option Target) (loop : Loop) : Loop × List Target :=
  if loop.stale then turn target else (⟨false,false⟩,[])

def healthTarget (root : Str) (asked : Option (Str × Str)) : Option Target := asked.map (fun a => .health root a.1 a.2)

def dispatch (c : Consumer) (e : Envelope) : Consumer × List Target :=
  match c,e with
  | .fileTree root dirs,.tree changedRoot wireDirs =>
    if changedRoot ≠ root then (c,[])
    else
      let affected := affectedTrackedDirs dirs.known wireDirs
      (.fileTree root (lists dirs affected),affected.map (.listing root))
  | .editorTabs tabs,.tree changedRoot wireDirs =>
    let changed := tabsInChangedDirs tabs.known changedRoot wireDirs
    (.editorTabs { tabs with reading := tabs.reading ++ changed },changed.map (fun tab => .file tab.1 tab.2))
  | .gitStatus root loop,.git changedRoot =>
    if changedRoot = root then (.gitStatus root (read (some (.status root)) loop).1,(read (some (.status root)) loop).2)
    else (c,[])
  | .health root asked loop,.health changedRoot =>
    if changedRoot = root then
      (.health root asked (read (healthTarget root asked) loop).1,(read (healthTarget root asked) loop).2)
    else (c,[])
  | _,_ => (c,[])

inductive Action
  | list (dir : Str)
  | closeProject
  | open_ (root path : Str)
  | close (root path : Str)
  | restoreReads (root path : Str)
  | restored (root path : Str)
  | render
  | effect
  | land (i : Nat)
  | answer
  | refresh
  | select (asked : Option (Str × Str))
  deriving DecidableEq, Repr

def act (c : Consumer) (a : Action) : Option (Consumer × List Target) :=
  match c,a with
  | .fileTree root dirs,.list dir => some (.fileTree root (lists dirs [dir]),[.listing root dir])
  | .fileTree root dirs,.closeProject => some (.fileTree root { dirs with shown := [] },[])
  | .fileTree root dirs,.render => some (.fileTree root { dirs with drawn := dirs.shown },[])
  | .fileTree root dirs,.effect => some (.fileTree root { dirs with known := dirs.drawn },[])
  | .fileTree root dirs,.land i =>
    if i < dirs.reading.length then some (.fileTree root { dirs with reading := dirs.reading.eraseIdx i },[]) else none
  | .editorTabs tabs,.open_ root path =>
    if tabs.known.contains (root,path) then some (c,[])
    else
      some (.editorTabs { tabs with shown := tabs.shown ++ [(root,path)], reading := tabs.reading ++ [(root,path)] },
        [.file root path])
  | .editorTabs tabs,.close root path => some (.editorTabs { tabs with shown := tabs.shown.filter (· ≠ (root,path)) },[])
  | .editorTabs tabs,.restoreReads root path =>
    some (.editorTabs { tabs with reading := tabs.reading ++ [(root,path)] },[.file root path])
  | .editorTabs tabs,.restored root path =>
    if tabs.reading.contains (root,path) then
      some (.editorTabs { tabs with shown := tabs.shown ++ [(root,path)], reading := tabs.reading.erase (root,path) },[])
    else none
  | .editorTabs tabs,.render => some (.editorTabs { tabs with drawn := tabs.shown },[])
  | .editorTabs tabs,.effect => some (.editorTabs { tabs with known := tabs.drawn },[])
  | .editorTabs tabs,.land i =>
    if i < tabs.reading.length then some (.editorTabs { tabs with reading := tabs.reading.eraseIdx i },[]) else none
  | .gitStatus root loop,.refresh =>
    some (.gitStatus root (read (some (.status root)) loop).1,(read (some (.status root)) loop).2)
  | .gitStatus root loop,.answer =>
    if loop.inFlight then
      some (.gitStatus root (answered (some (.status root)) loop).1,(answered (some (.status root)) loop).2)
    else none
  | .health root asked loop,.refresh =>
    some (.health root asked (read (healthTarget root asked) loop).1,(read (healthTarget root asked) loop).2)
  | .health root asked loop,.answer =>
    if loop.inFlight then
      some (.health root asked (answered (healthTarget root asked) loop).1,(answered (healthTarget root asked) loop).2)
    else none
  | .health root _ loop,.select asked =>
    if asked = none then some (.health root none loop,[])
    else some (.health root asked (read (healthTarget root asked) loop).1,(read (healthTarget root asked) loop).2)
  | _,_ => none

def shows : Consumer → List Target
  | .fileTree root dirs => dirs.shown.map (.listing root)
  | .editorTabs tabs => tabs.shown.map (fun tab => .file tab.1 tab.2)
  | .gitStatus root _ => [.status root]
  | .health root asked _ => (healthTarget root asked).toList

def sees : Consumer → List Target
  | .fileTree root dirs => dirs.known.map (.listing root)
  | .editorTabs tabs => tabs.known.map (fun tab => .file tab.1 tab.2)
  | c => shows c

def idle : Consumer → Bool
  | .fileTree _ dirs => dirs.reading = []
  | .editorTabs tabs => tabs.reading = []
  | .gitStatus _ loop => !loop.inFlight
  | .health _ _ loop => !loop.inFlight

def awaits (loop : Loop) (target : Option Target) : List Target :=
  if loop.inFlight && loop.stale then target.toList else []

def queued : Consumer → List Target
  | .gitStatus root loop => awaits loop (some (.status root))
  | .health root asked loop => awaits loop (healthTarget root asked)
  | _ => []

theorem idleQueued {c : Consumer} (quiet : idle c = true) : queued c = [] := by
  cases c with
  | fileTree root dirs => rfl
  | editorTabs tabs => rfl
  | gitStatus root loop =>
    have still : loop.inFlight = false := by simpa [idle] using quiet
    simp [queued,awaits,still]
  | health root asked loop =>
    have still : loop.inFlight = false := by simpa [idle] using quiet
    simp [queued,awaits,still]

/-- What a consumer comes to show it reads now, or will once it may, but for what
comes up unread; and nothing it was to read again is forgotten. -/
structure Keeps (c d : Consumer) (unread reads : List Target) : Prop where
  shown : ∀ x ∈ shows d, x ∈ unread ∨ x ∈ reads ∨ x ∈ queued d ∨ x ∈ shows c
  queued : ∀ x ∈ queued c, x ∈ shows d → x ∈ reads ∨ x ∈ queued d

section
variable {target : Option Target} {loop : Loop} {x : Target}

theorem readReaches (asked : x ∈ target.toList) : x ∈ (read target loop).2 ∨ x ∈ awaits (read target loop).1 target := by
  unfold read
  split
  · next busy =>
    right
    simp only [awaits,busy,Bool.and_true,if_true]
    exact asked
  · cases target with
    | none => cases asked
    | some y => exact Or.inl asked

theorem answeredReaches (owed : x ∈ awaits loop target) :
    x ∈ (answered target loop).2 ∨ x ∈ awaits (answered target loop).1 target := by
  unfold awaits at owed
  split at owed
  · next both =>
    have stale : loop.stale = true := (Bool.and_eq_true_iff.mp both).2
    unfold answered
    rw [if_pos stale]
    cases target with
    | none => cases owed
    | some y => exact Or.inl owed
  · cases owed

end

theorem listsShown (dirs : Refs Str) (asked : List Str) : ∀ dir ∈ (lists dirs asked).shown, dir ∈ asked ∨ dir ∈ dirs.shown := by
  show ∀ dir ∈ asked.foldl _ dirs.shown,_
  generalize dirs.shown = shown
  induction asked generalizing shown with
  | nil => exact fun dir member => Or.inr member
  | cons first rest ih =>
    intro dir member
    rcases ih _ dir member with later | old
    · exact Or.inl (List.mem_cons_of_mem _ later)
    · beta_reduce at old
      split at old
      · exact Or.inr old
      · rcases List.mem_append.mp old with old | new
        · exact Or.inr old
        · exact Or.inl (List.mem_singleton.mp new ▸ List.mem_cons_self)

theorem listsKeeps (root : Str) (dirs : Refs Str) (asked : List Str) :
    Keeps (.fileTree root dirs) (.fileTree root (lists dirs asked)) [] (asked.map (.listing root)) := by
  refine ⟨fun x member => Or.inr ?_,fun x owed => nomatch owed⟩
  obtain ⟨dir,shown,rfl⟩ := List.mem_map.mp member
  rcases listsShown dirs asked dir shown with new | old
  · exact Or.inl (List.mem_map_of_mem new)
  · exact Or.inr (Or.inr (List.mem_map_of_mem old))

theorem keepsShown {c d : Consumer} {unread reads : List Target}
    (shown : ∀ x ∈ shows d, x ∈ unread ∨ x ∈ reads ∨ x ∈ shows c) (queue : queued c = []) : Keeps c d unread reads :=
  ⟨fun x member => (shown x member).imp_right (fun read => read.imp_right Or.inr),
    fun x owed => by rw [queue] at owed; cases owed⟩

theorem keepsSame {c d : Consumer} (shown : ∀ x ∈ shows d, x ∈ shows c) (queue : queued c = []) : Keeps c d [] [] :=
  keepsShown (fun x member => Or.inr (Or.inr (shown x member))) queue

theorem keepsRead {target : Option Target} {loop : Loop} {c d : Consumer} (shown : shows d = target.toList)
    (later : queued d = awaits (read target loop).1 target) : Keeps c d [] (read target loop).2 := by
  have reaches : ∀ x ∈ shows d, x ∈ (read target loop).2 ∨ x ∈ queued d := by
    intro x member
    rw [later]
    rw [shown] at member
    exact readReaches member
  exact ⟨fun x member => Or.inr ((reaches x member).imp_right Or.inl),fun x _ member => reaches x member⟩

theorem dispatchKeeps (c : Consumer) (e : Envelope) : Keeps c (dispatch c e).1 [] (dispatch c e).2 := by
  have same : ∀ c, Keeps c c [] [] := fun c =>
    ⟨fun x member => Or.inr (Or.inr (Or.inr member)),fun x owed _ => Or.inr owed⟩
  unfold dispatch
  split
  · next root dirs changedRoot wireDirs =>
    split
    · exact same _
    · exact listsKeeps root dirs _
  · exact keepsShown (fun x member => Or.inr (Or.inr member)) rfl
  · next root loop changedRoot =>
    split
    · exact keepsRead rfl rfl
    · exact same _
  · next root asked loop changedRoot =>
    split
    · exact keepsRead rfl rfl
    · exact same _
  · exact same _

theorem dispatchReads {c : Consumer} {e : Envelope} {x : Target} (shown : x ∈ shows (dispatch c e).1)
    (stale : invalidates e x = true) (seen : x ∈ sees c) : x ∈ (dispatch c e).2 ∨ x ∈ queued (dispatch c e).1 := by
  cases c with
  | fileTree root dirs =>
    obtain ⟨dir,known,rfl⟩ := List.mem_map.mp seen
    cases e with
    | tree changedRoot wireDirs =>
      simp only [invalidates,Bool.and_eq_true,decide_eq_true_eq] at stale
      simp only [dispatch]
      rw [if_neg (not_not.mpr stale.1)]
      refine Or.inl (List.mem_map_of_mem (List.mem_filter.mpr ⟨stale.2,?_⟩))
      simpa using known
    | _ => cases stale
  | editorTabs tabs =>
    obtain ⟨tab,known,rfl⟩ := List.mem_map.mp seen
    cases e with
    | tree changedRoot wireDirs =>
      simp only [invalidates,Bool.and_eq_true,decide_eq_true_eq] at stale
      refine Or.inl (List.mem_map.mpr ⟨tab,List.mem_filter.mpr ⟨known,?_⟩,rfl⟩)
      simpa [stale.1.symm] using stale.2
    | _ => cases stale
  | gitStatus root loop =>
    cases List.mem_singleton.mp seen
    cases e with
    | git changedRoot =>
      have here : changedRoot = root := by simpa [invalidates] using stale
      simp only [dispatch,if_pos here]
      exact readReaches List.mem_cons_self
    | _ => cases stale
  | health root asked loop =>
    have seen : x ∈ (healthTarget root asked).toList := seen
    obtain ⟨a,_,rfl⟩ := Option.map_eq_some_iff.mp (Option.mem_toList.mp seen)
    cases e with
    | health changedRoot =>
      have here : changedRoot = root := by simpa [invalidates] using stale
      simp only [dispatch,if_pos here]
      exact readReaches seen
    | _ => cases stale

def Action.unread : Action → Option Target
  | .restored root path => some (.file root path)
  | _ => none

theorem addedShown {tabs : List (Str × Str)} {root path : Str} {x : Target}
    (member : x ∈ (tabs ++ [(root,path)]).map (fun tab => .file tab.1 tab.2)) :
    x = .file root path ∨ x ∈ tabs.map (fun tab => .file tab.1 tab.2) := by
  rw [List.map_append] at member
  exact (List.mem_append.mp member).symm.imp_left List.mem_singleton.mp

theorem actKeeps {c d : Consumer} {a : Action} {reads : List Target} (taken : act c a = some (d,reads)) :
    Keeps c d a.unread.toList reads := by
  cases c with
  | fileTree root dirs =>
    cases a with
    | list dir => cases taken; exact listsKeeps root dirs [dir]
    | closeProject => cases taken; exact keepsSame (fun x member => nomatch member) rfl
    | render => cases taken; exact keepsSame (fun x member => member) rfl
    | effect => cases taken; exact keepsSame (fun x member => member) rfl
    | land i =>
      obtain ⟨_,landed⟩ := Option.ite_none_right_eq_some.mp taken
      cases landed
      exact keepsSame (fun x member => member) rfl
    | _ => cases taken
  | editorTabs tabs =>
    cases a with
    | open_ root path =>
      simp only [act] at taken
      split at taken
      · cases taken; exact keepsSame (fun x member => member) rfl
      · cases taken
        refine keepsShown (fun x member => Or.inr ?_) rfl
        rcases addedShown member with rfl | old
        · exact Or.inl List.mem_cons_self
        · exact Or.inr old
    | close root path =>
      cases taken
      refine keepsSame (fun x member => ?_) rfl
      obtain ⟨tab,there,rfl⟩ := List.mem_map.mp member
      exact List.mem_map_of_mem (List.mem_filter.mp there).1
    | restoreReads root path =>
      cases taken
      exact keepsShown (fun x member => Or.inr (Or.inr member)) rfl
    | restored root path =>
      obtain ⟨_,appears⟩ := Option.ite_none_right_eq_some.mp taken
      cases appears
      refine keepsShown (fun x member => ?_) rfl
      rcases addedShown member with rfl | old
      · exact Or.inl List.mem_cons_self
      · exact Or.inr (Or.inr old)
    | render => cases taken; exact keepsSame (fun x member => member) rfl
    | effect => cases taken; exact keepsSame (fun x member => member) rfl
    | land i =>
      obtain ⟨_,landed⟩ := Option.ite_none_right_eq_some.mp taken
      cases landed
      exact keepsSame (fun x member => member) rfl
    | _ => cases taken
  | gitStatus root loop =>
    cases a with
    | refresh =>
      cases taken
      exact keepsRead rfl rfl
    | answer =>
      obtain ⟨_,answers⟩ := Option.ite_none_right_eq_some.mp taken
      cases answers
      exact ⟨fun x member => Or.inr (Or.inr (Or.inr member)),fun x owed _ => answeredReaches owed⟩
    | _ => cases taken
  | health root asked loop =>
    cases a with
    | refresh =>
      cases taken
      exact keepsRead rfl rfl
    | answer =>
      obtain ⟨_,answers⟩ := Option.ite_none_right_eq_some.mp taken
      cases answers
      exact ⟨fun x member => Or.inr (Or.inr (Or.inr member)),fun x owed _ => answeredReaches owed⟩
    | select next =>
      simp only [act] at taken
      split at taken
      · cases taken; exact ⟨fun x member => (nomatch member),fun x owed member => nomatch member⟩
      · cases taken
        exact keepsRead rfl rfl
    | _ => cases taken

end M6t.EventConsumers
