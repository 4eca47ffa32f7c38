import M6t.KubeSession
import M6t.Runs

/-! What the rows of a kubewatch session say. A row is the verdict of the last thing
its group was told about its object in the cycle it was planned in, once the group's
goroutine has made every mark of it: marks are made one row at a time. -/
namespace M6t.KubeRows
open M6t.Text M6t.Runs M6t.Declared M6t.KubePlan M6t.KubeSession

variable {β : Type} (compute : Live β → Verdict)

def told (name : Str) : Observation β → Option Verdict
  | .listed items => some (((items.filter (fun object => object.name = name)).getLast?.map compute).getD notFound)
  | .refused message => some ⟨.unknown,message⟩
  | .event .added (some object) | .event .modified (some object) =>
      if object.name = name then some (compute object) else none
  | .event .deleted (some object) => if object.name = name then some notFound else none
  | .event _ _ => none

def verdictOf (name : Str) (history : List (Observation β)) : Verdict :=
  ((history.filterMap (told compute name)).getLast?).getD notFound

def lastMark (i : Nat) (marks : List Mark) : Option Verdict :=
  ((marks.filter (fun m => m.index = i)).getLast?).map Mark.verdict

variable {compute} {names : Names} {name other : Str} {i : Nat} {verdict : Verdict} {order : List Str}

theorem lastMarkAppend (a b : List Mark) : lastMark i (a ++ b) = (lastMark i b).or (lastMark i a) := by
  simp only [lastMark,List.filter_append,List.getLast?_append]
  cases (b.filter (fun m => m.index = i)).getLast? <;> simp

theorem lastMarkCons (m : Mark) (rest : List Mark) :
    lastMark i (m :: rest) = (lastMark i rest).or (if m.index = i then some m.verdict else none) := by
  rw [← List.singleton_append,lastMarkAppend]
  by_cases here : m.index = i <;> simp [lastMark,here]

theorem lastMarkConst {indices : List Nat} :
    lastMark i (indices.map (fun index => ⟨index,verdict⟩)) = if i ∈ indices then some verdict else none := by
  induction indices with
  | nil => rfl
  | cons index rest ih =>
    rw [List.map_cons,lastMarkCons,ih]
    by_cases here : index = i
    · by_cases later : i ∈ rest <;> simp [here,later]
    · simp [here,Ne.symm here]

/-- Row `i` is the row of this name and of no other. -/
def OwnRow (names : Names) (name : Str) (i : Nat) : Prop := ∀ other, i ∈ names.indices other ↔ other = name

theorem lastMarkOf (own : OwnRow names name i) :
    lastMark i (marksOf names other verdict) = if other = name then some verdict else none := by
  rw [marksOf,lastMarkConst]
  simp only [own other]

theorem lastMarkEach (own : OwnRow names name i) (order : List Str) :
    lastMark i (order.flatMap (fun other => marksOf names other verdict)) = if name ∈ order then some verdict else none := by
  induction order with
  | nil => rfl
  | cons first rest ih =>
    rw [List.flatMap_cons,lastMarkAppend,ih,lastMarkOf own]
    by_cases here : first = name
    · subst here
      by_cases later : first ∈ rest <;> simp [later]
    · by_cases later : name ∈ rest <;> simp [later,here,Ne.symm here]

theorem lastMarkRecords (own : OwnRow names name i) (items : List (Live β)) :
    lastMark i (items.flatMap (record compute names)) =
      (items.filter (fun object => object.name = name)).getLast?.map compute := by
  induction items using List.reverseRecOn with
  | nil => rfl
  | append_singleton items object ih =>
    rw [List.flatMap_append,lastMarkAppend,ih,List.filter_append]
    have one : lastMark i ([object].flatMap (record compute names)) = if object.name = name then some (compute object) else none := by
      rw [List.flatMap_singleton,record,lastMarkOf own]
    rw [one]
    by_cases here : object.name = name <;> simp [here]

theorem ownKey (own : OwnRow names name i) (whole : order.Perm names.keys) : name ∈ order := by
  have listed := (own name).mpr rfl
  refine whole.mem_iff.mpr (AList.mem_keys.mp (AList.lookup_isSome.mp ?_))
  cases found : names.lookup name with
  | none => simp [Names.indices,found] at listed
  | some indices => rfl

theorem marksSay (own : OwnRow names name i) (whole : order.Perm names.keys) (obs : Observation β) :
    lastMark i (marks compute names order obs) = told compute name obs := by
  have keyed := ownKey own whole
  cases obs with
  | listed items =>
    simp only [marks,applyList,told]
    rw [lastMarkAppend,lastMarkRecords own,lastMarkEach own]
    have absent : name ∈ order.filter (fun name => name ∉ items.map Live.name) ↔ name ∉ items.map Live.name := by
      simp only [List.mem_filter,keyed,true_and,decide_eq_true_eq]
    by_cases seen : name ∈ items.map Live.name
    · obtain ⟨object,listed,named⟩ := List.mem_map.mp seen
      have some_ : (items.filter (fun object => object.name = name)).getLast?.isSome := by
        rw [List.getLast?_isSome]
        exact List.ne_nil_of_mem (List.mem_filter.mpr ⟨listed,decide_eq_true named⟩)
      obtain ⟨last,found⟩ := Option.isSome_iff_exists.mp some_
      rw [if_neg (fun member => absent.mp member seen),found]
      rfl
    · have none_ : items.filter (fun object => object.name = name) = [] := by
        refine List.filter_eq_nil_iff.mpr (fun object listed => ?_)
        simpa using fun named => seen (List.mem_map.mpr ⟨object,listed,named⟩)
      rw [if_pos (absent.mpr seen),none_]
      rfl
  | refused message =>
    simp only [marks,parkGroup,told]
    rw [lastMarkEach own,if_pos keyed]
  | event kind object =>
    cases object with
    | none => cases kind <;> rfl
    | some object => cases kind <;> simp only [marks,applyEvent,record,told,lastMarkOf own] <;> rfl

theorem verdictSnoc (history : List (Observation β)) (obs : Observation β) :
    verdictOf compute name (history ++ [obs]) = (told compute name obs).getD (verdictOf compute name history) := by
  rw [verdictOf,List.filterMap_append]
  cases said : told compute name obs <;> simp [verdictOf,said]

theorem marksOwned {m : Mark} {obs : Observation β} (member : m ∈ marks compute names order obs) :
    ∃ name, m.index ∈ names.indices name := by
  have one : ∀ name verdict, m ∈ marksOf names name verdict → ∃ name, m.index ∈ names.indices name := by
    intro name verdict inside
    obtain ⟨index,listed,rfl⟩ := List.mem_map.mp inside
    exact ⟨name,listed⟩
  cases obs with
  | listed items =>
    rcases List.mem_append.mp member with recorded | absent
    · obtain ⟨object,_,inside⟩ := List.mem_flatMap.mp recorded
      exact one _ _ inside
    · obtain ⟨name,_,inside⟩ := List.mem_flatMap.mp absent
      exact one _ _ inside
  | refused message =>
    obtain ⟨name,_,inside⟩ := List.mem_flatMap.mp member
    exact one _ _ inside
  | event kind object =>
    cases object with
    | none => cases kind <;> cases member
    | some object =>
      cases kind with
      | added => exact one _ _ member
      | modified => exact one _ _ member
      | deleted => exact one _ _ member
      | bookmark => cases member
      | error => cases member

def groupsOf (s : State β) : List Group :=
  ((s.workers.map (fun w => (w.cycle,w.group))).filter (fun dated => dated.1 = s.cycle)).map Prod.snd

def quiet : Loop → Bool
  | .seeded _ | .watching _ | .following _ | .superseding _ | .rereading _ | .reread .. | .compared .. | .stopping _ => false
  | _ => true

def blank (row : Status) : Status := { row with verdict := notFound }

structure Sound (compute : Live β → Verdict) (key : SessionKey) (s : State β) : Prop where
  groups : groupsOf s = (plan s.mapper s.planned key.ns).2
  dated : ∀ w ∈ s.workers, w.cycle ≤ s.cycle
  ended : ∀ w ∈ s.workers, w.cycle < s.cycle ∨ quiet s.loop = true → w.stage = .returned
  still : ∀ w ∈ s.workers, w.stage = .returned ∨ w.stage = .planned → w.idle = true
  owned : ∀ w ∈ s.workers, ∀ m ∈ w.todo, ∃ name, m.index ∈ w.group.names.indices name
  rows : s.objects.map blank = s.planned.map (fun declared => blank (row s.mapper key.ns declared))
  unserved : ∀ (i : Nat) (declared : Object), s.planned[i]? = some declared → keyOf s.mapper key.ns declared = none →
    s.objects[i]? = some (row s.mapper key.ns declared)
  served : ∀ w ∈ s.workers, w.cycle = s.cycle → ∀ (name : Str) (i : Nat), i ∈ w.group.names.indices name →
    ∀ row, s.objects[i]? = some row → (lastMark i w.todo).getD row.verdict = verdictOf compute name w.history

variable {key : SessionKey} {s t : State β} {e : Event β} {es : List (Event β)} {w : Worker β} {j : Nat}

theorem newSound : Sound compute key (newSession β) where
  groups := by simp [groupsOf,newSession,plan,sorted,ByKey.groups]
  dated := by simp [newSession]
  ended := by simp [newSession]
  still := by simp [newSession]
  owned := by simp [newSession]
  rows := rfl
  unserved := by simp [newSession]
  served := by simp [newSession]

theorem Sound.framed (sound : Sound compute key s)
    (same : (t.objects,t.workers,t.cycle,t.planned,t.mapper) = (s.objects,s.workers,s.cycle,s.planned,s.mapper))
    (place : quiet t.loop = true → quiet s.loop = true) : Sound compute key t := by
  simp only [Prod.mk.injEq] at same
  obtain ⟨objects,workers,cycle,planned,mapper⟩ := same
  constructor
  case groups => rw [groupsOf,workers,cycle,mapper,planned]; exact sound.groups
  case dated => rw [workers,cycle]; exact sound.dated
  case ended =>
    rw [workers,cycle]
    exact fun w member late => sound.ended w member (late.imp_right place)
  case still => rw [workers]; exact sound.still
  case owned => rw [workers]; exact sound.owned
  case rows => rw [objects,planned,mapper]; exact sound.rows
  case unserved => rw [objects,planned,mapper]; exact sound.unserved
  case served => rw [objects,workers,cycle]; exact sound.served

theorem Sound.planned_ (sound : Sound compute key s) (member : w ∈ s.workers) (now : w.cycle = s.cycle) :
    w.group ∈ (plan s.mapper s.planned key.ns).2 := by
  rw [← sound.groups,groupsOf]
  refine List.mem_map.mpr ⟨(w.cycle,w.group),List.mem_filter.mpr ⟨?_,decide_eq_true now⟩,rfl⟩
  exact List.mem_map.mpr ⟨w,member,rfl⟩

theorem Sound.distinct (sound : Sound compute key s) {i j : Nat} {a b : Worker β} (first : s.workers[i]? = some a)
    (second : s.workers[j]? = some b) (now : a.cycle = s.cycle) (also : b.cycle = s.cycle)
    (same : a.group.key = b.group.key) : i = j := by
  have apart : s.workers.Pairwise (fun a b => a.cycle = s.cycle → b.cycle = s.cycle → a.group.key ≠ b.group.key) := by
    have keys := planDistinct s.mapper s.planned key.ns
    rw [← sound.groups] at keys
    simpa [groupsOf,List.Nodup,List.pairwise_map,List.pairwise_filter] using keys
  obtain ⟨inside,rfl⟩ := List.getElem?_eq_some_iff.mp first
  obtain ⟨inside',rfl⟩ := List.getElem?_eq_some_iff.mp second
  rw [List.pairwise_iff_getElem] at apart
  rcases Nat.lt_trichotomy i j with before | same_ | after
  · exact absurd same (apart i j inside inside' before now also)
  · exact same_
  · exact absurd same.symm (apart j i inside' inside after also now)

theorem Sound.apart (sound : Sound compute key s) {i j r : Nat} {a b : Worker β} {m n : Str} (first : s.workers[i]? = some a)
    (second : s.workers[j]? = some b) (now : a.cycle = s.cycle) (also : b.cycle = s.cycle)
    (owned : r ∈ a.group.names.indices m) (owned' : r ∈ b.group.names.indices n) : i = j ∧ m = n := by
  obtain ⟨keys,names⟩ := planApart (sound.planned_ (List.mem_of_getElem? first) now)
    (sound.planned_ (List.mem_of_getElem? second) also) owned owned'
  exact ⟨sound.distinct first second now also keys,names⟩

theorem Sound.ownRow (sound : Sound compute key s) (member : w ∈ s.workers) (now : w.cycle = s.cycle)
    (owned : i ∈ w.group.names.indices name) : OwnRow w.group.names name i := by
  have inside := sound.planned_ member now
  exact fun other => ⟨fun also => (planApart inside inside also owned).2,fun same => same ▸ owned⟩

theorem Sound.active (sound : Sound compute key s) (member : w ∈ s.workers) (running : w.stage ≠ .returned) :
    w.cycle = s.cycle ∧ quiet s.loop = false := by
  constructor
  · rcases Nat.lt_or_ge w.cycle s.cycle with late | now
    · exact absurd (sound.ended w member (.inl late)) running
    · exact Nat.le_antisymm (sound.dated w member) now
  · rw [← Bool.not_eq_true]
    exact fun calm => running (sound.ended w member (.inr calm))

theorem Sound.running (sound : Sound compute key s) (member : w ∈ s.workers) (busy : w.idle = false) :
    w.stage ≠ .returned ∧ w.stage ≠ .planned := by
  constructor
  · exact fun done => absurd (sound.still w member (.inl done)) (by simp [busy])
  · exact fun planned => absurd (sound.still w member (.inr planned)) (by simp [busy])

theorem Sound.worked (sound : Sound compute key s) {w' : Worker β} {objects : List Status} (at_ : s.workers[j]? = some w)
    (running : w.stage ≠ .returned) (same : (w'.cycle,w'.group) = (w.cycle,w.group))
    (still : w'.stage = .returned ∨ w'.stage = .planned → w'.idle = true)
    (owned : ∀ m ∈ w'.todo, ∃ name, m.index ∈ w.group.names.indices name)
    (blanks : objects.map blank = s.objects.map blank)
    (elsewhere : ∀ i, (∀ name, i ∉ w.group.names.indices name) → objects[i]? = s.objects[i]?)
    (served : ∀ name i, i ∈ w.group.names.indices name → ∀ row, objects[i]? = some row →
      (lastMark i w'.todo).getD row.verdict = verdictOf compute name w'.history) :
    Sound compute key { s with objects := objects, workers := s.workers.set j w' } := by
  have member := List.mem_of_getElem? at_
  obtain ⟨now,busy⟩ := sound.active member running
  obtain ⟨cycle,group⟩ := Prod.mk.inj same
  constructor
  case groups =>
    rw [← sound.groups]
    simp only [groupsOf]
    rw [mapSetSame (fun w => (w.cycle,w.group)) at_ same]
  case dated =>
    intro v inside
    rcases memSetCases inside with rfl | ⟨k,_,found⟩
    · exact Nat.le_of_eq (cycle.trans now)
    · exact sound.dated v (List.mem_of_getElem? found)
  case ended =>
    intro v inside late
    rcases memSetCases inside with rfl | ⟨k,_,found⟩
    · rcases late with earlier | calm
      · exact absurd (cycle.trans now) (Nat.ne_of_lt earlier)
      · exact absurd calm (by simp [busy])
    · exact sound.ended v (List.mem_of_getElem? found) late
  case still =>
    intro v inside
    rcases memSetCases inside with rfl | ⟨k,_,found⟩
    · exact still
    · exact sound.still v (List.mem_of_getElem? found)
  case owned =>
    intro v inside
    rcases memSetCases inside with rfl | ⟨k,_,found⟩
    · exact group ▸ owned
    · exact sound.owned v (List.mem_of_getElem? found)
  case rows =>
    rw [blanks]
    exact sound.rows
  case unserved =>
    intro i declared at_ unserved
    change objects[i]? = _
    rw [elsewhere i (fun name inside => ?_)]
    · exact sound.unserved i declared at_ unserved
    · obtain ⟨owner,found,keyed,_⟩ := (planOwned (sound.planned_ member now) name i).mp inside
      obtain rfl : declared = owner := Option.some.inj (at_.symm.trans found)
      exact absurd keyed (by simp [unserved])
  case served =>
    intro v inside also name i mine row found
    rcases memSetCases inside with rfl | ⟨k,other,at'⟩
    · exact served name i (group ▸ mine) row found
    · refine sound.served v (List.mem_of_getElem? at') also name i mine row ?_
      rw [← elsewhere i (fun another own => other (sound.apart at' at_ also now mine own).1)]
      exact found

theorem marked (objects : List Status) (m : Mark) (i : Nat) :
    (objects.modify m.index (fun row => { row with verdict := m.verdict }))[i]? =
      if m.index = i then objects[i]?.map (fun row => { row with verdict := m.verdict }) else objects[i]? := by
  rw [List.getElem?_modify]
  by_cases here : m.index = i
  · simp only [here,if_true]
    rfl
  · simp only [here,if_false]
    cases objects[i]? <;> rfl

theorem markedBlank (objects : List Status) (m : Mark) :
    (objects.modify m.index (fun row => { row with verdict := m.verdict })).map blank = objects.map blank := by
  refine List.ext_getElem? (fun i => ?_)
  rw [List.getElem?_map,marked,List.getElem?_map]
  by_cases here : m.index = i
  · rw [if_pos here]
    cases objects[i]? <;> rfl
  · rw [if_neg here]

theorem Sound.marked (sound : Sound compute key s) {m : Mark} {rest : List Mark} (at_ : s.workers[j]? = some w)
    (todo : w.todo = m :: rest) : Sound compute key (s.mark j w m rest) := by
  have member := List.mem_of_getElem? at_
  have running := sound.running member (by simp [Worker.idle,todo])
  refine sound.worked at_ running.1 rfl ?_ ?_ (markedBlank _ m) ?_ ?_
  · rintro (done | done)
    · exact absurd done running.1
    · exact absurd done running.2
  · exact fun n inside => sound.owned w member n (todo ▸ List.mem_cons_of_mem m inside)
  · intro i unowned
    rw [KubeRows.marked,if_neg]
    rintro rfl
    obtain ⟨name,own⟩ := sound.owned w member m (todo ▸ List.mem_cons_self)
    exact unowned name own
  · intro name i own row found
    rw [KubeRows.marked] at found
    have now := (sound.active member running.1).1
    have before := sound.served w member now name i own
    rw [todo] at before
    by_cases here : m.index = i
    · rw [if_pos here] at found
      obtain ⟨old,at_,rfl⟩ := Option.map_eq_some_iff.mp found
      have earlier := before old at_
      rw [lastMarkCons,if_pos here] at earlier
      rw [← earlier]
      cases lastMark i rest <;> rfl
    · rw [if_neg here] at found
      have earlier := before row found
      rw [lastMarkCons,if_neg here,Option.or_none] at earlier
      exact earlier

theorem idleTodo (idle : w.idle = true) : w.todo = [] := by
  simp only [Worker.idle,Bool.and_eq_true,decide_eq_true_eq] at idle
  exact idle.1

theorem todoBusy {m : Mark} (member : m ∈ w.todo) : w.idle = false := by
  simp [Worker.idle,List.ne_nil_of_mem member]

theorem nextRunning {obs : Observation β} {stage : Stage} (next : w.next obs = some stage) :
    (w.stage ≠ .returned ∧ w.stage ≠ .planned) ∧ stage ≠ .returned ∧ stage ≠ .planned := by
  cases obs <;> simp only [Worker.next] at next <;> split at next
  case listed.isTrue here => cases next; simp [here]
  case refused.isTrue here => cases next; simp [here]
  case event.isTrue here => cases next; simp [here]
  all_goals cases next

theorem Sound.observed (sound : Sound compute key s) {obs : Observation β} {stage : Stage} (at_ : s.workers[j]? = some w)
    (next : w.next obs = some stage) (idle : w.idle = true) (whole : order.Perm w.group.names.keys) :
    Sound compute key { s with workers := s.workers.set j (w.observed compute order obs stage) } := by
  have member := List.mem_of_getElem? at_
  obtain ⟨running,going,begun⟩ := nextRunning next
  refine sound.worked at_ running.1 rfl ?_ ?_ rfl (fun _ _ => rfl) ?_
  · rintro (done | done)
    · exact absurd done going
    · exact absurd done begun
  · exact fun m inside => marksOwned inside
  · intro name i own row found
    have now := (sound.active member running.1).1
    have before := sound.served w member now name i own row found
    rw [idleTodo idle] at before
    change (lastMark i (marks compute w.group.names order obs)).getD row.verdict = verdictOf compute name (w.history ++ [obs])
    rw [marksSay (sound.ownRow member now own) whole,verdictSnoc,← before]
    rfl

theorem nextGroups (dated : ∀ w ∈ s.workers, w.cycle ≤ s.cycle) (groups : List Group) :
    (((s.workers ++ groups.map (fun g => (⟨s.cycle + 1,g,.planned,[],false,[]⟩ : Worker β))).map
      (fun w => (w.cycle,w.group))).filter (fun dated => dated.1 = s.cycle + 1)).map Prod.snd = groups := by
  have older : (s.workers.map (fun w => (w.cycle,w.group))).filter (fun dated => dated.1 = s.cycle + 1) = [] := by
    refine List.filter_eq_nil_iff.mpr (fun pair inside => ?_)
    obtain ⟨w,member,rfl⟩ := List.mem_map.mp inside
    simpa using Nat.ne_of_lt (Nat.lt_succ_of_le (dated w member))
  rw [List.map_append,List.filter_append,older,List.nil_append,List.map_map]
  rw [List.filter_eq_self.mpr (by simp)]
  simp [Function.comp_def]

theorem Sound.seeded (sound : Sound compute key s) (objects : List Object) (mapper : RESTMapper)
    (calm : quiet s.loop = true) : Sound compute key { s.seed key objects mapper with loop := .seeded objects } := by
  have new : ∀ w ∈ (s.seed key objects mapper).workers, w ∈ s.workers ∧ w.cycle ≤ s.cycle ∨
      ∃ g ∈ (plan mapper objects key.ns).2, w = ⟨s.cycle + 1,g,.planned,[],false,[]⟩ := by
    intro w member
    rcases List.mem_append.mp member with old | fresh
    · exact .inl ⟨old,sound.dated w old⟩
    · obtain ⟨g,planned,rfl⟩ := List.mem_map.mp fresh
      exact .inr ⟨g,planned,rfl⟩
  constructor
  case groups => exact nextGroups sound.dated _
  case dated =>
    intro w member
    rcases new w member with ⟨_,early⟩ | ⟨g,_,rfl⟩
    · exact Nat.le_succ_of_le early
    · exact Nat.le_refl _
  case ended =>
    intro w member late
    rcases new w member with ⟨old,_⟩ | ⟨g,_,rfl⟩
    · exact sound.ended w old (.inr calm)
    · rcases late with early | impossible
      · exact absurd early (Nat.lt_irrefl _)
      · cases impossible
  case still =>
    intro w member
    rcases new w member with ⟨old,_⟩ | ⟨g,_,rfl⟩
    · exact sound.still w old
    · exact fun _ => rfl
  case owned =>
    intro w member
    rcases new w member with ⟨old,_⟩ | ⟨g,_,rfl⟩
    · exact sound.owned w old
    · simp
  case rows =>
    change (plan mapper objects key.ns).1.map blank = _
    rw [planRows,List.map_map]
    rfl
  case unserved =>
    intro i declared at_ _
    change (plan mapper objects key.ns).1[i]? = _
    rw [planRows,List.getElem?_map,show objects[i]? = some declared from at_]
    rfl
  case served =>
    intro w member now name i own row found
    rcases new w member with ⟨_,early⟩ | ⟨g,planned,rfl⟩
    · exact absurd now (Nat.ne_of_lt (Nat.lt_succ_of_le early))
    · obtain ⟨declared,at_,keyed,_⟩ := (planOwned planned name i).mp own
      change (plan mapper objects key.ns).1[i]? = some row at found
      rw [planRows,List.getElem?_map,at_,Option.map_some,Option.some.injEq] at found
      subst found
      cases served : resolve mapper declared with
      | error err => simp [keyOf,served,Except.toOption] at keyed
      | ok mapping => simp [lastMark,verdictOf,KubePlan.row,served]

theorem Sound.cleared (sound : Sound compute key s) (calm : quiet s.loop = true) :
    Sound compute key { s.clear with loop := .parked } := by
  constructor
  case groups =>
    have none_ := nextGroups sound.dated []
    simp only [List.map_nil,List.append_nil] at none_
    exact none_
  case dated => exact fun w member => Nat.le_succ_of_le (sound.dated w member)
  case ended => exact fun w member _ => sound.ended w member (.inr calm)
  case still => exact sound.still
  case owned => exact sound.owned
  case rows => rfl
  case unserved =>
    intro i declared at_
    cases at_
  case served =>
    intro w member now
    exact absurd now (Nat.ne_of_lt (Nat.lt_succ_of_le (sound.dated w member)))

theorem Sound.followed (sound : Sound compute key s) (objects : List Object) :
    Sound compute key { s.follow with loop := .following objects } := by
  have origin : ∀ w' ∈ s.follow.workers, ∃ w ∈ s.workers, w' = w ∨
      w' = { w with stage := .listing } ∧ w.cycle = s.cycle ∧ w.stage = .planned := by
    intro w' member
    obtain ⟨w,old,rfl⟩ := List.mem_map.mp member
    refine ⟨w,old,?_⟩
    split
    · next begun => exact .inr ⟨rfl,begun⟩
    · exact .inl rfl
  constructor
  case groups =>
    refine Eq.trans ?_ sound.groups
    simp only [groupsOf,State.follow,List.map_map]
    refine congrArg (fun l => (List.filter (fun dated => decide (dated.1 = s.cycle)) l).map Prod.snd) ?_
    refine List.map_congr_left (fun w _ => ?_)
    simp only [Function.comp_def]
    split <;> rfl
  case dated =>
    intro w' member
    obtain ⟨w,old,rfl | ⟨rfl,_⟩⟩ := origin w' member
    · exact sound.dated w' old
    · exact sound.dated w old
  case ended =>
    intro w' member late
    obtain ⟨w,old,rfl | ⟨rfl,now,_⟩⟩ := origin w' member
    · exact sound.ended w' old (late.imp_right (fun impossible => by cases impossible))
    · rcases late with early | impossible
      · exact absurd now (Nat.ne_of_lt early)
      · cases impossible
  case still =>
    intro w' member
    obtain ⟨w,old,rfl | ⟨rfl,_,planned⟩⟩ := origin w' member
    · exact sound.still w' old
    · exact fun _ => sound.still w old (.inr planned)
  case owned =>
    intro w' member
    obtain ⟨w,old,rfl | ⟨rfl,_⟩⟩ := origin w' member
    · exact sound.owned w' old
    · exact sound.owned w old
  case rows => exact sound.rows
  case unserved => exact sound.unserved
  case served =>
    intro w' member
    obtain ⟨w,old,rfl | ⟨rfl,_⟩⟩ := origin w' member
    · exact sound.served w' old
    · exact sound.served w old

theorem turnQuiet {act : LoopAct} {place : Loop} (sound : Sound compute key s) (turned : Turn key s act place)
    (calm : quiet place = true) (member : w ∈ s.workers) : w.stage = .returned := by
  by_cases already : quiet s.loop = true
  · exact sound.ended w member (.inr already)
  cases turned with
  | waited here all =>
    rcases Nat.lt_or_ge w.cycle s.cycle with early | now
    · exact sound.ended w member (.inl early)
    · have same := Nat.le_antisymm (sound.dated w member) now
      have done := List.all_eq_true.mp all w member
      simpa [same] using done
  | check here | checkOver here | declare here | unread here | read here | unreached here | reached here | quit here
  | unpark here | again here | retry here | leave here =>
    rw [here] at already
    exact absurd rfl already
  | redeclare | lost | reread | same | superseded | unfollow => cases calm

theorem Sound.step (sound : Sound compute key s) (taken : step compute key s e = some t) : Sound compute key t := by
  cases stepMoves taken with
  | replan | stop | signal | take | publish | rest | quit => exact sound.framed rfl id
  | @turn act place settled turned =>
    exact ⟨sound.groups,sound.dated,fun w member late => late.elim (fun early => sound.ended w member (.inl early))
      (fun calm => turnQuiet sound turned calm member),sound.still,sound.owned,sound.rows,sound.unserved,sound.served⟩
  | notice settled here | park settled here | connect settled here | fail settled here | rebuild settled here =>
    exact sound.framed rfl (fun _ => by rw [here]; rfl)
  | renotice | watch | consume | failed => exact sound.framed rfl (fun calm => by cases calm)
  | clear settled here => exact sound.cleared (by rw [here]; rfl)
  | @seed objects mapper settled here => exact sound.seeded objects mapper (by rw [here]; rfl)
  | @follow objects settled here => exact sound.followed objects
  | observe at_ next idle whole => exact sound.observed at_ next idle whole
  | mark at_ todo settled => exact sound.marked at_ todo
  | @workSignal i w at_ owed =>
    have member := List.mem_of_getElem? at_
    have running := sound.running member (by simp [Worker.idle,owed])
    have worked : Sound compute key { s with workers := s.workers.set i { w with owes := false } } := by
      refine sound.worked at_ running.1 rfl ?_ (sound.owned w member) rfl (fun _ _ => rfl) ?_
      · rintro (done | done)
        · exact absurd done running.1
        · exact absurd done running.2
      · exact sound.served w member (sound.active member running.1).1
    exact worked.framed rfl id
  | @workFail i w denied cause at_ idle going =>
    have member := List.mem_of_getElem? at_
    have running : w.stage ≠ .returned := by
      rcases going with here | here | ⟨here,_⟩ <;> simp [here]
    have worked : Sound compute key { s with workers := s.workers.set i { w with stage := .returned } } := by
      refine sound.worked at_ running rfl (fun _ => idle) (sound.owned w member) rfl (fun _ _ => rfl) ?_
      exact sound.served w member (sound.active member running).1
    exact worked.framed rfl id

theorem runSound {allowed : State β → Event β → Prop} (run : Run (step compute key) allowed (newSession β) es s) :
    Sound compute key s :=
  run.invariant (I := Sound compute key) newSound (fun _ _ _ sound _ taken => sound.step taken)

structure Effect (β : Type) where
  worker : Worker β
  made : Option Mark
  rings : Bool

def make (objects : List Status) : Option Mark → List Status
  | none => objects
  | some m => objects.modify m.index (fun row => { row with verdict := m.verdict })

def changes (objects : List Status) (m : Mark) : Bool :=
  (objects[m.index]?.map (fun row => decide (row.verdict ≠ m.verdict))).getD false

def effect (compute : Live β → Verdict) (objects : List Status) (w : Worker β) : WorkAct β → Option (Effect β)
  | .observe obs order =>
      match w.next obs with
      | some stage =>
          if w.idle ∧ order.isPerm w.group.names.keys then some ⟨w.observed compute order obs stage,none,false⟩ else none
      | none => none
  | .mark =>
      match w.todo, w.owes with
      | m :: rest, false => some ⟨{ w with todo := rest, owes := changes objects m },some m,false⟩
      | _, _ => none
  | .signal => if w.owes then some ⟨{ w with owes := false },none,true⟩ else none
  | .fail _ _ => none

def observing : WorkAct β → Bool
  | .fail _ _ => false
  | _ => true

def after (s : State β) (i : Nat) (x : Effect β) : State β :=
  { s with workers := s.workers.set i x.worker, objects := make s.objects x.made, dirty := s.dirty || x.rings }

theorem stepEffect {i : Nat} {act : WorkAct β} (watching : observing act = true) :
    step compute key s (.work i act) = s.workers[i]?.bind (fun w => (effect compute s.objects w act).map (after s i)) := by
  cases found : s.workers[i]? with
  | none => simp [step,found]
  | some w =>
    simp only [step,found,Option.bind_some]
    cases act with
    | observe obs order =>
      simp only [workStep,effect]
      cases w.next obs with
      | none => rfl
      | some stage => simp only; split <;> simp [after,make]
    | mark =>
      simp only [workStep,effect]
      cases w.todo with
      | nil => rfl
      | cons m rest => cases w.owes <;> simp [after,make,State.mark,changes]
    | signal =>
      simp only [workStep,effect]
      split <;> simp [after,make]
    | fail => cases watching

theorem makeOther {objects : List Status} {made : Option Mark} {i : Nat} (other : ∀ m, made = some m → m.index ≠ i) :
    (make objects made)[i]? = objects[i]? := by
  cases made with
  | none => rfl
  | some m =>
    simp only [make]
    rw [marked,if_neg (other m rfl)]

theorem effectStable {objects : List Status} {made : Option Mark} {act : WorkAct β}
    (other : ∀ m n, made = some m → n ∈ w.todo → m.index ≠ n.index) :
    effect compute (make objects made) w act = effect compute objects w act := by
  cases act with
  | mark =>
    simp only [effect]
    split
    · next n rest todo settled =>
      have same : changes (make objects made) n = changes objects n := by
        simp only [changes]
        rw [makeOther (fun m made_ => other m n made_ (todo ▸ List.mem_cons_self))]
      rw [same]
    · rfl
  | observe obs order => rfl
  | signal => rfl
  | fail denied cause => rfl

theorem madeTodo {objects : List Status} {act : WorkAct β} {x : Effect β} (did : effect compute objects w act = some x)
    {m : Mark} (made : x.made = some m) : m ∈ w.todo := by
  cases act with
  | observe obs order =>
    simp only [effect] at did
    split at did
    · split at did
      · cases did; cases made
      · cases did
    · cases did
  | mark =>
    simp only [effect] at did
    split at did
    · next n rest todo settled =>
      cases did
      cases made
      rw [todo]
      exact List.mem_cons_self
    · cases did
  | signal =>
    simp only [effect] at did
    split at did
    · cases did; cases made
    · cases did
  | fail denied cause => cases did

theorem makeComm {objects : List Status} {a b : Option Mark} (apart : ∀ m n, a = some m → b = some n → m.index ≠ n.index) :
    make (make objects a) b = make (make objects b) a := by
  cases a with
  | none => rfl
  | some m =>
    cases b with
    | none => rfl
    | some n =>
      have other := apart m n rfl rfl
      refine List.ext_getElem? (fun i => ?_)
      simp only [make,marked]
      by_cases here : m.index = i
      · have away : n.index ≠ i := fun also => other (here.trans also.symm)
        simp only [here,away,if_true,if_false]
      · simp only [here,if_false]

theorem Sound.todosApart (sound : Sound compute key s) {i j : Nat} {v w : Worker β} (other : i ≠ j)
    (here : s.workers[i]? = some w) (there : s.workers[j]? = some v) : ∀ m ∈ w.todo, ∀ n ∈ v.todo, m.index ≠ n.index := by
  intro m mine n theirs same
  have member := List.mem_of_getElem? here
  have also := List.mem_of_getElem? there
  obtain ⟨name,own⟩ := sound.owned w member m mine
  obtain ⟨name',own'⟩ := sound.owned v also n theirs
  have now := (sound.active member (sound.running member (todoBusy mine)).1).1
  have now' := (sound.active also (sound.running also (todoBusy theirs)).1).1
  exact other (sound.apart here there now now' own (same ▸ own')).1

theorem workersCommute (sound : Sound compute key s) {i j : Nat} {a b : WorkAct β} (other : i ≠ j)
    (first : observing a = true) (second : observing b = true) :
    (step compute key s (.work i a)).bind (fun t => step compute key t (.work j b)) =
      (step compute key s (.work j b)).bind (fun t => step compute key t (.work i a)) := by
  simp only [stepEffect first,stepEffect second]
  cases here : s.workers[i]? with
  | none =>
    cases there : s.workers[j]? with
    | none => rfl
    | some v =>
      cases right : effect compute s.objects v b with
      | none => simp [right]
      | some y => simp [right,after,List.getElem?_set_ne (Ne.symm other),here]
  | some w =>
    cases there : s.workers[j]? with
    | none =>
      cases left : effect compute s.objects w a with
      | none => simp [left]
      | some x => simp [left,after,List.getElem?_set_ne other,there]
    | some v =>
      have apart := sound.todosApart other here there
      have stillV : ∀ x, effect compute s.objects w a = some x →
          effect compute (make s.objects x.made) v b = effect compute s.objects v b :=
        fun x did => effectStable (fun m n made theirs => apart m (madeTodo did made) n theirs)
      have stillW : ∀ x, effect compute s.objects v b = some x →
          effect compute (make s.objects x.made) w a = effect compute s.objects w a :=
        fun x did => effectStable (fun m n made mine => (apart n mine m (madeTodo did made)).symm)
      cases left : effect compute s.objects w a with
      | none =>
        cases right : effect compute s.objects v b with
        | none => simp [left,right]
        | some y => simp [here,left,right,after,List.getElem?_set_ne (Ne.symm other),stillW y right]
      | some x =>
        cases right : effect compute s.objects v b with
        | none => simp [there,left,right,after,List.getElem?_set_ne other,stillV x left]
        | some y =>
          have rows : make (make s.objects x.made) y.made = make (make s.objects y.made) x.made :=
            makeComm (fun m n made made' => apart m (madeTodo left made) n (madeTodo right made'))
          simp [here,there,left,right,after,List.getElem?_set_ne other,List.getElem?_set_ne (Ne.symm other),stillV x left,
            stillW y right,rows,List.set_comm _ _ other,Bool.or_right_comm]

structure Reported (compute : Live β → Verdict) (key : SessionKey) (s : State β) : Prop where
  rows : s.objects.map blank = s.planned.map (fun declared => blank (row s.mapper key.ns declared))
  unserved : ∀ (i : Nat) (declared : Object) (err : Str), s.planned[i]? = some declared →
    resolve s.mapper declared = .error err → s.objects[i]? = some (unknown declared err)
  served : ∀ (i : Nat) (declared : Object) (group : GroupKey), s.planned[i]? = some declared →
    keyOf s.mapper key.ns declared = some group →
      ∃ w ∈ s.workers, w.cycle = s.cycle ∧ w.group.key = group ∧
        (w.todo = [] → s.objects[i]?.map Status.verdict = some (verdictOf compute declared.name w.history))
  alone : ∀ (i j : Nat) (v w : Worker β), s.workers[i]? = some v → s.workers[j]? = some w → v.cycle = s.cycle →
    w.cycle = s.cycle → v.group.key = w.group.key → i = j
  agree : ∀ (i j : Nat) (a b : Object) (group : GroupKey), s.planned[i]? = some a → s.planned[j]? = some b →
    keyOf s.mapper key.ns a = some group → keyOf s.mapper key.ns b = some group → a.name = b.name →
      (∀ w ∈ s.workers, w.cycle = s.cycle → w.group.key = group → w.todo = []) →
        s.objects[i]?.map Status.verdict = s.objects[j]?.map Status.verdict
  undeclared : ∀ w ∈ s.workers, w.cycle = s.cycle → ∀ object : Live β,
    (∀ declared ∈ s.planned, keyOf s.mapper key.ns declared = some w.group.key → declared.name ≠ object.name) →
      ∀ order, (∀ kind, marks compute w.group.names order (.event kind (some object)) = []) ∧
        ∀ before later, marks compute w.group.names order (.listed (before ++ object :: later)) =
          marks compute w.group.names order (.listed (before ++ later))
  commute : ∀ (i j : Nat) (a b : WorkAct β), i ≠ j → observing a = true → observing b = true →
    (step compute key s (.work i a)).bind (fun t => step compute key t (.work j b)) =
      (step compute key s (.work j b)).bind (fun t => step compute key t (.work i a))
  past : ∀ (i : Nat) (w : Worker β) (act : WorkAct β), s.workers[i]? = some w → w.cycle ≠ s.cycle →
    step compute key s (.work i act) = none

theorem unkeyed {mapper : RESTMapper} {fallback : Str} {declared : Object} (none_ : keyOf mapper fallback declared = none) : ∃ err, resolve mapper declared = .error err := by
  cases served : resolve mapper declared with
  | error err => exact ⟨err,rfl⟩
  | ok mapping => simp [keyOf,served,Except.toOption] at none_

theorem absentSame {seen seen' : List Str} (none_ : names.indices other = [])
    (same : ∀ name, name ≠ other → (name ∈ seen ↔ name ∈ seen')) (order : List Str) :
    (order.filter (fun name => name ∉ seen)).flatMap (fun name => marksOf names name verdict) =
      (order.filter (fun name => name ∉ seen')).flatMap (fun name => marksOf names name verdict) := by
  have bare : marksOf names other verdict = [] := by rw [marksOf,none_]; rfl
  have each : ∀ l : List Str, (order.filter (fun name => name ∉ l)).flatMap (fun name => marksOf names name verdict) =
      order.flatMap (fun name => if name ∈ l then [] else marksOf names name verdict) := by
    intro l
    induction order with
    | nil => rfl
    | cons first rest ih =>
      by_cases inside : first ∈ l
      · rw [List.filter_cons_of_neg (by simpa using inside),List.flatMap_cons,if_pos inside,List.nil_append,ih]
      · rw [List.filter_cons_of_pos (by simpa using inside),List.flatMap_cons,List.flatMap_cons,if_neg inside,ih]
  rw [each,each]
  refine congrArg (fun f => order.flatMap f) (funext (fun name => ?_))
  by_cases here : name = other
  · rw [here,bare,ite_self,ite_self]
  · simp only [same name here]

theorem undeclaredMarks (none_ : names.indices other = []) {object : Live β} (named : object.name = other)
    (order : List Str) : (∀ kind, marks compute names order (.event kind (some object)) = []) ∧
      ∀ before later, marks compute names order (.listed (before ++ object :: later)) =
        marks compute names order (.listed (before ++ later)) := by
  have bare : ∀ verdict, marksOf names object.name verdict = [] := fun verdict => by rw [marksOf,named,none_]; rfl
  constructor
  · intro kind
    cases kind <;> simp only [marks,applyEvent,record,bare]
  · intro before later
    simp only [marks,applyList,List.flatMap_append,List.flatMap_cons,record,bare,List.nil_append]
    congr 1
    refine absentSame none_ (fun name away => ?_) order
    simp [named ▸ away]

theorem Sound.ownedServed (sound : Sound compute key s) {declared : Object} {group : GroupKey}
    (at_ : s.planned[i]? = some declared) (keyed : keyOf s.mapper key.ns declared = some group) :
    ∃ w ∈ s.workers, w.cycle = s.cycle ∧ w.group.key = group ∧
      (w.todo = [] → s.objects[i]?.map Status.verdict = some (verdictOf compute declared.name w.history)) := by
  obtain ⟨g,planned,same⟩ := planServed at_ keyed
  have own := (planOwned planned declared.name i).mpr ⟨declared,at_,same ▸ keyed,rfl⟩
  rw [← sound.groups,groupsOf] at planned
  obtain ⟨dated,inside,rfl⟩ := List.mem_map.mp planned
  obtain ⟨listed,now⟩ := List.mem_filter.mp inside
  obtain ⟨w,member,rfl⟩ := List.mem_map.mp listed
  refine ⟨w,member,of_decide_eq_true now,same,fun done => ?_⟩
  have shown : (s.objects.map blank)[i]? = some (blank (row s.mapper key.ns declared)) := by
    rw [sound.rows,List.getElem?_map,at_]
    rfl
  rw [List.getElem?_map] at shown
  obtain ⟨r,found,_⟩ := Option.map_eq_some_iff.mp shown
  have says_ := sound.served w member (of_decide_eq_true now) declared.name i own r found
  rw [done] at says_
  rw [found,← says_]
  rfl

theorem Sound.past (sound : Sound compute key s) {act : WorkAct β} (at_ : s.workers[j]? = some w)
    (earlier : w.cycle ≠ s.cycle) : KubeSession.step compute key s (.work j act) = none := by
  have member := List.mem_of_getElem? at_
  have done : w.stage = .returned :=
    Decidable.byContradiction (fun running => earlier (sound.active member running).1)
  have idle := sound.still w member (.inl done)
  have todo := idleTodo idle
  have settled : w.owes = false := by
    simp only [Worker.idle,Bool.and_eq_true,Bool.not_eq_true'] at idle
    exact idle.2
  simp only [KubeSession.step,at_]
  cases act with
  | observe obs order =>
    cases next : w.next obs with
    | none => simp [workStep,next]
    | some stage => exact absurd done (nextRunning next).1.1
  | mark => simp [workStep,todo]
  | signal => simp [workStep,settled]
  | fail denied cause => simp [workStep,done]

theorem Sound.reported (sound : Sound compute key s) : Reported compute key s where
  rows := sound.rows
  unserved i declared err at_ refused := by
    have none_ : keyOf s.mapper key.ns declared = none := by simp [keyOf,refused,Except.toOption]
    rw [sound.unserved i declared at_ none_]
    simp [KubePlan.row,refused]
  served i declared group at_ keyed := sound.ownedServed at_ keyed
  alone _ _ _ _ first second now also same := sound.distinct first second now also same
  agree i j a b group first second keyed keyed' named done := by
    obtain ⟨w,member,now,own,shows_⟩ := sound.ownedServed first keyed
    obtain ⟨v,member',now',own',shows'⟩ := sound.ownedServed second keyed'
    obtain ⟨k,found⟩ := List.mem_iff_getElem?.mp member
    obtain ⟨l,found'⟩ := List.mem_iff_getElem?.mp member'
    obtain rfl := sound.distinct found found' now now' (own.trans own'.symm)
    obtain rfl : w = v := Option.some.inj (found.symm.trans found')
    rw [shows_ (done w member now own),shows' (done w member now own),named]
  undeclared w member now object absent order := by
    refine undeclaredMarks (List.eq_nil_iff_forall_not_mem.mpr (fun i own => ?_)) rfl order
    obtain ⟨declared,at_,keyed,named⟩ := (planOwned (sound.planned_ member now) object.name i).mp own
    exact absent declared (List.mem_of_getElem? at_) keyed named
  commute _ _ _ _ other first second := workersCommute sound other first second
  past _ _ _ at_ earlier := sound.past at_ earlier

/-- In every run of a session, whatever the objects declared, the mapper and the order
in which the groups are answered. -/
theorem everyRowReported (run : Run (step compute key) anyStep (newSession β) es s) : Reported compute key s :=
  (runSound run).reported

def deployment (file : Str) : Object := ⟨['v','1'],['D'],[],['w','e','b'],file⟩
def onlyDeployments : RESTMapper := fun _ kind => if kind = ['D'] then .ok ⟨⟨[],['v','1'],['d']⟩,true⟩ else .error []
def prod : SessionKey := ⟨['r'],['p']⟩
def allCurrent : Live Unit → Verdict := fun _ => ⟨.current,[]⟩

def halfApplied : List (Event Unit) :=
  [.loop .check,.loop .declare,.loop (.answer (.ok ([deployment ['a'],deployment ['b']],[]))),.loop .notices,.loop .signal,
    .loop .phase,.loop (.connect (.ok onlyDeployments)),.loop .seed,.loop .signal,.loop .phase,.loop .signal,.loop .follow,
    .work 0 (.observe (.listed [⟨['w','e','b'],()⟩]) [['w','e','b']]),.work 0 .mark]

def twoFiles : List (Event Unit) := halfApplied ++ [.work 0 .signal,.work 0 .mark,.work 0 .signal]

theorem twoFilesReported : ∃ s, Run (step allCurrent prod) anyStep (newSession Unit) twoFiles s ∧
    s.objects.map Status.verdict = [⟨.current,[]⟩,⟨.current,[]⟩] ∧ Reported allCurrent prod s := by
  have ends : (exec (step allCurrent prod) (newSession Unit) twoFiles).map (fun s => s.objects.map Status.verdict) =
      some [⟨.current,[]⟩,⟨.current,[]⟩] := by decide +kernel
  obtain ⟨s,done,seen⟩ := Option.map_eq_some_iff.mp ends
  have run := runOfExec done
  exact ⟨s,run,seen,everyRowReported run⟩

/-- Rows of one object in several files say the same. -/
def Agreeing (key : SessionKey) (s : State β) : Prop :=
  ∀ (i j : Nat) (a b : Object) (group : GroupKey), s.planned[i]? = some a → s.planned[j]? = some b →
    keyOf s.mapper key.ns a = some group → keyOf s.mapper key.ns b = some group → a.name = b.name →
      s.objects[i]?.map Status.verdict = s.objects[j]?.map Status.verdict

theorem halfAppliedDisagrees :
    ∃ s, Run (step allCurrent prod) anyStep (newSession Unit) halfApplied s ∧ ¬Agreeing prod s := by
  have ends : (exec (step allCurrent prod) (newSession Unit) halfApplied).map
      (fun s => (s.objects.map Status.verdict,s.planned,s.planned.map (keyOf s.mapper prod.ns))) =
      some ([⟨.current,[]⟩,notFound],[deployment ['a'],deployment ['b']],
        [some ⟨⟨[],['v','1'],['d']⟩,['p']⟩,some ⟨⟨[],['v','1'],['d']⟩,['p']⟩]) := by decide +kernel
  obtain ⟨s,done,seen⟩ := Option.map_eq_some_iff.mp ends
  simp only [Prod.mk.injEq] at seen
  obtain ⟨verdicts,planned,keys⟩ := seen
  refine ⟨s,runOfExec done,fun agreeing => ?_⟩
  rw [planned] at keys
  simp only [List.map_cons,List.map_nil,List.cons.injEq,and_true] at keys
  have same := agreeing 0 1 _ _ _ (by rw [planned]; rfl) (by rw [planned]; rfl) keys.1 keys.2 rfl
  rw [← List.getElem?_map,← List.getElem?_map,verdicts] at same
  simp [notFound] at same

end M6t.KubeRows
