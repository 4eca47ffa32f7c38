import M6t.TerminalStrip
import M6t.Records
import Mathlib.Data.List.Nodup

/-! The tab each project has selected, in both strips. The handlers read the
strip of the last render, so a tab already closed can be the one they select. -/
namespace M6t.StripSelections
open M6t.Text M6t.Runs
open M6t.EditorStrip (Selections select selected)

abbrev Face := Str × Nat

def Held (tabs : List Face) (project : Str) : Option Nat → Prop
  | none => ∀ face ∈ tabs, face.1 ≠ project
  | some key => (project,key) ∈ tabs
instance (tabs project) : ∀ key, Decidable (Held tabs project key)
  | none => inferInstanceAs (Decidable (∀ face ∈ tabs, face.1 ≠ project))
  | some key => inferInstanceAs (Decidable ((project,key) ∈ tabs))

def Selects (tabs : List Face) (active : Selections) : Prop := ∀ project, Held tabs project (selected active project)

def keysOf (tabs : List Face) (project : Str) : List Nat := (tabs.filter (fun face => face.1 = project)).map Prod.snd

def without (tabs : List Face) (key : Nat) : List Face := tabs.filter (fun face => face.2 ≠ key)

def beside (keys : List Nat) (key : Nat) : Option Nat :=
  (keys.dropWhile (fun other => other ≠ key)).tail.head?.or (keys.takeWhile (fun other => other ≠ key)).getLast?

/-- Where the tab that goes is the selected one, the strip last drawn has it, and
the tab beside it there is among those that stay; with none beside it, none stays. -/
def Leaves (shown tabs : List Face) (active : Selections) (key : Nat) : Prop :=
  ∀ face ∈ tabs, face.2 = key → selected active face.1 = some key →
    key ∈ keysOf shown face.1 ∧ Held (without tabs key) face.1 (beside (keysOf shown face.1) key)
instance (shown tabs active key) : Decidable (Leaves shown tabs active key) := by
  unfold Leaves; infer_instance

structure Known (keys : Nat) (tabs rendered shown made : List Face) : Prop where
  apart : (made.map Prod.snd).Nodup
  bound : ∀ face ∈ made, face.2 ≤ keys
  tabs : tabs.Sublist made
  rendered : rendered.Sublist made
  shown : shown.Sublist made

variable {tabs rendered shown made more : List Face} {active : Selections} {project : Str} {key keys : Nat}

theorem selectedWithout (active : Selections) (project other : Str) :
    selected (active.filter (fun entry => entry.1 ≠ project)) other =
      if other = project then none else selected active other := by
  unfold selected
  rw [Records.lookupWithout]
  split <;> rfl

theorem selectedSelect (active : Selections) (project : Str) (key : Option Nat) (other : Str) :
    selected (select active project key) other = if other = project then key else selected active other := by
  unfold selected select
  rw [List.lookup_cons,Records.lookupWithout]
  by_cases same : other = project
  · simp [same]
  · rw [show (other == project) = false by simpa using same,if_neg same,if_neg same]

theorem heldMore {next : Option Nat} (held : Held tabs project next) (others : ∀ face ∈ more, face.1 ≠ project) :
    Held (tabs ++ more) project next := by
  cases next with
  | none =>
    intro face member
    rcases List.mem_append.mp member with old | new
    · exact held face old
    · exact others face new
  | some key => exact List.mem_append_left _ held

theorem addedSelects (holds : Selects tabs active) (own : ∀ face ∈ more, face.1 = project) (new : (project,key) ∈ more) :
    Selects (tabs ++ more) (select active project (some key)) := by
  intro other
  rw [selectedSelect]
  by_cases same : other = project
  · subst same
    rw [if_pos rfl]
    exact List.mem_append_right _ new
  · rw [if_neg same]
    exact heldMore (holds other) (fun face member here => same (here ▸ own face member))

theorem selectSelects (holds : Selects tabs active) :
    Selects tabs (select active project (some key)) ↔ (project,key) ∈ tabs := by
  constructor
  · intro after
    have held := after project
    rw [selectedSelect,if_pos rfl] at held
    exact held
  · intro member other
    rw [selectedSelect]
    by_cases same : other = project
    · subst same
      rw [if_pos rfl]
      exact member
    · rw [if_neg same]
      exact holds other

theorem removedSelects (holds : Selects tabs active) (project : Str) :
    Selects (tabs.filter (fun face => face.1 ≠ project)) (active.filter (fun entry => entry.1 ≠ project)) := by
  intro other
  rw [selectedWithout]
  by_cases same : other = project
  · subst same
    rw [if_pos rfl]
    exact fun face member => of_decide_eq_true (List.mem_filter.mp member).2
  · rw [if_neg same]
    have held := holds other
    cases now : selected active other with
    | none =>
      rw [now] at held
      exact fun face member => held face (List.mem_filter.mp member).1
    | some key =>
      rw [now] at held
      exact List.mem_filter.mpr ⟨held,by simpa using same⟩

theorem heldWithout {next : Option Nat} (held : Held tabs project next) (other : next ≠ some key) :
    Held (without tabs key) project next := by
  cases next with
  | none => exact fun face member => held face (List.mem_filter.mp member).1
  | some next => exact List.mem_filter.mpr ⟨held,by simpa using fun same => other (congrArg some same)⟩

theorem closedSelects {after : Selections} (holds : Selects tabs active)
    (moved : ∀ project, selected after project =
      if selected active project = some key ∧ key ∈ keysOf shown project then beside (keysOf shown project) key
      else selected active project) :
    Selects (without tabs key) after ↔ Leaves shown tabs active key := by
  constructor
  · intro selects face member same chosen
    have held := selects face.1
    rw [moved,chosen] at held
    by_cases drawn : key ∈ keysOf shown face.1
    · rw [if_pos ⟨rfl,drawn⟩] at held
      exact ⟨drawn,held⟩
    · rw [if_neg (fun both => drawn both.2)] at held
      simp [Held,without] at held
  · intro leaves project
    have held := holds project
    rw [moved]
    by_cases chosen : selected active project = some key
    · rw [chosen] at held
      obtain ⟨drawn,next⟩ := leaves _ held rfl chosen
      rw [if_pos ⟨chosen,drawn⟩]
      exact next
    · rw [if_neg (fun both => chosen both.1)]
      exact heldWithout held chosen

theorem keysWithout {before after : List Nat} (fresh : key ∉ before) :
    beside (before ++ key :: after) key = after.head?.or before.getLast? := by
  have passes : ∀ other ∈ before, decide (other ≠ key) = true := by
    intro other member
    exact decide_eq_true (fun same => fresh (same ▸ member))
  unfold beside
  rw [List.dropWhile_append_of_pos passes,List.takeWhile_append_of_pos passes]
  simp

theorem nextBeside {α : Type} (before after : List α) :
    (before ++ after)[min before.length ((before ++ after).length - 1)]? = after.head?.or before.getLast? := by
  cases after with
  | nil =>
    rw [List.append_nil,Nat.min_eq_right (Nat.sub_le _ _),List.getLast?_eq_getElem?]
    rfl
  | cons next after =>
    rw [Nat.min_eq_left (by simp)]
    simp

theorem neighbour {α : Type} {keyOf : α → Nat} {l : List α} {tab : α} (apart : (l.map keyOf).Nodup) (member : tab ∈ l)
    (here : keyOf tab = key) :
    ∃ index, l.findIdx? (fun other => keyOf other = key) = some index ∧
      ((l.filter (fun other => keyOf other ≠ key))[min index
        ((l.filter (fun other => keyOf other ≠ key)).length - 1)]?).map keyOf = beside (l.map keyOf) key := by
  obtain ⟨before,after,rfl⟩ := List.append_of_mem member
  rw [List.map_append,List.map_cons,List.nodup_append,List.nodup_cons] at apart
  obtain ⟨_,⟨fresh,_⟩,other⟩ := apart
  have left : ∀ tab ∈ before, keyOf tab ≠ key :=
    fun one there => here ▸ other _ (List.mem_map_of_mem there) _ List.mem_cons_self
  have right : ∀ tab ∈ after, keyOf tab ≠ key := fun one there same => fresh (here ▸ same ▸ List.mem_map_of_mem there)
  refine ⟨before.length,?_,?_⟩
  · rw [List.findIdx?_append,List.findIdx?_eq_none_iff.mpr (by simpa using left)]
    simp [List.findIdx?_cons,here]
  · have rest : (before ++ tab :: after).filter (fun other => keyOf other ≠ key) = before ++ after := by
      rw [List.filter_append,List.filter_cons_of_neg (by simp [here]),List.filter_eq_self.mpr (by simpa using left),
        List.filter_eq_self.mpr (by simpa using right)]
    rw [rest,nextBeside,List.map_append,List.map_cons,here,keysWithout (by simpa using left)]
    simp [Option.map_or,List.getLast?_map]

section
variable {τ : Type} (projectOf : τ → Str) (keyOf : τ → Nat)

def faces (l : List τ) : List Face := l.map (fun tab => (projectOf tab,keyOf tab))

def strip (l : List τ) (project : Str) : List τ := l.filter (fun tab => projectOf tab = project)

def after (l : List τ) (key : Nat) (active : Option Nat) : Option Nat :=
  if active ≠ some key then active
  else
    match l.findIdx? (fun tab => keyOf tab = key) with
    | none => active
    | some index =>
      let remaining := l.filter (fun tab => keyOf tab ≠ key)
      (remaining[min index (remaining.length - 1)]?).map keyOf

def closed (shown : List τ) (key : Nat) (active : Selections) : Selections :=
  match shown.find? (fun tab => keyOf tab = key) with
  | none => active
  | some closing =>
    select active (projectOf closing)
      (after keyOf (strip projectOf shown (projectOf closing)) key (selected active (projectOf closing)))

variable {projectOf keyOf} {shown : List τ} {active : Selections} {key : Nat}

theorem stripKeys (l : List τ) (project : Str) :
    (strip projectOf l project).map keyOf = keysOf (faces projectOf keyOf l) project := by
  unfold keysOf faces strip
  rw [List.filter_map,List.map_map]
  rfl

theorem facesKeys (l : List τ) : (faces projectOf keyOf l).map Prod.snd = l.map keyOf := by
  unfold faces
  rw [List.map_map]
  rfl

theorem facesWithout (l : List τ) (key : Nat) :
    faces projectOf keyOf (l.filter (fun tab => keyOf tab ≠ key)) = without (faces projectOf keyOf l) key := by
  unfold without faces
  rw [List.filter_map]
  rfl

theorem facesKept (l : List τ) (project : Str) :
    faces projectOf keyOf (l.filter (fun tab => projectOf tab ≠ project)) =
      (faces projectOf keyOf l).filter (fun face => face.1 ≠ project) := by
  unfold faces
  rw [List.filter_map]
  rfl

theorem facesMapped (l : List τ) (key : Nat) {change : τ → τ}
    (same : ∀ tab, (projectOf (change tab),keyOf (change tab)) = (projectOf tab,keyOf tab)) :
    faces projectOf keyOf (l.map (fun tab => if keyOf tab = key then change tab else tab)) = faces projectOf keyOf l := by
  unfold faces
  rw [List.map_map]
  refine List.map_congr_left (fun tab _ => ?_)
  simp only [Function.comp]
  split
  · exact same tab
  · rfl

theorem afterBeside {l : List τ} (apart : (l.map keyOf).Nodup) {tab : τ} (member : tab ∈ l) (here : keyOf tab = key)
    (now : Option Nat) : after keyOf l key now = if now = some key then beside (l.map keyOf) key else now := by
  obtain ⟨index,found,next⟩ := neighbour apart member here
  unfold after
  by_cases chosen : now = some key
  · rw [if_neg (not_not.mpr chosen),if_pos chosen,found]
    exact next
  · rw [if_pos chosen,if_neg chosen]

theorem closedMoves (apart : (shown.map keyOf).Nodup) (project : Str) :
    selected (closed projectOf keyOf shown key active) project =
      if selected active project = some key ∧ key ∈ keysOf (faces projectOf keyOf shown) project then
        beside (keysOf (faces projectOf keyOf shown) project) key
      else selected active project := by
  unfold closed
  cases found : shown.find? (fun tab => keyOf tab = key) with
  | none =>
    have absent : key ∉ keysOf (faces projectOf keyOf shown) project := by
      rw [← stripKeys]
      intro drawn
      obtain ⟨tab,member,here⟩ := List.mem_map.mp drawn
      exact of_decide_eq_false (by simpa using List.find?_eq_none.mp found tab (List.mem_filter.mp member).1) here
    rw [if_neg (fun both => absent both.2)]
  | some closing =>
    have member := List.mem_of_find?_eq_some found
    have here : keyOf closing = key := by simpa using List.find?_some found
    rw [selectedSelect]
    by_cases same : project = projectOf closing
    · subst same
      have own : closing ∈ strip projectOf shown (projectOf closing) := List.mem_filter.mpr ⟨member,by simp⟩
      have drawn : key ∈ (strip projectOf shown (projectOf closing)).map keyOf := here ▸ List.mem_map_of_mem own
      have alone : ((strip projectOf shown (projectOf closing)).map keyOf).Nodup :=
        apart.sublist (List.filter_sublist.map keyOf)
      rw [if_pos rfl,afterBeside alone own here,← stripKeys]
      simp only [drawn,and_true]
    · have absent : key ∉ keysOf (faces projectOf keyOf shown) project := by
        rw [← stripKeys]
        intro drawn
        obtain ⟨tab,there,also⟩ := List.mem_map.mp drawn
        obtain ⟨listed,owned⟩ := List.mem_filter.mp there
        have one : tab = closing := List.inj_on_of_nodup_map apart listed member (also.trans here.symm)
        exact same (one ▸ (of_decide_eq_true owned).symm)
      rw [if_neg same,if_neg (fun both => absent both.2)]
end

theorem Known.grown (known : Known keys tabs rendered shown made) {keys' : Nat} (apart : (more.map Prod.snd).Nodup)
    (new : ∀ face ∈ more, keys < face.2 ∧ face.2 ≤ keys') (bound : keys ≤ keys') :
    Known keys' (tabs ++ more) rendered shown (made ++ more) := by
  refine ⟨?_,?_,known.tabs.append (List.Sublist.refl _),?_,?_⟩
  · rw [List.map_append,List.nodup_append]
    refine ⟨known.apart,apart,?_⟩
    intro one here two there same
    obtain ⟨old,oldMember,rfl⟩ := List.mem_map.mp here
    obtain ⟨fresh,newMember,rfl⟩ := List.mem_map.mp there
    exact absurd (new fresh newMember).1 (Nat.not_lt.mpr (same ▸ known.bound old oldMember))
  · intro face member
    rcases List.mem_append.mp member with old | fresh
    · exact (known.bound face old).trans bound
    · exact (new face fresh).2
  · exact known.rendered.trans (List.sublist_append_left _ _)
  · exact known.shown.trans (List.sublist_append_left _ _)

theorem Known.fewer {less : List Face} (known : Known keys tabs rendered shown made) (sub : less.Sublist tabs) :
    Known keys less rendered shown made :=
  ⟨known.apart,known.bound,sub.trans known.tabs,known.rendered,known.shown⟩

theorem Known.drawn (known : Known keys tabs rendered shown made) : Known keys tabs tabs shown made :=
  ⟨known.apart,known.bound,known.tabs,known.tabs,known.shown⟩

theorem Known.committed (known : Known keys tabs rendered shown made) : Known keys tabs rendered rendered made :=
  ⟨known.apart,known.bound,known.tabs,known.rendered,known.rendered⟩

theorem Known.strip (known : Known keys tabs rendered shown made) : (shown.map Prod.snd).Nodup :=
  known.apart.sublist (known.shown.map Prod.snd)

namespace Editors
open M6t.Editor M6t.EditorStrip

def facesOf (tabs : List EditorTab) : List Face := faces EditorTab.project EditorTab.key tabs

def Holds (s : Strip) : Prop := Selects (facesOf s.tabs) s.activeByProject

def Acts : Event → Prop
  | .restore .. => False
  | _ => True
instance : ∀ e, Decidable (Acts e)
  | .restore .. => inferInstanceAs (Decidable False)
  | .open_ .. | .close .. | .closeProject .. | .select .. | .setMode .. | .loaded .. | .loadFailed .. | .restoreRead ..
  | .restoreFailed .. | .resolved .. | .render | .effect => inferInstanceAs (Decidable True)

/-- A tab the strip last drawn has for a file that is opened, and a tab that is
selected, are still tabs of the project. -/
def meets (s : Strip) : Event → Prop
  | .open_ project _ path => ∀ key ∈ findTabKey s.shown project path, (project,key) ∈ facesOf s.tabs
  | .restore .. => False
  | .close key => Leaves (facesOf s.shown) (facesOf s.tabs) s.activeByProject key
  | .select project key => (project,key) ∈ facesOf s.tabs
  | _ => True
instance (s : Strip) : ∀ e, Decidable (meets s e)
  | .open_ project _ path =>
    inferInstanceAs (Decidable (∀ key ∈ findTabKey s.shown project path, (project,key) ∈ facesOf s.tabs))
  | .restore .. => inferInstanceAs (Decidable False)
  | .close key => inferInstanceAs (Decidable (Leaves (facesOf s.shown) (facesOf s.tabs) s.activeByProject key))
  | .select project key => inferInstanceAs (Decidable ((project,key) ∈ facesOf s.tabs))
  | .closeProject .. | .setMode .. | .loaded .. | .loadFailed .. | .restoreRead .. | .restoreFailed .. | .resolved ..
  | .render | .effect => inferInstanceAs (Decidable True)

structure Sound (s : Strip) (made : List Face) : Prop where
  known : Known s.keys (facesOf s.tabs) (facesOf s.rendered) (facesOf s.shown) made
  alone : s.restores = []

variable {s t : Strip} {made : List Face} {es : List Event} {e : Event}

theorem meetsActs (ok : meets s e) : Acts e := by
  cases e with
  | restore project root saved => exact ok
  | _ => trivial

theorem facesMap (tabs : List EditorTab) (key : Nat) {change : EditorTab → EditorTab}
    (same : ∀ tab, ((change tab).project,(change tab).key) = (tab.project,tab.key)) :
    facesOf (mapTab tabs key change) = facesOf tabs := facesMapped tabs key same

theorem soundMapped {key : Nat} {change : EditorTab → EditorTab} {loads : List Load} (sound : Sound s made)
    (same : ∀ tab, ((change tab).project,(change tab).key) = (tab.project,tab.key)) :
    Sound { s with tabs := mapTab s.tabs key change, loads } made :=
  ⟨(facesMap s.tabs key same).symm ▸ sound.known,sound.alone⟩

theorem holdsMapped {key : Nat} {change : EditorTab → EditorTab} {loads : List Load} (holds : Holds s)
    (same : ∀ tab, ((change tab).project,(change tab).key) = (tab.project,tab.key)) :
    Holds { s with tabs := mapTab s.tabs key change, loads } := by
  show Selects (facesOf (mapTab s.tabs key change)) s.activeByProject
  rw [facesMap s.tabs key same]
  exact holds

theorem afterClose (tabs : List EditorTab) (key : Nat) (now : Option Nat) :
    selectionAfterClose tabs key now = after EditorTab.key tabs key now := by
  unfold selectionAfterClose after
  split
  · rfl
  · cases tabs.findIdx? (fun tab => tab.key = key) <;> rfl

theorem closeActive (s : Strip) (key : Nat) :
    (close s key).activeByProject = closed EditorTab.project EditorTab.key s.shown key s.activeByProject := by
  unfold close closed
  cases s.shown.find? (fun tab => tab.key = key) with
  | none => rfl
  | some closing => simp only [afterClose]; rfl

theorem soundKept (sound : Sound s made) (acts : Acts e) (taken : step s e = some t) : ∃ made, Sound t made := by
  have ⟨known,alone⟩ := sound
  cases e with
  | open_ project root path =>
    cases taken
    unfold opens
    split
    · exact ⟨made,known,alone⟩
    · refine ⟨made ++ [(project,s.keys + 1)],?_,alone⟩
      show Known _ (facesOf (s.tabs ++ [_])) _ _ _
      unfold facesOf faces
      rw [List.map_append]
      exact known.grown (by simp) (by simp [newTab]) (Nat.le_succ _)
  | restore project root saved => exact acts.elim
  | close key =>
    cases taken
    refine ⟨made,?_,alone⟩
    exact known.fewer (List.filter_sublist.map _)
  | closeProject project =>
    cases taken
    exact ⟨made,known.fewer (List.filter_sublist.map _),alone⟩
  | select project key => cases taken; exact ⟨made,known,alone⟩
  | setMode key mode =>
    cases taken
    exact ⟨made,soundMapped sound (fun _ => rfl)⟩
  | loaded i content =>
    obtain ⟨load,_,rfl⟩ := Option.map_eq_some_iff.mp taken
    exact ⟨made,soundMapped sound (fun _ => rfl)⟩
  | loadFailed i message =>
    obtain ⟨load,_,rfl⟩ := Option.map_eq_some_iff.mp taken
    exact ⟨made,soundMapped sound (fun _ => rfl)⟩
  | restoreRead i content => simp [step,alone] at taken
  | restoreFailed i => simp [step,alone] at taken
  | resolved i => simp [step,alone] at taken
  | render => cases taken; exact ⟨made,known.drawn,alone⟩
  | effect => cases taken; exact ⟨made,known.committed,alone⟩

theorem holdsKept (sound : Sound s made) (holds : Holds s) (acts : Acts e) (taken : step s e = some t) :
    Holds t ↔ meets s e := by
  cases e with
  | open_ project root path =>
    cases taken
    show Holds (opens s project root path) ↔ ∀ key ∈ findTabKey s.shown project path, (project,key) ∈ facesOf s.tabs
    unfold opens
    cases findTabKey s.shown project path with
    | some existing => exact (selectSelects holds).trans (by simp)
    | none =>
      refine iff_of_true ?_ (by simp)
      show Selects (facesOf (s.tabs ++ [_])) _
      unfold facesOf faces
      rw [List.map_append]
      exact addedSelects holds (by simp [newTab]) (by simp [newTab])
  | restore project root saved => exact acts.elim
  | close key =>
    cases taken
    have apart : (s.shown.map EditorTab.key).Nodup := by
      have strip := sound.known.strip
      rwa [show (facesOf s.shown).map Prod.snd = s.shown.map EditorTab.key from facesKeys s.shown] at strip
    show Selects (facesOf (removeTab s.tabs key)) (close s key).activeByProject ↔ _
    rw [closeActive,show facesOf (removeTab s.tabs key) = without (facesOf s.tabs) key from facesWithout s.tabs key]
    exact closedSelects holds (closedMoves apart)
  | closeProject project =>
    cases taken
    refine iff_of_true ?_ trivial
    show Selects (facesOf (s.tabs.filter _)) _
    rw [show facesOf (s.tabs.filter (fun tab => tab.project ≠ project)) = _ from facesKept s.tabs project]
    exact removedSelects holds project
  | select project key => cases taken; exact selectSelects holds
  | setMode key mode => cases taken; exact iff_of_true (holdsMapped holds (fun _ => rfl)) trivial
  | loaded i content =>
    obtain ⟨load,_,rfl⟩ := Option.map_eq_some_iff.mp taken
    exact iff_of_true (holdsMapped holds (fun _ => rfl)) trivial
  | loadFailed i message =>
    obtain ⟨load,_,rfl⟩ := Option.map_eq_some_iff.mp taken
    exact iff_of_true (holdsMapped holds (fun _ => rfl)) trivial
  | restoreRead i content => simp [step,sound.alone] at taken
  | restoreFailed i => simp [step,sound.alone] at taken
  | resolved i => simp [step,sound.alone] at taken
  | render => cases taken; exact iff_of_true holds trivial
  | effect => cases taken; exact iff_of_true holds trivial

theorem sound (run : Run step meets Strip.empty es s) : ∃ made, Sound s made := by
  induction run with
  | nil => exact ⟨[],⟨⟨List.nodup_nil,by simp,.refl _,.refl _,.refl _⟩,rfl⟩⟩
  | @snoc es s e t before ok taken ih =>
    obtain ⟨made,sound⟩ := ih
    exact soundKept sound (meetsActs ok) taken

theorem runHolds (run : Run step meets Strip.empty es s) : Holds s := by
  induction run with
  | nil => intro project face member; simp [facesOf,faces,Strip.empty] at member
  | @snoc es s e t before ok taken ih =>
    obtain ⟨made,sound⟩ := sound before
    exact (holdsKept sound ih (meetsActs ok) taken).mpr ok

end Editors

namespace Terminals
open M6t.TerminalStrip

def facesOf (tabs : List TerminalTab) : List Face := faces TerminalTab.project TerminalTab.key tabs

def Holds (s : Strip) : Prop := Selects (facesOf s.tabs) s.activeByProject

def meets (s : Strip) : Event → Prop
  | .close key => Leaves (facesOf s.shown) (facesOf s.tabs) s.activeByProject key
  | .onStatus key status =>
    endingClosesTheTab status = true → Leaves (facesOf s.shown) (facesOf s.tabs) s.activeByProject key
  | .select project key => (project,key) ∈ facesOf s.tabs
  | _ => True
instance (s : Strip) : ∀ e, Decidable (meets s e)
  | .close key => inferInstanceAs (Decidable (Leaves (facesOf s.shown) (facesOf s.tabs) s.activeByProject key))
  | .onStatus key status =>
    inferInstanceAs (Decidable
      (endingClosesTheTab status = true → Leaves (facesOf s.shown) (facesOf s.tabs) s.activeByProject key))
  | .select project key => inferInstanceAs (Decidable ((project,key) ∈ facesOf s.tabs))
  | .create .. | .closeProject .. | .rename .. | .restart .. | .restore .. | .render | .effect =>
    inferInstanceAs (Decidable True)

def taken (s : Strip) (e : Event) : Option Strip := some (step s e)

def Sound (s : Strip) (made : List Face) : Prop :=
  Known s.keys (facesOf s.tabs) (facesOf s.rendered) (facesOf s.shown) made

variable {s t : Strip} {made : List Face} {es : List Event} {e : Event}

theorem facesPatch (tabs : List TerminalTab) (key : Nat) {patch : TerminalTab → TerminalTab}
    (same : ∀ tab, ((patch tab).project,(patch tab).key) = (tab.project,tab.key)) :
    facesOf (patchTab tabs key patch) = facesOf tabs := facesMapped tabs key same

theorem facesRenamed (tabs : List TerminalTab) (key : Nat) (title : Str) :
    facesOf (renameTab tabs key title) = facesOf tabs := by
  unfold renameTab
  simp only
  split
  · rfl
  · exact facesPatch tabs key (fun _ => rfl)

theorem facesStatus (tabs : List TerminalTab) (key : Nat) (status : SessionStatus) :
    facesOf (patchTab tabs key (statusPatch status)) = facesOf tabs :=
  facesPatch tabs key (fun tab => by cases status <;> rfl)

theorem facesRestarted (tabs : List TerminalTab) (key : Nat) : facesOf (restartTab tabs key) = facesOf tabs :=
  facesPatch tabs key (fun _ => rfl)

theorem soundSame {tabs : List TerminalTab} (same : facesOf tabs = facesOf s.tabs) (sound : Sound s made) :
    Sound { s with tabs } made := by
  show Known _ (facesOf tabs) _ _ _
  rw [same]
  exact sound

theorem holdsSame {tabs : List TerminalTab} (same : facesOf tabs = facesOf s.tabs) (holds : Holds s) :
    Holds { s with tabs } := by
  show Selects (facesOf tabs) _
  rw [same]
  exact holds

theorem facesRestored (keys : Nat) (project : Str) (saved : List RestoredTerminal) :
    facesOf (restoredTabs keys project saved) = (List.range' (keys + 1) saved.length).map (fun key => (project,key)) := by
  induction saved generalizing keys with
  | nil => rfl
  | cons tab saved ih =>
    rw [List.length_cons,List.range'_succ,List.map_cons,← ih]
    rfl

theorem afterClose (tabs : List TerminalTab) (key : Nat) (now : Option Nat) :
    selectionAfterClose tabs key now = after TerminalTab.key tabs key now := by
  unfold selectionAfterClose after
  split
  · rfl
  · cases tabs.findIdx? (fun tab => tab.key = key) <;> rfl

theorem dropActive (s : Strip) (key : Nat) :
    (dropTab s key).activeByProject = closed TerminalTab.project TerminalTab.key s.shown key s.activeByProject := by
  unfold dropTab closed
  cases s.shown.find? (fun tab => tab.key = key) with
  | none => rfl
  | some closing => simp only [afterClose]; rfl

theorem soundDropped (sound : Sound s made) (key : Nat) : Sound (dropTab s key) made :=
  sound.fewer (List.filter_sublist.map _)

theorem holdsDropped (sound : Sound s made) (holds : Holds s) (key : Nat) :
    Holds (dropTab s key) ↔ Leaves (facesOf s.shown) (facesOf s.tabs) s.activeByProject key := by
  have apart : (s.shown.map TerminalTab.key).Nodup := by
    have strip := sound.strip
    rwa [show (facesOf s.shown).map Prod.snd = s.shown.map TerminalTab.key from facesKeys s.shown] at strip
  show Selects (facesOf (removeTab s.tabs key)) (dropTab s key).activeByProject ↔ _
  rw [dropActive,show facesOf (removeTab s.tabs key) = without (facesOf s.tabs) key from facesWithout s.tabs key]
  exact closedSelects holds (closedMoves apart)

theorem soundRestored (sound : Sound s made) (project : Str) (saved : RestoredTerminals) :
    ∃ made, Sound (restore s project saved) made := by
  unfold restore
  simp only
  split
  · exact ⟨made,sound⟩
  · refine ⟨made ++ facesOf (restoredTabs s.keys project saved.tabs),?_⟩
    show Known _ (facesOf (s.tabs ++ _)) _ _ _
    have length : (restoredTabs s.keys project saved.tabs).length = saved.tabs.length := by
      have keys := congrArg List.length (facesRestored s.keys project saved.tabs)
      simpa [facesOf,faces] using keys
    rw [length,show facesOf (s.tabs ++ _) = _ ++ facesOf _ from List.map_append]
    refine Known.grown sound ?_ ?_ (Nat.le_add_right _ _)
    · rw [facesRestored,List.map_map]
      simpa [Function.comp_def] using List.nodup_range'
    · intro face member
      rw [facesRestored] at member
      obtain ⟨key,listed,rfl⟩ := List.mem_map.mp member
      have range := List.mem_range'_1.mp listed
      simp only
      omega

theorem holdsRestored (holds : Holds s) (project : Str) (saved : RestoredTerminals) : Holds (restore s project saved) := by
  unfold restore
  simp only
  split
  · exact holds
  · next focus chosen =>
    have listed : focus ∈ restoredTabs s.keys project saved.tabs := by
      rcases Option.or_eq_some_iff.mp chosen with at_ | ⟨_,first⟩
      · exact List.mem_of_getElem? at_
      · exact List.mem_of_mem_head? first
    have own := restoredProject focus listed
    show Selects (facesOf (s.tabs ++ _)) _
    rw [show facesOf (s.tabs ++ _) = _ ++ facesOf _ from List.map_append]
    refine addedSelects holds ?_ ?_
    · intro face member
      obtain ⟨tab,there,rfl⟩ := List.mem_map.mp member
      exact restoredProject tab there
    · exact List.mem_map.mpr ⟨focus,listed,by rw [own]⟩

theorem soundKept (sound : Sound s made) (e : Event) : ∃ made, Sound (step s e) made := by
  cases e with
  | create project cwd autorun =>
    refine ⟨made ++ [(project,s.keys + 1)],?_⟩
    show Known _ (facesOf (s.tabs ++ [_])) _ _ _
    unfold facesOf faces
    rw [List.map_append]
    exact Known.grown sound (by simp) (by simp [newTab,step,create]) (Nat.le_succ _)
  | close key => exact ⟨made,soundDropped sound key⟩
  | closeProject project => exact ⟨made,sound.fewer (List.filter_sublist.map _)⟩
  | rename key title => exact ⟨made,soundSame (facesRenamed s.tabs key title) sound⟩
  | restart key => exact ⟨made,soundSame (facesRestarted s.tabs key) sound⟩
  | onStatus key status =>
    show ∃ made, Sound (onStatus s key status) made
    unfold onStatus
    split
    · exact ⟨made,soundDropped sound key⟩
    · exact ⟨made,soundSame (facesStatus s.tabs key status) sound⟩
  | select project key => exact ⟨made,sound⟩
  | restore project saved => exact soundRestored sound project saved
  | render => exact ⟨made,sound.drawn⟩
  | effect => exact ⟨made,sound.committed⟩

theorem holdsKept (sound : Sound s made) (holds : Holds s) (e : Event) : Holds (step s e) ↔ meets s e := by
  cases e with
  | create project cwd autorun =>
    refine iff_of_true ?_ trivial
    show Selects (facesOf (s.tabs ++ [_])) _
    unfold facesOf faces
    rw [List.map_append]
    exact addedSelects holds (by simp [newTab]) (by simp [newTab])
  | close key => exact holdsDropped sound holds key
  | closeProject project =>
    refine iff_of_true ?_ trivial
    show Selects (facesOf (s.tabs.filter _)) _
    rw [show facesOf (s.tabs.filter (fun tab => tab.project ≠ project)) = _ from facesKept s.tabs project]
    exact removedSelects holds project
  | rename key title => exact iff_of_true (holdsSame (facesRenamed s.tabs key title) holds) trivial
  | restart key => exact iff_of_true (holdsSame (facesRestarted s.tabs key) holds) trivial
  | onStatus key status =>
    show Holds (onStatus s key status) ↔ (endingClosesTheTab status = true → _)
    unfold onStatus
    split
    · next ends => exact (holdsDropped sound holds key).trans ⟨fun leaves _ => leaves,fun leaves => leaves ends⟩
    · next goesOn =>
      exact iff_of_true (holdsSame (facesStatus s.tabs key status) holds) (fun ends => absurd ends goesOn)
  | select project key => exact selectSelects holds
  | restore project saved => exact iff_of_true (holdsRestored holds project saved) trivial
  | render => exact iff_of_true holds trivial
  | effect => exact iff_of_true holds trivial

theorem sound (run : Run taken meets Strip.empty es s) : ∃ made, Sound s made := by
  induction run with
  | nil => exact ⟨[],List.nodup_nil,by simp,.refl _,.refl _,.refl _⟩
  | @snoc es s e t before ok next ih =>
    obtain ⟨made,sound⟩ := ih
    cases next
    exact soundKept sound e

theorem runHolds (run : Run taken meets Strip.empty es s) : Holds s := by
  induction run with
  | nil => intro project face member; simp [facesOf,faces,Strip.empty] at member
  | @snoc es s e t before ok next ih =>
    obtain ⟨made,sound⟩ := sound before
    cases next
    exact (holdsKept sound ih e).mpr ok

end Terminals

theorem runsSelect (es : List EditorStrip.Event) (fs : List TerminalStrip.Event) :
    (∀ s, Run EditorStrip.step Editors.meets EditorStrip.Strip.empty es s →
        Editors.Holds s ∧ ∀ e t, Editors.Acts e → EditorStrip.step s e = some t → (Editors.Holds t ↔ Editors.meets s e)) ∧
      ∀ s, Run Terminals.taken Terminals.meets TerminalStrip.Strip.empty fs s →
        Terminals.Holds s ∧ ∀ e, Terminals.Holds (TerminalStrip.step s e) ↔ Terminals.meets s e := by
  refine ⟨?_,?_⟩
  · intro s run
    obtain ⟨made,sound⟩ := Editors.sound run
    have holds := Editors.runHolds run
    exact ⟨holds,fun e t acts taken => Editors.holdsKept sound holds acts taken⟩
  · intro s run
    obtain ⟨made,sound⟩ := Terminals.sound run
    have holds := Terminals.runHolds run
    exact ⟨holds,fun e => Terminals.holdsKept sound holds e⟩

theorem runsSelectCommitted :
    (∃ s, Run EditorStrip.step Editors.meets EditorStrip.Strip.empty
        [.open_ "p".toList "/w".toList "a".toList,.open_ "p".toList "/w".toList "b".toList,.render,.effect,.close 2,
          .render,.effect,.close 1,.open_ "q".toList "/v".toList "a".toList] s ∧ Editors.Holds s) ∧
      ∃ s, Run Terminals.taken Terminals.meets TerminalStrip.Strip.empty
        [.create "p".toList "/w".toList none,.create "p".toList "/w".toList none,.render,.effect,.close 2,.render,.effect,
          .onStatus 1 (.exited 0),.create "q".toList "/v".toList none] s ∧ Terminals.Holds s := by
  refine ⟨?_,?_⟩
  · have ends : (exec (guarded EditorStrip.step Editors.meets) EditorStrip.Strip.empty
        [.open_ "p".toList "/w".toList "a".toList,.open_ "p".toList "/w".toList "b".toList,.render,.effect,.close 2,
          .render,.effect,.close 1,.open_ "q".toList "/v".toList "a".toList]).isSome := by decide +kernel
    obtain ⟨s,done⟩ := Option.isSome_iff_exists.mp ends
    exact ⟨s,runOfGuarded done,((runsSelect _ []).1 s (runOfGuarded done)).1⟩
  · have ends : (exec (guarded Terminals.taken Terminals.meets) TerminalStrip.Strip.empty
        [.create "p".toList "/w".toList none,.create "p".toList "/w".toList none,.render,.effect,.close 2,.render,.effect,
          .onStatus 1 (.exited 0),.create "q".toList "/v".toList none]).isSome := by decide +kernel
    obtain ⟨s,done⟩ := Option.isSome_iff_exists.mp ends
    exact ⟨s,runOfGuarded done,((runsSelect [] _).2 s (runOfGuarded done)).1⟩

/-- The first of two tabs is closed and then the second, before the strip is drawn
again: the second close selects the first. -/
theorem runsSelectClosed :
    (∃ s, Run EditorStrip.step anyStep EditorStrip.Strip.empty
        [.open_ "p".toList "/w".toList "a".toList,.open_ "p".toList "/w".toList "b".toList,.render,.effect,.close 1,
          .close 2] s ∧ s.tabs = [] ∧ ¬Editors.Holds s) ∧
      ∃ s, Run Terminals.taken anyStep TerminalStrip.Strip.empty
        [.create "p".toList "/w".toList none,.create "p".toList "/w".toList none,.render,.effect,
          .onStatus 1 (.exited 0),.onStatus 2 (.exited 0)] s ∧
        s.tabs = [] ∧ ¬Terminals.Holds s := by
  refine ⟨?_,?_⟩
  · have ends : (exec EditorStrip.step EditorStrip.Strip.empty
        [.open_ "p".toList "/w".toList "a".toList,.open_ "p".toList "/w".toList "b".toList,.render,.effect,.close 1,
          .close 2]).map (fun s => (s.tabs,selected s.activeByProject "p".toList)) = some ([],some 1) := by decide +kernel
    obtain ⟨s,done,seen⟩ := Option.map_eq_some_iff.mp ends
    have ⟨closed,dangling⟩ := Prod.mk.inj seen
    refine ⟨s,runOfExec done,closed,fun holds => ?_⟩
    have held := holds "p".toList
    rw [dangling] at held
    simp [Held,Editors.facesOf,faces,closed] at held
  · have ends : (exec Terminals.taken TerminalStrip.Strip.empty
        [.create "p".toList "/w".toList none,.create "p".toList "/w".toList none,.render,.effect,
          .onStatus 1 (.exited 0),.onStatus 2 (.exited 0)]).map
        (fun s => (s.tabs,selected s.activeByProject "p".toList)) = some ([],some 1) := by decide +kernel
    obtain ⟨s,done,seen⟩ := Option.map_eq_some_iff.mp ends
    have ⟨closed,dangling⟩ := Prod.mk.inj seen
    refine ⟨s,runOfExec done,closed,fun holds => ?_⟩
    have held := holds "p".toList
    rw [dangling] at held
    simp [Held,Terminals.facesOf,faces,closed] at held

end M6t.StripSelections
