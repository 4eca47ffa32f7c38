import Mathlib
import M6t.Runs
import M6t.Reorder

/-! Runs of the registry's writes, from the empty list and under one home
directory. Each call meets its own file system and its own faults. -/
namespace M6t.RegistryRuns
open M6t.Text M6t.SlashPath M6t.Fault M6t.KubeBinding M6t.Registry M6t.Runs

inductive Op where
  | add (path displayName : Str)
  | remove (name : Str)
  | reorder (names : List Str)
  | update (name : Str) (s : Settings)
  | bindScope (name : Str) (scope : Scope)
  | unbindScope (name folder : Str)
  deriving DecidableEq, Repr

structure Call where
  op : Op
  sys : System
  io : Disk

inductive Reply where
  | project (p : Project)
  | order (projects : List Project)
  deriving DecidableEq, Repr

def Call.perform (c : Call) (stored : List Project) : Outcome Reply :=
  match c.op with
  | .add path displayName => (add c.sys c.io stored path displayName).map .project
  | .remove name => (remove c.sys c.io stored name).map .project
  | .reorder names => (reorder c.sys c.io stored names).map .order
  | .update name s => (update c.sys c.io stored name s).map .project
  | .bindScope name scope => (bindScope c.sys c.io stored name scope).map .project
  | .unbindScope name folder => (unbindScope c.sys c.io stored name folder).map .project

def step (stored : List Project) (c : Call) : Option (List Project) := some (c.perform stored).stored

/-- `os.Getwd` answers an absolute path, and `filepath.EvalSymlinks` of an
absolute path a cleaned absolute one. -/
structure Rooted (sys : System) : Prop where
  getwd : ∀ {wd}, sys.getwd = .ok wd → wd.head? = some '/'
  evalSymlinks : ∀ {path target}, path.head? = some '/' → sys.evalSymlinks path = .ok target → Absolute target

def under (home : Str) : List Project → Call → Prop := fun _ c => c.sys.home = home ∧ Rooted c.sys

def LowestFree (taken : List Str) (base name : Str) : Prop :=
  (base ∉ taken ∧ name = base) ∨
    (base ∈ taken ∧ ∃ n, 2 ≤ n ∧ name = candidate base n ∧ candidate base n ∉ taken ∧
      ∀ m, 2 ≤ m → m < n → candidate base m ∈ taken)

theorem candidateInjective (base : Str) : Function.Injective (candidate base) := by
  intro n m same
  have digits := List.append_cancel_left same
  exact Nat.repr_inj.mp (String.toList_inj.mp digits)

theorem candidateFree (taken : List Str) (base : Str) (start : Nat) :
    ∃ n, start ≤ n ∧ n ≤ start + taken.length ∧ candidate base n ∉ taken := by
  by_contra full
  let names := (List.range (taken.length + 1)).map (fun i => candidate base (start + i))
  have distinct : names.Nodup := by
    refine List.Nodup.map (fun i j same => ?_) List.nodup_range
    have := candidateInjective base same
    omega
  have inside : names ⊆ taken := by
    intro name member
    obtain ⟨i,hi,rfl⟩ := List.mem_map.mp member
    by_contra free
    exact full ⟨start + i,by omega,by have := List.mem_range.mp hi; omega,free⟩
  have := distinct.length_le_of_subset inside
  simp only [names,List.length_map,List.length_range] at this
  omega

theorem searchLowest {taken : List Str} {base : Str} {fuel start : Nat}
    (free : ∃ n, start ≤ n ∧ n ≤ start + fuel ∧ candidate base n ∉ taken) :
    ∃ n, start ≤ n ∧ searchName taken base fuel start = candidate base n ∧ candidate base n ∉ taken ∧
      ∀ m, start ≤ m → m < n → candidate base m ∈ taken := by
  induction fuel generalizing start with
  | zero =>
    obtain ⟨n,low,high,out⟩ := free
    have same : n = start := by omega
    subst same
    exact ⟨n,le_rfl,rfl,out,fun m _ _ => by omega⟩
  | succ fuel ih =>
    by_cases first : candidate base start ∈ taken
    · obtain ⟨n,low,high,out⟩ := free
      have later : n ≠ start := fun same => out (same ▸ first)
      have rest : ∃ m, start + 1 ≤ m ∧ m ≤ start + 1 + fuel ∧ candidate base m ∉ taken :=
        ⟨n,by omega,by omega,out⟩
      obtain ⟨k,hk,found,out,before⟩ := ih rest
      refine ⟨k,by omega,by rw [searchName,if_neg (not_not.mpr first),found],out,fun m hm lt => ?_⟩
      by_cases here : m = start
      · exact here ▸ first
      · exact before m (by omega) lt
    · exact ⟨start,le_rfl,by rw [searchName,if_pos first],first,fun m _ _ => by omega⟩

theorem uniqueNameLowest (projects : List Project) (base : Str) :
    LowestFree (projects.map Project.name) base (uniqueName projects base) := by
  by_cases taken : base ∈ projects.map Project.name
  · obtain ⟨n,low,found,rest⟩ := searchLowest (candidateFree (projects.map Project.name) base 2)
    exact Or.inr ⟨taken,n,low,by simp only [uniqueName,if_neg (not_not.mpr taken),found],rest⟩
  · exact Or.inl ⟨taken,by simp only [uniqueName,if_pos taken]⟩

theorem lowestFree {taken : List Str} {base name : Str} (lowest : LowestFree taken base name) : name ∉ taken := by
  rcases lowest with ⟨free,rfl⟩ | ⟨_,n,_,rfl,free,_⟩ <;> exact free

theorem absRooted {sys : System} (contract : Rooted sys) {path absolute : Str} (ok : filepathAbs sys path = .ok absolute) :
    absolute.head? = some '/' := by
  unfold filepathAbs at ok
  split at ok
  · cases ok
    exact cleanRooted (by assumption)
  · obtain ⟨wd,hw,last⟩ := bindOk.mp ok
    cases last
    exact joinRooted (contract.getwd hw)

theorem resolveAbsolute {sys : System} (contract : Rooted sys) {path target : Str} (ok : resolve sys path = .ok target) :
    Absolute target := by
  simp only [resolve] at ok
  split at ok
  · contradiction
  · obtain ⟨absolute,ha,last⟩ := bindOk.mp ok
    exact contract.evalSymlinks (absRooted contract (wrappingOk.mp ha)) (wrappingOk.mp last)

def AddedBy (home : Str) (calls : List Call) (stored : Str) : Prop :=
  ∃ c ∈ calls, ∃ path displayName target, c.op = .add path displayName ∧ resolve c.sys path = .ok target ∧
    Absolute target ∧ stored = abbreviate home target ∧ expand home stored = target

structure Sound (home : Str) (calls : List Call) (stored : List Project) : Prop where
  names : (stored.map Project.name).Nodup
  checkouts : (stored.map (fun p => expand home p.path)).Nodup
  added : ∀ p ∈ stored, AddedBy home calls p.path

def Op.Frame : Op → List Project → List Project → Prop
  | .add _ _,before,after => after = before ∨ ∃ p, after = before ++ [p]
  | .remove name,before,after => after = before ∨ after = before.filter (fun p => p.name ≠ name)
  | .reorder _,before,after => after.Perm before
  | .update name _,before,after => SameBut name before after
  | .bindScope name _,before,after => SameBut name before after
  | .unbindScope name _,before,after => SameBut name before after

def Registers (home : Str) (c : Call) (before after : List Project) (path : Str) : Prop :=
  ∃ target, resolve c.sys path = .ok target ∧ Absolute target ∧
    ((∃ p ∈ before, expand home p.path = target) ∧ after = before ∨
      ∃ p, after = before ++ [p] ∧ (∀ q ∈ before, expand home q.path ≠ target) ∧
        p.path = abbreviate home target ∧ expand home p.path = target ∧
        LowestFree (before.map Project.name) (base target) p.name)

structure Lawful (home : Str) (c : Call) (before : List Project) : Prop where
  careful : (c.perform before).Careful before
  frame : c.op.Frame before (c.perform before).stored
  known : ∀ path displayName target, c.op = .add path displayName → resolve c.sys path = .ok target →
    (∃ p ∈ before, expand home p.path = target) → (c.perform before).stored = before
  registers : ∀ path displayName reply, c.op = .add path displayName → (c.perform before).answer = .ok reply →
    Registers home c before (c.perform before).stored path

theorem mapOk {α β : Type} {f : α → β} {out : Outcome α} {b : β} (ok : (out.map f).answer = .ok b) :
    ∃ a, out.answer = .ok a := by
  cases h : out.answer with
  | error err => simp [Outcome.map,h,Except.map] at ok
  | ok a => exact ⟨a,rfl⟩

theorem mapCareful {α β : Type} {f : α → β} {before : List Project} {out : Outcome α}
    (careful : out.Careful before) : (out.map f).Careful before := by
  intro err refused
  cases h : out.answer with
  | error err => exact careful err h
  | ok a => simp [Outcome.map,h,Except.map] at refused

theorem carefulCases {α : Type} {before : List Project} {out : Outcome α} (careful : out.Careful before) :
    out.stored = before ∨ ∃ a, out.answer = .ok a := by
  cases h : out.answer with
  | error err => exact Or.inl (careful err h)
  | ok a => exact Or.inr ⟨a,rfl⟩

section Calls
variable {home : Str} {c : Call} {before : List Project}

theorem performCareful (c : Call) (before : List Project) : (c.perform before).Careful before := by
  unfold Call.perform
  split
  · exact mapCareful (addCareful _ _)
  · exact mapCareful (removeCareful _)
  · exact mapCareful (reorderCareful _)
  · exact mapCareful (updateCareful _ _)
  · exact mapCareful (bindCareful _ _)
  · exact mapCareful (rewriteCareful _ _)

theorem addRegisters {sys : System} {io : Disk} {path displayName : Str} {answer : Project}
    (contract : Rooted sys) (ok : (add sys io before path displayName).answer = .ok answer) :
    ∃ target, resolve sys path = .ok target ∧ Absolute target ∧
      ((∃ p ∈ before, expand sys.home p.path = target) ∧ (add sys io before path displayName).stored = before ∨
        (∀ p ∈ before, expand sys.home p.path ≠ target) ∧
          (add sys io before path displayName).stored =
            before ++ [newProject sys.home before target (trimSpace displayName)]) := by
  obtain ⟨target,place,_,same⟩ := addOk ok
  refine ⟨target,place,resolveAbsolute contract place,?_⟩
  rw [same] at ok ⊢
  by_cases known : ∃ p ∈ before, expand sys.home p.path = target
  · exact Or.inl ⟨known,appendKnown known⟩
  · have fresh : ∀ p ∈ before, expand sys.home p.path ≠ target := fun p member here => known ⟨p,member,here⟩
    exact Or.inr ⟨fresh,(appendNew fresh ok).2⟩

theorem rewriteSameBut {sys : System} {io : Disk} {name : Str} {change : List Scope → List Scope} :
    SameBut name before (rewriteScopes sys io before name change).stored := by
  have careful : (rewriteScopes sys io before name change).Careful before := rewriteCareful name change
  rcases carefulCases careful with same | ⟨p,ok⟩
  · rw [same]; exact sameButRefl name before
  · obtain ⟨q,kube,found,_,_,written⟩ := rewriteOk ok
    exact written ▸ replaceSameBut found ⟨rfl,rfl⟩

theorem bindSameBut {sys : System} {io : Disk} {name : Str} {scope : Scope} :
    SameBut name before (bindScope sys io before name scope).stored := by
  unfold bindScope
  split
  · exact rewriteSameBut
  · exact rewriteSameBut

theorem updateSameBut {sys : System} {io : Disk} {name : Str} {s : Settings} :
    SameBut name before (update sys io before name s).stored := by
  have careful : (update sys io before name s).Careful before := updateCareful name s
  rcases carefulCases careful with same | ⟨p,ok⟩
  · rw [same]; exact sameButRefl name before
  · obtain ⟨q,kube,found,_,_,written⟩ := updateOk ok
    exact written ▸ replaceSameBut found ⟨rfl,rfl⟩

theorem performFrame (distinct : (before.map Project.name).Nodup) (contract : Rooted c.sys) :
    c.op.Frame before (c.perform before).stored := by
  rcases carefulCases (performCareful c before) with same | ⟨reply,ok⟩
  · rw [same]
    cases c.op with
    | add path displayName => exact Or.inl rfl
    | remove name => exact Or.inl rfl
    | reorder names => exact List.Perm.refl before
    | update name s => exact sameButRefl name before
    | bindScope name scope => exact sameButRefl name before
    | unbindScope name folder => exact sameButRefl name before
  · cases h : c.op with
    | add path displayName =>
      simp only [Call.perform,h] at ok ⊢
      obtain ⟨answer,ok⟩ := mapOk ok
      obtain ⟨target,_,_,known | fresh⟩ := addRegisters contract ok
      · exact Or.inl known.2
      · exact Or.inr ⟨_,fresh.2⟩
    | remove name =>
      simp only [Call.perform,h] at ok ⊢
      obtain ⟨answer,ok⟩ := mapOk ok
      exact Or.inr (removeOk ok).2
    | reorder names =>
      simp only [Call.perform,h] at ok ⊢
      obtain ⟨answer,ok⟩ := mapOk ok
      exact Reorder.reorderPerm distinct ok
    | update name s => simp only [Call.perform,h]; exact updateSameBut
    | bindScope name scope => simp only [Call.perform,h]; exact bindSameBut
    | unbindScope name folder => simp only [Call.perform,h]; exact rewriteSameBut

theorem performKnown {path displayName target : Str} (named : c.op = .add path displayName)
    (place : resolve c.sys path = .ok target) (known : ∃ p ∈ before, expand c.sys.home p.path = target) :
    (c.perform before).stored = before := by
  simp only [Call.perform,named,Outcome.map,add,place]
  cases checked : requireRepository c.sys target with
  | error err => rfl
  | ok _ => exact appendKnown known

theorem performRegisters {path displayName : Str} {reply : Reply} (contract : Rooted c.sys)
    (named : c.op = .add path displayName) (ok : (c.perform before).answer = .ok reply) :
    Registers c.sys.home c before (c.perform before).stored path := by
  simp only [Call.perform,named] at ok ⊢
  obtain ⟨answer,ok⟩ := mapOk ok
  obtain ⟨target,place,absolute,known | ⟨fresh,written⟩⟩ := addRegisters contract ok
  · exact ⟨target,place,absolute,Or.inl known⟩
  · exact ⟨target,place,absolute,Or.inr ⟨_,written,fresh,rfl,expandAbbreviate _ _ absolute,uniqueNameLowest _ _⟩⟩

theorem shrinkNodup {α β : Type} {a b : List α} (f : α → β) (shrinks : a.Subperm b) (distinct : (b.map f).Nodup) :
    (a.map f).Nodup := by
  obtain ⟨l,same,inside⟩ := shrinks
  exact (same.map f).nodup_iff.mp (distinct.sublist (inside.map f))

theorem addedLater {calls : List Call} {path : Str} (c : Call) (added : AddedBy home calls path) :
    AddedBy home (calls ++ [c]) path := by
  obtain ⟨d,member,rest⟩ := added
  exact ⟨d,List.mem_append_left _ member,rest⟩

theorem soundShrink {calls : List Call} {after : List Project} (c : Call) (sound : Sound home calls before)
    (shrinks : (after.map identity).Subperm (before.map identity)) : Sound home (calls ++ [c]) after where
  names := by
    have := shrinkNodup Prod.fst shrinks (by simpa [identity,Function.comp_def] using sound.names)
    simpa [identity,Function.comp_def] using this
  checkouts := by
    have := shrinkNodup (fun q => expand home q.2) shrinks
      (by simpa [identity,Function.comp_def] using sound.checkouts)
    simpa [identity,Function.comp_def] using this
  added p member := by
    obtain ⟨q,inside,same⟩ := List.mem_map.mp (shrinks.subset (List.mem_map_of_mem member))
    have path : q.path = p.path := congrArg Prod.snd same
    exact path ▸ addedLater c (sound.added q inside)

theorem soundSame {calls : List Call} {after : List Project} {name : Str} (c : Call) (sound : Sound home calls before)
    (same : SameBut name before after) : Sound home (calls ++ [c]) after :=
  soundShrink c sound (List.Perm.of_eq (sameButIdentity same)).subperm

theorem soundAppend {calls : List Call} {p : Project} {target : Str} (c : Call) (sound : Sound home calls before)
    (fresh : ∀ q ∈ before, expand home q.path ≠ target) (name : p.name ∉ before.map Project.name)
    (place : expand home p.path = target) (added : AddedBy home (calls ++ [c]) p.path) :
    Sound home (calls ++ [c]) (before ++ [p]) where
  names := by
    rw [List.map_append,List.nodup_append]
    refine ⟨sound.names,by simp,fun a inside b last => ?_⟩
    rintro rfl
    have same : a = p.name := by simpa using last
    exact name (same ▸ inside)
  checkouts := by
    rw [List.map_append,List.nodup_append]
    refine ⟨sound.checkouts,by simp,fun a inside b last => ?_⟩
    obtain ⟨q,member,rfl⟩ := List.mem_map.mp inside
    have : b = target := by simpa [place] using last
    exact this ▸ fresh q member
  added q member := by
    rcases List.mem_append.mp member with old | new
    · exact addedLater c (sound.added q old)
    · exact (List.mem_singleton.mp new) ▸ added

theorem soundStep {calls : List Call} (sound : Sound c.sys.home calls before) (contract : Rooted c.sys) :
    Sound c.sys.home (calls ++ [c]) (c.perform before).stored := by
  have frame := performFrame sound.names contract
  cases h : c.op with
  | add path displayName =>
    rcases carefulCases (performCareful c before) with same | ⟨reply,ok⟩
    · rw [same]
      exact soundShrink c sound (List.Subperm.refl _)
    · obtain ⟨target,place,absolute,⟨_,same⟩ | ⟨p,written,fresh,short,long,lowest⟩⟩ := performRegisters contract h ok
      · rw [same]
        exact soundShrink c sound (List.Subperm.refl _)
      · rw [written]
        exact soundAppend c sound fresh (lowestFree lowest) long
          ⟨c,by simp,path,displayName,target,h,place,absolute,short,long⟩
  | remove name =>
    rw [h] at frame
    rcases frame with same | written
    · rw [same]
      exact soundShrink c sound (List.Subperm.refl _)
    · rw [written]
      exact soundShrink c sound (List.filter_sublist.map identity).subperm
  | reorder names =>
    rw [h] at frame
    exact soundShrink c sound (List.Perm.map identity frame).subperm
  | update name s => rw [h] at frame; exact soundSame c sound frame
  | bindScope name scope => rw [h] at frame; exact soundSame c sound frame
  | unbindScope name folder => rw [h] at frame; exact soundSame c sound frame

theorem lawful {calls : List Call} (sound : Sound c.sys.home calls before) (contract : Rooted c.sys) :
    Lawful c.sys.home c before where
  careful := performCareful c before
  frame := performFrame sound.names contract
  known _ _ _ named place known := performKnown named place known
  registers _ _ _ named ok := performRegisters contract named ok

end Calls

theorem soundRun {home : Str} {calls : List Call} {stored : List Project}
    (run : Run step (under home) [] calls stored) : Sound home calls stored := by
  refine run.traced ⟨by simp,by simp,by simp⟩ ?_
  rintro calls before c after sound ⟨rfl,contract⟩ taken
  cases Option.some.inj taken
  exact soundStep sound contract

theorem registryKept {home : Str} {calls : List Call} {stored : List Project}
    (run : Run step (under home) [] calls stored) :
    Sound home calls stored ∧ ∀ c, under home stored c → Lawful home c stored := by
  have sound := soundRun run
  refine ⟨sound,?_⟩
  rintro c ⟨rfl,contract⟩
  exact lawful sound contract

theorem plainRooted : Rooted .plain where
  getwd {wd} h := by
    have same : System.plain.home = wd := Except.ok.inj h
    exact same ▸ rfl
  evalSymlinks {path target} _ h := by
    have answered : (if Absolute path then .ok path else .error ⟨[],.system "no such file or directory"⟩) =
        (.ok target : Answer Str) := h
    split at answered
    · exact Except.ok.inj answered ▸ by assumption
    · contradiction

def addition (path : String) : Call := ⟨.add path.toList [],.plain,.sound⟩

theorem twoCheckouts :
    let first := ((addition "~/infra").perform []).stored
    let second := ((addition "/srv/infra/").perform first).stored
    Sound System.plain.home [addition "~/infra",addition "/srv/infra/"] second ∧
      second.map identity = [("infra".toList,"~/infra".toList),("infra-2".toList,"/srv/infra".toList)] := by
  have first : Run step (under System.plain.home) [] [addition "~/infra"] ((addition "~/infra").perform []).stored :=
    .snoc .nil ⟨rfl,plainRooted⟩ rfl
  have second := Run.snoc (e := addition "/srv/infra/") first ⟨rfl,plainRooted⟩ rfl
  exact ⟨(registryKept second).1,by decide⟩

end M6t.RegistryRuns
