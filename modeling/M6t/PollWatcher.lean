import M6t.Runs
import M6t.WorktreeList

/-! The polling watcher: a walk of the worktree as a record of names, and what differs between
two of them. -/
namespace M6t.PollWatcher
open M6t.Text M6t.Sorting M6t.WorktreeList
open M6t.FileTree (Entry)
open M6t.EntryPaths (gitDir)

abbrev Snapshot := List (Path × List Str)

section
variable (toLower : Str → Str)

def walkInto (c : Checkout) : Nat → Path → Snapshot → Option Snapshot
  | 0,_,_ => none
  | fuel + 1,relDir,snapshot =>
    match listAt toLower c relDir with
    | none => none
    | some entries =>
      entries.foldlM (fun snapshot entry =>
        if entry.isDir then walkInto c fuel (relDir ++ [entry.name]) snapshot else some snapshot)
        (Records.put snapshot relDir (entries.map Entry.name))

def walkSnapshot (c : Checkout) : Option Snapshot := walkInto toLower c (c.depth + 1) [] []

end

def equalNames (a b : List Str) : Bool := a = b

def check (previous current : Snapshot) (s : List Path × List Path) (dir : Path) : List Path × List Path :=
  if dir ∈ s.1 then s
  else
    let existedBefore := (previous.lookup dir).isSome
    let existsNow := (current.lookup dir).isSome
    (s.1 ++ [dir],
      if existedBefore ≠ existsNow ∨ ¬equalNames ((previous.lookup dir).getD []) ((current.lookup dir).getD []) then s.2 ++ [dir]
      else s.2)

/-- The keys of a Go map come in any order, here those of the last two arguments. -/
def diffSnapshots (previous current : Snapshot) (before now : List Path) : List Path :=
  (now.foldl (check previous current) (before.foldl (check previous current) ([],[]))).2

def keys (snapshot : Snapshot) : List Path := snapshot.map Prod.fst

variable {toLower : Str → Str} {c : Checkout}

def Found (c : Checkout) (relDir q : Path) : Prop := relDir <+: q ∧ gitDir ∉ q ∧ (c.items q).isSome = true
instance (relDir q) : Decidable (Found c relDir q) := inferInstanceAs (Decidable (_ ∧ _ ∧ _))

theorem foundChild {relDir q : Path} {d : Directory} (plain : gitDir ∉ relDir) (here : c.items relDir = some d) :
    Found c relDir q ↔ q = relDir ∨ ∃ entry ∈ list toLower d, entry.isDir = true ∧ Found c (relDir ++ [entry.name]) q := by
  constructor
  · rintro ⟨⟨rest,rfl⟩,outside,there⟩
    cases rest with
    | nil => exact Or.inl (List.append_nil _)
    | cons name rest =>
      rw [List.append_cons] at there outside ⊢
      have inside := itemsPrefix there
      rw [c.child] at inside
      obtain ⟨d',held,entry,member,rfl,dir⟩ := inside
      cases Option.some.inj (here.symm.trans held)
      have visible : entry.name ≠ gitDir := fun same => outside (by simp [same])
      exact Or.inr ⟨entry,listMember.mpr ⟨member,visible⟩,dir,List.prefix_append _ _,outside,there⟩
  · rintro (rfl | ⟨entry,_,_,inside,outside,there⟩)
    · exact ⟨List.prefix_rfl,plain,by rw [here]; rfl⟩
    · exact ⟨(List.prefix_append _ _).trans inside,outside,there⟩

theorem walkEntries {entries : List Entry} {relDir : Path} {walk : Path → Snapshot → Option Snapshot}
    (walks : ∀ entry ∈ entries, entry.isDir = true → ∀ snapshot, ∃ out, walk (relDir ++ [entry.name]) snapshot = some out ∧
      ∀ q, out.lookup q = if Found c (relDir ++ [entry.name]) q then (c.items q).map (names toLower) else snapshot.lookup q)
    (snapshot : Snapshot) :
    ∃ out, entries.foldlM (fun snapshot entry =>
        if entry.isDir then walk (relDir ++ [entry.name]) snapshot else some snapshot) snapshot = some out ∧
      ∀ q, out.lookup q = if ∃ entry ∈ entries, entry.isDir = true ∧ Found c (relDir ++ [entry.name]) q
        then (c.items q).map (names toLower) else snapshot.lookup q := by
  induction entries generalizing snapshot with
  | nil => exact ⟨snapshot,rfl,by simp⟩
  | cons entry entries ih =>
    have rest := ih (fun other member => walks other (List.mem_cons_of_mem _ member))
    rw [List.foldlM_cons]
    cases kind : entry.isDir with
    | false =>
      obtain ⟨out,done,left⟩ := rest snapshot
      refine ⟨out,done,fun q => ?_⟩
      rw [left q]
      simp [kind]
    | true =>
      obtain ⟨middle,walked,there⟩ := walks entry List.mem_cons_self kind snapshot
      obtain ⟨out,done,left⟩ := rest middle
      refine ⟨out,by simp only [if_pos,walked,Option.bind_eq_bind,Option.bind_some,done],fun q => ?_⟩
      rw [left q,there q]
      by_cases own : Found c (relDir ++ [entry.name]) q
      · simp [kind,own]
      · simp [own]

theorem walkFinds {fuel : Nat} {relDir : Path} (snapshot : Snapshot) (plain : gitDir ∉ relDir)
    (there : (c.items relDir).isSome = true) (enough : c.depth < relDir.length + fuel) :
    ∃ out, walkInto toLower c fuel relDir snapshot = some out ∧ ∀ q, out.lookup q =
      if Found c relDir q then (c.items q).map (names toLower) else snapshot.lookup q := by
  induction fuel generalizing relDir snapshot with
  | zero =>
    have shallow := c.shallow relDir there
    omega
  | succ fuel ih =>
    obtain ⟨d,here⟩ := Option.isSome_iff_exists.mp there
    have outside : relDir.head? ≠ some gitDir := fun led => plain (List.mem_of_mem_head? led)
    have listed : listAt toLower c relDir = some (list toLower d) := by rw [listAt,if_neg outside,here]; rfl
    have walks : ∀ entry ∈ list toLower d, entry.isDir = true → ∀ snapshot, ∃ out,
        walkInto toLower c fuel (relDir ++ [entry.name]) snapshot = some out ∧ ∀ q, out.lookup q =
          if Found c (relDir ++ [entry.name]) q then (c.items q).map (names toLower) else snapshot.lookup q := by
      intro entry member dir snapshot
      obtain ⟨held,visible⟩ := listMember.mp member
      refine ih snapshot ?_ ((c.child relDir entry.name).mpr ⟨d,here,entry,held,rfl,dir⟩) ?_
      · rw [List.mem_append,List.mem_singleton,not_or]
        exact ⟨plain,visible.symm⟩
      · rw [List.length_append,List.length_singleton]
        omega
    obtain ⟨out,done,left⟩ := walkEntries walks (Records.put snapshot relDir ((list toLower d).map Entry.name))
    refine ⟨out,by rw [walkInto,listed]; exact done,fun q => ?_⟩
    rw [left q,Records.lookupPut]
    have found := @foundChild toLower c relDir q d plain here
    by_cases below : ∃ entry ∈ list toLower d, entry.isDir = true ∧ Found c (relDir ++ [entry.name]) q
    · rw [if_pos below,if_pos (found.mpr (Or.inr below))]
    · rw [if_neg below]
      by_cases own : q = relDir
      · rw [if_pos own,if_pos (found.mpr (Or.inl own)),own,here]
        rfl
      · rw [if_neg own,if_neg (fun inside => (found.mp inside).elim own below)]

theorem snapshotFinds (toLower : Str → Str) (c : Checkout) : ∃ out, walkSnapshot toLower c = some out ∧
    ∀ q, out.lookup q = if gitDir ∉ q then (c.items q).map (names toLower) else none := by
  obtain ⟨out,done,left⟩ := @walkFinds toLower c (c.depth + 1) [] [] List.not_mem_nil c.root (by simp)
  refine ⟨out,done,fun q => ?_⟩
  rw [left q]
  by_cases outside : gitDir ∈ q
  · rw [if_neg (fun found => found.2.1 outside),if_neg (not_not.mpr outside)]
    rfl
  · rw [if_pos outside]
    cases there : c.items q with
    | none => simp [Found,there]
    | some d => rw [if_pos ⟨List.nil_prefix,outside,by rw [there]; rfl⟩]

section
variable {previous current : Snapshot}

structure Checked (previous current : Snapshot) (dirs : List Path) (s : List Path × List Path) : Prop where
  seen : ∀ dir, dir ∈ s.1 ↔ dir ∈ dirs
  once : s.2.Nodup
  changed : ∀ dir, dir ∈ s.2 ↔ dir ∈ dirs ∧ previous.lookup dir ≠ current.lookup dir

theorem differs (dir : Path) : ((previous.lookup dir).isSome ≠ (current.lookup dir).isSome ∨
    ¬equalNames ((previous.lookup dir).getD []) ((current.lookup dir).getD [])) ↔ previous.lookup dir ≠ current.lookup dir := by
  cases before : previous.lookup dir <;> cases now : current.lookup dir <;> simp [equalNames]

theorem Checked.step {dirs : List Path} {s : List Path × List Path} (checked : Checked previous current dirs s) (dir : Path) :
    Checked previous current (dirs ++ [dir]) (check previous current s dir) := by
  have member : ∀ other, other ∈ dirs ++ [dir] ↔ other ∈ dirs ∨ other = dir := fun other => by
    rw [List.mem_append,List.mem_singleton]
  unfold check
  dsimp only
  by_cases old : dir ∈ s.1
  · rw [if_pos old]
    have same : ∀ other, other ∈ dirs ++ [dir] ↔ other ∈ dirs := fun other =>
      (member other).trans (or_iff_left_of_imp (fun own => own ▸ (checked.seen dir).mp old))
    exact ⟨fun other => by rw [checked.seen,same],checked.once,fun other => by rw [checked.changed,same]⟩
  · have fresh : dir ∉ s.2 := fun there => old ((checked.seen dir).mpr ((checked.changed dir).mp there).1)
    rw [if_neg old]
    refine ⟨fun other => by rw [List.mem_append,checked.seen,List.mem_append],?_,fun other => ?_⟩
    · split
      · exact List.nodup_append_comm.mp (List.nodup_cons.mpr ⟨fresh,checked.once⟩)
      · exact checked.once
    · rw [member]
      split
      · next apart =>
        rw [List.mem_append,List.mem_singleton,checked.changed]
        constructor
        · rintro (there | rfl)
          · exact ⟨Or.inl there.1,there.2⟩
          · exact ⟨Or.inr rfl,(differs other).mp apart⟩
        · rintro ⟨there | own,apart'⟩
          · exact Or.inl ⟨there,apart'⟩
          · exact Or.inr own
      · next same =>
        rw [checked.changed]
        constructor
        · exact fun there => ⟨Or.inl there.1,there.2⟩
        · rintro ⟨there | rfl,apart⟩
          · exact ⟨there,apart⟩
          · exact absurd ((differs other).mpr apart) same

theorem Checked.all {dirs more : List Path} {s : List Path × List Path} (checked : Checked previous current dirs s) :
    Checked previous current (dirs ++ more) (more.foldl (check previous current) s) := by
  induction more using List.reverseRecOn with
  | nil => rwa [List.append_nil]
  | append_singleton more dir ih =>
    rw [List.foldl_append,← List.append_assoc]
    exact ih.step dir

theorem lookupKeys {snapshot : Snapshot} {dir : Path} (absent : dir ∉ keys snapshot) : snapshot.lookup dir = none := by
  refine List.lookup_eq_none_iff.mpr (fun entry member => ?_)
  have other : dir ≠ entry.1 := fun same => absent (same ▸ List.mem_map_of_mem member)
  simpa using other

theorem diffFinds {before now : List Path} (held : before.Perm (keys previous)) (held' : now.Perm (keys current)) :
    (diffSnapshots previous current before now).Nodup ∧
    ∀ dir, dir ∈ diffSnapshots previous current before now ↔ previous.lookup dir ≠ current.lookup dir := by
  have empty : Checked previous current [] ([],[]) := ⟨fun _ => Iff.rfl,List.nodup_nil,fun _ => by simp⟩
  have checked : Checked previous current ([] ++ before ++ now) _ := (empty.all).all
  refine ⟨checked.once,fun dir => (checked.changed dir).trans (and_iff_right_of_imp (fun apart => ?_))⟩
  rw [List.nil_append,List.mem_append,held.mem_iff,held'.mem_iff]
  by_contra absent
  rw [not_or] at absent
  exact apart ((lookupKeys absent.1).trans (lookupKeys absent.2).symm)

end

/-- Whatever order the maps are gone through in, each directory listed differently is reported, once, and no other. -/
def Reported (toLower : Str → Str) (s t : Checkout) : Prop :=
  ∃ previous current, walkSnapshot toLower s = some previous ∧ walkSnapshot toLower t = some current ∧
    ∀ before now, before.Perm (keys previous) → now.Perm (keys current) →
      (diffSnapshots previous current before now).Nodup ∧
      ∀ dir, dir ∈ diffSnapshots previous current before now ↔ listAt toLower s dir ≠ listAt toLower t dir

def KindsKept (toLower : Str → Str) (s t : Checkout) : Prop :=
  ∀ dir d e, gitDir ∉ dir → s.items dir = some d → t.items dir = some e → names toLower d = names toLower e →
    ∀ a ∈ d.items, ∀ b ∈ e.items, a.name ≠ gitDir → a.name = b.name → a.isDir = b.isDir

def NestedKept (toLower : Str → Str) (s t : Checkout) : Prop :=
  ∀ dir, gitDir ∈ dir → listAt toLower s dir = listAt toLower t dir

theorem reportedLookups {toLower : Str → Str} {s t : Checkout} : Reported toLower s t ↔ ∀ dir,
    ((if gitDir ∉ dir then (s.items dir).map (names toLower) else none) ≠
      (if gitDir ∉ dir then (t.items dir).map (names toLower) else none) ↔ listAt toLower s dir ≠ listAt toLower t dir) := by
  obtain ⟨previous,walked,left⟩ := snapshotFinds toLower s
  obtain ⟨current,walked',left'⟩ := snapshotFinds toLower t
  constructor
  · rintro ⟨previous',current',same,same',reported⟩ dir
    cases Option.some.inj (walked.symm.trans same)
    cases Option.some.inj (walked'.symm.trans same')
    rw [← left,← left',← (reported _ _ (List.Perm.refl _) (List.Perm.refl _)).2]
    exact ((diffFinds (List.Perm.refl _) (List.Perm.refl _)).2 dir).symm
  · intro agree
    refine ⟨previous,current,walked,walked',fun before now held held' => ?_⟩
    obtain ⟨once,finds⟩ := diffFinds held held'
    exact ⟨once,fun dir => by rw [finds,left,left',agree]⟩

theorem reportedExact (toLower : Str → Str) (s t : Checkout) :
    Reported toLower s t ↔ KindsKept toLower s t ∧ NestedKept toLower s t := by
  rw [reportedLookups]
  constructor
  · intro agree
    constructor
    · intro dir d e outside here here' same
      have equal := (agree dir).not.mp
      rw [if_pos outside,if_pos outside,listAtPlain outside,listAtPlain outside,here,here'] at equal
      simp only [Option.map_some,ne_eq,not_not,Option.some.injEq] at equal
      exact (listSame.mp (equal same)).2
    · intro dir inside
      have equal := (agree dir).not.mp
      rw [if_neg (not_not.mpr inside),if_neg (not_not.mpr inside)] at equal
      exact not_not.mp (equal (not_not.mpr rfl))
  · rintro ⟨kinds,nested⟩ dir
    by_cases inside : gitDir ∈ dir
    · rw [if_neg (not_not.mpr inside),if_neg (not_not.mpr inside),nested dir inside]
      exact iff_of_false (fun apart => apart rfl) (fun apart => apart rfl)
    · rw [if_pos inside,if_pos inside,listAtPlain inside,listAtPlain inside]
      cases here : s.items dir <;> cases here' : t.items dir
      · simp
      · simp
      · simp
      · next d e =>
        simp only [Option.map_some,ne_eq,Option.some.injEq]
        refine not_congr ⟨fun same => ?_,fun same => (listSame.mp same).1⟩
        exact listSame.mpr ⟨same,kinds dir d e inside here here' same⟩

def confFile : Directory := ⟨[item "conf" false (by decide)],List.pairwise_singleton _ _⟩
def confDir : Directory := ⟨[item "conf" true (by decide)],List.pairwise_singleton _ _⟩

def fileOnly : Checkout := ofTable [([],confFile)] ⟨by decide,by decide,by decide⟩
def dirOnly : Checkout := ofTable [([],confDir),(["conf".toList],WorktreeList.empty)] ⟨by decide,by decide,by decide⟩

theorem kindChangeMissed : ¬Reported lower fileOnly dirOnly := by
  rw [reportedLookups]
  intro agree
  have apart : listAt lower fileOnly [] ≠ listAt lower dirOnly [] := by decide +kernel
  exact (agree []).mpr apart (by decide +kernel)

structure Tick where
  found : Option Checkout
  before : List Path
  now : List Path

/-- `shown` is what a reader has of each directory, who listed all at the start and lists again what is published. -/
structure Poll where
  previous : Snapshot
  last : Checkout
  published : List (List Path)
  shown : Path → Option (List Str)

def listed (toLower : Str → Str) (c : Checkout) (dir : Path) : Option (List Str) :=
  (listAt toLower c dir).map (List.map Entry.name)

def startPoll (toLower : Str → Str) (c : Checkout) : Option Poll :=
  (walkSnapshot toLower c).map (fun snapshot => ⟨snapshot,c,[],listed toLower c⟩)

def publish (toLower : Str → Str) (s : Poll) (c : Checkout) (changed : List Path) : Poll :=
  if changed = [] then s
  else { s with published := s.published ++ [changed],
                shown := fun dir => if dir ∈ changed then listed toLower c dir else s.shown dir }

def poll (toLower : Str → Str) (s : Poll) (t : Tick) : Option Poll :=
  match t.found with
  | none => some s
  | some c =>
    match walkSnapshot toLower c with
    | none => some s
    | some current => some { publish toLower s c (diffSnapshots s.previous current t.before t.now) with previous := current, last := c }

def Ranged (toLower : Str → Str) (s : Poll) (t : Tick) : Prop :=
  t.before.Perm (keys s.previous) ∧ ∀ c ∈ t.found, ∀ current ∈ walkSnapshot toLower c, t.now.Perm (keys current)

instance (toLower s t) : Decidable (Ranged toLower s t) := inferInstanceAs (Decidable (_ ∧ _))

structure Mirrors (toLower : Str → Str) (s : Poll) : Prop where
  previous : walkSnapshot toLower s.last = some s.previous
  shown : ∀ dir, gitDir ∉ dir → s.shown dir = listed toLower s.last dir

theorem listedPlain {c : Checkout} {dir : Path} (outside : gitDir ∉ dir) : listed toLower c dir = (c.items dir).map (names toLower) := by
  rw [listed,listAtPlain outside,Option.map_map]
  rfl

theorem snapshotListed {c : Checkout} {snapshot : Snapshot} (walked : walkSnapshot toLower c = some snapshot) {dir : Path}
    (outside : gitDir ∉ dir) : snapshot.lookup dir = listed toLower c dir := by
  obtain ⟨out,same,finds⟩ := snapshotFinds toLower c
  cases Option.some.inj (walked.symm.trans same)
  rw [finds,if_pos outside,listedPlain outside]

theorem pollMirrors {s u : Poll} {t : Tick} (mirrors : Mirrors toLower s) (ranged : Ranged toLower s t)
    (taken : poll toLower s t = some u) : Mirrors toLower u := by
  unfold poll at taken
  split at taken
  · cases taken
    exact mirrors
  · next c found =>
    split at taken
    · cases taken
      exact mirrors
    · next current walked =>
      cases taken
      refine ⟨walked,fun dir outside => ?_⟩
      obtain ⟨_,finds⟩ := diffFinds ranged.1 (ranged.2 c found current walked)
      have differ := finds dir
      rw [snapshotListed mirrors.previous outside,snapshotListed walked outside] at differ
      unfold publish
      split
      · next quiet =>
        rw [quiet] at differ
        exact (mirrors.shown dir outside).trans (by simpa using differ)
      · dsimp only
        by_cases changed : dir ∈ diffSnapshots s.previous current t.before t.now
        · exact if_pos changed
        · rw [if_neg changed,mirrors.shown dir outside]
          exact not_not.mp (fun apart => changed (differ.mpr apart))

def ticks : List Tick := [⟨none,[[]],[]⟩,⟨some dirOnly,[[]],[["conf".toList],[]]⟩]
def begun : Poll := ⟨[([],["conf".toList])],fileOnly,[],listed lower fileOnly⟩

theorem ticksTaken : (Runs.exec (Runs.guarded (poll lower) (Ranged lower)) begun ticks).isSome = true := by decide +kernel

end M6t.PollWatcher
