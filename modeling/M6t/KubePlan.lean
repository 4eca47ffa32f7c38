import M6t.Declared
import Mathlib.Data.List.AList
import Mathlib.Data.List.Sort

/-! The plan of a kubewatch session: one row for each declared object, and the groups,
one for each resource and namespace, with the rows each answers for by object name.
The REST mapper is a parameter, and the map the groups are collected in has no order. -/
namespace M6t.KubePlan
open M6t.Text M6t.Declared

structure Resource where
  group : Str
  version : Str
  resource : Str
  deriving DecidableEq, Repr

def Resource.string (r : Resource) : Str := r.group ++ "/".toList ++ r.version ++ ", Resource=".toList ++ r.resource

structure Mapping where
  resource : Resource
  namespaced : Bool
  deriving DecidableEq, Repr

abbrev RESTMapper := Str → Str → Except Str Mapping

inductive Health where
  | unknown
  | current
  | inProgress
  | failed
  | terminating
  | notFound
  deriving DecidableEq, Repr

structure Verdict where
  health : Health
  message : Str
  deriving DecidableEq, Repr

def notFound : Verdict := ⟨.notFound,[]⟩

structure Status where
  apiVersion : Str
  kind : Str
  ns : Str
  name : Str
  file : Str
  verdict : Verdict
  deriving DecidableEq, Repr

structure GroupKey where
  resource : Resource
  ns : Str
  deriving DecidableEq, Repr

abbrev Names := AList (fun _ : Str => List Nat)

structure Group where
  key : GroupKey
  names : Names

def Names.indices (names : Names) (name : Str) : List Nat := (names.lookup name).getD []

def Names.own (names : Names) (name : Str) (index : Nat) : Names := names.insert name (names.indices name ++ [index])

def resolve (mapper : RESTMapper) (declared : Object) : Except Str Mapping :=
  match mapper declared.apiVersion declared.kind with
  | .error err =>
      .error ("this cluster does not serve ".toList ++ declared.apiVersion ++ " ".toList ++ declared.kind ++
        ": ".toList ++ err)
  | .ok mapping => .ok mapping

def unknown (declared : Object) (err : Str) : Status :=
  ⟨declared.apiVersion,declared.kind,declared.ns,declared.name,declared.file,⟨.unknown,err⟩⟩

def Mapping.key (mapping : Mapping) (fallback : Str) (declared : Object) : GroupKey :=
  ⟨mapping.resource,if mapping.namespaced then if declared.ns = [] then fallback else declared.ns else []⟩

abbrev ByKey := AList (fun _ : GroupKey => Names)

structure Build where
  order : List Status
  byKey : ByKey

def ByKey.names (byKey : ByKey) (key : GroupKey) : Names := (byKey.lookup key).getD ∅

def Build.add (mapper : RESTMapper) (fallback : Str) (b : Build) (declared : Object) : Build :=
  match resolve mapper declared with
  | .error err => { b with order := b.order ++ [unknown declared err] }
  | .ok mapping =>
      let key := mapping.key fallback declared
      { order := b.order ++ [⟨declared.apiVersion,declared.kind,key.ns,declared.name,declared.file,notFound⟩]
        byKey := b.byKey.insert key ((b.byKey.names key).own declared.name b.order.length) }

def Group.before (a b : Group) : Prop :=
  a.key.resource.string < b.key.resource.string ∨
    a.key.resource.string = b.key.resource.string ∧ ¬b.key.ns < a.key.ns
instance : DecidableRel Group.before := fun a b => by unfold Group.before; infer_instance

def sorted (groups : List Group) : List Group := groups.insertionSort Group.before

def ByKey.groups (byKey : ByKey) : List Group := byKey.entries.map (fun entry => ⟨entry.1,entry.2⟩)

def plan (mapper : RESTMapper) (objects : List Object) (fallback : Str) : List Status × List Group :=
  let b := objects.foldl (Build.add mapper fallback) ⟨[],∅⟩
  (b.order,sorted b.byKey.groups)

def keyOf (mapper : RESTMapper) (fallback : Str) (declared : Object) : Option GroupKey :=
  (resolve mapper declared).toOption.map (fun mapping => mapping.key fallback declared)

def row (mapper : RESTMapper) (fallback : Str) (declared : Object) : Status :=
  match resolve mapper declared with
  | .error err => unknown declared err
  | .ok mapping =>
      ⟨declared.apiVersion,declared.kind,(mapping.key fallback declared).ns,declared.name,declared.file,notFound⟩

variable {mapper : RESTMapper} {fallback : Str} {objects : List Object}

/-- After a list of objects: a row for each, and each served one under its own name in its own group. -/
structure Built (mapper : RESTMapper) (fallback : Str) (objects : List Object) (b : Build) : Prop where
  rows : b.order = objects.map (row mapper fallback)
  owned : ∀ key name i, i ∈ (b.byKey.names key).indices name ↔
    ∃ declared, objects[i]? = some declared ∧ keyOf mapper fallback declared = some key ∧ declared.name = name
  kept : ∀ key names, b.byKey.lookup key = some names → ∃ declared ∈ objects, keyOf mapper fallback declared = some key

theorem ownIndices (names : Names) (name other : Str) (index : Nat) :
    (names.own name index).indices other = if other = name then names.indices name ++ [index] else names.indices other := by
  by_cases same : other = name
  · subst same
    simp only [Names.own,Names.indices,AList.lookup_insert,Option.getD_some,if_true]
  · rw [if_neg same]
    simp only [Names.own,Names.indices]
    rw [AList.lookup_insert_ne same]

theorem insertNames (byKey : ByKey) (key other : GroupKey) (names : Names) :
    ByKey.names (byKey.insert key names) other = if other = key then names else byKey.names other := by
  by_cases same : other = key
  · subst same
    simp only [ByKey.names,AList.lookup_insert,Option.getD_some,if_true]
  · rw [if_neg same]
    simp only [ByKey.names]
    rw [AList.lookup_insert_ne same]

theorem emptyIndices (key : GroupKey) (name : Str) : (ByKey.names ∅ key).indices name = [] := by
  simp [ByKey.names,Names.indices]

theorem Built.add {b : Build} (built : Built mapper fallback objects b) (declared : Object) :
    Built mapper fallback (objects ++ [declared]) (b.add mapper fallback declared) := by
  have length : b.order.length = objects.length := by rw [built.rows,List.length_map]
  have older : ∀ (P : Object → Prop) i, (∃ o, (objects ++ [declared])[i]? = some o ∧ P o) ↔
      (∃ o, objects[i]? = some o ∧ P o) ∨ i = objects.length ∧ P declared := by
    intro P i
    rcases Nat.lt_trichotomy i objects.length with inside | rfl | beyond
    · rw [List.getElem?_append_left inside]
      simp [Nat.ne_of_lt inside]
    · simp
    · rw [List.getElem?_eq_none (by simp; omega),List.getElem?_eq_none (Nat.le_of_lt beyond)]
      simp [Nat.ne_of_gt beyond]
  cases served : resolve mapper declared with
  | error err =>
    have unkeyed : keyOf mapper fallback declared = none := by simp [keyOf,served,Except.toOption]
    refine ⟨?_,fun key name i => ?_,fun key names found => ?_⟩
    · simp [Build.add,served,built.rows,row]
    · rw [older]
      simp only [Build.add,served,built.owned,unkeyed]
      simp
    · simp only [Build.add,served] at found
      obtain ⟨owner,listed,keyed⟩ := built.kept key names found
      exact ⟨owner,List.mem_append_left _ listed,keyed⟩
  | ok mapping =>
    have keyed : keyOf mapper fallback declared = some (mapping.key fallback declared) := by
      simp [keyOf,served,Except.toOption]
    refine ⟨?_,fun key name i => ?_,fun key names found => ?_⟩
    · simp [Build.add,served,built.rows,row]
    · rw [older]
      simp only [Build.add,served,insertNames,keyed,Option.some.injEq]
      by_cases same : key = mapping.key fallback declared
      · rw [if_pos same,ownIndices]
        by_cases named : name = declared.name
        · rw [if_pos named,List.mem_append,same,named,built.owned,List.mem_singleton,length]
          simp
        · rw [if_neg named,built.owned,← same]
          simp [Ne.symm named]
      · rw [if_neg same,built.owned]
        simp [Ne.symm same]
    · by_cases same : key = mapping.key fallback declared
      · exact ⟨declared,by simp,same ▸ keyed⟩
      · simp only [Build.add,served,AList.lookup_insert_ne same] at found
        obtain ⟨owner,listed,keyed⟩ := built.kept key names found
        exact ⟨owner,List.mem_append_left _ listed,keyed⟩

theorem built (mapper : RESTMapper) (fallback : Str) (objects : List Object) :
    Built mapper fallback objects (objects.foldl (Build.add mapper fallback) ⟨[],∅⟩) := by
  induction objects using List.reverseRecOn with
  | nil => exact ⟨rfl,fun key name i => by simp [emptyIndices],fun key names found => by simp at found⟩
  | append_singleton objects declared ih =>
    rw [List.foldl_append]
    exact ih.add declared

theorem memGroups {byKey : ByKey} {g : Group} : g ∈ sorted byKey.groups ↔ byKey.lookup g.key = some g.names := by
  simp only [sorted,List.mem_insertionSort,ByKey.groups,List.mem_map]
  constructor
  · rintro ⟨entry,listed,rfl⟩
    exact AList.mem_lookup_iff.mpr listed
  · exact fun found => ⟨⟨g.key,g.names⟩,AList.mem_lookup_iff.mp found,rfl⟩

theorem planRows (mapper : RESTMapper) (objects : List Object) (fallback : Str) :
    (plan mapper objects fallback).1 = objects.map (row mapper fallback) :=
  (built mapper fallback objects).rows

theorem planOwned {g : Group} (member : g ∈ (plan mapper objects fallback).2) (name : Str) (i : Nat) :
    i ∈ g.names.indices name ↔
      ∃ declared, objects[i]? = some declared ∧ keyOf mapper fallback declared = some g.key ∧ declared.name = name := by
  have found := memGroups.mp member
  rw [← (built mapper fallback objects).owned,ByKey.names,found,Option.getD_some]

theorem planServed {declared : Object} {key : GroupKey} {i : Nat} (at_ : objects[i]? = some declared)
    (served : keyOf mapper fallback declared = some key) : ∃ g ∈ (plan mapper objects fallback).2, g.key = key := by
  have owned := ((built mapper fallback objects).owned key declared.name i).mpr ⟨declared,at_,served,rfl⟩
  cases found : (objects.foldl (Build.add mapper fallback) ⟨[],∅⟩).byKey.lookup key with
  | none => rw [ByKey.names,found] at owned; simp [Names.indices] at owned
  | some names => exact ⟨⟨key,names⟩,memGroups.mpr found,rfl⟩

theorem planKept {g : Group} (member : g ∈ (plan mapper objects fallback).2) :
    ∃ declared ∈ objects, keyOf mapper fallback declared = some g.key :=
  (built mapper fallback objects).kept g.key g.names (memGroups.mp member)

theorem planDistinct (mapper : RESTMapper) (objects : List Object) (fallback : Str) :
    ((plan mapper objects fallback).2.map Group.key).Nodup := by
  have keys := (objects.foldl (Build.add mapper fallback) ⟨[],∅⟩).byKey.keys_nodup
  have order : (plan mapper objects fallback).2.Perm (ByKey.groups (objects.foldl (Build.add mapper fallback) ⟨[],∅⟩).byKey) :=
    List.perm_insertionSort _ _
  refine (order.map Group.key).nodup_iff.mpr ?_
  simpa [ByKey.groups,Function.comp_def,AList.keys,List.keys] using keys

theorem planApart {g h : Group} (first : g ∈ (plan mapper objects fallback).2) (second : h ∈ (plan mapper objects fallback).2)
    {m n : Str} {i : Nat} (owned : i ∈ g.names.indices m) (also : i ∈ h.names.indices n) : g.key = h.key ∧ m = n := by
  obtain ⟨declared,at_,key,named⟩ := (planOwned first m i).mp owned
  obtain ⟨again,at',key',named'⟩ := (planOwned second n i).mp also
  obtain rfl : declared = again := Option.some.inj (at_.symm.trans at')
  exact ⟨Option.some.inj (key.symm.trans key'),named.symm.trans named'⟩

/-- Ranging over the map reads every group once, in an order of its own. -/
structure Ranging where
  visit : ByKey → List Group
  every : ∀ byKey : ByKey, (visit byKey).Perm byKey.groups

structure SortFunc where
  sort : List Group → List Group
  same : ∀ groups, (sort groups).Perm groups
  ordered : ∀ groups, (sort groups).Pairwise Group.before

def planIn (ranging : Ranging) (sortFunc : SortFunc) (mapper : RESTMapper) (objects : List Object) (fallback : Str) :
    List Status × List Group :=
  let b := objects.foldl (Build.add mapper fallback) ⟨[],∅⟩
  (b.order,sortFunc.sort (ranging.visit b.byKey))

def Named (mapper : RESTMapper) : Prop :=
  ∀ apiVersion kind mapping, mapper apiVersion kind = .ok mapping →
    '/' ∉ mapping.resource.group ∧ ',' ∉ mapping.resource.version

theorem cutUnique {α : Type*} {sep : α} {a b s t : List α} (plain : sep ∉ a) (also : sep ∉ b)
    (same : a ++ sep :: s = b ++ sep :: t) : a = b ∧ s = t := by
  induction a generalizing b with
  | nil =>
    cases b with
    | nil => exact ⟨rfl,List.tail_eq_of_cons_eq same⟩
    | cons d b => exact absurd (List.head_eq_of_cons_eq same) (fun head => also (head ▸ List.mem_cons_self))
  | cons c a ih =>
    cases b with
    | nil => exact absurd (List.head_eq_of_cons_eq same) (fun head => plain (head ▸ List.mem_cons_self))
    | cons d b =>
      have head : c = d := List.head_eq_of_cons_eq same
      obtain ⟨rest,tails⟩ := ih (fun inside => plain (List.mem_cons_of_mem _ inside))
        (fun inside => also (List.mem_cons_of_mem _ inside)) (List.tail_eq_of_cons_eq same)
      exact ⟨head ▸ rest ▸ rfl,tails⟩

theorem stringInjective {r s : Resource} (group : '/' ∉ r.group) (group' : '/' ∉ s.group) (version : ',' ∉ r.version)
    (version' : ',' ∉ s.version) (same : r.string = s.string) : r = s := by
  have slashed : r.group ++ '/' :: (r.version ++ ',' :: " Resource=".toList ++ r.resource) =
      s.group ++ '/' :: (s.version ++ ',' :: " Resource=".toList ++ s.resource) := by
    simpa [Resource.string] using same
  obtain ⟨groups,rest⟩ := cutUnique group group' slashed
  have comma : r.version ++ ',' :: (" Resource=".toList ++ r.resource) =
      s.version ++ ',' :: (" Resource=".toList ++ s.resource) := by simpa using rest
  obtain ⟨versions,tails⟩ := cutUnique version version' comma
  cases r
  cases s
  simp_all

theorem resolved {declared : Object} {mapping : Mapping} (served : resolve mapper declared = .ok mapping) :
    mapper declared.apiVersion declared.kind = .ok mapping := by
  unfold resolve at served
  split at served
  · contradiction
  · next found => exact found.trans served

theorem keyServed {declared : Object} {key : GroupKey} (served : keyOf mapper fallback declared = some key) :
    ∃ mapping, resolve mapper declared = .ok mapping ∧ mapping.key fallback declared = key := by
  unfold keyOf at served
  cases found : resolve mapper declared with
  | error err => simp [found,Except.toOption] at served
  | ok mapping => exact ⟨mapping,rfl,by simpa [found,Except.toOption] using served⟩

theorem groupNamed (named : Named mapper) {g : Group} (member : g ∈ (plan mapper objects fallback).2) :
    '/' ∉ g.key.resource.group ∧ ',' ∉ g.key.resource.version := by
  obtain ⟨declared,-,served⟩ := planKept member
  obtain ⟨mapping,found,key⟩ := keyServed served
  rw [← key]
  exact named _ _ _ (resolved found)

theorem beforeTotal : Std.Total Group.before := ⟨fun a b => by
  unfold Group.before
  by_cases less : a.key.resource.string < b.key.resource.string
  · exact .inl (.inl less)
  by_cases more : b.key.resource.string < a.key.resource.string
  · exact .inr (.inl more)
  have same := notLess _ _ less more
  rcases List.le_total a.key.ns b.key.ns with le | le
  · exact .inl (.inr ⟨same,List.not_lt.mpr le⟩)
  · exact .inr (.inr ⟨same.symm,List.not_lt.mpr le⟩)⟩

theorem beforeTrans : IsTrans Group Group.before := ⟨fun a b c first second => by
  unfold Group.before at *
  rcases first with less | ⟨same,ns⟩
  · rcases second with more | ⟨same',-⟩
    · exact .inl (List.lt_trans less more)
    · exact .inl (same' ▸ less)
  · rcases second with more | ⟨same',ns'⟩
    · exact .inl (same ▸ more)
    · exact .inr ⟨same.trans same',List.not_lt.mpr (List.le_trans (List.not_lt.mp ns) (List.not_lt.mp ns'))⟩⟩

theorem sortedOrdered (groups : List Group) : (sorted groups).Pairwise Group.before :=
  have := beforeTotal
  have := beforeTrans
  List.pairwise_insertionSort _ _

theorem beforeBoth {g h : Group} (first : g.before h) (second : h.before g) :
    g.key.resource.string = h.key.resource.string ∧ g.key.ns = h.key.ns := by
  unfold Group.before at *
  rcases first with less | ⟨same,ns⟩
  · rcases second with more | ⟨same,-⟩
    · exact absurd less (List.lt_asymm more)
    · exact absurd less (same ▸ List.lt_irrefl _)
  · rcases second with more | ⟨-,ns'⟩
    · exact absurd more (same ▸ List.lt_irrefl _)
    · exact ⟨same,notLess _ _ ns' ns⟩

theorem keyDecides {g h : Group} (first : g ∈ (plan mapper objects fallback).2)
    (second : h ∈ (plan mapper objects fallback).2) (same : g.key = h.key) : g = h := by
  have found := memGroups.mp first
  have found' := memGroups.mp second
  rw [same,found'] at found
  obtain ⟨key,names⟩ := g
  obtain ⟨key',names'⟩ := h
  cases same
  exact congrArg (Group.mk key) (Option.some.inj found).symm

theorem planInSame (named : Named mapper) (ranging : Ranging) (sortFunc : SortFunc) :
    planIn ranging sortFunc mapper objects fallback = plan mapper objects fallback := by
  let byKey := (objects.foldl (Build.add mapper fallback) ⟨[],∅⟩).byKey
  have shuffled : (sortFunc.sort (ranging.visit byKey)).Perm (sorted byKey.groups) :=
    (sortFunc.same _).trans ((ranging.every byKey).trans (List.perm_insertionSort _ _).symm)
  have groups : sortFunc.sort (ranging.visit byKey) = sorted byKey.groups := by
    refine shuffled.eq_of_pairwise (fun g h first second there back => ?_) (sortFunc.ordered _) (sortedOrdered _)
    have member : g ∈ (plan mapper objects fallback).2 := shuffled.mem_iff.mp first
    obtain ⟨strings,ns⟩ := beforeBoth there back
    obtain ⟨slash,comma⟩ := groupNamed named member
    obtain ⟨slash',comma'⟩ := groupNamed named second
    have resource := stringInjective slash slash' comma comma' strings
    refine keyDecides member second ?_
    cases h' : h.key
    cases g' : g.key
    simp_all
  exact Prod.ext rfl groups

theorem ascending (key : GroupKey) (name : Str) :
    (((objects.foldl (Build.add mapper fallback) ⟨[],∅⟩).byKey.names key).indices name).Pairwise (· < ·) := by
  induction objects using List.reverseRecOn generalizing key name with
  | nil => simp [emptyIndices]
  | append_singleton objects declared ih =>
    rw [List.foldl_append]
    have whole := built mapper fallback objects
    cases served : resolve mapper declared with
    | error err => simpa [Build.add,served] using ih key name
    | ok mapping =>
      simp only [List.foldl_cons,List.foldl_nil,Build.add,served,insertNames]
      split
      · rw [ownIndices]
        split
        · refine List.pairwise_append.mpr ⟨ih _ _,List.pairwise_singleton _ _,fun i inside j last => ?_⟩
          obtain ⟨declared,at_,-⟩ := (whole.owned _ _ i).mp inside
          rw [List.mem_singleton.mp last,whole.rows,List.length_map]
          exact (List.getElem?_eq_some_iff.mp at_).1
        · exact ih _ _
      · exact ih _ _

theorem planAscending {g : Group} (member : g ∈ (plan mapper objects fallback).2) (name : Str) :
    (g.names.indices name).Pairwise (· < ·) := by
  have found := memGroups.mp member
  have names := @ascending mapper fallback objects g.key name
  rwa [ByKey.names,found,Option.getD_some] at names

/-- Where an object of a mapped kind is: its own namespace, else the fallback, and none for a cluster-scoped kind. -/
def homeOf (mapping : Mapping) (fallback : Str) (declared : Object) : Str :=
  match mapping.namespaced,declared.ns with
  | false,_ => []
  | true,[] => fallback
  | true,c :: ns => c :: ns

def standsIn (mapper : RESTMapper) (fallback : Str) (declared : Object) : Str :=
  match mapper declared.apiVersion declared.kind with
  | .error _ => declared.ns
  | .ok mapping => homeOf mapping fallback declared

structure Stands (mapper : RESTMapper) (fallback : Str) (declared : Object) (row : Status) : Prop where
  apiVersion : row.apiVersion = declared.apiVersion
  kind : row.kind = declared.kind
  name : row.name = declared.name
  file : row.file = declared.file
  ns : row.ns = standsIn mapper fallback declared

def Unheard (mapper : RESTMapper) (declared : Object) (row : Status) : Prop :=
  match mapper declared.apiVersion declared.kind with
  | .error err => row.verdict.health = .unknown ∧ err <:+ row.verdict.message
  | .ok _ => row.verdict = ⟨.notFound,[]⟩

theorem keyHome (mapping : Mapping) (fallback : Str) (declared : Object) :
    mapping.key fallback declared = ⟨mapping.resource,homeOf mapping fallback declared⟩ := by
  unfold Mapping.key homeOf
  cases mapping.namespaced <;> cases declared.ns <;> simp

theorem mappedOk {declared : Object} {mapping : Mapping} (served : mapper declared.apiVersion declared.kind = .ok mapping) :
    resolve mapper declared = .ok mapping := by
  rw [resolve,served]

theorem mappedError {declared : Object} {err : Str} (unserved : mapper declared.apiVersion declared.kind = .error err) :
    ∃ front, resolve mapper declared = .error (front ++ err) := by
  rw [resolve,unserved]
  exact ⟨_,rfl⟩

theorem rowStands (mapper : RESTMapper) (fallback : Str) (declared : Object) :
    Stands mapper fallback declared (row mapper fallback declared) ∧ Unheard mapper declared (row mapper fallback declared) := by
  unfold Unheard
  cases served : mapper declared.apiVersion declared.kind with
  | error err =>
    obtain ⟨front,unserved⟩ := mappedError served
    simp only [row,unserved]
    exact ⟨⟨rfl,rfl,rfl,rfl,by rw [standsIn,served]; rfl⟩,rfl,List.suffix_append front err⟩
  | ok mapping =>
    simp only [row,mappedOk served,keyHome]
    exact ⟨⟨rfl,rfl,rfl,rfl,by rw [standsIn,served]⟩,rfl⟩

theorem planOwnsEachRow (mapper : RESTMapper) (objects : List Object) (fallback : Str) :
    (plan mapper objects fallback).1.length = objects.length ∧
    (∀ i declared, objects[i]? = some declared →
      (∃ row, (plan mapper objects fallback).1[i]? = some row ∧ Stands mapper fallback declared row ∧ Unheard mapper declared row) ∧
      match mapper declared.apiVersion declared.kind with
      | .error _ => ∀ g ∈ (plan mapper objects fallback).2, ∀ name, i ∉ g.names.indices name
      | .ok mapping =>
          ∃ g ∈ (plan mapper objects fallback).2,
            g.key = ⟨mapping.resource,homeOf mapping fallback declared⟩ ∧
            (g.names.indices declared.name).count i = 1 ∧
            ∀ h ∈ (plan mapper objects fallback).2, ∀ name, i ∈ h.names.indices name → h = g ∧ name = declared.name) ∧
    (∀ g ∈ (plan mapper objects fallback).2, ∀ name, ∀ i ∈ g.names.indices name, i < objects.length) ∧
    ((plan mapper objects fallback).2.map Group.key).Nodup ∧
    (Named mapper → ∀ ranging sortFunc, planIn ranging sortFunc mapper objects fallback = plan mapper objects fallback) := by
  refine ⟨by rw [planRows,List.length_map],fun i declared at_ => ⟨?_,?_⟩,fun g member name i owned => ?_,
    planDistinct mapper objects fallback,fun named => planInSame named⟩
  · exact ⟨row mapper fallback declared,by simp [planRows,at_],rowStands mapper fallback declared⟩
  · cases served : mapper declared.apiVersion declared.kind with
    | error err =>
      obtain ⟨front,unserved⟩ := mappedError served
      intro g member name owned
      obtain ⟨again,at',key,-⟩ := (planOwned member name i).mp owned
      obtain rfl : declared = again := Option.some.inj (at_.symm.trans at')
      simp [keyOf,unserved,Except.toOption] at key
    | ok mapping =>
      have keyed : keyOf mapper fallback declared = some (mapping.key fallback declared) := by
        simp [keyOf,mappedOk served,Except.toOption]
      obtain ⟨g,member,key⟩ := planServed at_ keyed
      have owned : i ∈ g.names.indices declared.name :=
        (planOwned member declared.name i).mpr ⟨declared,at_,key ▸ keyed,rfl⟩
      have once := (planAscending member declared.name).imp Nat.ne_of_lt
      refine ⟨g,member,key.trans (keyHome mapping fallback declared),List.count_eq_one_of_mem once owned,fun h also name owned' => ?_⟩
      obtain ⟨same,named⟩ := planApart also member owned' owned
      exact ⟨keyDecides also member same,named⟩
  · obtain ⟨declared,at_,-⟩ := (planOwned member name i).mp owned
    exact (List.getElem?_eq_some_iff.mp at_).1

def backwards : Ranging := ⟨fun byKey => byKey.groups.reverse,fun _ => List.reverse_perm _⟩
def steadily : SortFunc := ⟨sorted,fun _ => List.perm_insertionSort _ _,sortedOrdered⟩

def podsOnly : RESTMapper
  | _,kind => if kind = "Pod".toList then .ok ⟨⟨[],"v1".toList,"pods".toList⟩,true⟩ else .error "no matches".toList

def pod (ns : String) : Object := ⟨"v1".toList,"Pod".toList,ns.toList,"a".toList,[]⟩
def widget : Object := ⟨"v1".toList,"Widget".toList,[],"w".toList,[]⟩

theorem podsReversed :
    planIn backwards steadily podsOnly [pod "",widget,pod "x"] "default".toList =
        plan podsOnly [pod "",widget,pod "x"] "default".toList ∧
      (∃ g ∈ (plan podsOnly [pod "",widget,pod "x"] "default".toList).2,
        g.key = ⟨⟨[],"v1".toList,"pods".toList⟩,"default".toList⟩ ∧ (g.names.indices "a".toList).count 0 = 1) ∧
      ∀ g ∈ (plan podsOnly [pod "",widget,pod "x"] "default".toList).2, ∀ name, 1 ∉ g.names.indices name := by
  obtain ⟨_,rows,_,_,same⟩ := planOwnsEachRow podsOnly [pod "",widget,pod "x"] "default".toList
  obtain ⟨g,member,key,once,_⟩ := (rows 0 (pod "") rfl).2
  refine ⟨same (fun apiVersion kind mapping found => ?_) _ _,⟨g,member,key,once⟩,(rows 1 widget rfl).2⟩
  by_cases pod : kind = "Pod".toList
  · obtain rfl := Except.ok.inj ((if_pos pod).symm.trans found)
    decide
  · rw [podsOnly,if_neg pod] at found
    contradiction

def slashed : RESTMapper
  | _,kind => .ok ⟨if kind = "Pod".toList then ⟨"a/b".toList,"v".toList,"x".toList⟩ else ⟨"a".toList,"b/v".toList,"x".toList⟩,false⟩

theorem slashedReversed :
    (planIn backwards steadily slashed [pod "",widget] []).2.map Group.key ≠ (plan slashed [pod "",widget] []).2.map Group.key := by
  decide +kernel

end M6t.KubePlan
