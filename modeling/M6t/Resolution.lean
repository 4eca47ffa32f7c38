import M6t.KubeBinding

/-! What a folder resolves to, said of the scopes as places: a scope is around a
target when its segments begin the target's, and lies as deep as it has segments. -/
namespace M6t.Resolution
open M6t.Text M6t.SlashPath M6t.Layering M6t.KubeBinding

def segments (p : Str) : List Str := if p = [] then [] else p.splitOn '/'

theorem segmentsPrefix {a b : Str} : a.splitOn '/' <+: b.splitOn '/' ↔ b = a ∨ a ++ slash <+: b := by
  constructor
  · rintro ⟨rest,parts⟩
    have whole : joined (b.splitOn '/') = b := List.intercalate_splitOn '/'
    have start : joined (a.splitOn '/') = a := List.intercalate_splitOn '/'
    by_cases last : rest = []
    · exact Or.inl (by rw [← whole,← parts,last,List.append_nil,start])
    · refine Or.inr ⟨joined rest,?_⟩
      rw [← whole,← parts,joinedAppend (List.splitOn_ne_nil '/' a) last,start]
  · rintro (same | ⟨rest,rfl⟩)
    · exact same ▸ List.prefix_rfl
    · refine ⟨rest.splitOn '/',?_⟩
      have parts := List.splitOn_append_cons_self (a := '/') a rest
      simpa [slash] using parts.symm

theorem coversSegments {scope target : Str} : Covers scope target ↔ segments scope <+: segments target := by
  by_cases root : scope = []
  · simp [root,segments,coversRoot]
  · by_cases top : target = []
    · subst top
      simp [Covers,root,segments,slash,Ne.symm root]
    · simp only [Covers,segments,root,top,if_false,false_or,segmentsPrefix]

theorem segmentsInjective {a b : Str} (same : segments a = segments b) : a = b := by
  have left := coversPrefix (coversSegments.mpr (same ▸ List.prefix_rfl : segments a <+: segments b))
  have right := coversPrefix (coversSegments.mpr (same ▸ List.prefix_rfl : segments b <+: segments a))
  exact left.eq_of_length (Nat.le_antisymm left.length_le right.length_le)

def cleaned (k : Kube) : List Scope := k.scopes.map (fun s => { s with path := cleanScope s.path })

/-- The deepest scope around a place that sets the field. -/
structure Deepest {V : Type} (scopes : List Scope) (target : Str) (pick : Scope → Option V) (s : Scope) : Prop where
  member : s ∈ scopes
  around : segments s.path <+: segments target
  sets : (pick s).isSome
  deepest : ∀ r ∈ scopes, segments r.path <+: segments target → (pick r).isSome → r ≠ s →
    (segments r.path).length < (segments s.path).length

def Decided {V : Type} (scopes : List Scope) (target : Str) (pick : Scope → Option V) (start v : V) : Prop :=
  (∃ s, Deepest scopes target pick s ∧ pick s = some v) ∨
    (∀ s ∈ scopes, segments s.path <+: segments target → pick s = none) ∧ v = start

section Spec
variable {V : Type} {scopes : List Scope} {target : Str} {pick : Scope → Option V} {start v w : V}

theorem decidedUnique (left : Decided scopes target pick start v) (right : Decided scopes target pick start w) :
    v = w := by
  rcases left with ⟨s,hs,sv⟩ | ⟨none,rfl⟩
  · rcases right with ⟨r,hr,rw⟩ | ⟨none,rfl⟩
    · have same : s = r := by
        by_contra different
        have deeper := hs.deepest r hr.member hr.around hr.sets (Ne.symm different)
        have shallower := hr.deepest s hs.member hs.around hs.sets different
        omega
      subst same
      exact Option.some.inj (sv.symm.trans rw)
    · simp [none s hs.member hs.around] at sv
  · rcases right with ⟨r,hr,rw⟩ | ⟨_,rfl⟩
    · simp [none r hr.member hr.around] at rw
    · rfl

theorem decidedPerm {others : List Scope} (perm : others.Perm scopes) (h : Decided others target pick start v) :
    Decided scopes target pick start v := by
  rcases h with ⟨s,⟨member,around,sets,deepest⟩,sv⟩ | ⟨none,rfl⟩
  · refine Or.inl ⟨s,⟨perm.subset member,around,sets,fun r hr => ?_⟩,sv⟩
    exact deepest r (perm.symm.subset hr)
  · exact Or.inr ⟨fun s hs => none s (perm.symm.subset hs),rfl⟩

end Spec

section Fields
variable {k : Kube} {target : Str}

theorem coversStrict {a b : Str} (h : Covers a b) (len : byteLen b ≤ byteLen a) : a = b :=
  prefixOfByteLen (coversPrefix h) len

theorem rulesDistinct (distinct : (k.scopes.map (fun s => cleanScope s.path)).Nodup) :
    (k.rules.map Match.path).Nodup := by
  simpa [Kube.rules,Function.comp_def] using distinct

theorem memCleaned {m : Match} (member : m ∈ k.rules) : { m.scope with path := m.path } ∈ cleaned k := by
  obtain ⟨s,hs,rfl⟩ := memRules.mp member
  exact List.mem_map.mpr ⟨s,hs,rfl⟩

theorem cleanedRule {s : Scope} (member : s ∈ cleaned k) :
    ∃ m ∈ k.rules, m.path = s.path ∧ { m.scope with path := m.path } = s := by
  obtain ⟨r,hr,rfl⟩ := List.mem_map.mp member
  exact ⟨⟨cleanScope r.path,r⟩,memRules.mpr ⟨r,hr,rfl⟩,rfl,rfl⟩

theorem inForceDeepest {V : Type} (pick : Scope → Option V) (start : V)
    (distinct : (k.scopes.map (fun s => cleanScope s.path)).Nodup) :
    Decided (cleaned k) target pick start (inForce Covers byteLen Match.path
      (fun m => pick { m.scope with path := m.path }) start k.rules target) := by
  rcases inForceDecided (fun m : Match => pick { m.scope with path := m.path }) start coversNested coversStrict
    (rulesDistinct distinct) (p := target) with ⟨m,deciding⟩ | ⟨none,default⟩
  · refine Or.inl ⟨{ m.scope with path := m.path },⟨memCleaned deciding.member,coversSegments.mp deciding.around,
      by simp [deciding.sets],fun r hr around sets different => ?_⟩,deciding.sets⟩
    obtain ⟨n,hn,path,same⟩ := cleanedRule hr
    have other : n ≠ m := fun eq => different (by rw [← same,eq])
    have inner := deciding.innermost n hn (path ▸ coversSegments.mpr around) (same.symm ▸ sets) other
    have within := coversSegments.mp inner.1
    rw [← path]
    refine lt_of_le_of_ne within.length_le (fun eq => ?_)
    have paths : n.path = m.path := segmentsInjective (within.eq_of_length eq)
    have shorter := inner.2
    rw [paths] at shorter
    exact Nat.lt_irrefl _ shorter
  · refine Or.inr ⟨fun s hs around => ?_,default⟩
    obtain ⟨m,hm,path,same⟩ := cleanedRule hs
    rw [← same]
    exact none m hm (path ▸ coversSegments.mpr around)

theorem scopeInForce : (k.bindingAt target).scope =
    inForce Covers byteLen Match.path (fun m => some m.path) [] k.rules target := by
  rw [bindingScope,inForce,lastSet]
  simp [Kube.applicable]

theorem guardedAround : (k.bindingAt target).guarded = true ↔
    k.guarded = true ∨ ∃ s ∈ cleaned k, s.guarded = true ∧ segments s.path <+: segments target := by
  rw [guardedAt]
  refine or_congr_right ?_
  simp [cleaned,coversSegments]

end Fields

structure DeepestWins (k : Kube) (rel : Str) : Prop where
  context : Decided (cleaned k) (cleanScope rel) (fun s => nonempty s.context) k.context (k.resolve rel).context
  ns : Decided (cleaned k) (cleanScope rel) (fun s => nonempty s.ns) k.ns (k.resolve rel).ns
  guarded : (k.resolve rel).guarded = true ↔
    k.guarded = true ∨ ∃ s ∈ cleaned k, s.guarded = true ∧ segments s.path <+: segments (cleanScope rel)
  lifted : ∀ more, (k.resolve rel).guarded = true →
    (Kube.resolve { k with scopes := k.scopes ++ more } rel).guarded = true
  scope : Decided (cleaned k) (cleanScope rel) (fun s => some s.path) [] (k.resolve rel).scope
  spelled : ∀ (j : Kube) (other : Str), j.context = k.context → j.ns = k.ns → j.guarded = k.guarded →
    (cleaned j).Perm (cleaned k) → cleanScope other = cleanScope rel → j.resolve other = k.resolve rel

theorem resolveFields {k : Kube} (rel : Str) (distinct : (k.scopes.map (fun s => cleanScope s.path)).Nodup) :
    Decided (cleaned k) (cleanScope rel) (fun s => nonempty s.context) k.context (k.resolve rel).context ∧
    Decided (cleaned k) (cleanScope rel) (fun s => nonempty s.ns) k.ns (k.resolve rel).ns ∧
    Decided (cleaned k) (cleanScope rel) (fun s => some s.path) [] (k.resolve rel).scope := by
  rw [Kube.resolve,bindingContext,bindingNs,scopeInForce]
  exact ⟨inForceDeepest _ _ distinct,inForceDeepest _ _ distinct,inForceDeepest _ _ distinct⟩

theorem cleanedDistinct {j k : Kube} (perm : (cleaned j).Perm (cleaned k))
    (distinct : (k.scopes.map (fun s => cleanScope s.path)).Nodup) :
    (j.scopes.map (fun s => cleanScope s.path)).Nodup := by
  have paths := (perm.map Scope.path).symm.nodup
  simpa [cleaned,Function.comp_def] using paths (by simpa [cleaned,Function.comp_def] using distinct)

theorem resolveDeepest (k : Kube) (rel : Str) (distinct : (k.scopes.map (fun s => cleanScope s.path)).Nodup) :
    DeepestWins k rel := by
  obtain ⟨context,ns,scope⟩ := resolveFields rel distinct
  refine ⟨context,ns,guardedAround,?_,scope,?_⟩
  · intro more guarded
    rw [Kube.resolve,guardedAround] at guarded ⊢
    refine guarded.imp_right (fun ⟨s,member,rest⟩ => ⟨s,?_,rest⟩)
    simp only [cleaned,List.map_append]
    exact List.mem_append_left _ member
  · intro j other sameContext sameNs sameGuarded perm spelled
    obtain ⟨jContext,jNs,jScope⟩ := resolveFields other (cleanedDistinct perm distinct)
    rw [spelled,sameContext] at jContext
    rw [spelled,sameNs] at jNs
    rw [spelled] at jScope
    have guarded : (j.resolve other).guarded = (k.resolve rel).guarded := by
      rw [Bool.eq_iff_iff,Kube.resolve,Kube.resolve,guardedAround,guardedAround,sameGuarded,spelled]
      refine or_congr_right (exists_congr (fun s => and_congr_left (fun _ => perm.mem_iff)))
    have first := decidedUnique (decidedPerm perm jContext) context
    have second := decidedUnique (decidedPerm perm jNs) ns
    have third := decidedUnique (decidedPerm perm jScope) scope
    cases hj : j.resolve other
    cases hk : k.resolve rel
    simp_all

def layered : Kube := ⟨"dev-east".toList,"default".toList,false,
  [⟨"prod/api".toList,[],"api".toList,false⟩,⟨"prod".toList,"prod-us-west".toList,[],true⟩]⟩

theorem resolveLayered : DeepestWins layered "./prod/api/".toList :=
  resolveDeepest layered _ (by decide)

def Outside (p : Str) : Prop := p = dotdot ∨ dotdot ++ slash <+: p
instance (p) : Decidable (Outside p) := by unfold Outside; infer_instance

def atRoot (k : Kube) : List Scope := k.scopes.filter (fun s => cleanScope s.path = [])

/-- What a scope of the root sets comes to the defaults themselves. -/
def RootSilent (k : Kube) : Prop :=
  (lastSet (fun s => nonempty s.context) (atRoot k)).getD k.context = k.context ∧
    (lastSet (fun s => nonempty s.ns) (atRoot k)).getD k.ns = k.ns ∧
      ((atRoot k).any Scope.guarded = true → k.guarded = true)
instance (k) : Decidable (RootSilent k) := by unfold RootSilent; infer_instance

def NoneOutside (k : Kube) (target : Str) : Prop :=
  ∀ s ∈ k.scopes, Outside (cleanScope s.path) → ¬ Covers (cleanScope s.path) target
instance (k target) : Decidable (NoneOutside k target) := by unfold NoneOutside; infer_instance

def defaults (k : Kube) : Binding := ⟨k.context,k.ns,k.guarded,[]⟩

theorem outsideCovers {p : Str} : Outside p ↔ Covers dotdot p := by
  simp [Outside,Covers,dotdot]

theorem coversOutside {p target : Str} (outside : Outside target) (around : Covers p target) :
    p = [] ∨ Outside p := by
  have climbs := outsideCovers.mp outside
  rcases Nat.le_total (byteLen p) (byteLen dotdot) with short | long
  · rcases coversChain around climbs short with root | same | inside
    · exact Or.inl root
    · exact Or.inr (Or.inl same.symm)
    · have : '/' ∈ dotdot := inside.subset (List.mem_append_right p (by decide))
      exact absurd this (by decide)
  · exact Or.inr (outsideCovers.mpr (coversChain climbs around long))

theorem rootNotOutside {p : Str} (outside : Outside p) : p ≠ [] := by
  rintro rfl
  revert outside
  decide

section Root
variable {k : Kube} {target : Str}

theorem rootLayers (roots : ∀ s ∈ k.scopes, Covers (cleanScope s.path) target → cleanScope s.path = []) :
    k.applicable target = (atRoot k).map (fun s => ⟨[],s⟩) := by
  have kept : k.rules.filter (fun m => Covers m.path target) = (atRoot k).map (fun s => ⟨[],s⟩) := by
    have same : k.scopes.filter (fun s => Covers (cleanScope s.path) target) = atRoot k := by
      refine List.filter_congr (fun s member => ?_)
      refine decide_eq_decide.mpr ⟨roots s member,fun root => ?_⟩
      exact root.symm ▸ coversRoot target
    rw [Kube.rules,List.filter_map]
    refine (List.map_congr_left (fun s member => ?_)).trans (congrArg _ same)
    have root : cleanScope s.path = [] := by
      have inside := List.mem_filter.mp member
      exact roots s inside.1 (of_decide_eq_true inside.2)
    simp [root]
  rw [Kube.applicable,layersAt,kept]
  refine List.Pairwise.insertionSort_eq ?_
  rw [List.pairwise_map]
  exact List.Pairwise.imp (fun _ => Nat.le_refl _) (List.pairwise_of_forall (fun _ _ => trivial))

theorem rootBinding (roots : ∀ s ∈ k.scopes, Covers (cleanScope s.path) target → cleanScope s.path = []) :
    k.bindingAt target = defaults k ↔ RootSilent k := by
  have context : lastSet setsContext ((atRoot k).map (fun s => (⟨[],s⟩ : Match))) =
      lastSet (fun s => nonempty s.context) (atRoot k) := by
    simp [lastSet,List.filterMap_map,Function.comp_def,setsContext]
  have ns : lastSet setsNs ((atRoot k).map (fun s => (⟨[],s⟩ : Match))) =
      lastSet (fun s => nonempty s.ns) (atRoot k) := by
    simp [lastSet,List.filterMap_map,Function.comp_def,setsNs]
  have guarded : ((atRoot k).map (fun s => (⟨[],s⟩ : Match))).any (fun m => m.scope.guarded) =
      (atRoot k).any Scope.guarded := by
    rw [List.any_map]
    rfl
  have scope : ((((atRoot k).map (fun s => (⟨[],s⟩ : Match))).getLast?).map Match.path).getD [] = [] := by
    rw [List.getLast?_map,Option.map_map]
    cases (atRoot k).getLast? <;> rfl
  rw [Kube.bindingAt,rootLayers roots,overlayFold,context,ns,guarded,scope,defaults,RootSilent]
  simp only [Binding.mk.injEq,and_true]
  cases k.guarded <;> simp

end Root

theorem outsideDefaults (k : Kube) (rel : Str) (outside : Outside (cleanScope rel)) :
    k.resolve rel = defaults k ↔ NoneOutside k (cleanScope rel) ∧ RootSilent k := by
  constructor
  · intro same
    have deepest : (k.bindingAt (cleanScope rel)).scope = [] := congrArg Binding.scope same
    have roots : ∀ s ∈ k.scopes, Covers (cleanScope s.path) (cleanScope rel) → cleanScope s.path = [] := by
      intro s member around
      have rule : (⟨cleanScope s.path,s⟩ : Match) ∈ k.rules := memRules.mpr ⟨s,member,rfl⟩
      have inside := memApplicable.mpr ⟨rule,around⟩
      obtain ⟨a,last⟩ := Option.ne_none_iff_exists'.mp (fun h => List.ne_nil_of_mem inside (List.getLast?_eq_none_iff.mp h))
      have root : a.path = [] := by simpa [bindingScope,last] using deepest
      have covered := (layersDetermined coversNested last rule).mp around
      rw [root] at covered
      exact List.prefix_nil.mp (coversPrefix covered)
    refine ⟨fun s member leaves around => rootNotOutside leaves (roots s member around),?_⟩
    exact (rootBinding roots).mp same
  · rintro ⟨none,silent⟩
    refine (rootBinding (fun s member around => ?_)).mpr silent
    rcases coversOutside outside around with root | leaves
    · exact root
    · exact absurd around (none s member leaves)

def rooted : Kube := ⟨"dev-east".toList,"default".toList,false,[⟨".".toList,"prod-us-west".toList,[],true⟩]⟩

theorem outsideScoped :
    Outside (cleanScope "..".toList) ∧ rooted.resolve "..".toList ≠ defaults rooted ∧
      ∃ stored, validateScopes climbing = .ok stored ∧ stored.resolve "..".toList ≠ defaults stored :=
  ⟨by decide,by decide,climbing.normal,by decide,by decide⟩

theorem outsideLayered : layered.resolve "../prod".toList = defaults layered ↔
    NoneOutside layered (cleanScope "../prod".toList) ∧ RootSilent layered :=
  outsideDefaults layered _ (by decide)

end M6t.Resolution
