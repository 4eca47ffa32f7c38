import M6t.SlashPath
import M6t.Layering
import M6t.Fault

/-! A project's cluster binding: the default, the scopes that override it for a
subtree, and the resolution of a repository-relative path against both. -/
namespace M6t.KubeBinding
open M6t.Text M6t.SlashPath M6t.Layering M6t.Fault

/-- Overrides part of a binding for one subtree; an empty field inherits.
`ns` is the source's `Namespace` and `guarded` its `Protected`. -/
structure Scope where
  path : Str
  context : Str
  ns : Str
  guarded : Bool
  deriving DecidableEq, Repr

structure Kube where
  context : Str
  ns : Str
  guarded : Bool
  scopes : List Scope
  deriving DecidableEq, Repr

structure Binding where
  context : Str
  ns : Str
  guarded : Bool
  scope : Str
  deriving DecidableEq, Repr

def Scope.overridesNothing (s : Scope) : Bool :=
  trimSpace s.context = [] && trimSpace s.ns = [] && !s.guarded

def Binding.bound (b : Binding) : Bool := b.context ≠ [] && b.ns ≠ []

def trimmedPath (p : Str) : Str := trimSpace (replaceChar '\\' '/' p)

def cleanScope (p : Str) : Str :=
  let trimmed := trimmedPath p
  if trimmed = [] then []
  else
    let cleaned := clean trimmed
    if cleaned = dot ∨ cleaned = slash then []
    else trimPrefix cleaned slash

def Covers (scope target : Str) : Prop := scope = [] ∨ target = scope ∨ scope ++ slash <+: target
instance : DecidableRel Covers := fun scope target => by unfold Covers; infer_instance

structure Match where
  path : Str
  scope : Scope
  deriving DecidableEq, Repr

def Kube.rules (k : Kube) : List Match := k.scopes.map (fun s => ⟨cleanScope s.path,s⟩)

/-- The scopes around a cleaned path, shallowest first, by file order where two
clean to one path. -/
def Kube.applicable (k : Kube) (target : Str) : List Match :=
  layersAt Covers byteLen Match.path k.rules target

def Binding.overlay (resolved : Binding) (applies : Match) : Binding where
  context := if applies.scope.context ≠ [] then applies.scope.context else resolved.context
  ns := if applies.scope.ns ≠ [] then applies.scope.ns else resolved.ns
  guarded := resolved.guarded || applies.scope.guarded
  scope := applies.path

def Kube.bindingAt (k : Kube) (target : Str) : Binding :=
  (k.applicable target).foldl Binding.overlay ⟨k.context,k.ns,k.guarded,[]⟩

def Kube.resolve (k : Kube) (rel : Str) : Binding := k.bindingAt (cleanScope rel)

def Escapes (p : Str) : Prop := clean p = dotdot ∨ dotdot ++ slash <+: clean p
instance (p) : Decidable (Escapes p) := by unfold Escapes; infer_instance

def Scope.normal (s : Scope) : Scope :=
  { s with path := cleanScope (trimmedPath s.path), context := trimSpace s.context, ns := trimSpace s.ns }

def validateLoop (seen : List Str) : List Scope → Answer (List Scope)
  | [] => .ok []
  | s :: rest =>
      let trimmed := trimmedPath s.path
      if slash <+: trimmed ∨ Escapes trimmed then
        .error (errorf [.text "scope ",.quoted s.path] .errInvalidScope)
      else
        let cleaned := cleanScope trimmed
        if cleaned = [] then .error (errorf [.text "scope ",.quoted s.path] .errInvalidScope)
        else if cleaned ∈ seen then
          .error (errorf [.text "scope ",.quoted cleaned,.text " is set twice"] .errInvalidScope)
        else do
          let scopes ← validateLoop (cleaned :: seen) rest
          .ok (s.normal :: scopes)

def validateScopes (k : Kube) : Answer Kube := do
  let scopes ← validateLoop [] k.scopes
  .ok { k with scopes := scopes }

theorem slashSpace (c : Char) : isSpace (if c = '\\' then '/' else c) = isSpace c := by
  split
  · subst_vars; decide
  · rfl

theorem trimmedPathIdem (p : Str) : trimmedPath (trimmedPath p) = trimmedPath p := by
  have swap := trimSpaceMap (f := fun c => if c = '\\' then '/' else c) slashSpace
  have inner : replaceChar '\\' '/' (trimSpace (replaceChar '\\' '/' p)) =
      trimSpace (replaceChar '\\' '/' p) := by
    conv_rhs => rw [← replaceCharIdem p]
    exact (swap _).symm
  show trimSpace (replaceChar '\\' '/' (trimSpace (replaceChar '\\' '/' p))) = _
  rw [inner,trimSpaceIdem]
  rfl

@[simp] theorem cleanScopeTrimmed (p : Str) : cleanScope (trimmedPath p) = cleanScope p := by
  simp only [cleanScope,trimmedPathIdem]

theorem coversRoot (target : Str) : Covers [] target := Or.inl rfl

theorem coversPrefix {scope target : Str} (h : Covers scope target) : scope <+: target := by
  rcases h with h | h | h
  · exact h ▸ List.nil_prefix
  · exact h ▸ List.prefix_rfl
  · exact (List.prefix_append scope slash).trans h

theorem coversTrans {a b c : Str} (ab : Covers a b) (bc : Covers b c) : Covers a c := by
  rcases ab with ab | ab | ab
  · exact Or.inl ab
  · exact ab ▸ bc
  · rcases bc with bc | bc | bc
    · subst bc
      have := List.prefix_nil.mp ab
      simp [slash] at this
    · exact Or.inr (Or.inr (bc ▸ ab))
    · exact Or.inr (Or.inr (ab.trans ((List.prefix_append b slash).trans bc)))

theorem coversChain {a b c : Str} (ac : Covers a c) (bc : Covers b c) (len : byteLen a ≤ byteLen b) :
    Covers a b := by
  have nested := prefixesNested (coversPrefix ac) (coversPrefix bc) len
  rcases ac with ac | ac | ac
  · exact Or.inl ac
  · subst ac
    exact Or.inr (Or.inl (prefixOfByteLen (coversPrefix bc) (byteLenPrefix nested)))
  · rcases bc with bc | bc | bc
    · subst bc; exact Or.inl (List.prefix_nil.mp nested)
    · exact Or.inr (Or.inr (bc ▸ ac))
    · have ends : byteLen (a ++ slash) ≤ byteLen (b ++ slash) := by simp only [byteLenAppend]; omega
      rcases List.prefix_concat_iff.mp (prefixesNested ac bc ends) with same | inside
      · exact Or.inr (Or.inl (List.append_cancel_right same).symm)
      · exact Or.inr (Or.inr inside)

theorem coversNested : Nested Covers byteLen := ⟨coversTrans,coversChain⟩

def nonempty (s : Str) : Option Str := if s = [] then none else some s

def setsContext (m : Match) : Option Str := nonempty m.scope.context
def setsNs (m : Match) : Option Str := nonempty m.scope.ns

theorem nonemptyOverlay (new old : Str) : (if new ≠ [] then new else old) = (nonempty new).getD old := by
  by_cases h : new = [] <;> simp [nonempty,h]

theorem overlayFold (layers : List Match) (b : Binding) :
    layers.foldl Binding.overlay b =
      ⟨(lastSet setsContext layers).getD b.context,(lastSet setsNs layers).getD b.ns,
        b.guarded || layers.any (fun m => m.scope.guarded),(layers.getLast?.map Match.path).getD b.scope⟩ := by
  induction layers using List.reverseRecOn with
  | nil => simp
  | append_singleton layers m ih =>
    rw [List.foldl_append,List.foldl_cons,List.foldl_nil,ih]
    simp only [Binding.overlay,nonemptyOverlay,lastSetConcat,Option.getD_or,List.any_append,
      List.getLast?_concat]
    simp [setsContext,setsNs,Bool.or_assoc]

variable (k : Kube) (p q : Str)

theorem bindingContext :
    (k.bindingAt p).context = inForce Covers byteLen Match.path setsContext k.context k.rules p := by
  rw [Kube.bindingAt,overlayFold]; rfl

theorem bindingNs : (k.bindingAt p).ns = inForce Covers byteLen Match.path setsNs k.ns k.rules p := by
  rw [Kube.bindingAt,overlayFold]; rfl

theorem bindingGuarded :
    (k.bindingAt p).guarded = (k.guarded || (k.applicable p).any (fun m => m.scope.guarded)) := by
  rw [Kube.bindingAt,overlayFold]

theorem bindingScope :
    (k.bindingAt p).scope = ((k.applicable p).getLast?.map Match.path).getD [] := by
  rw [Kube.bindingAt,overlayFold]

theorem bindingCongr {j k : Kube} {p q : Str} (defaults : j.context = k.context ∧ j.ns = k.ns ∧ j.guarded = k.guarded)
    (layers : j.applicable p = k.applicable q) : j.bindingAt p = k.bindingAt q := by
  simp only [Kube.bindingAt,layers,defaults]

theorem memApplicable {k : Kube} {p : Str} {m : Match} :
    m ∈ k.applicable p ↔ m ∈ k.rules ∧ Covers m.path p := memLayers

theorem memRules {k : Kube} {m : Match} :
    m ∈ k.rules ↔ ∃ s ∈ k.scopes, m = ⟨cleanScope s.path,s⟩ := by
  simp [Kube.rules,eq_comm]

theorem bindingSame (k : Kube) (p q : Str) :
    k.bindingAt p = k.bindingAt q ↔
      ∀ s ∈ k.scopes, Covers (cleanScope s.path) p ↔ Covers (cleanScope s.path) q := by
  constructor
  · intro same s hs
    have deepest := congrArg Binding.scope same
    rw [bindingScope,bindingScope] at deepest
    have rule : (⟨cleanScope s.path,s⟩ : Match) ∈ k.rules := memRules.mpr ⟨s,hs,rfl⟩
    cases hp : (k.applicable p).getLast? with
    | none =>
      have empty := List.getLast?_eq_none_iff.mp hp
      have away : ∀ m ∈ k.rules, ¬ Covers m.path p := fun m hm around => by
        have := memApplicable.mpr ⟨hm,around⟩
        simp [empty] at this
      cases hq : (k.applicable q).getLast? with
      | none =>
        have empty' := List.getLast?_eq_none_iff.mp hq
        refine ⟨fun around => absurd around (away _ rule),fun around => ?_⟩
        have := memApplicable.mpr ⟨rule,around⟩
        simp [empty'] at this
      | some b =>
        have root : b.path = [] := by simpa [hp,hq] using deepest.symm
        have member := (memApplicable.mp (List.mem_of_getLast? hq)).1
        exact absurd (root ▸ coversRoot p) (away b member)
    | some a =>
      cases hq : (k.applicable q).getLast? with
      | none =>
        have root : a.path = [] := by simpa [hp,hq] using deepest
        have member := (memApplicable.mp (List.mem_of_getLast? hp)).1
        have inside := memApplicable.mpr ⟨member,show Covers a.path q from root ▸ coversRoot q⟩
        have empty' := List.getLast?_eq_none_iff.mp hq
        simp [empty'] at inside
      | some b =>
        have paths : a.path = b.path := by simpa [hp,hq] using deepest
        have left := layersDetermined coversNested hp rule
        have right := layersDetermined coversNested hq rule
        exact left.trans (paths ▸ right.symm)
  · intro same
    refine bindingCongr ⟨rfl,rfl,rfl⟩ ?_
    refine congrArg (sortBySize _) (List.filter_congr (fun m hm => ?_))
    obtain ⟨s,hs,rfl⟩ := memRules.mp hm
    simpa using same s hs

/-- The scopes around one of two paths and not around the other, laid over the
scopes around both, leave one context and one namespace. -/
def Kube.Alike (k : Kube) (p q : Str) : Prop :=
  Layering.Alike Covers byteLen Match.path setsContext k.context k.rules p q ∧
    Layering.Alike Covers byteLen Match.path setsNs k.ns k.rules p q

def Binding.SameTarget (a b : Binding) : Prop := a.context = b.context ∧ a.ns = b.ns
instance (a b : Binding) : Decidable (a.SameTarget b) := by unfold Binding.SameTarget; infer_instance

theorem sameTarget : (k.bindingAt p).SameTarget (k.bindingAt q) ↔ k.Alike p q := by
  rw [Binding.SameTarget,bindingContext,bindingContext,bindingNs,bindingNs,
    inForceAlike setsContext k.context coversNested,inForceAlike setsNs k.ns coversNested]
  rfl

theorem guardedAt : (k.bindingAt p).guarded = true ↔
    k.guarded = true ∨ ∃ s ∈ k.scopes, s.guarded = true ∧ Covers (cleanScope s.path) p := by
  rw [bindingGuarded,Bool.or_eq_true,List.any_eq_true]
  refine or_congr_right ?_
  constructor
  · rintro ⟨m,member,guarded⟩
    obtain ⟨rule,around⟩ := memApplicable.mp member
    obtain ⟨s,hs,rfl⟩ := memRules.mp rule
    exact ⟨s,hs,guarded,around⟩
  · rintro ⟨s,hs,guarded,around⟩
    exact ⟨⟨cleanScope s.path,s⟩,memApplicable.mpr ⟨memRules.mpr ⟨s,hs,rfl⟩,around⟩,guarded⟩

def Scope.Inside (s : Scope) : Prop :=
  ¬ slash <+: trimmedPath s.path ∧ ¬ Escapes (trimmedPath s.path) ∧ cleanScope s.path ≠ []

theorem validateLoopExact {seen : List Str} {scopes out : List Scope} :
    validateLoop seen scopes = .ok out ↔
      out = scopes.map Scope.normal ∧ (∀ s ∈ scopes, s.Inside) ∧
        (scopes.map (fun s => cleanScope s.path)).Nodup ∧ ∀ s ∈ scopes, cleanScope s.path ∉ seen := by
  induction scopes generalizing seen out with
  | nil => simp [validateLoop,eq_comm]
  | cons s rest ih =>
    simp only [validateLoop,cleanScopeTrimmed]
    by_cases outside : slash <+: trimmedPath s.path ∨ Escapes (trimmedPath s.path)
    · simp only [if_pos outside,reduceCtorEq,false_iff]
      intro ⟨_,inside,_⟩
      have := inside s List.mem_cons_self
      exact outside.elim this.1 this.2.1
    · rw [if_neg outside]
      by_cases root : cleanScope s.path = []
      · simp only [if_pos root,reduceCtorEq,false_iff]
        intro ⟨_,inside,_⟩
        exact (inside s List.mem_cons_self).2.2 root
      · rw [if_neg root]
        by_cases twice : cleanScope s.path ∈ seen
        · simp only [if_pos twice,reduceCtorEq,false_iff]
          intro ⟨_,_,_,fresh⟩
          exact fresh s List.mem_cons_self twice
        · rw [if_neg twice,bindOk]
          simp only [ih,Except.ok.injEq]
          have inside : s.Inside := ⟨fun h => outside (Or.inl h),fun h => outside (Or.inr h),root⟩
          constructor
          · rintro ⟨tail,⟨rfl,insides,distinct,fresh⟩,rfl⟩
            refine ⟨rfl,?_,?_,?_⟩
            · exact List.forall_mem_cons.mpr ⟨inside,insides⟩
            · refine List.nodup_cons.mpr ⟨fun member => ?_,distinct⟩
              obtain ⟨r,hr,same⟩ := List.mem_map.mp member
              exact fresh r hr (same ▸ List.mem_cons_self)
            · refine List.forall_mem_cons.mpr ⟨twice,fun r hr member => ?_⟩
              exact fresh r hr (List.mem_cons_of_mem _ member)
          · rintro ⟨rfl,insides,distinct,fresh⟩
            obtain ⟨first,distinct⟩ := List.nodup_cons.mp distinct
            refine ⟨_,⟨rfl,(List.forall_mem_cons.mp insides).2,distinct,fun r hr member => ?_⟩,rfl⟩
            rcases List.mem_cons.mp member with same | old
            · exact first (List.mem_map.mpr ⟨r,hr,same⟩)
            · exact fresh r (List.mem_cons_of_mem _ hr) old

def Kube.normal (k : Kube) : Kube := { k with scopes := k.scopes.map Scope.normal }

theorem validateExact {k out : Kube} :
    validateScopes k = .ok out ↔
      out = k.normal ∧ (∀ s ∈ k.scopes, s.Inside) ∧ (k.scopes.map (fun s => cleanScope s.path)).Nodup := by
  simp only [validateScopes,bindOk,validateLoopExact,Except.ok.injEq,Kube.normal]
  constructor
  · rintro ⟨_,⟨rfl,inside,distinct,_⟩,rfl⟩
    exact ⟨rfl,inside,distinct⟩
  · rintro ⟨rfl,inside,distinct⟩
    exact ⟨_,⟨rfl,inside,distinct,fun _ _ => List.not_mem_nil⟩,rfl⟩

example : cleanScope " ./prod\\api/ ".toList = "prod/api".toList := by decide
example : Covers "prod".toList "prod/api".toList ∧ ¬ Covers "prod".toList "production".toList := by decide

def climbing : Kube := ⟨"dev-east".toList,"default".toList,false,[⟨"./ ..".toList,"prod-us-west".toList,[],true⟩]⟩

end M6t.KubeBinding
