import M6t.ScopeWrites

/-! The paths a write stores. A scope is refused by the path it was typed as and
stored by the path that cleans to, so white space a cleaned path begins or ends
with is stored as it is and read as if it were not there. -/
namespace M6t.StoredScopes
open M6t.Text M6t.SlashPath M6t.KubeBinding M6t.ScopeWrites

structure Settled (stored : Kube) : Prop where
  nonempty : ∀ s ∈ stored.scopes, s.path ≠ []
  fixed : ∀ s ∈ stored.scopes, cleanScope s.path = s.path
  inside : ∀ s ∈ stored.scopes, s.Inside
  distinct : (stored.scopes.map (fun s => cleanScope s.path)).Nodup
  again : validateScopes stored = .ok stored

def Unpadded (p : Str) : Prop := trimSpace (clean (trimmedPath p)) = clean (trimmedPath p)
instance (p) : Decidable (Unpadded p) := by unfold Unpadded; infer_instance

theorem cleanScopeShorter (p : Str) : (cleanScope p).length ≤ (trimmedPath p).length := by
  unfold cleanScope
  dsimp only
  split
  · simp
  · rename_i nonempty
    split
    · simp
    · exact (trimPrefixLength _ _).trans (cleanShorter nonempty)

theorem noBackslash (p : Str) : '\\' ∉ trimmedPath p := by
  intro member
  have inside := (trimSpaceSublist _).subset member
  obtain ⟨c,_,same⟩ := List.mem_map.mp inside
  split at same
  · contradiction
  · contradiction

theorem replaceSelf {p : Str} (absent : '\\' ∉ p) : replaceChar '\\' '/' p = p := by
  refine (List.map_congr_left (fun c member => ?_)).trans (List.map_id p)
  exact if_neg (fun (same : c = '\\') => absent (same ▸ member))

section Accepted
variable {s : Scope}

theorem insideRelative (inside : s.Inside) : (trimmedPath s.path).head? ≠ some '/' := by
  intro rooted
  obtain ⟨rest,eq⟩ := List.head?_eq_some_iff.mp rooted
  exact inside.1 ⟨rest,eq ▸ rfl⟩

theorem insideCleaned (inside : s.Inside) : cleanScope s.path = clean (trimmedPath s.path) := by
  have cleaned := cleanRelative (insideRelative inside)
  have some := inside.2.2
  unfold cleanScope at some ⊢
  dsimp only at some ⊢
  split at some
  · contradiction
  · rename_i nonempty
    rw [if_neg nonempty]
    split at some
    · contradiction
    · rename_i other
      rw [if_neg other]
      exact trimPrefixSelf cleaned

theorem trimmedCleaned : trimmedPath (clean (trimmedPath s.path)) = trimSpace (clean (trimmedPath s.path)) := by
  refine congrArg trimSpace (replaceSelf (fun member => ?_))
  rcases cleanChar member with h | h | h
  · exact absurd h (by decide)
  · exact absurd h (by decide)
  · exact noBackslash s.path h

theorem normalCleaned (inside : s.Inside) : s.normal.path = clean (trimmedPath s.path) :=
  (cleanScopeTrimmed s.path).trans (insideCleaned inside)

theorem unpaddedFixed (inside : s.Inside) (unpadded : Unpadded s.path) : cleanScope s.normal.path = s.normal.path := by
  have again := cleanIdem (insideRelative inside)
  have path := normalCleaned inside
  have cleaned := insideCleaned inside
  have trimmed : trimmedPath s.normal.path = clean (trimmedPath s.path) := by rw [path,trimmedCleaned,unpadded]
  have start : trimmedPath s.path ≠ [] := fun none => inside.2.2 (by simp [cleanScope,none])
  have some : clean (trimmedPath s.path) ≠ [] := cleaned ▸ inside.2.2
  have same : cleanScope s.normal.path = cleanScope s.path := by
    simp only [cleanScope,trimmed,again,start,some,if_false]
  rw [same,cleaned,path]

theorem unpaddedInside (inside : s.Inside) (unpadded : Unpadded s.path) : s.normal.Inside := by
  have again := cleanIdem (insideRelative inside)
  have trimmed : trimmedPath s.normal.path = clean (trimmedPath s.path) := by
    rw [normalCleaned inside,trimmedCleaned,unpadded]
  refine ⟨?_,?_,?_⟩
  · rw [trimmed]
    rintro ⟨rest,eq⟩
    exact cleanRelative (insideRelative inside) (by rw [← eq]; rfl)
  · rw [trimmed,Escapes,again]
    exact inside.2.1
  · rw [unpaddedFixed inside unpadded,normalCleaned inside,← insideCleaned inside]
    exact inside.2.2

theorem fixedUnpadded (inside : s.Inside) (fixed : cleanScope s.normal.path = s.normal.path) : Unpadded s.path := by
  have path := normalCleaned inside
  have shorter := cleanScopeShorter s.normal.path
  rw [fixed,path,trimmedCleaned] at shorter
  exact (trimSpaceSublist _).eq_of_length_le shorter

end Accepted

theorem storedSettled {k stored : Kube} (ok : validateScopes k = .ok stored) :
    Settled stored ↔ ∀ s ∈ k.scopes, Unpadded s.path := by
  obtain ⟨rfl,inside,distinct⟩ := validateExact.mp ok
  constructor
  · intro settled s member
    have kept : s.normal ∈ k.normal.scopes := List.mem_map_of_mem member
    exact fixedUnpadded (inside s member) (settled.fixed s.normal kept)
  · intro unpadded
    have fixed : ∀ n ∈ k.normal.scopes, cleanScope n.path = n.path := by
      intro n member
      obtain ⟨s,hs,rfl⟩ := List.mem_map.mp member
      exact unpaddedFixed (inside s hs) (unpadded s hs)
    have places : ∀ n ∈ k.normal.scopes, n.Inside := by
      intro n member
      obtain ⟨s,hs,rfl⟩ := List.mem_map.mp member
      exact unpaddedInside (inside s hs) (unpadded s hs)
    have apart : (k.normal.scopes.map (fun s => cleanScope s.path)).Nodup := by
      have paths : k.normal.scopes.map (fun s => cleanScope s.path) = k.scopes.map (fun s => cleanScope s.path) := by
        rw [Kube.normal,List.map_map]
        refine List.map_congr_left (fun s hs => ?_)
        have kept : s.normal.path = cleanScope s.path := (normalCleaned (inside s hs)).trans (insideCleaned (inside s hs)).symm
        rw [Function.comp_apply,unpaddedFixed (inside s hs) (unpadded s hs),kept]
      rw [paths]
      exact distinct
    have trimmed : ∀ n ∈ k.normal.scopes, trimSpace n.context = n.context ∧ trimSpace n.ns = n.ns := by
      intro n member
      obtain ⟨s,_,rfl⟩ := List.mem_map.mp member
      exact ⟨trimSpaceIdem s.context,trimSpaceIdem s.ns⟩
    refine ⟨fun n member => ?_,fixed,places,apart,?_⟩
    · rw [← fixed n member]
      exact (places n member).2.2
    · exact validateExact.mpr ⟨(normalSelf fixed trimmed).symm,places,apart⟩

def plain : Kube := ⟨"dev-east".toList,"default".toList,false,[⟨" ./prod\\api/ ".toList,"prod-us-west".toList,[],true⟩]⟩

theorem spacedStored : ∃ stored, validateScopes climbing = .ok stored ∧ ¬ Settled stored :=
  ⟨climbing.normal,by decide +kernel,fun settled => absurd settled.again (by decide +kernel)⟩

theorem plainSettled : Settled plain.normal ↔ ∀ s ∈ plain.scopes, Unpadded s.path :=
  storedSettled (show validateScopes plain = .ok plain.normal by decide +kernel)

end M6t.StoredScopes
