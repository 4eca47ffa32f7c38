import M6t.GitBlameFormat

/-! A blame output with one group header lost: what stands in its place is offered as a header,
and so are the extended headers after it, until one of them is taken for one. -/
namespace M6t.GitBlameDamage
open M6t.Text M6t.GoStrings M6t.GitBlame M6t.GitBlameFormat

structure Lost (raw : Str) : Prop where
  whole : '\n' ∉ raw
  untabbed : raw.head? ≠ some '\t'
  unnamed : ∀ word ∈ (fields raw).head?, ¬ObjectName word
instance (raw) : Decidable (Lost raw) :=
  decidable_of_iff ('\n' ∉ raw ∧ raw.head? ≠ some '\t' ∧ ∀ word ∈ (fields raw).head?, ¬ObjectName word)
    ⟨fun h => ⟨h.1,h.2.1,h.2.2⟩,fun h => ⟨h.whole,h.untabbed,h.unnamed⟩⟩

def startOf (before : List Group) : Nat := 1 + (attributed before).length

def damagedLines (before : List Group) (g : Group) (after : List Group) (raw : Str) : List Str :=
  outputLines 1 before ++ (raw :: g.body (startOf before)) ++ outputLines (startOf before + g.size) after

def damaged (before : List Group) (g : Group) (after : List Group) (raw : Str) : Str := ended (damagedLines before g after raw)

def nameOf (blame : Blame) (k : Nat) : Option Str := (blame.lines[k]?).bind (shaOf blame.commits)

/-- The first line that is taken for a header once the group's own is lost. -/
def taken (g : Group) (raw : Str) : Option (Str × Nat) := (raw :: g.stated.map Extended.text).findSome? headerOf

def OthersKept (before : List Group) (g : Group) (after : List Group) (raw : Str) : Prop :=
  ∀ k, k < (attributed (before ++ g :: after)).length → ¬(startOf before ≤ k + 1 ∧ k + 1 < startOf before + g.size) →
    nameOf (parseBlame (damaged before g after raw)) k = nameOf (parseBlame (encode (before ++ g :: after))) k
instance (before g after raw) : Decidable (OthersKept before g after raw) := by unfold OthersKept; infer_instance

variable {before after : List Group} {g : Group} {raw : Str}

theorem offeredColumn (limit : Nat) (entries : List (Option Str)) {raws : List Str}
    (untabbed : ∀ raw ∈ raws, raw.head? ≠ some '\t') :
    raws.foldl (Column.read limit) ⟨entries,none⟩ = ⟨entries,raws.findSome? headerOf⟩ := by
  induction raws with
  | nil => rfl
  | cons raw raws ih =>
    obtain ⟨first,rest⟩ := List.forall_mem_cons.mp untabbed
    rw [List.foldl_cons,openedColumn first,List.findSome?_cons]
    cases header : headerOf raw with
    | none => exact ih rest
    | some entry => exact quietColumn rfl rest

theorem wordUnnamed {key : Str} (solid : ∀ c ∈ key, Solid c) (nonempty : key ≠ []) (short : key.length < 40) (rest : Str) :
    ∀ word ∈ (fields (key ++ ' ' :: rest)).head?, ¬ObjectName word := by
  rw [fieldsBlank solid nonempty]
  intro word first named
  cases first
  rcases named.1 with len | len <;> omega

theorem keySolid {key : Str} (plain : key.all (fun c => c.isLower || c = '-') = true) : ∀ c ∈ key, Solid c :=
  fun c member => solidBy (p := fun c => c.isLower || c = '-') (by decide) (List.all_eq_true.mp plain c member)

theorem textUnnamed {e : Extended} (wf : e.Wf) : ∀ word ∈ (fields e.text).head?, ¬ObjectName word := by
  cases e with
  | author name => exact wordUnnamed (keySolid (by decide)) (by decide) (by decide) name
  | authorTime seconds => exact wordUnnamed (keySolid (by decide)) (by decide) (by decide) (decimal seconds)
  | summary subject => exact wordUnnamed (keySolid (by decide)) (by decide) (by decide) subject
  | other line => exact wf.2.2.1

theorem headerWord {raw sha : Str} {line : Nat} (header : headerOf raw = some (sha,line)) : (fields raw).head? = some sha := by
  unfold headerOf at header
  simp only at header
  split at header
  · contradiction
  · next long =>
    split at header
    · contradiction
    · split at header
      · contradiction
      · have same := (Prod.mk.inj (Option.some.inj header)).1
        cases words : fields raw with
        | nil => simp [words,blameHeaderFields] at long
        | cons word rest =>
          rw [words] at same
          exact congrArg some same

theorem takenFrom {sha : Str} {q : Nat} (took : taken g raw = some (sha,q)) :
    ∃ line ∈ raw :: g.stated.map Extended.text, headerOf line = some (sha,q) := List.exists_of_findSome?_eq_some took

theorem takenUnnamed (wf : g.Wf) (lost : Lost raw) {sha : Str} {q : Nat} (took : taken g raw = some (sha,q)) :
    ¬ObjectName sha := by
  obtain ⟨line,member,header⟩ := takenFrom took
  rcases List.mem_cons.mp member with rfl | stated
  · exact lost.unnamed sha (headerWord header)
  · obtain ⟨e,there,rfl⟩ := List.mem_map.mp stated
    exact textUnnamed (wf.stated e there) sha (headerWord header)

/-- The column where a group lost its header: the line that was taken in its place, if its number
is one of the output's, has the first line's attribution. -/
def misplaced (limit : Nat) (entries : List (Option Str)) : Option (Str × Nat) → List (Option Str)
  | none => entries
  | some (sha,q) => if q > limit then entries else place none entries q (some sha)

theorem bodyColumn (limit : Nat) (wf : g.Wf) (lost : Lost raw) (entries : List (Option Str)) (final : Nat) (positive : 1 ≤ final)
    (small : final + g.size ≤ 2 ^ 63) (near : final + g.size ≤ limit + 1) :
    (raw :: g.body final).foldl (Column.read limit) ⟨entries,none⟩ =
      ⟨placeAll (misplaced limit entries (taken g raw)) (final + 1) (List.replicate g.contents.length g.sha),none⟩ := by
  unfold Group.size at small near
  have offered := offeredColumn limit entries (List.forall_mem_cons.mpr ⟨lost.untabbed,statedUntabbed wf⟩)
  have closed : Column.read limit ⟨entries,taken g raw⟩ ('\t' :: g.content) = ⟨misplaced limit entries (taken g raw),none⟩ := by
    unfold Column.read Column.close
    rw [if_pos (by rfl)]
    cases taken g raw <;> rfl
  have whole : raw :: g.body final = (raw :: g.stated.map Extended.text) ++
      ('\t' :: g.content) :: restLines g.sha (g.orig + 1) (final + 1) g.contents := by simp [Group.body]
  rw [whole,List.foldl_append,offered,List.foldl_cons]
  rw [show (raw :: g.stated.map Extended.text).findSome? headerOf = taken g raw from rfl,closed]
  exact restColumn wf.named _ (by omega) (by omega) (by omega)

theorem outputAppend (first second : List Group) (final : Nat) :
    outputLines final (first ++ second) = outputLines final first ++ outputLines (final + (attributed first).length) second := by
  induction first generalizing final with
  | nil => rfl
  | cons g first ih =>
    have whole : attributed (g :: first) = List.replicate g.size g.sha ++ attributed first := rfl
    rw [List.cons_append,outputLines,ih,outputLines,List.append_assoc,whole,List.length_append,List.length_replicate,Nat.add_assoc]

theorem attributedAppend (before after : List Group) (g : Group) :
    attributed (before ++ g :: after) = attributed before ++ (List.replicate g.size g.sha ++ attributed after) := by
  simp [attributed]

theorem damagedLength (before after : List Group) (g : Group) (raw : Str) :
    (damagedLines before g after raw).length = (outputLines 1 (before ++ g :: after)).length := by
  rw [outputAppend,outputLines,damagedLines,Group.lines]
  simp [startOf]

theorem damagedWhole (wf : ∀ each ∈ before ++ g :: after, each.Wf) (lost : Lost raw) :
    ∀ line ∈ damagedLines before g after raw, '\n' ∉ line := by
  have own := wf g (List.mem_append_right _ List.mem_cons_self)
  refine List.forall_mem_append.mpr ⟨List.forall_mem_append.mpr ⟨?_,List.forall_mem_cons.mpr ⟨lost.whole,?_⟩⟩,?_⟩
  · exact outputWhole (fun each member => wf each (List.mem_append_left _ member)) _
  · exact (List.forall_mem_cons.mp (linesWhole own (startOf before))).2
  · exact outputWhole (fun each member => wf each (List.mem_append_right _ (List.mem_cons_of_mem _ member))) _

theorem nameOfColumn (out : Str) (k : Nat) :
    nameOf (parseBlame out) k = nameAt ((out.splitOn '\n').foldl Parser.read (parser out)).column.entries k := by
  unfold nameOf nameAt Parser.column
  rw [List.getElem?_map]
  show (((out.splitOn '\n').foldl Parser.read (parser out)).lines[k]?).bind _ = _
  cases ((out.splitOn '\n').foldl Parser.read (parser out)).lines[k]? <;> rfl

theorem encodedName {groups : List Group} (wf : ∀ g ∈ groups, g.Wf) (small : (encode groups).length < 2 ^ 63) (k : Nat) :
    nameOf (parseBlame (encode groups)) k = (attributed groups)[k]? := by
  rw [nameOfColumn,encodedColumn wf small,nameAt,List.getElem?_map]
  cases (attributed groups)[k]? <;> rfl

theorem damagedColumn {limit : Nat} (wf : ∀ each ∈ before ++ g :: after, each.Wf) (lost : Lost raw)
    (few : 1 + (attributed (before ++ g :: after)).length ≤ 2 ^ 63) (near : (attributed (before ++ g :: after)).length ≤ limit) :
    (damagedLines before g after raw).foldl (Column.read limit) ⟨[],none⟩ =
      ⟨placeAll (misplaced limit ((attributed before).map some) (taken g raw)) (startOf before + 1)
        (List.replicate g.contents.length g.sha ++ attributed after),none⟩ := by
  rw [attributedAppend,List.length_append,List.length_append,List.length_replicate] at few near
  have size : g.size = g.contents.length + 1 := rfl
  have start : startOf before = 1 + (attributed before).length := rfl
  have next := placeAllNext [] (attributed before)
  rw [List.length_nil,Nat.zero_add,List.nil_append] at next
  rw [damagedLines,List.foldl_append,List.foldl_append,
    outputColumn limit (fun each member => wf each (List.mem_append_left _ member)) [] 1 (by omega) (by omega) (by omega),next,
    bodyColumn limit (wf g (List.mem_append_right _ List.mem_cons_self)) lost _ _ (by omega) (by omega) (by omega),
    outputColumn limit (fun each member => wf each (List.mem_append_right _ (List.mem_cons_of_mem _ member))) _ _ (by omega)
      (by omega) (by omega),placeAllAppend,List.length_replicate]
  congr 2
  omega

theorem damagedName (wf : ∀ each ∈ before ++ g :: after, each.Wf) (small : (encode (before ++ g :: after)).length < 2 ^ 63)
    (lost : Lost raw) : ∃ limit, startOf before ≤ limit ∧ ∀ k,
      nameOf (parseBlame (damaged before g after raw)) k =
        nameAt (placeAll (misplaced limit ((attributed before).map some) (taken g raw)) (startOf before + 1)
          (List.replicate g.contents.length g.sha ++ attributed after)) k := by
  obtain ⟨few,near⟩ := encodedFits wf small
  have count : (damaged before g after raw).count '\n' = (encode (before ++ g :: after)).count '\n' := by
    rw [damaged,encode,endedLines (damagedWhole wf lost),endedLines (outputWhole wf 1),damagedLength]
  have limit : (attributed (before ++ g :: after)).length ≤ (parser (damaged before g after raw)).limit := by
    simp only [parser]
    omega
  have column := damagedColumn wf lost few limit
  refine ⟨(parser (damaged before g after raw)).limit,?_,fun k => ?_⟩
  · rw [attributedAppend,List.length_append,List.length_append,List.length_replicate] at limit
    have start : startOf before = 1 + (attributed before).length := rfl
    have size : g.size = g.contents.length + 1 := rfl
    omega
  · rw [nameOfColumn,foldColumn (parserSound _)]
    rw [show (damaged before g after raw).splitOn '\n' = damagedLines before g after raw ++ [[]] from
      splitEnded (damagedWhole wf lost),List.foldl_append]
    rw [show (parser (damaged before g after raw)).column = ⟨[],none⟩ from rfl,column,List.foldl_cons,List.foldl_nil,
      emptyRead ⟨_,none⟩ _ rfl]

theorem nameBefore (names : List Str) (k : Nat) : nameAt (names.map some) k = names[k]? := by
  rw [nameAt,List.getElem?_map]
  cases names[k]? <;> rfl

theorem takenPositive {sha : Str} {q : Nat} (took : taken g raw = some (sha,q)) : 1 ≤ q := by
  obtain ⟨line,-,header⟩ := takenFrom took
  exact headerLine header

theorem misplacedName {limit : Nat} {sha : Str} {q : Nat} (took : taken g raw = some (sha,q)) (near : q ≤ limit) (names : List Str)
    (k : Nat) : nameAt (misplaced limit (names.map some) (taken g raw)) k = if k + 1 = q then some sha else names[k]? := by
  rw [took,misplaced,if_neg (Nat.not_lt.mpr near),namePlaced (takenPositive took),nameBefore]

theorem attributedNamed {groups : List Group} (wf : ∀ each ∈ groups, each.Wf) : ∀ sha ∈ attributed groups, ObjectName sha := by
  intro sha member
  obtain ⟨each,there,inside⟩ := List.mem_flatMap.mp member
  rw [List.eq_of_mem_replicate inside]
  exact (wf each there).named

theorem damagedAfter {entries : List (Option Str)} {k : Nat} (inside : k < (attributed (before ++ g :: after)).length)
    (beyond : startOf before + g.size ≤ k + 1) :
    nameAt (placeAll entries (startOf before + 1) (List.replicate g.contents.length g.sha ++ attributed after)) k =
      (attributed (before ++ g :: after))[k]? := by
  have start : startOf before = 1 + (attributed before).length := rfl
  have size : g.size = g.contents.length + 1 := rfl
  rw [attributedAppend,List.length_append,List.length_append,List.length_replicate] at inside
  rw [namePlacedAll _ (by omega),if_neg (by omega),attributedAppend]
  rw [List.getElem?_append_right (by rw [List.length_replicate]; omega),List.length_replicate,
    List.getElem?_append_right (by omega),List.getElem?_append_right (by rw [List.length_replicate]; omega),List.length_replicate,
    show k + 1 - (startOf before + 1) - g.contents.length = k - (attributed before).length - g.size by omega]
  have there : k - (attributed before).length - g.size < (attributed after).length := by omega
  rw [List.getElem?_eq_getElem there]
  rfl

theorem damagedBefore {entries : List (Option Str)} {names : List Str} {k : Nat} (early : k + 1 < startOf before) :
    nameAt (placeAll entries (startOf before + 1) names) k = nameAt entries k := by
  rw [namePlacedAll _ (by omega),if_pos (by omega)]

theorem attributedBefore {k : Nat} (early : k + 1 < startOf before) :
    (attributed (before ++ g :: after))[k]? = (attributed before)[k]? := by
  have start : startOf before = 1 + (attributed before).length := rfl
  rw [attributedAppend,List.getElem?_append_left (by omega)]

theorem lostHeaderKeeps (wf : ∀ each ∈ before ++ g :: after, each.Wf) (small : (encode (before ++ g :: after)).length < 2 ^ 63)
    (lost : Lost raw) : OthersKept before g after raw ↔ ∀ sha q, taken g raw = some (sha,q) → startOf before ≤ q := by
  obtain ⟨limit,long,names⟩ := damagedName wf small lost
  have start : startOf before = 1 + (attributed before).length := rfl
  have own := wf g (List.mem_append_right _ List.mem_cons_self)
  constructor
  · intro kept sha q took
    by_contra early
    rw [Nat.not_le] at early
    have positive := takenPositive took
    have inside : q - 1 < (attributed before).length := by omega
    have before_ : q - 1 + 1 < startOf before := by omega
    have whole : (attributed before).length ≤ (attributed (before ++ g :: after)).length := by
      rw [attributedAppend,List.length_append]
      omega
    have same := kept (q - 1) (by omega) (fun within => by omega)
    rw [names,encodedName wf small,damagedBefore before_,attributedBefore before_,misplacedName took (by omega),
      if_pos (by omega),List.getElem?_eq_getElem inside] at same
    refine takenUnnamed own lost took (Option.some.inj same ▸ ?_)
    exact attributedNamed (fun each member => wf each (List.mem_append_left _ member)) _ (List.getElem_mem inside)
  · intro late k inside outside
    rw [names,encodedName wf small]
    by_cases early : k + 1 < startOf before
    · rw [damagedBefore early,attributedBefore early]
      cases took : taken g raw with
      | none => exact nameBefore _ k
      | some pair =>
        obtain ⟨sha,q⟩ := pair
        have after_ := late sha q took
        by_cases far : q > limit
        · rw [misplaced,if_pos far]
          exact nameBefore _ k
        · rw [← took,misplacedName took (Nat.not_lt.mp far),if_neg (by omega)]
    · exact damagedAfter inside (by omega)

def first : Group := ⟨ann,1,[.author "Ann".toList,.authorTime 7,.summary "start".toList],"x".toList,[]⟩

def second : Group := ⟨bob,2,[.author "Bob".toList,.authorTime 9,.summary "step 1".toList],"y".toList,[]⟩

def third : Group := ⟨List.replicate 40 'c',3,[.author "Cy".toList,.authorTime 9,.summary "tidy up".toList],"z".toList,[]⟩

/-- The line before the damaged group keeps its commit, and so does the one after it. -/
theorem lostKeepsOthers : OthersKept [first] third [second] "lost".toList ∧
    nameOf (parseBlame (damaged [first] third [second] "lost".toList)) 0 = some ann ∧
    nameOf (parseBlame (damaged [first] third [second] "lost".toList)) 2 = some bob := by
  refine ⟨(lostHeaderKeeps (by decide +kernel) (by decide +kernel) (by decide +kernel)).mpr (fun sha q took => ?_),
    by decide +kernel,by decide +kernel⟩
  have none_ : taken third "lost".toList = none := by decide +kernel
  rw [none_] at took
  contradiction

theorem lostTakesFirst : (∀ each ∈ [first] ++ second :: [], each.Wf) ∧ Told [] [first,second] ∧ Lost "lost".toList ∧
    ¬OthersKept [first] second [] "lost".toList := by
  decide +kernel

end M6t.GitBlameDamage
