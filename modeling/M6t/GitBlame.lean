import M6t.GoStrings
import Mathlib.Data.List.Nodup

/-! The parser of `git blame --porcelain`: one pass over its lines, which places an entry at
the line number its header gave and refers to a commit by its index. Beside it the column that
the entries say, each line under an object name. -/
namespace M6t.GitBlame
open M6t.Text M6t.GoStrings

def blameAuthor : Str := "author".toList
def blameAuthorTime : Str := "author-time".toList
def blameSummary : Str := "summary".toList
def blameHeaderFields : Nat := 3
def unattributed : Int := -1

structure BlameCommit where
  sha : Str
  author : Str
  authorTime : Int
  summary : Str
  uncommitted : Bool
  deriving DecidableEq, Repr

structure Blame where
  commits : List BlameCommit
  lines : List Int
  deriving DecidableEq, Repr

structure Parser where
  index : List (Str × Nat)
  commits : List BlameCommit
  lines : List Int
  limit : Nat
  sha : Str
  line : Nat
  inEntry : Bool
  deriving DecidableEq, Repr

def uncommitted (sha : Str) : Bool := sha ≠ [] && sha.all (· = '0')

def headerOf (raw : Str) : Option (Str × Nat) :=
  let fields := fields raw
  if fields.length < blameHeaderFields then none
  else
    match parseInt (fields.getD 2 []) with
    | none => none
    | some final => if final < 1 then none else some (fields.getD 0 [],final.toNat)

/-- The index of the entry's commit, 0 where the map has none. -/
def Parser.commitIndex (p : Parser) : Nat := (p.index.lookup p.sha).getD 0

def Parser.open_ (p : Parser) (raw : Str) : Parser :=
  match headerOf raw with
  | none => p
  | some (sha,line) =>
    let p := { p with sha, line, inEntry := true }
    if (p.index.lookup sha).isSome then p
    else
      { p with
        index := p.index ++ [(sha,p.commits.length)]
        commits := p.commits ++ [⟨sha,[],0,[],uncommitted sha⟩] }

def BlameCommit.stated (commit : BlameCommit) (key value : Str) : BlameCommit :=
  if key = blameAuthor then { commit with author := value }
  else if key = blameAuthorTime then
    match parseInt value with
    | none => commit
    | some seconds => { commit with authorTime := seconds }
  else if key = blameSummary then { commit with summary := value }
  else commit

def BlameCommit.told (commit : BlameCommit) (raw : Str) : BlameCommit :=
  match cut ' ' raw with
  | none => commit
  | some (key,value) => commit.stated key value

def Parser.header (p : Parser) (raw : Str) : Parser :=
  { p with commits := p.commits.modify p.commitIndex (fun commit => commit.told raw) }

def place {α : Type*} (nothing : α) (entries : List α) (line : Nat) (entry : α) : List α :=
  (entries ++ List.replicate (line - entries.length) nothing).set (line - 1) entry

def Parser.close (p : Parser) : Parser :=
  if ¬p.inEntry then p
  else if p.line > p.limit then { p with inEntry := false }
  else { p with lines := place unattributed p.lines p.line p.commitIndex, inEntry := false }

def Parser.read (p : Parser) (raw : Str) : Parser :=
  if raw.head? = some '\t' then p.close
  else if ¬p.inEntry then p.open_ raw
  else p.header raw

def parser (out : Str) : Parser := ⟨[],[],[],out.count '\n' + 1,[],0,false⟩

def parseBlame (out : Str) : Blame :=
  let p := (out.splitOn '\n').foldl Parser.read (parser out)
  ⟨p.commits,p.lines⟩

def shas (commits : List BlameCommit) : List Str := commits.map BlameCommit.sha

structure Sound (p : Parser) : Prop where
  distinct : (shas p.commits).Nodup
  indexed : ∀ sha i, p.index.lookup sha = some i ↔ (shas p.commits)[i]? = some sha
  valid : ∀ e ∈ p.lines, e = unattributed ∨ ∃ i : Nat, e = i ∧ i < p.commits.length
  bounded : p.lines.length ≤ p.limit
  current : p.inEntry = true → p.sha ∈ shas p.commits ∧ 1 ≤ p.line

theorem parserSound (out : Str) : Sound (parser out) :=
  ⟨List.nodup_nil,fun sha i => by simp [parser,shas],fun e member => by simp [parser] at member,Nat.zero_le _,
    fun opened => by simp [parser] at opened⟩

theorem headerLine {raw : Str} {sha : Str} {line : Nat} (header : headerOf raw = some (sha,line)) : 1 ≤ line := by
  unfold headerOf at header
  simp only at header
  split at header
  · contradiction
  · split at header
    · contradiction
    · split at header
      · contradiction
      · have same := (Prod.mk.inj (Option.some.inj header)).2
        omega

theorem Sound.known {p : Parser} (sound : Sound p) {sha : Str} : (p.index.lookup sha).isSome = true ↔ sha ∈ shas p.commits := by
  rw [Option.isSome_iff_exists,List.mem_iff_getElem?]
  exact exists_congr (sound.indexed sha)

theorem toldSha (commit : BlameCommit) (raw : Str) : (commit.told raw).sha = commit.sha := by
  unfold BlameCommit.told BlameCommit.stated
  split
  · rfl
  · repeat' split
    all_goals rfl

theorem modifiedShas (commits : List BlameCommit) (i : Nat) (raw : Str) :
    shas (commits.modify i (fun commit => commit.told raw)) = shas commits := by
  refine List.ext_getElem? (fun j => ?_)
  simp only [shas,List.getElem?_map,List.getElem?_modify]
  split
  · cases commits[j]? <;> simp [toldSha]
  · simp

theorem headerSound {p : Parser} (sound : Sound p) (raw : Str) : Sound (p.header raw) := by
  have same := modifiedShas p.commits p.commitIndex raw
  have length : (p.header raw).commits.length = p.commits.length := List.length_modify ..
  refine ⟨?_,?_,?_,sound.bounded,?_⟩
  · exact (congrArg List.Nodup same).mpr sound.distinct
  · intro sha i
    exact (sound.indexed sha i).trans (by rw [← same]; rfl)
  · rw [length]
    exact sound.valid
  · intro opened
    have inside := sound.current opened
    rw [← same] at inside
    exact inside

theorem snocAt {α : Type*} (l : List α) (a b : α) (i : Nat) :
    (l ++ [a])[i]? = some b ↔ l[i]? = some b ∨ b = a ∧ i = l.length := by
  rcases Nat.lt_trichotomy i l.length with inside | rfl | beyond
  · simp [List.getElem?_append_left inside,Nat.ne_of_lt inside]
  · simp [eq_comm]
  · rw [List.getElem?_eq_none (by simp; omega),List.getElem?_eq_none (Nat.le_of_lt beyond)]
    simp [Nat.ne_of_gt beyond]

theorem registeredAt {p : Parser} (sound : Sound p) {sha : Str} (fresh : sha ∉ shas p.commits) (other : Str) (i : Nat) :
    (p.index ++ [(sha,p.commits.length)]).lookup other = some i ↔ (shas p.commits ++ [sha])[i]? = some other := by
  have length : (shas p.commits).length = p.commits.length := List.length_map ..
  have absent : p.index.lookup sha = none := by
    cases found : p.index.lookup sha with
    | none => rfl
    | some i => exact absurd (sound.known.mp (by rw [found]; rfl)) fresh
  rw [snocAt,List.lookup_append,← sound.indexed,length]
  by_cases same : other = sha
  · subst same
    simp [absent,eq_comm]
  · have apart : (other == sha) = false := by simpa using same
    simp [List.lookup_cons,apart,same]

theorem openSound {p : Parser} (sound : Sound p) (raw : Str) : Sound (p.open_ raw) := by
  unfold Parser.open_
  split
  · exact sound
  · next sha line header =>
    have positive := headerLine header
    simp only
    split
    · next known => exact ⟨sound.distinct,sound.indexed,sound.valid,sound.bounded,fun _ => ⟨sound.known.mp known,positive⟩⟩
    · next unknown =>
      have fresh : sha ∉ shas p.commits := fun member => unknown (sound.known.mpr member)
      have grown : shas (p.commits ++ [⟨sha,[],0,[],uncommitted sha⟩]) = shas p.commits ++ [sha] := List.map_append
      refine ⟨?_,fun other i => ?_,fun e member => ?_,sound.bounded,fun _ => ⟨?_,positive⟩⟩
      · rw [grown]
        exact List.nodup_append_comm.mp (List.nodup_cons.mpr ⟨fresh,sound.distinct⟩)
      · rw [grown]
        exact registeredAt sound fresh other i
      · rcases sound.valid e member with none_ | ⟨i,same,inside⟩
        · exact .inl none_
        · exact .inr ⟨i,same,by rw [List.length_append]; exact Nat.lt_add_right _ inside⟩
      · rw [grown]
        exact List.mem_append_right _ List.mem_cons_self

theorem placeLength {α : Type*} (nothing entry : α) (entries : List α) (line : Nat) :
    (place nothing entries line entry).length = max entries.length line := by
  rw [place,List.length_set,List.length_append,List.length_replicate]
  omega

theorem placeMember {α : Type*} {nothing entry e : α} {entries : List α} {line : Nat}
    (member : e ∈ place nothing entries line entry) : e ∈ entries ∨ e = nothing ∨ e = entry := by
  rcases List.mem_or_eq_of_mem_set member with old | new
  · rcases List.mem_append.mp old with there | padding
    · exact .inl there
    · exact .inr (.inl (List.eq_of_mem_replicate padding))
  · exact .inr (.inr new)

theorem Sound.commit {p : Parser} (sound : Sound p) (opened : p.inEntry = true) :
    (shas p.commits)[p.commitIndex]? = some p.sha := by
  have known := sound.known.mpr (sound.current opened).1
  obtain ⟨i,found⟩ := Option.isSome_iff_exists.mp known
  rw [Parser.commitIndex,found,Option.getD_some]
  exact (sound.indexed p.sha i).mp found

theorem closeSound {p : Parser} (sound : Sound p) : Sound p.close := by
  unfold Parser.close
  split
  · exact sound
  · next opened =>
    split
    · exact ⟨sound.distinct,sound.indexed,sound.valid,sound.bounded,Bool.noConfusion⟩
    · next near =>
      refine ⟨sound.distinct,sound.indexed,fun e member => ?_,?_,Bool.noConfusion⟩
      · rcases placeMember member with old | padding | new
        · exact sound.valid e old
        · exact .inl padding
        · have at_ := sound.commit (by simpa using opened)
          have inside := (List.getElem?_eq_some_iff.mp at_).1
          rw [shas,List.length_map] at inside
          exact .inr ⟨_,new,inside⟩
      · rw [placeLength]
        exact Nat.max_le.mpr ⟨sound.bounded,Nat.not_lt.mp near⟩

theorem readSound {p : Parser} (sound : Sound p) (raw : Str) : Sound (p.read raw) := by
  unfold Parser.read
  split
  · exact closeSound sound
  · split
    · exact openSound sound raw
    · exact headerSound sound raw

theorem foldSound {p : Parser} (sound : Sound p) (raws : List Str) : Sound (raws.foldl Parser.read p) := by
  induction raws generalizing p with
  | nil => exact sound
  | cons raw raws ih => exact ih (readSound sound raw)

theorem readLimit (p : Parser) (raw : Str) : (p.read raw).limit = p.limit := by
  unfold Parser.read
  split
  · unfold Parser.close
    split
    · rfl
    · split <;> rfl
  · split
    · unfold Parser.open_
      split
      · rfl
      · dsimp only
        split <;> rfl
    · rfl

theorem foldLimit (p : Parser) (raws : List Str) : (raws.foldl Parser.read p).limit = p.limit := by
  induction raws generalizing p with
  | nil => rfl
  | cons raw raws ih => rw [List.foldl_cons,ih,readLimit]

theorem readBounds (out : Str) :
    (∀ e ∈ (parseBlame out).lines, e = unattributed ∨ ∃ i : Nat, e = i ∧ i < (parseBlame out).commits.length) ∧
      (parseBlame out).lines.length ≤ out.count '\n' + 1 ∧ (shas (parseBlame out).commits).Nodup := by
  have sound := foldSound (parserSound out) (out.splitOn '\n')
  have limit := foldLimit (parser out) (out.splitOn '\n')
  have bounded := sound.bounded
  rw [limit] at bounded
  exact ⟨sound.valid,bounded,sound.distinct⟩

/-- What the entries say: an object name for each line, `none` for a line without one, and the
entry that is open. -/
structure Column where
  entries : List (Option Str)
  entry : Option (Str × Nat)

def Column.close (c : Column) (limit : Nat) : Column :=
  match c.entry with
  | none => c
  | some (sha,line) => ⟨if line > limit then c.entries else place none c.entries line (some sha),none⟩

def Column.read (limit : Nat) (c : Column) (raw : Str) : Column :=
  if raw.head? = some '\t' then c.close limit
  else
    match c.entry with
    | none => { c with entry := headerOf raw }
    | some _ => c

def shaOf (commits : List BlameCommit) (e : Int) : Option Str := if e < 0 then none else (shas commits)[e.toNat]?

def Parser.column (p : Parser) : Column :=
  ⟨p.lines.map (shaOf p.commits),if p.inEntry then some (p.sha,p.line) else none⟩

theorem shaOfGrown {commits : List BlameCommit} {e : Int} (valid : e = unattributed ∨ ∃ i : Nat, e = i ∧ i < commits.length)
    (more : List BlameCommit) : shaOf (commits ++ more) e = shaOf commits e := by
  rcases valid with rfl | ⟨i,rfl,inside⟩
  · rfl
  · unfold shaOf shas
    rw [List.map_append,List.getElem?_append_left (by simpa using inside)]

theorem mapPlace {α β : Type*} (f : α → β) (nothing entry : α) (entries : List α) (line : Nat) :
    (place nothing entries line entry).map f = place (f nothing) (entries.map f) line (f entry) := by
  simp [place,List.map_set]

theorem readColumn {p : Parser} (sound : Sound p) (raw : Str) : (p.read raw).column = p.column.read p.limit raw := by
  unfold Parser.read Column.read
  split
  · unfold Parser.close Column.close Parser.column
    cases opened : p.inEntry with
    | false => simp [opened]
    | true =>
      have at_ := sound.commit opened
      have named : shaOf p.commits p.commitIndex = some p.sha := by simp [shaOf,at_]
      simp only [not_true,if_false,if_true]
      split
      · rfl
      · simp only [mapPlace,named]
        rfl
  · cases opened : p.inEntry with
    | false =>
      have closed : p.column.entry = none := by simp [Parser.column,opened]
      rw [closed]
      simp only [Bool.false_eq_true,not_false_eq_true,if_true]
      unfold Parser.open_
      cases header : headerOf raw with
      | none => simp [Parser.column,opened]
      | some pair =>
        obtain ⟨sha,line⟩ := pair
        dsimp only
        split
        · rfl
        · have same : p.lines.map (shaOf (p.commits ++ [⟨sha,[],0,[],uncommitted sha⟩])) = p.lines.map (shaOf p.commits) :=
            List.map_congr_left (fun e member => shaOfGrown (sound.valid e member) _)
          simp [Parser.column,same]
    | true =>
      have open_ : p.column.entry = some (p.sha,p.line) := by simp [Parser.column,opened]
      rw [open_]
      simp [Parser.column,Parser.header,opened,shaOf,modifiedShas]

theorem foldColumn {p : Parser} (sound : Sound p) (raws : List Str) :
    (raws.foldl Parser.read p).column = raws.foldl (Column.read p.limit) p.column := by
  induction raws generalizing p with
  | nil => rfl
  | cons raw raws ih => rw [List.foldl_cons,ih (readSound sound raw),readColumn sound,readLimit]; rfl

def placeAll (entries : List (Option Str)) (line : Nat) : List Str → List (Option Str)
  | [] => entries
  | sha :: rest => placeAll (place none entries line (some sha)) (line + 1) rest

theorem placeNext {α : Type*} (nothing entry : α) (entries : List α) :
    place nothing entries (entries.length + 1) entry = entries ++ [entry] := by
  simp [place]

theorem placeAllNext (entries : List (Option Str)) (names : List Str) :
    placeAll entries (entries.length + 1) names = entries ++ names.map some := by
  induction names generalizing entries with
  | nil => simp [placeAll]
  | cons sha names ih =>
    rw [placeAll,placeNext]
    have next := ih (entries ++ [some sha])
    rw [List.length_append,List.length_singleton] at next
    rw [next]
    simp

theorem placeAllAppend (entries : List (Option Str)) (line : Nat) (first second : List Str) :
    placeAll entries line (first ++ second) = placeAll (placeAll entries line first) (line + first.length) second := by
  induction first generalizing entries line with
  | nil => rfl
  | cons sha first ih =>
    rw [List.cons_append,placeAll,ih,placeAll,List.length_cons]
    congr 1
    omega

def nameAt (entries : List (Option Str)) (k : Nat) : Option Str := (entries[k]?).join

theorem namePlaced {entries : List (Option Str)} {line : Nat} (positive : 1 ≤ line) (entry : Option Str) (k : Nat) :
    nameAt (place none entries line entry) k = if k + 1 = line then entry else nameAt entries k := by
  have length : (entries ++ List.replicate (line - entries.length) none).length = max entries.length line := by
    rw [List.length_append,List.length_replicate]
    omega
  unfold nameAt place
  rw [List.getElem?_set]
  by_cases here : k + 1 = line
  · have same : line - 1 = k := by omega
    have inside : k < (entries ++ List.replicate (line - entries.length) none).length := by rw [length]; omega
    rw [if_pos same,if_pos here,same,if_pos inside]
    rfl
  · rw [if_neg (by omega),if_neg here]
    by_cases old : k < entries.length
    · rw [List.getElem?_append_left old]
    · rw [List.getElem?_append_right (by omega),List.getElem?_eq_none (l := entries) (by omega),List.getElem?_replicate]
      split <;> rfl

theorem namePlacedAll (names : List Str) {entries : List (Option Str)} {line : Nat} (positive : 1 ≤ line) (k : Nat) :
    nameAt (placeAll entries line names) k =
      if k + 1 < line then nameAt entries k else (names[k + 1 - line]?).or (nameAt entries k) := by
  induction names generalizing entries line with
  | nil => simp [placeAll]
  | cons sha names ih =>
    rw [placeAll,ih (by omega),namePlaced positive]
    rcases Nat.lt_trichotomy (k + 1) line with before | here | after
    · rw [if_pos (by omega),if_neg (by omega),if_pos before]
    · rw [if_pos (by omega),if_pos here,if_neg (by omega),here,Nat.sub_self]
      rfl
    · rw [if_neg (by omega),if_neg (by omega),if_neg (by omega),show k + 1 - line = (k + 1 - (line + 1)) + 1 by omega,
        List.getElem?_cons_succ]

end M6t.GitBlame
