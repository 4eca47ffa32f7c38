import M6t.GoStrings

/-! The output of `kubectl diff` as the viewer shows it: each line of the first
`MAX_DIFF_LINES` with how it is painted, and how many lines are said to be left out. -/
namespace M6t.DiffLines
open M6t.Text

inductive DiffLineKind
  | added
  | removed
  | meta_
  | context
  deriving DecidableEq, Repr

structure DiffLine where
  kind : DiffLineKind
  text : Str
  deriving DecidableEq, Repr

def MAX_DIFF_LINES : Nat := 2000

def diffLineKind (text : Str) : DiffLineKind :=
  if "---".toList.isPrefixOf text ∨ "+++".toList.isPrefixOf text ∨ "@@".toList.isPrefixOf text then .meta_
  else if "diff ".toList.isPrefixOf text ∨ "index ".toList.isPrefixOf text then .meta_
  else if "+".toList.isPrefixOf text then .added
  else if "-".toList.isPrefixOf text then .removed
  else .context

def diffLines (output : Str) : List DiffLine :=
  let lines := ((output.splitOn '\n').take MAX_DIFF_LINES).map (fun text => (⟨diffLineKind text,text⟩ : DiffLine))
  if lines.getLast?.map DiffLine.text = some [] then lines.dropLast else lines

def omitted (output : Str) : Nat := (output.splitOn '\n').length - MAX_DIFF_LINES

/-- A newline ends a line: after the last one there is none. -/
def terminated (parts : List Str) : List Str := if parts.getLast? = some [] then parts.dropLast else parts

def linesOf (output : Str) : List Str := terminated (output.splitOn '\n')

theorem terminatedBlank (front : List Str) : terminated (front ++ [[]]) = front := by
  rw [terminated,List.getLast?_concat,if_pos rfl,List.dropLast_concat]

theorem terminatedWhole {parts : List Str} (last : parts.getLast? ≠ some []) : terminated parts = parts := if_neg last

theorem terminatedRepeated {line : Str} {n : Nat} (nonempty : line ≠ []) :
    terminated (List.replicate n line) = List.replicate n line := by
  refine terminatedWhole ?_
  rw [List.getLast?_replicate]
  split
  · exact nofun
  · exact fun blank => nonempty (Option.some.inj blank)

theorem endingBlank {front : List Str} (nonempty : front ≠ []) : ['\n'] <:+ ['\n'].intercalate (front ++ [[]]) := by
  induction front with
  | nil => exact absurd rfl nonempty
  | cons line front ih =>
    rw [List.cons_append,List.intercalate_cons_of_ne_nil (by simp)]
    rcases eq_or_ne front [] with rfl | more
    · simp
    · exact (ih more).trans (List.suffix_append _ _)

theorem endsTerminated (output : Str) : (output.splitOn '\n').getLast? = some [] ↔ output = [] ∨ ['\n'] <:+ output := by
  constructor
  · intro last
    have parts := List.dropLast_append_getLast? [] last
    have whole : ['\n'].intercalate (output.splitOn '\n') = output := List.intercalate_splitOn '\n'
    rw [← parts] at whole
    rcases eq_or_ne (output.splitOn '\n').dropLast [] with none_ | some_
    · rw [none_] at whole
      exact Or.inl whole.symm
    · exact Or.inr (whole ▸ endingBlank some_)
  · rintro (rfl | ⟨front,rfl⟩)
    · rfl
    · rw [List.splitOn_append_cons_self,List.getLast?_append]
      rfl

theorem linesShown (output : Str) : diffLines output =
    (terminated ((output.splitOn '\n').take MAX_DIFF_LINES)).map (fun text => ⟨diffLineKind text,text⟩) := by
  simp only [diffLines,terminated,List.getLast?_map,Option.map_map,Function.comp_def,Option.map_id',← List.map_dropLast]
  split <;> rfl

theorem textsShown (output : Str) :
    (diffLines output).map DiffLine.text = terminated ((output.splitOn '\n').take MAX_DIFF_LINES) := by
  rw [linesShown,List.map_map]
  simp [Function.comp_def]

theorem shownLength (output : Str) :
    (diffLines output).length = (terminated ((output.splitOn '\n').take MAX_DIFF_LINES)).length := by
  rw [← textsShown,List.length_map]

theorem terminatedInit (parts : List Str) : parts.dropLast <+: terminated parts ∧ terminated parts <+: parts := by
  unfold terminated
  split
  · exact ⟨List.prefix_rfl,List.dropLast_prefix parts⟩
  · exact ⟨List.dropLast_prefix parts,List.prefix_rfl⟩

theorem terminatedTake (parts : List Str) (limit : Nat) : terminated (parts.take limit) <+: terminated parts := by
  rcases Nat.lt_or_ge limit parts.length with cut | whole
  · have init : parts.take limit <+: parts.dropLast := by
      rw [List.dropLast_eq_take]
      exact List.take_prefix_take_left (by omega)
    exact (terminatedInit _).2.trans (init.trans (terminatedInit parts).1)
  · rw [List.take_of_length_le whole]

theorem terminatedLength {parts : List Str} (some_ : parts ≠ []) :
    (terminated parts).length + (if parts.getLast? = some [] then 1 else 0) = parts.length := by
  have positive := List.length_pos_of_ne_nil some_
  unfold terminated
  split
  · rw [List.length_dropLast]
    omega
  · rfl

theorem terminatedGet {parts : List Str} {i : Nat} (inside : i + 1 < parts.length) : (terminated parts)[i]? = parts[i]? := by
  unfold terminated
  split
  · rw [List.getElem?_dropLast,if_pos (by omega)]
  · rfl

def Counted (output : Str) : Prop :=
  (diffLines output).length + omitted output = (linesOf output).length ∧
  (diffLines output).map DiffLine.text <+: linesOf output

/-- The limit cuts no blank line off, or one and the line that is not there. -/
def CutClear (output : Str) : Prop :=
  (output.splitOn '\n').length ≤ MAX_DIFF_LINES ∨
    ((linesOf output)[MAX_DIFF_LINES - 1]? = some [] ↔ ['\n'] <:+ output)

theorem countedExact (output : Str) : Counted output ↔ CutClear output := by
  have first : (diffLines output).map DiffLine.text <+: linesOf output := by
    rw [textsShown]
    exact terminatedTake _ _
  have all := terminatedLength (List.splitOn_ne_nil '\n' output)
  have ends := endsTerminated output
  unfold Counted CutClear
  rw [and_iff_left first,shownLength,omitted]
  unfold linesOf
  rcases Nat.lt_or_ge MAX_DIFF_LINES (output.splitOn '\n').length with cut | whole
  · have long : output ≠ [] := by
      rintro rfl
      simp [MAX_DIFF_LINES] at cut
    rw [or_iff_right long] at ends
    rw [terminatedGet (by unfold MAX_DIFF_LINES at cut ⊢; omega),or_iff_right (Nat.not_le.mpr cut),← ends]
    generalize output.splitOn '\n' = parts at cut all ⊢
    have taken : (parts.take MAX_DIFF_LINES).length = MAX_DIFF_LINES := List.length_take_of_le cut.le
    have some_ : parts.take MAX_DIFF_LINES ≠ [] := List.ne_nil_of_length_pos (by rw [taken]; decide)
    have kept := terminatedLength some_
    have last : (parts.take MAX_DIFF_LINES).getLast? = parts[MAX_DIFF_LINES - 1]? := by
      rw [List.getLast?_eq_getElem?,taken,List.getElem?_take_of_lt (by decide)]
    rw [taken,last] at kept
    have sum : (terminated (parts.take MAX_DIFF_LINES)).length + (parts.length - MAX_DIFF_LINES) = (terminated parts).length ↔
        (if parts[MAX_DIFF_LINES - 1]? = some [] then 1 else 0) = if parts.getLast? = some [] then 1 else 0 := by omega
    rw [sum]
    split <;> split <;> simp_all
  · have same : (output.splitOn '\n').take MAX_DIFF_LINES = output.splitOn '\n' := List.take_of_length_le whole
    rw [same,Nat.sub_eq_zero_of_le whole]
    exact iff_of_true rfl (Or.inl whole)

def blankAtLimit : Str := (List.replicate 1999 "+a\n".toList).flatten ++ "\n+b".toList
def oneTooLong : Str := (List.replicate 2001 "+a\n".toList).flatten

theorem repeatedParts (line rest : Str) (n : Nat) (plain : '\n' ∉ line) :
    ((List.replicate n (line ++ ['\n'])).flatten ++ rest).splitOn '\n' = List.replicate n line ++ rest.splitOn '\n' := by
  have whole : ∀ record ∈ List.replicate n line, '\n' ∉ record := fun record member => List.eq_of_mem_replicate member ▸ plain
  have parts := GoStrings.splitRecords whole rest
  rwa [List.flatMap_replicate] at parts

theorem blankLost {output line last : Str} {n : Nat} (full : n + 1 = MAX_DIFF_LINES)
    (parts : output.splitOn '\n' = List.replicate n line ++ [[]] ++ [last]) (more : last ≠ []) : ¬Counted output := by
  rintro ⟨sum,-⟩
  have shown : (output.splitOn '\n').take MAX_DIFF_LINES = List.replicate n line ++ [[]] := by
    rw [parts]
    exact List.take_left' (by rw [List.length_append,List.length_replicate]; exact full)
  have open_ : (List.replicate n line ++ [[]] ++ [last]).getLast? ≠ some [] := by
    rw [List.getLast?_concat]
    exact fun blank => more (Option.some.inj blank)
  rw [shownLength,shown,terminatedBlank,omitted,linesOf,parts,terminatedWhole open_] at sum
  simp only [List.length_append,List.length_replicate,List.length_singleton] at sum
  omega

theorem endReported {output line : Str} {n : Nat} (long : MAX_DIFF_LINES < n) (nonempty : line ≠ [])
    (parts : output.splitOn '\n' = List.replicate n line ++ [[]]) : ¬Counted output := by
  rintro ⟨sum,-⟩
  have shown : (output.splitOn '\n').take MAX_DIFF_LINES = List.replicate MAX_DIFF_LINES line := by
    rw [parts,List.take_append_of_le_length (by rw [List.length_replicate]; exact long.le),List.take_replicate,
      Nat.min_eq_left long.le]
  rw [shownLength,shown,terminatedRepeated nonempty,omitted,linesOf,parts,terminatedBlank] at sum
  simp only [List.length_append,List.length_replicate,List.length_singleton] at sum
  omega

theorem limitMiscounts : ¬Counted blankAtLimit ∧ ¬Counted oneTooLong := by
  constructor
  · refine @blankLost blankAtLimit "+a".toList "+b".toList 1999 rfl ?_ (by decide)
    rw [List.append_assoc]
    exact repeatedParts "+a".toList "\n+b".toList 1999 (by decide)
  · refine @endReported oneTooLong "+a".toList 2001 (by decide) (by decide) ?_
    have parts := repeatedParts "+a".toList [] 2001 (by decide)
    rwa [List.append_nil] at parts

inductive Lead
  | plus
  | minus
  | blank
  | backslash
  deriving DecidableEq, Repr

def Lead.char : Lead → Char
  | .plus => '+'
  | .minus => '-'
  | .blank => ' '
  | .backslash => '\\'

def Lead.kind : Lead → DiffLineKind
  | .plus => .added
  | .minus => .removed
  | .blank => .context
  | .backslash => .context

inductive Line
  | fileHeader (text : Str)
  | hunkHeader (rest : Str)
  | body (lead : Lead) (rest : Str)
  deriving DecidableEq, Repr

def Line.text : Line → Str
  | .fileHeader text => text
  | .hunkHeader rest => "@@".toList ++ rest
  | .body lead rest => lead.char :: rest

structure Hunk where
  header : Str
  body : List (Lead × Str)

def Hunk.lines (hunk : Hunk) : List Line := .hunkHeader hunk.header :: hunk.body.map (fun line => .body line.1 line.2)

structure FileDiff where
  headers : List Str
  hunks : List Hunk

def FileDiff.lines (file : FileDiff) : List Line := file.headers.map .fileHeader ++ file.hunks.flatMap Hunk.lines

structure UnifiedDiff where
  files : List FileDiff
  torn : Bool
  whole : ∀ line ∈ files.flatMap FileDiff.lines, '\n' ∉ line.text

namespace UnifiedDiff

def lines (diff : UnifiedDiff) : List Line := diff.files.flatMap FileDiff.lines

def output (diff : UnifiedDiff) : Str :=
  let texts := diff.lines.map Line.text
  if diff.torn then ['\n'].intercalate texts else texts.flatMap (fun text => text ++ ['\n'])

end UnifiedDiff

def marks : List Str := ["---".toList,"+++".toList,"diff ".toList,"index ".toList]

structure Classified (diff : UnifiedDiff) : Prop where
  body : ∀ (i : Nat) (lead : Lead) (rest : Str), i < MAX_DIFF_LINES → diff.lines[i]? = some (.body lead rest) →
    (diffLines diff.output)[i]? = some ⟨lead.kind,lead.char :: rest⟩
  hunks : ∀ (i : Nat) (rest : Str), i < MAX_DIFF_LINES → diff.lines[i]? = some (.hunkHeader rest) →
    (diffLines diff.output)[i]? = some ⟨.meta_,"@@".toList ++ rest⟩
  files : ∀ (i : Nat) (text : Str), i < MAX_DIFF_LINES → diff.lines[i]? = some (.fileHeader text) →
    (∃ mark ∈ marks, mark <+: text) → (diffLines diff.output)[i]? = some ⟨.meta_,text⟩
  headers : ∀ (i : Nat) (line : DiffLine), (diffLines diff.output)[i]? = some line → line.kind = .meta_ →
    ∃ text, diff.lines[i]? = some (.fileHeader text) ∨ diff.lines[i]? = some (.hunkHeader text)

/-- A body line that reads as the header of a file: its text starts with its own sign, twice. -/
def Doubled : Lead → Str → Prop
  | .plus,rest => "++".toList <+: rest
  | .minus,rest => "--".toList <+: rest
  | _,_ => False

def Undoubled (diff : UnifiedDiff) : Prop :=
  ∀ (i : Nat) (lead : Lead) (rest : Str), i < MAX_DIFF_LINES → diff.lines[i]? = some (.body lead rest) → ¬Doubled lead rest

theorem terminatedSome {parts : List Str} {i : Nat} {text : Str} (found : parts[i]? = some text) (nonempty : text ≠ []) :
    (terminated parts)[i]? = some text := by
  obtain ⟨inside,_⟩ := List.getElem?_eq_some_iff.mp found
  unfold terminated
  split
  · next last =>
    rw [List.getLast?_eq_getElem?] at last
    have before : i ≠ parts.length - 1 := by
      rintro rfl
      exact nonempty (Option.some.inj (found.symm.trans last))
    rw [List.getElem?_dropLast,if_pos (by omega),found]
  · exact found

theorem shownAt {output text : Str} {i : Nat} (low : i < MAX_DIFF_LINES) (found : (output.splitOn '\n')[i]? = some text)
    (nonempty : text ≠ []) : (diffLines output)[i]? = some ⟨diffLineKind text,text⟩ := by
  have taken : ((output.splitOn '\n').take MAX_DIFF_LINES)[i]? = some text := by rw [List.getElem?_take_of_lt low,found]
  rw [linesShown,List.getElem?_map,terminatedSome taken nonempty]
  rfl

theorem shownFrom {output : Str} {i : Nat} {line : DiffLine} (shown : (diffLines output)[i]? = some line) :
    i < MAX_DIFF_LINES ∧ (output.splitOn '\n')[i]? = some line.text ∧ line.kind = diffLineKind line.text := by
  rw [linesShown,List.getElem?_map,Option.map_eq_some_iff] at shown
  obtain ⟨text,found,rfl⟩ := shown
  have taken := (terminatedInit _).2.trans (List.take_prefix MAX_DIFF_LINES (output.splitOn '\n'))
  obtain ⟨inside,same⟩ := List.getElem?_eq_some_iff.mp found
  have low := (terminatedInit ((output.splitOn '\n').take MAX_DIFF_LINES)).2.length_le
  rw [List.length_take] at low
  refine ⟨by omega,?_,rfl⟩
  rw [taken.getElem inside] at same
  exact List.getElem?_eq_some_iff.mpr ⟨_,same⟩

theorem kindMeta (text : Str) : diffLineKind text = .meta_ ↔ (∃ mark ∈ marks, mark <+: text) ∨ "@@".toList <+: text := by
  have tests : diffLineKind text = .meta_ ↔
      ("---".toList <+: text ∨ "+++".toList <+: text ∨ "@@".toList <+: text) ∨ "diff ".toList <+: text ∨ "index ".toList <+: text := by
    simp only [diffLineKind,List.isPrefixOf_iff_prefix]
    split_ifs with files headers added removed
    · exact iff_of_true rfl (Or.inl files)
    · exact iff_of_true rfl (Or.inr headers)
    · exact iff_of_false nofun (not_or.mpr ⟨files,headers⟩)
    · exact iff_of_false nofun (not_or.mpr ⟨files,headers⟩)
    · exact iff_of_false nofun (not_or.mpr ⟨files,headers⟩)
  rw [tests]
  simp only [marks,List.mem_cons,List.not_mem_nil,or_false,exists_eq_or_imp,exists_eq_left]
  simp only [or_assoc,or_comm,or_left_comm]

theorem kindBody (lead : Lead) (rest : Str) : diffLineKind (lead.char :: rest) = lead.kind ↔ ¬Doubled lead rest := by
  cases lead with
  | plus => simp [diffLineKind,Lead.char,Lead.kind,Doubled]
  | minus => simp [diffLineKind,Lead.char,Lead.kind,Doubled]
  | blank => simp [diffLineKind,Lead.char,Lead.kind,Doubled]
  | backslash => simp [diffLineKind,Lead.char,Lead.kind,Doubled]

theorem outputParts (diff : UnifiedDiff) : diff.output.splitOn '\n' = diff.lines.map Line.text ∨
    diff.output.splitOn '\n' = diff.lines.map Line.text ++ [[]] := by
  have whole : ∀ text ∈ diff.lines.map Line.text, '\n' ∉ text := by
    intro text member
    obtain ⟨line,inside,rfl⟩ := List.mem_map.mp member
    exact diff.whole line inside
  unfold UnifiedDiff.output
  dsimp only
  split
  · rcases eq_or_ne (diff.lines.map Line.text) [] with none_ | some_
    · rw [none_]
      exact Or.inr rfl
    · exact Or.inl (List.splitOn_intercalate _ whole some_)
  · exact Or.inr (GoStrings.splitTerminated whole)

theorem partsAt {diff : UnifiedDiff} {i : Nat} {line : Line} (found : diff.lines[i]? = some line) :
    (diff.output.splitOn '\n')[i]? = some line.text := by
  have text : (diff.lines.map Line.text)[i]? = some line.text := by rw [List.getElem?_map,found]; rfl
  rcases outputParts diff with parts | parts
  · rw [parts,text]
  · obtain ⟨inside,_⟩ := List.getElem?_eq_some_iff.mp text
    rw [parts,List.getElem?_append_left inside,text]

theorem painted {diff : UnifiedDiff} {i : Nat} {line : Line} {kind : DiffLineKind} (low : i < MAX_DIFF_LINES)
    (found : diff.lines[i]? = some line) (nonempty : line.text ≠ []) (reads : diffLineKind line.text = kind) :
    (diffLines diff.output)[i]? = some ⟨kind,line.text⟩ := by
  rw [shownAt low (partsAt found) nonempty,reads]

theorem partsFrom {diff : UnifiedDiff} {i : Nat} {text : Str} (found : (diff.output.splitOn '\n')[i]? = some text)
    (nonempty : text ≠ []) : ∃ line, diff.lines[i]? = some line ∧ line.text = text := by
  have mapped : (diff.lines.map Line.text)[i]? = some text := by
    rcases outputParts diff with parts | parts
    · rwa [parts] at found
    · rw [parts,List.getElem?_append] at found
      split at found
      · exact found
      · obtain ⟨_,last⟩ := List.getElem?_eq_some_iff.mp found
        simp at last
        exact absurd last nonempty
  rw [List.getElem?_map,Option.map_eq_some_iff] at mapped
  exact mapped

theorem classifiedExact (diff : UnifiedDiff) : Classified diff ↔ Undoubled diff := by
  constructor
  · intro classified i lead rest low found
    have shown := shownAt low (partsAt found) (List.cons_ne_nil _ _)
    have kind := Option.some.inj (shown.symm.trans (classified.body i lead rest low found))
    exact (kindBody lead rest).mp (congrArg DiffLine.kind kind)
  · intro undoubled
    refine ⟨?_,?_,?_,?_⟩
    · intro i lead rest low found
      have kind := (kindBody lead rest).mpr (undoubled i lead rest low found)
      exact painted low found (List.cons_ne_nil _ _) kind
    · intro i rest low found
      have kind := (kindMeta ("@@".toList ++ rest)).mpr (Or.inr (List.prefix_append _ _))
      exact painted low found (by simp [Line.text]) kind
    · intro i text low found known
      have kind := (kindMeta text).mpr (Or.inl known)
      have nonempty : text ≠ [] := by
        rintro rfl
        exact absurd known (by decide)
      exact painted low found nonempty kind
    · intro i line shown header
      obtain ⟨low,part,kind⟩ := shownFrom shown
      have nonempty : line.text ≠ [] := by
        intro empty
        rw [empty] at kind
        exact absurd (header.symm.trans kind) (by decide)
      obtain ⟨source,found,text⟩ := partsFrom part nonempty
      cases source with
      | fileHeader t => exact ⟨t,Or.inl found⟩
      | hunkHeader t => exact ⟨t,Or.inr found⟩
      | body lead rest =>
        have own := (kindBody lead rest).mpr (undoubled i lead rest low found)
        rw [← text] at kind
        have same := header.symm.trans (kind.trans own)
        cases lead <;> cases same

def commentRemoved : UnifiedDiff where
  files := [⟨["--- /tmp/LIVE/db".toList,"+++ /tmp/MERGED/db".toList],
    [⟨" -3,2 +3 @@".toList,[(.blank,"SELECT 1;".toList),(.minus,"-- old".toList)]⟩]⟩]
  torn := false
  whole := by decide

theorem commentPaintedMeta : ¬Classified commentRemoved := by
  intro classified
  have painted : (diffLines commentRemoved.output)[4]? = some ⟨.meta_,"--- old".toList⟩ := by decide +kernel
  have removed := classified.body 4 .minus "-- old".toList (by decide) (by decide +kernel)
  exact absurd (painted.symm.trans removed) (by decide)

end M6t.DiffLines
