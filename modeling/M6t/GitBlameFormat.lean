import M6t.GitBlame

/-! The output of `git blame --porcelain` as git writes it: groups of lines, the details of a
commit with the first group of it, and what the parser makes of them. -/
namespace M6t.GitBlameFormat
open M6t.Text M6t.GoStrings M6t.GitBlame

def isHex (c : Char) : Bool := c.isDigit || ('a' ≤ c && c ≤ 'f')

def ObjectName (s : Str) : Prop := (s.length = 40 ∨ s.length = 64) ∧ s.all isHex = true
instance (s) : Decidable (ObjectName s) := inferInstanceAs (Decidable (_ ∧ _))

/-- The extended headers: the three that are read, and all others with their text. A header's
key is a word of its own, so that no extended header starts with an object name. -/
inductive Extended where
  | author (name : Str)
  | authorTime (seconds : Nat)
  | summary (subject : Str)
  | other (line : Str)
  deriving DecidableEq, Repr

structure Group where
  sha : Str
  orig : Nat
  stated : List Extended
  content : Str
  contents : List Str
  deriving DecidableEq, Repr

def Group.size (g : Group) : Nat := g.contents.length + 1

def Extended.text : Extended → Str
  | .author name => blameAuthor ++ ' ' :: name
  | .authorTime seconds => blameAuthorTime ++ ' ' :: decimal seconds
  | .summary subject => blameSummary ++ ' ' :: subject
  | .other line => line

def headerText (sha : Str) (orig final : Nat) : Option Nat → Str
  | none => sha ++ ' ' :: (decimal orig ++ ' ' :: decimal final)
  | some count => sha ++ ' ' :: (decimal orig ++ ' ' :: (decimal final ++ ' ' :: decimal count))

def restLines (sha : Str) : Nat → Nat → List Str → List Str
  | _,_,[] => []
  | orig,final,content :: contents =>
    headerText sha orig final none :: ('\t' :: content) :: restLines sha (orig + 1) (final + 1) contents

def Group.body (g : Group) (final : Nat) : List Str :=
  g.stated.map Extended.text ++ ('\t' :: g.content) :: restLines g.sha (g.orig + 1) (final + 1) g.contents

def Group.lines (g : Group) (final : Nat) : List Str := headerText g.sha g.orig final (some g.size) :: g.body final

def outputLines : Nat → List Group → List Str
  | _,[] => []
  | final,g :: groups => g.lines final ++ outputLines (final + g.size) groups

def ended (raws : List Str) : Str := raws.flatMap (fun raw => raw ++ ['\n'])

def encode (groups : List Group) : Str := ended (outputLines 1 groups)

def Extended.author? : Extended → Option Str
  | .author name => some name
  | _ => none

def Extended.authorTime? : Extended → Option Nat
  | .authorTime seconds => some seconds
  | _ => none

def Extended.summary? : Extended → Option Str
  | .summary subject => some subject
  | _ => none

def Group.authors (g : Group) : List Str := g.stated.filterMap Extended.author?
def Group.times (g : Group) : List Nat := g.stated.filterMap Extended.authorTime?
def Group.summaries (g : Group) : List Str := g.stated.filterMap Extended.summary?

def Extended.Wf : Extended → Prop
  | .author name => '\n' ∉ name
  | .authorTime seconds => seconds < 2 ^ 63
  | .summary subject => '\n' ∉ subject
  | .other line =>
    '\n' ∉ line ∧ line.head? ≠ some '\t' ∧ (∀ word ∈ (fields line).head?, ¬ObjectName word) ∧
      ∀ key ∈ (cut ' ' line).map Prod.fst, key ∉ [blameAuthor,blameAuthorTime,blameSummary]
instance (e : Extended) : Decidable e.Wf := by unfold Extended.Wf; cases e <;> infer_instance

structure Group.Wf (g : Group) : Prop where
  named : ObjectName g.sha
  stated : ∀ e ∈ g.stated, e.Wf
  content : '\n' ∉ g.content
  contents : ∀ content ∈ g.contents, '\n' ∉ content
instance (g : Group) : Decidable g.Wf :=
  decidable_of_iff (ObjectName g.sha ∧ (∀ e ∈ g.stated, e.Wf) ∧ '\n' ∉ g.content ∧ ∀ content ∈ g.contents, '\n' ∉ content)
    ⟨fun h => ⟨h.1,h.2.1,h.2.2.1,h.2.2.2⟩,fun h => ⟨h.named,h.stated,h.content,h.contents⟩⟩

/-- A commit's details are stated, once each, with the first group of it and with no other. -/
def Told (seen : List Str) : List Group → Prop
  | [] => True
  | g :: groups =>
    (if g.sha ∈ seen then g.authors = [] ∧ g.times = [] ∧ g.summaries = []
      else g.authors.length = 1 ∧ g.times.length = 1 ∧ g.summaries.length = 1) ∧
    Told (g.sha :: seen) groups
instance toldDecidable (seen groups) : Decidable (Told seen groups) := by
  induction groups generalizing seen with
  | nil => exact inferInstanceAs (Decidable True)
  | cons g groups ih =>
    have := ih (g.sha :: seen)
    exact inferInstanceAs (Decidable (_ ∧ _))

def zeroName (s : Str) : Prop := s = List.replicate 40 '0' ∨ s = List.replicate 64 '0'
instance (s) : Decidable (zeroName s) := inferInstanceAs (Decidable (_ ∨ _))

def Group.commit (g : Group) : BlameCommit :=
  ⟨g.sha,g.authors.getLast?.getD [],(g.times.getLast?.getD 0 : Nat),g.summaries.getLast?.getD [],zeroName g.sha⟩

theorem zeroUncommitted {s : Str} (named : ObjectName s) : uncommitted s = decide (zeroName s) := by
  have some_ : s ≠ [] := by
    rintro rfl
    exact absurd named.1 (by decide)
  rw [Bool.eq_iff_iff,decide_eq_true_iff]
  constructor
  · intro zero
    have all : ∀ c ∈ s, c = '0' := by simpa [uncommitted,some_] using zero
    have whole : s = List.replicate s.length '0' := List.eq_replicate_of_mem all
    rcases named.1 with short | long
    · exact Or.inl (short ▸ whole)
    · exact Or.inr (long ▸ whole)
  · rintro (rfl | rfl) <;> decide

def described (seen : List Str) : List Group → List BlameCommit
  | [] => []
  | g :: groups => (if g.sha ∈ seen then [] else [g.commit]) ++ described (g.sha :: seen) groups

def attributed (groups : List Group) : List Str := groups.flatMap (fun g => List.replicate g.size g.sha)

theorem objectSolid {sha : Str} (named : ObjectName sha) : ∀ c ∈ sha, Solid c :=
  fun c member => solidBy (p := isHex) (by decide) (List.all_eq_true.mp named.2 c member)

theorem decimalSolid (n : Nat) : ∀ c ∈ decimal n, Solid c := fun c member => solidBy (by decide) (decimalDigit member)

theorem objectNonempty {sha : Str} (named : ObjectName sha) : sha ≠ [] := by
  intro empty
  rcases named.1 with len | len <;> simp [empty] at len

theorem headerFields {sha : Str} (named : ObjectName sha) (orig final : Nat) (count : Option Nat) :
    fields (headerText sha orig final count) = [sha,decimal orig,decimal final] ++ (count.map decimal).toList := by
  have shaSolid := objectSolid named
  have shaText := objectNonempty named
  cases count with
  | none =>
    rw [headerText,fieldsBlank shaSolid shaText,fieldsBlank (decimalSolid orig) (decimalNonempty orig),
      fieldsLast (decimalSolid final) (decimalNonempty final)]
    rfl
  | some count =>
    rw [headerText,fieldsBlank shaSolid shaText,fieldsBlank (decimalSolid orig) (decimalNonempty orig),
      fieldsBlank (decimalSolid final) (decimalNonempty final),fieldsLast (decimalSolid count) (decimalNonempty count)]
    rfl

theorem headerOfText {sha : Str} (named : ObjectName sha) (orig : Nat) {final : Nat} (count : Option Nat) (positive : 1 ≤ final)
    (small : final < 2 ^ 63) : headerOf (headerText sha orig final count) = some (sha,final) := by
  have third : ([sha,decimal orig,decimal final] ++ (count.map decimal).toList).getD 2 [] = decimal final := rfl
  have first : ([sha,decimal orig,decimal final] ++ (count.map decimal).toList).getD 0 [] = sha := rfl
  unfold headerOf
  rw [headerFields named]
  simp only [third,first,parseDecimal small]
  rw [if_neg (by simp [blameHeaderFields]),if_neg (by omega)]
  rfl

theorem headerUntabbed {sha : Str} (named : ObjectName sha) (orig final : Nat) (count : Option Nat) :
    (headerText sha orig final count).head? ≠ some '\t' := by
  obtain ⟨c,rest,whole⟩ := List.exists_cons_of_ne_nil (objectNonempty named)
  have hex := List.all_eq_true.mp named.2 c (by rw [whole]; exact List.mem_cons_self)
  have head : (headerText sha orig final count).head? = some c := by cases count <;> simp [headerText,whole]
  rw [head]
  intro tab
  rw [Option.some.inj tab] at hex
  revert hex
  decide

theorem textUntabbed {e : Extended} (wf : e.Wf) : e.text.head? ≠ some '\t' := by
  cases e with
  | author name => exact fun tab => absurd (Option.some.inj tab) (by decide)
  | authorTime seconds => exact fun tab => absurd (Option.some.inj tab) (by decide)
  | summary subject => exact fun tab => absurd (Option.some.inj tab) (by decide)
  | other line => exact wf.2.1

theorem quietColumn {limit : Nat} {c : Column} {entry : Str × Nat} (opened : c.entry = some entry) {raws : List Str}
    (quiet : ∀ raw ∈ raws, raw.head? ≠ some '\t') : raws.foldl (Column.read limit) c = c := by
  induction raws with
  | nil => rfl
  | cons raw raws ih =>
    have same : c.read limit raw = c := by
      unfold Column.read
      rw [if_neg (quiet raw List.mem_cons_self),opened]
    rw [List.foldl_cons,same,ih (fun other member => quiet other (List.mem_cons_of_mem _ member))]

theorem openedColumn {limit : Nat} {entries : List (Option Str)} {raw : Str} (untabbed : raw.head? ≠ some '\t') :
    Column.read limit ⟨entries,none⟩ raw = ⟨entries,headerOf raw⟩ := by
  unfold Column.read
  rw [if_neg untabbed]

theorem closedColumn {limit : Nat} {entries : List (Option Str)} {sha : Str} {line : Nat} (near : line ≤ limit) (content : Str) :
    Column.read limit ⟨entries,some (sha,line)⟩ ('\t' :: content) = ⟨place none entries line (some sha),none⟩ := by
  unfold Column.read Column.close
  rw [if_pos (by rfl)]
  simp only
  rw [if_neg (Nat.not_lt.mpr near)]

theorem lineColumn (limit : Nat) (entries : List (Option Str)) {sha : Str} (named : ObjectName sha) (orig : Nat) {final : Nat}
    (count : Option Nat) (positive : 1 ≤ final) (small : final < 2 ^ 63) (near : final ≤ limit) {quiet : List Str}
    (untabbed : ∀ raw ∈ quiet, raw.head? ≠ some '\t') (content : Str) (later : List Str) :
    (headerText sha orig final count :: (quiet ++ ('\t' :: content) :: later)).foldl (Column.read limit) ⟨entries,none⟩ =
      later.foldl (Column.read limit) ⟨place none entries final (some sha),none⟩ := by
  rw [List.foldl_cons,openedColumn (headerUntabbed named orig final count),headerOfText named orig count positive small,
    List.foldl_append,quietColumn rfl untabbed,List.foldl_cons,closedColumn near]

theorem restColumn {limit : Nat} {sha : Str} (named : ObjectName sha) {contents : List Str} {entries : List (Option Str)}
    (orig : Nat) {final : Nat} (positive : 1 ≤ final) (small : final + contents.length ≤ 2 ^ 63)
    (near : final + contents.length ≤ limit + 1) :
    (restLines sha orig final contents).foldl (Column.read limit) ⟨entries,none⟩ =
      ⟨placeAll entries final (List.replicate contents.length sha),none⟩ := by
  induction contents generalizing entries orig final with
  | nil => rfl
  | cons content contents ih =>
    rw [List.length_cons] at small near
    have line := lineColumn limit entries named orig none positive (by omega) (by omega)
      (List.forall_mem_nil _) content (restLines sha (orig + 1) (final + 1) contents)
    rw [List.nil_append] at line
    rw [restLines,line,ih _ (by omega) (by omega) (by omega)]
    rfl

theorem statedUntabbed {g : Group} (wf : g.Wf) : ∀ raw ∈ g.stated.map Extended.text, raw.head? ≠ some '\t' := by
  intro raw member
  obtain ⟨e,there,rfl⟩ := List.mem_map.mp member
  exact textUntabbed (wf.stated e there)

theorem groupColumn {limit : Nat} {g : Group} (wf : g.Wf) {entries : List (Option Str)} {final : Nat} (positive : 1 ≤ final)
    (small : final + g.size ≤ 2 ^ 63) (near : final + g.size ≤ limit + 1) :
    (g.lines final).foldl (Column.read limit) ⟨entries,none⟩ = ⟨placeAll entries final (List.replicate g.size g.sha),none⟩ := by
  unfold Group.size at small near
  rw [Group.lines,Group.body,lineColumn limit entries wf.named g.orig _ positive (by omega) (by omega) (statedUntabbed wf),
    restColumn wf.named _ (by omega) (by omega) (by omega)]
  rfl

theorem outputColumn (limit : Nat) {groups : List Group} (wf : ∀ g ∈ groups, g.Wf) (entries : List (Option Str)) (final : Nat)
    (positive : 1 ≤ final) (small : final + (attributed groups).length ≤ 2 ^ 63)
    (near : final + (attributed groups).length ≤ limit + 1) :
    (outputLines final groups).foldl (Column.read limit) ⟨entries,none⟩ = ⟨placeAll entries final (attributed groups),none⟩ := by
  induction groups generalizing entries final with
  | nil => rfl
  | cons g groups ih =>
    have whole : attributed (g :: groups) = List.replicate g.size g.sha ++ attributed groups := rfl
    rw [whole,List.length_append,List.length_replicate] at small near
    rw [outputLines,List.foldl_append,groupColumn (wf g List.mem_cons_self) positive (by omega) (by omega),
      ih (fun other member => wf other (List.mem_cons_of_mem _ member)) _ _ (by omega) (by omega) (by omega),whole,placeAllAppend,
      List.length_replicate]

theorem restLength (sha : Str) (contents : List Str) (orig final : Nat) :
    (restLines sha orig final contents).length = 2 * contents.length := by
  induction contents generalizing orig final with
  | nil => rfl
  | cons content contents ih =>
    rw [restLines,List.length_cons,List.length_cons,ih,List.length_cons]
    omega

theorem outputLength (groups : List Group) (final : Nat) : (attributed groups).length ≤ (outputLines final groups).length := by
  induction groups generalizing final with
  | nil => exact Nat.le_refl 0
  | cons g groups ih =>
    have whole : attributed (g :: groups) = List.replicate g.size g.sha ++ attributed groups := rfl
    have later := ih (final + g.size)
    rw [whole,outputLines,List.length_append,List.length_append,List.length_replicate,Group.lines,List.length_cons,
      Group.body,List.length_append,List.length_cons,restLength,Group.size]
    rw [Group.size] at later
    omega

theorem endedLines {raws : List Str} (whole : ∀ raw ∈ raws, '\n' ∉ raw) : (ended raws).count '\n' = raws.length := by
  induction raws with
  | nil => rfl
  | cons raw raws ih =>
    have later := ih (fun other member => whole other (List.mem_cons_of_mem _ member))
    rw [ended] at later
    rw [ended,List.flatMap_cons,List.count_append,List.count_append,later,
      List.count_eq_zero_of_not_mem (whole raw List.mem_cons_self),List.length_cons]
    simp only [List.count_singleton_self]
    omega

theorem endedLength (raws : List Str) : raws.length ≤ (ended raws).length := by
  induction raws with
  | nil => exact Nat.le_refl 0
  | cons raw raws ih =>
    rw [ended] at ih
    rw [ended,List.flatMap_cons,List.length_append,List.length_append,List.length_singleton,List.length_cons]
    omega

theorem headerWhole {sha : Str} (named : ObjectName sha) (orig final : Nat) (count : Option Nat) :
    '\n' ∉ headerText sha orig final count := by
  have hex : '\n' ∉ sha := fun member => absurd (List.all_eq_true.mp named.2 _ member) (by decide)
  have digit : ∀ n, '\n' ∉ decimal n := fun n member => absurd (decimalDigit member) (by decide)
  cases count <;> simp [headerText,hex,digit]

theorem textWhole {e : Extended} (wf : e.Wf) : '\n' ∉ e.text := by
  have digit : ∀ n, '\n' ∉ decimal n := fun n member => absurd (decimalDigit member) (by decide)
  have keys : '\n' ∉ blameAuthor ∧ '\n' ∉ blameAuthorTime ∧ '\n' ∉ blameSummary := by decide
  cases e with
  | author name =>
    have whole : '\n' ∉ name := wf
    simpa [Extended.text,keys.1] using whole
  | authorTime seconds => simp [Extended.text,keys.2.1,digit]
  | summary subject =>
    have whole : '\n' ∉ subject := wf
    simpa [Extended.text,keys.2.2] using whole
  | other line => exact wf.1

theorem restWhole {sha : Str} (named : ObjectName sha) {contents : List Str} (whole : ∀ content ∈ contents, '\n' ∉ content)
    (orig final : Nat) : ∀ raw ∈ restLines sha orig final contents, '\n' ∉ raw := by
  induction contents generalizing orig final with
  | nil => exact List.forall_mem_nil _
  | cons content contents ih =>
    obtain ⟨first,rest⟩ := List.forall_mem_cons.mp whole
    refine List.forall_mem_cons.mpr ⟨headerWhole named _ _ _,List.forall_mem_cons.mpr ⟨?_,ih rest _ _⟩⟩
    exact List.not_mem_cons_of_ne_of_not_mem (by decide) first

theorem linesWhole {g : Group} (wf : g.Wf) (final : Nat) : ∀ raw ∈ g.lines final, '\n' ∉ raw := by
  refine List.forall_mem_cons.mpr ⟨headerWhole wf.named _ _ _,List.forall_mem_append.mpr ⟨?_,List.forall_mem_cons.mpr ⟨?_,?_⟩⟩⟩
  · intro raw member
    obtain ⟨e,there,rfl⟩ := List.mem_map.mp member
    exact textWhole (wf.stated e there)
  · exact List.not_mem_cons_of_ne_of_not_mem (by decide) wf.content
  · exact restWhole wf.named wf.contents _ _

theorem outputWhole {groups : List Group} (wf : ∀ g ∈ groups, g.Wf) (final : Nat) :
    ∀ raw ∈ outputLines final groups, '\n' ∉ raw := by
  induction groups generalizing final with
  | nil => exact List.forall_mem_nil _
  | cons g groups ih =>
    obtain ⟨first,rest⟩ := List.forall_mem_cons.mp wf
    exact List.forall_mem_append.mpr ⟨linesWhole first final,ih rest _⟩

def onto (commit : BlameCommit) (stated : List Extended) : BlameCommit :=
  { commit with
    author := (stated.filterMap Extended.author?).getLast?.getD commit.author
    authorTime := ((stated.filterMap Extended.authorTime?).getLast?.map Int.ofNat).getD commit.authorTime
    summary := (stated.filterMap Extended.summary?).getLast?.getD commit.summary }

theorem toldOther {line : Str} (wf : (Extended.other line).Wf) (commit : BlameCommit) : commit.told line = commit := by
  unfold BlameCommit.told
  cases parts : cut ' ' line with
  | none => rfl
  | some pair =>
    have other := wf.2.2.2 pair.1 (by rw [parts]; rfl)
    simp only [List.mem_cons,not_or] at other
    simp only [BlameCommit.stated,if_neg other.1,if_neg other.2.1,if_neg other.2.2.1]

theorem toldText {e : Extended} (wf : e.Wf) (commit : BlameCommit) : commit.told e.text = onto commit [e] := by
  cases e with
  | author name =>
    rw [BlameCommit.told,Extended.text,cutPlain (by decide)]
    rfl
  | authorTime seconds =>
    rw [BlameCommit.told,Extended.text,cutPlain (by decide)]
    simp only [BlameCommit.stated,parseDecimal wf]
    rfl
  | summary subject =>
    rw [BlameCommit.told,Extended.text,cutPlain (by decide)]
    rfl
  | other line =>
    rw [Extended.text,toldOther wf]
    rfl

theorem ontoCons (commit : BlameCommit) (e : Extended) (stated : List Extended) :
    onto (onto commit [e]) stated = onto commit (e :: stated) := by
  cases e with
  | author name => simp [onto,Extended.author?,Extended.authorTime?,Extended.summary?,List.getLast?_cons]
  | authorTime seconds =>
    simp only [onto,Extended.author?,Extended.authorTime?,Extended.summary?,List.filterMap_cons,List.filterMap_nil,
      List.getLast?_cons]
    cases (stated.filterMap Extended.authorTime?).getLast? <;> simp
  | summary subject => simp [onto,Extended.author?,Extended.authorTime?,Extended.summary?,List.getLast?_cons]
  | other line => simp [onto,Extended.author?,Extended.authorTime?,Extended.summary?]

theorem toldAll {stated : List Extended} (wf : ∀ e ∈ stated, e.Wf) (commit : BlameCommit) :
    (stated.map Extended.text).foldl BlameCommit.told commit = onto commit stated := by
  induction stated generalizing commit with
  | nil => rfl
  | cons e stated ih =>
    obtain ⟨first,rest⟩ := List.forall_mem_cons.mp wf
    rw [List.map_cons,List.foldl_cons,ih rest,toldText first,ontoCons]

theorem ontoSilent {g : Group} (silent : g.authors = [] ∧ g.times = [] ∧ g.summaries = []) (commit : BlameCommit) :
    onto commit g.stated = commit := by
  obtain ⟨authors,times,summaries⟩ := silent
  unfold Group.authors at authors
  unfold Group.times at times
  unfold Group.summaries at summaries
  simp [onto,authors,times,summaries]

theorem ontoFresh {g : Group} (wf : g.Wf) : onto ⟨g.sha,[],0,[],uncommitted g.sha⟩ g.stated = g.commit := by
  rw [zeroUncommitted wf.named]
  unfold onto Group.commit Group.authors Group.times Group.summaries
  cases (g.stated.filterMap Extended.authorTime?).getLast? <;> rfl

theorem statedFold {p : Parser} (opened : p.inEntry = true) {raws : List Str} (untabbed : ∀ raw ∈ raws, raw.head? ≠ some '\t') :
    raws.foldl Parser.read p =
      { p with commits := p.commits.modify p.commitIndex (fun commit => raws.foldl BlameCommit.told commit) } := by
  induction raws generalizing p with
  | nil =>
    have same : p.commits.modify p.commitIndex (fun commit => commit) = p.commits := List.modify_id ..
    rw [List.foldl_nil]
    simp only [List.foldl_nil,same]
  | cons raw raws ih =>
    obtain ⟨first,rest⟩ := List.forall_mem_cons.mp untabbed
    have read : p.read raw = p.header raw := by
      unfold Parser.read
      rw [if_neg first,if_neg (by simp [opened])]
    rw [List.foldl_cons,read,ih (p := p.header raw) opened rest]
    simp only [Parser.header,Parser.commitIndex,List.modify_modify_eq]
    rfl

theorem contentFold {p : Parser} (content : Str) (later : List Str) :
    (('\t' :: content) :: later).foldl Parser.read p = later.foldl Parser.read p.close := by
  rw [List.foldl_cons]
  unfold Parser.read
  rw [if_pos (by rfl)]

theorem closeCommits (p : Parser) : p.close.commits = p.commits ∧ p.close.inEntry = false := by
  unfold Parser.close
  split
  · next down => exact ⟨rfl,by simpa using down⟩
  · split <;> exact ⟨rfl,rfl⟩

theorem modifySnoc {α : Type*} (f : α → α) (l : List α) (a : α) : (l ++ [a]).modify l.length f = l ++ [f a] := by
  induction l with
  | nil => rfl
  | cons b l ih => rw [List.cons_append,List.length_cons,List.modify_succ_cons,ih]; rfl

/-- The commits after one line of the file: a known one takes what is stated, a new one is registered with it. -/
theorem lineCommits {p : Parser} (sound : Sound p) (closed : p.inEntry = false) {raw sha : Str} {line : Nat}
    (untabbed : raw.head? ≠ some '\t') (header : headerOf raw = some (sha,line)) {quiet : List Str}
    (silent : ∀ raw ∈ quiet, raw.head? ≠ some '\t') (content : Str) :
    ((raw :: (quiet ++ [('\t' :: content)])).foldl Parser.read p).inEntry = false ∧
      (sha ∈ shas p.commits → ∃ i, ((raw :: (quiet ++ [('\t' :: content)])).foldl Parser.read p).commits =
        p.commits.modify i (fun commit => quiet.foldl BlameCommit.told commit)) ∧
      (sha ∉ shas p.commits → ((raw :: (quiet ++ [('\t' :: content)])).foldl Parser.read p).commits =
        p.commits ++ [quiet.foldl BlameCommit.told ⟨sha,[],0,[],uncommitted sha⟩]) := by
  have read : p.read raw = p.open_ raw := by
    unfold Parser.read
    rw [if_neg untabbed,if_pos (by simp [closed])]
  have opened : (p.open_ raw).inEntry = true := by
    unfold Parser.open_
    rw [header]
    dsimp only
    split <;> rfl
  rw [List.foldl_cons,read,List.foldl_append,statedFold opened silent,contentFold,List.foldl_nil]
  refine ⟨(closeCommits _).2,fun known => ⟨(p.open_ raw).commitIndex,?_⟩,fun fresh => ?_⟩
  · rw [(closeCommits _).1]
    have same : (p.open_ raw).commits = p.commits := by
      unfold Parser.open_
      rw [header]
      simp only [sound.known.mpr known,if_true]
    simp only [same]
  · rw [(closeCommits _).1]
    have grown : (p.open_ raw).commits = p.commits ++ [⟨sha,[],0,[],uncommitted sha⟩] ∧
        (p.open_ raw).commitIndex = p.commits.length := by
      have absent : (p.index.lookup sha).isSome = false := by
        rw [Bool.eq_false_iff]
        exact fun found => fresh (sound.known.mp found)
      have after := registeredAt sound fresh sha p.commits.length
      rw [snocAt] at after
      have at_ := after.mpr (.inr ⟨rfl,(List.length_map ..).symm⟩)
      unfold Parser.commitIndex Parser.open_
      rw [header]
      simp only [absent]
      exact ⟨rfl,by simp [at_]⟩
    simp only [grown.1,grown.2]
    exact modifySnoc _ _ _

theorem restCommits {sha : Str} (named : ObjectName sha) {contents : List Str} {p : Parser} (sound : Sound p)
    (closed : p.inEntry = false) (known : sha ∈ shas p.commits) (orig : Nat) {final : Nat} (positive : 1 ≤ final)
    (small : final + contents.length ≤ 2 ^ 63) :
    ((restLines sha orig final contents).foldl Parser.read p).inEntry = false ∧
      ((restLines sha orig final contents).foldl Parser.read p).commits = p.commits := by
  induction contents generalizing p orig final with
  | nil => exact ⟨closed,rfl⟩
  | cons content contents ih =>
    rw [List.length_cons] at small
    obtain ⟨still,kept,-⟩ := lineCommits sound closed (headerUntabbed named orig final none)
      (headerOfText named orig none positive (by omega)) (List.forall_mem_nil _) content
    obtain ⟨i,same⟩ := kept known
    have unchanged : ([headerText sha orig final none,'\t' :: content].foldl Parser.read p).commits = p.commits :=
      same.trans (List.modify_id ..)
    have rest := ih (foldSound sound _) still (unchanged.symm ▸ known) (orig + 1) (by omega : 1 ≤ final + 1) (by omega)
    exact ⟨rest.1,rest.2.trans unchanged⟩

theorem groupCommits {g : Group} (wf : g.Wf) {p : Parser} (sound : Sound p) (closed : p.inEntry = false) {final : Nat}
    (positive : 1 ≤ final) (small : final + g.size ≤ 2 ^ 63)
    (silent : g.sha ∈ shas p.commits → g.authors = [] ∧ g.times = [] ∧ g.summaries = []) :
    ((g.lines final).foldl Parser.read p).inEntry = false ∧
      ((g.lines final).foldl Parser.read p).commits = if g.sha ∈ shas p.commits then p.commits else p.commits ++ [g.commit] := by
  unfold Group.size at small
  obtain ⟨still,kept,fresh⟩ := lineCommits sound closed (headerUntabbed wf.named g.orig final (some g.size))
    (headerOfText wf.named g.orig (some g.size) positive (by omega)) (statedUntabbed wf) g.content
  have first : ((headerText g.sha g.orig final (some g.size) ::
      (g.stated.map Extended.text ++ [('\t' :: g.content)])).foldl Parser.read p).commits =
        if g.sha ∈ shas p.commits then p.commits else p.commits ++ [g.commit] := by
    split
    · next known =>
      obtain ⟨i,same⟩ := kept known
      have idle : (fun commit => (g.stated.map Extended.text).foldl BlameCommit.told commit) = id :=
        funext (fun commit => (toldAll wf.stated commit).trans (ontoSilent (silent known) commit))
      rw [same,idle,List.modify_id]
    · next new => rw [fresh new,toldAll wf.stated,ontoFresh wf]
  have known : g.sha ∈ shas ((headerText g.sha g.orig final (some g.size) ::
      (g.stated.map Extended.text ++ [('\t' :: g.content)])).foldl Parser.read p).commits := by
    rw [first]
    split
    · assumption
    · exact List.mem_map.mpr ⟨g.commit,List.mem_append_right _ List.mem_cons_self,rfl⟩
  have rest := restCommits wf.named (foldSound sound _) still known (g.orig + 1) (by omega : 1 ≤ final + 1)
    (by omega : final + 1 + g.contents.length ≤ 2 ^ 63)
  have whole : g.lines final = (headerText g.sha g.orig final (some g.size) ::
      (g.stated.map Extended.text ++ [('\t' :: g.content)])) ++ restLines g.sha (g.orig + 1) (final + 1) g.contents := by
    simp [Group.lines,Group.body]
  rw [whole,List.foldl_append]
  exact ⟨rest.1,rest.2.trans first⟩

theorem outputCommits {groups : List Group} (wf : ∀ g ∈ groups, g.Wf) {seen : List Str} (told : Told seen groups) {p : Parser}
    (sound : Sound p) (closed : p.inEntry = false) (known : ∀ sha, sha ∈ seen ↔ sha ∈ shas p.commits) {final : Nat}
    (positive : 1 ≤ final) (small : final + (attributed groups).length ≤ 2 ^ 63) :
    ((outputLines final groups).foldl Parser.read p).inEntry = false ∧
      ((outputLines final groups).foldl Parser.read p).commits = p.commits ++ described seen groups := by
  induction groups generalizing seen p final with
  | nil => exact ⟨closed,(List.append_nil _).symm⟩
  | cons g groups ih =>
    obtain ⟨first,rest⟩ := List.forall_mem_cons.mp wf
    have whole : attributed (g :: groups) = List.replicate g.size g.sha ++ attributed groups := rfl
    rw [whole,List.length_append,List.length_replicate] at small
    have silent : g.sha ∈ shas p.commits → g.authors = [] ∧ g.times = [] ∧ g.summaries = [] := fun member => by
      simpa [(known g.sha).mpr member] using told.1
    obtain ⟨still,commits⟩ := groupCommits first sound closed positive (by omega) silent
    have seenAfter : ∀ sha, sha ∈ g.sha :: seen ↔ sha ∈ shas ((g.lines final).foldl Parser.read p).commits := by
      intro sha
      rw [commits,List.mem_cons,known]
      split
      · next old => exact ⟨fun h => h.elim (fun same => same ▸ old) id,.inr⟩
      · simp [shas,Group.commit,or_comm]
    have later := ih rest told.2 (foldSound sound _) still seenAfter (by omega : 1 ≤ final + g.size) (by omega)
    rw [outputLines,List.foldl_append]
    refine ⟨later.1,later.2.trans ?_⟩
    rw [commits,described]
    by_cases old : g.sha ∈ seen
    · rw [if_pos ((known g.sha).mp old),if_pos old,List.nil_append]
    · rw [if_neg (fun member => old ((known g.sha).mpr member)),if_neg old,List.append_assoc]

theorem splitEnded {raws : List Str} (whole : ∀ raw ∈ raws, '\n' ∉ raw) : (ended raws).splitOn '\n' = raws ++ [[]] :=
  splitTerminated whole

theorem emptyRead (c : Column) (limit : Nat) (closed : c.entry = none) : c.read limit [] = c := by
  unfold Column.read
  rw [if_neg (by decide),closed]
  obtain ⟨entries,entry⟩ := c
  cases closed
  rfl

theorem emptyCommits {p : Parser} (closed : p.inEntry = false) : p.read [] = p := by
  unfold Parser.read
  rw [if_neg (by decide),if_pos (by simp [closed])]
  rfl

theorem encodedFits {groups : List Group} (wf : ∀ g ∈ groups, g.Wf) (small : (encode groups).length < 2 ^ 63) :
    1 + (attributed groups).length ≤ 2 ^ 63 ∧ (attributed groups).length ≤ (encode groups).count '\n' := by
  have lines := outputLength groups 1
  have length := endedLength (outputLines 1 groups)
  have count := endedLines (outputWhole wf 1)
  rw [encode] at small ⊢
  exact ⟨by omega,by omega⟩

theorem encodedColumn {groups : List Group} (wf : ∀ g ∈ groups, g.Wf) (small : (encode groups).length < 2 ^ 63) :
    (((encode groups).splitOn '\n').foldl Parser.read (parser (encode groups))).column = ⟨(attributed groups).map some,none⟩ := by
  obtain ⟨few,near⟩ := encodedFits wf small
  rw [foldColumn (parserSound _),encode,splitEnded (outputWhole wf 1),List.foldl_append]
  have lines := outputColumn (parser (encode groups)).limit wf [] 1 (Nat.le_refl 1) few (by
    simp only [parser]
    omega)
  have next := placeAllNext [] (attributed groups)
  rw [List.length_nil,Nat.zero_add,List.nil_append] at next
  rw [next,encode] at lines
  rw [show (parser (ended (outputLines 1 groups))).column = ⟨[],none⟩ from rfl,lines,List.foldl_cons,List.foldl_nil]
  exact emptyRead ⟨_,none⟩ _ rfl

theorem encodedCommits {groups : List Group} (wf : ∀ g ∈ groups, g.Wf) (told : Told [] groups)
    (small : (encode groups).length < 2 ^ 63) : (parseBlame (encode groups)).commits = described [] groups := by
  obtain ⟨few,-⟩ := encodedFits wf small
  have commits := outputCommits wf told (parserSound (encode groups)) rfl (fun sha => by simp [parser,shas]) (Nat.le_refl 1) few
  rw [parseBlame,show (encode groups).splitOn '\n' = outputLines 1 groups ++ [[]] from splitEnded (outputWhole wf 1)]
  rw [List.foldl_append,List.foldl_cons,emptyCommits commits.1]
  exact commits.2.trans (List.nil_append _)

theorem lineNamed {commits : List BlameCommit} {e : Int} {sha : Str} (named : shaOf commits e = some sha) :
    ∃ (i : Nat) (commit : BlameCommit), e = i ∧ commits[i]? = some commit ∧ commit.sha = sha := by
  unfold shaOf at named
  split at named
  · contradiction
  · next positive =>
    rw [shas,List.getElem?_map,Option.map_eq_some_iff] at named
    obtain ⟨commit,at_,same⟩ := named
    exact ⟨e.toNat,commit,by omega,at_,same⟩

theorem blameReadsBack :
    (∀ groups : List Group, (∀ g ∈ groups, g.Wf) → Told [] groups → (encode groups).length < 2 ^ 63 →
      (parseBlame (encode groups)).commits = described [] groups ∧
      (parseBlame (encode groups)).lines.length = (attributed groups).length ∧
      ∀ (k : Nat) (sha : Str), (attributed groups)[k]? = some sha → ∃ (i : Nat) (commit : BlameCommit),
        (parseBlame (encode groups)).lines[k]? = some (i : Int) ∧ (described [] groups)[i]? = some commit ∧ commit.sha = sha) ∧
    ∀ out : Str,
      (∀ e ∈ (parseBlame out).lines, e = unattributed ∨ ∃ i : Nat, e = i ∧ i < (parseBlame out).commits.length) ∧
      (parseBlame out).lines.length ≤ out.count '\n' + 1 ∧
      ((parseBlame out).commits.map BlameCommit.sha).Nodup := by
  refine ⟨fun groups wf told small => ?_,readBounds⟩
  have commits := encodedCommits wf told small
  have column : (parseBlame (encode groups)).lines.map (shaOf (parseBlame (encode groups)).commits) =
      (attributed groups).map some := congrArg Column.entries (encodedColumn wf small)
  refine ⟨commits,by simpa using congrArg List.length column,fun k sha at_ => ?_⟩
  have there : ((parseBlame (encode groups)).lines.map (shaOf (parseBlame (encode groups)).commits))[k]? = some (some sha) := by
    rw [column,List.getElem?_map,at_]
    rfl
  rw [List.getElem?_map,Option.map_eq_some_iff] at there
  obtain ⟨e,line,named⟩ := there
  obtain ⟨i,commit,rfl,found,same⟩ := lineNamed named
  exact ⟨i,commit,line,commits ▸ found,same⟩

def ann : Str := List.replicate 40 'a'
def bob : Str := List.replicate 40 'b'

def shared : List Group :=
  [⟨ann,1,[.author "Ann".toList,.authorTime 7,.summary "start".toList,.other "filename f".toList],"x".toList,[]⟩,
    ⟨bob,1,[.author "Bob".toList,.authorTime 9,.summary "author Eve".toList,.other "boundary".toList],"y".toList,["x".toList]⟩,
    ⟨ann,2,[.other "filename f".toList],"z".toList,[]⟩]

theorem sharedReadBack : (parseBlame (encode shared)).commits =
    [⟨ann,"Ann".toList,7,"start".toList,false⟩,⟨bob,"Bob".toList,9,"author Eve".toList,false⟩] := by
  rw [(blameReadsBack.1 shared (by decide +kernel) (by decide +kernel) (by decide +kernel)).1]
  decide

end M6t.GitBlameFormat
