import M6t.EditorBlame
import M6t.TextChanges

/-! What git's attribution draws in the editor: an entry for every line, a band on every line that
is in no commit, and the anchors that keep both on the right lines while the buffer is edited.
CodeMirror's mapping of positions is a parameter. -/
namespace M6t.BlameGutter
open M6t.TextChanges
open M6t.EditorBlame (Blame BlameCommit commitAt)

abbrev Doc := List UInt16
abbrev ChangeSet := List (Section UInt16)
def NEWLINE : UInt16 := 10

structure BlameAnchor where
  text : Doc
  marker : BlameCommit
  deriving DecidableEq, Repr

structure BlameMarks where
  installed : Bool
  anchors : List (Nat × BlameAnchor)
  entries : List (Nat × BlameCommit)
  bands : List Nat
  deriving DecidableEq, Repr

def NO_MARKS : BlameMarks := ⟨false,[],[],[]⟩
def UNCOMMITTED : BlameCommit := ⟨[],[],0,[],true⟩

def accountedFor (anchors : List (Nat × BlameAnchor)) (line : Line UInt16) : Option BlameCommit :=
  match anchors.lookup line.start with
  | some anchor => if anchor.text = line.text then some anchor.marker else none
  | none => none

def isTerminator (line : Line UInt16) (doc : Doc) : Bool :=
  line.text.length = 0 ∧ line.number = (linesOf NEWLINE doc).length

def content (doc : Doc) : List (Line UInt16) := (linesOf NEWLINE doc).filter (fun line => !isTerminator line doc)

def drawn (installed : Bool) (anchors : List (Nat × BlameAnchor)) (doc : Doc) : BlameMarks :=
  let lines := if installed then content doc else []
  { installed
    anchors
    entries := lines.map (fun line => (line.start,(accountedFor anchors line).getD UNCOMMITTED))
    bands := (lines.filter (fun line => accountedFor anchors line = none)).map Line.start }

def anchorLine (blame : Blame) (anchors : List (Nat × BlameAnchor)) (line : Line UInt16) : List (Nat × BlameAnchor) :=
  match commitAt blame line.number with
  | none => anchors
  | some commit => if commit.uncommitted then anchors else Records.put anchors line.start ⟨line.text,commit⟩

def marksFor (blame : Option Blame) (doc : Doc) : BlameMarks :=
  match blame with
  | none => NO_MARKS
  | some blame =>
    let lines := linesOf NEWLINE doc
    drawn true ((lines.take (min blame.lines.length lines.length)).foldl (anchorLine blame) []) doc

def keepBest (anchors : List (Nat × BlameAnchor)) (at_ : Nat) (anchor : BlameAnchor) (text : Doc) : List (Nat × BlameAnchor) :=
  match anchors.lookup at_ with
  | none => Records.put anchors at_ anchor
  | some held => if held.text ≠ text ∧ anchor.text = text then Records.put anchors at_ anchor else anchors

abbrev MapPos := ChangeSet → Nat → Option Nat

def moveAnchor (mapPos : MapPos) (changes : ChangeSet) (doc : Doc) (moved : List (Nat × BlameAnchor))
    (entry : Nat × BlameAnchor) : List (Nat × BlameAnchor) :=
  match mapPos changes entry.1 with
  | none => moved
  | some landed =>
    let line := lineAt NEWLINE doc landed
    keepBest moved line.start entry.2 line.text

def movedAnchors (mapPos : MapPos) (anchors : List (Nat × BlameAnchor)) (changes : ChangeSet) (doc : Doc) :
    List (Nat × BlameAnchor) :=
  anchors.foldl (moveAnchor mapPos changes doc) []

/-- Of the effects only those that set the marks are here. -/
structure Transaction where
  effects : List (Option Blame)
  changes : ChangeSet
  deriving DecidableEq, Repr

def Transaction.docChanged (transaction : Transaction) : Bool := transaction.changes.any replaces

structure Editor where
  doc : Doc
  marks : BlameMarks
  deriving DecidableEq, Repr

def update (mapPos : MapPos) (editor : Editor) (transaction : Transaction) : BlameMarks :=
  let doc := apply transaction.changes editor.doc
  match transaction.effects with
  | blame :: _ => marksFor blame doc
  | [] =>
    if transaction.docChanged then
      drawn editor.marks.installed (movedAnchors mapPos editor.marks.anchors transaction.changes doc) doc
    else editor.marks

def Editor.dispatch (mapPos : MapPos) (editor : Editor) (transaction : Transaction) : Editor :=
  ⟨apply transaction.changes editor.doc,update mapPos editor transaction⟩

def blamed (blame : Blame) (doc : Doc) : Editor := ⟨doc,marksFor (some blame) doc⟩

def Editor.edit (mapPos : MapPos) (editor : Editor) (changes : ChangeSet) : Editor := editor.dispatch mapPos ⟨[],changes⟩

def Editor.edits (mapPos : MapPos) (editor : Editor) (all : List ChangeSet) : Editor := all.foldl (Editor.edit mapPos) editor

/-- What CodeMirror says of a position that belongs to the element after it and whose deletion is told. -/
structure Documented (mapPos : MapPos) : Prop where
  crossed : ∀ changes pos, Crossed changes pos → mapPos changes pos = none
  forward : ∀ changes pos, ¬Crossed changes pos → mapPos changes pos = some (moved changes pos)

variable {mapPos : MapPos} {anchors : List (Nat × BlameAnchor)} {doc : Doc} {line : Line UInt16}

theorem contentMember : line ∈ content doc ↔ line ∈ linesOf NEWLINE doc ∧ isTerminator line doc = false := by
  rw [content,List.mem_filter,Bool.not_eq_true']

theorem entryShown (member : line ∈ content doc) (commit : BlameCommit) :
    (line.start,commit) ∈ (drawn true anchors doc).entries ↔ commit = (accountedFor anchors line).getD UNCOMMITTED := by
  constructor
  · intro shown
    obtain ⟨other,member',same⟩ := List.mem_map.mp shown
    have at_ := sameStart (contentMember.mp member').1 (contentMember.mp member).1 (congrArg Prod.fst same)
    rw [← at_]
    exact (congrArg Prod.snd same).symm
  · rintro rfl
    exact List.mem_map.mpr ⟨line,member,rfl⟩

theorem entriesDrawn : (drawn true anchors doc).entries.map Prod.fst = (content doc).map Line.start := by
  rw [drawn]
  simp only [if_true,List.map_map]
  rfl

theorem startsOnce (doc : Doc) : ((content doc).map Line.start).Nodup := by
  have ordered : (linesOf NEWLINE doc).Pairwise (fun a b => a.start < b.start) := fromOrdered _ _ _
  exact List.pairwise_map.mpr ((ordered.filter _).imp Nat.ne_of_lt)

def Truthful (blame : Blame) (doc : Doc) (anchors : List (Nat × BlameAnchor)) : Prop :=
  ∀ entry ∈ anchors, entry.2.marker.uncommitted = false ∧
    ∃ line ∈ linesOf NEWLINE doc, line.text = entry.2.text ∧ commitAt blame line.number = some entry.2.marker

theorem lookupHeld {at_ : Nat} {anchor : BlameAnchor} (found : anchors.lookup at_ = some anchor) : (at_,anchor) ∈ anchors := by
  obtain ⟨front,back,rfl,-⟩ := List.lookup_eq_some_iff.mp found
  exact List.mem_append_right _ List.mem_cons_self

theorem putMember {at_ : Nat} {anchor : BlameAnchor} {entry : Nat × BlameAnchor}
    (member : entry ∈ Records.put anchors at_ anchor) : entry ∈ anchors ∨ entry = (at_,anchor) := by
  unfold Records.put at member
  split at member
  · obtain ⟨other,there,rfl⟩ := List.mem_map.mp member
    split
    · exact .inr rfl
    · exact .inl there
  · exact (List.mem_append.mp member).imp id List.mem_singleton.mp

theorem accountedHeld {commit : BlameCommit} (named : accountedFor anchors line = some commit) :
    ∃ anchor, (line.start,anchor) ∈ anchors ∧ anchor.text = line.text ∧ anchor.marker = commit := by
  unfold accountedFor at named
  split at named
  · next anchor found =>
    split at named
    · next reads => exact ⟨anchor,lookupHeld found,reads,Option.some.inj named⟩
    · exact absurd named nofun
  · exact absurd named nofun

theorem accountedCommitted {blame : Blame} {measured : Doc} (truthful : Truthful blame measured anchors) {commit : BlameCommit}
    (named : accountedFor anchors line = some commit) : commit ≠ UNCOMMITTED := by
  obtain ⟨anchor,held,-,rfl⟩ := accountedHeld named
  intro same
  have committed := (truthful _ held).1
  rw [same] at committed
  exact absurd committed (by decide)

theorem commitShown (member : line ∈ content doc) {commit : BlameCommit} (known : commit ≠ UNCOMMITTED) :
    (line.start,commit) ∈ (drawn true anchors doc).entries ↔ accountedFor anchors line = some commit := by
  rw [entryShown member]
  cases named : accountedFor anchors line with
  | none => exact ⟨fun same => absurd same known,nofun⟩
  | some other => exact ⟨fun same => congrArg some same.symm,fun same => (Option.some.inj same).symm⟩

theorem bandShown {blame : Blame} {measured : Doc} (truthful : Truthful blame measured anchors) (at_ : Nat) :
    at_ ∈ (drawn true anchors doc).bands ↔ (at_,UNCOMMITTED) ∈ (drawn true anchors doc).entries := by
  have own : ∀ line, accountedFor anchors line = none ↔ (accountedFor anchors line).getD UNCOMMITTED = UNCOMMITTED := fun line => by
    cases named : accountedFor anchors line with
    | none => exact ⟨fun _ => rfl,fun _ => rfl⟩
    | some commit => exact ⟨nofun,fun same => absurd same (accountedCommitted truthful named)⟩
  rw [drawn]
  simp only [if_true,List.mem_map,List.mem_filter,decide_eq_true_eq,own,Prod.mk.injEq,and_assoc]
  exact exists_congr (fun line => and_congr_right (fun _ => and_comm))

theorem walkLookup {blame : Blame} (lines : List (Line UInt16)) (anchors : List (Nat × BlameAnchor))
    (apart : lines.Pairwise (fun a b => a.start < b.start)) (member : line ∈ lines) {commit : BlameCommit}
    (named : commitAt blame line.number = some commit) (committed : commit.uncommitted = false) :
    (lines.foldl (anchorLine blame) anchors).lookup line.start = some ⟨line.text,commit⟩ := by
  have elsewhere : ∀ (rest : List (Line UInt16)) anchors, (∀ other ∈ rest, line.start ≠ other.start) →
      (rest.foldl (anchorLine blame) anchors).lookup line.start = anchors.lookup line.start := by
    intro rest
    induction rest with
    | nil => exact fun _ _ => rfl
    | cons other rest ih =>
      intro anchors away
      rw [List.foldl_cons,ih _ (fun other member => away other (List.mem_cons_of_mem _ member)),anchorLine]
      split
      · rfl
      · split
        · rfl
        · rw [Records.lookupPut,if_neg (away other List.mem_cons_self)]
  induction lines generalizing anchors with
  | nil => exact absurd member List.not_mem_nil
  | cons first lines ih =>
    obtain ⟨later,rest⟩ := List.pairwise_cons.mp apart
    rcases List.mem_cons.mp member with rfl | inside
    · rw [List.foldl_cons,elsewhere lines _ (fun other there => Nat.ne_of_lt (later other there)),anchorLine,named]
      simp only [committed,Bool.false_eq_true,if_false]
      rw [Records.lookupPut,if_pos rfl]
    · exact ih _ rest inside

theorem walkTruthful {blame : Blame} (lines : List (Line UInt16)) (within : ∀ line ∈ lines, line ∈ linesOf NEWLINE doc)
    (truthful : Truthful blame doc anchors) : Truthful blame doc (lines.foldl (anchorLine blame) anchors) := by
  induction lines generalizing anchors with
  | nil => exact truthful
  | cons first lines ih =>
    refine ih (fun line member => within line (List.mem_cons_of_mem _ member)) ?_
    intro entry member
    rw [anchorLine] at member
    split at member
    · exact truthful entry member
    · next commit named =>
      split at member
      · exact truthful entry member
      · next committed =>
        rcases putMember member with old | rfl
        · exact truthful entry old
        · exact ⟨Bool.not_eq_true _ ▸ committed,first,within first List.mem_cons_self,rfl,named⟩

theorem blamedTruthful (blame : Blame) (doc : Doc) : Truthful blame doc (blamed blame doc).marks.anchors :=
  walkTruthful _ (fun _ member => List.mem_of_mem_take member) (fun _ none_ => absurd none_ List.not_mem_nil)

theorem blamedLookup {blame : Blame} (member : line ∈ linesOf NEWLINE doc) {commit : BlameCommit}
    (named : commitAt blame line.number = some commit) (committed : commit.uncommitted = false) :
    (blamed blame doc).marks.anchors.lookup line.start = some ⟨line.text,commit⟩ := by
  have ordered : (linesOf NEWLINE doc).Pairwise (fun a b => a.start < b.start) := fromOrdered _ _ _
  refine walkLookup _ _ (ordered.sublist (List.take_sublist _ _)) ?_ named committed
  obtain ⟨i,inside,there⟩ := List.mem_iff_getElem.mp member
  have number : line.number = 1 + i := fromNumber (List.getElem?_eq_some_iff.mpr ⟨inside,there⟩)
  have counted : line.number ≤ blame.lines.length := by
    unfold commitAt at named
    split at named
    · exact absurd named nofun
    · omega
  refine List.mem_iff_getElem.mpr ⟨i,?_,?_⟩
  · rw [List.length_take]
    omega
  · rw [List.getElem_take]
    exact there

def landing (mapPos : MapPos) (anchors : List (Nat × BlameAnchor)) (changes : ChangeSet) (doc : Doc) (line : Line UInt16) :
    List (Nat × BlameAnchor) :=
  anchors.filter (fun entry => (mapPos changes entry.1).map (lineAt NEWLINE doc) = some line)

/-- The anchor a line is left with: the first that reads it, or else the first. -/
def bestOf (text : Doc) (anchors : List BlameAnchor) : Option BlameAnchor :=
  (anchors.find? (fun anchor => anchor.text = text)).or anchors.head?

theorem keepBestLookup (at_ key : Nat) (anchor : BlameAnchor) (text : Doc) :
    (keepBest anchors at_ anchor text).lookup key =
      if key = at_ then bestOf text ((anchors.lookup at_).toList ++ [anchor]) else anchors.lookup key := by
  unfold keepBest bestOf
  cases found : anchors.lookup at_ with
  | none =>
    rw [Records.lookupPut]
    by_cases reads : anchor.text = text <;> simp [reads]
  | some held =>
    by_cases here : key = at_
    · subst here
      by_cases kept : held.text = text
      · simp [kept,found]
      · by_cases reads : anchor.text = text <;> simp [kept,reads,found,Records.lookupPut]
    · simp only [here,if_false]
      split
      · rw [Records.lookupPut,if_neg here]
      · rfl

theorem bestStep (text : Doc) (held : Option BlameAnchor) (anchor : BlameAnchor) (rest : List BlameAnchor) :
    bestOf text ((bestOf text (held.toList ++ [anchor])).toList ++ rest) = bestOf text (held.toList ++ anchor :: rest) := by
  unfold bestOf
  cases held with
  | none => by_cases reads : anchor.text = text <;> simp [reads]
  | some held => by_cases kept : held.text = text <;> by_cases reads : anchor.text = text <;> simp [kept,reads]

theorem moveLookup {changes : ChangeSet} (member : line ∈ linesOf NEWLINE doc) (moved : List (Nat × BlameAnchor)) :
    (anchors.foldl (moveAnchor mapPos changes doc) moved).lookup line.start =
      bestOf line.text ((moved.lookup line.start).toList ++ (landing mapPos anchors changes doc line).map Prod.snd) := by
  induction anchors generalizing moved with
  | nil =>
    rw [List.foldl_nil]
    cases moved.lookup line.start with
    | none => rfl
    | some held => by_cases reads : held.text = line.text <;> simp [landing,bestOf,reads]
  | cons entry anchors ih =>
    rw [List.foldl_cons,ih,moveAnchor,landing,landing]
    cases sent : mapPos changes entry.1 with
    | none => rw [List.filter_cons_of_neg (by simp [sent])]
    | some pos =>
      simp only
      rw [keepBestLookup]
      by_cases here : lineAt NEWLINE doc pos = line
      · rw [List.filter_cons_of_pos (by simp [sent,here]),here,if_pos rfl,List.map_cons,bestStep]
      · have apart : line.start ≠ (lineAt NEWLINE doc pos).start := fun same =>
          here (sameStart (lineAtMember pos) member same.symm)
        rw [List.filter_cons_of_neg (by simp [sent,here]),if_neg apart]

theorem movedLookup {changes : ChangeSet} (member : line ∈ linesOf NEWLINE doc) :
    (movedAnchors mapPos anchors changes doc).lookup line.start =
      bestOf line.text ((landing mapPos anchors changes doc line).map Prod.snd) := by
  rw [movedAnchors,moveLookup member]
  rfl

theorem movedAccounted {changes : ChangeSet} (member : line ∈ linesOf NEWLINE doc) :
    accountedFor (movedAnchors mapPos anchors changes doc) line =
      ((landing mapPos anchors changes doc line).find? (fun entry => entry.2.text = line.text)).map (fun entry => entry.2.marker) := by
  unfold accountedFor
  rw [movedLookup member,bestOf]
  have reading : ((landing mapPos anchors changes doc line).map Prod.snd).find? (fun anchor => anchor.text = line.text) =
      ((landing mapPos anchors changes doc line).find? (fun entry => entry.2.text = line.text)).map Prod.snd := List.find?_map
  rw [reading]
  cases found : (landing mapPos anchors changes doc line).find? (fun entry => entry.2.text = line.text) with
  | some entry =>
    have reads : entry.2.text = line.text := by simpa using List.find?_some found
    simp [reads]
  | none =>
    cases first : ((landing mapPos anchors changes doc line).map Prod.snd).head? with
    | none => rfl
    | some anchor =>
      obtain ⟨entry,there,rfl⟩ := List.mem_map.mp (List.mem_of_head? first)
      have other := List.find?_eq_none.mp found entry there
      simp at other
      simp [other]

theorem moveTruthful {blame : Blame} {measured : Doc} {changes : ChangeSet} (truthful : Truthful blame measured anchors)
    (moved : List (Nat × BlameAnchor)) (so_far : Truthful blame measured moved) :
    Truthful blame measured (anchors.foldl (moveAnchor mapPos changes doc) moved) := by
  induction anchors generalizing moved with
  | nil => exact so_far
  | cons entry anchors ih =>
    refine ih (fun other member => truthful other (List.mem_cons_of_mem _ member)) _ ?_
    have own := truthful entry List.mem_cons_self
    have put_ : ∀ at_, Truthful blame measured (Records.put moved at_ entry.2) := fun at_ other member => by
      rcases putMember member with old | rfl
      · exact so_far other old
      · exact own
    unfold moveAnchor keepBest
    split
    · exact so_far
    · simp only
      split
      · exact put_ _
      · split
        · exact put_ _
        · exact so_far

def movedAll (all : List ChangeSet) (at_ : Nat) : Nat := all.foldl (fun at_ changes => moved changes at_) at_

def SparedAll (len : Nat) : Nat → List ChangeSet → Prop
  | _,[] => True
  | at_,changes :: all => Spares changes at_ (at_ + len) ∧ SparedAll len (moved changes at_) all

instance sparedDecidable (len : Nat) : (at_ : Nat) → (all : List ChangeSet) → Decidable (SparedAll len at_ all)
  | _,[] => .isTrue trivial
  | at_,changes :: all =>
    have := sparedDecidable len (moved changes at_) all
    inferInstanceAs (Decidable (Spares changes at_ (at_ + len) ∧ SparedAll len (moved changes at_) all))

def Lands (mapPos : MapPos) (editor : Editor) (changes : ChangeSet) (at_ pos : Nat) : Prop :=
  (mapPos changes pos).map (lineAt NEWLINE (apply changes editor.doc)) =
    some (lineAt NEWLINE (apply changes editor.doc) (moved changes at_))
instance (mapPos editor changes at_ pos) : Decidable (Lands mapPos editor changes at_ pos) := inferInstanceAs (Decidable (_ = _))

def Clear (mapPos : MapPos) (own : BlameAnchor) (editor : Editor) (changes : ChangeSet) (at_ : Nat) : Prop :=
  let home := (lineAt NEWLINE editor.doc at_).start
  let here := lineAt NEWLINE (apply changes editor.doc) (moved changes at_)
  (home = at_ ∨ Lands mapPos editor changes at_ home) ∧
  (∀ entry ∈ editor.marks.anchors.takeWhile (fun entry => entry.1 ≠ home), Lands mapPos editor changes at_ entry.1 →
    entry.2 = own ∨ here.text = own.text ∧ entry.2.text ≠ own.text) ∧
  (here.text = own.text ∨ ∀ entry ∈ editor.marks.anchors, Lands mapPos editor changes at_ entry.1 →
    entry.2 = own ∨ entry.2.text ≠ here.text)
instance (mapPos own editor changes at_) : Decidable (Clear mapPos own editor changes at_) := inferInstanceAs (Decidable (_ ∧ _))

def ClearAll (mapPos : MapPos) (own : BlameAnchor) : Editor → Nat → List ChangeSet → Prop
  | _,_,[] => True
  | editor,at_,changes :: all =>
    (changes.any replaces = true → Clear mapPos own editor changes at_) ∧
      ClearAll mapPos own (editor.edit mapPos changes) (moved changes at_) all

instance clearDecidable (mapPos : MapPos) (own : BlameAnchor) :
    (editor : Editor) → (at_ : Nat) → (all : List ChangeSet) → Decidable (ClearAll mapPos own editor at_ all)
  | _,_,[] => .isTrue trivial
  | editor,at_,changes :: all =>
    have := clearDecidable mapPos own (editor.edit mapPos changes) (moved changes at_) all
    inferInstanceAs (Decidable ((changes.any replaces = true → Clear mapPos own editor changes at_) ∧
      ClearAll mapPos own (editor.edit mapPos changes) (moved changes at_) all))

structure Marked (blame : Blame) (measured : Doc) (editor : Editor) : Prop where
  marks : editor.marks = drawn true editor.marks.anchors editor.doc
  truthful : Truthful blame measured editor.marks.anchors

theorem editChanged {editor : Editor} {changes : ChangeSet} (changed : changes.any replaces = true) :
    (editor.edit mapPos changes).marks =
      drawn editor.marks.installed (movedAnchors mapPos editor.marks.anchors changes (apply changes editor.doc))
        (apply changes editor.doc) := by
  rw [Editor.edit,Editor.dispatch,update]
  simp only [Transaction.docChanged,changed,if_true]

theorem editUnchanged {editor : Editor} {changes : ChangeSet} (same : changes.any replaces = false) :
    editor.edit mapPos changes = editor := by
  rw [Editor.edit,Editor.dispatch,update]
  simp only [Transaction.docChanged,same,keptApply same,Bool.false_eq_true,if_false]

theorem Marked.edit {blame : Blame} {measured : Doc} {editor : Editor} (ok : Marked blame measured editor)
    (changes : ChangeSet) : Marked blame measured (editor.edit mapPos changes) := by
  cases changed : changes.any replaces with
  | false => rw [editUnchanged changed]; exact ok
  | true =>
    have installed : editor.marks.installed = true := by rw [ok.marks]; rfl
    have anchors : (editor.edit mapPos changes).marks.anchors =
        movedAnchors mapPos editor.marks.anchors changes (apply changes editor.doc) := by rw [editChanged changed]; rfl
    constructor
    · rw [anchors,editChanged changed,installed]
      rfl
    · rw [anchors]
      exact moveTruthful ok.truthful [] (fun _ none_ => absurd none_ List.not_mem_nil)

theorem Marked.edits {blame : Blame} {measured : Doc} {editor : Editor} (ok : Marked blame measured editor)
    (all : List ChangeSet) : Marked blame measured (editor.edits mapPos all) := by
  induction all generalizing editor with
  | nil => exact ok
  | cons changes all ih => exact ih (ok.edit changes)

theorem blamedMarked (blame : Blame) (doc : Doc) : Marked blame doc (blamed blame doc) := ⟨rfl,blamedTruthful blame doc⟩

def Held (own : BlameAnchor) (editor : Editor) (at_ : Nat) : Prop :=
  editor.marks.anchors.lookup (lineAt NEWLINE editor.doc at_).start = some own

theorem bestOwn {own : BlameAnchor} {text : Doc} {front back : List BlameAnchor}
    (early : ∀ anchor ∈ front, anchor = own ∨ text = own.text ∧ anchor.text ≠ own.text)
    (others : text = own.text ∨ ∀ anchor ∈ front ++ own :: back, anchor = own ∨ anchor.text ≠ text) :
    bestOf text (front ++ own :: back) = some own := by
  unfold bestOf
  rw [List.find?_append]
  by_cases reads : text = own.text
  · -- the line reads as it did: the first anchor with its text decides
    cases found : front.find? (fun anchor => anchor.text = text) with
    | none => simp [reads]
    | some anchor =>
      have reading : anchor.text = text := by simpa using List.find?_some found
      rcases early anchor (List.mem_of_find?_eq_some found) with rfl | ⟨-,other⟩
      · rfl
      · exact absurd (reading.trans reads) other
  · -- it does not: no anchor reads it, and the first one stays
    have silent : ∀ anchor ∈ front ++ own :: back, anchor.text ≠ text := fun anchor member => by
      rcases others.resolve_left reads anchor member with rfl | other
      · exact Ne.symm reads
      · exact other
    have none_ : front.find? (fun anchor => anchor.text = text) = none := List.find?_eq_none.mpr (fun anchor member => by
      simpa using silent anchor (List.mem_append_left _ member))
    have rest : (own :: back).find? (fun anchor => anchor.text = text) = none := List.find?_eq_none.mpr (fun anchor member => by
      simpa using silent anchor (List.mem_append_right _ member))
    rw [none_,rest]
    cases front with
    | nil => rfl
    | cons first front =>
      rcases early first List.mem_cons_self with rfl | ⟨same,-⟩
      · rfl
      · exact absurd same reads

theorem landingSplit {changes : ChangeSet} {at_ : Nat} {own : BlameAnchor} {front back : List (Nat × BlameAnchor)}
    (lands : (mapPos changes at_).map (lineAt NEWLINE doc) = some line) :
    landing mapPos (front ++ (at_,own) :: back) changes doc line =
      landing mapPos front changes doc line ++ (at_,own) :: landing mapPos back changes doc line := by
  unfold landing
  rw [List.filter_append]
  exact congrArg _ (List.filter_cons_of_pos (decide_eq_true lands))

theorem landingMember {changes : ChangeSet} {anchor : BlameAnchor}
    (member : anchor ∈ (landing mapPos anchors changes doc line).map Prod.snd) :
    ∃ entry ∈ anchors, (mapPos changes entry.1).map (lineAt NEWLINE doc) = some line ∧ entry.2 = anchor := by
  obtain ⟨entry,there,rfl⟩ := List.mem_map.mp member
  obtain ⟨inside,lands⟩ := List.mem_filter.mp there
  exact ⟨entry,inside,of_decide_eq_true lands,rfl⟩

theorem heldStep {own : BlameAnchor} {editor : Editor} {changes : ChangeSet} {at_ : Nat} (documented : Documented mapPos)
    (held : Held own editor at_) (spares : Spares changes at_ (at_ + own.text.length))
    (clear : changes.any replaces = true → Clear mapPos own editor changes at_) :
    Held own (editor.edit mapPos changes) (moved changes at_) := by
  cases changed : changes.any replaces with
  | false =>
    rw [editUnchanged changed,keptMoved changed]
    exact held
  | true =>
    obtain ⟨comes,early,others⟩ := clear changed
    have lands : Lands mapPos editor changes at_ (lineAt NEWLINE editor.doc at_).start := by
      rcases comes with own_ | lands
      · rw [Lands,own_,documented.forward changes at_ (sparedCrossed spares (Nat.le_add_right _ _))]
        rfl
      · exact lands
    have place : (editor.edit mapPos changes).marks.anchors =
        movedAnchors mapPos editor.marks.anchors changes (apply changes editor.doc) := by
      rw [editChanged changed]
      rfl
    obtain ⟨front,back,split_,before⟩ := List.lookup_eq_some_iff.mp held
    have first : editor.marks.anchors.takeWhile (fun entry => entry.1 ≠ (lineAt NEWLINE editor.doc at_).start) = front := by
      have apart : ∀ entry ∈ front, decide (entry.1 ≠ (lineAt NEWLINE editor.doc at_).start) = true := fun entry member =>
        decide_eq_true (fun same => by simpa [same] using before entry member)
      rw [split_,List.takeWhile_append_of_pos apart,List.takeWhile_cons_of_neg (by simp),List.append_nil]
    rw [first] at early
    have after : (editor.edit mapPos changes).doc = apply changes editor.doc := rfl
    rw [Held,place,after]
    refine (movedLookup (lineAtMember _)).trans ?_
    rw [split_,landingSplit lands,List.map_append,List.map_cons]
    refine bestOwn (fun anchor member => ?_) (others.imp id (fun others anchor member => ?_))
    · obtain ⟨entry,inside,there,rfl⟩ := landingMember member
      exact early entry inside there
    · rw [← List.map_cons,← List.map_append,← landingSplit lands,← split_] at member
      obtain ⟨entry,inside,there,rfl⟩ := landingMember member
      exact others entry inside there

theorem Marked.installed {blame : Blame} {measured : Doc} {editor : Editor} (ok : Marked blame measured editor) :
    editor.marks.installed = true := by
  rw [ok.marks]
  rfl

theorem heldAll {own : BlameAnchor} {editor : Editor} (documented : Documented mapPos) {all : List ChangeSet} {at_ : Nat}
    (held : Held own editor at_) (spares : SparedAll own.text.length at_ all) (clear : ClearAll mapPos own editor at_ all) :
    Held own (editor.edits mapPos all) (movedAll all at_) := by
  induction all generalizing editor at_ with
  | nil => exact held
  | cons changes all ih =>
    exact ih (heldStep documented held spares.1 clear.1) spares.2 clear.2

theorem sparedText {all : List ChangeSet} {at_ len : Nat} {editor : Editor} {text : Doc} (width : text.length = len)
    (reads : (editor.doc.drop at_).take len = text) (spares : SparedAll len at_ all) :
    ((editor.edits mapPos all).doc.drop (movedAll all at_)).take len = text := by
  induction all generalizing editor at_ with
  | nil => exact reads
  | cons changes all ih =>
    refine @ih (moved changes at_) (editor.edit mapPos changes) ?_ spares.2
    by_cases some_ : len = 0
    · subst some_
      rw [List.take_zero,List.length_eq_zero_iff.mp width]
    · have fits : at_ + len ≤ editor.doc.length := by
        have counted := congrArg List.length reads
        rw [List.length_take,List.length_drop] at counted
        omega
      exact (spared spares.1 fits).trans reads

structure Attributed (mapPos : MapPos) (blame : Blame) (doc : Doc) (all : List ChangeSet) (editor : Editor) : Prop where
  keeps : ∀ line ∈ linesOf NEWLINE doc, ∀ commit, commitAt blame line.number = some commit → commit.uncommitted = false →
    SparedAll line.text.length line.start all → ClearAll mapPos ⟨line.text,commit⟩ (blamed blame doc) line.start all →
    ∀ now ∈ content editor.doc, now.start = movedAll all line.start → now.text.length = line.text.length →
      now.text = line.text ∧ (now.start,commit) ∈ editor.marks.entries
  known : ∀ now ∈ content editor.doc, ∀ commit, commit ≠ UNCOMMITTED → (now.start,commit) ∈ editor.marks.entries →
    ∃ line ∈ linesOf NEWLINE doc, line.text = now.text ∧ commitAt blame line.number = some commit
  entries : editor.marks.entries.map Prod.fst = (content editor.doc).map Line.start
  once : (editor.marks.entries.map Prod.fst).Nodup
  bands : ∀ at_, at_ ∈ editor.marks.bands ↔ (at_,UNCOMMITTED) ∈ editor.marks.entries
  next : ∀ changes : ChangeSet, changes.any replaces = true → ∀ now ∈ content (apply changes editor.doc),
    ∀ commit, commit ≠ UNCOMMITTED → ((now.start,commit) ∈ (editor.edit mapPos changes).marks.entries ↔
      ((landing mapPos editor.marks.anchors changes (apply changes editor.doc) now).find?
        (fun entry => entry.2.text = now.text)).map (fun entry => entry.2.marker) = some commit)

theorem blameFollows (documented : Documented mapPos) (blame : Blame) (doc : Doc) (all : List ChangeSet) :
    Attributed mapPos blame doc all ((blamed blame doc).edits mapPos all) := by
  have ok : Marked blame doc ((blamed blame doc).edits mapPos all) := (blamedMarked blame doc).edits all
  refine ⟨fun line member commit named committed spares clear now shown at_ width => ?_,fun now shown commit known entry => ?_,
    ?_,?_,fun at_ => ?_,fun changes changed now shown commit known => ?_⟩
  · have started : Held ⟨line.text,commit⟩ (blamed blame doc) line.start := by
      rw [Held,blamed,lineAtOwn member]
      exact blamedLookup member named committed
    have held := heldAll documented started spares clear
    have inside := (contentMember.mp shown).1
    have reads := @sparedText mapPos all line.start _ (blamed blame doc) line.text rfl (lineText member).2 spares
    have text : now.text = line.text := by
      rw [← at_,← width] at reads
      exact (lineText inside).2.symm.trans reads
    have known : commit ≠ UNCOMMITTED := fun same => by
      rw [same] at committed
      exact absurd committed (by decide)
    refine ⟨text,?_⟩
    rw [ok.marks]
    refine (commitShown shown known).mpr ?_
    rw [Held,← at_,lineAtOwn inside] at held
    rw [accountedFor,held]
    exact if_pos text.symm
  · rw [ok.marks,commitShown shown known] at entry
    obtain ⟨anchor,held,reads,rfl⟩ := accountedHeld entry
    obtain ⟨-,line,member,same,named⟩ := ok.truthful _ held
    exact ⟨line,member,same.trans reads,named⟩
  · rw [ok.marks]
    exact entriesDrawn
  · rw [ok.marks,entriesDrawn]
    exact startsOnce _
  · rw [ok.marks]
    exact bandShown ok.truthful at_
  · rw [editChanged changed,ok.installed,commitShown shown known,movedAccounted (contentMember.mp shown).1]

def mapPosAt : MapPos := fun changes pos => if Crossed changes pos then none else some (moved changes pos)

theorem mapPosDocumented : Documented mapPosAt :=
  ⟨fun _ _ crossed => if_pos crossed,fun _ _ clear => if_neg clear⟩

def commitOf (sha : String) : BlameCommit := ⟨sha.toList,"Ada".toList,0,[],false⟩
def units (text : String) : Doc := text.toList.map (fun c => UInt16.ofNat c.toNat)

def twins : Blame := ⟨[0,1],[commitOf "aa",commitOf "bb"]⟩

theorem twinTaken :
    (¬∀ (mapPos : MapPos), Documented mapPos → ∀ (blame : Blame) (doc : Doc) (all : List ChangeSet),
      ∀ line ∈ linesOf NEWLINE doc, ∀ commit, commitAt blame line.number = some commit → commit.uncommitted = false →
        SparedAll line.text.length line.start all →
        ∀ now ∈ content ((blamed blame doc).edits mapPos all).doc,
          now.start = movedAll all line.start → now.text.length = line.text.length →
            (now.start,commit) ∈ ((blamed blame doc).edits mapPos all).marks.entries) ∧
    ((blamed twins (units "end\nend\n")).edits mapPosAt [[.replace 4 []]]).marks.entries = [(0,commitOf "aa")] ∧
    ((blamed twins (units "x\nend")).edits mapPosAt [[.keep 1,.replace 1 []],[.keep 1,.replace 0 [NEWLINE]]]).marks.entries =
      [(0,commitOf "aa"),(2,UNCOMMITTED)] := by
  refine ⟨fun claim => ?_,by decide +kernel,by decide +kernel⟩
  have shown := claim mapPosAt mapPosDocumented twins (units "end\nend\n") [[.replace 4 []]] ⟨2,4,units "end"⟩ (by decide +kernel)
    (commitOf "bb") (by decide +kernel) (by decide +kernel) (by decide +kernel) ⟨1,0,units "end"⟩ (by decide +kernel)
    (by decide +kernel) (by decide +kernel)
  exact absurd shown (by decide +kernel)

theorem lastKeeps :
    (6,commitOf "cc") ∈ ((blamed ⟨[0,1,2],[commitOf "aa",commitOf "bb",commitOf "cc"]⟩ (units "end\nx\nend\n")).edits mapPosAt
      [[.replace 0 (units "y\n"),.keep 4,.replace 2 []],[.keep 1,.replace 0 (units "z")],[.keep 1,.replace 1 []]]).marks.entries :=
  ((blameFollows mapPosDocumented ⟨[0,1,2],[commitOf "aa",commitOf "bb",commitOf "cc"]⟩ (units "end\nx\nend\n")
    [[.replace 0 (units "y\n"),.keep 4,.replace 2 []],[.keep 1,.replace 0 (units "z")],[.keep 1,.replace 1 []]]).keeps
    ⟨3,6,units "end"⟩ (by decide +kernel) (commitOf "cc") (by decide +kernel) (by decide +kernel) (by decide +kernel)
    (by decide +kernel) ⟨3,6,units "end"⟩ (by decide +kernel) (by decide +kernel) (by decide +kernel)).2

end M6t.BlameGutter
