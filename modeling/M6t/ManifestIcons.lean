import M6t.FileTree
import M6t.FileText

/-! Which YAML rows of the file tree wear the Kubernetes wheel: the heads that the backend reads of
a listing's files, batch by batch, and what the window makes of them. -/
namespace M6t.ManifestIcons
open M6t.Text M6t.Fault
open M6t.EntryPaths (rootRelative)
open M6t.FileText (Bytes toFrontend)
open M6t.FileTree (Entry joinPath)
open M6t.Editor (IconKind iconKind)

def prefixLen : Nat := 2048
def maxPrefixBatch : Nat := 1024

-- the sentence around it ends in the bound
def errBatchTooLarge : Cause := .system "too many paths in one batch (max 1024)"

structure Source where
  content : Bytes
  breaks : Option Nat
  deriving DecidableEq, Repr

structure Root where
  openRoot : Str → Answer Unit
  regular : Str → Str → Bool
  opened : Str → Str → Option Source

def Source.head (source : Source) : Bytes := source.content.take (min prefixLen (source.breaks.getD prefixLen))

def Source.failed (source : Source) : Bool := source.breaks.any (fun n => n < prefixLen)

def prefixOf (fs : Root) (root relPath : Str) : Option Bytes :=
  match rootRelative relPath with
  | .error _ => none
  | .ok name =>
    if fs.regular root name = false then none
    else
      match fs.opened root name with
      | none => none
      | some source =>
        if source.failed ∧ source.head = [] then none
        else if source.head.contains 0 then none
        else some source.head

/-- The map it answers, as what it holds for each path. -/
def readPrefixes (fs : Root) (root : Str) (relPaths : List Str) : Answer (Str → Option Bytes) := do
  if maxPrefixBatch < relPaths.length then
    .error (errorf [.text "reading ",.text (toString relPaths.length),.text " prefixes"] errBatchTooLarge)
  else
    let _ ← wrapping [.text "opening ",.shown root] (fs.openRoot root)
    .ok (fun path => if path ∈ relPaths then prefixOf fs root path else none)

def isWhite (c : Char) : Bool :=
  let n := c.toNat
  (9 ≤ n && n ≤ 13) || n == 0x20 || n == 0xA0 || n == 0x1680 || (0x2000 ≤ n && n ≤ 0x200a) || n == 0x2028 || n == 0x2029 ||
    n == 0x202f || n == 0x205f || n == 0x3000 || n == 0xFEFF

def keyed (key : Str) (line : Str) : Bool :=
  match cutPrefix (key ++ [':']) line with
  | none => false
  | some rest => rest.dropWhile isWhite ≠ []

def apiVersionKey : Str := "apiVersion".toList
def kindKey : Str := "kind".toList

def judge : Bool → Bool → List Str → Bool
  | _,_,[] => false
  | apiVersion,kind,line :: lines =>
    let apiVersion := apiVersion || keyed apiVersionKey line
    let kind := kind || keyed kindKey line
    if apiVersion ∧ kind then true else judge apiVersion kind lines

def withoutMark (head : Str) : Str := if head.head? = some '\ufeff' then head.drop 1 else head

def looksLikeManifest (head : Str) : Bool := judge false false ((withoutMark head).splitOn '\n')

def resolveIconKind (kind : IconKind) (isManifest : Bool) : IconKind :=
  if kind = .yaml ∧ isManifest then .kubernetes else kind

abbrev Manifests := Str → Option Bool

def withManifests (manifests : Manifests) (heads : Str → Option Bytes) (asked : List Str) : Manifests :=
  asked.foldl (fun manifests path => Function.update manifests path
    (some (looksLikeManifest (((heads path).map toFrontend).getD [])))) manifests

def yamlPaths (dir : Str) (entries : List Entry) : List Str :=
  ((entries.filter (fun entry => !entry.isDir)).map (fun entry => joinPath dir entry.name)).filter
    (fun path => iconKind path false = .yaml)

def batchSize : Nat := 256

def batched (paths : List Str) : List (List Str) :=
  (List.range ((paths.length + (batchSize - 1)) / batchSize)).map (fun i => (paths.drop (batchSize * i)).take batchSize)

def turn (fs : Nat → Root) (root : Str) (manifests : Manifests) (batch : List Str × Nat) : Manifests :=
  match readPrefixes (fs batch.2) root batch.1 with
  | .ok heads => withManifests manifests heads batch.1
  | .error _ => manifests

def classify (fs : Nat → Root) (root dir : Str) (entries : List Entry) (manifests : Manifests) : Manifests :=
  (batched (yamlPaths dir entries)).zipIdx.foldl (turn fs root) manifests

def rowIcon (manifests : Manifests) (path : Str) (isDir : Bool) : IconKind :=
  resolveIconKind (iconKind path isDir) ((manifests path).getD false)

theorem keyedIff {key line : Str} : keyed key line = true ↔ ∃ rest, line = key ++ ':' :: rest ∧ ∃ c ∈ rest, isWhite c = false := by
  have solid (rest : Str) : rest.dropWhile isWhite ≠ [] ↔ ∃ c ∈ rest, isWhite c = false := by
    simp [List.dropWhile_eq_nil_iff]
  unfold keyed
  cases cut : cutPrefix (key ++ [':']) line with
  | none =>
    refine iff_of_false (by simp) ?_
    rintro ⟨rest,rfl,-⟩
    have : cutPrefix (key ++ [':']) (key ++ ':' :: rest) = some rest := cutPrefixExact.mpr (by simp)
    rw [cut] at this
    contradiction
  | some rest =>
    have whole : line = key ++ ':' :: rest := by simpa using cutPrefixExact.mp cut
    simp only [decide_eq_true_eq,solid]
    constructor
    · exact fun found => ⟨rest,whole,found⟩
    · rintro ⟨other,same,found⟩
      have : rest = other := by simpa using whole.symm.trans same
      exact this ▸ found

theorem keyedGrows {key line : Str} (more : Str) (here : keyed key line = true) : keyed key (line ++ more) = true := by
  obtain ⟨rest,rfl,c,member,solid⟩ := keyedIff.mp here
  exact keyedIff.mpr ⟨rest ++ more,by simp,c,List.mem_append_left _ member,solid⟩

theorem judgeIff (lines : List Str) (apiVersion kind : Bool) (open_ : ¬(apiVersion = true ∧ kind = true)) :
    judge apiVersion kind lines = true ↔
      (apiVersion = true ∨ ∃ line ∈ lines, keyed apiVersionKey line = true) ∧
        (kind = true ∨ ∃ line ∈ lines, keyed kindKey line = true) := by
  induction lines generalizing apiVersion kind with
  | nil => cases apiVersion <;> cases kind <;> simp_all [judge]
  | cons line lines ih =>
    rw [judge]
    by_cases both : (apiVersion || keyed apiVersionKey line) = true ∧ (kind || keyed kindKey line) = true
    · rw [if_pos both]
      simp only [Bool.or_eq_true] at both
      simp only [List.mem_cons,exists_eq_or_imp,true_iff]
      tauto
    · rw [if_neg both,ih _ _ both]
      simp only [Bool.or_eq_true,List.mem_cons,exists_eq_or_imp]
      tauto

theorem splitMeets (sep : Char) (s : Str) : ∃ front last, ∀ t, ∃ first back, t.splitOn sep = first :: back ∧
    (s ++ t).splitOn sep = front ++ (last ++ first) :: back := by
  induction s with
  | nil =>
    refine ⟨[],[],fun t => ?_⟩
    obtain ⟨first,back,parts⟩ := List.exists_cons_of_ne_nil (List.splitOn_ne_nil sep t)
    exact ⟨first,back,parts,parts⟩
  | cons c s ih =>
    obtain ⟨front,last,meets⟩ := ih
    by_cases same : (c == sep) = true
    · refine ⟨[] :: front,last,fun t => ?_⟩
      obtain ⟨first,back,parts,whole⟩ := meets t
      exact ⟨first,back,parts,by rw [List.cons_append,List.splitOn_cons_eq_if_modifyHead,whole,if_pos same]; rfl⟩
    · cases front with
      | nil =>
        refine ⟨[],c :: last,fun t => ?_⟩
        obtain ⟨first,back,parts,whole⟩ := meets t
        exact ⟨first,back,parts,by rw [List.cons_append,List.splitOn_cons_eq_if_modifyHead,whole,if_neg same]; rfl⟩
      | cons word front =>
        refine ⟨(c :: word) :: front,last,fun t => ?_⟩
        obtain ⟨first,back,parts,whole⟩ := meets t
        exact ⟨first,back,parts,by rw [List.cons_append,List.splitOn_cons_eq_if_modifyHead,whole,if_neg same]; rfl⟩

def Has (key : Str) (s : Str) : Prop := ∃ line ∈ s.splitOn '\n', keyed key line = true

theorem looksIff (head : Str) : looksLikeManifest head = true ↔
    Has apiVersionKey (withoutMark head) ∧ Has kindKey (withoutMark head) := by
  rw [looksLikeManifest,judgeIff _ _ _ (by simp)]
  simp [Has]

theorem hasGrows {key s : Str} (t : Str) (here : Has key s) : Has key (s ++ t) := by
  obtain ⟨front,last,meets⟩ := splitMeets '\n' s
  obtain ⟨_,_,parts,alone⟩ := meets []
  obtain ⟨first,back,-,whole⟩ := meets t
  obtain ⟨line,member,found⟩ := here
  obtain ⟨rfl,rfl⟩ : [] = _ ∧ [] = _ := by simpa using parts
  rw [List.append_nil,List.append_nil] at alone
  rw [alone,List.mem_append,List.mem_singleton] at member
  rw [Has,whole]
  rcases member with before|rfl
  · exact ⟨line,List.mem_append_left _ before,found⟩
  · exact ⟨line ++ first,by simp,keyedGrows first found⟩

theorem keyedCut {key last : Str} {j : Nat} {c : Char} (t : Str) (whole : Utf8.runeError ∉ key ++ [':'])
    (solid : isWhite c = false) (here : keyed key (last ++ List.replicate j Utf8.runeError) = true) :
    keyed key (last ++ c :: t) = true := by
  obtain ⟨rest,same,-⟩ := keyedIff.mp here
  have cut : last ++ List.replicate j Utf8.runeError = (key ++ [':']) ++ rest := by simpa using same
  have starts : ∃ more, last = (key ++ [':']) ++ more := by
    rcases List.append_eq_append_iff.mp cut with ⟨gap,fits,torn⟩|⟨more,fits,-⟩
    · cases gap with
      | nil => exact ⟨[],by simpa using fits.symm⟩
      | cons d gap =>
        have error : d ∈ List.replicate j Utf8.runeError := torn ▸ List.mem_cons_self
        rw [List.eq_of_mem_replicate error] at fits
        exact absurd (fits ▸ by simp) whole
    · exact ⟨more,fits⟩
  obtain ⟨more,rfl⟩ := starts
  exact keyedIff.mpr ⟨more ++ c :: t,by simp,c,by simp,solid⟩

theorem hasCut {key s : Str} {j : Nat} {c : Char} (t : Str) (whole : Utf8.runeError ∉ key ++ [':'])
    (solid : isWhite c = false) (inline_ : c ≠ '\n') (here : Has key (s ++ List.replicate j Utf8.runeError)) :
    Has key (s ++ c :: t) := by
  obtain ⟨front,last,meets⟩ := splitMeets '\n' s
  have errors : (List.replicate j Utf8.runeError).splitOn '\n' = [List.replicate j Utf8.runeError] :=
    List.splitOn_eq_singleton (fun member => absurd (List.eq_of_mem_replicate member) (by decide))
  obtain ⟨_,_,parts,torn⟩ := meets (List.replicate j Utf8.runeError)
  rw [errors] at parts
  cases parts
  obtain ⟨first,back,rest,kept⟩ := meets (c :: t)
  have starts : ∃ more, first = c :: more := by
    rw [List.splitOn_cons_eq_if_modifyHead,if_neg (by simpa using inline_)] at rest
    obtain ⟨word,words,split⟩ := List.exists_cons_of_ne_nil (List.splitOn_ne_nil '\n' t)
    rw [split] at rest
    cases rest
    exact ⟨word,rfl⟩
  obtain ⟨more,rfl⟩ := starts
  obtain ⟨line,member,found⟩ := here
  rw [torn,List.mem_append,List.mem_singleton] at member
  rw [Has,kept]
  rcases member with before|rfl
  · exact ⟨line,List.mem_append_left _ before,found⟩
  · exact ⟨last ++ c :: more,by simp,keyedCut more whole solid found⟩

theorem markAppend {a : Str} (some_ : a ≠ []) (t : Str) : withoutMark (a ++ t) = withoutMark a ++ t := by
  cases a with
  | nil => contradiction
  | cons c a =>
    by_cases mark : c = '\ufeff' <;> simp [withoutMark,mark]

theorem errorsKeyless {key : Str} (j : Nat) : ¬ Has key (withoutMark (List.replicate j Utf8.runeError)) := by
  have unmarked : withoutMark (List.replicate j Utf8.runeError) = List.replicate j Utf8.runeError := by
    cases j with
    | zero => rfl
    | succ j => exact if_neg (by simp [List.replicate_succ]; decide)
  intro here
  rw [unmarked] at here
  obtain ⟨line,member,found⟩ := here
  rw [List.splitOn_eq_singleton (fun member => absurd (List.eq_of_mem_replicate member) (by decide)),List.mem_singleton] at member
  subst member
  obtain ⟨rest,same,-⟩ := keyedIff.mp found
  have colon : ':' ∈ List.replicate j Utf8.runeError := same ▸ by simp
  exact absurd (List.eq_of_mem_replicate colon) (by decide)

/-- The cut falls inside a white space. -/
def CutInSpace (content : Bytes) (n : Nat) : Prop :=
  ∃ k j c, toFrontend (content.take n) = (toFrontend content).take k ++ List.replicate (j + 1) Utf8.runeError ∧
    (toFrontend content)[k]? = some c ∧ isWhite c = true

theorem headHonest (content : Bytes) (n : Nat) (judged : looksLikeManifest (toFrontend (content.take n)) = true) :
    looksLikeManifest (toFrontend content) = true ∨ CutInSpace content n := by
  obtain ⟨k,j,same,cut⟩ := Utf8.decodeTake content n
  have front : (toFrontend content).take k ++ (toFrontend content).drop k = toFrontend content := List.take_append_drop _ _
  have started : (toFrontend content).take k ≠ [] := by
    intro none_
    rw [toFrontend,same,← toFrontend,none_,List.nil_append] at judged
    exact errorsKeyless j ((looksIff _).mp judged).1
  cases j with
  | zero =>
    left
    rw [toFrontend,same,← toFrontend,List.replicate_zero,List.append_nil] at judged
    have both := (looksIff _).mp judged
    rw [looksIff,← front,markAppend started]
    exact ⟨hasGrows _ both.1,hasGrows _ both.2⟩
  | succ j =>
    obtain ⟨c,at_,wide⟩ := cut (by omega)
    by_cases white : isWhite c = true
    · exact .inr ⟨k,j,c,same,at_,white⟩
    · left
      have solid : isWhite c = false := by simpa using white
      have inline_ : c ≠ '\n' := by
        rintro rfl
        exact absurd wide (by decide)
      have split : (toFrontend content).drop k = c :: (toFrontend content).drop (k + 1) := by
        obtain ⟨bound,here⟩ := List.getElem?_eq_some_iff.mp at_
        rw [← here]
        exact List.drop_eq_getElem_cons bound
      rw [toFrontend,same,← toFrontend] at judged
      have both := (looksIff _).mp judged
      rw [markAppend started] at both
      rw [looksIff,← front,markAppend started,split]
      exact ⟨hasCut _ (by decide) solid inline_ both.1,hasCut _ (by decide) solid inline_ both.2⟩

/-- `apiVersion: v1`, `kind:` and an ideographic space, cut one byte short. -/
example : looksLikeManifest (toFrontend ((Utf8.encode "apiVersion: v1\nkind:\u3000".toList).take 22)) = true ∧
    looksLikeManifest (toFrontend (Utf8.encode "apiVersion: v1\nkind:\u3000".toList)) = false := by decide +kernel

theorem slicesFlat (size : Nat) (l : List Str) (m : Nat) :
    ((List.range m).map (fun i => (l.drop (size * i)).take size)).flatten = l.take (size * m) := by
  induction m with
  | zero => simp
  | succ m ih =>
    rw [List.range_succ,List.map_append,List.flatten_append,ih,Nat.mul_succ,List.take_add]
    simp

theorem batchedFlat (paths : List Str) : (batched paths).flatten = paths := by
  rw [batched,slicesFlat]
  refine List.take_of_length_le ?_
  simp only [batchSize]
  omega

theorem batchedSmall {paths batch : List Str} (member : batch ∈ batched paths) : batch.length ≤ batchSize := by
  obtain ⟨i,-,rfl⟩ := List.mem_map.mp member
  exact List.length_take_le _ _

def verdict (fs : Root) (root path : Str) : Bool := looksLikeManifest (((prefixOf fs root path).map toFrontend).getD [])

theorem withOther {manifests : Manifests} {heads : Str → Option Bytes} {asked : List Str} {path : Str} (other : path ∉ asked) :
    withManifests manifests heads asked path = manifests path := by
  unfold withManifests
  induction asked generalizing manifests with
  | nil => rfl
  | cons first asked ih =>
    rw [List.mem_cons,not_or] at other
    rw [List.foldl_cons,ih other.2,Function.update_of_ne other.1]

theorem withAsked {manifests : Manifests} {heads : Str → Option Bytes} {asked : List Str} {path : Str} (member : path ∈ asked) :
    withManifests manifests heads asked path = some (looksLikeManifest (((heads path).map toFrontend).getD [])) := by
  induction asked generalizing manifests with
  | nil => simp at member
  | cons first asked ih =>
    by_cases again : path ∈ asked
    · exact ih again
    · have here : path = first := (List.mem_cons.mp member).resolve_right again
      subst here
      exact (withOther again).trans (Function.update_self ..)

section
variable {fs : Nat → Root} {root path : Str} {manifests : Manifests}

theorem turnOther {batch : List Str × Nat} (other : path ∉ batch.1) : turn fs root manifests batch path = manifests path := by
  unfold turn
  cases readPrefixes (fs batch.2) root batch.1 with
  | ok heads => exact withOther other
  | error err => rfl

theorem turnsOther {batches : List (List Str × Nat)} (other : ∀ batch ∈ batches, path ∉ batch.1) :
    batches.foldl (turn fs root) manifests path = manifests path := by
  induction batches generalizing manifests with
  | nil => rfl
  | cons batch batches ih =>
    rw [List.foldl_cons,ih (fun b member => other b (List.mem_cons_of_mem _ member)),turnOther (other batch List.mem_cons_self)]

theorem turnAsked {batch : List Str × Nat} (opens : (fs batch.2).openRoot root = .ok ()) (small : batch.1.length ≤ maxPrefixBatch)
    (member : path ∈ batch.1) : turn fs root manifests batch path = some (verdict (fs batch.2) root path) := by
  have answered : readPrefixes (fs batch.2) root batch.1 =
      .ok (fun path => if path ∈ batch.1 then prefixOf (fs batch.2) root path else none) := by
    rw [readPrefixes,if_neg (by omega),opens]
    rfl
  rw [turn,answered]
  simp only
  rw [withAsked member,if_pos member,verdict]

theorem turnsAsked {batches : List (List Str × Nat)} (opens : ∀ i, (fs i).openRoot root = .ok ())
    (small : ∀ batch ∈ batches, batch.1.length ≤ maxPrefixBatch) (asked : ∃ batch ∈ batches, path ∈ batch.1) :
    ∃ i, batches.foldl (turn fs root) manifests path = some (verdict (fs i) root path) := by
  induction batches generalizing manifests with
  | nil => simp at asked
  | cons batch batches ih =>
    by_cases later : ∃ b ∈ batches, path ∈ b.1
    · exact ih (fun b member => small b (List.mem_cons_of_mem _ member)) later
    · have here : path ∈ batch.1 := by
        obtain ⟨b,member,inside⟩ := asked
        rcases List.mem_cons.mp member with rfl|member
        · exact inside
        · exact absurd ⟨b,member,inside⟩ later
      refine ⟨batch.2,?_⟩
      rw [List.foldl_cons,turnsOther (fun b member inside => later ⟨b,member,inside⟩)]
      exact turnAsked (opens _) (small batch List.mem_cons_self) here

theorem batchHolds {paths : List Str} : (∃ batch ∈ (batched paths).zipIdx, path ∈ batch.1) ↔ path ∈ paths := by
  rw [← batchedFlat paths,List.mem_flatten,batchedFlat]
  constructor
  · rintro ⟨batch,member,inside⟩
    exact ⟨batch.1,List.fst_mem_of_mem_zipIdx member,inside⟩
  · rintro ⟨batch,member,inside⟩
    obtain ⟨i,at_⟩ := List.mem_iff_getElem?.mp member
    exact ⟨(batch,i),List.mem_zipIdx_iff_getElem?.mpr at_,inside⟩

theorem classifyAsked {dir : Str} {entries : List Entry} (opens : ∀ i, (fs i).openRoot root = .ok ())
    (asked : path ∈ yamlPaths dir entries) :
    ∃ i, classify fs root dir entries manifests path = some (verdict (fs i) root path) := by
  refine turnsAsked opens (fun batch member => ?_) (batchHolds.mpr asked)
  have small := batchedSmall (List.fst_mem_of_mem_zipIdx member)
  simp only [batchSize,maxPrefixBatch] at *
  omega

theorem neverWheel (path : Str) (isDir : Bool) : iconKind path isDir ≠ .kubernetes := by
  have names : ∀ pair ∈ Editor.BY_NAME, pair.2 ≠ .kubernetes := by decide
  have extensions : ∀ pair ∈ Editor.BY_EXTENSION, pair.2 ≠ .kubernetes := by decide
  have table {table : List (String × IconKind)} (none_ : ∀ pair ∈ table, pair.2 ≠ .kubernetes) {key : String} {kind : IconKind}
      (found : table.lookup key = some kind) : kind ≠ .kubernetes := by
    obtain ⟨front,back,whole,-⟩ := List.lookup_eq_some_iff.mp found
    exact none_ (key,kind) (by rw [whole]; simp)
  unfold iconKind
  dsimp only
  split
  · decide
  · split
    · next found => exact table names found
    · split
      · unfold Editor.yamlKind
        dsimp only
        split_ifs <;> decide
      · cases found : Editor.BY_EXTENSION.lookup (String.ofList (Editor.extensionOf (Editor.toLowerCase (Editor.baseName path)))) with
        | none => decide
        | some kind => exact table extensions found

theorem wheelOf {kind : IconKind} {isManifest : Bool} (never : kind ≠ .kubernetes) :
    resolveIconKind kind isManifest = .kubernetes ↔ kind = .yaml ∧ isManifest = true := by
  unfold resolveIconKind
  split
  · next both => simpa using both
  · next not_ => exact iff_of_false never not_

theorem rowClassified {dir : Str} {entries : List Entry} (opens : ∀ i, (fs i).openRoot root = .ok ()) {entry : Entry}
    (member : entry ∈ entries) : ∃ i, rowIcon (classify fs root dir entries manifests) (joinPath dir entry.name) entry.isDir =
      resolveIconKind (iconKind (joinPath dir entry.name) entry.isDir) (verdict (fs i) root (joinPath dir entry.name)) := by
  by_cases plain : iconKind (joinPath dir entry.name) entry.isDir = .yaml
  · have file : entry.isDir = false := by
      cases dir_ : entry.isDir with
      | false => rfl
      | true => simp [dir_,iconKind] at plain
    have asked : joinPath dir entry.name ∈ yamlPaths dir entries := by
      simp only [yamlPaths,List.mem_filter,List.mem_map,decide_eq_true_eq]
      exact ⟨⟨entry,⟨member,by simp [file]⟩,rfl⟩,file ▸ plain⟩
    obtain ⟨i,judged⟩ := @classifyAsked fs root _ manifests dir entries opens asked
    exact ⟨i,by rw [rowIcon,judged]; rfl⟩
  · refine ⟨0,?_⟩
    simp [rowIcon,resolveIconKind,plain]

theorem rowsEarned {dir : Str} {entries : List Entry} (opens : ∀ i, (fs i).openRoot root = .ok ()) {entry : Entry}
    (member : entry ∈ entries) : ∃ i,
      rowIcon (classify fs root dir entries manifests) (joinPath dir entry.name) entry.isDir =
        resolveIconKind (iconKind (joinPath dir entry.name) entry.isDir) (verdict (fs i) root (joinPath dir entry.name)) ∧
      (rowIcon (classify fs root dir entries manifests) (joinPath dir entry.name) entry.isDir = .kubernetes →
        ∃ name source, rootRelative (joinPath dir entry.name) = .ok name ∧ (fs i).regular root name = true ∧
          (fs i).opened root name = some source ∧
          (looksLikeManifest (toFrontend source.content) = true ∨
            CutInSpace source.content (min prefixLen (source.breaks.getD prefixLen)))) := by
  obtain ⟨i,shown⟩ := @rowClassified fs root manifests dir entries opens entry member
  refine ⟨i,shown,fun wheel => ?_⟩
  rw [shown,wheelOf (neverWheel _ _)] at wheel
  have judged := wheel.2
  unfold verdict at judged
  cases head : prefixOf (fs i) root (joinPath dir entry.name) with
  | none =>
    rw [head] at judged
    exact absurd judged (by decide)
  | some bytes =>
    rw [head] at judged
    unfold prefixOf at head
    split at head
    · contradiction
    · next name relative =>
      split_ifs at head with kind
      split at head
      · contradiction
      · next source found =>
        split_ifs at head
        cases Option.some.inj head
        exact ⟨name,source,relative,by simpa using kind,found,headHonest _ _ judged⟩

end

def podFile : Root :=
  ⟨fun _ => .ok (),fun _ _ => true,fun _ _ => some ⟨Utf8.encode "apiVersion: v1\nkind: Pod\n".toList,none⟩⟩
def podEntry : Entry := ⟨"pod.yaml".toList,false,by decide⟩

theorem podEarned : rowIcon (classify (fun _ => podFile) [] [] [podEntry] (fun _ => none)) podEntry.name false = .kubernetes := by
  obtain ⟨_,shown,-⟩ := @rowsEarned (fun _ => podFile) [] (fun _ => none) [] [podEntry] (fun _ => rfl) podEntry
    List.mem_cons_self
  exact shown.trans (by decide +kernel)

end M6t.ManifestIcons
