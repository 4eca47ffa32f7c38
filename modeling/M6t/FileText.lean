import M6t.Occurrences
import M6t.Utf8
import M6t.EntryPaths

/-! A file's bytes on their way to the editor and back. `ReadFile` hands out the
bytes with LF line endings, the bridge carries them as text, and `WriteFile` puts
the carriage returns back. What the file system answers through the opened root
is a parameter. -/
namespace M6t.FileText
open M6t.Text M6t.Fault M6t.Occurrences
open M6t.EntryPaths (entryRelative)

abbrev Bytes := List UInt8

def LargeFileThreshold : Nat := 2 * 1024 * 1024
def MaxEditableSize : Nat := 25 * 1024 * 1024
def binarySniffLen : Nat := 8000
def filePerm : Nat := 0o640

def eolLF : Bytes := [10]
def eolCRLF : Bytes := [13,10]
def eolCR : Bytes := [13]

def errIsDirectory : Cause := .system "path is a directory"
def errTooLarge : Cause := .system "file exceeds the size limit for editing"
def errBinaryFile : Cause := .system "file does not appear to be text"

structure FileContent where
  content : Bytes
  crlf : Bool
  mixedEOL : Bool
  readOnly : Bool
  size : Nat
  deriving DecidableEq, Repr

def classifyEOL (raw : Bytes) : Bool × Bool :=
  let carriages := count eolCR raw
  if carriages = 0 then (false,false)
  else
    let pairs := count eolCRLF raw
    if carriages = pairs ∧ count eolLF raw = pairs then (true,false) else (false,true)

def normalizeEOL (raw : Bytes) (crlf mixed : Bool) : Bytes :=
  if mixed then replaceAll eolCR eolLF (replaceAll eolCRLF eolLF raw)
  else if crlf then replaceAll eolCRLF eolLF raw
  else raw

def looksBinary (data : Bytes) : Bool := (data.take binarySniffLen).contains 0

structure Info where
  isDir : Bool
  size : Nat
  perm : Nat
  deriving DecidableEq, Repr

/-- `stat` answers `none` where `errors.Is(err, fs.ErrNotExist)` would hold. -/
structure Root where
  openRoot : Str → Answer Unit
  stat : Str → Str → Answer (Option Info)
  readFile : Str → Str → Answer Bytes

-- on Unix the wire form of a path is its native form
def entryPath (relPath : Str) : Answer Str := entryRelative relPath

def notExist : Cause := .system "file does not exist"

def readInfo (fs : Root) (root native relPath : Str) : Answer Info := do
  match ← wrapping [.text "reading ",.shown relPath] (fs.stat root native) with
  | some info => .ok info
  | none => .error (errorf [.text "reading ",.shown relPath] notExist)

def readFile (fs : Root) (root relPath : Str) : Answer FileContent := do
  let reading : List Piece := [.text "reading ",.shown relPath]
  let _ ← wrapping [.text "opening ",.shown root] (fs.openRoot root)
  let native ← entryPath relPath
  let info ← readInfo fs root native relPath
  if info.isDir then .error (errorf reading errIsDirectory)
  else if MaxEditableSize < info.size then .error (errorf reading errTooLarge)
  else
    let raw ← wrapping reading (fs.readFile root native)
    if looksBinary raw then .error (errorf reading errBinaryFile)
    else
      let (crlf,mixed) := classifyEOL raw
      .ok ⟨normalizeEOL raw crlf mixed,crlf,mixed,mixed || decide (LargeFileThreshold < info.size),info.size⟩

def targetPerm (fs : Root) (root native relPath : Str) : Answer Nat := do
  let resolving : List Piece := [.text "resolving ",.shown relPath]
  match ← wrapping resolving (fs.stat root native) with
  | none => .ok filePerm
  | some info => if info.isDir then .error (errorf resolving errIsDirectory) else .ok info.perm

def dataOf (content : Bytes) (crlf : Bool) : Bytes := if crlf then replaceAll eolLF eolCRLF content else content

/-- `WriteFile` as far as the bytes go: the name, the bytes and the mode it hands
to `writeAtomic`. -/
def writeFile (fs : Root) (root relPath : Str) (content : Bytes) (crlf : Bool) : Answer (Str × Bytes × Nat) := do
  let _ ← wrapping [.text "opening ",.shown root] (fs.openRoot root)
  let native ← entryPath relPath
  let perm ← targetPerm fs root native relPath
  .ok (native,dataOf content crlf,perm)

theorem carriageCount (a : UInt8) (s : Bytes) : count eolCR (a :: s) = count eolCR s + if 13 = a then 1 else 0 := countEach
theorem feedCount (a : UInt8) (s : Bytes) : count eolLF (a :: s) = count eolLF s + if 10 = a then 1 else 0 := countEach

theorem pairCounts (s : Bytes) : count eolCR (eolCRLF ++ s) = count eolCR s + 1 ∧
    count eolLF (eolCRLF ++ s) = count eolLF s + 1 := by
  rw [show eolCRLF ++ s = 13 :: 10 :: s from rfl]
  simp [carriageCount,feedCount]

theorem pairsBelow (raw : Bytes) : count eolCRLF raw ≤ count eolCR raw ∧ count eolCRLF raw ≤ count eolLF raw := by
  induction raw using byOccurrence (show eolCRLF ≠ [] by decide) with
  | nil => exact ⟨le_rfl,le_rfl⟩
  | hit s ih =>
    rw [countHit (by decide),(pairCounts s).1,(pairCounts s).2]
    exact ⟨Nat.succ_le_succ ih.1,Nat.succ_le_succ ih.2⟩
  | miss a s miss ih =>
    rw [countMiss miss,carriageCount,feedCount]
    exact ⟨ih.1.trans (Nat.le_add_right _ _),ih.2.trans (Nat.le_add_right _ _)⟩

theorem dataAppend (a b : Bytes) (crlf : Bool) : dataOf (a ++ b) crlf = dataOf a crlf ++ dataOf b crlf := by
  cases crlf with
  | false => rfl
  | true =>
    simp only [dataOf,eolLF,if_true,replaceEach]
    exact List.flatMap_append

theorem dataByte (a : UInt8) (crlf : Bool) : dataOf [a] crlf = if crlf = true ∧ a = 10 then eolCRLF else [a] := by
  cases crlf with
  | false => rfl
  | true => simp [dataOf,eolLF,replaceEach]

theorem uniformRestores {raw : Bytes} (carriages : count eolCR raw = count eolCRLF raw)
    (feeds : count eolLF raw = count eolCRLF raw) : dataOf (replaceAll eolCRLF eolLF raw) true = raw := by
  induction raw using byOccurrence (show eolCRLF ≠ [] by decide) with
  | nil => rfl
  | hit s ih =>
    rw [countHit (by decide),(pairCounts s).1] at carriages
    rw [countHit (by decide),(pairCounts s).2] at feeds
    rw [replaceHit (by decide),dataAppend,ih (Nat.succ.inj carriages) (Nat.succ.inj feeds)]
    rfl
  | miss a s miss ih =>
    have below := pairsBelow s
    rw [countMiss miss,carriageCount] at carriages
    rw [countMiss miss,feedCount] at feeds
    have noCarriage : ¬(13 = a) := fun same => by rw [if_pos same] at carriages; omega
    have noFeed : ¬(10 = a) := fun same => by rw [if_pos same] at feeds; omega
    rw [if_neg noCarriage] at carriages
    rw [if_neg noFeed] at feeds
    rw [replaceMiss miss,← List.singleton_append,dataAppend,ih carriages feeds,dataByte,if_neg (fun h => noFeed h.2.symm)]
    rfl

theorem uniformCases {raw : Bytes} (uniform : (classifyEOL raw).2 = false) :
    classifyEOL raw = (false,false) ∨
      classifyEOL raw = (true,false) ∧ count eolCR raw = count eolCRLF raw ∧ count eolLF raw = count eolCRLF raw := by
  unfold classifyEOL at *
  simp only at *
  split at uniform
  · next none_ => exact .inl (if_pos none_)
  · next some_ =>
    split at uniform
    · next pairs => exact .inr ⟨by rw [if_neg some_,if_pos pairs],pairs⟩
    · simp at uniform

def toFrontend (content : Bytes) : Str := Utf8.decode content
def toBackend (content : Str) : Bytes := Utf8.encode content

theorem encodeFeed (c : Char) (crlf : Bool) :
    dataOf (String.utf8EncodeChar c) crlf = Utf8.encode (if crlf = true ∧ c = '\n' then ['\r','\n'] else [c]) := by
  by_cases feed : c = '\n'
  · subst feed
    cases crlf <;> decide
  · have away : (10 : UInt8) ∉ String.utf8EncodeChar c := by
      intro member
      exact feed (Char.toNat_inj.mp (Utf8.asciiByte member (by decide)).2)
    rw [if_neg (fun h => feed h.2)]
    cases crlf with
    | false => simp [dataOf]
    | true =>
      have through : replaceAll [10] eolCRLF (String.utf8EncodeChar c ++ []) = String.utf8EncodeChar c ++ [] :=
        replaceThrough away []
      simpa [dataOf,eolLF] using through

theorem dataEncode (text : Str) (crlf : Bool) :
    dataOf (toBackend text) crlf =
      toBackend (text.flatMap (fun c => if crlf = true ∧ c = '\n' then ['\r','\n'] else [c])) := by
  induction text with
  | nil => cases crlf <;> rfl
  | cons c text ih =>
    simp only [toBackend] at ih ⊢
    rw [Utf8.encodeCons,dataAppend,ih,encodeFeed,List.flatMap_cons,Utf8.encodeAppend]

theorem dataValid {content : Bytes} (valid : Utf8.Valid content) (crlf : Bool) : Utf8.Valid (dataOf content crlf) := by
  obtain ⟨text,rfl⟩ := valid
  exact ⟨_,dataEncode text crlf⟩

theorem feedLeads {text : Str} (feed : [10] <+: Utf8.encode text) : ∃ rest, text = '\n' :: rest := by
  cases text with
  | nil => simp at feed
  | cons c text =>
    have size := String.length_utf8EncodeChar c
    have positive := c.utf8Size_pos
    cases bytes : String.utf8EncodeChar c with
    | nil => simp [bytes] at size; omega
    | cons b l =>
      rw [Utf8.encodeCons,bytes,List.cons_append] at feed
      have first : 10 = b := (List.cons_prefix_cons.mp feed).1
      have member : (10 : UInt8) ∈ String.utf8EncodeChar c := by rw [bytes,first]; exact List.mem_cons_self
      have same : c = '\n' := Char.toNat_inj.mp (Utf8.asciiByte member (by decide)).2
      exact ⟨text,by rw [same]⟩

theorem unixEncode (text : Str) :
    replaceAll eolCRLF eolLF (Utf8.encode text) = Utf8.encode (replaceAll ['\r','\n'] ['\n'] text) := by
  induction text using byOccurrence (show ['\r','\n'] ≠ [] by decide) with
  | nil => rfl
  | hit s ih =>
    rw [replaceHit (by decide),Utf8.encodeAppend,Utf8.encodeAppend,← ih]
    exact replaceHit (show eolCRLF ≠ [] by decide) _
  | miss c s miss ih =>
    rw [replaceMiss miss,Utf8.encodeCons,Utf8.encodeCons,← ih]
    by_cases carriage : c = '\r'
    · subst carriage
      refine replaceMiss (fun start => miss ?_)
      have feed : [10] <+: Utf8.encode s := (List.cons_prefix_cons.mp start).2
      obtain ⟨rest,rfl⟩ := feedLeads feed
      exact ⟨rest,rfl⟩
    · have away : (13 : UInt8) ∉ String.utf8EncodeChar c := by
        intro member
        exact carriage (Char.toNat_inj.mp (Utf8.asciiByte member (by decide)).2)
      exact replaceThrough away _

theorem bridgedExact {raw : Bytes} (uniform : (classifyEOL raw).2 = false) :
    dataOf (toBackend (toFrontend (normalizeEOL raw (classifyEOL raw).1 (classifyEOL raw).2))) (classifyEOL raw).1 = raw ↔
      Utf8.Valid raw := by
  constructor
  · intro same
    rw [← same]
    exact dataValid ⟨_,rfl⟩ _
  · intro valid
    rcases uniformCases uniform with plain | ⟨pairs,carriages,feeds⟩
    · rw [plain]
      exact Utf8.encodeDecode.mpr valid
    · rw [pairs]
      have folded : Utf8.Valid (replaceAll eolCRLF eolLF raw) := by
        obtain ⟨text,rfl⟩ := valid
        exact ⟨_,unixEncode text⟩
      have kept : toBackend (toFrontend (replaceAll eolCRLF eolLF raw)) = replaceAll eolCRLF eolLF raw :=
        Utf8.encodeDecode.mpr folded
      show dataOf (toBackend (toFrontend (replaceAll eolCRLF eolLF raw))) true = raw
      rw [kept]
      exact uniformRestores carriages feeds

theorem readFileReads {fs : Root} {root relPath : Str} {file : FileContent} (read : readFile fs root relPath = .ok file) :
    ∃ native raw perm, fs.readFile root native = .ok raw ∧
      (∀ content crlf, writeFile fs root relPath content crlf = .ok (native,dataOf content crlf,perm)) ∧
      file.content = normalizeEOL raw (classifyEOL raw).1 (classifyEOL raw).2 ∧ file.crlf = (classifyEOL raw).1 ∧
      (file.readOnly = false → (classifyEOL raw).2 = false) := by
  simp only [readFile,readInfo,bindOk,wrappingOk] at read
  obtain ⟨_,opened,native,entry,info,⟨found,stat,named⟩,rest⟩ := read
  cases found with
  | none => cases named
  | some known =>
    cases named
    split at rest
    · cases rest
    next file_ =>
    split at rest
    · cases rest
    simp only [bindOk,wrappingOk] at rest
    obtain ⟨raw,got,rest⟩ := rest
    split at rest
    · cases rest
    cases rest
    refine ⟨native,raw,info.perm,got,?_,rfl,rfl,?_⟩
    · intro content crlf
      simp [writeFile,targetPerm,opened,entry,stat,wrapping,file_,bind,Except.bind]
    · intro editable
      simpa using (Bool.or_eq_false_iff.mp editable).1

theorem roundTripExact {fs : Root} {root relPath : Str} {file : FileContent} (read : readFile fs root relPath = .ok file)
    (editable : file.readOnly = false) :
    ∃ native raw perm, fs.readFile root native = .ok raw ∧
      (writeFile fs root relPath (toBackend (toFrontend file.content)) file.crlf = .ok (native,raw,perm) ↔ Utf8.Valid raw) ∧
      (Utf8.Valid raw → ∀ front old new back, toFrontend file.content = front ++ old ++ back →
        ∃ first last, raw = first ++ dataOf (toBackend old) file.crlf ++ last ∧
          writeFile fs root relPath (toBackend (front ++ new ++ back)) file.crlf =
            .ok (native,first ++ dataOf (toBackend new) file.crlf ++ last,perm)) := by
  obtain ⟨native,raw,perm,got,written,content,crlf,uniform⟩ := readFileReads read
  have exact_ := bridgedExact (uniform editable)
  rw [← content,← crlf] at exact_
  refine ⟨native,raw,perm,got,?_,?_⟩
  · rw [written]
    simpa using exact_
  · intro valid front old new back shown
    have spread (middle : Str) : dataOf (toBackend (front ++ middle ++ back)) file.crlf =
        dataOf (toBackend front) file.crlf ++ dataOf (toBackend middle) file.crlf ++ dataOf (toBackend back) file.crlf := by
      simp only [toBackend,Utf8.encodeAppend,dataAppend]
    refine ⟨dataOf (toBackend front) file.crlf,dataOf (toBackend back) file.crlf,?_,?_⟩
    · rw [← spread,← shown]
      exact (exact_.mpr valid).symm
    · rw [written,spread]

def holding (raw : Bytes) : Root where
  openRoot _ := .ok ()
  stat _ _ := .ok (some ⟨false,raw.length,0o644⟩)
  readFile _ _ := .ok raw

theorem roundTripExactPairs :
    let raw : Bytes := [97,13,10,0xC3,0xA9,13,10]
    ∃ file native perm, readFile (holding raw) "/w".toList "f".toList = .ok file ∧ file.readOnly = false ∧
      file.crlf = true ∧
      writeFile (holding raw) "/w".toList "f".toList (toBackend (toFrontend file.content)) file.crlf =
        .ok (native,raw,perm) := by
  intro raw
  have reads : readFile (holding raw) "/w".toList "f".toList = .ok ⟨[97,10,0xC3,0xA9,10],true,false,false,7⟩ := by
    decide +kernel
  obtain ⟨native,same,perm,got,back,_⟩ := roundTripExact reads rfl
  cases Except.ok.inj got
  have valid : Utf8.Valid raw := ⟨['a','\r','\n','é','\r','\n'],by decide +kernel⟩
  exact ⟨_,native,perm,reads,rfl,rfl,back.mpr valid⟩

theorem roundTripLosesLatin1 :
    let raw : Bytes := [0xE9,10]
    ∃ file, readFile (holding raw) "/w".toList "f".toList = .ok file ∧ file.readOnly = false ∧
      writeFile (holding raw) "/w".toList "f".toList (toBackend (toFrontend file.content)) file.crlf =
        .ok ("f".toList,[0xEF,0xBF,0xBD,10],0o644) ∧
      ([0xEF,0xBF,0xBD,10] : Bytes) ≠ raw := by
  intro raw
  exact ⟨⟨raw,false,false,false,2⟩,by decide +kernel,rfl,by decide +kernel,by decide⟩

end M6t.FileText
