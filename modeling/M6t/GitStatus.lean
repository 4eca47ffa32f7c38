import M6t.GoStrings

/-! What `git status --porcelain=v2 -z` says about a working tree: the stream of records as
git writes it, and the parser that reads it back. -/
namespace M6t.GitStatus
open M6t.Text M6t.GoStrings

inductive State where
  | modified
  | added
  | deleted
  | renamed
  | copied
  | untracked
  deriving DecidableEq, Repr

inductive Availability where
  | available
  | noGit
  | notARepository
  deriving DecidableEq, Repr

structure Branch where
  name : Str
  upstream : Str
  ahead : Int
  behind : Int
  detached : Bool
  unborn : Bool
  deriving DecidableEq, Repr

structure FileStatus where
  path : Str
  staged : Option State
  worktree : Option State
  conflicted : Bool
  origPath : Str
  deriving DecidableEq, Repr

structure Status where
  availability : Availability
  branch : Branch
  files : List FileStatus
  deriving DecidableEq, Repr

def statusFor (availability : Availability) : Status := ⟨availability,⟨[],[],0,0,false,false⟩,[]⟩

def kindHeader : Str := "#".toList
def kindOrdinary : Str := "1".toList
def kindRenamed : Str := "2".toList
def kindUnmerged : Str := "u".toList
def kindUntracked : Str := "?".toList

def ordinaryFields : Nat := 8
def renamedFields : Nat := 9
def unmergedFields : Nat := 10

def recordSeparator : Char := '\x00'
def fieldSeparator : Char := ' '

def headerOID : Str := "branch.oid".toList
def headerHead : Str := "branch.head".toList
def headerUpstream : Str := "branch.upstream".toList
def headerAheadBehind : Str := "branch.ab".toList
def initialOID : Str := "(initial)".toList
def detachedHead : Str := "(detached)".toList

def stateOf (code : Char) : Option State :=
  if code = '.' then none
  else if code = 'A' then some .added
  else if code = 'D' then some .deleted
  else if code = 'R' then some .renamed
  else if code = 'C' then some .copied
  else some .modified

def statesOf : Str → Option (Option State × Option State)
  | x :: y :: _ => some (stateOf x,stateOf y)
  | _ => none

def ordinaryEntry (rest : Str) : Option FileStatus :=
  let fields := splitN fieldSeparator ordinaryFields rest
  if fields.length < ordinaryFields then none
  else
    (statesOf (fields.getD 0 [])).map (fun states =>
      ⟨fields.getD (ordinaryFields - 1) [],states.1,states.2,false,[]⟩)

def renamedEntry (rest origPath : Str) : Option FileStatus :=
  let fields := splitN fieldSeparator renamedFields rest
  if fields.length < renamedFields then none
  else
    (statesOf (fields.getD 0 [])).map (fun states =>
      ⟨fields.getD (renamedFields - 1) [],states.1,states.2,false,origPath⟩)

def unmergedEntry (rest : Str) : Option FileStatus :=
  let fields := splitN fieldSeparator unmergedFields rest
  if fields.length < unmergedFields then none
  else some ⟨fields.getD (unmergedFields - 1) [],none,none,true,[]⟩

def entryOf (kind rest : Str) : Option FileStatus :=
  if kind = kindOrdinary then ordinaryEntry rest
  else if kind = kindUnmerged then unmergedEntry rest
  else if kind = kindUntracked then some ⟨rest,none,some .untracked,false,[]⟩
  else none

def signedCount (field sign : Str) : Int :=
  match cutPrefix sign field with
  | none => 0
  | some digits =>
    match parseInt digits with
    | none => 0
    | some n => if n < 0 then 0 else n

def aheadBehind (value : Str) : Int × Int :=
  match cut fieldSeparator value with
  | none => (0,0)
  | some (plus,minus) => (signedCount plus "+".toList,signedCount minus "-".toList)

def applyHeader (branch : Branch) (rest : Str) : Branch :=
  match cut fieldSeparator rest with
  | none => branch
  | some (key,value) =>
    if key = headerOID then { branch with unborn := value = initialOID }
    else if key = headerHead then
      if value = detachedHead then { branch with detached := true } else { branch with name := value }
    else if key = headerUpstream then { branch with upstream := value }
    else if key = headerAheadBehind then { branch with ahead := (aheadBehind value).1, behind := (aheadBehind value).2 }
    else branch

def splitRecords (out : Str) : List Str :=
  let records := out.splitOn recordSeparator
  if records.getLast? = some [] then records.dropLast else records

def Status.add (status : Status) (entry : Option FileStatus) : Status := { status with files := status.files ++ entry.toList }

def scan (status : Status) : List Str → Status
  | [] => status
  | record :: records =>
    match cut fieldSeparator record with
    | none => scan status records
    | some (kind,rest) =>
      if kind = kindHeader then scan { status with branch := applyHeader status.branch rest } records
      else if kind = kindRenamed then
        -- `takeNext`: the record after a rename is its source path, and past the end that is empty
        match records with
        | [] => status.add (renamedEntry rest [])
        | origPath :: records => scan (status.add (renamedEntry rest origPath)) records
      else scan (status.add (entryOf kind rest)) records

def parse (out : Str) : Status := scan (statusFor .available) (splitRecords out)

inductive Header where
  | initial
  | oid (sha : Str)
  | detached
  | head (name : Str)
  | upstream (name : Str)
  | aheadBehind (ahead behind : Nat)
  deriving DecidableEq, Repr

inductive Record where
  | header (h : Header)
  | ordinary (x y : Char) (fields : List Str) (path : Str)
  | renamed (x y : Char) (fields : List Str) (path origPath : Str)
  | unmerged (xy : Str) (fields : List Str) (path : Str)
  | untracked (path : Str)
  | unknown (text : Str)
  deriving DecidableEq, Repr

def Header.text : Header → Str
  | .initial => headerOID ++ ' ' :: initialOID
  | .oid sha => headerOID ++ ' ' :: sha
  | .detached => headerHead ++ ' ' :: detachedHead
  | .head name => headerHead ++ ' ' :: name
  | .upstream name => headerUpstream ++ ' ' :: name
  | .aheadBehind ahead behind => headerAheadBehind ++ ' ' :: ('+' :: decimal ahead ++ ' ' :: '-' :: decimal behind)

/-- What a record is written as, up to the separators: a rename is two pieces. -/
def Record.pieces : Record → List Str
  | .header h => [kindHeader ++ ' ' :: h.text]
  | .ordinary x y fields path => [kindOrdinary ++ ' ' :: spaced ' ' ([x,y] :: fields) path]
  | .renamed x y fields path origPath => [kindRenamed ++ ' ' :: spaced ' ' ([x,y] :: fields) path,origPath]
  | .unmerged xy fields path => [kindUnmerged ++ ' ' :: spaced ' ' (xy :: fields) path]
  | .untracked path => [kindUntracked ++ ' ' :: path]
  | .unknown text => [text]

def encode (records : List Record) : Str :=
  (records.flatMap Record.pieces).flatMap (fun piece => piece ++ [recordSeparator])

def Field (field : Str) : Prop := ' ' ∉ field ∧ recordSeparator ∉ field
instance (field) : Decidable (Field field) := inferInstanceAs (Decidable (_ ∧ _))

def Unread (record : Str) : Prop :=
  recordSeparator ∉ record ∧
    ∀ kind ∈ (cut ' ' record).map Prod.fst, kind ∉ [kindHeader,kindOrdinary,kindRenamed,kindUnmerged,kindUntracked]
instance (record) : Decidable (Unread record) := inferInstanceAs (Decidable (_ ∧ _))

def Header.Wf : Header → Prop
  | .oid sha => recordSeparator ∉ sha ∧ sha ≠ initialOID
  | .head name => recordSeparator ∉ name ∧ name ≠ detachedHead
  | .upstream name => recordSeparator ∉ name
  | .aheadBehind ahead behind => ahead < 2 ^ 63 ∧ behind < 2 ^ 63
  | _ => True
instance (header : Header) : Decidable header.Wf := by unfold Header.Wf; cases header <;> infer_instance

/-- The fields in front of a path hold no separator; a path may hold anything but the record's own. -/
def Record.Wf : Record → Prop
  | .header h => h.Wf
  | .ordinary x y fields path => (∀ field ∈ [x,y] :: fields, Field field) ∧ fields.length = 6 ∧ recordSeparator ∉ path
  | .renamed x y fields path origPath =>
      (∀ field ∈ [x,y] :: fields, Field field) ∧ fields.length = 7 ∧ recordSeparator ∉ path ∧ recordSeparator ∉ origPath
  | .unmerged xy fields path => (∀ field ∈ xy :: fields, Field field) ∧ fields.length = 8 ∧ recordSeparator ∉ path
  | .untracked path => recordSeparator ∉ path
  | .unknown text => Unread text
instance (record : Record) : Decidable record.Wf := by unfold Record.Wf; cases record <;> infer_instance

def Header.fold (branch : Branch) : Header → Branch
  | .initial => { branch with unborn := true }
  | .oid _ => { branch with unborn := false }
  | .detached => { branch with detached := true }
  | .head name => { branch with name }
  | .upstream name => { branch with upstream := name }
  | .aheadBehind ahead behind => { branch with ahead, behind }

def Record.branch (branch : Branch) : Record → Branch
  | .header h => h.fold branch
  | _ => branch

/-- What git means by a status letter: `M` and `T`, and any it may add, are modifications. -/
def lettered : Char → Option State
  | '.' => none
  | 'A' => some .added
  | 'D' => some .deleted
  | 'R' => some .renamed
  | 'C' => some .copied
  | _ => some .modified

def Record.file : Record → Option FileStatus
  | .ordinary x y _ path => some ⟨path,lettered x,lettered y,false,[]⟩
  | .renamed x y _ path origPath => some ⟨path,lettered x,lettered y,false,origPath⟩
  | .unmerged _ _ path => some ⟨path,none,none,true,[]⟩
  | .untracked path => some ⟨path,none,some .untracked,false,[]⟩
  | _ => none

def decoded (records : List Record) : Status :=
  ⟨.available,records.foldl Record.branch ⟨[],[],0,0,false,false⟩,records.filterMap Record.file⟩

def Record.onto (status : Status) (record : Record) : Status :=
  ⟨status.availability,record.branch status.branch,status.files ++ record.file.toList⟩

theorem stateLettered (code : Char) : stateOf code = lettered code := by
  unfold stateOf
  split_ifs with none_ added deleted renamed copied
  · subst none_; rfl
  · subst added; rfl
  · subst deleted; rfl
  · subst renamed; rfl
  · subst copied; rfl
  · unfold lettered
    split <;> first | contradiction | rfl

theorem decimalPlain {c : Char} (other : c.isDigit = false) (n : Nat) : c ∉ decimal n :=
  fun member => by simpa [other] using decimalDigit member

theorem headerPlain {h : Header} (wf : h.Wf) : recordSeparator ∉ h.text := by
  cases h with
  | initial => decide
  | detached => decide
  | oid sha => simp only [Header.text,List.mem_append,List.mem_cons,not_or]; exact ⟨by decide,by decide,wf.1⟩
  | head name => simp only [Header.text,List.mem_append,List.mem_cons,not_or]; exact ⟨by decide,by decide,wf.1⟩
  | upstream name => simp only [Header.text,List.mem_append,List.mem_cons,not_or]; exact ⟨by decide,by decide,wf⟩
  | aheadBehind ahead behind =>
    simp only [Header.text,List.mem_append,List.mem_cons,not_or]
    have none_ := decimalPlain (c := recordSeparator) (by decide)
    exact ⟨by decide,by decide,⟨by decide,none_ ahead⟩,by decide,by decide,none_ behind⟩

theorem piecesPlain {record : Record} (wf : record.Wf) : ∀ piece ∈ record.pieces, recordSeparator ∉ piece := by
  have fieldsPlain : ∀ {kind : Str} {fields : List Str} {path : Str}, recordSeparator ∉ kind →
      (∀ field ∈ fields, Field field) → recordSeparator ∉ path → recordSeparator ∉ kind ++ ' ' :: spaced ' ' fields path := by
    intro kind fields path plain each whole
    rw [List.mem_append,List.mem_cons,not_or,not_or]
    exact ⟨plain,by decide,spacedPlain (by decide) (fun field member => (each field member).2) whole⟩
  cases record with
  | header h =>
    refine List.forall_mem_singleton.mpr ?_
    rw [List.mem_append,List.mem_cons,not_or,not_or]
    exact ⟨by decide,by decide,headerPlain wf⟩
  | ordinary x y fields path => exact List.forall_mem_singleton.mpr (fieldsPlain (by decide) wf.1 wf.2.2)
  | renamed x y fields path origPath =>
    exact List.forall_mem_cons.mpr ⟨fieldsPlain (by decide) wf.1 wf.2.2.1,List.forall_mem_singleton.mpr wf.2.2.2⟩
  | unmerged xy fields path => exact List.forall_mem_singleton.mpr (fieldsPlain (by decide) wf.1 wf.2.2)
  | untracked path =>
    refine List.forall_mem_singleton.mpr ?_
    rw [List.mem_append,List.mem_cons,not_or,not_or]
    exact ⟨by decide,by decide,wf⟩
  | unknown text => exact List.forall_mem_singleton.mpr wf.1

theorem splitEncoded {records : List Record} (wf : ∀ record ∈ records, record.Wf) :
    splitRecords (encode records) = records.flatMap Record.pieces := by
  have plain : ∀ piece ∈ records.flatMap Record.pieces, recordSeparator ∉ piece := by
    intro piece member
    obtain ⟨record,listed,inside⟩ := List.mem_flatMap.mp member
    exact piecesPlain (wf record listed) piece inside
  unfold splitRecords encode
  simp only
  rw [splitTerminated plain,if_pos (by simp),List.dropLast_concat]

theorem fieldsRead {first : Str} {fields : List Str} (each : ∀ field ∈ first :: fields, Field field) (path : Str) (count : Nat)
    (counted : fields.length + 2 = count) :
    splitN fieldSeparator count (spaced ' ' (first :: fields) path) = first :: fields ++ [path] := by
  subst counted
  exact splitSpaced (fun field member => (each field member).1) path

theorem lastField (front : List Str) (path : Str) {n : Nat} (at_ : front.length = n) : (front ++ [path]).getD n [] = path := by
  subst at_
  simp

theorem ordinaryRead {x y : Char} {fields : List Str} (each : ∀ field ∈ [x,y] :: fields, Field field) (counted : fields.length = 6)
    (path : Str) : ordinaryEntry (spaced ' ' ([x,y] :: fields) path) = some ⟨path,lettered x,lettered y,false,[]⟩ := by
  unfold ordinaryEntry
  rw [fieldsRead each path ordinaryFields (by rw [counted]; rfl)]
  simp only
  rw [lastField ([x,y] :: fields) path (by rw [List.length_cons,counted]; rfl),if_neg (by simp [counted,ordinaryFields]),← stateLettered,
    ← stateLettered]
  rfl

theorem renamedRead {x y : Char} {fields : List Str} (each : ∀ field ∈ [x,y] :: fields, Field field) (counted : fields.length = 7)
    (path origPath : Str) :
    renamedEntry (spaced ' ' ([x,y] :: fields) path) origPath = some ⟨path,lettered x,lettered y,false,origPath⟩ := by
  unfold renamedEntry
  rw [fieldsRead each path renamedFields (by rw [counted]; rfl)]
  simp only
  rw [lastField ([x,y] :: fields) path (by rw [List.length_cons,counted]; rfl),if_neg (by simp [counted,renamedFields]),← stateLettered,
    ← stateLettered]
  rfl

theorem unmergedRead {xy : Str} {fields : List Str} (each : ∀ field ∈ xy :: fields, Field field) (counted : fields.length = 8)
    (path : Str) : unmergedEntry (spaced ' ' (xy :: fields) path) = some ⟨path,none,none,true,[]⟩ := by
  unfold unmergedEntry
  rw [fieldsRead each path unmergedFields (by rw [counted]; rfl)]
  simp only
  rw [lastField (xy :: fields) path (by rw [List.length_cons,counted]; rfl),if_neg (by simp [counted,unmergedFields])]

theorem cutAt {a : Str} (plain : ' ' ∉ a) (b : Str) : cut fieldSeparator (a ++ ' ' :: b) = some (a,b) := cutPlain plain b

theorem countRead {n : Nat} (small : n < 2 ^ 63) (sign : Char) : signedCount (sign :: decimal n) [sign] = n := by
  have unsigned : cutPrefix [sign] (sign :: decimal n) = some (decimal n) := cutPrefixExact.mpr rfl
  simp only [signedCount,unsigned,parseDecimal small]
  exact if_neg (by omega)

theorem headerRead {h : Header} (wf : h.Wf) (branch : Branch) : applyHeader branch h.text = h.fold branch := by
  unfold applyHeader
  cases h with
  | initial =>
    rw [Header.text,cutAt (by decide)]
    rfl
  | oid sha =>
    rw [Header.text,cutAt (by decide)]
    simp only [if_true,decide_eq_false wf.2]
    rfl
  | detached =>
    rw [Header.text,cutAt (by decide)]
    rfl
  | head name =>
    rw [Header.text,cutAt (by decide)]
    simp only [if_neg wf.2]
    rfl
  | upstream name =>
    rw [Header.text,cutAt (by decide)]
    rfl
  | aheadBehind ahead behind =>
    have spaceless : fieldSeparator ∉ '+' :: decimal ahead :=
      List.not_mem_cons_of_ne_of_not_mem (by decide) (decimalPlain (by decide) ahead)
    have counts : aheadBehind ('+' :: decimal ahead ++ ' ' :: '-' :: decimal behind) = (↑ahead,↑behind) := by
      unfold aheadBehind
      rw [cutAt spaceless]
      exact Prod.ext (countRead wf.1 '+') (countRead wf.2 '-')
    rw [Header.text,cutAt (by decide)]
    simp only [counts]
    rfl

theorem scanRecord {record : Record} (wf : record.Wf) (status : Status) (later : List Str) :
    scan status (record.pieces ++ later) = scan (record.onto status) later := by
  cases record with
  | header h =>
    rw [Record.pieces,List.singleton_append,scan,cutAt (by decide)]
    simp only [if_true,headerRead wf]
    simp [Record.onto,Record.branch,Record.file]
  | ordinary x y fields path =>
    rw [Record.pieces,List.singleton_append,scan,cutAt (by decide)]
    simp only [entryOf,if_true,ordinaryRead wf.1 wf.2.1]
    rfl
  | renamed x y fields path origPath =>
    rw [Record.pieces,List.cons_append,List.singleton_append,scan,cutAt (by decide)]
    simp only [if_true,renamedRead wf.1 wf.2.1]
    rfl
  | unmerged xy fields path =>
    rw [Record.pieces,List.singleton_append,scan,cutAt (by decide)]
    simp only [entryOf,if_true,unmergedRead wf.1 wf.2.1]
    rfl
  | untracked path =>
    rw [Record.pieces,List.singleton_append,scan,cutAt (by decide)]
    rfl
  | unknown text =>
    rw [Record.pieces,List.singleton_append,scan]
    have same : (Record.unknown text).onto status = status := by simp [Record.onto,Record.branch,Record.file]
    rw [same]
    cases parts : cut fieldSeparator text with
    | none => rfl
    | some pair =>
      obtain ⟨kind,rest⟩ := pair
      have other := wf.2 kind (by rw [show ' ' = fieldSeparator from rfl,parts]; rfl)
      simp only [List.mem_cons,not_or] at other
      simp only [entryOf,if_neg other.1,if_neg other.2.1,if_neg other.2.2.1,if_neg other.2.2.2.1,if_neg other.2.2.2.2.1]
      simp [Status.add]

theorem scanRecords {records : List Record} (wf : ∀ record ∈ records, record.Wf) (status : Status) :
    scan status (records.flatMap Record.pieces) =
      ⟨status.availability,records.foldl Record.branch status.branch,status.files ++ records.filterMap Record.file⟩ := by
  induction records generalizing status with
  | nil => simp [scan]
  | cons record records ih =>
    rw [List.flatMap_cons,scanRecord (wf record List.mem_cons_self),ih (fun other member => wf other (List.mem_cons_of_mem _ member))]
    cases there : record.file with
    | none => simp [Record.onto,there]
    | some file => simp [Record.onto,there]

theorem parseEncoded {records : List Record} (wf : ∀ record ∈ records, record.Wf) : parse (encode records) = decoded records := by
  rw [parse,splitEncoded wf,scanRecords wf]
  rfl

theorem recordsReadBack {records : List Record} (wf : ∀ record ∈ records, record.Wf) :
    parse (encode records) = decoded records ∧
    (∀ before after text, records = before ++ after → Unread text →
      parse (encode (before ++ .unknown text :: after)) = parse (encode records)) ∧
    (∀ before after x y fields path origPath, records = before ++ .renamed x y fields path origPath :: after →
      (parse (encode records)).files =
        (parse (encode before)).files ++ ⟨path,lettered x,lettered y,false,origPath⟩ :: (parse (encode after)).files) := by
  refine ⟨parseEncoded wf,fun before after text split unread => ?_,fun before after x y fields path origPath split => ?_⟩
  · have more : ∀ record ∈ before ++ .unknown text :: after, record.Wf := by
      intro record member
      rcases List.mem_append.mp member with front | back
      · exact wf record (by rw [split]; exact List.mem_append_left _ front)
      · rcases List.mem_cons.mp back with rfl | back
        · exact unread
        · exact wf record (by rw [split]; exact List.mem_append_right _ back)
    have skipped : (Record.unknown text :: after).filterMap Record.file = after.filterMap Record.file :=
      List.filterMap_cons_none rfl
    rw [parseEncoded more,parseEncoded wf,split]
    simp only [decoded,List.foldl_append,List.filterMap_append,skipped]
    rfl
  · have front : ∀ record ∈ before, record.Wf := fun record member =>
      wf record (by rw [split]; exact List.mem_append_left _ member)
    have back : ∀ record ∈ after, record.Wf := fun record member =>
      wf record (by rw [split]; exact List.mem_append_right _ (List.mem_cons_of_mem _ member))
    rw [parseEncoded wf,parseEncoded front,parseEncoded back,split]
    simp [decoded,Record.file]

def odd : List Record :=
  [.header (.head "main".toList),.header (.aheadBehind 2 0),
    .renamed 'R' 'M' (["N...","100644","100644","100644","aa","bb","R90"].map String.toList) "2 b".toList "? a".toList,
    .unknown "! build/".toList,.untracked "new\n file".toList]

theorem oddReadBack : (parse (encode odd)).files =
    [⟨"2 b".toList,some .renamed,some .modified,false,"? a".toList⟩,⟨"new\n file".toList,none,some .untracked,false,[]⟩] := by
  rw [(@recordsReadBack odd (by decide)).1]
  decide

end M6t.GitStatus
