import M6t.GoStrings
import M6t.Json
import M6t.Terminal
import M6t.TerminalSession
import M6t.Utf8

/-! The text frames of the stream, each side's writing against the other side's reading: the
server's messages as the window decodes them, the window's control frames as the server does. -/
namespace M6t.StreamWire
open M6t.Text M6t.Json
open M6t.Terminal (Control Reader Inbound applyControl size exitText)

def typeResize : Str := "resize".toList
def typeClose : Str := "close".toList
def typeExit : Str := "exit".toList
def typeResync : Str := "resync".toList
def typeTree : Str := "tree".toList
def typeGit : Str := "git".toList
def typeHealth : Str := "health".toList

def envelope (type : Str) (payload : Value) : Value :=
  .object (Fields.of [("type".toList,.text type),("payload".toList,payload)])

def record (fields : List (String × Value)) : Value := .object (Fields.of (fields.map (fun f => (f.1.toList,f.2))))

def htmlEscaped (c : Char) : Bool := c ∈ ['<','>','&','\u2028','\u2029']

inductive Sent where
  | exit (code : Int)
  | resync (droppedBytes : Int)
  | tree (root : Str) (dirs : Option (List Str))
  | git (root : Str)
  | health (root : Str)
  deriving DecidableEq, Repr

def texts : Option (List Str) → Value
  | none => .null
  | some texts => .array (Items.of (texts.map .text))

def Sent.value : Sent → Value
  | .exit code => envelope typeExit (record [("code",.number (numeral code))])
  | .resync droppedBytes => envelope typeResync (record [("droppedBytes",.number (numeral droppedBytes))])
  | .tree root dirs => envelope typeTree (record [("root",.text root),("dirs",texts dirs)])
  | .git root => envelope typeGit (record [("root",.text root)])
  | .health root => envelope typeHealth (record [("root",.text root)])

def marshal (m : Sent) : Str := m.value.encode htmlEscaped

inductive ServerMessage (ν : Type) where
  | exit (code : ν)
  | resync (droppedBytes : ν)
  | tree (root : Str) (dirs : List Str)
  | git (root : Str)
  | health (root : Str)
  deriving DecidableEq, Repr

def property (name : String) : Value → Option Value
  | .object fields => fields.get name.toList
  | _ => none

def parseEnvelope (raw : Str) : Option (Str × Option Value) :=
  match Json.parse raw with
  | none => none
  | some parsed =>
    match property "type" parsed with
    | some (.text type) => some (type,property "payload" parsed)
    | _ => none

section
variable {ν : Type} (number : Numeral → ν)

def withNumber (payload : Option Value) (field : String) (build : ν → ServerMessage ν) : Option (ServerMessage ν) :=
  match payload.bind (property field) with
  | some (.number n) => some (build (number n))
  | _ => none

def withRoot (payload : Option Value) (build : Str → Option (ServerMessage ν)) : Option (ServerMessage ν) :=
  match payload.bind (property "root") with
  | some (.text root) => build root
  | _ => none

def stringOf : Value → Option Str
  | .text s => some s
  | _ => none

def withTreePayload (payload : Option Value) (build : Str → List Str → ServerMessage ν) : Option (ServerMessage ν) :=
  withRoot payload (fun root =>
    match payload.bind (property "dirs") with
    | some (.array items) => (items.list.mapM stringOf).map (build root)
    | _ => none)

def decodeServerMessage (raw : Str) : Option (ServerMessage ν) :=
  match parseEnvelope raw with
  | none => none
  | some (type,payload) =>
    if type = typeExit then withNumber number payload "code" .exit
    else if type = typeResync then withNumber number payload "droppedBytes" .resync
    else if type = typeTree then withTreePayload payload .tree
    else if type = typeGit then withRoot payload (fun root => some (.git root))
    else if type = typeHealth then withRoot payload (fun root => some (.health root))
    else none

end

def plain (_ : Char) : Bool := false

def printed : Option Numeral → Value
  | none => .null
  | some n => .number n

def resizeFrame (cols rows : Option Numeral) : Str :=
  (envelope typeResize (record [("cols",printed cols),("rows",printed rows)])).encode plain

def closeFrame : Str := (record [("type",.text typeClose)]).encode plain

/-- `foldRune` on what can meet a letter of the names below: two letters outside ASCII fold into it. -/
def foldRune (c : Char) : Char :=
  if c.isLower then c.toUpper else if c = '\u017f' then 'S' else if c = '\u212a' then 'K' else c

def names (key : Str) (name : String) : Bool := key.map foldRune = name.toList.map foldRune

def parseUint16 (s : Str) : Option UInt16 :=
  (GoStrings.digits s).bind (fun n => if n < 2 ^ 16 then some (UInt16.ofNat n) else none)

def isNull : Value → Bool
  | .null => true
  | _ => false

/-- `null` leaves a field as it is, and a value that does not fit fails the call. -/
def decodeFields {α : Type} (set : Str → Value → α → Option α) : Fields → α → Option α
  | .none,x => some x
  | .more key v rest,x => (if isNull v then some x else set key v x).bind (decodeFields set rest)

def dimension : Value → Option UInt16
  | .number n => parseUint16 n.text
  | _ => none

def setSize (key : Str) (v : Value) (c : Control) : Option Control :=
  if names key "cols" then (dimension v).map (fun n => { c with cols := n })
  else if names key "rows" then (dimension v).map (fun n => { c with rows := n })
  else some c

def setControl (key : Str) (v : Value) (c : Control) : Option Control :=
  if names key "type" then (stringOf v).map (fun t => { c with type := t })
  else if names key "payload" then
    match v with
    | .object fields => decodeFields setSize fields c
    | _ => none
  else some c

def zero : Control := ⟨[],0,0⟩

def unmarshalControl (data : Str) : Option Control :=
  match Json.parse data with
  | some (.object fields) => decodeFields setControl fields zero
  | some .null => some zero
  | _ => none

def inbound : TerminalSession.Frame → Inbound
  | .input data => .binary (Utf8.encode data)
  | .resize cols rows => .text (unmarshalControl (resizeFrame (some (numeral cols)) (some (numeral rows))))
  | .close => .text (unmarshalControl closeFrame)

theorem htmlNarrow : Narrow htmlEscaped := by
  intro c escaped
  simp only [htmlEscaped,List.mem_cons,List.not_mem_nil,or_false,decide_eq_true_eq] at escaped
  rcases escaped with rfl|rfl|rfl|rfl|rfl <;> decide

theorem plainNarrow : Narrow plain := by
  intro c escaped
  simp [plain] at escaped

theorem envelopeParsed {extra : Char → Bool} (narrow : Narrow extra) (type : Str) (payload : Value) :
    parseEnvelope ((envelope type payload).encode extra) = some (type,some payload) := by
  simp [parseEnvelope,encodedParses narrow,envelope,property,Fields.of,Fields.get]

@[simp] theorem propertyRecord (name : String) (fields : List (String × Value)) :
    property name (record fields) = (Fields.of (fields.map (fun f => (f.1.toList,f.2)))).get name.toList := rfl

theorem textsRead (dirs : List Str) : dirs.mapM (stringOf ∘ Value.text) = some dirs := by
  induction dirs with
  | nil => rfl
  | cons dir dirs ih => simp [stringOf,ih]

def Sent.meant {ν : Type} (number : Int → ν) : Sent → Option (ServerMessage ν)
  | .exit code => some (.exit (number code))
  | .resync droppedBytes => some (.resync (number droppedBytes))
  | .tree root dirs => dirs.map (.tree root)
  | .git root => some (.git root)
  | .health root => some (.health root)

theorem intPrinted (n : Int) : (toString n).toList = intText n := by
  unfold intText
  cases n with
  | ofNat n =>
    have whole : ¬ (n : Int) < 0 := by omega
    simp only [Int.ofNat_eq_natCast,Int.toString_eq_repr,if_neg whole,Int.natAbs_natCast]
    exact String.toList_ofList
  | negSucc n =>
    have minus : Int.negSucc n < 0 := Int.negSucc_lt_zero n
    simp only [Int.toString_eq_repr,Int.repr,if_pos minus,Int.natAbs_negSucc,Nat.repr]
    simp

theorem exitMarshalled (code : Int) : exitText code = marshal (.exit code) := by
  have type : encodeText htmlEscaped "type".toList = "\"type\"".toList := by decide +kernel
  have exit : encodeText htmlEscaped typeExit = "\"exit\"".toList := by decide +kernel
  have payload : encodeText htmlEscaped "payload".toList = "\"payload\"".toList := by decide +kernel
  have field : encodeText htmlEscaped "code".toList = "\"code\"".toList := by decide +kernel
  unfold exitText
  rw [intPrinted]
  simp only [marshal,Sent.value,envelope,record,List.map_cons,List.map_nil,Fields.of,Value.encode,Fields.encode,type,exit,
    payload,field,numeral]
  simp

theorem serverDecoded {ν : Type} (number : Numeral → ν) (m : Sent) :
    decodeServerMessage number (marshal m) = m.meant (fun n => number (numeral n)) := by
  cases m with
  | exit code =>
    simp [decodeServerMessage,marshal,Sent.value,envelopeParsed htmlNarrow,withNumber,Fields.of,Fields.get,Sent.meant]
  | resync droppedBytes =>
    simp [decodeServerMessage,marshal,Sent.value,envelopeParsed htmlNarrow,withNumber,Fields.of,Fields.get,Sent.meant,
      typeExit,typeResync]
  | tree root dirs =>
    cases dirs <;> simp [decodeServerMessage,marshal,Sent.value,envelopeParsed htmlNarrow,withTreePayload,withRoot,texts,
      Fields.of,Fields.get,textsRead,Sent.meant,typeExit,typeResync,typeTree]
  | git root =>
    simp [decodeServerMessage,marshal,Sent.value,envelopeParsed htmlNarrow,withRoot,Fields.of,Fields.get,Sent.meant,typeExit,
      typeResync,typeTree,typeGit]
  | health root =>
    simp [decodeServerMessage,marshal,Sent.value,envelopeParsed htmlNarrow,withRoot,Fields.of,Fields.get,Sent.meant,typeExit,
      typeResync,typeTree,typeGit,typeHealth]

theorem strangerSkipped {ν : Type} (number : Numeral → ν) {extra : Char → Bool} (narrow : Narrow extra) {type : Str}
    (payload : Value) (strange : type ∉ [typeExit,typeResync,typeTree,typeGit,typeHealth]) :
    decodeServerMessage number ((envelope type payload).encode extra) = none := by
  simp only [List.mem_cons,List.not_mem_nil,or_false,not_or] at strange
  obtain ⟨s1,s2,s3,s4,s5⟩ := strange
  simp [decodeServerMessage,envelopeParsed narrow,s1,s2,s3,s4,s5]

theorem sizeKeeps {key : Str} {v : Value} {c d : Control} (done : setSize key v c = some d) : d.type = c.type := by
  unfold setSize at done
  split_ifs at done
  · obtain ⟨n,-,rfl⟩ := Option.map_eq_some_iff.mp done
    rfl
  · obtain ⟨n,-,rfl⟩ := Option.map_eq_some_iff.mp done
    rfl
  · obtain rfl := Option.some.inj done
    rfl

theorem fieldsKeep {set : Str → Value → Control → Option Control} {type : Str} :
    ∀ {fields : Fields} {c d : Control}, (∀ {key v} {c d : Control}, set key v c = some d → c.type = type → d.type = type) →
      decodeFields set fields c = some d → c.type = type → d.type = type
  | .none,c,d,_,done,held => by
    obtain rfl := Option.some.inj done
    exact held
  | .more key v rest,c,d,keep,done,held => by
    obtain ⟨e,filled,done⟩ := Option.bind_eq_some_iff.mp done
    refine fieldsKeep keep done ?_
    split at filled
    · obtain rfl := Option.some.inj filled
      exact held
    · exact keep filled held

theorem envelopeControl {extra : Char → Bool} (narrow : Narrow extra) (type : Str) (payload : Value) :
    unmarshalControl ((envelope type payload).encode extra) =
      decodeFields setControl (Fields.of [("payload".toList,payload)]) { zero with type := type } := by
  simp [unmarshalControl,encodedParses narrow,envelope,Fields.of,decodeFields,setControl,names,stringOf,isNull]

theorem strangerUncontrolled {extra : Char → Bool} (narrow : Narrow extra) {type : Str} (payload : Value)
    (strange : type ∉ [typeResize,typeClose]) :
    applyControl (unmarshalControl ((envelope type payload).encode extra)) = .reading := by
  rw [envelopeControl narrow]
  cases done : decodeFields setControl (Fields.of [("payload".toList,payload)]) { zero with type := type } with
  | none => rfl
  | some c =>
    have held : c.type = type := by
      obtain ⟨d,filled,last⟩ := Option.bind_eq_some_iff.mp done
      obtain rfl := Option.some.inj last
      split at filled
      · obtain rfl := Option.some.inj filled
        rfl
      · cases payload <;> simp [setControl,names] at filled
        next fields => exact fieldsKeep (fun set held => (sizeKeeps set).trans held) filled rfl
    simp only [List.mem_cons,List.not_mem_nil,or_false,not_or] at strange
    have s1 : c.type ≠ "resize".toList := held ▸ strange.1
    have s2 : c.type ≠ "close".toList := held ▸ strange.2
    simp only [applyControl,if_neg s1,if_neg s2]

theorem uintRead (n : Int) : parseUint16 (intText n) = if 0 ≤ n ∧ n < 2 ^ 16 then some (UInt16.ofNat n.toNat) else none := by
  by_cases minus : n < 0
  · have dash : ('-' :: Nat.toDigits 10 n.natAbs).all Char.isDigit = false := rfl
    have outside : ¬ 0 ≤ n := by omega
    simp [parseUint16,intText,minus,GoStrings.digits,dash,outside]
  · have back : GoStrings.digits (Nat.toDigits 10 n.natAbs) = some n.natAbs := GoStrings.digitsDecimal _
    have same : n.natAbs = n.toNat := by omega
    have range : n.natAbs < 2 ^ 16 ↔ 0 ≤ n ∧ n < 2 ^ 16 := by omega
    rw [parseUint16,intText,if_neg minus,back,Option.bind_some,← same]
    simp only [range]

theorem resizeControl (cols rows : Int) :
    unmarshalControl (resizeFrame (some (numeral cols)) (some (numeral rows))) =
      (parseUint16 (intText cols)).bind (fun c => (parseUint16 (intText rows)).map (fun r => ⟨typeResize,c,r⟩)) := by
  rw [resizeFrame,envelopeControl plainNarrow]
  have apart : foldRune 'r' ≠ foldRune 'c' := by decide
  cases read : parseUint16 (intText cols) <;>
    simp [Fields.of,decodeFields,setControl,names,record,printed,setSize,dimension,numeral,isNull,apart,read]

theorem closeControl : unmarshalControl closeFrame = some { zero with type := typeClose } := by
  simp [unmarshalControl,closeFrame,encodedParses plainNarrow,record,Fields.of,decodeFields,setControl,names,stringOf,isNull]

def asked : TerminalSession.Frame → Reader
  | .input data => .writing (Utf8.encode data)
  | .resize cols rows =>
    if cols < 2 ^ 16 ∧ rows < 2 ^ 16 then .resizing (size (UInt16.ofNat cols) (UInt16.ofNat rows)) else .reading
  | .close => .killing

theorem resizeAsked (cols rows : Nat) : applyControl (unmarshalControl
    (resizeFrame (some (numeral cols)) (some (numeral rows)))) = asked (.resize cols rows) := by
  rw [resizeControl,uintRead,uintRead]
  have range (n : Nat) : (0 ≤ (n : Int) ∧ (n : Int) < 2 ^ 16) ↔ n < 2 ^ 16 := by omega
  simp only [range,Int.toNat_natCast,asked]
  by_cases wide : cols < 2 ^ 16
  · by_cases tall : rows < 2 ^ 16
    · simp only [wide,tall,if_true,Option.bind_some,Option.map_some,and_self]
      rfl
    · simp only [wide,tall,if_true,if_false,Option.bind_some,Option.map_none,and_false]
      rfl
  · simp only [wide,if_false,Option.bind_none,false_and]
    rfl

theorem serverRead {ν : Type} (number : Numeral → ν) :
    (∀ m : Sent, decodeServerMessage number (marshal m) = m.meant (fun n => number (numeral n))) ∧
    (∀ code, decodeServerMessage number (exitText code) = some (.exit (number (numeral code)))) ∧
    ∀ type payload, type ∉ [typeExit,typeResync,typeTree,typeGit,typeHealth] →
      decodeServerMessage number ((envelope type payload).encode htmlEscaped) = none := by
  refine ⟨serverDecoded number,fun code => ?_,fun type payload strange => strangerSkipped number htmlNarrow payload strange⟩
  rw [exitMarshalled,serverDecoded]
  rfl

theorem windowRead (s : Terminal.State) (here : s.reader = .reading) :
    (∀ f, Terminal.step s (.receive (inbound f)) = some { s with reader := asked f }) ∧
    ∀ type payload, type ∉ [typeResize,typeClose] →
      Terminal.step s (.receive (.text (unmarshalControl ((envelope type payload).encode plain)))) = some s := by
  refine ⟨fun f => ?_,fun type payload strange => ?_⟩
  · cases f with
    | input data => simp [Terminal.step,here,inbound,asked]
    | resize cols rows => simp [Terminal.step,here,inbound,resizeAsked]
    | close => simp [Terminal.step,here,inbound,closeControl,applyControl,asked,typeClose]
  · simp [Terminal.step,here,strangerUncontrolled plainNarrow payload strange]
    rw [← here]

theorem resizedWindow : Terminal.step (Terminal.attach [] none) (.receive (inbound (.resize 120 70000))) =
      some (Terminal.attach [] none) ∧
    Terminal.step (Terminal.attach [] none) (.receive (inbound (.resize 120 0))) =
      some { Terminal.attach [] none with reader := .resizing (120,24) } :=
  ⟨(windowRead _ rfl).1 (.resize 120 70000),(windowRead _ rfl).1 (.resize 120 0)⟩

end M6t.StreamWire
