import M6t.Text

/-! Go's `strings` and `strconv` over arbitrary bytes: a string is its bytes, one character
for each, and a separator is one byte. `fields` cuts at the UTF-8 forms of white space. -/
namespace M6t.GoStrings
open M6t.Text

/-- `strings.Cut`, `none` where it answers false. -/
def cut (sep : Char) : Str → Option (Str × Str)
  | [] => none
  | c :: s => if c = sep then some ([],s) else (cut sep s).map (fun parts => (c :: parts.1,parts.2))

def splitN (sep : Char) : Nat → Str → List Str
  | 0,_ => []
  | 1,s => [s]
  | n + 2,s =>
    match cut sep s with
    | none => [s]
    | some (field,rest) => field :: splitN sep (n + 1) rest

def spaced (sep : Char) (fields : List Str) (rest : Str) : Str := fields.foldr (fun field rest => field ++ sep :: rest) rest

variable {sep : Char}

theorem cutPlain {a : Str} (plain : sep ∉ a) (b : Str) : cut sep (a ++ sep :: b) = some (a,b) := by
  induction a with
  | nil => simp [cut]
  | cons c a ih =>
    rw [List.mem_cons,not_or] at plain
    rw [List.cons_append,cut,if_neg (Ne.symm plain.1),ih plain.2]
    rfl

theorem splitSpaced {fields : List Str} (plain : ∀ field ∈ fields, sep ∉ field) (rest : Str) :
    splitN sep (fields.length + 1) (spaced sep fields rest) = fields ++ [rest] := by
  induction fields with
  | nil => rfl
  | cons field fields ih =>
    rw [List.length_cons,splitN]
    simp only [spaced,List.foldr_cons]
    rw [cutPlain (plain field List.mem_cons_self)]
    exact congrArg (field :: ·) (ih (fun other member => plain other (List.mem_cons_of_mem _ member)))

theorem spacedPlain {c : Char} (other : c ≠ sep) {fields : List Str} (plain : ∀ field ∈ fields, c ∉ field) {rest : Str}
    (last : c ∉ rest) : c ∉ spaced sep fields rest := by
  induction fields with
  | nil => exact last
  | cons field fields ih =>
    have later := ih (fun next member => plain next (List.mem_cons_of_mem _ member))
    simp only [spaced,List.foldr_cons,List.mem_append,List.mem_cons,not_or]
    exact ⟨plain field List.mem_cons_self,other,later⟩

theorem splitRecords {records : List Str} (plain : ∀ record ∈ records, sep ∉ record) (rest : Str) :
    (records.flatMap (fun record => record ++ [sep]) ++ rest).splitOn sep = records ++ rest.splitOn sep := by
  induction records with
  | nil => rfl
  | cons record records ih =>
    rw [List.flatMap_cons,List.append_assoc,List.append_assoc,List.singleton_append,
      List.splitOn_append_cons_self_of_not_mem (plain record List.mem_cons_self),
      ih (fun other member => plain other (List.mem_cons_of_mem _ member))]
    rfl

theorem splitTerminated {records : List Str} (plain : ∀ record ∈ records, sep ∉ record) :
    (records.flatMap (fun record => record ++ [sep])).splitOn sep = records ++ [[]] := by
  simpa using splitRecords plain []

/-- `unicode.IsSpace` in UTF-8, the plain space first. -/
def spaces : List Str :=
  [[' '],['\t'],['\n'],['\x0b'],['\x0c'],['\r'],['\xc2','\x85'],['\xc2','\xa0'],['\xe1','\x9a','\x80'],
    ['\xe2','\x80','\x80'],['\xe2','\x80','\x81'],['\xe2','\x80','\x82'],['\xe2','\x80','\x83'],
    ['\xe2','\x80','\x84'],['\xe2','\x80','\x85'],['\xe2','\x80','\x86'],['\xe2','\x80','\x87'],
    ['\xe2','\x80','\x88'],['\xe2','\x80','\x89'],['\xe2','\x80','\x8a'],['\xe2','\x80','\xa8'],
    ['\xe2','\x80','\xa9'],['\xe2','\x80','\xaf'],['\xe2','\x81','\x9f'],['\xe3','\x80','\x80']]

def spaceWidth (s : Str) : Nat := ((spaces.find? (fun space => space.isPrefixOf s)).map List.length).getD 0

def closing : Str → List Str
  | [] => []
  | word => [word]

/-- `skip` bytes of a white space are still to be passed; `word` is the field being read. -/
def fieldsFrom : Nat → Str → Str → List Str
  | _,word,[] => closing word
  | skip + 1,word,_ :: s => fieldsFrom skip word s
  | 0,word,c :: s =>
    match spaceWidth (c :: s) with
    | 0 => fieldsFrom 0 (word ++ [c]) s
    | width + 1 => closing word ++ fieldsFrom width [] s

def fields (s : Str) : List Str := fieldsFrom 0 [] s

def Solid (c : Char) : Prop := ∀ space ∈ spaces, space.head? ≠ some c
instance (c) : Decidable (Solid c) := by unfold Solid; infer_instance

theorem solidBy {p : Char → Bool} (none_ : spaces.all (fun space => space.head?.all (fun c => !p c)) = true) {c : Char}
    (holds : p c = true) : Solid c := by
  intro space member head
  have other := List.all_eq_true.mp none_ space member
  simp [head,holds] at other

theorem solidWidth {c : Char} (solid : Solid c) (s : Str) : spaceWidth (c :: s) = 0 := by
  have none_ : spaces.find? (fun space => space.isPrefixOf (c :: s)) = none := by
    refine List.find?_eq_none.mpr (fun space member => ?_)
    have head := solid space member
    cases space with
    | nil => exact absurd member (by decide)
    | cons d space =>
      have apart : d ≠ c := fun same => head (same ▸ rfl)
      simp [List.isPrefixOf,apart]
  rw [spaceWidth,none_]
  rfl

theorem blankWidth (s : Str) : spaceWidth (' ' :: s) = 1 := rfl

theorem fieldsWord {word : Str} (solid : ∀ c ∈ word, Solid c) (before rest : Str) :
    fieldsFrom 0 before (word ++ rest) = fieldsFrom 0 (before ++ word) rest := by
  induction word generalizing before with
  | nil => simp
  | cons c word ih =>
    rw [List.cons_append,fieldsFrom,solidWidth (solid c List.mem_cons_self)]
    simp only
    rw [ih (fun d member => solid d (List.mem_cons_of_mem _ member))]
    simp

theorem fieldsBlank {word rest : Str} (solid : ∀ c ∈ word, Solid c) (nonempty : word ≠ []) :
    fields (word ++ ' ' :: rest) = word :: fields rest := by
  rw [fields,fieldsWord solid,List.nil_append,fieldsFrom,blankWidth]
  cases word with
  | nil => exact absurd rfl nonempty
  | cons c word => rfl

theorem fieldsLast {word : Str} (solid : ∀ c ∈ word, Solid c) (nonempty : word ≠ []) : fields word = [word] := by
  have whole := fieldsWord solid [] []
  rw [List.append_nil,List.nil_append] at whole
  rw [fields,whole]
  cases word with
  | nil => exact absurd rfl nonempty
  | cons c word => rfl

def digits (s : Str) : Option Nat := if s ≠ [] ∧ s.all Char.isDigit then some (Nat.ofDigitChars 10 s 0) else none

def parseInt : Str → Option Int
  | '-' :: s => (digits s).bind (fun n => if n ≤ 2 ^ 63 then some (-n) else none)
  | '+' :: s => (digits s).bind (fun n => if n < 2 ^ 63 then some (n : Int) else none)
  | s => (digits s).bind (fun n => if n < 2 ^ 63 then some (n : Int) else none)

def decimal (n : Nat) : Str := Nat.toDigits 10 n

theorem decimalDigit {n : Nat} {c : Char} (member : c ∈ decimal n) : c.isDigit = true :=
  Nat.isDigit_of_mem_toDigits (by decide) (by decide) member

theorem decimalNonempty (n : Nat) : decimal n ≠ [] := Nat.toDigits_ne_nil

theorem digitsDecimal (n : Nat) : digits (decimal n) = some n := by
  have all : (decimal n).all Char.isDigit = true := List.all_eq_true.mpr (fun c => decimalDigit)
  rw [digits,if_pos ⟨decimalNonempty n,all⟩]
  exact congrArg some Nat.ofDigitChars_ten_toDigits

theorem parseDecimal {n : Nat} (small : n < 2 ^ 63) : parseInt (decimal n) = some (n : Int) := by
  have digit : ∀ c, (decimal n).head? = some c → c.isDigit = true := fun c head =>
    decimalDigit (List.mem_of_head? head)
  unfold parseInt
  split
  · next same => simpa using digit '-' (by rw [same]; rfl)
  · next same => simpa using digit '+' (by rw [same]; rfl)
  · rw [digitsDecimal,Option.bind_some,if_pos small]

end M6t.GoStrings
