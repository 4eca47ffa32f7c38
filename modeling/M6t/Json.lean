import Mathlib.Data.List.TakeDrop
import Mathlib.Data.List.TakeWhile

/-! JSON texts: what an encoder writes that puts nothing between its tokens, and what a parser of the
whole grammar reads. A number is its numeral. Strings hold whole characters, so a parser refuses the
escape of half a surrogate pair. -/
namespace M6t.Json

abbrev Text := List Char

def exponentEnds : Text → Bool
  | [] => true
  | c :: s =>
    let power := if s.head? = some '+' ∨ s.head? = some '-' then s.drop 1 else s
    (c = 'e' ∨ c = 'E') ∧ power ≠ [] ∧ power.all Char.isDigit

def fractionEnds : Text → Bool
  | '.' :: s => s.takeWhile Char.isDigit ≠ [] ∧ exponentEnds (s.dropWhile Char.isDigit)
  | s => exponentEnds s

def isNumeral (s : Text) : Bool :=
  let whole := if s.head? = some '-' then s.drop 1 else s
  let digits := whole.takeWhile Char.isDigit
  digits ≠ [] ∧ (digits.head? = some '0' → digits.length = 1) ∧ fractionEnds (whole.dropWhile Char.isDigit)

structure Numeral where
  text : Text
  sound : isNumeral text = true
  deriving DecidableEq

theorem digitsHead : ∀ n, (Nat.toDigits 10 n).head? = some '0' → n = 0 := by
  intro n
  induction n using Nat.strongRecOn with
  | _ n ih =>
    intro zero
    by_cases small : n < 10
    · rw [Nat.toDigits_of_lt_base small,List.head?_cons,Option.some.injEq] at zero
      exact (by decide : ∀ n < 10, n.digitChar = '0' → n = 0) n small zero
    · rw [Nat.toDigits_of_base_le (by decide) (by omega),List.head?_append,List.head?_eq_some_head Nat.toDigits_ne_nil,
        Option.some_or,← List.head?_eq_some_head Nat.toDigits_ne_nil] at zero
      have := ih (n / 10) (by omega) zero
      omega

theorem digitsNumeral (n : Nat) : (Nat.toDigits 10 n).takeWhile Char.isDigit = Nat.toDigits 10 n ∧
    (Nat.toDigits 10 n).dropWhile Char.isDigit = [] := by
  have all : ∀ c ∈ Nat.toDigits 10 n, c.isDigit = true := fun c member =>
    Nat.isDigit_of_mem_toDigits (by decide) (by decide) member
  exact ⟨List.takeWhile_eq_self_iff.mpr all,List.dropWhile_eq_nil_iff.mpr all⟩

def intText (n : Int) : Text := if n < 0 then '-' :: Nat.toDigits 10 n.natAbs else Nat.toDigits 10 n.natAbs

theorem intSound (n : Int) : isNumeral (intText n) = true := by
  have short (m : Nat) : (Nat.toDigits 10 m).head? = some '0' → (Nat.toDigits 10 m).length = 1 := by
    intro zero
    rw [digitsHead m zero]
    rfl
  have plain (m : Nat) : (Nat.toDigits 10 m).head? ≠ some '-' := by
    intro minus
    exact absurd (Nat.isDigit_of_mem_toDigits (by decide) (by decide) (List.mem_of_head? minus)) (by decide)
  unfold intText
  split
  · simpa [isNumeral,digitsNumeral,fractionEnds,exponentEnds] using imp_iff_not_or.mp (short n.natAbs)
  · simpa [isNumeral,digitsNumeral,fractionEnds,exponentEnds,plain] using imp_iff_not_or.mp (short n.natAbs)

def numeral (n : Int) : Numeral := ⟨intText n,intSound n⟩

mutual
inductive Value
  | null
  | bool (b : Bool)
  | number (n : Numeral)
  | text (s : Text)
  | array (items : Items)
  | object (fields : Fields)
inductive Items
  | none
  | more (first : Value) (rest : Items)
inductive Fields
  | none
  | more (key : Text) (value : Value) (rest : Fields)
end

def Items.of : List Value → Items
  | [] => .none
  | v :: vs => .more v (Items.of vs)
def Items.list : Items → List Value
  | .none => []
  | .more v rest => v :: rest.list
def Fields.of : List (Text × Value) → Fields
  | [] => .none
  | (key,v) :: fields => .more key v (Fields.of fields)

@[simp] theorem Items.listOf (vs : List Value) : (Items.of vs).list = vs := by
  induction vs with
  | nil => rfl
  | cons v vs ih => simp [Items.of,Items.list,ih]

def Fields.get (key : Text) : Fields → Option Value
  | .none => Option.none
  | .more k v rest => (rest.get key).or (if k = key then some v else Option.none)

def hexDigit (n : Nat) : Char := if n < 10 then Char.ofNat (48 + n) else Char.ofNat (87 + n)
def hexFour (n : Nat) : Text := [hexDigit (n / 4096 % 16),hexDigit (n / 256 % 16),hexDigit (n / 16 % 16),hexDigit (n % 16)]

def letters : List (Char × Char) :=
  [('\x22','\x22'),('\\','\\'),('b','\x08'),('f','\x0c'),('n','\n'),('r','\r'),('t','\t')]

section
variable (extra : Char → Bool)

def escapeChar (c : Char) : Text :=
  match letters.find? (fun pair => pair.2 = c) with
  | some pair => ['\\',pair.1]
  | none => if c.toNat < 32 ∨ extra c then '\\' :: 'u' :: hexFour c.toNat else [c]

def encodeText (s : Text) : Text := '\x22' :: (s.flatMap (escapeChar extra) ++ ['\x22'])

mutual
def Value.encode : Value → Text
  | .null => "null".toList
  | .bool true => "true".toList
  | .bool false => "false".toList
  | .number n => n.text
  | .text s => encodeText extra s
  | .array .none => "[]".toList
  | .array (.more first rest) => '[' :: (first.encode ++ rest.encode)
  | .object .none => "\x7b\x7d".toList
  | .object (.more key value rest) => '\x7b' :: (encodeText extra key ++ ':' :: (value.encode ++ rest.encode))
def Items.encode : Items → Text
  | .none => [']']
  | .more first rest => ',' :: (first.encode ++ rest.encode)
def Fields.encode : Fields → Text
  | .none => ['\x7d']
  | .more key value rest => ',' :: (encodeText extra key ++ ':' :: (value.encode ++ rest.encode))
end

end

def isSpace (c : Char) : Bool := c = ' ' ∨ c = '\t' ∨ c = '\n' ∨ c = '\r'
def skip (s : Text) : Text := s.dropWhile isSpace

def hexValue (c : Char) : Option Nat :=
  if c.isDigit then some (c.toNat - 48)
  else if 97 ≤ c.toNat ∧ c.toNat ≤ 102 then some (c.toNat - 87)
  else if 65 ≤ c.toNat ∧ c.toNat ≤ 70 then some (c.toNat - 55)
  else none

def readFour : Text → Option (Nat × Text)
  | a :: b :: c :: d :: rest => do
    let a ← hexValue a
    let b ← hexValue b
    let c ← hexValue c
    let d ← hexValue d
    some (4096 * a + 256 * b + 16 * c + d,rest)
  | _ => none

/-- A code unit, or two where the first is the leading half of a pair. -/
def readUnit (s : Text) : Option (Char × Text) := do
  let (high,rest) ← readFour s
  if 0xD800 ≤ high ∧ high < 0xDC00 then
    match rest with
    | '\\' :: 'u' :: more => do
      let (low,rest) ← readFour more
      if 0xDC00 ≤ low ∧ low < 0xE000 then some (Char.ofNat (0x10000 + (high - 0xD800) * 0x400 + (low - 0xDC00)),rest) else none
    | _ => none
  else if 0xDC00 ≤ high ∧ high < 0xE000 then none
  else some (Char.ofNat high,rest)

def readChar : Text → Option (Char × Text)
  | '\\' :: e :: rest =>
    if e = 'u' then readUnit rest
    else if e = '/' then some ('/',rest)
    else (letters.lookup e).map (fun c => (c,rest))
  | c :: rest => if c.toNat < 32 ∨ c = '\\' then none else some (c,rest)
  | [] => none

def readText : Nat → Text → Option (Text × Text)
  | 0,_ => none
  | fuel + 1,s =>
    if s.head? = some '\x22' then some ([],s.drop 1)
    else do
      let (c,rest) ← readChar s
      let (cs,rest) ← readText fuel rest
      some (c :: cs,rest)

def numberChar (c : Char) : Bool := c.isDigit || c ∈ ['+','-','.','e','E']

def readNumber (s : Text) : Option (Value × Text) :=
  if sound : isNumeral (s.takeWhile numberChar) then some (.number ⟨s.takeWhile numberChar,sound⟩,s.dropWhile numberChar)
  else none

def word (w : Text) (v : Value) (s : Text) : Option (Value × Text) :=
  if w <+: s then some (v,s.drop w.length) else none

mutual
def readValue : Nat → Text → Option (Value × Text)
  | 0,_ => none
  | fuel + 1,s =>
    match skip s with
    | [] => none
    | c :: rest =>
      if c = 'n' then word "null".toList .null (c :: rest)
      else if c = 't' then word "true".toList (.bool true) (c :: rest)
      else if c = 'f' then word "false".toList (.bool false) (c :: rest)
      else if c = '\x22' then (readText (rest.length + 1) rest).map (fun r => (.text r.1,r.2))
      else if c = '[' then
        if (skip rest).head? = some ']' then some (.array .none,(skip rest).drop 1)
        else (readItem fuel rest).map (fun r => (.array r.1,r.2))
      else if c = '\x7b' then
        if (skip rest).head? = some '\x7d' then some (.object .none,(skip rest).drop 1)
        else (readField fuel rest).map (fun r => (.object r.1,r.2))
      else readNumber (c :: rest)
def readItem : Nat → Text → Option (Items × Text)
  | 0,_ => none
  | fuel + 1,s => do
    let (first,s) ← readValue fuel s
    match skip s with
    | ',' :: s => (readItem fuel s).map (fun r => (.more first r.1,r.2))
    | ']' :: s => some (.more first .none,s)
    | _ => none
def readField : Nat → Text → Option (Fields × Text)
  | 0,_ => none
  | fuel + 1,s =>
    match skip s with
    | '\x22' :: s => do
      let (key,s) ← readText (s.length + 1) s
      match skip s with
      | ':' :: s => do
        let (value,s) ← readValue fuel s
        match skip s with
        | ',' :: s => (readField fuel s).map (fun r => (.more key value r.1,r.2))
        | '\x7d' :: s => some (.more key value .none,s)
        | _ => none
      | _ => none
    | _ => none
end

def parse (s : Text) : Option Value := do
  let (v,rest) ← readValue (s.length + 1) s
  if skip rest = [] then some v else none

def Narrow (extra : Char → Bool) : Prop := ∀ c, extra c = true → c.toNat < 0x10000

theorem hexRead : ∀ d < 16, hexValue (hexDigit d) = some d := by decide

theorem fourRead (n : Nat) (rest : Text) (small : n < 65536) : readFour (hexFour n ++ rest) = some (n,rest) := by
  have digit (m : Nat) : hexValue (hexDigit (m % 16)) = some (m % 16) := hexRead _ (Nat.mod_lt _ (by decide))
  simp only [hexFour,List.cons_append,List.nil_append,readFour,digit,Option.bind_eq_bind,Option.bind_some,Option.some.injEq,
    Prod.mk.injEq,and_true]
  omega

theorem unitRead (c : Char) (rest : Text) (small : c.toNat < 0x10000) : readUnit (hexFour c.toNat ++ rest) = some (c,rest) := by
  have whole : ¬ (0xD800 ≤ c.toNat ∧ c.toNat < 0xDC00) ∧ ¬ (0xDC00 ≤ c.toNat ∧ c.toNat < 0xE000) := by
    rcases c.valid with low|high
    · have : c.toNat < 0xd800 := low
      omega
    · have : 0xdfff < c.toNat := high.1
      omega
  simp [readUnit,fourRead _ rest small,whole.1,whole.2,Char.ofNat_toNat]

theorem letterRead : ∀ pair ∈ letters, letters.lookup pair.1 = some pair.2 ∧ pair.1 ≠ 'u' ∧ pair.1 ≠ '/' := by decide

section
variable {extra : Char → Bool}

theorem charRead (narrow : Narrow extra) (c : Char) (rest : Text) : readChar (escapeChar extra c ++ rest) = some (c,rest) := by
  unfold escapeChar
  cases found : letters.find? (fun pair => pair.2 = c) with
  | some pair =>
    have same : pair.2 = c := by simpa using List.find?_some found
    obtain ⟨back,plain,slash⟩ := letterRead pair (List.mem_of_find?_eq_some found)
    simp [readChar,back,plain,slash,same]
  | none =>
    simp only
    split
    · next escaped =>
      have small : c.toNat < 0x10000 := by
        rcases escaped with control|named
        · omega
        · exact narrow c named
      simp [readChar,unitRead c rest small]
    · next plain =>
      have noSlash : c ≠ '\\' := by
        rintro rfl
        exact absurd found (by decide)
      have printed : 32 ≤ c.toNat := by omega
      simp [readChar,noSlash,printed]

theorem escapeOpens (c : Char) : ∃ d s, escapeChar extra c = d :: s ∧ d ≠ '\x22' := by
  unfold escapeChar
  cases found : letters.find? (fun pair => pair.2 = c) with
  | some pair => exact ⟨_,_,rfl,by decide⟩
  | none =>
    simp only
    split
    · exact ⟨_,_,rfl,by decide⟩
    · refine ⟨_,_,rfl,?_⟩
      rintro rfl
      exact absurd found (by decide)

theorem textRead (narrow : Narrow extra) (s rest : Text) (fuel : Nat) (enough : s.length < fuel) :
    readText fuel (s.flatMap (escapeChar extra) ++ '\x22' :: rest) = some (s,rest) := by
  induction s generalizing fuel with
  | nil =>
    obtain ⟨fuel,rfl⟩ : ∃ n, fuel = n + 1 := ⟨fuel - 1,by omega⟩
    simp [readText]
  | cons c s ih =>
    obtain ⟨fuel,rfl⟩ : ∃ n, fuel = n + 1 := ⟨fuel - 1,by omega⟩
    obtain ⟨d,t,opens,other⟩ := @escapeOpens extra c
    have back := charRead narrow c (s.flatMap (escapeChar extra) ++ '\x22' :: rest)
    simp only [opens,List.cons_append] at back
    simp [readText,opens,other,back,ih fuel (by simpa using enough)]

def Ends (rest : Text) : Prop := ∀ c ∈ rest.head?, numberChar c = false

theorem expChars (s : Text) (sound : exponentEnds s = true) : ∀ c ∈ s, numberChar c = true := by
  cases s with
  | nil => simp
  | cons c s =>
    simp only [exponentEnds,Bool.decide_and,Bool.and_eq_true,decide_eq_true_eq,List.all_eq_true] at sound
    obtain ⟨mark,-,digits⟩ := sound
    have digit (x : Char) (d : x.isDigit = true) : numberChar x = true := by simp [numberChar,d]
    intro x member
    rcases List.mem_cons.mp member with rfl|member
    · rcases mark with rfl|rfl <;> decide
    · split at digits
      · next sign =>
        cases s with
        | nil => simp at member
        | cons y s =>
          rcases List.mem_cons.mp member with rfl|member
          · rcases sign with h|h <;> (simp at h; subst h; decide)
          · exact digit x (digits x (by simpa using member))
      · exact digit x (digits x member)

theorem digitsChars (s : Text) : ∀ c ∈ s.takeWhile Char.isDigit, numberChar c = true := by
  intro c member
  simp [numberChar,List.mem_takeWhile_imp member]

theorem fractionChars (s : Text) (sound : fractionEnds s = true) : ∀ c ∈ s, numberChar c = true := by
  unfold fractionEnds at sound
  split at sound
  · next s =>
    simp only [Bool.decide_and,Bool.and_eq_true,decide_eq_true_eq] at sound
    intro c member
    rcases List.mem_cons.mp member with rfl|member
    · decide
    · rw [← List.takeWhile_append_dropWhile (p := Char.isDigit) (l := s)] at member
      rcases List.mem_append.mp member with front|back
      · exact digitsChars s c front
      · exact expChars _ sound.2 c back
  · exact expChars _ sound

theorem numeralChars (s : Text) (sound : isNumeral s = true) : ∀ c ∈ s, numberChar c = true := by
  simp only [isNumeral,Bool.decide_and,Bool.and_eq_true,decide_eq_true_eq] at sound
  have whole (w : Text) (fraction : fractionEnds (w.dropWhile Char.isDigit) = true) : ∀ c ∈ w, numberChar c = true := by
    intro c member
    rw [← List.takeWhile_append_dropWhile (p := Char.isDigit) (l := w)] at member
    rcases List.mem_append.mp member with front|back
    · exact digitsChars w c front
    · exact fractionChars _ fraction c back
  cases s with
  | nil => simp
  | cons d s =>
    intro c member
    by_cases minus : d = '-'
    · subst minus
      rcases List.mem_cons.mp member with rfl|member
      · decide
      · exact whole s (by simpa using sound.2.2) c member
    · exact whole (d :: s) (by simpa [minus] using sound.2.2) c member

theorem numeralOpens (n : Numeral) : ∃ c s, n.text = c :: s ∧ numberChar c = true := by
  cases opens : n.text with
  | nil => exact absurd n.sound (by rw [opens]; decide)
  | cons c s => exact ⟨c,s,rfl,numeralChars _ n.sound c (by simp [opens])⟩

theorem numberRead (n : Numeral) (rest : Text) (ends : Ends rest) : readNumber (n.text ++ rest) = some (.number n,rest) := by
  have stops : rest.takeWhile numberChar = [] ∧ rest.dropWhile numberChar = rest := by
    cases rest with
    | nil => simp
    | cons c rest => simp [ends c rfl]
  have front : (n.text ++ rest).takeWhile numberChar = n.text := by
    rw [List.takeWhile_append_of_pos (numeralChars _ n.sound),stops.1,List.append_nil]
  have back : (n.text ++ rest).dropWhile numberChar = rest := by
    rw [List.dropWhile_append_of_pos (numeralChars _ n.sound),stops.2]
  simp [readNumber,front,back,n.sound]

theorem numberIs : ∀ c, numberChar c = true → isSpace c = false ∧ c ≠ 'n' ∧ c ≠ 't' ∧ c ≠ 'f' ∧ c ≠ '\x22' ∧ c ≠ '[' ∧ c ≠ '\x7b' := by
  intro c number
  refine ⟨?_,?_,?_,?_,?_,?_,?_⟩
  · by_contra space
    simp only [isSpace,Bool.not_eq_false,Bool.decide_or,Bool.or_eq_true,decide_eq_true_eq] at space
    rcases space with rfl|rfl|rfl|rfl <;> exact absurd number (by decide)
  all_goals
    rintro rfl
    exact absurd number (by decide)

theorem skipOf {s : Text} (opens : ∀ c ∈ s.head?, isSpace c = false) : skip s = s := by
  cases s with
  | nil => rfl
  | cons c s => simp [skip,opens c rfl]

theorem encodeOpens (v : Value) : ∃ c s, v.encode extra = c :: s ∧ isSpace c = false ∧ c ≠ ']' := by
  cases v with
  | null => exact ⟨_,_,rfl,by decide,by decide⟩
  | bool b => cases b <;> exact ⟨_,_,rfl,by decide,by decide⟩
  | number n =>
    obtain ⟨c,s,opens,number⟩ := numeralOpens n
    refine ⟨c,s,by simpa [Value.encode] using opens,(numberIs c number).1,?_⟩
    rintro rfl
    exact absurd number (by decide)
  | text s => exact ⟨_,_,rfl,by decide,by decide⟩
  | array items => cases items <;> exact ⟨_,_,rfl,by decide,by decide⟩
  | object fields => cases fields <;> exact ⟨_,_,rfl,by decide,by decide⟩

theorem itemsEnd (items : Items) (rest : Text) : Ends (items.encode extra ++ rest) := by
  cases items <;> (rintro c ⟨rfl⟩; decide)

theorem fieldsEnd (fields : Fields) (rest : Text) : Ends (fields.encode extra ++ rest) := by
  cases fields <;> (rintro c ⟨rfl⟩; decide)

theorem skipEncoded (v : Value) (rest : Text) : skip (v.encode extra ++ rest) = v.encode extra ++ rest := by
  obtain ⟨c,s,opens,bare,-⟩ := @encodeOpens extra v
  exact skipOf (by simp [opens,bare])

theorem stringRead (narrow : Narrow extra) (s rest : Text) : ∃ t, encodeText extra s ++ rest = '\x22' :: t ∧
    readText (t.length + 1) t = some (s,rest) := by
  refine ⟨s.flatMap (escapeChar extra) ++ '\x22' :: rest,by simp [encodeText],textRead narrow s rest _ ?_⟩
  have long : s.length ≤ (s.flatMap (escapeChar extra)).length := by
    induction s with
    | nil => simp
    | cons c s ih =>
      obtain ⟨d,t,opens,-⟩ := @escapeOpens extra c
      simp only [List.flatMap_cons,opens,List.length_append,List.length_cons]
      omega
  simp only [List.length_append]
  omega

mutual
theorem valueRead (narrow : Narrow extra) (v : Value) (rest : Text) (ends : Ends rest) (fuel : Nat)
    (enough : (v.encode extra).length < fuel) :
    readValue fuel (v.encode extra ++ rest) = some (v,rest) := by
  match fuel,enough with
  | fuel + 1,enough =>
  simp only [readValue,skipEncoded]
  match v,enough with
  | .null,_ => simp [Value.encode,word]
  | .bool true,_ => simp [Value.encode,word]
  | .bool false,_ => simp [Value.encode,word]
  | .number n,_ =>
    obtain ⟨c,s,opens,number⟩ := numeralOpens n
    obtain ⟨-,n1,n2,n3,n4,n5,n6⟩ := numberIs c number
    have back := numberRead n rest ends
    simp only [opens,List.cons_append] at back
    simp [Value.encode,opens,n1,n2,n3,n4,n5,n6,back]
  | .text s,_ =>
    obtain ⟨t,opens,back⟩ := stringRead narrow s rest
    simp [Value.encode,opens,back]
  | .array .none,_ => simp [Value.encode,skip,isSpace]
  | .array (.more first more),enough =>
    have item := itemRead narrow first more rest ends fuel (by simp [Value.encode] at enough; omega)
    obtain ⟨c,s,opens,bare,open'⟩ := @encodeOpens extra first
    simp only [opens,List.cons_append] at item
    simp [Value.encode,opens,skip,bare,open',item]
  | .object .none,_ => simp [Value.encode,skip,isSpace]
  | .object (.more key value more),enough =>
    have field := fieldRead narrow key value more rest ends fuel (by simp [Value.encode] at enough; omega)
    simp only [encodeText,List.cons_append,List.append_assoc,List.nil_append] at field
    simp [Value.encode,encodeText,skip,isSpace,field]
theorem itemRead (narrow : Narrow extra) (first : Value) (more : Items) (rest : Text) (ends : Ends rest) (fuel : Nat)
    (enough : (first.encode extra).length + (more.encode extra).length < fuel) :
    readItem fuel (first.encode extra ++ (more.encode extra ++ rest)) = some (.more first more,rest) := by
  match fuel,enough with
  | fuel + 1,enough =>
  have held : 0 < (more.encode extra).length := by cases more <;> simp [Items.encode]
  simp only [readItem,valueRead narrow first _ (itemsEnd more rest) fuel (by omega)]
  match more,enough with
  | .none,_ => simp [Items.encode,skip,isSpace]
  | .more second more,enough =>
    have item := itemRead narrow second more rest ends fuel (by simp [Items.encode] at enough; omega)
    simp [Items.encode,skip,isSpace,item]
theorem fieldRead (narrow : Narrow extra) (key : Text) (value : Value) (more : Fields) (rest : Text) (ends : Ends rest) (fuel : Nat)
    (enough : (encodeText extra key).length + (value.encode extra).length + (more.encode extra).length < fuel) :
    readField fuel (encodeText extra key ++ ':' :: (value.encode extra ++ (more.encode extra ++ rest))) =
      some (.more key value more,rest) := by
  match fuel,enough with
  | fuel + 1,enough =>
  have held : 0 < (more.encode extra).length := by cases more <;> simp [Fields.encode]
  obtain ⟨t,opens,back⟩ := stringRead narrow key (':' :: (value.encode extra ++ (more.encode extra ++ rest)))
  have quote : skip ('\x22' :: t) = '\x22' :: t := by simp [skip,isSpace]
  have colon (s : Text) : skip (':' :: s) = ':' :: s := by simp [skip,isSpace]
  simp only [readField,opens,quote,back,colon,Option.bind_eq_bind,Option.bind_some,
    valueRead narrow value _ (fieldsEnd more rest) fuel (by omega)]
  match more,enough with
  | .none,_ => simp [Fields.encode,skip,isSpace]
  | .more second v more,enough =>
    have field := fieldRead narrow second v more rest ends fuel (by simp [Fields.encode] at enough; omega)
    simp [Fields.encode,skip,isSpace,field]
end

/-- Whatever an encoder of this kind wrote is read back whole. -/
theorem encodedParses (narrow : Narrow extra) (v : Value) : parse (v.encode extra) = some v := by
  have enough : (v.encode extra).length < (v.encode extra).length + 1 := Nat.lt_succ_self _
  have back := valueRead narrow v [] (by simp [Ends]) ((v.encode extra).length + 1) enough
  rw [List.append_nil] at back
  simp only [parse,back,Option.bind_eq_bind,Option.bind_some,skip]
  rfl

end
end M6t.Json
