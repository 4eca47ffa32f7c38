import Mathlib.Data.List.Basic

/-! UTF-8 text as bytes, and bytes read back as text the way Go's JSON encoder
reads a string: a byte that starts no encoded code point becomes U+FFFD. -/
namespace M6t.Utf8

def encode (text : List Char) : List UInt8 := text.flatMap String.utf8EncodeChar

def Valid (bytes : List UInt8) : Prop := ∃ text, bytes = encode text

def decodeRune (bytes : List UInt8) : Option Char := bytes.toByteArray.utf8DecodeChar? 0

def runeError : Char := Char.ofNat 0xFFFD

/-- The first argument is how many bytes of the last code point are still to be
passed. -/
def decodeFrom : Nat → List UInt8 → List Char
  | _,[] => []
  | skip + 1,_ :: rest => decodeFrom skip rest
  | 0,b :: rest =>
    match decodeRune (b :: rest) with
    | some c => c :: decodeFrom (c.utf8Size - 1) rest
    | none => runeError :: decodeFrom 0 rest

def decode (bytes : List UInt8) : List Char := decodeFrom 0 bytes

@[simp] theorem encodeNil : encode [] = [] := rfl
@[simp] theorem encodeCons (c : Char) (text : List Char) : encode (c :: text) = String.utf8EncodeChar c ++ encode text := rfl
@[simp] theorem encodeAppend (a b : List Char) : encode (a ++ b) = encode a ++ encode b := List.flatMap_append

theorem decodeSkip (l rest : List UInt8) : decodeFrom l.length (l ++ rest) = decode rest := by
  induction l with
  | nil => rfl
  | cons b l ih => exact ih

theorem decodeRuneEncoded (c : Char) (rest : List UInt8) : decodeRune (String.utf8EncodeChar c ++ rest) = some c := by
  rw [decodeRune,List.toByteArray_append]
  exact ByteArray.utf8DecodeChar?_utf8EncodeChar_append

theorem decodeCons (c : Char) (rest : List UInt8) : decode (String.utf8EncodeChar c ++ rest) = c :: decode rest := by
  have rune := decodeRuneEncoded c rest
  have size := String.length_utf8EncodeChar c
  have positive := c.utf8Size_pos
  generalize String.utf8EncodeChar c = bytes at rune size
  cases bytes with
  | nil => simp at size; omega
  | cons b l =>
    rw [List.cons_append] at rune ⊢
    rw [decode,decodeFrom,rune]
    have left : c.utf8Size - 1 = l.length := by simp only [List.length_cons] at size; omega
    simp only [left]
    exact congrArg (c :: ·) (decodeSkip l rest)

theorem decodeEncode (text : List Char) : decode (encode text) = text := by
  induction text with
  | nil => rfl
  | cons c text ih => rw [encodeCons,decodeCons,ih]

theorem encodeDecode {bytes : List UInt8} : encode (decode bytes) = bytes ↔ Valid bytes := by
  constructor
  · intro same
    exact ⟨decode bytes,same.symm⟩
  · rintro ⟨text,rfl⟩
    rw [decodeEncode]

theorem asciiByte {c : Char} {b : UInt8} (member : b ∈ String.utf8EncodeChar c) (ascii : b.toNat < 128) :
    String.utf8EncodeChar c = [b] ∧ c.toNat = b.toNat := by
  have value : c.val.toNat = c.toNat := rfl
  unfold String.utf8EncodeChar at *
  simp only at *
  split at member
  · next small =>
    have same := List.mem_singleton.mp member
    subst same
    refine ⟨by rw [if_pos small],?_⟩
    simp only [UInt8.toNat_ofNat']
    omega
  · exfalso
    split at member
    · simp only [List.mem_cons,List.not_mem_nil,or_false] at member
      rcases member with rfl | rfl <;> simp only [UInt8.toNat_ofNat'] at ascii <;> omega
    · split at member
      · simp only [List.mem_cons,List.not_mem_nil,or_false] at member
        rcases member with rfl | rfl | rfl <;> simp only [UInt8.toNat_ofNat'] at ascii <;> omega
      · simp only [List.mem_cons,List.not_mem_nil,or_false] at member
        rcases member with rfl | rfl | rfl | rfl <;> simp only [UInt8.toNat_ofNat'] at ascii <;> omega

theorem runeStarts {bytes : List UInt8} {c : Char} (read : decodeRune bytes = some c) :
    ∃ rest, bytes = String.utf8EncodeChar c ++ rest := by
  obtain ⟨l,whole⟩ := ByteArray.exists_of_utf8DecodeChar?_eq_some read
  refine ⟨l.data.toList,?_⟩
  have := congrArg (fun a => a.data.toList) whole
  simpa using this

def trails (b : UInt8) : Bool := 128 ≤ b.toNat ∧ b.toNat < 192

theorem encodedShape (c : Char) : ∃ b l, String.utf8EncodeChar c = b :: l ∧ trails b = false ∧ ∀ d ∈ l, trails d = true := by
  have value : c.val.toNat = c.toNat := rfl
  have range : c.val.toNat < 0x110000 := by
    rcases c.valid with low|high
    · have : c.val.toNat < 0xd800 := low
      omega
    · exact high.2
  unfold String.utf8EncodeChar
  simp only
  split
  · refine ⟨_,_,rfl,?_,by simp⟩
    simp [trails,UInt8.toNat_ofNat']
    omega
  · split
    · refine ⟨_,_,rfl,?_,?_⟩
      · simp [trails,UInt8.toNat_ofNat']
        omega
      · simp [trails,UInt8.toNat_ofNat']
        omega
    · split
      · refine ⟨_,_,rfl,?_,?_⟩
        · simp [trails,UInt8.toNat_ofNat']
          omega
        · simp [trails,UInt8.toNat_ofNat']
          omega
      · refine ⟨_,_,rfl,?_,?_⟩
        · simp [trails,UInt8.toNat_ofNat']
          omega
        · simp [trails,UInt8.toNat_ofNat']
          omega

theorem trailsAlone {b : UInt8} (trail : trails b = true) (rest : List UInt8) : decodeRune (b :: rest) = none := by
  cases read : decodeRune (b :: rest) with
  | none => rfl
  | some c =>
    obtain ⟨more,whole⟩ := runeStarts read
    obtain ⟨first,l,shape,head,-⟩ := encodedShape c
    rw [shape,List.cons_append,List.cons.injEq] at whole
    rw [whole.1] at trail
    rw [head] at trail
    contradiction

theorem trailsDecode {l : List UInt8} (trail : ∀ b ∈ l, trails b = true) : decode l = List.replicate l.length runeError := by
  induction l with
  | nil => rfl
  | cons b l ih =>
    rw [decode,decodeFrom,trailsAlone (trail b List.mem_cons_self)]
    exact congrArg (runeError :: ·) (ih (fun d member => trail d (List.mem_cons_of_mem _ member)))

theorem decodeNone {b : UInt8} {rest : List UInt8} (read : decodeRune (b :: rest) = none) :
    decode (b :: rest) = runeError :: decode rest := by
  rw [decode,decodeFrom,read]
  rfl

theorem encodedCut {c : Char} {n : Nat} (cut : n < (String.utf8EncodeChar c).length) :
    decode ((String.utf8EncodeChar c).take n) = List.replicate n runeError := by
  cases n with
  | zero => simp [decode,decodeFrom]
  | succ n =>
    obtain ⟨first,l,shape,head,trail⟩ := encodedShape c
    have none_ : decodeRune (first :: l.take n) = none := by
      cases part : decodeRune (first :: l.take n) with
      | none => rfl
      | some d =>
        obtain ⟨tail,start⟩ := runeStarts part
        have long : String.utf8EncodeChar c = String.utf8EncodeChar d ++ (tail ++ l.drop n) := by
          rw [← List.append_assoc,← start,shape,List.cons_append,List.take_append_drop]
        have same : c = d := by
          have one := decodeRuneEncoded c []
          rw [List.append_nil,long,decodeRuneEncoded] at one
          exact (Option.some.inj one).symm
        have small := congrArg List.length start
        rw [← same] at small
        simp only [List.length_cons,List.length_take,List.length_append] at small
        omega
    rw [shape,List.length_cons] at cut
    rw [shape,List.take_succ_cons,decodeNone none_,trailsDecode (fun d member => trail d (List.mem_of_mem_take member)),
      List.length_take_of_le (by omega)]
    rfl

/-- A text cut anywhere reads as its start, and as one error for each byte of a code point cut in two. -/
theorem decodeTake (bytes : List UInt8) (n : Nat) : ∃ k j, decode (bytes.take n) =
    (decode bytes).take k ++ List.replicate j runeError ∧ (0 < j → ∃ c, (decode bytes)[k]? = some c ∧ 1 < c.utf8Size) := by
  induction size : bytes.length using Nat.strongRecOn generalizing bytes n with
  | _ m ih =>
    subst size
    cases n with
    | zero => exact ⟨0,0,by simp [decode,decodeFrom],by simp⟩
    | succ n =>
      cases bytes with
      | nil => exact ⟨0,0,by simp [decode,decodeFrom],by simp⟩
      | cons b rest =>
        cases read : decodeRune (b :: rest) with
        | none =>
          have cut : decodeRune (b :: rest.take n) = none := by
            cases part : decodeRune (b :: rest.take n) with
            | none => rfl
            | some c =>
              obtain ⟨more,whole⟩ := runeStarts part
              have long : b :: rest = String.utf8EncodeChar c ++ (more ++ rest.drop n) := by
                rw [← List.append_assoc,← whole,List.cons_append,List.take_append_drop]
              rw [long,decodeRuneEncoded] at read
              contradiction
          obtain ⟨k,j,same,split⟩ := ih rest.length (by simp) rest n rfl
          refine ⟨k + 1,j,?_,?_⟩
          · rw [List.take_succ_cons,decodeNone cut,decodeNone read,same]
            rfl
          · rw [decodeNone read]
            simpa using split
        | some c =>
          obtain ⟨more,whole⟩ := runeStarts read
          rw [whole,decodeCons]
          by_cases covers : (String.utf8EncodeChar c).length ≤ n + 1
          · have less : more.length < (b :: rest).length := by
              rw [whole,List.length_append,String.length_utf8EncodeChar]
              have := c.utf8Size_pos
              omega
            obtain ⟨k,j,same,split⟩ := ih more.length less more (n + 1 - (String.utf8EncodeChar c).length) rfl
            refine ⟨k + 1,j,?_,?_⟩
            · rw [List.take_append,List.take_of_length_le covers,decodeCons,same]
              rfl
            · simpa using split
          · refine ⟨0,n + 1,?_,fun _ => ⟨c,rfl,?_⟩⟩
            · rw [List.take_append_of_le_length (by omega),encodedCut (by omega)]
              rfl
            · rw [String.length_utf8EncodeChar] at covers
              omega
end M6t.Utf8
