import Mathlib.Algebra.GroupWithZero.Nat
import Mathlib.Data.List.DropRight
import Mathlib.Data.List.Infix
import Mathlib.Algebra.Order.BigOperators.Group.List

/-! Text as the sequence of its code points, with the few operations of a Go
string that path handling rests on: `strings.TrimSpace`, `CutPrefix` (`none` where
the Go function answers false), `TrimPrefix`, `ReplaceAll` of one character, and
`len`, the number of bytes of the UTF-8 form. -/
namespace M6t.Text

abbrev Str := List Char
instance memDecidable (s : Str) (texts : List Str) : Decidable (s ∈ texts) := inferInstance

/-- `unicode.IsSpace`: the White_Space code points. -/
def isSpace (c : Char) : Bool :=
  let n := c.toNat
  (9 ≤ n && n ≤ 13) || n == 0x20 || n == 0x85 || n == 0xA0 || n == 0x1680 ||
    (0x2000 ≤ n && n ≤ 0x200a) || n == 0x2028 || n == 0x2029 || n == 0x202f || n == 0x205f || n == 0x3000

def trimSpace (s : Str) : Str := (s.dropWhile isSpace).rdropWhile isSpace

def cutPrefix : Str → Str → Option Str
  | [], s => some s
  | _ :: _, [] => none
  | p :: ps, c :: s => if p = c then cutPrefix ps s else none

def trimPrefix (s start : Str) : Str := (cutPrefix start s).getD s

def replaceChar (old new : Char) (s : Str) : Str := s.map (fun c => if c = old then new else c)

def byteLen (s : Str) : Nat := (s.map Char.utf8Size).sum

theorem notLess (s t : Str) (forth : ¬s < t) (back : ¬t < s) : s = t :=
  (List.le_iff_lt_or_eq.mp (List.not_lt.mp back)).resolve_left forth

theorem cutPrefixExact {start s rest : Str} : cutPrefix start s = some rest ↔ s = start ++ rest := by
  induction start generalizing s with
  | nil => simp [cutPrefix,eq_comm]
  | cons p ps ih =>
    cases s with
    | nil => simp [cutPrefix]
    | cons c s =>
      by_cases h : p = c
      · subst h; simp [cutPrefix,ih]
      · simp [cutPrefix,h,Ne.symm h]

theorem dropWhileSelf {s : Str} (h : ∀ c, s.head? = some c → isSpace c = false) :
    s.dropWhile isSpace = s := by
  cases s with
  | nil => rfl
  | cons c s => simp [h c rfl]

theorem dropWhileHead (s : Str) : ∀ c, (s.dropWhile isSpace).head? = some c → isSpace c = false := by
  induction s with
  | nil => simp
  | cons d s ih =>
    intro c hc
    by_cases hd : isSpace d
    · exact ih c (by simpa [hd] using hc)
    · have same : d = c := by simpa [hd] using hc
      simpa [same] using hd

theorem trimSpaceHead (s : Str) : ∀ c, (trimSpace s).head? = some c → isSpace c = false := by
  intro c hc
  obtain ⟨rest,hr⟩ := List.rdropWhile_prefix isSpace (l := s.dropWhile isSpace)
  refine dropWhileHead s c ?_
  rw [← hr,List.head?_append]
  simp only [trimSpace] at hc
  simp [hc]

@[simp] theorem trimSpaceIdem (s : Str) : trimSpace (trimSpace s) = trimSpace s := by
  have left := dropWhileSelf (trimSpaceHead s)
  show ((trimSpace s).dropWhile isSpace).rdropWhile isSpace = trimSpace s
  rw [left]
  exact List.rdropWhile_idempotent isSpace (s.dropWhile isSpace)

theorem trimSpaceSublist (s : Str) : (trimSpace s).Sublist s :=
  (List.rdropWhile_prefix isSpace (l := s.dropWhile isSpace)).sublist.trans (List.dropWhile_sublist isSpace)

theorem trimPrefixLength (s start : Str) : (trimPrefix s start).length ≤ s.length := by
  cases cut : cutPrefix start s with
  | none => simp [trimPrefix,cut]
  | some rest =>
    have parts := cutPrefixExact.mp cut
    rw [trimPrefix,cut,Option.getD_some,parts,List.length_append]
    omega

theorem trimPrefixSelf {s : Str} {c : Char} (other : s.head? ≠ some c) : trimPrefix s [c] = s := by
  cases s with
  | nil => rfl
  | cons d s =>
    have different : c ≠ d := by simpa [eq_comm] using other
    simp [trimPrefix,cutPrefix,different]

theorem trimSpaceMap {f : Char → Char} (h : ∀ c, isSpace (f c) = isSpace c) (s : Str) :
    trimSpace (s.map f) = (trimSpace s).map f := by
  have same : isSpace ∘ f = isSpace := funext h
  simp only [trimSpace,List.rdropWhile,List.dropWhile_map,← List.map_reverse,same]

theorem replaceCharIdem {old new : Char} (s : Str) :
    replaceChar old new (replaceChar old new s) = replaceChar old new s := by
  simp only [replaceChar,List.map_map]
  refine List.map_congr_left (fun c _ => ?_)
  simp only [Function.comp_apply]
  split
  · split <;> simp_all
  · rfl

theorem byteLenPositive {c : Char} {s : Str} : 0 < byteLen (c :: s) := by
  have := Char.utf8Size_pos c
  simp only [byteLen,List.map_cons,List.sum_cons]
  omega

theorem byteLenAppend (a b : Str) : byteLen (a ++ b) = byteLen a + byteLen b := by
  simp [byteLen]

theorem byteLenPrefix {a b : Str} (h : a <+: b) : byteLen a ≤ byteLen b := by
  obtain ⟨rest,rfl⟩ := h
  rw [byteLenAppend]
  omega

theorem prefixOfByteLen {a b : Str} (h : a <+: b) (len : byteLen b ≤ byteLen a) : a = b := by
  obtain ⟨rest,rfl⟩ := h
  rw [byteLenAppend] at len
  cases rest with
  | nil => simp
  | cons c rest => have := byteLenPositive (c := c) (s := rest); omega

theorem prefixesNested {a b c : Str} (ha : a <+: c) (hb : b <+: c) (len : byteLen a ≤ byteLen b) : a <+: b := by
  rcases List.prefix_or_prefix_of_prefix ha hb with h | h
  · exact h
  · rw [prefixOfByteLen h len]

end M6t.Text
