import M6t.Text

/-! Slash-separated paths: the lexical functions of Go's `path`, of `path/filepath`
on Unix and of `fs.ValidPath`. No file system is consulted by any of them. -/
namespace M6t.SlashPath
open M6t.Text

def dot : Str := ".".toList
def dotdot : Str := "..".toList
def slash : Str := "/".toList

def elements (p : Str) : List Str := (p.splitOn '/').filter (fun e => e ≠ [])

/-- One element against the ones kept so far, innermost first. A `..` takes back
the element before it; at the start it is kept in a relative path and dropped in
a rooted one. -/
def push (rooted : Bool) (out : List Str) (e : Str) : List Str :=
  if e = dot then out
  else if e = dotdot then
    match out with
    | [] => if rooted then [] else [dotdot]
    | top :: rest => if top = dotdot then dotdot :: out else rest
  else e :: out

def joined (es : List Str) : Str := slash.intercalate es

def clean (p : Str) : Str :=
  let rooted := p.head? == some '/'
  let out := ((elements p).foldl (push rooted) []).reverse
  if rooted then slash ++ joined out
  else if out = [] then dot
  else joined out

def join (a b : Str) : Str :=
  if a ≠ [] then clean (a ++ slash ++ b)
  else if b ≠ [] then clean b
  else []

def split (p : Str) : Str × Str :=
  ((p.reverse.dropWhile (· ≠ '/')).reverse,(p.reverse.takeWhile (· ≠ '/')).reverse)

def dir (p : Str) : Str := clean (split p).1

def base (p : Str) : Str :=
  if p = [] then dot
  else
    let last := (split (p.rdropWhile (· = '/'))).2
    if last = [] then slash else last

def ValidPath (name : Str) : Prop :=
  name = dot ∨ ∀ e ∈ name.splitOn '/', e ≠ [] ∧ e ≠ dot ∧ e ≠ dotdot
instance (name) : Decidable (ValidPath name) := by unfold ValidPath; infer_instance

structure Absolute (p : Str) : Prop where
  rooted : p.head? = some '/'
  cleaned : clean p = p
instance (p) : Decidable (Absolute p) :=
  decidable_of_iff (p.head? = some '/' ∧ clean p = p) ⟨fun h => ⟨h.1,h.2⟩,fun h => ⟨h.rooted,h.cleaned⟩⟩

theorem cleanRooted {p : Str} (rooted : p.head? = some '/') : (clean p).head? = some '/' := by
  simp [clean,rooted,slash]

theorem joinRooted {a b : Str} (rooted : a.head? = some '/') : (join a b).head? = some '/' := by
  obtain ⟨rest,rfl⟩ := List.head?_eq_some_iff.mp rooted
  rw [join,if_pos (by simp)]
  exact cleanRooted (by simp)

theorem joinSplit {a b p : Str} (parts : p = a ++ slash ++ b) (start : a ≠ []) (cleaned : clean p = p) :
    join a b = p := by
  rw [join,if_pos start,← parts,cleaned]

theorem joinedAppend {xs ys : List Str} (hx : xs ≠ []) (hy : ys ≠ []) :
    joined (xs ++ ys) = joined xs ++ slash ++ joined ys := by
  induction xs with
  | nil => contradiction
  | cons x xs ih =>
    simp only [joined] at ih ⊢
    rcases List.eq_nil_or_concat' xs with rfl | ⟨init,last,rfl⟩
    · rw [List.singleton_append,List.intercalate_cons_of_ne_nil hy,List.intercalate_singleton]
    · rw [List.cons_append,List.intercalate_cons_of_ne_nil (by simp),List.intercalate_cons_of_ne_nil (by simp),
        ih (by simp)]
      simp only [List.append_assoc]

def Plain (e : Str) : Prop := e ≠ [] ∧ e ≠ dot ∧ '/' ∉ e
instance (e) : Decidable (Plain e) := inferInstanceAs (Decidable (_ ∧ _ ∧ _))

/-- The elements kept so far, innermost first: below a `..` there are only more. -/
def Kept : List Str → Prop
  | [] => True
  | e :: rest => Plain e ∧ (e = dotdot → ∀ outer ∈ rest, outer = dotdot) ∧ Kept rest

theorem plainDotdot : Plain dotdot := by simp [Plain,dotdot,dot]

theorem keptPlain {es : List Str} (kept : Kept es) : ∀ e ∈ es, Plain e := by
  induction es with
  | nil => simp
  | cons e es ih => exact List.forall_mem_cons.mpr ⟨kept.1,ih kept.2.2⟩

theorem pushKept {out : List Str} {e : Str} (kept : Kept out) (nonempty : e ≠ []) (whole : '/' ∉ e) :
    Kept (push false out e) := by
  unfold push
  split
  · exact kept
  · rename_i notDot
    split
    · rename_i up
      cases out with
      | nil => exact ⟨plainDotdot,fun _ _ h => absurd h List.not_mem_nil,trivial⟩
      | cons top rest =>
        by_cases climbing : top = dotdot
        · simp only [climbing,if_true]
          refine ⟨plainDotdot,fun _ outer member => ?_,climbing ▸ kept⟩
          rcases List.mem_cons.mp member with rfl | below
          · rfl
          · exact kept.2.1 climbing outer below
        · simpa [climbing] using kept.2.2
    · rename_i down
      exact ⟨⟨nonempty,notDot,whole⟩,fun up => absurd up down,kept⟩

theorem foldKept {es out : List Str} (kept : Kept out) (whole : ∀ e ∈ es, e ≠ [] ∧ '/' ∉ e) :
    Kept (es.foldl (push false) out) := by
  induction es generalizing out with
  | nil => exact kept
  | cons e es ih =>
    have first := whole e List.mem_cons_self
    exact ih (pushKept kept first.1 first.2) (fun x hx => whole x (List.mem_cons_of_mem _ hx))

theorem pushAgain {out : List Str} {e : Str} (kept : Kept (e :: out)) : push false out e = e :: out := by
  obtain ⟨plain,climbs,_⟩ := kept
  unfold push
  rw [if_neg plain.2.1]
  split
  · rename_i up
    cases out with
    | nil => simp [up]
    | cons top rest => simp [climbs up top List.mem_cons_self,up]
  · rfl

theorem foldAgain {es : List Str} (kept : Kept es) : es.reverse.foldl (push false) [] = es := by
  induction es with
  | nil => rfl
  | cons e es ih => rw [List.reverse_cons,List.foldl_append,ih kept.2.2,List.foldl_cons,List.foldl_nil,pushAgain kept]

theorem splitOnParts (p : Str) : ∀ e ∈ p.splitOn '/', '/' ∉ e ∧ ∀ c ∈ e, c ∈ p := by
  induction p with
  | nil => simp
  | cons d p ih =>
    intro e member
    rw [List.splitOn_cons_eq_if_modifyHead] at member
    have below : ∀ part ∈ p.splitOn '/', '/' ∉ part ∧ ∀ c ∈ part, c ∈ d :: p := fun part inner =>
      ⟨(ih part inner).1,fun c hc => List.mem_cons_of_mem _ ((ih part inner).2 c hc)⟩
    split at member
    · rcases List.mem_cons.mp member with rfl | inner
      · simp
      · exact below e inner
    · rename_i other
      obtain ⟨first,rest,parts⟩ := List.exists_cons_of_ne_nil (List.splitOn_ne_nil '/' p)
      rw [parts,List.modifyHead_cons] at member
      rcases List.mem_cons.mp member with rfl | inner
      · have head := below first (parts ▸ List.mem_cons_self)
        have new : d ≠ '/' := by simpa using other
        refine ⟨by simp [new.symm,head.1],?_⟩
        exact List.forall_mem_cons.mpr ⟨List.mem_cons_self,head.2⟩
      · exact below e (parts ▸ List.mem_cons_of_mem _ inner)

theorem elementsWhole (p : Str) : ∀ e ∈ elements p, e ≠ [] ∧ '/' ∉ e := by
  intro e member
  obtain ⟨part,nonempty⟩ := List.mem_filter.mp member
  exact ⟨of_decide_eq_true nonempty,(splitOnParts p e part).1⟩

theorem elementsJoined {es : List Str} (plain : ∀ e ∈ es, Plain e) : elements (joined es) = es := by
  cases es with
  | nil => rfl
  | cons e rest =>
    have parts : (joined (e :: rest)).splitOn '/' = e :: rest :=
      List.splitOn_intercalate '/' (fun x hx => (plain x hx).2.2) (by simp)
    rw [elements,parts]
    exact List.filter_eq_self.mpr (fun x hx => decide_eq_true (plain x hx).1)

theorem joinedHead {es : List Str} (plain : ∀ e ∈ es, Plain e) : (joined es).head? ≠ some '/' := by
  cases es with
  | nil => simp [joined]
  | cons e rest =>
    obtain ⟨nonempty,_,whole⟩ := plain e List.mem_cons_self
    obtain ⟨c,cs,rfl⟩ := List.exists_cons_of_ne_nil nonempty
    have other : c ≠ '/' := fun same => whole (same ▸ List.mem_cons_self)
    rcases List.eq_nil_or_concat' rest with rfl | ⟨init,last,rfl⟩
    · simpa [joined] using other
    · rw [joined,List.intercalate_cons_of_ne_nil (by simp)]
      simpa using other

section Relative
variable {p : Str}

theorem cleanKept (relative : p.head? ≠ some '/') :
    ∃ es, Kept es.reverse ∧ clean p = if es = [] then dot else joined es := by
  refine ⟨((elements p).foldl (push false) []).reverse,?_,?_⟩
  · rw [List.reverse_reverse]
    exact foldKept trivial (elementsWhole p)
  · have flag : (p.head? == some '/') = false := by simpa using relative
    simp [clean,flag]

theorem joinedSelf {es : List Str} (kept : Kept es.reverse) (some : es ≠ []) : clean (joined es) = joined es := by
  have plain : ∀ e ∈ es, Plain e := fun e member => keptPlain kept e (List.mem_reverse.mpr member)
  have flag : ((joined es).head? == Option.some '/') = false := by simpa using joinedHead plain
  have again := foldAgain kept
  rw [List.reverse_reverse] at again
  simp [clean,flag,elementsJoined plain,again,some]

theorem cleanIdem (relative : p.head? ≠ some '/') : clean (clean p) = clean p := by
  obtain ⟨es,kept,eq⟩ := cleanKept relative
  rw [eq]
  split
  · decide
  · rename_i nonempty
    exact joinedSelf kept nonempty

theorem cleanRelative (relative : p.head? ≠ some '/') : (clean p).head? ≠ some '/' := by
  obtain ⟨es,kept,eq⟩ := cleanKept relative
  rw [eq]
  split
  · decide
  · exact joinedHead (fun e member => keptPlain kept e (List.mem_reverse.mpr member))

end Relative

/-! Cleaning adds no character but slashes and dots, and no length. -/

theorem pushMember {rooted : Bool} {out : List Str} {e x : Str} (member : x ∈ push rooted out e) :
    x ∈ out ∨ x = e ∨ x = dotdot := by
  unfold push at member
  split at member
  · exact Or.inl member
  · split at member
    · cases out with
      | nil => cases rooted <;> simp_all
      | cons top rest =>
        by_cases climbing : top = dotdot
        · simp only [climbing,if_true,List.mem_cons] at member ⊢
          tauto
        · simp only [climbing,if_false] at member
          exact Or.inl (List.mem_cons_of_mem _ member)
    · rcases List.mem_cons.mp member with same | old
      · exact Or.inr (Or.inl same)
      · exact Or.inl old

theorem foldMember {rooted : Bool} {es out : List Str} {x : Str} (member : x ∈ es.foldl (push rooted) out) :
    x ∈ out ∨ x ∈ es ∨ x = dotdot := by
  induction es generalizing out with
  | nil => exact Or.inl member
  | cons e es ih =>
    rcases ih member with kept | rest | up
    · rcases pushMember kept with old | same | up
      · exact Or.inl old
      · exact Or.inr (Or.inl (same ▸ List.mem_cons_self))
      · exact Or.inr (Or.inr up)
    · exact Or.inr (Or.inl (List.mem_cons_of_mem _ rest))
    · exact Or.inr (Or.inr up)

theorem joinedChar {es : List Str} {c : Char} (member : c ∈ joined es) : c = '/' ∨ ∃ e ∈ es, c ∈ e := by
  induction es with
  | nil => simp [joined] at member
  | cons e rest ih =>
    by_cases last : rest = []
    · refine Or.inr ⟨e,List.mem_cons_self,?_⟩
      simpa [joined,last] using member
    · rw [joined,List.intercalate_cons_of_ne_nil last,List.append_assoc,List.mem_append,List.mem_append] at member
      rcases member with first | separator | inner
      · exact Or.inr ⟨e,List.mem_cons_self,first⟩
      · exact Or.inl (by simpa [slash] using separator)
      · rcases ih inner with separator | ⟨x,hx,hc⟩
        · exact Or.inl separator
        · exact Or.inr ⟨x,List.mem_cons_of_mem _ hx,hc⟩

theorem cleanChar {p : Str} {c : Char} (member : c ∈ clean p) : c = '/' ∨ c = '.' ∨ c ∈ p := by
  have kept : ∀ rooted, c ∈ joined ((elements p).foldl (push rooted) []).reverse → c = '/' ∨ c = '.' ∨ c ∈ p := by
    intro rooted inside
    rcases joinedChar inside with separator | ⟨e,he,hc⟩
    · exact Or.inl separator
    · rcases foldMember (List.mem_reverse.mp he) with none | part | up
      · exact absurd none List.not_mem_nil
      · exact Or.inr (Or.inr ((splitOnParts p e (List.mem_of_mem_filter part)).2 c hc))
      · refine Or.inr (Or.inl ?_)
        simpa [up,dotdot] using hc
  unfold clean at member
  dsimp only at member
  split at member
  · rcases List.mem_append.mp member with separator | inside
    · exact Or.inl (by simpa [slash] using separator)
    · exact kept _ inside
  · split at member
    · exact Or.inr (Or.inl (by simpa [dot] using member))
    · exact kept _ member

def weight (es : List Str) : Nat := (es.map (fun e => e.length+1)).sum

theorem pushWeight (rooted : Bool) (out : List Str) (e : Str) :
    weight (push rooted out e) ≤ weight out + (e.length+1) := by
  unfold push
  split
  · omega
  · split
    · rename_i up
      subst up
      cases out with
      | nil => cases rooted <;> simp [weight]
      | cons top rest => by_cases climbing : top = dotdot <;> simp [weight,climbing] <;> omega
    · simp only [weight,List.map_cons,List.sum_cons]
      omega

theorem foldWeight (rooted : Bool) (es out : List Str) :
    weight (es.foldl (push rooted) out) ≤ weight out + weight es := by
  induction es generalizing out with
  | nil => simp [weight]
  | cons e es ih =>
    have step := pushWeight rooted out e
    have rest := ih (push rooted out e)
    simp only [weight,List.foldl_cons,List.map_cons,List.sum_cons] at step rest ⊢
    omega

theorem joinedLength {es : List Str} (nonempty : es ≠ []) : (joined es).length + 1 = weight es := by
  induction es with
  | nil => contradiction
  | cons e rest ih =>
    by_cases last : rest = []
    · simp [joined,weight,last]
    · have inner := ih last
      rw [joined,List.intercalate_cons_of_ne_nil last]
      have one : slash.length = 1 := rfl
      simp only [joined,weight,one,List.length_append,List.map_cons,List.sum_cons] at inner ⊢
      omega

theorem sublistWeight {a b : List Str} (h : a.Sublist b) : weight a ≤ weight b := by
  induction h with
  | slnil => exact le_rfl
  | cons e _ ih =>
    simp only [weight,List.map_cons,List.sum_cons] at ih ⊢
    omega
  | cons_cons e _ ih =>
    simp only [weight,List.map_cons,List.sum_cons] at ih ⊢
    omega

theorem keptShorter (rooted : Bool) (p : Str) :
    (joined ((elements p).foldl (push rooted) []).reverse).length ≤ p.length := by
  by_cases none : ((elements p).foldl (push rooted) []).reverse = []
  · simp [none,joined]
  · have kept := joinedLength none
    have all := joinedLength (List.splitOn_ne_nil '/' p)
    have whole : joined (p.splitOn '/') = p := List.intercalate_splitOn '/'
    rw [whole] at all
    have fold := foldWeight rooted (elements p) []
    have dropped : weight (elements p) ≤ weight (p.splitOn '/') := sublistWeight List.filter_sublist
    have turned : weight ((elements p).foldl (push rooted) []).reverse = weight ((elements p).foldl (push rooted) []) := by
      simp [weight]
    have empty : weight [] = 0 := rfl
    omega

theorem cleanShorter {p : Str} (nonempty : p ≠ []) : (clean p).length ≤ p.length := by
  obtain ⟨c,rest,rfl⟩ := List.exists_cons_of_ne_nil nonempty
  by_cases rooted : c = '/'
  · subst rooted
    have inner : elements ('/' :: rest) = elements rest := by simp [elements,List.splitOn_cons_eq_if_modifyHead]
    have kept := keptShorter true rest
    have one : slash.length = 1 := rfl
    simp only [clean,List.head?_cons,beq_self_eq_true,if_true,inner,List.length_append,List.length_cons,one]
    omega
  · have flag : ((c :: rest).head? == some '/') = false := by simpa using rooted
    have kept := keptShorter false (c :: rest)
    simp only [clean,flag,Bool.false_eq_true,if_false]
    split
    · simp [dot]
    · exact kept

example : clean "a/./b//../c/".toList = "a/c".toList := by decide
example : clean "../x/..".toList = "..".toList := by decide
example : clean "/../x".toList = "/x".toList := by decide
example : base "/work/infra/".toList = "infra".toList := by decide
example : dir "prod/api/deploy.yaml".toList = "prod/api".toList := by decide

def Name (n : Str) : Prop := Plain n ∧ n ≠ dotdot
instance (n) : Decidable (Name n) := inferInstanceAs (Decidable (_ ∧ _))

theorem keptNames {es : List Str} (names : ∀ n ∈ es, Name n) : Kept es := by
  induction es with
  | nil => trivial
  | cons e es ih =>
    obtain ⟨first,rest⟩ := List.forall_mem_cons.mp names
    exact ⟨first.1,fun up => absurd up first.2,ih rest⟩

theorem cleanNames {es : List Str} (names : ∀ n ∈ es, Name n) (some : es ≠ []) : clean (joined es) = joined es :=
  joinedSelf (keptNames (fun n member => names n (List.mem_reverse.mp member))) some

end M6t.SlashPath
