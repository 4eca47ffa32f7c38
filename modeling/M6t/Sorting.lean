import Mathlib.Data.List.FinRange
import Mathlib.Data.List.Pairwise
import Mathlib.Data.List.Sort
import Mathlib.Order.Defs.LinearOrder

/-! Sorting by a preorder: a stable sort keeps the order its input had where the preorder
ties, and two lists put what they share in one order when their relations agree on it. -/
namespace M6t.Sorting
variable {α : Type*} {le first : α → α → Prop}

/-- In order, and where the preorder ties the first one first. -/
def Stably (le first : α → α → Prop) (a b : α) : Prop := le a b ∧ (le b a → first a b)

theorem stablyAsymm (asymm : ∀ a b, first a b → ¬first b a) {a b : α} (ordered : Stably le first a b) :
    ¬Stably le first b a :=
  fun back => asymm a b (ordered.2 back.1) (back.2 ordered.1)

section
variable [DecidableRel le] [Std.Total le] [IsTrans α le]

theorem insertStably {a : α} {l : List α} (ordered : l.Pairwise (Stably le first)) (before : ∀ b ∈ l, first a b) :
    (l.orderedInsert le a).Pairwise (Stably le first) := by
  induction l with
  | nil => exact List.pairwise_singleton _ a
  | cons b l ih =>
    obtain ⟨least,rest⟩ := List.pairwise_cons.mp ordered
    by_cases here : le a b
    · rw [List.orderedInsert_cons_of_le le l here]
      refine List.pairwise_cons.mpr ⟨?_,ordered⟩
      intro c member
      refine ⟨?_,fun _ => before c member⟩
      rcases List.mem_cons.mp member with rfl | later
      · exact here
      · exact IsTrans.trans a b c here (least c later).1
    · rw [List.orderedInsert_of_not_le le l here]
      refine List.pairwise_cons.mpr ⟨?_,ih rest (fun c member => before c (List.mem_cons_of_mem _ member))⟩
      intro c member
      rcases (List.mem_orderedInsert le).mp member with rfl | later
      · exact ⟨(Std.Total.total b c).resolve_right here,fun back => absurd back here⟩
      · exact least c later

theorem sortStably {l : List α} (ordered : l.Pairwise first) : (l.insertionSort le).Pairwise (Stably le first) := by
  induction l with
  | nil => exact List.Pairwise.nil
  | cons a l ih =>
    obtain ⟨before,rest⟩ := List.pairwise_cons.mp ordered
    exact insertStably (ih rest) (fun b member => before b ((List.mem_insertionSort le).mp member))

end

section
variable {κ : Type*} [LinearOrder κ] {front : α → Bool} {key : α → κ}

def KindFirst (front : α → Bool) (key : α → κ) (a b : α) : Prop :=
  front a = true ∧ front b = false ∨ front a = front b ∧ key a ≤ key b

theorem kindTotal (a b : α) : KindFirst front key a b ∨ KindFirst front key b a := by
  unfold KindFirst
  rcases le_total (key a) (key b) with le | le <;> cases front a <;> cases front b <;> simp [le]

theorem kindTrans {a b c : α} (first : KindFirst front key a b) (second : KindFirst front key b c) : KindFirst front key a c := by
  rcases first with ⟨ahead,behind⟩ | ⟨kind,le⟩
  · rcases second with ⟨ahead',-⟩ | ⟨kind',-⟩
    · exact absurd (behind.symm.trans ahead') nofun
    · exact .inl ⟨ahead,kind' ▸ behind⟩
  · rcases second with ⟨ahead',behind'⟩ | ⟨kind',le'⟩
    · exact .inl ⟨kind ▸ ahead',behind'⟩
    · exact .inr ⟨kind.trans kind',le_trans le le'⟩

end

section
variable {P Q : α → α → Prop} {l m : List α}

theorem mapSame {β : Type*} {f : α → β} (mapped : l.map f = m.map f) (same : ∀ a ∈ l, ∀ b ∈ m, f a = f b → a = b) : l = m := by
  induction l generalizing m with
  | nil => exact (List.map_eq_nil_iff.mp mapped.symm).symm
  | cons a l ih =>
    cases m with
    | nil => exact absurd mapped (by simp)
    | cons b m =>
      obtain ⟨first,rest⟩ := List.cons.inj mapped
      rw [same a List.mem_cons_self b List.mem_cons_self first,
        ih rest (fun x there y there' => same x (List.mem_cons_of_mem _ there) y (List.mem_cons_of_mem _ there'))]

theorem pairEither (ordered : l.Pairwise P) {a b : α} (first : a ∈ l) (second : b ∈ l) (apart : a ≠ b) : P a b ∨ P b a := by
  have either : l.Pairwise (fun a b => P a b ∨ P b a) := ordered.imp Or.inl
  have : Std.Symm (fun a b => P a b ∨ P b a) := ⟨fun _ _ => Or.symm⟩
  exact either.forall first second apart

theorem sameOrder [DecidablePred (· ∈ l)] [DecidablePred (· ∈ m)] (ordered : l.Pairwise P) (ordered' : (m.filter (· ∈ l)).Pairwise Q) (once : m.Nodup)
    (asymm : ∀ a b, P a b → ¬P b a) (asymm' : ∀ a b, Q a b → ¬Q b a) :
    l.filter (· ∈ m) = m.filter (· ∈ l) ↔ ∀ a ∈ l, ∀ b ∈ l, a ∈ m → b ∈ m → P a b → Q a b := by
  constructor
  · intro same a first b second there there' before
    have both : (l.filter (· ∈ m)).Pairwise (fun a b => P a b ∧ Q a b) :=
      (ordered.sublist List.filter_sublist).and (same ▸ ordered')
    have apart : a ≠ b := fun same => asymm a b before (same ▸ before)
    have member : ∀ c ∈ l, c ∈ m → c ∈ l.filter (· ∈ m) := fun c inside shared =>
      List.mem_filter.mpr ⟨inside,decide_eq_true shared⟩
    rcases pairEither both (member a first there) (member b second there') apart with kept | swapped
    · exact kept.2
    · exact absurd swapped.1 (asymm a b before)
  · intro agree
    have kept : (l.filter (· ∈ m)).Pairwise Q :=
      (ordered.sublist List.filter_sublist).imp_of_mem (fun {a b} first second before => by
        obtain ⟨inside,shared⟩ := List.mem_filter.mp first
        obtain ⟨inside',shared'⟩ := List.mem_filter.mp second
        exact agree a inside b inside' (of_decide_eq_true shared) (of_decide_eq_true shared') before)
    have own : l.Nodup := by
      refine List.Pairwise.imp (fun {a b} before (same : a = b) => ?_) ordered
      subst same
      exact asymm a a before before
    have perm : (l.filter (· ∈ m)).Perm (m.filter (· ∈ l)) :=
      (List.perm_ext_iff_of_nodup (own.filter _) (once.filter _)).mpr (fun a => by
        simp only [List.mem_filter,decide_eq_true_eq]
        exact and_comm)
    exact perm.eq_of_pairwise (fun a b _ _ before back => absurd back (asymm' a b before)) kept ordered'

end

section
variable {α : Type} {cmp next : α → α → Int} {a b c : α}

structure Ranks (cmp : α → α → Int) : Prop where
  turned : ∀ a b, cmp b a ≤ 0 ↔ 0 ≤ cmp a b
  trans : ∀ a b c, cmp a b ≤ 0 → cmp b c ≤ 0 → cmp a c ≤ 0

theorem Ranks.lessFirst (ranks : Ranks cmp) (less : cmp a b < 0) (rest : cmp b c ≤ 0) : cmp a c < 0 := by
  by_contra not
  have back : cmp c a ≤ 0 := (ranks.turned a c).mpr (by omega)
  have around := (ranks.turned a b).mp (ranks.trans b c a rest back)
  omega

theorem Ranks.lessLast (ranks : Ranks cmp) (rest : cmp a b ≤ 0) (less : cmp b c < 0) : cmp a c < 0 := by
  by_contra not
  have back : cmp c a ≤ 0 := (ranks.turned a c).mpr (by omega)
  have around := (ranks.turned b c).mp (ranks.trans c a b back rest)
  omega

def andThen (cmp next : α → α → Int) (a b : α) : Int := if cmp a b ≠ 0 then cmp a b else next a b

theorem Ranks.andThen (ranks : Ranks cmp) (ranks' : Ranks next) : Ranks (andThen cmp next) where
  turned a b := by
    have first := ranks.turned a b
    have second := ranks.turned b a
    have last := ranks'.turned a b
    unfold Sorting.andThen
    split <;> split <;> omega
  trans a b c := by
    intro ab bc
    unfold Sorting.andThen at *
    by_cases tie : cmp a b = 0 <;> by_cases tie' : cmp b c = 0
    · have forth := ranks.trans a b c tie.le tie'.le
      have back := ranks.trans c b a ((ranks.turned b c).mpr tie'.ge) ((ranks.turned a b).mpr tie.ge)
      have same : cmp a c = 0 := le_antisymm forth ((ranks.turned a c).mp back)
      simp only [tie,tie',same,ne_eq,not_true_eq_false,if_false] at *
      exact ranks'.trans a b c ab bc
    · simp only [tie',ne_eq,not_false_eq_true,if_true] at bc
      have less := ranks.lessLast tie.le (lt_of_le_of_ne bc tie')
      simp [less.ne,less.le]
    · simp only [tie,ne_eq,not_false_eq_true,if_true] at ab
      have less := ranks.lessFirst (lt_of_le_of_ne ab tie) tie'.le
      simp [less.ne,less.le]
    · simp only [tie,tie',ne_eq,not_false_eq_true,if_true] at ab bc
      have less := ranks.lessFirst (lt_of_le_of_ne ab tie) bc
      simp [less.ne,less.le]

theorem Ranks.on {κ : Type} {cmp : κ → κ → Int} (ranks : Ranks cmp) (key : α → κ) : Ranks (fun a b => cmp (key a) (key b)) :=
  ⟨fun a b => ranks.turned (key a) (key b),fun a b c => ranks.trans (key a) (key b) (key c)⟩

/-- `slices.SortFunc`: the same elements in ascending order, equal ones in any order. The
sort is generic, so it sees an element through the comparison only. -/
structure SortFunc where
  sort : {α : Type} → (α → α → Int) → List α → List α
  same : ∀ {α : Type} (cmp : α → α → Int) (l : List α), (sort cmp l).Perm l
  ordered : ∀ {α : Type} {cmp : α → α → Int}, Ranks cmp → ∀ l, (sort cmp l).Pairwise (fun a b => cmp a b ≤ 0)
  blind : ∀ {α β : Type} {cmp : α → α → Int} {cmp' : β → β → Int} {f : α → β},
    (∀ a b, cmp' (f a) (f b) = cmp a b) → ∀ l, sort cmp' (l.map f) = (sort cmp l).map f

def Alike (cmp : α → α → Int) (a b : α) : Prop := ∀ c, cmp a c = cmp b c ∧ cmp c a = cmp c b

theorem sortedSame (s : SortFunc) (ranks : Ranks cmp) {l m : List α} (perm : m.Perm l)
    (apart : ∀ a ∈ l, ∀ b ∈ l, cmp a b = 0 → a = b) : s.sort cmp m = s.sort cmp l := by
  have shuffled : (s.sort cmp m).Perm (s.sort cmp l) := (s.same cmp m).trans (perm.trans (s.same cmp l).symm)
  refine shuffled.eq_of_pairwise (fun a b first second there back => ?_) (s.ordered ranks m) (s.ordered ranks l)
  have member : a ∈ l := (s.same cmp l).mem_iff.mp (shuffled.mem_iff.mp first)
  have member' : b ∈ l := (s.same cmp l).mem_iff.mp second
  exact apart a member b member' (le_antisymm there ((ranks.turned a b).mp back))

theorem exchanged (s : SortFunc) {l : List α} (steady : ∀ m : List α, m.Perm l → s.sort cmp m = s.sort cmp l)
    (first : a ∈ l) (second : b ∈ l) (alike : Alike cmp a b) : a = b := by
  obtain ⟨i,rfl⟩ := List.get_of_mem first
  obtain ⟨j,rfl⟩ := List.get_of_mem second
  let places := List.finRange l.length
  let ranked := fun p q : Fin l.length => cmp (l.get p) (l.get q)
  let turned := fun p => l.get (Equiv.swap i j p)
  have unseen : ∀ p, Alike cmp (turned p) (l.get p) := by
    intro p c
    by_cases here : p = i
    · subst here
      simp only [turned,Equiv.swap_apply_left]
      exact ⟨(alike c).1.symm,(alike c).2.symm⟩
    by_cases there : p = j
    · subst there
      simp only [turned,Equiv.swap_apply_right]
      exact alike c
    · simp [turned,Equiv.swap_apply_of_ne_of_ne here there]
  have whole : places.map l.get = l := List.map_get_finRange l
  have moved : (places.map turned).Perm l := by
    have swapped := ((Equiv.swap i j).map_finRange_perm).map l.get
    rw [List.map_map,whole] at swapped
    exact swapped
  have plain : s.sort cmp l = (s.sort ranked places).map l.get := by
    conv_lhs => rw [← whole]
    exact s.blind (fun _ _ => rfl) places
  have crossed : s.sort cmp (places.map turned) = (s.sort ranked places).map turned :=
    s.blind (fun p q => ((unseen p _).1.trans (unseen q _).2)) places
  have both : (s.sort ranked places).map turned = (s.sort ranked places).map l.get :=
    crossed.symm.trans ((steady _ moved).trans plain)
  have met : turned i = l.get i :=
    List.map_inj_left.mp both i ((s.same ranked places).mem_iff.mpr (List.mem_finRange i))
  simpa [turned] using met.symm

end

def SortFunc.insertion : SortFunc where
  sort cmp l := l.insertionSort (fun a b => cmp a b ≤ 0)
  same _ l := List.perm_insertionSort _ l
  ordered := by
    intro α cmp ranks l
    have : Std.Total (fun a b => cmp a b ≤ 0) := ⟨fun a b => by have := ranks.turned a b; omega⟩
    have : IsTrans α (fun a b => cmp a b ≤ 0) := ⟨ranks.trans⟩
    exact List.pairwise_insertionSort _ l
  blind := by
    intro α β cmp cmp' f same l
    refine (List.map_insertionSort _ _ f l (fun a _ b _ => ?_)).symm
    rw [same]

end M6t.Sorting
