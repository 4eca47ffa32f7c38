import Mathlib.Data.List.Basic
import Mathlib.Data.List.Induction

/-! Finite runs of a labelled step function, with a condition every step taken
has to meet. A label whose step answers `none` cannot be taken in that state. A list as
numbered slots is what holds the parties of such a state. -/
namespace M6t.Runs
variable {σ ε : Type*} (step : σ → ε → Option σ) (allowed : σ → ε → Prop)

inductive Run (start : σ) : List ε → σ → Prop where
  | nil : Run start [] start
  | snoc {es s e t} (before : Run start es s) (ok : allowed s e) (taken : step s e = some t) :
      Run start (es ++ [e]) t

def anyStep : σ → ε → Prop := fun _ _ => True

variable {step allowed} {start s : σ} {es : List ε}

theorem Run.traced {I : List ε → σ → Prop} (initial : I [] start)
    (kept : ∀ es s e t, I es s → allowed s e → step s e = some t → I (es ++ [e]) t)
    (run : Run step allowed start es s) : I es s := by
  induction run with
  | nil => exact initial
  | snoc before ok taken ih => exact kept _ _ _ _ ih ok taken

theorem Run.invariant {I : σ → Prop} (initial : I start)
    (kept : ∀ s e t, I s → allowed s e → step s e = some t → I t)
    (run : Run step allowed start es s) : I s :=
  run.traced (I := fun _ s => I s) initial (fun _ => kept)

theorem Run.weaken {other : σ → ε → Prop} (weaker : ∀ s e, allowed s e → other s e)
    (run : Run step allowed start es s) : Run step other start es s := by
  induction run with
  | nil => exact .nil
  | snoc before ok taken ih => exact .snoc ih (weaker _ _ ok) taken

theorem Run.allowing {other : σ → ε → Prop} (each : ∀ e ∈ es, ∀ s, other s e)
    (run : Run step allowed start es s) : Run step other start es s := by
  induction run with
  | nil => exact .nil
  | snoc before ok taken ih =>
    exact .snoc (ih (fun e member => each e (List.mem_append_left _ member))) (each _ (by simp) _) taken

theorem Run.append {t : σ} {more : List ε} (one : Run step allowed start es s) (two : Run step allowed s more t) :
    Run step allowed start (es ++ more) t := by
  induction two with
  | nil => rwa [List.append_nil]
  | snoc before ok taken ih =>
    rw [← List.append_assoc]
    exact .snoc ih ok taken

theorem Run.last {e : ε} (run : Run step allowed start (es ++ [e]) s) :
    ∃ t, Run step allowed start es t ∧ allowed t e ∧ step t e = some s := by
  generalize joined : es ++ [e] = all at run
  cases run with
  | nil => simp at joined
  | snoc before ok taken =>
    obtain ⟨rfl,final⟩ := List.append_inj' joined rfl
    cases final
    exact ⟨_,before,ok,taken⟩

theorem Run.front {later : List ε} (run : Run step allowed start (es ++ later) s) : ∃ t, Run step allowed start es t := by
  induction later using List.reverseRecOn generalizing s with
  | nil => exact ⟨s,by simpa using run⟩
  | append_singleton later e ih =>
    rw [← List.append_assoc] at run
    obtain ⟨t,before,_⟩ := run.last
    exact ih before

theorem Run.same {other : σ → ε → Prop} {t : σ} (one : Run step allowed start es s) (two : Run step other start es t) :
    s = t := by
  induction one generalizing t with
  | nil =>
    generalize none_ : ([] : List ε) = all at two
    cases two with
    | nil => rfl
    | snoc before ok taken => simp at none_
  | snoc before ok taken ih =>
    obtain ⟨u,front,_,also⟩ := two.last
    cases ih front
    exact Option.some.inj (taken.symm.trans also)

def exec (step : σ → ε → Option σ) (start : σ) : List ε → Option σ
  | [] => some start
  | e :: es => (step start e).bind (fun t => exec step t es)

theorem execSnoc {e : ε} : exec step start (es ++ [e]) = (exec step start es).bind (fun s => step s e) := by
  induction es generalizing start with
  | nil => cases h : step start e <;> simp [exec,h]
  | cons d es ih =>
    cases h : step start d with
    | none => simp [exec,h]
    | some t => simp [exec,h,ih]

theorem runOfExec (done : exec step start es = some s) : Run step anyStep start es s := by
  induction es using List.reverseRecOn generalizing s with
  | nil => cases Option.some.inj done; exact .nil
  | append_singleton es e ih =>
    rw [execSnoc] at done
    obtain ⟨t,ht,last⟩ := Option.bind_eq_some_iff.mp done
    exact .snoc (ih ht) trivial last

def guarded (step : σ → ε → Option σ) (allowed : σ → ε → Prop) [∀ s e, Decidable (allowed s e)] (s : σ) (e : ε) :
    Option σ :=
  if allowed s e then step s e else none

theorem runOfGuarded [∀ s e, Decidable (allowed s e)] (done : exec (guarded step allowed) start es = some s) :
    Run step allowed start es s := by
  have run := runOfExec done
  clear done
  induction run with
  | nil => exact .nil
  | @snoc es s e t before ok taken ih =>
    by_cases met : allowed s e
    · exact .snoc ih met (by simpa [guarded,met] using taken)
    · simp [guarded,met] at taken

def Preceded (before : ε → List ε → Prop) (history : List ε) : Prop :=
  ∀ later e earlier, history = later ++ e :: earlier → before e earlier

variable {before : ε → List ε → Prop} {history : List ε}

theorem precededNil : Preceded before [] := by
  intro later e earlier split
  simp at split

theorem precededCons {e : ε} (new : before e history) (old : Preceded before history) :
    Preceded before (e :: history) := by
  intro later d earlier split
  cases later with
  | nil =>
    obtain ⟨rfl,rfl⟩ := List.cons.inj split
    exact new
  | cons c later =>
    obtain ⟨_,rest⟩ := List.cons.inj split
    exact old later d earlier rest

theorem precededTail {e : ε} (all : Preceded before (e :: history)) : Preceded before history := by
  rintro later d earlier rfl
  exact all (e :: later) d earlier rfl

/-- After every entry that asks there is a later entry that replies. -/
def Answered (asks : ε → Prop) (reply : ε) (es : List ε) : Prop :=
  ∀ earlier e later, es = earlier ++ e :: later → asks e → reply ∈ later

variable {asks : ε → Prop} {reply : ε}

theorem splitSnoc {e d : ε} {earlier later : List ε} (split : es ++ [d] = earlier ++ e :: later) :
    (∃ rest, later = rest ++ [d] ∧ es = earlier ++ e :: rest) ∨ later = [] ∧ e = d ∧ earlier = es := by
  induction later using List.reverseRecOn with
  | nil =>
    obtain ⟨same,last⟩ := List.append_inj' split rfl
    exact .inr ⟨rfl,(List.cons.inj last).1.symm,same.symm⟩
  | append_singleton rest last =>
    rw [← List.cons_append,← List.append_assoc] at split
    obtain ⟨same,final⟩ := List.append_inj' split rfl
    cases final
    exact .inl ⟨rest,rfl,same⟩

theorem answeredNil : Answered asks reply ([] : List ε) := by
  intro earlier e later split
  simp at split

theorem Answered.snoc {e : ε} (answered : Answered asks reply es) (silent : ¬asks e) : Answered asks reply (es ++ [e]) := by
  intro earlier d later split asked
  rcases splitSnoc split with ⟨rest,rfl,old⟩ | ⟨_,rfl,_⟩
  · exact List.mem_append_left _ (answered earlier d rest old asked)
  · exact absurd asked silent

theorem answeredNow (silent : ¬asks reply) : Answered asks reply (es ++ [reply]) := by
  intro earlier d later split asked
  rcases splitSnoc split with ⟨rest,rfl,_⟩ | ⟨_,rfl,_⟩
  · exact List.mem_append_right _ List.mem_cons_self
  · exact absurd asked silent

theorem answeredCons {e : ε} : Answered asks reply (e :: es) ↔ (asks e → reply ∈ es) ∧ Answered asks reply es := by
  refine ⟨fun all => ⟨all [] e es rfl,fun earlier d later split => all (e :: earlier) d later (by rw [split]; rfl)⟩,?_⟩
  rintro ⟨now,old⟩ earlier d later split
  cases earlier with
  | nil =>
    obtain ⟨rfl,rfl⟩ := List.cons.inj split
    exact now
  | cons first earlier => exact old earlier d later (List.cons.inj split).2

instance answeredDecidable [DecidablePred asks] [DecidableEq ε] : (es : List ε) → Decidable (Answered asks reply es)
  | [] => isTrue answeredNil
  | e :: es =>
    have := answeredDecidable es
    decidable_of_iff _ (answeredCons (e := e)).symm

theorem Answered.append {more : List ε} (answered : Answered asks reply es) (silent : ∀ e ∈ more, ¬asks e) :
    Answered asks reply (es ++ more) := by
  induction more using List.reverseRecOn with
  | nil => simpa using answered
  | append_singleton more e ih =>
    rw [← List.append_assoc]
    exact (ih (fun d member => silent d (List.mem_append_left _ member))).snoc (silent e (by simp))

theorem answeredAfter {more : List ε} (silent : ∀ e ∈ more, ¬asks e) (replied : reply ∈ more) :
    Answered asks reply (es ++ more) := by
  induction es with
  | nil => exact answeredNil.append silent
  | cons e es ih => exact answeredCons.mpr ⟨fun _ => List.mem_append_right _ replied,ih⟩

section Slots
variable {α γ : Type*} {l : List α} {i : Nat} {a b v : α}

theorem memSet (at_ : l[i]? = some b) (member : a ∈ l) (other : a ≠ b) : a ∈ l.set i v := by
  obtain ⟨j,found⟩ := List.mem_iff_getElem?.mp member
  refine List.mem_iff_getElem?.mpr ⟨j,?_⟩
  rw [List.getElem?_set_ne ?_,found]
  rintro rfl
  exact other (Option.some.inj (found.symm.trans at_))

theorem memSetSelf (at_ : l[i]? = some b) : v ∈ l.set i v :=
  List.mem_set (List.getElem?_eq_some_iff.mp at_).1 v

theorem memSetCases (member : a ∈ l.set i v) : a = v ∨ ∃ k ≠ i, l[k]? = some a := by
  obtain ⟨k,found⟩ := List.mem_iff_getElem?.mp member
  by_cases here : k = i
  · subst here
    rw [List.getElem?_set_self'] at found
    cases old : l[k]? with
    | none => simp [old] at found
    | some y => simp [old] at found; exact .inl found.symm
  · rw [List.getElem?_set_ne (Ne.symm here)] at found
    exact .inr ⟨k,here,found⟩

theorem mapSetSame (f : α → γ) (at_ : l[i]? = some a) (same : f b = f a) : (l.set i b).map f = l.map f := by
  rw [List.map_set,same]
  refine List.ext_getElem? (fun k => ?_)
  by_cases here : i = k
  · subst here
    rw [List.getElem?_set_self',List.getElem?_map,at_]
    rfl
  · rw [List.getElem?_set_ne here]

theorem setOther [DecidableEq γ] {f : α → γ} {key : γ} (at_ : l[i]? = some a) (same : f b = f a) (other : f a ≠ key) :
    (l.set i b).filter (fun c => f c = key) = l.filter (fun c => f c = key) := by
  obtain ⟨bound,rfl⟩ := List.getElem?_eq_some_iff.mp at_
  have whole : l.take i ++ l[i] :: l.drop (i + 1) = l := by rw [← List.drop_eq_getElem_cons bound,List.take_append_drop]
  rw [List.set_eq_take_cons_drop _ bound,← congrArg (List.filter _) whole,List.filter_append,List.filter_append,
    List.filter_cons_of_neg (by simp [same,other]),List.filter_cons_of_neg (by simp [other])]

theorem onlyOne [BEq γ] [LawfulBEq γ] [DecidableEq γ] {f : α → γ} {key : γ} (at_ : l[i]? = some a)
    (once : (l.map f).count key ≤ 1) (here : f a = key) : l.filter (fun b => f b = key) = [a] := by
  have member : a ∈ l.filter (fun b => f b = key) :=
    List.mem_filter.mpr ⟨List.mem_of_getElem? at_,by simpa using here⟩
  have short : (l.filter (fun b => f b = key)).length ≤ 1 := by
    have same : (fun name => name == key) ∘ f = fun b => decide (f b = key) := by
      funext b
      by_cases mine : f b = key <;> simp [mine]
    rwa [List.count_eq_countP,List.countP_map,List.countP_eq_length_filter,same] at once
  match rest : l.filter (fun b => f b = key),member,short with
  | [b],member,_ => rw [List.mem_singleton.mp member]

end Slots

end M6t.Runs
