import Mathlib.Data.List.Rotate
import Mathlib.Data.List.Basic

/-! A ring of fixed capacity: it holds the last elements written to it. -/
namespace M6t.Scrollback
variable {α : Type*}

def copyInto (dst : List α) (at_ : Nat) (src : List α) : List α :=
  dst.take at_ ++ src.take (dst.length - at_) ++ dst.drop (at_ + min (dst.length - at_) src.length)

structure Ring (α : Type*) where
  buf : List α
  start : Nat
  size : Nat
  deriving DecidableEq, Repr

def newRing [Inhabited α] (capacity : Nat) : Ring α := ⟨List.replicate capacity default,0,0⟩

def Ring.write (r : Ring α) (p : List α) : Ring α :=
  let capacity := r.buf.length
  if p.length ≥ capacity then ⟨copyInto r.buf 0 (p.drop (p.length - capacity)),0,capacity⟩
  else
    let end_ := (r.start + r.size) % capacity
    let n := min (capacity - end_) p.length
    let buf := copyInto (copyInto r.buf end_ p) 0 (p.drop n)
    if r.size + p.length > capacity then ⟨buf,(r.start + (r.size + p.length - capacity)) % capacity,capacity⟩
    else ⟨buf,r.start,r.size + p.length⟩

def Ring.snapshot [Inhabited α] (r : Ring α) : List α :=
  let held := (r.buf.drop r.start).take (min (r.start + r.size) r.buf.length - r.start)
  let out := copyInto (List.replicate r.size default) 0 held
  copyInto out held.length (r.buf.take (r.size - held.length))

def last (capacity : Nat) (l : List α) : List α := l.drop (l.length - capacity)

structure Ring.Sound (r : Ring α) : Prop where
  start : r.start < r.buf.length
  size : r.size ≤ r.buf.length

/-- What the ring holds, oldest first. -/
def Ring.contents (r : Ring α) : List α := (r.buf.rotate r.start).take r.size

variable {r : Ring α}

theorem copyLength {dst src : List α} {at_ : Nat} (inside : at_ ≤ dst.length) : (copyInto dst at_ src).length = dst.length := by
  simp [copyInto]
  omega

theorem copyGet {dst src : List α} {at_ j : Nat} (inside : at_ ≤ dst.length) : (copyInto dst at_ src)[j]? =
    if at_ ≤ j ∧ j < at_ + min (dst.length - at_) src.length then src[j - at_]? else dst[j]? := by
  grind [copyInto]

theorem wrap {c i : Nat} (twice : i < 2 * c) : i % c = if i < c then i else i - c := by
  split
  · next low => exact Nat.mod_eq_of_lt low
  · next high => rw [Nat.mod_eq_sub_mod (Nat.le_of_not_lt high),Nat.mod_eq_of_lt (by omega)]

theorem contentsLength (sound : r.Sound) : r.contents.length = r.size := by simp [Ring.contents,sound.size]

theorem contentsGet (sound : r.Sound) {i : Nat} (inside : i < r.size) :
    r.contents[i]? = r.buf[(i + r.start) % r.buf.length]? := by
  rw [Ring.contents,List.getElem?_take_of_lt inside,List.getElem?_rotate (inside.trans_le sound.size)]

theorem copyFront {dst src : List α} (fits : src.length ≤ dst.length) : copyInto dst 0 src = src ++ dst.drop src.length := by
  simp [copyInto,fits]

theorem copyAfter {a rest src : List α} (same : rest.length = src.length) : copyInto (a ++ rest) a.length src = a ++ src := by
  simp [copyInto,same]

theorem frontTaken :
    (r.buf.drop r.start).take (min (r.start + r.size) r.buf.length - r.start) = (r.buf.drop r.start).take r.size := by
  rcases Nat.le_total (r.start + r.size) r.buf.length with fits | wraps
  · rw [min_eq_left fits,Nat.add_sub_cancel_left]
  · rw [min_eq_right wraps,List.take_of_length_le (by simp),List.take_of_length_le (by simp; omega)]

theorem snapshotContents [Inhabited α] (sound : r.Sound) : r.snapshot = r.contents := by
  have start := sound.start
  have size := sound.size
  rw [Ring.snapshot,frontTaken]
  generalize front : (r.buf.drop r.start).take r.size = held
  have length : held.length = min r.size (r.buf.length - r.start) := by rw [← front,List.length_take,List.length_drop]
  have copied : copyInto (List.replicate r.size default) 0 held = held ++ List.replicate (r.size - held.length) default := by
    rw [copyFront (by rw [List.length_replicate]; omega),List.drop_replicate]
  simp only [copied]
  rw [copyAfter (by simp; omega),Ring.contents,List.rotate_eq_drop_append_take start.le,List.take_append,front,List.take_take]
  congr 2
  rw [length,List.length_drop]
  omega

def Ring.filled (r : Ring α) (p : List α) : List α :=
  let end_ := (r.start + r.size) % r.buf.length
  copyInto (copyInto r.buf end_ p) 0 (p.drop (min (r.buf.length - end_) p.length))

theorem filledLength (sound : r.Sound) {p : List α} : (r.filled p).length = r.buf.length := by
  have inside := Nat.mod_lt (r.start + r.size) (Nat.zero_lt_of_lt sound.start)
  rw [Ring.filled,copyLength (Nat.zero_le _),copyLength inside.le]

theorem filledGet (sound : r.Sound) {p : List α} (fits : p.length < r.buf.length) {k : Nat}
    (low : k < r.size + p.length) (kept : r.size + p.length ≤ k + r.buf.length) :
    (r.filled p)[(k + r.start) % r.buf.length]? = (r.contents ++ p)[k]? := by
  have start := sound.start
  have size := sound.size
  have length := contentsLength sound
  have inside := Nat.mod_lt (r.start + r.size) (Nat.zero_lt_of_lt start)
  have here : (k + r.start) % r.buf.length < r.buf.length := Nat.mod_lt _ (Nat.zero_lt_of_lt start)
  have e := wrap (c := r.buf.length) (i := r.start + r.size) (by omega)
  by_cases old : k < r.size
  · rw [List.getElem?_append_left (by omega),contentsGet sound old,Ring.filled,copyGet (Nat.zero_le _),
      copyGet inside.le,copyLength inside.le]
    have j := wrap (c := r.buf.length) (i := k + r.start) (by omega)
    generalize (r.start + r.size) % r.buf.length = e' at *
    generalize (k + r.start) % r.buf.length = j' at *
    rw [List.length_drop,if_neg,if_neg]
    · split at e <;> split at j <;> omega
    · split at e <;> split at j <;> omega
  · rw [List.getElem?_append_right (by omega),length,Ring.filled,copyGet (Nat.zero_le _),
      copyGet inside.le,copyLength inside.le]
    have turn : (k + r.start) % r.buf.length = ((r.start + r.size) % r.buf.length + (k - r.size)) % r.buf.length := by
      rw [Nat.mod_add_mod]
      congr 1
      omega
    have j := wrap (c := r.buf.length) (i := (r.start + r.size) % r.buf.length + (k - r.size)) (by omega)
    rw [← turn] at j
    generalize (r.start + r.size) % r.buf.length = e' at *
    generalize (k + r.start) % r.buf.length = j' at *
    rw [List.length_drop,List.getElem?_drop]
    split at j
    · rw [if_neg (by omega),if_pos (by omega)]
      congr 1
      omega
    · rw [if_pos (by omega)]
      congr 1
      omega

theorem writeBig {p : List α} (big : r.buf.length ≤ p.length) :
    r.write p = ⟨p.drop (p.length - r.buf.length),0,r.buf.length⟩ := by
  have whole : copyInto r.buf 0 (p.drop (p.length - r.buf.length)) = p.drop (p.length - r.buf.length) := by
    have tail : r.buf.drop (p.drop (p.length - r.buf.length)).length = [] :=
      List.drop_of_length_le (by rw [List.length_drop]; omega)
    rw [copyFront (by rw [List.length_drop]; omega),tail,List.append_nil]
  simp [Ring.write,big,whole]

theorem writeOver {p : List α} (fits : p.length < r.buf.length) (beyond : r.buf.length < r.size + p.length) :
    r.write p = ⟨r.filled p,(r.start + (r.size + p.length - r.buf.length)) % r.buf.length,r.buf.length⟩ := by
  simp [Ring.write,Ring.filled,Nat.not_le.mpr fits,beyond]

theorem writeWithin {p : List α} (fits : p.length < r.buf.length) (room : r.size + p.length ≤ r.buf.length) :
    r.write p = ⟨r.filled p,r.start,r.size + p.length⟩ := by
  simp [Ring.write,Ring.filled,Nat.not_le.mpr fits,Nat.not_lt.mpr room]

theorem writeSound (sound : r.Sound) (p : List α) : (r.write p).Sound ∧ (r.write p).buf.length = r.buf.length := by
  have positive := Nat.zero_lt_of_lt sound.start
  rcases Nat.lt_or_ge p.length r.buf.length with fits | big
  · have same := filledLength sound (p := p)
    rcases Nat.lt_or_ge r.buf.length (r.size + p.length) with beyond | room
    · rw [writeOver fits beyond]
      exact ⟨⟨by simpa only [same] using Nat.mod_lt _ positive,same.ge⟩,same⟩
    · rw [writeWithin fits room]
      exact ⟨⟨by simpa only [same] using sound.start,by simpa only [same] using room⟩,same⟩
  · have same : (p.drop (p.length - r.buf.length)).length = r.buf.length := by rw [List.length_drop]; omega
    rw [writeBig big]
    exact ⟨⟨by simpa only [same] using positive,same.ge⟩,same⟩

theorem contentsFrom {w : Ring α} (sound : w.Sound) {l : List α} {k : Nat} (length : w.size + k = l.length)
    (get : ∀ i, i < w.size → w.buf[(i + w.start) % w.buf.length]? = l[k + i]?) : w.contents = l.drop k := by
  refine List.ext_getElem? (fun i => ?_)
  rw [List.getElem?_drop]
  rcases Nat.lt_or_ge i w.size with inside | outside
  · rw [contentsGet sound inside,get i inside]
  · rw [List.getElem?_eq_none (by rw [contentsLength sound]; exact outside),List.getElem?_eq_none (by omega)]

theorem writeContents (sound : r.Sound) (p : List α) : (r.write p).contents = last r.buf.length (r.contents ++ p) := by
  have length := contentsLength sound
  have after := (writeSound sound p).1
  have total : (r.contents ++ p).length = r.size + p.length := by rw [List.length_append,length]
  rw [last,total]
  rcases Nat.lt_or_ge p.length r.buf.length with fits | big
  · rcases Nat.lt_or_ge r.buf.length (r.size + p.length) with beyond | room
    · rw [writeOver fits beyond] at after ⊢
      refine contentsFrom after (by rw [total]; exact Nat.add_sub_of_le beyond.le) (fun i inside => ?_)
      rw [← filledGet sound fits (by simp only at inside; omega) (by omega)]
      simp only [filledLength sound]
      rw [Nat.add_mod_mod]
      congr 2
      omega
    · rw [writeWithin fits room] at after ⊢
      refine contentsFrom after (by rw [total]; simp only; omega) (fun i inside => ?_)
      simp only [filledLength sound] at inside ⊢
      rw [filledGet sound fits inside (by omega)]
      congr 1
      omega
  · have size := sound.size
    have gone : r.contents.drop (r.size + p.length - r.buf.length) = [] := List.drop_of_length_le (by omega)
    have tail : (p.drop (p.length - r.buf.length)).length ≤ r.buf.length := by rw [List.length_drop]; omega
    have same : r.size + p.length - r.buf.length - r.size = p.length - r.buf.length := by omega
    rw [writeBig big,List.drop_append,gone,length,List.nil_append,same]
    simp only [Ring.contents,List.rotate_zero]
    exact List.take_of_length_le tail

theorem lastLast (capacity : Nat) (l p : List α) : last capacity (last capacity l ++ p) = last capacity (l ++ p) := by
  have shorter : l.length - capacity ≤ l.length := Nat.sub_le _ _
  rw [last,last,last,← List.drop_append_of_le_length shorter,List.drop_drop,List.length_drop]
  congr 1
  rw [List.length_append]
  omega

theorem newContents [Inhabited α] {capacity : Nat} : (newRing capacity : Ring α).contents = [] := by
  simp [Ring.contents,newRing]

theorem newSound [Inhabited α] {capacity : Nat} (positive : 0 < capacity) : (newRing capacity : Ring α).Sound :=
  ⟨by simpa [newRing] using positive,by simp [newRing]⟩

/-- A slice expression: `none` is the panic of an index out of range. -/
def slice (l : List α) (low high : Int) : Option (List α) :=
  if 0 ≤ low ∧ low ≤ high ∧ high ≤ l.length then some ((l.take high.toNat).drop low.toNat) else none

def Ring.writeSliced (r : Ring α) (p : List α) : Option (Ring α) := do
  let capacity := r.buf.length
  if p.length ≥ capacity then
    let tail ← slice p ((p.length : Int) - capacity) p.length
    some ⟨copyInto r.buf 0 tail,0,capacity⟩
  else
    let end_ := (r.start + r.size) % capacity
    let room ← slice r.buf end_ capacity
    let n := min room.length p.length
    let rest ← slice p n p.length
    let buf := copyInto (copyInto r.buf end_ p) 0 rest
    let overflow : Int := r.size + p.length - capacity
    if overflow > 0 then some ⟨buf,(r.start + overflow.toNat) % capacity,capacity⟩
    else some ⟨buf,r.start,r.size + p.length⟩

def Ring.snapshotSliced [Inhabited α] (r : Ring α) : Option (List α) := do
  let out := List.replicate r.size default
  let held ← slice r.buf r.start (min (r.start + r.size) r.buf.length : Nat)
  let n := min out.length held.length
  let _ ← slice out n r.size
  let front ← slice r.buf 0 ((r.size : Int) - n)
  some (copyInto (copyInto out 0 held) n front)

theorem sliceWithin {l : List α} {low high : Nat} (ordered : low ≤ high) (inside : high ≤ l.length) :
    slice l low high = some ((l.take high).drop low) := by
  have bounds : 0 ≤ (low : Int) ∧ (low : Int) ≤ high ∧ (high : Int) ≤ l.length := by omega
  rw [slice,if_pos bounds,Int.toNat_natCast,Int.toNat_natCast]

theorem sliceTail {l : List α} {low : Nat} (inside : low ≤ l.length) : slice l low l.length = some (l.drop low) := by
  rw [sliceWithin inside le_rfl,List.take_length]

theorem writeSliced (sound : r.Sound) (p : List α) : r.writeSliced p = some (r.write p) := by
  have positive := Nat.zero_lt_of_lt sound.start
  rcases Nat.lt_or_ge p.length r.buf.length with small | big
  · have inside := Nat.mod_lt (r.start + r.size) positive
    have excess : ((r.size : Int) + p.length - r.buf.length > 0) ↔ r.size + p.length > r.buf.length := by omega
    have beyond : ((r.size : Int) + p.length - r.buf.length).toNat = r.size + p.length - r.buf.length := by omega
    simp only [Ring.writeSliced,Ring.write,if_neg (Nat.not_le.mpr small),sliceTail inside.le,
      sliceTail (Nat.min_le_right _ p.length),Option.bind_eq_bind,Option.bind_some,List.length_drop,excess,beyond]
    split <;> rfl
  · have cut : ((p.length : Int) - r.buf.length) = (p.length - r.buf.length : Nat) := by omega
    simp only [Ring.writeSliced,Ring.write,if_pos big,cut,sliceTail (Nat.sub_le p.length r.buf.length),
      Option.bind_eq_bind,Option.bind_some]

theorem snapshotSliced [Inhabited α] (sound : r.Sound) : r.snapshotSliced = some r.snapshot := by
  have start := sound.start
  have size := sound.size
  have held : slice r.buf r.start (min (r.start + r.size) r.buf.length : Nat) =
      some ((r.buf.drop r.start).take (min (r.start + r.size) r.buf.length - r.start)) := by
    rw [sliceWithin (by omega) (Nat.min_le_right _ _),List.drop_take]
  unfold Ring.snapshotSliced Ring.snapshot
  have length : ((r.buf.drop r.start).take (min (r.start + r.size) r.buf.length - r.start)).length ≤ r.size := by
    rw [List.length_take]
    omega
  simp only [held,Option.bind_eq_bind,Option.bind_some,List.length_replicate]
  generalize (r.buf.drop r.start).take (min (r.start + r.size) r.buf.length - r.start) = first at length ⊢
  have rest : ((r.size : Int) - (first.length : Nat)) = (r.size - first.length : Nat) := by omega
  have after : slice (List.replicate r.size (default : α)) first.length r.size =
      some ((List.replicate r.size default).drop first.length) := by
    have inside : first.length ≤ (List.replicate r.size (default : α)).length := by rwa [List.length_replicate]
    have tail := sliceTail inside
    rwa [List.length_replicate] at tail
  have front : slice r.buf 0 (r.size - first.length : Nat) = some (r.buf.take (r.size - first.length)) := by
    rw [← Int.natCast_zero,sliceWithin (Nat.zero_le _) (by omega),List.drop_zero]
  simp only [Nat.min_eq_right length,after,rest,front,Option.bind_some]

theorem writesContents [Inhabited α] {capacity : Nat} (positive : 0 < capacity) (writes : List (List α)) :
    writes.foldlM Ring.writeSliced (newRing capacity) = some (writes.foldl Ring.write (newRing capacity)) ∧
    (writes.foldl Ring.write (newRing capacity)).Sound ∧
    (writes.foldl Ring.write (newRing capacity)).buf.length = capacity ∧
    (writes.foldl Ring.write (newRing capacity)).contents = last capacity writes.flatten := by
  induction writes using List.reverseRecOn with
  | nil => exact ⟨rfl,newSound positive,by simp [newRing],by simp [newContents,last]⟩
  | append_singleton before p ih =>
    obtain ⟨sliced,sound,length,contents⟩ := ih
    have after := writeSound sound p
    rw [List.foldlM_append,sliced,List.foldl_append]
    refine ⟨?_,after.1,after.2.trans length,?_⟩
    · simp only [List.foldlM_cons,List.foldlM_nil,List.foldl_cons,List.foldl_nil,Option.bind_eq_bind,Option.bind_some,
        writeSliced sound,Option.pure_def]
    · rw [List.foldl_cons,List.foldl_nil,writeContents sound,length,contents,lastLast,List.flatten_append]
      simp

/-- No write and no snapshot of a run panics, whatever its writes are, and what is kept is the end of what was written. -/
theorem writesKept [Inhabited α] {capacity : Nat} (positive : 0 < capacity) (writes : List (List α)) :
    writes.foldlM Ring.writeSliced (newRing capacity) = some (writes.foldl Ring.write (newRing capacity)) ∧
    (writes.foldl Ring.write (newRing capacity)).snapshotSliced =
      some (writes.flatten.drop (writes.flatten.length - min capacity writes.flatten.length)) := by
  obtain ⟨sliced,sound,_,contents⟩ := writesContents positive writes
  have cut : writes.flatten.length - min capacity writes.flatten.length = writes.flatten.length - capacity := by omega
  exact ⟨sliced,by rw [snapshotSliced sound,snapshotContents sound,contents,last,cut]⟩

theorem wrappedWritesKept : 0 < 4 ∧
    ([[1,2,3],[],[4,5],[6,7,8,9,10],[11]] : List (List Nat)).foldlM Ring.writeSliced (newRing 4) =
      some ([[1,2,3],[],[4,5],[6,7,8,9,10],[11]].foldl Ring.write (newRing 4)) ∧
    ([[1,2,3],[],[4,5],[6,7,8,9,10],[11]].foldl Ring.write (newRing 4)).snapshotSliced = some [8,9,10,11] :=
  ⟨by decide,writesKept (by decide) [[1,2,3],[],[4,5],[6,7,8,9,10],[11]]⟩

end M6t.Scrollback
