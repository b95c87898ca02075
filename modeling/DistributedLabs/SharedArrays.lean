import Mathlib.Tactic

/-! The arrays behind a slice variable of a program that shares them. A slice
taken from the variable keeps pointing into the array that was shown then, and
`append` writes that array in place as long as its capacity lasts, so the cells
of a slice can change after it was taken. -/

namespace DistributedLabs.SharedArrays

variable {α : Type}

/-- What lies behind a variable whose slice starts where its array starts: the
cells after the last element shown, the capacity, the arrays that the variable
has left, oldest first, and the room that the allocator adds to the next one. -/
structure Backing (α : Type) where
  behind : List α
  cap : ℕ
  left : List (List α)
  room : ℕ

def Backing.current (m : Backing α) : ℕ := m.left.length

/-- The cells of array `g` while the variable shows `shown`. -/
def Backing.array (m : Backing α) (shown : List α) (g : ℕ) : List α :=
  m.left[g]?.getD (shown ++ m.behind)

/-- The variable is assigned an `append` after which it shows `shown'`. -/
def Backing.append (m : Backing α) (shown shown' : List α) : Backing α :=
  if shown'.length ≤ m.cap then
    { m with behind := (shown ++ m.behind).drop shown'.length }
  else
    { m with
      behind := []
      cap := shown'.length + m.room
      left := m.left ++ [shown ++ m.behind] }

variable {m : Backing α} {shown shown' : List α} {g : ℕ}

theorem array_of_current_le (now : m.current ≤ g) : m.array shown g = shown ++ m.behind := by
  simp [Backing.array, List.getElem?_eq_none now]

theorem current_append : m.current ≤ (m.append shown shown').current := by
  unfold Backing.append
  split
  · exact le_rfl
  · simp [Backing.current]

theorem array_append_left (old : g < m.current) :
    (m.append shown shown').array shown' g = m.array shown g := by
  obtain ⟨cells, found⟩ : ∃ cells, m.left[g]? = some cells := ⟨_, List.getElem?_eq_getElem old⟩
  have inside : (m.left ++ [shown ++ m.behind])[g]? = some cells :=
    (List.getElem?_append_left old).trans found
  unfold Backing.append
  split
  · simp [Backing.array, found]
  · simp [Backing.array, found, inside]

theorem array_append_current (fits : shown'.length ≤ m.cap) (now : m.current ≤ g) :
    (m.append shown shown').array shown' g =
      shown' ++ (shown ++ m.behind).drop shown'.length := by
  rw [Backing.append, if_pos fits]
  exact array_of_current_le (m := { m with behind := _ }) now

/-- With no room left, the array shown so far stays as it is and a new one
begins. -/
theorem array_append_full (full : ¬ shown'.length ≤ m.cap) (now : m.current ≤ g) :
    (m.append shown shown').array shown' g =
      if g = m.current then shown ++ m.behind else shown' := by
  rw [Backing.append, if_neg full]
  split
  · rename_i last
    subst last
    simp [Backing.array, Backing.current]
  · have beyond : m.left.length + 1 ≤ g := by
      have : m.left.length ≤ g := now
      have : g ≠ m.left.length := by assumption
      omega
    simp [Backing.array, List.getElem?_eq_none (l := m.left ++ [shown ++ m.behind])
      (by simpa using beyond)]

theorem length_array_append (known : g ≤ m.current) :
    (m.array shown g).length ≤ ((m.append shown shown').array shown' g).length := by
  rcases known.lt_or_eq with old | rfl
  · rw [array_append_left old]
  · rw [array_of_current_le le_rfl]
    by_cases fits : shown'.length ≤ m.cap
    · rw [array_append_current fits le_rfl]
      simp only [List.length_append, List.length_drop]
      omega
    · rw [array_append_full fits le_rfl, if_pos rfl]

theorem mem_array_append (rooted : shown' ≠ []) {x : α}
    (found : x ∈ ((m.append shown shown').array shown' g).drop 1) :
    x ∈ (m.array shown g).drop 1 ∨ x ∈ shown'.drop 1 := by
  have positive := List.length_pos_iff.mpr rooted
  rcases lt_or_ge g m.current with old | now
  · rw [array_append_left old] at found
    exact .inl found
  · rw [array_of_current_le now]
    by_cases fits : shown'.length ≤ m.cap
    · rw [array_append_current fits now, List.drop_append_of_le_length positive] at found
      refine (List.mem_append.mp found).symm.imp_left fun behind => ?_
      rw [show shown'.length = 1 + (shown'.length - 1) by omega, ← List.drop_drop] at behind
      exact List.mem_of_mem_drop behind
    · rw [array_append_full fits now] at found
      split at found
      · exact .inl found
      · exact .inr found

structure Kept (m : Backing α) (shown : List α) (m' : Backing α) (shown' : List α) : Prop where
  current : m.current ≤ m'.current
  length : ∀ g ≤ m.current, (m.array shown g).length ≤ (m'.array shown' g).length
  cells : ∀ g, ∀ x ∈ (m'.array shown' g).drop 1, x ∈ (m.array shown g).drop 1 ∨ x ∈ shown'.drop 1

theorem Kept.refl (m : Backing α) (shown : List α) : Kept m shown m shown :=
  ⟨le_rfl, fun _ _ => le_rfl, fun _ _ found => .inl found⟩

theorem kept_allocate (m : Backing α) (shown : List α) (room : ℕ) :
    Kept m shown { m with room := room } shown :=
  ⟨le_rfl, fun _ _ => le_rfl, fun _ _ found => .inl found⟩

theorem kept_append (m : Backing α) (shown : List α) (rooted : shown' ≠ []) :
    Kept m shown (m.append shown shown') shown' :=
  ⟨current_append, fun _ known => length_array_append known,
    fun _ _ found => mem_array_append rooted found⟩

end DistributedLabs.SharedArrays
