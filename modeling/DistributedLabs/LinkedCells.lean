import Mathlib.Data.List.Nodup
import Mathlib.Tactic

/-! Doubly linked lists whose cells lie in one arena and point to each other by
position. A cell that is taken out keeps its own links, so cells taken out one
after the other can be put back in the reverse order, and the arena is then what
it was. -/

namespace DistributedLabs.LinkedCells

structure Cell (α : Type) where
  item : α
  next : Option ℕ
  prev : Option ℕ
  deriving DecidableEq

variable {α : Type} {cells cells' : List (Cell α)} {p q : ℕ}
  {before r forward backward : Option ℕ} {front rest l : List ℕ}

def setNext (cells : List (Cell α)) (p : ℕ) (q : Option ℕ) : Option (List (Cell α)) :=
  if p < cells.length then some (cells.modify p fun c => { c with next := q }) else none

def setPrev (cells : List (Cell α)) (p : ℕ) (q : Option ℕ) : Option (List (Cell α)) :=
  if p < cells.length then some (cells.modify p fun c => { c with prev := q }) else none

def join (cells : List (Cell α)) (q : ℕ) (r forward backward : Option ℕ) :
    Option (List (Cell α)) := do
  let cells ← setNext cells q forward
  match r with
  | none => some cells
  | some r => setPrev cells r backward

/-- Join the neighbours of the cell at `p`, which must have one before it. -/
def unlink (cells : List (Cell α)) (p : ℕ) : Option (List (Cell α)) := do
  let c ← cells[p]?
  join cells (← c.prev) c.next c.next c.prev

def relink (cells : List (Cell α)) (p : ℕ) : Option (List (Cell α)) := do
  let c ← cells[p]?
  join cells (← c.prev) c.next (some p) (some p)

def insertBefore (cells : List (Cell α)) (n : ℕ) : Option ℕ → Option (List (Cell α))
  | none => some cells
  | some mark => do
    let m ← cells[mark]?
    let cells ← setPrev cells mark (some n)
    let cells ← setNext cells n (some mark)
    match m.prev with
    | none => some cells
    | some beforeMark =>
      let cells ← setPrev cells n (some beforeMark)
      setNext cells beforeMark (some n)

/-- The number of cells from a pointer on; none when it takes more than the fuel
or a pointer leaves the arena. -/
def length (cells : List (Cell α)) : ℕ → Option ℕ → Option ℕ
  | _, none => some 0
  | 0, some _ => none
  | fuel + 1, some p => do
    let c ← cells[p]?
    let l ← length cells fuel c.next
    some (l + 1)

/-- The positions `l` are the cells of a list that follows `before`. -/
def Linked (cells : List (Cell α)) : Option ℕ → List ℕ → Prop
  | _, [] => True
  | before, p :: rest =>
    (∃ item, cells[p]? = some ⟨item, rest.head?, before⟩) ∧ Linked cells (some p) rest

theorem Linked.congr (h : Linked cells before l) (same : ∀ p ∈ l, cells'[p]? = cells[p]?) :
    Linked cells' before l := by
  induction l generalizing before with
  | nil => trivial
  | cons p rest ih =>
    obtain ⟨⟨item, here⟩, later⟩ := h
    refine ⟨⟨item, ?_⟩, ih later fun q member => same q (List.mem_cons_of_mem p member)⟩
    rw [same p List.mem_cons_self, here]

theorem Linked.length (h : Linked cells before l) {fuel : ℕ} (enough : l.length ≤ fuel) :
    length cells fuel l.head? = some l.length := by
  induction l generalizing before fuel with
  | nil => simp [LinkedCells.length]
  | cons p rest ih =>
    obtain ⟨⟨item, here⟩, later⟩ := h
    cases fuel with
    | zero => simp at enough
    | succ fuel =>
      have tail := ih later (by simpa using enough)
      simp [LinkedCells.length, here, tail]

theorem Linked.cell (h : Linked cells before (front ++ p :: rest)) :
    ∃ item, cells[p]? = some ⟨item, rest.head?, front.getLast?.or before⟩ := by
  induction front generalizing before with
  | nil => simpa using h.1
  | cons x front ih =>
    obtain ⟨item, here⟩ := ih h.2
    refine ⟨item, here.trans ?_⟩
    cases front with
    | nil => rfl
    | cons y front => simp [List.getLast?_eq_some_getLast]

theorem Linked.bound (h : Linked cells before l) (member : p ∈ l) : p < cells.length := by
  obtain ⟨front, rest, rfl⟩ := List.append_of_mem member
  obtain ⟨item, here⟩ := h.cell
  exact (List.getElem?_eq_some_iff.mp here).1

def Joined (cells cells' : List (Cell α)) (q : ℕ) (r forward backward : Option ℕ) : Prop :=
  ∀ x, cells'[x]? = cells[x]?.map fun c => Cell.mk c.item
    (if x = q then forward else c.next) (if r = some x then backward else c.prev)

theorem join_joined (left : q < cells.length) (right : ∀ x ∈ r, x < cells.length)
    (forward backward : Option ℕ) :
    ∃ cells', join cells q r forward backward = some cells' ∧
      Joined cells cells' q r forward backward := by
  cases r with
  | none =>
    refine ⟨cells.modify q fun c => { c with next := forward }, by simp [join, setNext, left], ?_⟩
    intro x
    rw [List.getElem?_modify]
    by_cases here : q = x
    · simp [here]
    · simp [here, Ne.symm here]
  | some r =>
    have bound : r < cells.length := right r rfl
    refine ⟨(cells.modify q fun c => { c with next := forward }).modify r fun c =>
      { c with prev := backward }, by simp [join, setNext, setPrev, left, bound], ?_⟩
    intro x
    rw [List.getElem?_modify, List.getElem?_modify]
    cases cells[x]? with
    | none => simp
    | some c =>
      simp only [Option.map_some, Option.some.injEq, eq_comm (a := x)]
      by_cases here : q = x <;> by_cases there : r = x <;> simp [here, there]

theorem Joined.items (h : Joined cells cells' q r forward backward) :
    cells'.map Cell.item = cells.map Cell.item := by
  apply List.ext_getElem?
  intro x
  rw [List.getElem?_map, List.getElem?_map, h x, Option.map_map]
  rfl

theorem Joined.same (h : Joined cells cells' q r forward backward) {x : ℕ} (left : x ≠ q)
    (right : r ≠ some x) : cells'[x]? = cells[x]? := by
  simp [h x, left, right]

theorem Linked.skip (h : Linked cells before (front ++ q :: p :: rest))
    (nodup : (front ++ q :: p :: rest).Nodup)
    (joined : Joined cells cells' q rest.head? rest.head? (some q)) :
    Linked cells' before (front ++ q :: rest) := by
  induction front generalizing before with
  | nil =>
    simp only [List.nil_append, List.nodup_cons, List.mem_cons, not_or] at nodup
    obtain ⟨⟨item, here⟩, -, later⟩ := h
    have other : rest.head? ≠ some q := fun head => nodup.1.2 (List.mem_of_mem_head? head)
    refine ⟨⟨item, by simp [joined q, here, other]⟩, ?_⟩
    cases rest with
    | nil => trivial
    | cons r rest =>
      obtain ⟨⟨next, there⟩, tail⟩ := later
      have apart : r ≠ q := fun equal => nodup.1.2 (by simp [equal])
      refine ⟨⟨next, by simp [joined r, there, apart]⟩, tail.congr fun x member => ?_⟩
      apply joined.same
      · rintro rfl
        exact nodup.1.2 (List.mem_cons_of_mem r member)
      · intro first
        obtain rfl : r = x := by simpa using first
        exact (List.nodup_cons.mp nodup.2.2).1 member
  | cons x front ih =>
    obtain ⟨⟨item, here⟩, later⟩ := h
    rw [List.cons_append, List.nodup_cons] at nodup
    obtain ⟨fresh, tail⟩ := nodup
    simp only [List.mem_append, List.mem_cons, not_or] at fresh
    have kept := joined.same fresh.2.1 fun head => fresh.2.2.2 (List.mem_of_mem_head? head)
    refine ⟨⟨item, ?_⟩, ih later tail⟩
    rw [kept, here]
    cases front <;> rfl

theorem Linked.unlink_between (h : Linked cells before (front ++ q :: p :: rest))
    (nodup : (front ++ q :: p :: rest).Nodup) :
    ∃ cells', unlink cells p = some cells' ∧ Linked cells' before (front ++ q :: rest) ∧
      relink cells' p = some cells ∧ cells'.map Cell.item = cells.map Cell.item ∧
      cells'[p]? = cells[p]? := by
  have reversed : front ++ q :: p :: rest = (front ++ [q]) ++ p :: rest := by simp
  obtain ⟨y, atQ⟩ := h.cell
  obtain ⟨x, atP⟩ : ∃ x, cells[p]? = some ⟨x, rest.head?, some q⟩ := by
    rw [reversed] at h
    simpa using h.cell
  have apart := (List.nodup_append.mp nodup).2.1
  simp only [List.nodup_cons, List.mem_cons, not_or] at apart
  have left : q < cells.length := h.bound (by simp)
  have right : ∀ r ∈ rest.head?, r < cells.length := fun r head =>
    h.bound (by simp [List.mem_of_mem_head? head])
  obtain ⟨cells', done, joined⟩ := join_joined left right rest.head? (some q)
  have keptP : cells'[p]? = cells[p]? :=
    joined.same (Ne.symm apart.1.1) fun head => apart.2.1 (List.mem_of_mem_head? head)
  have bounds : cells'.length = cells.length := by simpa using congrArg List.length joined.items
  rw [← bounds] at left right
  obtain ⟨again, back, restored⟩ := join_joined left right (some p) (some p)
  have undone : again = cells := by
    apply List.ext_getElem?
    intro z
    rw [restored z, joined z, Option.map_map]
    cases atZ : cells[z]? with
    | none => rfl
    | some c =>
      have forwards : z = q → c.next = some p := by
        rintro rfl
        rw [atQ] at atZ
        rw [← Option.some.inj atZ]
        rfl
      have backwards : rest.head? = some z → c.prev = some p := by
        intro head
        obtain ⟨tail, rfl⟩ := List.head?_eq_some_iff.mp head
        have again : front ++ q :: p :: z :: tail = (front ++ [q, p]) ++ z :: tail := by simp
        rw [again] at h
        obtain ⟨w, found⟩ := h.cell
        rw [found] at atZ
        rw [← Option.some.inj atZ]
        simp
      obtain ⟨item, next, prev⟩ := c
      simp only [Option.map_some, Function.comp_apply, Option.some.injEq, Cell.mk.injEq, true_and]
      constructor
      · split
        · rename_i left
          exact (forwards left).symm
        · rfl
      · split
        · rename_i right
          exact (backwards right).symm
        · rfl
  refine ⟨cells', ?_, h.skip nodup joined, ?_, joined.items, keptP⟩
  · simpa [unlink, atP] using done
  · simpa [relink, keptP, atP, undone] using back

theorem Linked.unlink {root : ℕ} (h : Linked cells before (root :: l)) (nodup : (root :: l).Nodup)
    (member : p ∈ l) :
    ∃ cells', unlink cells p = some cells' ∧ Linked cells' before (root :: l.erase p) ∧
      relink cells' p = some cells ∧ cells'.map Cell.item = cells.map Cell.item ∧
      cells'[p]? = cells[p]? := by
  obtain ⟨front, rest, rfl⟩ := List.append_of_mem member
  have absent : p ∉ front := fun twice => by
    have split := (List.nodup_append.mp (List.nodup_cons.mp nodup).2).2.2
    exact split p twice p List.mem_cons_self rfl
  rw [List.erase_append_right _ absent, List.erase_cons_head]
  -- the neighbour before `p` is the last cell of `front`, or the root
  rcases List.eq_nil_or_concat front with rfl | ⟨init, last, rfl⟩
  · have shape : root :: ([] ++ p :: rest) = [] ++ root :: p :: rest := rfl
    rw [shape] at h nodup
    exact h.unlink_between nodup
  · simp only [List.concat_eq_append, List.append_assoc, List.singleton_append,
      ← List.cons_append] at h nodup ⊢
    exact h.unlink_between nodup

theorem modify_items {f : Cell α → Cell α} (same : ∀ c, (f c).item = c.item) (p : ℕ) :
    (cells.modify p f).map Cell.item = cells.map Cell.item := by
  apply List.ext_getElem?
  intro x
  rw [List.getElem?_map, List.getElem?_map, List.getElem?_modify, Option.map_eq_map,
    Option.map_map]
  congr 1
  funext c
  by_cases here : p = x <;> simp [here, same]

theorem Linked.push (h : Linked cells none l) (nodup : (p :: l).Nodup) {item : α}
    (new : cells[p]? = some ⟨item, none, none⟩) :
    ∃ cells', insertBefore cells p l.head? = some cells' ∧ Linked cells' none (p :: l) ∧
      cells'.map Cell.item = cells.map Cell.item := by
  cases l with
  | nil => exact ⟨cells, rfl, ⟨⟨item, new⟩, trivial⟩, rfl⟩
  | cons m rest =>
    have boundM : m < cells.length := h.bound List.mem_cons_self
    have boundP : p < cells.length := (List.getElem?_eq_some_iff.mp new).1
    obtain ⟨⟨x, atM⟩, later⟩ := h
    simp only [List.nodup_cons, List.mem_cons, not_or] at nodup
    refine ⟨(cells.modify m fun c => { c with prev := p }).modify p fun c => { c with next := m },
      ?_, ⟨⟨item, ?_⟩, ⟨x, ?_⟩, later.congr ?_⟩, ?_⟩
    · simp only [List.head?_cons, insertBefore, setPrev, setNext, atM, Option.bind_eq_bind,
        Option.bind_some, List.length_modify, if_pos boundM, if_pos boundP]
    · simp [Ne.symm nodup.1.1, new]
    · simp [nodup.1.1, atM]
    · intro y member
      have notM : m ≠ y := by
        rintro rfl
        exact nodup.2.1 member
      have notP : p ≠ y := by
        rintro rfl
        exact nodup.1.2 member
      simp [notM, notP]
    · rw [modify_items, modify_items] <;> exact fun _ => rfl

end DistributedLabs.LinkedCells
