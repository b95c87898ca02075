import Mathlib.Data.Finset.Card
import Mathlib.Data.Finset.Range
import Mathlib.Tactic

/-! The bit sets of the checker (porcupine/bitset.go): bits 0-63 are in the first
chunk, the next 64 in the second. An access past the last chunk panics. The bit
sets refine finite sets of positions. -/

namespace DistributedLabs.PorcupineBitset

structure Bitset where
  data : List (BitVec 64)
  deriving DecidableEq

def newBitset (bits : ℕ) : Bitset :=
  let extra := if bits % 64 ≠ 0 then 1 else 0
  ⟨List.replicate (bits / 64 + extra) 0⟩

def bitsetIndex (pos : ℕ) : ℕ × ℕ := (pos / 64, pos % 64)

def Bitset.set (b : Bitset) (pos : ℕ) : Option Bitset := do
  let (major, minor) := bitsetIndex pos
  let v ← b.data[major]?
  some ⟨b.data.set major (v ||| 1#64 <<< minor)⟩

def Bitset.clear (b : Bitset) (pos : ℕ) : Option Bitset := do
  let (major, minor) := bitsetIndex pos
  let v ← b.data[major]?
  some ⟨b.data.set major (v &&& ~~~ (1#64 <<< minor))⟩

def Bitset.get (b : Bitset) (pos : ℕ) : Option Bool := do
  let (major, minor) := bitsetIndex pos
  let v ← b.data[major]?
  some (v &&& 1#64 <<< minor != 0)

def onesCount64 (v : BitVec 64) : ℕ := (List.range 64).countP v.getLsbD

def Bitset.popcnt (b : Bitset) : ℕ := (b.data.map onesCount64).sum

def Bitset.hash (b : Bitset) : BitVec 64 :=
  b.data.foldl (fun hash v => hash ^^^ v) (BitVec.ofNat 64 b.popcnt)

def Bitset.equals (b b2 : Bitset) : Bool :=
  b.data.length == b2.data.length && (b.data.zip b2.data).all fun p => p.1 == p.2

/-- The positions whose bit is set. -/
def Bitset.has (b : Bitset) (pos : ℕ) : Bool :=
  b.data[pos / 64]?.any fun v => v.getLsbD (pos % 64)

def Bitset.members (b : Bitset) : Finset ℕ :=
  (Finset.range (64 * b.data.length)).filter fun pos => b.has pos

section Members

variable {b b' b2 : Bitset} {pos other : ℕ}

theorem Bitset.has_bound (h : b.has pos) : pos < 64 * b.data.length := by
  obtain ⟨v, found, -⟩ := (Option.any_eq_true _ _).mp h
  have := (List.getElem?_eq_some_iff.mp found).1
  omega

theorem Bitset.mem_members : pos ∈ b.members ↔ b.has pos := by
  rw [Bitset.members, Finset.mem_filter, Finset.mem_range]
  exact and_iff_right_of_imp Bitset.has_bound

theorem getLsbD_bit {minor : ℕ} (bound : minor < 64) (j : ℕ) :
    (1#64 <<< minor).getLsbD j = decide (j = minor) := by
  simp only [BitVec.getLsbD_shiftLeft, BitVec.getLsbD_one]
  by_cases same : j = minor
  · simp [same, bound]
  · simp only [same, decide_false]
    by_cases below : j < minor
    · simp [below]
    · simp [below]
      omega

theorem Bitset.has_write {v w : BitVec 64} (found : b.data[pos / 64]? = some v) :
    (Bitset.mk (b.data.set (pos / 64) w)).has other =
      if other / 64 = pos / 64 then w.getLsbD (other % 64) else b.has other := by
  have bound := (List.getElem?_eq_some_iff.mp found).1
  unfold Bitset.has
  by_cases same : other / 64 = pos / 64
  · simp [same, bound]
  · simp [same, Ne.symm same]

theorem Bitset.has_chunk {v : BitVec 64} (found : b.data[pos / 64]? = some v)
    (chunk : other / 64 = pos / 64) : b.has other = v.getLsbD (other % 64) := by
  simp [Bitset.has, chunk, found]

theorem Bitset.set_members (done : b.set pos = some b') :
    b'.data.length = b.data.length ∧ b'.members = insert pos b.members := by
  obtain ⟨v, found, written⟩ := Option.bind_eq_some_iff.mp done
  obtain rfl := Option.some.inj written
  refine ⟨List.length_set, ?_⟩
  ext other
  have minor : pos % 64 < 64 := Nat.mod_lt _ (by decide)
  rw [Finset.mem_insert, Bitset.mem_members, Bitset.mem_members, Bitset.has_write found]
  by_cases chunk : other / 64 = pos / 64
  · have same : other = pos ↔ other % 64 = pos % 64 := by omega
    simp [chunk, same, Bitset.has_chunk found chunk, getLsbD_bit minor, or_comm]
  · have apart : other ≠ pos := fun same => chunk (by rw [same])
    simp [chunk, apart]

theorem Bitset.clear_members (done : b.clear pos = some b') :
    b'.data.length = b.data.length ∧ b'.members = b.members.erase pos := by
  obtain ⟨v, found, written⟩ := Option.bind_eq_some_iff.mp done
  obtain rfl := Option.some.inj written
  refine ⟨List.length_set, ?_⟩
  ext other
  have minor : pos % 64 < 64 := Nat.mod_lt _ (by decide)
  have inside : other % 64 < 64 := Nat.mod_lt _ (by decide)
  rw [Finset.mem_erase, Bitset.mem_members, Bitset.mem_members, Bitset.has_write found]
  by_cases chunk : other / 64 = pos / 64
  · have same : other = pos ↔ other % 64 = pos % 64 := by omega
    simp only [chunk, if_true, ne_eq, same, Bitset.has_chunk found chunk, BitVec.getLsbD_and,
      BitVec.getLsbD_not, getLsbD_bit minor, inside, decide_true, Bool.true_and]
    simp [and_comm]
  · have apart : other ≠ pos := fun same => chunk (by rw [same])
    simp [chunk, apart]

theorem Bitset.set_some (bound : pos < 64 * b.data.length) : ∃ b', b.set pos = some b' := by
  have chunk : pos / 64 < b.data.length := by omega
  exact ⟨_, by simp [Bitset.set, bitsetIndex, chunk]; rfl⟩

theorem Bitset.clear_some (bound : pos < 64 * b.data.length) : ∃ b', b.clear pos = some b' := by
  have chunk : pos / 64 < b.data.length := by omega
  exact ⟨_, by simp [Bitset.clear, bitsetIndex, chunk]; rfl⟩

theorem and_bit_ne_zero (v : BitVec 64) {minor : ℕ} (bound : minor < 64) :
    (v &&& 1#64 <<< minor != 0) = v.getLsbD minor := by
  have picked : v &&& 1#64 <<< minor = if v.getLsbD minor then 1#64 <<< minor else 0 :=
    BitVec.and_twoPow v minor
  have nonzero : 1#64 <<< minor ≠ 0#64 := by
    intro zero
    have bit := getLsbD_bit bound minor
    rw [zero] at bit
    simp at bit
  rw [picked]
  cases v.getLsbD minor
  · rfl
  · simpa using nonzero

theorem Bitset.get_some (bound : pos < 64 * b.data.length) :
    b.get pos = some (decide (pos ∈ b.members)) := by
  have chunk : pos / 64 < b.data.length := by omega
  have minor : pos % 64 < 64 := Nat.mod_lt _ (by decide)
  obtain ⟨v, found⟩ : ∃ v, b.data[pos / 64]? = some v := ⟨_, List.getElem?_eq_getElem chunk⟩
  simp only [Bitset.get, bitsetIndex, found, Option.bind_eq_bind, Option.bind_some,
    and_bit_ne_zero v minor, Bitset.mem_members, Bitset.has_chunk found rfl, Bool.decide_eq_true]

theorem zip_all_eq (l m : List (BitVec 64)) :
    (l.length == m.length && (l.zip m).all fun p => p.1 == p.2) ↔ l = m := by
  induction l generalizing m with
  | nil => cases m <;> simp
  | cons v l ih =>
    cases m with
    | nil => simp
    | cons w m =>
      have tail := ih m
      simp only [List.length_cons, List.zip_cons_cons, List.all_cons, List.cons.injEq, ← tail]
      simp [and_left_comm]

theorem Bitset.equals_iff : b.equals b2 ↔ b = b2 := by
  cases b
  cases b2
  simpa [Bitset.equals] using zip_all_eq _ _

theorem Bitset.ext_members (lengths : b.data.length = b2.data.length)
    (same : b.members = b2.members) : b = b2 := by
  have bits (pos : ℕ) : b.has pos = b2.has pos := by
    rw [Bool.eq_iff_iff, ← Bitset.mem_members, ← Bitset.mem_members, same]
  cases b with | mk l =>
  cases b2 with | mk m =>
  congr 1
  refine List.ext_getElem lengths fun i left right => BitVec.eq_of_getLsbD_eq fun j bound => ?_
  have chunk : (64 * i + j) / 64 = i := by omega
  have minor : (64 * i + j) % 64 = j := by omega
  simpa [Bitset.has, chunk, minor, left, right] using bits (64 * i + j)

theorem newBitset_length (bits : ℕ) : bits ≤ 64 * (newBitset bits).data.length := by
  simp only [newBitset, List.length_replicate]
  split <;> omega

theorem newBitset_members (bits : ℕ) : (newBitset bits).members = ∅ := by
  ext pos
  rw [Bitset.mem_members]
  simp only [Bitset.has, newBitset, Finset.notMem_empty, iff_false, List.getElem?_replicate]
  generalize bits / 64 + (if bits % 64 ≠ 0 then 1 else 0) = chunks
  by_cases inside : pos / 64 < chunks <;> simp [inside]

theorem popcnt_count (data : List (BitVec 64)) :
    Bitset.popcnt ⟨data⟩ = (List.range (64 * data.length)).countP (Bitset.has ⟨data⟩) := by
  induction data using List.reverseRecOn with
  | nil => rfl
  | append_singleton data v ih =>
    have early : ∀ pos ∈ List.range (64 * data.length),
        Bitset.has ⟨data ++ [v]⟩ pos = Bitset.has ⟨data⟩ pos := by
      intro pos inside
      have chunk : pos / 64 < data.length := by
        rw [List.mem_range] at inside
        omega
      simp [Bitset.has, List.getElem?_append_left chunk]
    have last : ∀ j ∈ List.range 64, Bitset.has ⟨data ++ [v]⟩ (64 * data.length + j) =
        v.getLsbD j := by
      intro j inside
      rw [List.mem_range] at inside
      have chunk : (64 * data.length + j) / 64 = data.length := by omega
      have minor : (64 * data.length + j) % 64 = j := by omega
      simp [Bitset.has, chunk, minor]
    calc Bitset.popcnt ⟨data ++ [v]⟩
        = Bitset.popcnt ⟨data⟩ + onesCount64 v := by simp [Bitset.popcnt]
      _ = (List.range (64 * data.length)).countP (Bitset.has ⟨data ++ [v]⟩) +
            (List.range 64).countP (fun j => Bitset.has ⟨data ++ [v]⟩ (64 * data.length + j)) := by
          rw [ih, onesCount64]
          congr 1
          · exact List.countP_congr fun pos inside => by rw [early pos inside]
          · exact List.countP_congr fun j inside => by rw [last j inside]
      _ = (List.range (64 * (data ++ [v]).length)).countP (Bitset.has ⟨data ++ [v]⟩) := by
          rw [List.length_append, List.length_singleton, Nat.mul_succ, List.range_add,
            List.countP_append, List.countP_map]
          rfl

theorem Bitset.popcnt_card : b.popcnt = b.members.card := by
  rw [popcnt_count b.data, List.countP_eq_length_filter, Bitset.members, Finset.card_def,
    Finset.filter_val, Finset.range_val]
  simp [Multiset.range]

end Members

inductive Change
  | set (pos : ℕ)
  | clear (pos : ℕ)

def Change.pos : Change → ℕ
  | .set pos => pos
  | .clear pos => pos

def Bitset.change (b : Bitset) : Change → Option Bitset
  | .set pos => b.set pos
  | .clear pos => b.clear pos

/-- The same change to a finite set. -/
def change (members : Finset ℕ) : Change → Finset ℕ
  | .set pos => insert pos members
  | .clear pos => members.erase pos

theorem Bitset.change_members {b : Bitset} {c : Change} (bound : c.pos < 64 * b.data.length) :
    ∃ b', b.change c = some b' ∧ b'.data.length = b.data.length ∧
      b'.members = PorcupineBitset.change b.members c := by
  cases c with
  | set pos =>
    obtain ⟨b', done⟩ := Bitset.set_some bound
    exact ⟨b', done, Bitset.set_members done⟩
  | clear pos =>
    obtain ⟨b', done⟩ := Bitset.clear_some bound
    exact ⟨b', done, Bitset.clear_members done⟩

theorem Bitset.changes_members {n : ℕ} {b : Bitset} {changes : List Change}
    (enough : n ≤ 64 * b.data.length) (bounds : ∀ c ∈ changes, c.pos < n) :
    ∃ b', changes.foldlM Bitset.change b = some b' ∧ b'.data.length = b.data.length ∧
      b'.members = changes.foldl PorcupineBitset.change b.members := by
  induction changes generalizing b with
  | nil => exact ⟨b, rfl, rfl, rfl⟩
  | cons c rest ih =>
    have first := bounds c List.mem_cons_self
    obtain ⟨next, done, chunks, members⟩ := Bitset.change_members (first.trans_le enough)
    obtain ⟨b', later, chunks', members'⟩ := ih (chunks.symm ▸ enough) fun d inside =>
      bounds d (List.mem_cons_of_mem c inside)
    refine ⟨b', ?_, chunks'.trans chunks, ?_⟩
    · simp [done, later]
    · rw [members', members, List.foldl_cons]

/-- Two bit sets made for `n` positions and changed at any of them, in any way:
no access panics, the bits read and counted are those of the finite sets that
the same changes give, and the bit sets are equal, with equal hashes, exactly
when these sets are. -/
theorem bitset_refines_finset {n : ℕ} {changes changes2 : List Change}
    (bounds : ∀ c ∈ changes, c.pos < n) (bounds2 : ∀ c ∈ changes2, c.pos < n) :
    ∃ b b2, changes.foldlM Bitset.change (newBitset n) = some b ∧
      changes2.foldlM Bitset.change (newBitset n) = some b2 ∧
      (∀ pos < n, b.get pos = some (decide (pos ∈ changes.foldl change ∅))) ∧
      b.popcnt = (changes.foldl change ∅).card ∧
      (b.equals b2 ↔ changes.foldl change ∅ = changes2.foldl change ∅) ∧
      (b.equals b2 → b.hash = b2.hash) := by
  have enough := newBitset_length n
  obtain ⟨b, done, chunks, members⟩ := Bitset.changes_members enough bounds
  obtain ⟨b2, done2, chunks2, members2⟩ := Bitset.changes_members enough bounds2
  rw [newBitset_members] at members members2
  refine ⟨b, b2, done, done2, fun pos bound => ?_, ?_, ?_, ?_⟩
  · rw [Bitset.get_some (bound.trans_le (chunks.symm ▸ enough)), members]
  · rw [Bitset.popcnt_card, members]
  · rw [Bitset.equals_iff, ← members, ← members2]
    exact ⟨fun same => by rw [same], Bitset.ext_members (chunks.trans chunks2.symm)⟩
  · intro same
    rw [Bitset.equals_iff.mp same]

theorem bitset_refines_finset_two_chunks :
    ∃ b b2, [Change.set 3, .set 70, .clear 3].foldlM Bitset.change (newBitset 71) = some b ∧
      [Change.set 70].foldlM Bitset.change (newBitset 71) = some b2 ∧
      b.popcnt = 1 ∧ b.equals b2 := by
  have bounds : ∀ c ∈ [Change.set 3, .set 70, .clear 3], c.pos < 71 := by decide
  have bounds2 : ∀ c ∈ [Change.set 70], c.pos < 71 := by decide
  obtain ⟨b, b2, done, done2, -, count, equal, -⟩ := bitset_refines_finset bounds bounds2
  exact ⟨b, b2, done, done2, count, equal.mpr (by decide)⟩

end DistributedLabs.PorcupineBitset
