import Mathlib.Tactic

/-! Logs whose entries are stamped with the term that created them. Each term
has at most one leading log; a log is anchored when every prefix of it that
ends in an entry of term `t` is a prefix of the leading log of `t`. Agreement
between anchored logs then needs no further history. -/

namespace DistributedLabs.TermLogs

variable {E : Type*}

def Anchored (term : E → ℕ) (leading : ℕ → List E) (log : List E) : Prop :=
  ∀ i e, log[i]? = some e → log.take (i + 1) <+: leading (term e)

def lastTerm (term : E → ℕ) (log : List E) : ℕ :=
  (log.getLast?.map term).getD 0

/-- The comparison a voter makes between a candidate's log and its own. -/
def UpToDate (term : E → ℕ) (candidate voter : List E) : Prop :=
  lastTerm term voter < lastTerm term candidate ∨
    (lastTerm term candidate = lastTerm term voter ∧ voter.length ≤ candidate.length)

theorem prefix_take {l m : List E} (le : l <+: m) {k : ℕ} (short : k ≤ l.length) :
    m.take k = l.take k := by
  obtain ⟨tail, rfl⟩ := le
  rw [List.take_append_of_le_length short]

theorem prefix_take_iff {l m : List E} {k : ℕ} (short : k ≤ l.length) :
    l.take k <+: m ↔ m.take k = l.take k := by
  constructor
  · intro le
    have length : (l.take k).length = k := by simp [short]
    rw [prefix_take le length.ge, List.take_take, Nat.min_self]
  · intro same
    rw [← same]
    exact List.take_prefix k m

theorem prefix_get {l m : List E} (le : l <+: m) {i : ℕ} {e : E} (at_i : l[i]? = some e) :
    m[i]? = some e := by
  obtain ⟨tail, rfl⟩ := le
  rw [List.getElem?_append_left (List.getElem?_eq_some_iff.mp at_i).1]
  exact at_i

theorem take_get {l : List E} {i k : ℕ} (below : i < k) : (l.take k)[i]? = l[i]? := by
  rw [List.getElem?_take, if_pos below]

theorem lastTerm_eq (term : E → ℕ) {log : List E} {e : E}
    (last : log[log.length - 1]? = some e) : lastTerm term log = term e := by
  rw [lastTerm, List.getLast?_eq_getElem?, last]
  rfl

section Anchored

variable {term : E → ℕ} {leading : ℕ → List E}

theorem Anchored.restrict {log part : List E} (anchored : Anchored term leading log)
    (le : part <+: log) : Anchored term leading part := by
  intro i e found
  have short := (List.getElem?_eq_some_iff.mp found).1
  rw [← prefix_take le short]
  exact anchored i e (prefix_get le found)

theorem Anchored.mono {leading' : ℕ → List E} {log : List E}
    (anchored : Anchored term leading log) (grow : ∀ t, leading t <+: leading' t) :
    Anchored term leading' log :=
  fun i e found => (anchored i e found).trans (grow (term e))

theorem Anchored.append {log : List E} {e : E} (anchored : Anchored term leading log)
    (next : log ++ [e] <+: leading (term e)) : Anchored term leading (log ++ [e]) := by
  intro i x found
  rcases Nat.lt_or_ge i log.length with inside | outside
  · rw [List.getElem?_append_left inside] at found
    rw [List.take_append_of_le_length inside]
    exact anchored i x found
  · have bound := (List.getElem?_eq_some_iff.mp found).1
    have position : i = log.length := by
      rw [List.length_append, List.length_singleton] at bound
      omega
    subst position
    obtain rfl : e = x := by simpa using found
    rwa [List.take_of_length_le (by simp)]

/-- Log matching: entries of one term at one index fix the whole prefix. -/
theorem Anchored.agree {log log' : List E} (left : Anchored term leading log)
    (right : Anchored term leading log') {i : ℕ} {e e' : E} (at_left : log[i]? = some e)
    (at_right : log'[i]? = some e') (same : term e = term e') :
    log.take (i + 1) = log'.take (i + 1) := by
  have hl := left i e at_left
  have hr := right i e' at_right
  rw [← same] at hr
  have shortLeft := (List.getElem?_eq_some_iff.mp at_left).1
  have shortRight := (List.getElem?_eq_some_iff.mp at_right).1
  have lengths : (log.take (i + 1)).length = (log'.take (i + 1)).length := by
    simp only [List.length_take]
    omega
  exact (List.prefix_of_prefix_length_le hl hr lengths.le).eq_of_length lengths

theorem Anchored.whole {log : List E} (anchored : Anchored term leading log)
    (nonempty : log ≠ []) : log <+: leading (lastTerm term log) := by
  have positive := List.length_pos_iff.mpr nonempty
  have last : log[log.length - 1]? = some (log.getLast nonempty) := by
    rw [← List.getLast?_eq_getElem?, List.getLast?_eq_some_getLast nonempty]
  have part := anchored _ _ last
  rwa [List.take_of_length_le (by omega), ← lastTerm_eq term last] at part

theorem Anchored.sorted {log : List E} (anchored : Anchored term leading log)
    (bound : ∀ t e, e ∈ leading t → term e ≤ t) {i j : ℕ} {e e' : E} (order : i ≤ j)
    (at_i : log[i]? = some e) (at_j : log[j]? = some e') : term e ≤ term e' := by
  have part := anchored j e' at_j
  have inside : (log.take (j + 1))[i]? = some e := by rwa [take_get (by omega)]
  exact bound _ _ (List.mem_of_getElem? (prefix_get part inside))

end Anchored

end DistributedLabs.TermLogs
