import DistributedLabs.GuardedRuns
import DistributedLabs.TermLogs

/-! What a replicated log with elected terms has to remember. A ledger holds
each server's term and log together with the history no server keeps: who
led each term, with which log it opened the term, the log that leader has
built since, the logs with which candidates stood and voters voted, what was
acknowledged, and what was committed. The operations below each keep a valid
ledger valid; leader completeness is a consequence of validity alone. -/

namespace DistributedLabs.TermLedger
open TermLogs GuardedRuns

structure Ledger (V E : Type*) where
  current : V → ℕ
  log : V → List E
  leader : ℕ → Option V
  opening : ℕ → List E
  leading : ℕ → List E
  stood : V → ℕ → Option (List E)
  ballot : V → ℕ → Option (V × List E)
  acked : V → ℕ → ℕ → Prop
  committed : ℕ → ℕ → Prop

variable {V E : Type*}

/-- Some leader of a term after `t` and up to `b` opened without the first
`n + 1` entries of the leading log of `t`. -/
def Ledger.Lost (L : Ledger V E) (t n b : ℕ) : Prop :=
  ∃ t', t < t' ∧ t' ≤ b ∧ L.leader t' ≠ none ∧
    ¬ (L.leading t).take (n + 1) <+: L.opening t'

/-- History only grows: elected terms keep their leader and opening log, and
leading logs are extended at the end. -/
structure Grows (L L' : Ledger V E) : Prop where
  leading : ∀ t, L.leading t <+: L'.leading t
  leader : ∀ t v, L.leader t = some v → L'.leader t = some v
  opening : ∀ t v, L.leader t = some v → L'.opening t = L.opening t

structure Ledger.Valid [Fintype V] (term : E → ℕ) (L : Ledger V E) : Prop where
  rootUnled : L.leader 0 = none
  unled : ∀ t, t ≠ 0 → L.leader t = none → L.leading t = []
  opened : ∀ t, L.opening t <+: L.leading t
  openingTerm : ∀ t e, e ∈ L.opening t → term e < t
  leadingTerm : ∀ t i e, (L.leading t)[i]? = some e → (L.opening t).length ≤ i → term e = t
  logAnchored : ∀ v, Anchored term L.leading (L.log v)
  leadingAnchored : ∀ t, Anchored term L.leading (L.leading t)
  logTerm : ∀ v e, e ∈ L.log v → term e ≤ L.current v
  stoodAnchored : ∀ v t log, L.stood v t = some log →
    t ≤ L.current v ∧ Anchored term L.leading log ∧ ∀ e ∈ log, term e < t
  ballotStood : ∀ v t c log, L.ballot v t = some (c, log) →
    t ≤ L.current v ∧ Anchored term L.leading log ∧
      ∃ standing, L.stood c t = some standing ∧ UpToDate term standing log
  elected : ∀ t l, L.leader t = some l → t ≤ L.current l ∧ L.stood l t = some (L.opening t) ∧
    ∃ Q : Finset V, Fintype.card V / 2 < Q.card ∧ ∀ v ∈ Q, ∃ log, L.ballot v t = some (l, log)
  leads : ∀ t l, L.leader t = some l → L.current l = t → L.log l = L.leading t
  ackHeld : ∀ v t n, L.acked v t n → t ≤ L.current v ∧ n < (L.leading t).length ∧
    ((L.leading t).take (n + 1) <+: L.log v ∨ L.Lost t n (L.current v))
  ackVoted : ∀ v t n t' c log, L.acked v t n → L.ballot v t' = some (c, log) → t < t' →
    (L.leading t).take (n + 1) <+: log ∨ L.Lost t n (t' - 1)
  commitAcked : ∀ t n, L.committed t n →
    (∃ e, (L.leading t)[n]? = some e ∧ term e = t) ∧ t ≠ 0 ∧
      ∃ Q : Finset V, Fintype.card V / 2 < Q.card ∧ ∀ v ∈ Q, L.acked v t n

theorem Grows.refl (L : Ledger V E) : Grows L L :=
  ⟨fun _ => List.prefix_rfl, fun _ _ h => h, fun _ _ _ => rfl⟩

theorem Grows.trans {L M N : Ledger V E} (first : Grows L M) (second : Grows M N) :
    Grows L N where
  leading t := (first.leading t).trans (second.leading t)
  leader t v h := second.leader t v (first.leader t v h)
  opening t v h := (second.opening t v (first.leader t v h)).trans (first.opening t v h)

theorem Grows.take {L L' : Ledger V E} (grow : Grows L L') {t n : ℕ}
    (short : n < (L.leading t).length) :
    (L'.leading t).take (n + 1) = (L.leading t).take (n + 1) :=
  prefix_take (grow.leading t) short

theorem Ledger.Lost.mono {L L' : Ledger V E} (grow : Grows L L') {t n b b' : ℕ}
    (short : n < (L.leading t).length) (later : b ≤ b') (lost : L.Lost t n b) :
    L'.Lost t n b' := by
  obtain ⟨t', after, bound, led, missing⟩ := lost
  obtain ⟨l, leader⟩ := Option.ne_none_iff_exists'.mp led
  refine ⟨t', after, bound.trans later, ?_, ?_⟩
  · rw [grow.leader t' l leader]
    exact Option.some_ne_none l
  · rwa [grow.take short, grow.opening t' l leader]

namespace Ledger.Valid

variable [Fintype V] {term : E → ℕ} {L : Ledger V E}

theorem leadingBound (valid : L.Valid term) (t : ℕ) (e : E) (member : e ∈ L.leading t) :
    term e ≤ t := by
  obtain ⟨i, found⟩ := List.mem_iff_getElem?.mp member
  rcases Nat.lt_or_ge i (L.opening t).length with before | after
  · have inside := (prefix_take (valid.opened t) before).symm
    have opened : (L.opening t)[i]? = some e := by
      rw [← take_get (Nat.lt_succ_self i), inside, take_get (Nat.lt_succ_self i), found]
    exact (valid.openingTerm t e (List.mem_of_getElem? opened)).le
  · exact (valid.leadingTerm t i e found after).le

theorem opening_short (valid : L.Valid term) {t i : ℕ} {e : E}
    (found : (L.leading t)[i]? = some e) (own : term e = t) : (L.opening t).length ≤ i := by
  by_contra before
  have inside := (prefix_take (valid.opened t) (by omega : i + 1 ≤ (L.opening t).length)).symm
  have opened : (L.opening t)[i]? = some e := by
    rw [← take_get (Nat.lt_succ_self i), inside, take_get (Nat.lt_succ_self i), found]
  have := valid.openingTerm t e (List.mem_of_getElem? opened)
  omega

theorem led_of_entry (valid : L.Valid term) {log : List E} (anchored : Anchored term L.leading log)
    {i : ℕ} {e : E} (found : log[i]? = some e) (positive : term e ≠ 0) :
    L.leader (term e) ≠ none := by
  intro unled
  have part := anchored i e found
  have bound := (List.getElem?_eq_some_iff.mp found).1
  rw [valid.unled _ positive unled, List.prefix_nil] at part
  have length := congrArg List.length part
  simp only [List.length_take, List.length_nil] at length
  omega

theorem carried (valid : L.Valid term) {t n t' : ℕ} {standing log : List E}
    (committed : L.committed t n)
    (between : ∀ u, t < u → u < t' → L.leader u ≠ none →
      (L.leading t).take (n + 1) <+: L.opening u)
    (anchoredVoter : Anchored term L.leading log)
    (anchoredStanding : Anchored term L.leading standing)
    (early : ∀ e ∈ standing, term e < t')
    (held : (L.leading t).take (n + 1) <+: log) (newer : UpToDate term standing log) :
    (L.leading t).take (n + 1) <+: standing := by
  obtain ⟨⟨e, found, own⟩, positive, -⟩ := valid.commitAcked t n committed
  have room := (List.getElem?_eq_some_iff.mp found).1
  have voterHas : log[n]? = some e := prefix_get held (by rwa [take_get (Nat.lt_succ_self n)])
  have voterNonempty : log ≠ [] := by
    rintro rfl
    simp at voterHas
  have voterLast : log[log.length - 1]? = some (log.getLast voterNonempty) := by
    rw [← List.getLast?_eq_getElem?, List.getLast?_eq_some_getLast voterNonempty]
  have voterTerm : t ≤ lastTerm term log := by
    have bound := (List.getElem?_eq_some_iff.mp voterHas).1
    rw [lastTerm_eq term voterLast, ← own]
    exact anchoredVoter.sorted valid.leadingBound (by omega) voterHas voterLast
  have standingNonempty : standing ≠ [] := by
    rintro rfl
    have zero : lastTerm term ([] : List E) = 0 := rfl
    rcases newer with above | ⟨equal, -⟩ <;> omega
  have standingLast : standing[standing.length - 1]? =
      some (standing.getLast standingNonempty) := by
    rw [← List.getLast?_eq_getElem?, List.getLast?_eq_some_getLast standingNonempty]
  rcases newer with above | ⟨equal, long⟩
  · -- the candidate's last entry belongs to a leader that opened with the prefix
    have lastTermEq := lastTerm_eq term standingLast
    have below : lastTerm term standing < t' := by
      rw [lastTermEq]
      exact early _ (List.getLast_mem standingNonempty)
    have led : L.leader (lastTerm term standing) ≠ none := by
      rw [lastTermEq]
      exact valid.led_of_entry anchoredStanding standingLast (by omega)
    have opens := between _ (by omega) below led
    have whole := anchoredStanding.whole standingNonempty
    refine List.prefix_of_prefix_length_le (opens.trans (valid.opened _)) whole ?_
    have inLeading := prefix_get whole standingLast
    have after := valid.opening_short inLeading lastTermEq.symm
    have lengths := opens.length_le
    have positiveLength := List.length_pos_iff.mpr standingNonempty
    omega
  · -- both end in the same term, so the longer one extends the shorter
    have wholeVoter := anchoredVoter.whole voterNonempty
    have wholeStanding := anchoredStanding.whole standingNonempty
    rw [equal] at wholeStanding
    exact held.trans (List.prefix_of_prefix_length_le wholeVoter wholeStanding long)

/-- Leader completeness: every later leader opens with the committed prefix. -/
theorem complete [DecidableEq V] (valid : L.Valid term) {t n : ℕ} (committed : L.committed t n)
    (t' : ℕ) (later : t < t') (led : L.leader t' ≠ none) :
    (L.leading t).take (n + 1) <+: L.opening t' := by
  induction t' using Nat.strong_induction_on with
  | _ t' ih =>
    obtain ⟨l, leader⟩ := Option.ne_none_iff_exists'.mp led
    obtain ⟨-, -, ackers, ackMajority, acks⟩ := valid.commitAcked t n committed
    obtain ⟨-, standing, voters, voteMajority, votes⟩ := valid.elected t' l leader
    obtain ⟨v, acker, voter⟩ := majorities_meet ackMajority voteMajority
    obtain ⟨log, ballot⟩ := votes v voter
    obtain ⟨-, anchoredVoter, standing', stood, newer⟩ := valid.ballotStood v t' l log ballot
    obtain rfl : standing' = L.opening t' := Option.some.inj (stood.symm.trans standing)
    obtain ⟨-, anchoredStanding, early⟩ := valid.stoodAnchored l t' _ standing
    have between : ∀ u, t < u → u < t' → L.leader u ≠ none →
        (L.leading t).take (n + 1) <+: L.opening u :=
      fun u after before ledU => ih u before after ledU
    rcases valid.ackVoted v t n t' l log (acks v acker) ballot later with held | lost
    · exact valid.carried committed between anchoredVoter anchoredStanding early held newer
    · obtain ⟨u, after, before, ledU, missing⟩ := lost
      exact absurd (between u after (by omega) ledU) missing

theorem complete_leading [DecidableEq V] (valid : L.Valid term) {t n : ℕ}
    (committed : L.committed t n) (t' : ℕ) (later : t ≤ t') (led : L.leader t' ≠ none) :
    (L.leading t).take (n + 1) <+: L.leading t' := by
  rcases Nat.eq_or_lt_of_le later with rfl | after
  · exact List.take_prefix _ _
  · exact (valid.complete committed t' after led).trans (valid.opened t')

theorem led_of_committed (valid : L.Valid term) {t n : ℕ} (committed : L.committed t n) :
    L.leader t ≠ none := by
  obtain ⟨⟨e, found, own⟩, positive, -⟩ := valid.commitAcked t n committed
  subst own
  exact valid.led_of_entry (valid.leadingAnchored _) found positive

theorem committed_agree [DecidableEq V] (valid : L.Valid term) {t n t' n' i : ℕ}
    (left : L.committed t n) (right : L.committed t' n') (inLeft : i ≤ n) (inRight : i ≤ n') :
    (L.leading t)[i]? = (L.leading t')[i]? := by
  wlog order : t ≤ t' generalizing t t' n n'
  · exact (this right left inRight inLeft (by omega)).symm
  obtain ⟨⟨e, found, -⟩, -⟩ := valid.commitAcked t n left
  have room := (List.getElem?_eq_some_iff.mp found).1
  have part := valid.complete_leading left t' order (valid.led_of_committed right)
  rw [prefix_take_iff room] at part
  rw [← take_get (by omega : i < n + 1), ← part, take_get (by omega)]

end Ledger.Valid

end DistributedLabs.TermLedger
