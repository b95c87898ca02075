import DistributedLabs.LedgerSteps

/-! What survives every operation on a ledger, and what a commit settles.
`Extends` collects the history that no operation takes back. A position of a
log is settled when some commit covers it; settled positions of any two logs
agree, and a follower that follows its leader never loses one. -/

namespace DistributedLabs.TermLedger
open TermLogs GuardedRuns

variable {V E : Type*}

structure Extends (L L' : Ledger V E) : Prop extends Grows L L' where
  stood : ∀ v t log, L.stood v t = some log → L'.stood v t = some log
  ballot : ∀ v t c log, L.ballot v t = some (c, log) → ∃ log', L'.ballot v t = some (c, log')
  acked : ∀ v t n, L.acked v t n → L'.acked v t n
  committed : ∀ t n, L.committed t n → L'.committed t n

theorem Extends.refl (L : Ledger V E) : Extends L L :=
  { Grows.refl L with
    stood := fun _ _ _ h => h
    ballot := fun _ _ _ log h => ⟨log, h⟩
    acked := fun _ _ _ h => h
    committed := fun _ _ h => h }

theorem Extends.trans {L M N : Ledger V E} (first : Extends L M) (second : Extends M N) :
    Extends L N :=
  { first.toGrows.trans second.toGrows with
    stood := fun v t log h => second.stood v t log (first.stood v t log h)
    ballot := fun v t c log h => by
      obtain ⟨log', there⟩ := first.ballot v t c log h
      exact second.ballot v t c log' there
    acked := fun v t n h => second.acked v t n (first.acked v t n h)
    committed := fun t n h => second.committed t n (first.committed t n h) }

theorem Extends.unled {L L' : Ledger V E} (grow : Extends L L') {t : ℕ}
    (unled : L'.leader t = none) : L.leader t = none := by
  cases before : L.leader t with
  | none => rfl
  | some v => exact absurd (grow.leader t v before ▸ unled) (Option.some_ne_none v)

section Operations

theorem Ledger.extends_ack (L : Ledger V E) (v : V) (m : ℕ) : Extends L (L.ack v m) :=
  { Extends.refl L with acked := fun _ _ _ h => .inl h }

theorem Ledger.extends_commit (L : Ledger V E) (t n : ℕ) : Extends L (L.commit t n) :=
  { Extends.refl L with committed := fun _ _ h => .inl h }

theorem Ledger.Valid.extends_elect [Fintype V] {term : E → ℕ} {L : Ledger V E}
    (valid : L.Valid term) {v : V} (positive : L.current v ≠ 0)
    (unled : L.leader (L.current v) = none) : Extends L (L.elect v) :=
  { valid.grows_elect positive unled, Extends.refl L with }

variable [DecidableEq V]

theorem Ledger.extends_raise (L : Ledger V E) (v : V) (t : ℕ) : Extends L (L.raise v t) :=
  { Extends.refl L with }

theorem Ledger.extends_accept (L : Ledger V E) (v : V) (log : List E) :
    Extends L (L.accept v log) :=
  { Extends.refl L with }

theorem Ledger.extends_vote (L : Ledger V E) {v c : V}
    (same : ∀ x log, L.ballot v (L.current v) = some (x, log) → x = c) :
    Extends L (L.vote v c) := by
  refine { Extends.refl L with ballot := fun w t x log ballot => ?_ }
  by_cases here : w = v ∧ t = L.current v
  · obtain ⟨rfl, rfl⟩ := here
    rw [same x log ballot]
    exact ⟨L.log w, by simp [Ledger.vote]⟩
  · exact ⟨log, by rw [L.vote_ballot_ne here, ballot]⟩

variable [Fintype V] {term : E → ℕ} {L : Ledger V E}

theorem Ledger.Valid.extends_stand (valid : L.Valid term) {v : V} {t : ℕ}
    (up : L.current v < t) : Extends L (L.stand v t) := by
  refine { Extends.refl L with stood := fun w u log stood => ?_ }
  rw [L.stand_stood_ne]
  · exact stood
  · rintro ⟨rfl, rfl⟩
    have := (valid.stoodAnchored w u log stood).1
    omega

theorem Ledger.Valid.extends_append (valid : L.Valid term) {v : V} {e : E}
    (leader : L.leader (L.current v) = some v) : Extends L (L.append v e) :=
  { valid.grows_append leader, Extends.refl L with }

end Operations

/-- An extension by operations of `v` alone that elect nobody and cast no vote. -/
structure ActsAt (v : V) (L L' : Ledger V E) : Prop extends Extends L L' where
  leaderSame : L'.leader = L.leader
  ballotSame : L'.ballot = L.ballot
  currentSame : ∀ w, w ≠ v → L'.current w = L.current w
  logSame : ∀ w, w ≠ v → L'.log w = L.log w

section Local

theorem ActsAt.refl (v : V) (L : Ledger V E) : ActsAt v L L :=
  { Extends.refl L with
    leaderSame := rfl
    ballotSame := rfl
    currentSame := fun _ _ => rfl
    logSame := fun _ _ => rfl }

theorem ActsAt.trans {v : V} {L M N : Ledger V E} (first : ActsAt v L M)
    (second : ActsAt v M N) : ActsAt v L N :=
  { first.toExtends.trans second.toExtends with
    leaderSame := second.leaderSame.trans first.leaderSame
    ballotSame := second.ballotSame.trans first.ballotSame
    currentSame := fun w other => (second.currentSame w other).trans (first.currentSame w other)
    logSame := fun w other => (second.logSame w other).trans (first.logSame w other) }

theorem Ledger.actsAt_ack (L : Ledger V E) (v : V) (m : ℕ) : ActsAt v L (L.ack v m) :=
  { L.extends_ack v m, ActsAt.refl v L with }

theorem Ledger.actsAt_commit (L : Ledger V E) (v : V) (t n : ℕ) : ActsAt v L (L.commit t n) :=
  { L.extends_commit t n, ActsAt.refl v L with }

variable [DecidableEq V]

theorem Ledger.actsAt_raise (L : Ledger V E) (v : V) (t : ℕ) : ActsAt v L (L.raise v t) :=
  { L.extends_raise v t, ActsAt.refl v L with
    currentSame := fun _ other => Function.update_of_ne other _ _ }

theorem Ledger.actsAt_accept (L : Ledger V E) (v : V) (log : List E) :
    ActsAt v L (L.accept v log) :=
  { L.extends_accept v log, ActsAt.refl v L with
    logSame := fun _ other => Function.update_of_ne other _ _ }

/-- What a follower does with an accepted request of term `t`: it moves to that
term, replaces its log and acknowledges everything up to `m`. -/
def Ledger.follow (L : Ledger V E) (v : V) (t : ℕ) (log : List E) (m : ℕ) : Ledger V E :=
  ((L.raise v t).accept v log).ack v m

theorem Ledger.actsAt_follow (L : Ledger V E) (v : V) (t : ℕ) (log : List E) (m : ℕ) :
    ActsAt v L (L.follow v t log m) :=
  ((L.actsAt_raise v t).trans (Ledger.actsAt_accept _ v log)).trans (Ledger.actsAt_ack _ v m)

@[simp] theorem Ledger.follow_current (L : Ledger V E) (v : V) (t : ℕ) (log : List E) (m : ℕ) :
    (L.follow v t log m).current v = t := by
  simp [Ledger.follow, Ledger.ack, Ledger.accept, Ledger.raise]

@[simp] theorem Ledger.follow_log (L : Ledger V E) (v : V) (t : ℕ) (log : List E) (m : ℕ) :
    (L.follow v t log m).log v = log := by
  simp [Ledger.follow, Ledger.ack, Ledger.accept]

theorem Ledger.follow_acked (L : Ledger V E) (v : V) (t : ℕ) (log : List E) {m k : ℕ}
    (below : k ≤ m) : (L.follow v t log m).acked v t k :=
  .inr ⟨rfl, by simp [Ledger.accept, Ledger.raise], below⟩

variable [Fintype V] {term : E → ℕ} {L : Ledger V E}

theorem Ledger.Valid.actsAt_stand (valid : L.Valid term) {v : V} {t : ℕ}
    (up : L.current v < t) : ActsAt v L (L.stand v t) :=
  { valid.extends_stand up, ActsAt.refl v L with
    currentSame := fun _ other => Function.update_of_ne other _ _ }

theorem Ledger.Valid.actsAt_append (valid : L.Valid term) {v : V} {e : E}
    (leader : L.leader (L.current v) = some v) : ActsAt v L (L.append v e) :=
  { valid.extends_append leader, ActsAt.refl v L with
    logSame := fun _ other => Function.update_of_ne other _ _ }

theorem Ledger.Valid.follow (valid : L.Valid term) {v l : V} {t m : ℕ} {log : List E}
    (up : L.current v ≤ t) (leader : L.leader t = some l) (other : l ≠ v)
    (anchored : Anchored term L.leading log) (terms : ∀ e ∈ log, term e ≤ t)
    (keeps : ∀ part, part <+: L.log v → part <+: L.leading t → part <+: log)
    (short : m < (L.leading t).length) (covers : (L.leading t).take (m + 1) <+: log) :
    (L.follow v t log m).Valid term := by
  have now : (L.raise v t).current v = t := by simp [Ledger.raise]
  have accepted : ((L.raise v t).accept v log).Valid term := by
    refine (valid.raise up).accept (l := l) ?_ other anchored ?_ ?_
    · rw [now]
      exact leader
    · rw [now]
      exact terms
    · rw [now]
      exact keeps
  refine accepted.ack ?_ ?_
  · change m < (L.leading ((L.raise v t).current v)).length
    rw [now]
    exact short
  · change (L.leading ((L.raise v t).current v)).take (m + 1) <+: Function.update L.log v log v
    rw [now, Function.update_self]
    exact covers

end Local

/-- Position `k` of a log held in term `t` is covered by a commit of that term
or an earlier one. Position zero holds the root that all logs share. -/
def Ledger.Settled (L : Ledger V E) (t : ℕ) (log : List E) (k : ℕ) : Prop :=
  k = 0 ∨ ∃ u m, L.committed u m ∧ u ≤ t ∧ k ≤ m ∧ (L.leading u).take (k + 1) <+: log

def Ledger.Decided (L : Ledger V E) (i : ℕ) (e : E) : Prop :=
  ∃ u m, L.committed u m ∧ i ≤ m ∧ (L.leading u)[i]? = some e

section Settled

variable [Fintype V] {term : E → ℕ} {L L' : Ledger V E}

theorem Ledger.Valid.short_of_committed (valid : L.Valid term) {t n : ℕ}
    (committed : L.committed t n) : n < (L.leading t).length := by
  obtain ⟨⟨e, found, -⟩, -⟩ := valid.commitAcked t n committed
  exact (List.getElem?_eq_some_iff.mp found).1

theorem Ledger.Settled.mono (valid : L.Valid term) (grow : Extends L L') {t t' k : ℕ}
    {log log' : List E} (later : t ≤ t') (longer : log <+: log') (h : L.Settled t log k) :
    L'.Settled t' log' k := by
  refine h.imp_right ?_
  rintro ⟨u, m, committed, early, inside, part⟩
  have short := valid.short_of_committed committed
  refine ⟨u, m, grow.committed u m committed, early.trans later, inside, ?_⟩
  rw [grow.take (by omega)]
  exact part.trans longer

theorem Ledger.Settled.within (valid : L.Valid term) {t k m : ℕ} {log log' : List E}
    (h : L.Settled t log k) (below : k ≤ m) (covers : log.take (m + 1) <+: log') :
    L.Settled t log' k := by
  refine h.imp_right ?_
  rintro ⟨u, j, committed, early, inside, part⟩
  refine ⟨u, j, committed, early, inside, ?_⟩
  have short := valid.short_of_committed committed
  have length := part.length_le
  rw [List.length_take] at length
  refine (List.prefix_of_prefix_length_le part (List.take_prefix (m + 1) log) ?_).trans covers
  rw [List.length_take, List.length_take]
  omega

theorem Ledger.Settled.short (valid : L.Valid term) {t k : ℕ} {log : List E} (root : log ≠ [])
    (h : L.Settled t log k) : k < log.length := by
  rcases h with rfl | ⟨u, m, committed, -, inside, part⟩
  · exact List.length_pos_iff.mpr root
  · have short := valid.short_of_committed committed
    have length := part.length_le
    rw [List.length_take] at length
    omega

theorem Ledger.Settled.decided (valid : L.Valid term) {t k i : ℕ} {log : List E} {e : E}
    (h : L.Settled t log k) (positive : i ≠ 0) (below : i ≤ k) (found : log[i]? = some e) :
    L.Decided i e := by
  rcases h with rfl | ⟨u, m, committed, -, inside, part⟩
  · omega
  · have short := valid.short_of_committed committed
    have held : (L.leading u)[i]? = some ((L.leading u).get ⟨i, by omega⟩) := by simp
    have same := prefix_get part (i := i) (by rw [take_get (by omega)]; exact held)
    rw [found] at same
    exact ⟨u, m, committed, by omega, held.trans same.symm⟩

variable [DecidableEq V]

theorem Ledger.Valid.decided_unique (valid : L.Valid term) {i : ℕ} {e e' : E}
    (left : L.Decided i e) (right : L.Decided i e') : e = e' := by
  obtain ⟨u, m, committed, inside, found⟩ := left
  obtain ⟨u', m', committed', inside', found'⟩ := right
  have same := valid.committed_agree committed committed' inside inside'
  rw [found, found'] at same
  exact Option.some.inj same

theorem Ledger.Settled.kept (valid : L.Valid term) {t k : ℕ} {log log' : List E}
    (led : L.leader t ≠ none) (h : L.Settled t log k)
    (keeps : ∀ part, part <+: log → part <+: L.leading t → part <+: log') :
    L.Settled t log' k := by
  refine h.imp_right ?_
  rintro ⟨u, m, committed, early, inside, part⟩
  refine ⟨u, m, committed, early, inside, keeps _ part ?_⟩
  exact (List.take_prefix_take_left (by omega)).trans
    (valid.complete_leading committed t early led)

end Settled

end DistributedLabs.TermLedger
