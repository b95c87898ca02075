import DistributedLabs.TermLedger

/-! The operations of a replicated log on its ledger, each with the guard
under which it keeps the ledger valid: raising a term, standing for election,
voting, being elected, appending as a leader, replacing a follower's log by
one that keeps all it shares with the leader, acknowledging, committing. -/

namespace DistributedLabs.TermLedger
open TermLogs GuardedRuns

variable {V E : Type*}

namespace Ledger

def elect (L : Ledger V E) (v : V) : Ledger V E :=
  { L with
    leader := Function.update L.leader (L.current v) (some v)
    opening := Function.update L.opening (L.current v) (L.log v)
    leading := Function.update L.leading (L.current v) (L.log v) }

def ack (L : Ledger V E) (v : V) (m : ℕ) : Ledger V E :=
  { L with acked := fun w t n => L.acked w t n ∨ (w = v ∧ t = L.current v ∧ n ≤ m) }

def commit (L : Ledger V E) (t n : ℕ) : Ledger V E :=
  { L with committed := fun u k => L.committed u k ∨ (u = t ∧ k = n) }

section Choice

variable [DecidableEq V]

def assign {α : Type*} (f : V → ℕ → α) (v : V) (t : ℕ) (x : α) : V → ℕ → α :=
  fun w u => if w = v ∧ u = t then x else f w u

@[simp] theorem assign_self {α : Type*} (f : V → ℕ → α) (v : V) (t : ℕ) (x : α) :
    assign f v t x v t = x := by
  simp [assign]

theorem assign_ne {α : Type*} (f : V → ℕ → α) {v w : V} {t u : ℕ} (x : α)
    (other : ¬ (w = v ∧ u = t)) : assign f v t x w u = f w u :=
  if_neg other

def raise (L : Ledger V E) (v : V) (t : ℕ) : Ledger V E :=
  { L with current := Function.update L.current v t }

def stand (L : Ledger V E) (v : V) (t : ℕ) : Ledger V E :=
  { L with
    current := Function.update L.current v t
    stood := assign L.stood v t (some (L.log v)) }

def vote (L : Ledger V E) (v c : V) : Ledger V E :=
  { L with ballot := assign L.ballot v (L.current v) (some (c, L.log v)) }

def append (L : Ledger V E) (v : V) (e : E) : Ledger V E :=
  { L with
    log := Function.update L.log v (L.log v ++ [e])
    leading := Function.update L.leading (L.current v) (L.log v ++ [e]) }

def accept (L : Ledger V E) (v : V) (log : List E) : Ledger V E :=
  { L with log := Function.update L.log v log }

theorem stand_stood_ne (L : Ledger V E) {v w : V} {t u : ℕ} (other : ¬ (w = v ∧ u = t)) :
    (L.stand v t).stood w u = L.stood w u :=
  assign_ne _ _ other

theorem vote_ballot_ne (L : Ledger V E) {v w c : V} {u : ℕ}
    (other : ¬ (w = v ∧ u = L.current v)) : (L.vote v c).ballot w u = L.ballot w u :=
  assign_ne _ _ other

end Choice

end Ledger

section Shared

variable [Fintype V] {term : E → ℕ} {L : Ledger V E}

theorem Ledger.Valid.grows_elect (valid : L.Valid term) {v : V} (positive : L.current v ≠ 0)
    (unled : L.leader (L.current v) = none) : Grows L (L.elect v) where
  leading t := by
    rcases eq_or_ne t (L.current v) with rfl | other
    · rw [valid.unled _ positive unled]
      exact List.nil_prefix
    · simp [Ledger.elect, other]
  leader t w h := by
    have other : t ≠ L.current v := by
      rintro rfl
      exact absurd (h.symm.trans unled) (Option.some_ne_none w)
    simp [Ledger.elect, other, h]
  opening t w h := by
    have other : t ≠ L.current v := by
      rintro rfl
      exact absurd (h.symm.trans unled) (Option.some_ne_none w)
    simp [Ledger.elect, other]

theorem Ledger.Valid.elect (valid : L.Valid term) {v : V} (positive : L.current v ≠ 0)
    (unled : L.leader (L.current v) = none)
    (standing : L.stood v (L.current v) = some (L.log v)) {Q : Finset V}
    (majority : Fintype.card V / 2 < Q.card)
    (votes : ∀ w ∈ Q, ∃ log, L.ballot w (L.current v) = some (v, log)) :
    (L.elect v).Valid term := by
  have grow := valid.grows_elect positive unled
  have anchored {log : List E} (h : Anchored term L.leading log) :
      Anchored term (L.elect v).leading log := h.mono grow.leading
  obtain ⟨-, -, early⟩ := valid.stoodAnchored _ _ _ standing
  refine
    { rootUnled := by simpa [Ledger.elect, positive.symm] using valid.rootUnled
      logAnchored := fun w => anchored (valid.logAnchored w)
      logTerm := valid.logTerm
      unled := ?_, opened := ?_, openingTerm := ?_, leadingTerm := ?_, leadingAnchored := ?_,
      stoodAnchored := ?_, ballotStood := ?_, elected := ?_, leads := ?_, ackHeld := ?_,
      ackVoted := ?_, commitAcked := ?_ }
  · intro t nonzero unled
    rcases eq_or_ne t (L.current v) with rfl | other
    · simp [Ledger.elect] at unled
    · simp only [Ledger.elect, Function.update_of_ne other] at unled ⊢
      exact valid.unled t nonzero unled
  · intro t
    rcases eq_or_ne t (L.current v) with rfl | other
    · simp [Ledger.elect]
    · simpa [Ledger.elect, other] using valid.opened t
  · intro t e member
    rcases eq_or_ne t (L.current v) with rfl | other
    · exact early e (by simpa [Ledger.elect] using member)
    · exact valid.openingTerm t e (by simpa [Ledger.elect, other] using member)
  · intro t i e found after
    rcases eq_or_ne t (L.current v) with rfl | other
    · simp only [Ledger.elect, Function.update_self] at found after
      rw [List.getElem?_eq_none after] at found
      exact absurd found.symm (Option.some_ne_none e)
    · simp only [Ledger.elect, Function.update_of_ne other] at found after
      exact valid.leadingTerm t i e found after
  · intro t
    rcases eq_or_ne t (L.current v) with rfl | other
    · simpa [Ledger.elect] using anchored (valid.logAnchored v)
    · simpa [Ledger.elect, other] using anchored (valid.leadingAnchored t)
  · intro w t log stood
    obtain ⟨bound, anchor, terms⟩ := valid.stoodAnchored w t log stood
    exact ⟨bound, anchored anchor, terms⟩
  · intro w t c log ballot
    obtain ⟨bound, anchor, rest⟩ := valid.ballotStood w t c log ballot
    exact ⟨bound, anchored anchor, rest⟩
  · intro t l leader
    rcases eq_or_ne t (L.current v) with rfl | other
    · obtain rfl : v = l := by simpa [Ledger.elect] using leader
      exact ⟨le_rfl, by simpa [Ledger.elect] using standing, Q, majority, votes⟩
    · simp only [Ledger.elect, Function.update_of_ne other] at leader ⊢
      exact valid.elected t l leader
  · intro t l leader now
    rcases eq_or_ne t (L.current v) with rfl | other
    · obtain rfl : v = l := by simpa [Ledger.elect] using leader
      simp [Ledger.elect]
    · simp only [Ledger.elect, Function.update_of_ne other] at leader now ⊢
      exact valid.leads t l leader now
  · intro w t n acked
    obtain ⟨bound, short, held⟩ := valid.ackHeld w t n acked
    rw [grow.take short]
    exact ⟨bound, short.trans_le (grow.leading t).length_le,
      held.imp_right (·.mono grow short le_rfl)⟩
  · intro w t n t' c log acked ballot later
    have short := (valid.ackHeld w t n acked).2.1
    rw [grow.take short]
    exact (valid.ackVoted w t n t' c log acked ballot later).imp_right
      (·.mono grow short le_rfl)
  · intro t n committed
    obtain ⟨⟨e, found, own⟩, rest⟩ := valid.commitAcked t n committed
    exact ⟨⟨e, prefix_get (grow.leading t) found, own⟩, rest⟩

theorem Ledger.Valid.ack (valid : L.Valid term) {v : V} {m : ℕ}
    (short : m < (L.leading (L.current v)).length)
    (held : (L.leading (L.current v)).take (m + 1) <+: L.log v) :
    (L.ack v m).Valid term := by
  refine { valid with ackHeld := ?_, ackVoted := ?_, commitAcked := ?_ }
  · rintro w t n (old | ⟨rfl, rfl, below⟩)
    · exact valid.ackHeld w t n old
    · refine ⟨le_rfl, by change n < (L.leading (L.current w)).length; omega, .inl ?_⟩
      exact (List.take_prefix_take_left (by omega)).trans held
  · rintro w t n t' c log (old | ⟨rfl, rfl, below⟩) ballot later
    · exact valid.ackVoted w t n t' c log old ballot later
    · have := (valid.ballotStood w t' c log ballot).1
      omega
  · intro t n committed
    obtain ⟨entry, positive, Q, majority, acks⟩ := valid.commitAcked t n committed
    exact ⟨entry, positive, Q, majority, fun w member => .inl (acks w member)⟩

theorem Ledger.Valid.commit (valid : L.Valid term) {t n : ℕ} {e : E} (positive : t ≠ 0)
    (found : (L.leading t)[n]? = some e) (own : term e = t) {Q : Finset V}
    (majority : Fintype.card V / 2 < Q.card) (acks : ∀ v ∈ Q, L.acked v t n) :
    (L.commit t n).Valid term := by
  refine { valid with commitAcked := ?_ }
  rintro u k (old | ⟨rfl, rfl⟩)
  · exact valid.commitAcked u k old
  · exact ⟨⟨e, found, own⟩, positive, Q, majority, acks⟩

end Shared

section Keep

variable [DecidableEq V]

theorem update_le {f : V → ℕ} {v : V} {t : ℕ} (up : f v ≤ t) (w : V) :
    f w ≤ Function.update f v t w := by
  rcases eq_or_ne w v with rfl | other
  · simpa using up
  · simp [other]

variable [Fintype V] {term : E → ℕ} {L : Ledger V E}

theorem Ledger.Valid.raise (valid : L.Valid term) {v : V} {t : ℕ} (up : L.current v ≤ t) :
    (L.raise v t).Valid term := by
  have grow := Grows.refl L
  refine { valid with
    logTerm := fun w e member => (valid.logTerm w e member).trans (update_le up w)
    stoodAnchored := ?_, ballotStood := ?_, elected := ?_, leads := ?_, ackHeld := ?_ }
  · intro w u log stood
    obtain ⟨bound, rest⟩ := valid.stoodAnchored w u log stood
    exact ⟨bound.trans (update_le up w), rest⟩
  · intro w u c log ballot
    obtain ⟨bound, rest⟩ := valid.ballotStood w u c log ballot
    exact ⟨bound.trans (update_le up w), rest⟩
  · intro u l leader
    obtain ⟨bound, rest⟩ := valid.elected u l leader
    exact ⟨bound.trans (update_le up l), rest⟩
  · intro u l leader now
    have bound := (valid.elected u l leader).1
    have above := update_le up l
    change Function.update L.current v t l = u at now
    exact valid.leads u l leader (by omega)
  · intro w u n acked
    obtain ⟨bound, short, held⟩ := valid.ackHeld w u n acked
    exact ⟨bound.trans (update_le up w), short,
      held.imp_right (·.mono grow short (update_le up w))⟩

theorem Ledger.Valid.stand (valid : L.Valid term) {v : V} {t : ℕ} (up : L.current v < t) :
    (L.stand v t).Valid term := by
  have raised := valid.raise (v := v) up.le
  -- nothing recorded before can speak of `v` in a term it had not reached
  have fresh {w : V} {u : ℕ} {log : List E} (stood : L.stood w u = some log) :
      (L.stand v t).stood w u = some log := by
    rw [L.stand_stood_ne]
    · exact stood
    · rintro ⟨rfl, rfl⟩
      have := (valid.stoodAnchored w u log stood).1
      omega
  refine { raised with stoodAnchored := ?_, ballotStood := ?_, elected := ?_ }
  · intro w u log stood
    by_cases here : w = v ∧ u = t
    · obtain ⟨rfl, rfl⟩ := here
      have same : L.log w = log := by simpa [Ledger.stand] using stood
      subst same
      refine ⟨by simp [Ledger.stand], valid.logAnchored w, ?_⟩
      intro e member
      have := valid.logTerm w e member
      omega
    · rw [L.stand_stood_ne here] at stood
      exact raised.stoodAnchored w u log stood
  · intro w u c log ballot
    obtain ⟨bound, anchored, standing, stood, newer⟩ := raised.ballotStood w u c log ballot
    exact ⟨bound, anchored, standing, fresh stood, newer⟩
  · intro u l leader
    obtain ⟨bound, stood, quorum⟩ := raised.elected u l leader
    exact ⟨bound, fresh stood, quorum⟩

theorem Ledger.Valid.vote (valid : L.Valid term) {v c : V} {standing : List E}
    (unled : L.leader (L.current v) = none)
    (stood : L.stood c (L.current v) = some standing) (newer : UpToDate term standing (L.log v)) :
    (L.vote v c).Valid term := by
  refine { valid with ballotStood := ?_, elected := ?_, ackVoted := ?_ }
  · intro w u x log ballot
    by_cases here : w = v ∧ u = L.current v
    · obtain ⟨rfl, rfl⟩ := here
      have same : (c, L.log w) = (x, log) := by simpa [Ledger.vote] using ballot
      obtain ⟨rfl, rfl⟩ := Prod.mk.inj same
      exact ⟨le_rfl, valid.logAnchored w, standing, stood, newer⟩
    · rw [L.vote_ballot_ne here] at ballot
      exact valid.ballotStood w u x log ballot
  · intro u l leader
    obtain ⟨bound, stoodL, quorum, majority, votes⟩ := valid.elected u l leader
    refine ⟨bound, stoodL, quorum, majority, fun w member => ?_⟩
    obtain ⟨log, ballot⟩ := votes w member
    refine ⟨log, ?_⟩
    rw [L.vote_ballot_ne (fun here => ?_)]
    · exact ballot
    · rw [here.2] at leader
      exact absurd (leader.symm.trans unled) (Option.some_ne_none l)
  · intro w t n t' x log acked ballot later
    by_cases here : w = v ∧ t' = L.current v
    · obtain ⟨rfl, rfl⟩ := here
      have same : (c, L.log w) = (x, log) := by simpa [Ledger.vote] using ballot
      obtain ⟨rfl, rfl⟩ := Prod.mk.inj same
      obtain ⟨-, short, held | ⟨u, after, before, led, missing⟩⟩ := valid.ackHeld w t n acked
      · exact .inl held
      · -- the term voted in has no leader yet, so the loss is strictly earlier
        have ne : u ≠ L.current w := by
          rintro rfl
          exact led unled
        exact .inr ⟨u, after, by omega, led, missing⟩
    · rw [L.vote_ballot_ne here] at ballot
      exact valid.ackVoted w t n t' x log acked ballot later

theorem Ledger.Valid.grows_append (valid : L.Valid term) {v : V} {e : E}
    (leader : L.leader (L.current v) = some v) : Grows L (L.append v e) where
  leading t := by
    rcases eq_or_ne t (L.current v) with rfl | other
    · simp [Ledger.append, ← valid.leads _ v leader rfl]
    · simp [Ledger.append, other]
  leader _ _ h := h
  opening _ _ _ := rfl

theorem Ledger.Valid.append (valid : L.Valid term) {v : V} {e : E}
    (leader : L.leader (L.current v) = some v) (own : term e = L.current v) :
    (L.append v e).Valid term := by
  have grow := valid.grows_append (e := e) leader
  have same := valid.leads _ v leader rfl
  have anchored {log : List E} (h : Anchored term L.leading log) :
      Anchored term (L.append v e).leading log := h.mono grow.leading
  have longer : Anchored term (L.append v e).leading (L.log v ++ [e]) := by
    refine (anchored (valid.logAnchored v)).append ?_
    simp [Ledger.append, own]
  have logGrows (w : V) : L.log w <+: (L.append v e).log w := by
    rcases eq_or_ne w v with rfl | other
    · simp [Ledger.append]
    · simp [Ledger.append, other]
  refine
    { rootUnled := valid.rootUnled
      openingTerm := valid.openingTerm
      opened := fun t => (valid.opened t).trans (grow.leading t)
      elected := valid.elected
      unled := ?_, leadingTerm := ?_, logAnchored := ?_, leadingAnchored := ?_, logTerm := ?_,
      stoodAnchored := ?_, ballotStood := ?_, leads := ?_, ackHeld := ?_, ackVoted := ?_,
      commitAcked := ?_ }
  · intro t nonzero unled
    have other : t ≠ L.current v := by
      rintro rfl
      exact absurd (leader.symm.trans unled) (Option.some_ne_none v)
    simpa [Ledger.append, other] using valid.unled t nonzero unled
  · intro t i x found after
    rcases eq_or_ne t (L.current v) with rfl | other
    · simp only [Ledger.append, Function.update_self] at found
      rw [same] at found
      rcases Nat.lt_or_ge i (L.leading (L.current v)).length with inside | outside
      · rw [List.getElem?_append_left inside] at found
        exact valid.leadingTerm _ i x found after
      · rw [List.getElem?_append_right outside] at found
        obtain rfl : e = x := by
          simpa using List.mem_of_getElem? found |> List.mem_singleton.mp |>.symm
        exact own
    · simp only [Ledger.append, Function.update_of_ne other] at found
      exact valid.leadingTerm t i x found after
  · intro w
    rcases eq_or_ne w v with rfl | other
    · simpa [Ledger.append] using longer
    · simpa [Ledger.append, other] using anchored (valid.logAnchored w)
  · intro t
    rcases eq_or_ne t (L.current v) with rfl | other
    · simpa [Ledger.append] using longer
    · simpa [Ledger.append, other] using anchored (valid.leadingAnchored t)
  · intro w x member
    rcases eq_or_ne w v with rfl | other
    · have split : x ∈ L.log w ∨ x = e := by simpa [Ledger.append] using member
      rcases split with old | rfl
      · exact valid.logTerm w x old
      · exact own.le
    · exact valid.logTerm w x (by simpa [Ledger.append, other] using member)
  · intro w t log stood
    obtain ⟨bound, anchor, terms⟩ := valid.stoodAnchored w t log stood
    exact ⟨bound, anchored anchor, terms⟩
  · intro w t c log ballot
    obtain ⟨bound, anchor, rest⟩ := valid.ballotStood w t c log ballot
    exact ⟨bound, anchored anchor, rest⟩
  · intro t l leader' now
    change L.current l = t at now
    subst now
    rcases eq_or_ne l v with rfl | other
    · simp [Ledger.append]
    · have apart : L.current l ≠ L.current v := by
        intro equal
        rw [Ledger.append, equal] at leader'
        exact other (Option.some.inj (leader'.symm.trans leader))
      simpa [Ledger.append, other, apart] using valid.leads _ l leader' rfl
  · intro w t n acked
    obtain ⟨bound, short, held⟩ := valid.ackHeld w t n acked
    rw [grow.take short]
    exact ⟨bound, short.trans_le (grow.leading t).length_le,
      held.imp (·.trans (logGrows w)) (·.mono grow short le_rfl)⟩
  · intro w t n t' c log acked ballot later
    have short := (valid.ackHeld w t n acked).2.1
    rw [grow.take short]
    exact (valid.ackVoted w t n t' c log acked ballot later).imp_right
      (·.mono grow short le_rfl)
  · intro t n committed
    obtain ⟨⟨x, found, ownTerm⟩, rest⟩ := valid.commitAcked t n committed
    exact ⟨⟨x, prefix_get (grow.leading t) found, ownTerm⟩, rest⟩

/-- A follower may replace its log by any anchored one that keeps whatever it
already shares with the log of the leader of its term. -/
theorem Ledger.Valid.accept (valid : L.Valid term) {v l : V} {log : List E}
    (leader : L.leader (L.current v) = some l) (other : l ≠ v)
    (anchored : Anchored term L.leading log) (terms : ∀ e ∈ log, term e ≤ L.current v)
    (keeps : ∀ part, part <+: L.log v → part <+: L.leading (L.current v) → part <+: log) :
    (L.accept v log).Valid term := by
  refine { valid with logAnchored := ?_, logTerm := ?_, leads := ?_, ackHeld := ?_ }
  · intro w
    rcases eq_or_ne w v with rfl | apart
    · simpa [Ledger.accept] using anchored
    · simpa [Ledger.accept, apart] using valid.logAnchored w
  · intro w e member
    rcases eq_or_ne w v with rfl | apart
    · exact terms e (by simpa [Ledger.accept] using member)
    · exact valid.logTerm w e (by simpa [Ledger.accept, apart] using member)
  · intro t x leader' now
    have apart : x ≠ v := by
      rintro rfl
      change L.current x = t at now
      rw [← now] at leader'
      exact other (Option.some.inj (leader.symm.trans leader'))
    simpa [Ledger.accept, apart] using valid.leads t x leader' now
  · intro w t n acked
    obtain ⟨bound, short, held⟩ := valid.ackHeld w t n acked
    refine ⟨bound, short, ?_⟩
    rcases eq_or_ne w v with rfl | apart
    · rcases held with held | lost
      · by_cases shared : (L.leading t).take (n + 1) <+: L.leading (L.current w)
        · left
          simpa [Ledger.accept] using keeps _ held shared
        · -- the leader followed now opened without the acknowledged prefix
          right
          refine ⟨L.current w, ?_, le_rfl, ?_, fun opens => shared (opens.trans (valid.opened _))⟩
          · refine lt_of_le_of_ne bound ?_
            rintro rfl
            exact shared (List.take_prefix _ _)
          · change L.leader (L.current w) ≠ none
            rw [leader]
            exact Option.some_ne_none l
      · exact .inr lost
    · refine held.imp (fun kept => ?_) id
      simpa [Ledger.accept, apart] using kept

end Keep

end DistributedLabs.TermLedger
