import DistributedLabs.RaftMoves

/-! Votes along every run. `votedFor` is written by five code paths; each of
them clears or replaces it only together with a strictly later term, so the
trace never holds two votes of one peer in one term. The votes an election
counts come from distinct peers, so two majorities of one term coincide. -/

namespace DistributedLabs.RaftVotes
open GuardedRuns RaftPeer RaftCluster RaftMoves

variable {n : ℕ} {C : Type}

def Granted : VoteCall → Prop
  | .replied reply => reply.voteGranted = true
  | .sent vote => vote = true
  | _ => False

def senders (calls : Fin n → VoteCall) : Finset (Fin n) :=
  Finset.univ.filter fun w => calls w = .sent true

structure Ballots (v : View n C) : Prop where
  current : ∀ s t x, .voted s t x ∈ v.trace → t ≤ (v.peer s).currentTerm ∧
    (t = (v.peer s).currentTerm → (v.peer s).votedFor = some x)
  once : ∀ s t x y, .voted s t x ∈ v.trace → .voted s t y ∈ v.trace → x = y
  own : ∀ s e, e ∈ v.elections s → e.args.candidateId = s ∧
    e.args.term ≤ (v.peer s).currentTerm ∧ .voted s e.args.term s ∈ v.trace ∧
    e.calls s = .unsent
  ordered : ∀ s, (v.elections s).Pairwise fun e e' => e.args.term < e'.args.term
  backed : ∀ s e w, e ∈ v.elections s → Granted (e.calls w) → .voted w e.args.term s ∈ v.trace
  counted : ∀ s e, e ∈ v.elections s →
    e.votesReceived + e.voteCh.count true = 1 + (senders e.calls).card

section Keep

variable {v : View n C}

theorem Ballots.setPeer (h : Ballots v) {s : Fin n} {p : Peer n C}
    (term : (v.peer s).currentTerm ≤ p.currentTerm)
    (vote : p.currentTerm = (v.peer s).currentTerm →
      ∀ x, (v.peer s).votedFor = some x → p.votedFor = some x) : Ballots (v.setPeer s p) where
  once := h.once
  ordered := h.ordered
  backed := h.backed
  counted := h.counted
  current := View.forall_setPeer (P := fun w p => ∀ t x, .voted w t x ∈ v.trace →
    t ≤ p.currentTerm ∧ (t = p.currentTerm → p.votedFor = some x)) h.current fun t x voted => by
      have ⟨bound, same⟩ := h.current s t x voted
      refine ⟨bound.trans term, fun now => ?_⟩
      exact vote (by omega) x (same (by omega))
  own := View.forall_setPeer (P := fun w p => ∀ e, e ∈ v.elections w →
    e.args.candidateId = w ∧ e.args.term ≤ p.currentTerm ∧
      Event.voted w e.args.term w ∈ v.trace ∧ e.calls w = .unsent) h.own fun e member => by
      have ⟨id, bound, voted, self⟩ := h.own s e member
      exact ⟨id, bound.trans term, voted, self⟩

theorem Ballots.stepUp (h : Ballots v) (s : Fin n) (t : ℕ) :
    Ballots (v.setPeer s ((v.peer s).stepUp t)) := by
  refine h.setPeer ?_ ?_
  · rw [stepUp_currentTerm]
    omega
  · intro same x voted
    rw [stepUp_currentTerm] at same
    rwa [stepUp_of_le (by omega)]

theorem Ballots.record (h : Ballots v) {event : Event n C} (other : ∀ s t x, event ≠ .voted s t x) :
    Ballots (v.record event) := by
  have old {s : Fin n} {t : ℕ} {x : Fin n} (voted : .voted s t x ∈ (v.record event).trace) :
      .voted s t x ∈ v.trace := by
    rcases List.mem_append.mp voted with old | new
    · exact old
    · exact absurd (List.mem_singleton.mp new).symm (other s t x)
  exact
    { current := fun s t x voted => h.current s t x (old voted)
      once := fun s t x y first second => h.once s t x y (old first) (old second)
      own := fun s e member => by
        obtain ⟨id, bound, voted, self⟩ := h.own s e member
        exact ⟨id, bound, List.mem_append_left _ voted, self⟩
      ordered := h.ordered
      backed := fun s e w member granted => List.mem_append_left _ (h.backed s e w member granted)
      counted := h.counted }

theorem Ballots.recordVote (h : Ballots v) {s x : Fin n} {t : ℕ}
    (term : (v.peer s).currentTerm = t) (vote : (v.peer s).votedFor = some x) :
    Ballots (v.record (.voted s t x)) := by
  have cases {w y : Fin n} {u : ℕ} (voted : .voted w u y ∈ (v.record (.voted s t x)).trace) :
      .voted w u y ∈ v.trace ∨ (w = s ∧ u = t ∧ y = x) := by
    rcases List.mem_append.mp voted with old | new
    · exact .inl old
    · have same := List.mem_singleton.mp new
      injection same with first second third
      exact .inr ⟨first, second, third⟩
  -- an earlier vote of the same term is the one that `votedFor` still holds
  have agree {y : Fin n} (voted : .voted s t y ∈ v.trace) : y = x := by
    have now := (h.current s t y voted).2 term.symm
    exact Option.some.inj (now.symm.trans vote)
  exact
    { current := fun w u y voted => by
        rcases cases voted with old | ⟨rfl, rfl, rfl⟩
        · exact h.current w u y old
        · exact ⟨term.ge, fun _ => vote⟩
      once := fun w u y z first second => by
        rcases cases first with old | ⟨rfl, rfl, rfl⟩
        · rcases cases second with old' | ⟨rfl, rfl, rfl⟩
          · exact h.once w u y z old old'
          · exact agree old
        · rcases cases second with old' | ⟨-, -, rfl⟩
          · exact (agree old').symm
          · rfl
      own := fun w e member => by
        obtain ⟨id, bound, voted, self⟩ := h.own w e member
        exact ⟨id, bound, List.mem_append_left _ voted, self⟩
      ordered := h.ordered
      backed := fun w e y member granted =>
        List.mem_append_left _ (h.backed w e y member granted)
      counted := h.counted }

theorem pairwise_set {α : Type} {R : α → α → Prop} {l : List α} {k : ℕ} {x y : α}
    (pairwise : l.Pairwise R) (found : l[k]? = some x) (left : ∀ z, R z x → R z y)
    (right : ∀ z, R x z → R y z) : (l.set k y).Pairwise R := by
  induction l generalizing k with
  | nil => simp at found
  | cons a rest ih =>
    rw [List.pairwise_cons] at pairwise
    cases k with
    | zero =>
      obtain rfl : a = x := by simpa using found
      simp only [List.set_cons_zero, List.pairwise_cons]
      exact ⟨fun z member => right z (pairwise.1 z member), pairwise.2⟩
    | succ k =>
      have inside : rest[k]? = some x := by simpa using found
      simp only [List.set_cons_succ, List.pairwise_cons]
      refine ⟨fun z member => ?_, ih pairwise.2 inside⟩
      rcases List.mem_or_eq_of_mem_set member with old | rfl
      · exact pairwise.1 z old
      · exact left a (pairwise.1 x (List.mem_of_getElem? inside))

theorem Ballots.setElection (h : Ballots v) {x : Fin n} {k : ℕ} {e e' : Election n}
    (found : (v.elections x)[k]? = some e) (args : e'.args = e.args)
    (self : e'.calls x = .unsent)
    (granted : ∀ w, Granted (e'.calls w) → .voted w e.args.term x ∈ v.trace)
    (count : e'.votesReceived + e'.voteCh.count true = 1 + (senders e'.calls).card) :
    Ballots (v.setElection x k e') where
  current := h.current
  once := h.once
  own s f member := by
    rcases mem_setElection member with old | ⟨rfl, rfl⟩
    · exact h.own s f old
    · obtain ⟨id, bound, voted, -⟩ := h.own s e (List.mem_of_getElem? found)
      rw [args]
      exact ⟨id, bound, voted, self⟩
  ordered s := by
    rcases eq_or_ne s x with rfl | other
    · simp only [View.setElection, Function.update_self]
      refine pairwise_set (h.ordered s) found ?_ ?_ <;>
        intro z
      · rw [args]
        exact id
      · rw [args]
        exact id
    · simpa [View.setElection, other] using h.ordered s
  backed s f w member grantedCall := by
    rcases mem_setElection member with old | ⟨rfl, rfl⟩
    · exact h.backed s f w old grantedCall
    · rw [args]
      exact granted w grantedCall
  counted s f member := by
    rcases mem_setElection member with old | ⟨rfl, rfl⟩
    · exact h.counted s f old
    · exact count

theorem Ballots.addElection (h : Ballots v) {s : Fin n} {args : RequestVoteArgs n}
    (named : args.candidateId = s) (term : args.term = (v.peer s).currentTerm)
    (fresh : ∀ e ∈ v.elections s, e.args.term < args.term)
    (voted : .voted s args.term s ∈ v.trace) :
    Ballots (v.addElection s (newElection s args)) := by
  have cases {w : Fin n} {e : Election n}
      (member : e ∈ (v.addElection s (newElection s args)).elections w) :
      e ∈ v.elections w ∨ (w = s ∧ e = newElection s args) := by
    rcases eq_or_ne w s with rfl | other
    · have inside : e ∈ v.elections w ∨ e = newElection w args := by
        simpa [View.addElection] using member
      exact inside.imp_right fun same => ⟨rfl, same⟩
    · exact .inl (by simpa [View.addElection, other] using member)
  have unanswered (w : Fin n) : ¬ Granted ((newElection s args).calls w) := by
    simp only [newElection]
    split <;> exact id
  have silent : senders (newElection s args).calls = ∅ := by
    apply Finset.filter_eq_empty_iff.mpr
    intro w _ sent
    exact unanswered w (by rw [sent]; rfl)
  exact
    { current := h.current
      once := h.once
      own := fun w e member => by
        rcases cases member with old | ⟨rfl, rfl⟩
        · exact h.own w e old
        · exact ⟨named, term.le, voted, if_pos rfl⟩
      ordered := fun w => by
        rcases eq_or_ne w s with rfl | other
        · simp only [View.addElection, Function.update_self]
          refine List.pairwise_append.mpr ⟨h.ordered w, List.pairwise_singleton _ _, ?_⟩
          intro e member f new
          rw [List.mem_singleton.mp new]
          exact fresh e member
        · simpa [View.addElection, other] using h.ordered w
      backed := fun w e y member granted => by
        rcases cases member with old | ⟨rfl, rfl⟩
        · exact h.backed w e y old granted
        · exact absurd granted (unanswered y)
      counted := fun w e member => by
        rcases cases member with old | ⟨rfl, rfl⟩
        · exact h.counted w e old
        · rw [silent]
          rfl }

theorem senders_update {calls : Fin n → VoteCall} {s : Fin n} {call : VoteCall}
    (before : calls s ≠ .sent true) (after : call ≠ .sent true) :
    senders (Function.update calls s call) = senders calls :=
  filter_update (P := fun call => call = VoteCall.sent true) before after

theorem senders_sent {calls : Fin n → VoteCall} {s : Fin n} (before : calls s ≠ .sent true) :
    (senders (Function.update calls s (.sent true))).card = (senders calls).card + 1 :=
  card_filter_update (P := fun call => call = VoteCall.sent true) before rfl

theorem Ballots.backed_update (h : Ballots v) {x s : Fin n} {k : ℕ} {e : Election n}
    (found : (v.elections x)[k]? = some e) {call : VoteCall}
    (granted : Granted call → .voted s e.args.term x ∈ v.trace) (w : Fin n)
    (held : Granted (Function.update e.calls s call w)) : .voted w e.args.term x ∈ v.trace := by
  rcases eq_or_ne w s with rfl | other
  · exact granted (by simpa using held)
  · rw [Function.update_of_ne other] at held
    exact h.backed x e w (List.mem_of_getElem? found) held

theorem Ballots.self_update (h : Ballots v) {x s : Fin n} {k : ℕ} {e : Election n}
    (found : (v.elections x)[k]? = some e) (call : VoteCall) (called : e.calls s ≠ .unsent) :
    Function.update e.calls s call x = .unsent := by
  have self := (h.own x e (List.mem_of_getElem? found)).2.2.2
  have other : x ≠ s := by
    rintro rfl
    exact called self
  rw [Function.update_of_ne other, self]

theorem Ballots.moved (h : Ballots v) {a : Action n C} {v' : View n C} (move : Moved v a v') :
    Ballots v' := by
  cases move with
  | quiet => exact h
  | kickOff s last lastFound =>
    have bumped := h.setPeer (s := s) (p := (v.peer s).stand s) (Nat.le_succ _)
      (fun same => absurd same (Nat.succ_ne_self _))
    have recorded := bumped.recordVote (s := s) (x := s) (t := (v.peer s).currentTerm + 1)
      (by simp [View.setPeer, Peer.stand]) (by simp [View.setPeer, Peer.stand])
    refine recorded.addElection rfl
      (by simp [View.record, View.setPeer, voteArgs, Peer.stand]) ?_ ?_
    · intro e member
      exact Nat.lt_succ_of_le (h.own s e member).2.1
    · simp [View.record, voteArgs]
  | refuse x k s e reply found waiting refused =>
    have raised := h.stepUp s e.args.term
    refine raised.setElection found rfl (raised.self_update found _ (by simp [waiting]))
      (raised.backed_update found fun granted => ?_) ?_
    · exact absurd granted (by simp [Granted, refused])
    · rw [senders_update (by simp [waiting]) (by simp)]
      exact h.counted x e (List.mem_of_getElem? found)
  | grant x k s e last found waiting current free lastFound newer =>
    have term : ((v.peer s).stepUp e.args.term).currentTerm = e.args.term := by
      rw [stepUp_currentTerm]
      omega
    have named := (h.own x e (List.mem_of_getElem? found)).1
    have voted := h.setPeer (s := s) (p := (v.peer s).grant e.args)
      (by simp only [Peer.grant]; omega) (fun same y held => by
        simp only [Peer.grant, term] at same
        rw [stepUp_of_le same.le, held] at free
        exact (free.resolve_left (Option.some_ne_none _)).symm)
    have recorded := voted.recordVote (s := s) (x := e.args.candidateId) (t := e.args.term)
      (by simpa [View.setPeer, Peer.grant] using term) (by simp [View.setPeer, Peer.grant])
    refine recorded.setElection found rfl (recorded.self_update found _ (by simp [waiting]))
      (recorded.backed_update found fun _ => ?_) ?_
    · rw [named]
      simp [View.record]
    · rw [senders_update (by simp [waiting]) (by simp)]
      exact h.counted x e (List.mem_of_getElem? found)
  | voteUnsent x k s e reply t found replied =>
    have raised := h.stepUp x t
    refine raised.setElection found rfl (raised.self_update found _ (by simp [replied]))
      (raised.backed_update found (by simp [Granted])) ?_
    rw [senders_update (by simp [replied]) (by simp)]
    exact h.counted x e (List.mem_of_getElem? found)
  | voteSent x k s e reply found replied standing current =>
    have member := List.mem_of_getElem? found
    have balance := h.counted x e member
    refine h.setElection found rfl (h.self_update found _ (by simp [replied]))
      (h.backed_update found fun granted => ?_) ?_
    · refine h.backed x e s member ?_
      rw [replied]
      exact granted
    · cases granted : reply.voteGranted with
      | true =>
        rw [senders_sent (by simp [replied])]
        simp only [List.count_append, List.count_singleton_self]
        omega
      | false =>
        rw [senders_update (by simp [replied]) (by simp)]
        simpa using balance
  | receive x k e vote rest found queued =>
    have member := List.mem_of_getElem? found
    have balance := h.counted x e member
    refine h.setElection found rfl (h.own x e member).2.2.2
      (fun w granted => h.backed x e w member granted) ?_
    rw [queued] at balance
    cases vote with
    | true =>
      simp only [List.count_cons_self, if_true] at balance ⊢
      omega
    | false => simpa using balance
  | collect x k e pc turn found =>
    have member := List.mem_of_getElem? found
    exact h.setElection found rfl (h.own x e member).2.2.2
      (fun w granted => h.backed x e w member granted) (h.counted x e member)
  | elect x k e found standing many =>
    have member := List.mem_of_getElem? found
    have led := h.setPeer (s := x) (p := (v.peer x).lead) le_rfl (fun _ _ held => held)
    refine (led.setElection found ?_ ?_ ?_ ?_).record (by simp)
    · rfl
    · exact (h.own x e member).2.2.2
    · exact fun w granted => h.backed x e w member granted
    · exact h.counted x e member
  | beat => exact { h with }
  | encode => exact { h with }
  | appendStale => exact { h with }
  | appendRefuse j call reply =>
    have raised := h.stepUp call.serverTo call.args.term
    exact { raised with }
  | appendAccept j call prev =>
    have merged := h.setPeer (s := call.serverTo) (p := (v.peer call.serverTo).accepted call.args)
      (by simp [Peer.accepted]) (fun same x held => by
        have earlier : call.args.term ≤ (v.peer call.serverTo).currentTerm := by
          simpa [Peer.accepted] using same
        simpa [Peer.accepted, stepUp_of_le earlier] using held)
    exact { merged.record (by simp) with }
  | replyIgnored => exact { h with }
  | replyMatched j call =>
    have kept := h.setPeer (s := call.caller)
      (p := (v.peer call.caller).matched call.serverTo call.args) le_rfl (fun _ _ held => held)
    exact { kept with }
  | replyAdvanced j call reply M entry =>
    have kept := h.setPeer (s := call.caller)
      (p := { (v.peer call.caller).matched call.serverTo call.args with commitIndex := M })
      le_rfl (fun _ _ held => held)
    exact { kept.record (by simp) with }
  | replyRaised j call t =>
    have raised := h.stepUp call.caller t
    exact { raised with }
  | replyConflict j call reply =>
    have kept := h.setPeer (s := call.caller)
      (p := (v.peer call.caller).retry call.serverTo reply) le_rfl (fun _ _ held => held)
    exact { kept with }
  | apply s entry =>
    have kept := h.setPeer (s := s)
      (p := { v.peer s with lastApplied := (v.peer s).lastApplied + 1 })
      le_rfl (fun _ _ held => held)
    exact kept.record (by simp)
  | start s command =>
    have kept := h.setPeer (s := s) (p := (v.peer s).appendCommand command)
      le_rfl (fun _ _ held => held)
    exact kept.record (by simp)
  | allocate s room => exact h.setPeer le_rfl (fun _ _ held => held)
  | kill s =>
    exact h.setPeer (s := s) (p := { v.peer s with state := .dead })
      le_rfl (fun _ _ held => held)

end Keep

theorem Ballots.init [Inhabited C] : Ballots (view (RaftCluster.init : Cluster n C)) where
  current _ _ _ voted := absurd voted List.not_mem_nil
  once _ _ _ _ voted := absurd voted List.not_mem_nil
  own _ _ member := absurd member List.not_mem_nil
  ordered _ := List.Pairwise.nil
  backed _ _ _ member := absurd member List.not_mem_nil
  counted _ _ member := absurd member List.not_mem_nil

theorem reaches_ballots [Inhabited C] {ok : Cluster n C → Action n C → Prop} {c : Cluster n C}
    (run : Reaches ok c) : Ballots (view c) :=
  run.invariant (fun c => Ballots (view c)) (fun h _ taken => h.moved (step_moved taken))
    Ballots.init

/-- The peers known to have voted for `x` once election `e` has counted its votes. -/
def supporters (x : Fin n) (e : Election n) : Finset (Fin n) :=
  insert x (senders e.calls)

theorem Ballots.votes_le {v : View n C} (h : Ballots v) {x : Fin n} {e : Election n}
    (member : e ∈ v.elections x) : e.votesReceived ≤ (supporters x e).card := by
  have balance := h.counted x e member
  have outside : x ∉ senders e.calls := by
    simp [senders, (h.own x e member).2.2.2]
  rw [supporters, Finset.card_insert_of_notMem outside]
  omega

theorem Ballots.supporter_voted {v : View n C} (h : Ballots v) {x : Fin n} {e : Election n}
    (member : e ∈ v.elections x) {w : Fin n} (supports : w ∈ supporters x e) :
    .voted w e.args.term x ∈ v.trace := by
  rcases Finset.mem_insert.mp supports with rfl | sent
  · exact (h.own w e member).2.2.1
  · refine h.backed x e w member ?_
    rw [(Finset.mem_filter.mp sent).2]
    rfl

/-- A strict majority of the peers voted for `x` in term `t`. -/
def Won (trace : List (Event n C)) (x : Fin n) (t : ℕ) : Prop :=
  ∃ Q : Finset (Fin n), n / 2 < Q.card ∧ ∀ w ∈ Q, .voted w t x ∈ trace

theorem Won.mono {trace trace' : List (Event n C)} (grow : trace <+: trace') {x : Fin n} {t : ℕ}
    (won : Won trace x t) : Won trace' x t := by
  obtain ⟨Q, majority, votes⟩ := won
  exact ⟨Q, majority, fun w member => grow.subset (votes w member)⟩

theorem Ballots.won {v : View n C} (h : Ballots v) {x : Fin n} {e : Election n}
    (member : e ∈ v.elections x) (many : n / 2 < e.votesReceived) :
    Won v.trace x e.args.term :=
  ⟨supporters x e, many.trans_le (h.votes_le member),
    fun _ supports => h.supporter_voted member supports⟩

theorem Ballots.won_unique {v : View n C} (h : Ballots v) {x y : Fin n} {t : ℕ}
    (left : Won v.trace x t) (right : Won v.trace y t) : x = y := by
  obtain ⟨P, manyP, votesP⟩ := left
  obtain ⟨Q, manyQ, votesQ⟩ := right
  obtain ⟨w, inP, inQ⟩ := majorities_meet (P := P) (Q := Q) (by simpa using manyP)
    (by simpa using manyQ)
  exact h.once w t x y (votesP w inP) (votesQ w inQ)

theorem Ballots.election_index {v : View n C} (h : Ballots v) {x : Fin n} {i j : ℕ}
    {e f : Election n} (at_i : (v.elections x)[i]? = some e) (at_j : (v.elections x)[j]? = some f)
    (same : e.args.term = f.args.term) : i = j := by
  obtain ⟨boundI, rfl⟩ := List.getElem?_eq_some_iff.mp at_i
  obtain ⟨boundJ, rfl⟩ := List.getElem?_eq_some_iff.mp at_j
  have increasing := List.pairwise_iff_getElem.mp (h.ordered x)
  rcases Nat.lt_trichotomy i j with less | equal | more
  · have := increasing i j boundI boundJ less
    omega
  · exact equal
  · have := increasing j i boundJ boundI more
    omega

/-- No peer votes twice in a term, counting granted requests and the vote each
candidate gives itself; and at most one election of a term ever counts a
majority, where the two counts may be looked at in different states of a run. -/
theorem votes_unique [Inhabited C] {c c' : Cluster n C} (run : Reaches free c)
    (later : Run step free c c') :
    (∀ s t x y, .voted s t x ∈ c'.trace → .voted s t y ∈ c'.trace → x = y) ∧
    (∀ (x y : Fin n) (i j : ℕ) (e f : Election n),
      (c.elections x)[i]? = some e → (c'.elections y)[j]? = some f →
      e.args.term = f.args.term → n / 2 < e.votesReceived → n / 2 < f.votesReceived →
      x = y ∧ i = j) := by
  have early := reaches_ballots run
  have late := reaches_ballots (run.trans later)
  refine ⟨late.once, ?_⟩
  intro x y i j e f at_i at_j same manyE manyF
  have wonE := (early.won (List.mem_of_getElem? at_i) manyE).mono (run_trace later)
  have wonF := late.won (List.mem_of_getElem? at_j) manyF
  rw [same] at wonE
  obtain rfl := late.won_unique wonE wonF
  obtain ⟨e', kept, args⟩ := run_election later at_i
  exact ⟨rfl, late.election_index kept at_j (by rw [args, same])⟩

theorem votes_unique_two_peers : ∃ c : Cluster 2 ℕ, Reaches free c ∧ .voted 0 1 1 ∈ c.trace ∧
    ∀ x, .voted 0 1 x ∈ c.trace → x = 1 := by
  obtain ⟨c, run, voted⟩ := exec_test step free (RaftCluster.init : Cluster 2 ℕ)
    (List.flatten [timeout 1, poll 1 0 0]) (fun c => .voted 0 1 1 ∈ c.trace) (by decide)
  have member := of_decide_eq_true voted
  exact ⟨c, run, member, fun x other => (votes_unique run .refl).1 0 1 x 1 other member⟩

end DistributedLabs.RaftVotes
