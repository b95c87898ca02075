import DistributedLabs.RaftPeer

/-! What each section of a peer does to the protocol fields, stated once. The
mutex and the killed flag are projected away. -/

namespace DistributedLabs.RaftPeer

variable {n : ℕ} {C : Type}

def Peer.stepUp (p : Peer n C) (t : ℕ) : Peer n C :=
  if t > p.currentTerm then { p with currentTerm := t, votedFor := none, state := .follower }
  else p

def Peer.accepted (p : Peer n C) (args : AppendEntriesArgs n C) : Peer n C :=
  let log := mergeEntries p.log args.prevLogIndex args.entries
  { p.stepUp args.term with
    log := log
    memory := p.memory.append p.log log
    commitIndex := if args.leaderCommit > p.commitIndex then
      min args.leaderCommit (log.length - 1) else p.commitIndex }

def Peer.appendCommand (p : Peer n C) (command : C) : Peer n C :=
  let log := p.log ++ [⟨command, p.currentTerm⟩]
  { p with log := log, memory := p.memory.append p.log log }

def Peer.stand (p : Peer n C) (me : Fin n) : Peer n C :=
  { p with currentTerm := p.currentTerm + 1, state := .candidate, votedFor := some me }

def Peer.grant (p : Peer n C) (args : RequestVoteArgs n) : Peer n C :=
  { p.stepUp args.term with votedFor := some args.candidateId, state := .follower }

def Peer.lead (p : Peer n C) : Peer n C :=
  { p with
    state := .leader
    nextIndex := fun _ => p.log.length - 1 + 1
    matchIndex := fun _ => 0 }

/-- Note that `serverTo` holds what `args` carried. -/
def Peer.matched (p : Peer n C) (serverTo : Fin n) (args : AppendEntriesArgs n C) : Peer n C :=
  { p with
    matchIndex := Function.update p.matchIndex serverTo
      (args.prevLogIndex + args.entries.length)
    nextIndex := Function.update p.nextIndex serverTo
      (args.prevLogIndex + args.entries.length + 1) }

/-- Retry `serverTo` from where the hints of `reply` lead. -/
def Peer.retry (p : Peer n C) (serverTo : Fin n) (reply : AppendEntriesReply) : Peer n C :=
  { p with
    nextIndex := Function.update p.nextIndex serverTo (nextAfterConflict p.log reply) }

theorem stepUp_of_lt {p : Peer n C} {t : ℕ} (later : p.currentTerm < t) :
    p.stepUp t = { p with currentTerm := t, votedFor := none, state := .follower } :=
  if_pos later

theorem stepUp_of_le {p : Peer n C} {t : ℕ} (earlier : t ≤ p.currentTerm) : p.stepUp t = p :=
  if_neg (not_lt.mpr earlier)

@[simp] theorem stepUp_log (p : Peer n C) (t : ℕ) : (p.stepUp t).log = p.log := by
  unfold Peer.stepUp
  split <;> rfl

@[simp] theorem stepUp_memory (p : Peer n C) (t : ℕ) : (p.stepUp t).memory = p.memory := by
  unfold Peer.stepUp
  split <;> rfl

@[simp] theorem stepUp_commitIndex (p : Peer n C) (t : ℕ) :
    (p.stepUp t).commitIndex = p.commitIndex := by
  unfold Peer.stepUp
  split <;> rfl

@[simp] theorem stepUp_lastApplied (p : Peer n C) (t : ℕ) :
    (p.stepUp t).lastApplied = p.lastApplied := by
  unfold Peer.stepUp
  split <;> rfl

@[simp] theorem stepUp_nextIndex (p : Peer n C) (t : ℕ) :
    (p.stepUp t).nextIndex = p.nextIndex := by
  unfold Peer.stepUp
  split <;> rfl

@[simp] theorem stepUp_matchIndex (p : Peer n C) (t : ℕ) :
    (p.stepUp t).matchIndex = p.matchIndex := by
  unfold Peer.stepUp
  split <;> rfl

@[simp] theorem stepUp_currentTerm (p : Peer n C) (t : ℕ) :
    (p.stepUp t).currentTerm = max p.currentTerm t := by
  unfold Peer.stepUp
  split
  · simp only
    omega
  · omega

theorem stepUp_state {p : Peer n C} {t : ℕ} {st : ServerState} (active : st ≠ .follower)
    (h : (p.stepUp t).state = st) : p.stepUp t = p := by
  rcases Nat.lt_or_ge p.currentTerm t with later | earlier
  · rw [stepUp_of_lt later] at h
    exact absurd h.symm active
  · exact stepUp_of_le earlier

theorem index_eq_some {α : Type} {l : List α} {i : ℤ} {x : α} :
    index l i = some x ↔ 0 ≤ i ∧ l[i.toNat]? = some x := by
  unfold index
  split <;> simp_all

theorem index_natCast {α : Type} (l : List α) (i : ℕ) : index l (i : ℤ) = l[i]? := by
  simp [index]

@[simp] theorem adoptTerm_toPeer (rf : Raft n C) (t : ℕ) :
    (adoptTerm rf t).toPeer = rf.toPeer.stepUp t := by
  unfold adoptTerm Peer.stepUp
  split <;> rfl

theorem adoptTerm_log (rf : Raft n C) (t : ℕ) : (adoptTerm (lock rf) t).log = rf.log := by
  have raised := congrArg Peer.log (adoptTerm_toPeer (lock rf) t)
  rw [raised, stepUp_log]
  rfl

theorem requestVote_cases {rf rf' : Raft n C} {args : RequestVoteArgs n}
    {reply : RequestVoteReply} (h : requestVote rf args = some (rf', reply)) :
    (reply.voteGranted = false ∧ rf'.toPeer = rf.toPeer.stepUp args.term) ∨
    (∃ last, rf.currentTerm ≤ args.term ∧ reply = ⟨args.term, true⟩ ∧
      ((rf.toPeer.stepUp args.term).votedFor = none ∨
        (rf.toPeer.stepUp args.term).votedFor = some args.candidateId) ∧
      index rf.log (rf.log.length - 1) = some last ∧
      (args.lastLogTerm > last.term ∨
        (args.lastLogTerm = last.term ∧ args.lastLogIndex ≥ rf.log.length - 1)) ∧
      rf'.toPeer = rf.toPeer.grant args) := by
  have raised : (adoptTerm (lock rf) args.term).toPeer = rf.toPeer.stepUp args.term :=
    adoptTerm_toPeer (lock rf) args.term
  unfold requestVote at h
  split at h
  · rename_i stale
    obtain ⟨rfl, rfl⟩ : unlock (lock rf) = rf' ∧ _ = reply := by simpa using h
    exact .inl ⟨rfl, (stepUp_of_le stale.le).symm⟩
  · rename_i current
    change ¬ args.term < rf.currentTerm at current
    generalize adoptTerm (lock rf) args.term = base at h raised
    have term : base.currentTerm = args.term := by
      rw [raised, stepUp_currentTerm]
      omega
    have log : base.log = rf.log := by rw [raised, stepUp_log]
    unfold decideVote at h
    split at h
    · rename_i free
      obtain ⟨last, found, outcome⟩ := Option.map_eq_some_iff.mp h
      rw [log] at found outcome
      split at outcome
      · rename_i newer
        obtain ⟨rfl, rfl⟩ := Prod.mk.inj outcome
        refine .inr ⟨last, by omega, rfl, by rwa [← raised], found, newer, ?_⟩
        rw [Peer.grant, ← raised]
        simp only [unlock, ← term, ← log]
      · obtain ⟨rfl, rfl⟩ := Prod.mk.inj outcome
        exact .inl ⟨rfl, raised⟩
    · obtain ⟨rfl, rfl⟩ : unlock base = rf' ∧ _ = reply := by simpa using h
      exact .inl ⟨rfl, raised⟩

/-- Entries already held: the request carries some, the log goes on after
`prevLogIndex`, and the entry there has the term of the first one carried. -/
def Overlaps (log : List (LogEntry C)) (args : AppendEntriesArgs n C) : Prop :=
  ∃ first ∈ args.entries.head?, ∃ stored ∈ index log (args.prevLogIndex + 1),
    stored.term = first.term

/-- All entries are appended, and unless they overlap what is held this either
extends the log at `prevLogIndex` or replaces what conflicts there. -/
theorem mergeEntries_cases (log : List (LogEntry C)) (args : AppendEntriesArgs n C) :
    mergeEntries log args.prevLogIndex args.entries = log ++ args.entries ∧
      (args.entries = [] ∨ index log (args.prevLogIndex + 1) = none ∨ Overlaps log args) ∨
    mergeEntries log args.prevLogIndex args.entries =
        log.take (args.prevLogIndex + 1).toNat ++ args.entries := by
  unfold mergeEntries Overlaps
  cases args.entries with
  | nil => exact .inl ⟨rfl, .inl rfl⟩
  | cons first rest =>
    cases index log (args.prevLogIndex + 1) with
    | none => exact .inl ⟨rfl, .inr (.inl rfl)⟩
    | some stored =>
      by_cases same : stored.term = first.term
      · refine .inl ⟨by simp [same], .inr (.inr ⟨first, rfl, stored, rfl, same⟩)⟩
      · exact .inr (by simp [same])

theorem mergeEntries_fresh {log : List (LogEntry C)} {args : AppendEntriesArgs n C}
    (nonneg : 0 ≤ args.prevLogIndex) (apart : ¬ Overlaps log args) (carries : args.entries ≠ []) :
    mergeEntries log args.prevLogIndex args.entries =
      log.take (args.prevLogIndex.toNat + 1) ++ args.entries := by
  have position : (args.prevLogIndex + 1).toNat = args.prevLogIndex.toNat + 1 := by omega
  rcases mergeEntries_cases log args with ⟨same, empty | ends | overlaps⟩ | same
  · exact absurd empty carries
  · rw [index, if_pos (by omega), position, List.getElem?_eq_none_iff] at ends
    rw [same, List.take_of_length_le ends]
  · exact absurd overlaps apart
  · rw [same, position]

theorem mergeEntries_prev {log : List (LogEntry C)} {args : AppendEntriesArgs n C}
    {prev : LogEntry C} (found : index log args.prevLogIndex = some prev) :
    index (mergeEntries log args.prevLogIndex args.entries) args.prevLogIndex = some prev := by
  have ⟨nonneg, at_prev⟩ := index_eq_some.mp found
  have inside := (List.getElem?_eq_some_iff.mp at_prev).1
  refine index_eq_some.mpr ⟨nonneg, ?_⟩
  rcases mergeEntries_cases log args with ⟨same, _⟩ | same
  · rw [same, List.getElem?_append_left inside, at_prev]
  · rw [same, List.getElem?_append_left (by rw [List.length_take]; omega),
      List.getElem?_take, if_pos (by omega), at_prev]

def Refusal (p : Peer n C) (args : AppendEntriesArgs n C) (reply : AppendEntriesReply) : Prop :=
  ((p.log.length : ℤ) ≤ args.prevLogIndex ∧ p.log ≠ [] ∧
    reply = ⟨args.term, false, p.log.length, -1⟩) ∨
  (∃ prev, index p.log args.prevLogIndex = some prev ∧ prev.term ≠ args.prevLogTerm ∧
    reply = ⟨args.term, false,
      conflictScan p.log prev.term args.prevLogIndex.toNat, prev.term⟩)

theorem appendEntries_cases {rf rf' : Raft n C} {args : AppendEntriesArgs n C}
    {reply : AppendEntriesReply} (h : appendEntries rf args = some (rf', reply)) :
    (args.term < rf.currentTerm ∧ reply = ⟨rf.currentTerm, false, 0, 0⟩ ∧
      rf'.toPeer = rf.toPeer) ∨
    (rf.currentTerm ≤ args.term ∧ Refusal rf.toPeer args reply ∧
      rf'.toPeer = rf.toPeer.stepUp args.term) ∨
    (∃ prev, rf.currentTerm ≤ args.term ∧ index rf.log args.prevLogIndex = some prev ∧
      prev.term = args.prevLogTerm ∧ reply = ⟨args.term, true, 0, 0⟩ ∧
      rf'.toPeer = rf.toPeer.accepted args) := by
  have raised : (adoptTerm (lock rf) args.term).toPeer = rf.toPeer.stepUp args.term :=
    adoptTerm_toPeer (lock rf) args.term
  unfold appendEntries at h
  split at h
  · rename_i stale
    obtain ⟨rfl, rfl⟩ : unlock (lock rf) = rf' ∧ _ = reply := by simpa using h
    exact .inl ⟨stale, rfl, rfl⟩
  · rename_i current
    change ¬ args.term < rf.currentTerm at current
    right
    generalize adoptTerm (lock rf) args.term = base at h raised
    have term : base.currentTerm = args.term := by
      rw [raised, stepUp_currentTerm]
      omega
    have log : base.log = rf.log := by rw [raised, stepUp_log]
    have memory : base.memory = rf.memory := by rw [raised, stepUp_memory]
    have commit : base.commitIndex = rf.commitIndex := by rw [raised, stepUp_commitIndex]
    unfold reconcile at h
    rw [log, term] at h
    split at h
    · rename_i beyond
      obtain ⟨last, found, outcome⟩ := Option.map_eq_some_iff.mp h
      obtain ⟨rfl, rfl⟩ := Prod.mk.inj outcome
      refine .inl ⟨by omega, .inl ⟨beyond, ?_, rfl⟩, raised⟩
      intro empty
      simp [empty, index] at found
    · obtain ⟨prev, found, outcome⟩ := Option.map_eq_some_iff.mp h
      split at outcome
      · rename_i differs
        obtain ⟨rfl, rfl⟩ := Prod.mk.inj outcome
        exact .inl ⟨by omega, .inr ⟨prev, found, differs, rfl⟩, raised⟩
      · rename_i matched
        obtain ⟨rfl, rfl⟩ := Prod.mk.inj outcome
        refine .inr ⟨prev, by omega, found, not_not.mp matched, rfl, ?_⟩
        simp only [Peer.accepted, unlock, followCommit, setLog, ← raised, ← commit, log, memory,
          getLastLogIndex, term]
        split <;> rfl

theorem handleRequestVote_cases {rf rf' : Raft n C} {args : RequestVoteArgs n}
    {reply : RequestVoteReply} {vote : Option Bool}
    (h : handleRequestVote rf args reply = (rf', vote)) :
    (vote = none ∧ ∃ t, rf'.toPeer = rf.toPeer.stepUp t) ∨
    (vote = some reply.voteGranted ∧ rf.state = .candidate ∧ rf.currentTerm = args.term ∧
      rf'.toPeer = rf.toPeer) := by
  unfold handleRequestVote at h
  dsimp only at h
  split at h
  · simp only [Prod.mk.injEq] at h
    obtain ⟨rfl, rfl⟩ := h
    exact .inl ⟨rfl, 0, (stepUp_of_le (Nat.zero_le _)).symm⟩
  · rename_i standing
    split at h
    · rename_i later
      simp only [Prod.mk.injEq] at h
      obtain ⟨rfl, rfl⟩ := h
      exact .inl ⟨rfl, reply.term, (stepUp_of_lt later).symm⟩
    · simp only [Prod.mk.injEq] at h
      obtain ⟨rfl, rfl⟩ := h
      simp only [not_or, not_not] at standing
      exact .inr ⟨rfl, standing.1, standing.2, rfl⟩

theorem collectVotes_cases {rf rf' : Raft n C} {votes : ℕ} {outcome : Collected}
    (h : collectVotes rf votes = (rf', outcome)) :
    (outcome ≠ .elected ∧ rf'.toPeer = rf.toPeer) ∨
    (outcome = .elected ∧ rf.state = .candidate ∧ n / 2 < votes ∧
      rf'.toPeer = rf.toPeer.lead) := by
  unfold collectVotes at h
  dsimp only at h
  split at h
  · simp only [Prod.mk.injEq] at h
    obtain ⟨rfl, rfl⟩ := h
    exact .inl ⟨by decide, rfl⟩
  · rename_i standing
    split at h
    · rename_i many
      simp only [Prod.mk.injEq] at h
      obtain ⟨rfl, rfl⟩ := h
      exact .inr ⟨rfl, not_not.mp standing, many, rfl⟩
    · simp only [Prod.mk.injEq] at h
      obtain ⟨rfl, rfl⟩ := h
      exact .inl ⟨by decide, rfl⟩

theorem countMatches_true {rf : Peer n C} {N : ℤ} {peers : List (Fin n)} {count : ℕ}
    (h : countMatches rf N peers count = some true) :
    (∃ entry, index rf.log N = some entry ∧ entry.term = rf.currentTerm) ∧
      n / 2 < count + (peers.filter fun i => rf.matchIndex i ≥ N).length := by
  induction peers generalizing count with
  | nil => simp [countMatches] at h
  | cons i rest ih =>
    unfold countMatches at h
    split at h
    · rename_i reaches
      obtain ⟨entry, found, outcome⟩ := Option.bind_eq_some_iff.mp h
      have longer : ((i :: rest).filter fun i => rf.matchIndex i ≥ N).length =
          (rest.filter fun i => rf.matchIndex i ≥ N).length + 1 := by
        rw [List.filter_cons_of_pos (by simpa using reaches), List.length_cons]
      rw [longer]
      split at outcome
      · rename_i own
        refine ⟨⟨entry, found, own⟩, ?_⟩
        split at outcome
        · omega
        · have := (ih outcome).2
          omega
      · have step := ih outcome
        exact ⟨step.1, by omega⟩
    · rename_i below
      rw [List.filter_cons_of_neg (by simpa using below)]
      exact ih h

theorem card_filter_finRange (P : Fin n → Prop) [DecidablePred P] :
    (Finset.univ.filter P).card = ((List.finRange n).filter fun i => P i).length := by
  rw [Finset.card_def, Finset.filter_val]
  rfl

theorem commitLoop_cases {fuel : ℕ} {N : ℤ} {rf rf' : Raft n C}
    (h : commitLoop fuel N rf = some rf') :
    rf' = rf ∨ ∃ M, rf' = { rf with commitIndex := M } ∧ rf.commitIndex < M ∧ M ≤ N ∧
      (∃ entry, index rf.log M = some entry ∧ entry.term = rf.currentTerm) ∧
      n / 2 < 1 + (Finset.univ.filter fun i => rf.matchIndex i ≥ M).card := by
  induction fuel generalizing N rf with
  | zero =>
    left
    simpa [commitLoop] using h.symm
  | succ fuel ih =>
    unfold commitLoop at h
    split at h
    · rename_i above
      obtain ⟨found, counted, rest⟩ := Option.bind_eq_some_iff.mp h
      cases found with
      | false =>
        simp only [Bool.false_eq_true, if_false] at rest
        rcases ih rest with same | ⟨M, moved, low, high, more⟩
        · exact .inl same
        · exact .inr ⟨M, moved, low, by omega, more⟩
      | true =>
        simp only [if_true] at rest
        obtain ⟨entry, majority⟩ := countMatches_true counted
        rcases ih rest with same | ⟨M, -, low, high, -⟩
        · refine .inr ⟨N, same, above, le_rfl, entry, ?_⟩
          rwa [card_filter_finRange]
        · exact absurd low (by simp only; omega)
    · left
      simpa using h.symm

/-- What a delivered reply does to the caller: nothing, a recorded match with
or without a commit, a later term, or a new place to retry from. -/
theorem handleAppendEntries_cases {rf rf' : Raft n C} {serverTo : Fin n}
    {args : AppendEntriesArgs n C} {reply : AppendEntriesReply}
    (h : handleAppendEntries rf serverTo args reply = some rf') :
    rf'.toPeer = rf.toPeer ∨
    (args.term = rf.currentTerm ∧ reply.success = true ∧
      rf'.toPeer = rf.toPeer.matched serverTo args) ∨
    (∃ M, args.term = rf.currentTerm ∧ reply.success = true ∧
      rf'.toPeer = { rf.toPeer.matched serverTo args with commitIndex := M } ∧
      rf.commitIndex < M ∧ M ≤ rf.log.length - 1 ∧
      (∃ entry, index rf.log M = some entry ∧ entry.term = rf.currentTerm) ∧
      n / 2 < 1 + (Finset.univ.filter fun i =>
        (rf.toPeer.matched serverTo args).matchIndex i ≥ M).card) ∨
    (args.term = rf.currentTerm ∧ rf.currentTerm < reply.term ∧
      rf'.toPeer = rf.toPeer.stepUp reply.term) ∨
    (args.term = rf.currentTerm ∧ reply.success = false ∧ reply.term = rf.currentTerm ∧
      rf.state = .leader ∧ rf'.toPeer = rf.toPeer.retry serverTo reply) := by
  unfold handleAppendEntries at h
  dsimp only at h
  split at h
  · obtain rfl : unlock (lock rf) = rf' := by simpa using h
    exact .inl rfl
  · rename_i same
    have term : args.term = rf.currentTerm := not_not.mp same
    split at h
    · rename_i success
      obtain ⟨after, looped, rfl⟩ := Option.map_eq_some_iff.mp h
      rcases commitLoop_cases looped with rfl | ⟨M, rfl, low, high, entry, majority⟩
      · exact .inr (.inl ⟨term, success, rfl⟩)
      · exact .inr (.inr (.inl ⟨M, term, success, rfl, low, high, entry, majority⟩))
    · rename_i failure
      split at h
      · rename_i later
        obtain rfl : unlock (convertToFollower (lock rf) reply.term) = rf' := by simpa using h
        exact .inr (.inr (.inr (.inl ⟨term, later, (stepUp_of_lt later).symm⟩)))
      · split at h
        · rename_i current
          obtain ⟨rfl⟩ := Option.some.inj h
          exact .inr (.inr (.inr (.inr
            ⟨term, by simpa using failure, current.1, current.2, rfl⟩)))
        · obtain rfl : lock rf = rf' := by simpa using h
          exact .inl rfl

theorem broadcast_mem {me : Fin n} {rf : Peer n C} {peers : List (Fin n)}
    {sent : List (Fin n × AppendEntriesArgs n C)} (built : broadcast me rf peers = some sent)
    {request : Fin n × AppendEntriesArgs n C} (member : request ∈ sent) :
    request.1 ≠ me ∧ heartbeatArgs me rf request.1 = some request.2 := by
  induction peers generalizing sent with
  | nil =>
    obtain rfl : [] = sent := by simpa [broadcast] using built
    exact absurd member List.not_mem_nil
  | cons i rest ih =>
    unfold broadcast at built
    split at built
    · exact ih built member
    · rename_i other
      obtain ⟨args, first, tail⟩ := Option.bind_eq_some_iff.mp built
      obtain ⟨later, restBuilt, rfl⟩ := Option.map_eq_some_iff.mp tail
      rcases List.mem_cons.mp member with rfl | inRest
      · exact ⟨other, first⟩
      · exact ih restBuilt inRest

theorem sendHeartBeats_toPeer {me : Fin n} {rf rf' : Raft n C}
    {sent : Option (List (Fin n × AppendEntriesArgs n C))}
    (ran : sendHeartBeats me rf = some (rf', sent)) : rf'.toPeer = rf.toPeer := by
  unfold sendHeartBeats at ran
  dsimp only at ran
  split at ran
  · have same := Option.some.inj ran
    rw [← (Prod.mk.inj same).1]
    rfl
  · have ⟨_, _, same⟩ := Option.map_eq_some_iff.mp ran
    rw [← (Prod.mk.inj same).1]
    rfl

theorem heartbeatArgs_eq {me i : Fin n} {rf : Peer n C} {args : AppendEntriesArgs n C}
    (built : heartbeatArgs me rf i = some args) :
    ∃ (p : ℕ) (prev : LogEntry C), rf.log[p]? = some prev ∧
      args = ⟨rf.currentTerm, me, p, prev.term, rf.log.drop (p + 1), rf.commitIndex⟩ := by
  obtain ⟨prev, found, rfl⟩ := Option.map_eq_some_iff.mp built
  obtain ⟨nonneg, found⟩ := index_eq_some.mp found
  refine ⟨(rf.nextIndex i - 1).toNat, prev, found, ?_⟩
  have position : ((rf.nextIndex i - 1).toNat : ℤ) = rf.nextIndex i - 1 :=
    Int.toNat_of_nonneg nonneg
  have following : (rf.nextIndex i).toNat = (rf.nextIndex i - 1).toNat + 1 := by omega
  have entries : (if (rf.log.length : ℤ) - 1 ≥ rf.nextIndex i then
      rf.log.drop (rf.nextIndex i).toNat else []) =
      rf.log.drop ((rf.nextIndex i - 1).toNat + 1) := by
    rw [following]
    split
    · rfl
    · rw [List.drop_eq_nil_of_le (by omega)]
  rw [entries, position]

theorem index_last {α : Type} {l : List α} {x : α} (found : index l (l.length - 1) = some x) :
    l ≠ [] ∧ l[l.length - 1]? = some x := by
  obtain ⟨nonneg, found⟩ := index_eq_some.mp found
  have position : ((l.length : ℤ) - 1).toNat = l.length - 1 := by omega
  rw [position] at found
  refine ⟨?_, found⟩
  rintro rfl
  simp at found

theorem index_getLast {α : Type} {l : List α} (nonempty : l ≠ []) :
    index l (l.length - 1) = some (l.getLast nonempty) := by
  have positive := List.length_pos_iff.mpr nonempty
  refine index_eq_some.mpr ⟨by omega, ?_⟩
  rw [show ((l.length : ℤ) - 1).toNat = l.length - 1 by omega,
    ← List.getLast?_eq_getElem?, List.getLast?_eq_some_getLast]

theorem conflictScan_bound (log : List (LogEntry C)) (conflictTerm : ℕ) (i : ℕ) :
    conflictScan log conflictTerm i ≤ i + 1 := by
  induction i with
  | zero =>
    unfold conflictScan
    split <;> simp
  | succ i ih =>
    unfold conflictScan
    split <;> omega

theorem conflictScan_le {log : List (LogEntry C)} {i : ℕ} {e : LogEntry C}
    (found : log[i]? = some e) : conflictScan log e.term i ≤ i := by
  cases i with
  | zero => simp [conflictScan, found]
  | succ i =>
    have below := conflictScan_bound log e.term i
    simp only [conflictScan, found, Option.map_some, ne_eq, not_true_eq_false, if_false]
    omega

theorem conflictScan_pos {log : List (LogEntry C)} {conflictTerm : ℕ}
    (root : log[0]?.map LogEntry.term ≠ some conflictTerm) (i : ℕ) :
    1 ≤ conflictScan log conflictTerm i := by
  induction i with
  | zero => rw [conflictScan, if_pos root]
  | succ i ih =>
    unfold conflictScan
    split <;> omega

theorem searchTerm_ge (log : List (LogEntry C)) (conflictTerm : ℤ) (i : ℕ) :
    -1 ≤ searchTerm log conflictTerm i := by
  induction i with
  | zero => rw [searchTerm]
  | succ i ih =>
    unfold searchTerm
    split <;> omega

theorem searchTerm_lt (log : List (LogEntry C)) (conflictTerm : ℤ) (i : ℕ) :
    searchTerm log conflictTerm i < i := by
  induction i with
  | zero => simp [searchTerm]
  | succ i ih =>
    unfold searchTerm
    split <;> omega

theorem nextAfterConflict_le {log : List (LogEntry C)} {reply : AppendEntriesReply}
    (hint : reply.conflictIndex ≤ log.length) : nextAfterConflict log reply ≤ log.length := by
  have found := searchTerm_lt log reply.conflictTerm log.length
  unfold nextAfterConflict
  dsimp only
  split
  · split <;> omega
  · exact hint

theorem nextAfterConflict_pos {log : List (LogEntry C)} {reply : AppendEntriesReply}
    (hint : 1 ≤ reply.conflictIndex) : 1 ≤ nextAfterConflict log reply := by
  have found := searchTerm_ge log reply.conflictTerm log.length
  unfold nextAfterConflict
  dsimp only
  split
  · split <;> omega
  · exact hint

theorem Refusal.hint {p : Peer n C} {args : AppendEntriesArgs n C} {reply : AppendEntriesReply}
    (h : Refusal p args reply) :
    reply.success = false ∧ reply.conflictIndex ≤ args.prevLogIndex := by
  rcases h with ⟨beyond, -, rfl⟩ | ⟨prev, found, -, rfl⟩
  · exact ⟨rfl, beyond⟩
  · obtain ⟨nonneg, found⟩ := index_eq_some.mp found
    have bound := conflictScan_le found
    refine ⟨rfl, ?_⟩
    simp only
    omega

end DistributedLabs.RaftPeer
