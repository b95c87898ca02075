import DistributedLabs.RaftLedger

/-! Every move of an orderly run is matched by operations on the ledger: a
term is raised, a candidate stands, a vote is cast, a leader is elected, an
entry is appended, a follower accepts and acknowledges, a leader commits. -/

namespace DistributedLabs.RaftRefinement
open GuardedRuns TermLogs TermLedger RaftPeer RaftCluster RaftMoves RaftVotes RaftElection
open RaftCommits RaftLedger RaftProvenance SharedArrays

variable {n : ℕ} {C : Type} {v : View n C} {L : Ledger (Fin n) (LogEntry C)}

section Servers

variable {s : Fin n} {p q : Peer n C}

theorem serves_raise (valid : L.Valid LogEntry.term) (h : Serves L s p)
    (later : p.currentTerm ≤ q.currentTerm) (log : q.log = p.log)
    (commit : q.commitIndex = p.commitIndex) (applied : q.lastApplied = p.lastApplied)
    (notes : q.matchIndex = p.matchIndex) (next : q.nextIndex = p.nextIndex)
    (state : q.state = .candidate → p.state = .candidate ∧ q.currentTerm = p.currentTerm) :
    Serves (L.raise s q.currentTerm) s q := by
  -- whoever leads a term has reached it, so the notes are those of the same term
  have same (led : L.leader q.currentTerm = some s) : q.currentTerm = p.currentTerm := by
    have bound := (valid.elected _ _ led).1
    rw [h.current] at bound
    omega
  exact
    { current := by simp [Ledger.raise]
      log := h.log.trans log.symm
      standing := fun candidate unled => by
        obtain ⟨was, term⟩ := state candidate
        rw [term] at unled ⊢
        rw [log]
        exact h.standing was unled
      applied := by rw [applied, commit]; exact h.applied
      commit := by rw [commit, log]; exact h.commit
      settled := by
        rw [commit, log]
        exact h.settled.mono valid (L.extends_raise s _) later List.prefix_rfl
      matched := fun led => by
        rw [notes, same led]
        exact h.matched (same led ▸ led)
      next := fun led => by
        rw [next, log]
        exact h.next (same led ▸ led) }

theorem serves_stand (valid : L.Valid LogEntry.term) (h : Serves L s p) :
    Serves (L.stand s (p.currentTerm + 1)) s (p.stand s) := by
  have up : L.current s < p.currentTerm + 1 := by rw [h.current]; omega
  have fresh : L.leader (p.currentTerm + 1) ≠ some s := by
    intro led
    have := (valid.elected _ _ led).1
    omega
  exact
    { current := by simp [Ledger.stand, Peer.stand]
      log := h.log
      standing := fun _ _ => by simp [Ledger.stand, Peer.stand, h.log]
      applied := h.applied
      commit := h.commit
      settled := h.settled.mono valid (valid.extends_stand up) (Nat.le_succ _) List.prefix_rfl
      matched := fun led => absurd led fresh
      next := fun led => absurd led fresh }

theorem serves_lead (valid : L.Valid LogEntry.term) (h : Serves L s p)
    (grow : Extends L (L.elect s)) : Serves (L.elect s) s p.lead where
  current := h.current
  log := h.log
  standing candidate := absurd candidate (by simp [Peer.lead])
  applied := h.applied
  commit := h.commit
  settled := h.settled.mono valid grow le_rfl List.prefix_rfl
  matched _ i k positive := absurd positive (by simp [Peer.lead])
  next _ i := by simp [Peer.lead]

theorem serves_append (valid : L.Valid LogEntry.term) (h : Serves L s p)
    (leading : p.state = .leader) (leader : L.leader (L.current s) = some s) (e : LogEntry C)
    (memory : Backing (LogEntry C)) :
    Serves (L.append s e) s { p with log := p.log ++ [e], memory := memory } := by
  have grow := valid.extends_append (e := e) leader
  have bound := h.commit
  exact
    { current := h.current
      log := by simp [Ledger.append, h.log]
      standing := fun candidate => by simp [leading] at candidate
      applied := h.applied
      commit := by simp only [List.length_append, List.length_singleton]; omega
      settled := h.settled.mono valid grow le_rfl (List.prefix_append _ _)
      matched := fun led i k positive below => h.matched led i k positive below
      next := fun led i => by
        have := h.next led i
        simp only [List.length_append, List.length_singleton]
        omega }

end Servers

theorem leads (h : Coupled v L) {s : Fin n} (leader : L.leader (v.peer s).currentTerm = some s) :
    L.leading (v.peer s).currentTerm = (v.peer s).log := by
  have server := h.servers s
  rw [← h.valid.leads _ s leader server.current, server.log]

theorem leader_of_state (h : Coupled v L) (lead : Leadership v) {s : Fin n}
    (leading : (v.peer s).state = .leader) : L.leader (v.peer s).currentTerm = some s := by
  obtain ⟨log, became⟩ := lead.recorded s leading
  exact (h.fits _ became).1

theorem coupled_raise (h : Coupled v L) {s : Fin n} {q : Peer n C}
    (later : (v.peer s).currentTerm ≤ q.currentTerm) (log : q.log = (v.peer s).log)
    (commit : q.commitIndex = (v.peer s).commitIndex)
    (applied : q.lastApplied = (v.peer s).lastApplied)
    (notes : q.matchIndex = (v.peer s).matchIndex) (next : q.nextIndex = (v.peer s).nextIndex)
    (state : q.state = .candidate →
      (v.peer s).state = .candidate ∧ q.currentTerm = (v.peer s).currentTerm) :
    Coupled (v.setPeer s q) (L.raise s q.currentTerm) := by
  have server := h.servers s
  refine h.act (L.actsAt_raise s _) (h.valid.raise ?_)
    (serves_raise h.valid server later log commit applied notes next state)
  rw [server.current]
  exact later

theorem coupled_stepUp (h : Coupled v L) (s : Fin n) (t : ℕ) :
    Coupled (v.setPeer s ((v.peer s).stepUp t))
      (L.raise s ((v.peer s).stepUp t).currentTerm) := by
  refine coupled_raise h (by simp) (by simp) (by simp) (by simp) (by simp) (by simp) ?_
  intro candidate
  have same := stepUp_state (by decide) candidate
  rw [same] at candidate ⊢
  exact ⟨candidate, rfl⟩

theorem coupled_kickOff (h : Coupled v L) (ballots : Ballots v) {s : Fin n} {last : LogEntry C}
    (lastFound : index (v.peer s).log ((v.peer s).log.length - 1) = some last) :
    ∃ L', Coupled (((v.setPeer s ((v.peer s).stand s)).addElection s
      (newElection s (voteArgs v s last.term))).record
        (.voted s ((v.peer s).currentTerm + 1) s)) L' := by
  have server := h.servers s
  have up : L.current s < (v.peer s).currentTerm + 1 := by rw [server.current]; omega
  obtain ⟨nonempty, lastEntry⟩ := index_last lastFound
  have stood := h.act (h.valid.actsAt_stand up) (h.valid.stand up) (serves_stand h.valid server)
  have standing : (L.stand s ((v.peer s).currentTerm + 1)).stood s ((v.peer s).currentTerm + 1) =
      some (v.peer s).log := by simp [Ledger.stand, server.log]
  have added := stood.addElection (x := s) (e := newElection s (voteArgs v s last.term))
    ⟨(v.peer s).log, nonempty, standing, rfl, (lastTerm_eq LogEntry.term lastEntry).symm⟩
  refine added.recordVote (by simp [Ledger.stand]) standing ?_ ?_
  · right
    simp [Ledger.stand, server.log]
  · intro y voted
    have := (ballots.current s _ y voted).1
    omega

theorem upToDate_of_newer {args : RequestVoteArgs n} {standing log : List (LogEntry C)}
    {last : LogEntry C}
    (position : args.lastLogIndex = (standing.length : ℤ) - 1)
    (term : args.lastLogTerm = lastTerm LogEntry.term standing)
    (lastFound : index log (log.length - 1) = some last)
    (newer : args.lastLogTerm > last.term ∨
      (args.lastLogTerm = last.term ∧ args.lastLogIndex ≥ log.length - 1)) :
    UpToDate LogEntry.term standing log := by
  obtain ⟨-, lastEntry⟩ := index_last lastFound
  have voterTerm := lastTerm_eq LogEntry.term lastEntry
  unfold UpToDate
  rw [← term, voterTerm]
  rcases newer with above | ⟨same, longer⟩
  · exact .inl above
  · exact .inr ⟨same, by omega⟩

theorem coupled_grant (h : Coupled v L) (ballots : Ballots v) {x s : Fin n} {k : ℕ}
    {e : Election n} {last : LogEntry C} (found : (v.elections x)[k]? = some e)
    (current : (v.peer s).currentTerm ≤ e.args.term)
    (free : ((v.peer s).stepUp e.args.term).votedFor = none ∨
      ((v.peer s).stepUp e.args.term).votedFor = some e.args.candidateId)
    (lastFound : index (v.peer s).log ((v.peer s).log.length - 1) = some last)
    (newer : e.args.lastLogTerm > last.term ∨ (e.args.lastLogTerm = last.term ∧
      e.args.lastLogIndex ≥ (v.peer s).log.length - 1)) {e' : Election n}
    (args : e'.args = e.args) :
    ∃ L', Coupled (((v.setPeer s ((v.peer s).grant e.args)).setElection x k e').record
      (.voted s e.args.term e.args.candidateId)) L' := by
  have term : ((v.peer s).grant e.args).currentTerm = e.args.term := by
    simp only [Peer.grant, stepUp_currentTerm]
    omega
  have raised := coupled_raise h (s := s) (q := (v.peer s).grant e.args)
    (by rw [term]; exact current) (by simp [Peer.grant]) (by simp [Peer.grant])
    (by simp [Peer.grant]) (by simp [Peer.grant]) (by simp [Peer.grant]) (by simp [Peer.grant])
  have kept := raised.setElection (k := k) found args
  obtain ⟨log, -, stood, position, lastLogTerm⟩ :=
    h.elections x e (List.mem_of_getElem? found)
  rw [(ballots.own x e (List.mem_of_getElem? found)).1] at free ⊢
  refine kept.recordVote (by simp [Ledger.raise, term]) stood ?_ ?_
  · change UpToDate LogEntry.term log (L.log s)
    rw [(h.servers s).log]
    exact upToDate_of_newer position lastLogTerm lastFound newer
  · intro y voted
    obtain ⟨bound, now⟩ := ballots.current s _ y voted
    have held := now (by omega)
    rw [stepUp_of_le bound, held] at free
    simpa using free

theorem unled_of_won (h : Coupled v L) (ballots : Ballots v) (lead : Leadership v)
    (elected : Elected v) {x : Fin n} (standing : (v.peer x).state = .candidate)
    (won : Won v.trace x (v.peer x).currentTerm) : L.leader (v.peer x).currentTerm = none := by
  cases leader : L.leader (v.peer x).currentTerm with
  | none => rfl
  | some y =>
    obtain ⟨log, became⟩ := h.led _ y leader
    obtain rfl := ballots.won_unique won (elected y _ log became)
    have state := ((lead.held x _ log became).2 rfl).1
    simp [standing] at state

theorem coupled_elect (h : Coupled v L) (ballots : Ballots v) (lead : Leadership v)
    (elected : Elected v) {x : Fin n} {k : ℕ} {e : Election n}
    (found : (v.elections x)[k]? = some e) (standing : (v.peer x).state = .candidate)
    (many : n / 2 < e.votesReceived) (own : (v.peer x).currentTerm = e.args.term) :
    Coupled ((v.setPeer x (v.peer x).lead).record
      (.becameLeader x (v.peer x).currentTerm (v.peer x).log)) (L.elect x) := by
  have member := List.mem_of_getElem? found
  have server := h.servers x
  have current := server.current
  have won := ballots.won member many
  rw [← own] at won
  have unled := unled_of_won h ballots lead elected standing won
  have stood := server.standing standing unled
  have positive : L.current x ≠ 0 := by
    obtain ⟨log, nonempty, requested, -⟩ := h.elections x e member
    have early := (h.valid.stoodAnchored _ _ _ requested).2.2 _ (List.getLast_mem nonempty)
    omega
  rw [← current] at unled stood
  rw [← server.log] at stood
  have grow := h.valid.extends_elect positive unled
  obtain ⟨Q, majority, votes⟩ := won
  have valid : (L.elect x).Valid LogEntry.term := by
    refine h.valid.elect positive unled stood (Q := Q) (by simpa using majority) fun w inQ => ?_
    have cast := h.fits _ (votes w inQ)
    rw [← current] at cast
    exact cast.resolve_left (not_not.mpr unled)
  refine
    { valid := valid
      servers := fun w => ?_
      elections := fun y f member => (h.elections y f member).mono grow
      calls := fun call member => (h.calls call member).mono h.valid grow
      fits := fun event member => ?_
      led := fun t w leader => ?_
      cast := fun w t y log ballot => List.mem_append_left _ (h.cast w t y log ballot) }
  · rcases eq_or_ne w x with rfl | other
    · simpa [View.record, View.setPeer] using serves_lead h.valid server grow
    · simp only [View.record, View.setPeer, Function.update_of_ne other]
      refine (h.servers w).mono h.valid grow rfl rfl fun t leader => ?_
      rcases eq_or_ne t (L.current x) with rfl | apart
      · exact absurd (by simpa [Ledger.elect] using leader) other.symm
      · simpa [Ledger.elect, apart] using leader
  · rcases List.mem_append.mp member with old | new
    · exact (h.fits event old).mono h.valid grow
    · rw [List.mem_singleton.mp new, ← current, ← server.log]
      simp [Fits, Ledger.elect]
  · rcases eq_or_ne t (L.current x) with rfl | apart
    · obtain rfl : x = w := by simpa [Ledger.elect] using leader
      exact ⟨(v.peer x).log, by simp [View.record, current]⟩
    · obtain ⟨log, became⟩ := h.led t w (by simpa [Ledger.elect, apart] using leader)
      exact ⟨log, List.mem_append_left _ became⟩

theorem sent_heartbeat (h : Coupled v L) (lead : Leadership v) {s : Fin n}
    (leading : (v.peer s).state = .leader) {i : Fin n} (apart : i ≠ s)
    {args : AppendEntriesArgs n C} (built : heartbeatArgs s (v.peer s) i = some args) :
    Sent L ⟨s, i, args, (v.peer s).memory.current, 0, none⟩ := by
  have leader := leader_of_state h lead leading
  have log := leads h leader
  have server := h.servers s
  obtain ⟨p, prev, found, rfl⟩ := heartbeatArgs_eq built
  have room := (List.getElem?_eq_some_iff.mp found).1
  have last : reach (n := n) ⟨(v.peer s).currentTerm, s, p, prev.term,
      (v.peer s).log.drop (p + 1), (v.peer s).commitIndex⟩ + 1 = (v.peer s).log.length := by
    simp only [reach, Int.toNat_natCast, List.length_drop]
    omega
  have commit := server.commit
  exact
    { apart := apart
      leader := leader
      nonneg := Int.natCast_nonneg p
      inside := by simp only [log]; omega
      before := ⟨prev, by simpa [log] using found, rfl⟩
      slice := by
        rw [last]
        simp [log]
      commit := by simp only; omega
      settled := by simpa only [log] using server.settled
      acked := fun _ replied => absurd replied.symm (Option.some_ne_none _)
      hint := fun _ replied => absurd replied.symm (Option.some_ne_none _) }

theorem sent_reply {call : AppendCall n C} (h : Sent L call) {reply : AppendEntriesReply}
    (acked : reply.success = true → ∀ k ≤ reach call.args, L.acked call.serverTo call.args.term k)
    (hint : reply.success = false → reply.term = call.args.term →
      reply.conflictIndex ≤ call.args.prevLogIndex) :
    Sent L { call with reply := some reply } := by
  refine { h with acked := fun r replied => ?_, hint := fun r replied => ?_ }
  · obtain rfl : reply = r := by simpa using replied
    exact acked
  · obtain rfl : reply = r := by simpa using replied
    exact hint

section Merging

variable {F leading : List (LogEntry C)} {args : AppendEntriesArgs n C}

theorem mergeEntries_eq (nonneg : 0 ≤ args.prevLogIndex)
    (agree : F.take (args.prevLogIndex.toNat + 1) = leading.take (args.prevLogIndex.toNat + 1))
    (slice : leading.take (reach args + 1) =
      leading.take (args.prevLogIndex.toNat + 1) ++ args.entries)
    (new : ¬ Overlaps F args) :
    args.entries = [] ∧ mergeEntries F args.prevLogIndex args.entries = F ∨
    args.entries ≠ [] ∧
      mergeEntries F args.prevLogIndex args.entries = leading.take (reach args + 1) := by
  by_cases empty : args.entries = []
  · refine .inl ⟨empty, ?_⟩
    rw [empty]
    simp [mergeEntries]
  · refine .inr ⟨empty, ?_⟩
    rw [mergeEntries_fresh nonneg new empty, agree, slice]

theorem shared_short (nonneg : 0 ≤ args.prevLogIndex) (inside : reach args < leading.length)
    (slice : leading.take (reach args + 1) =
      leading.take (args.prevLogIndex.toNat + 1) ++ args.entries)
    (carries : args.entries ≠ []) (new : ¬ Overlaps F args) {part : List (LogEntry C)}
    (held : part <+: F) (led : part <+: leading) : part <+: leading.take (reach args + 1) := by
  have prevInside : args.prevLogIndex.toNat + 1 ≤ reach args := by
    have := List.length_pos_iff.mpr carries
    unfold reach
    omega
  have short : part.length ≤ args.prevLogIndex.toNat + 1 := by
    by_contra long
    push Not at long
    have at_next := List.getElem?_eq_getElem long
    have first : args.entries.head? = leading[args.prevLogIndex.toNat + 1]? := by
      have here := congrArg (·[args.prevLogIndex.toNat + 1]?) slice
      rw [take_get (by omega), List.getElem?_append_right (by simp)] at here
      rw [here, List.length_take_of_le (by omega), Nat.sub_self, List.head?_eq_getElem?]
    refine new ⟨_, first.trans (prefix_get led at_next), _, ?_, rfl⟩
    rw [Option.mem_def, index, if_pos (by omega), show (args.prevLogIndex + 1).toNat =
      args.prevLogIndex.toNat + 1 by omega]
    exact prefix_get held at_next
  refine List.prefix_of_prefix_length_le led (List.take_prefix _ _) ?_
  rw [List.length_take]
  omega

end Merging

theorem accepted_log (h : Coupled v L) {call : AppendCall n C} (sent : Sent L call)
    {prev : LogEntry C} (current : (v.peer call.serverTo).currentTerm ≤ call.args.term)
    (prevFound : index (v.peer call.serverTo).log call.args.prevLogIndex = some prev)
    (matched : prev.term = call.args.prevLogTerm)
    (new : ¬ Overlaps (v.peer call.serverTo).log call.args) :
    let log := mergeEntries (v.peer call.serverTo).log call.args.prevLogIndex call.args.entries
    (L.leading call.args.term).take (reach call.args + 1) <+: log ∧
      Anchored LogEntry.term L.leading log ∧ (∀ e ∈ log, e.term ≤ call.args.term) ∧
      ∀ part, part <+: (v.peer call.serverTo).log → part <+: L.leading call.args.term →
        part <+: log := by
  intro log
  have server := h.servers call.serverTo
  obtain ⟨e, at_prev, same⟩ := sent.before
  have held := (index_eq_some.mp prevFound).2
  have anchored := h.valid.logAnchored call.serverTo
  rw [server.log] at anchored
  have agree := anchored.agree (h.valid.leadingAnchored _) held at_prev (matched.trans same.symm)
  rcases mergeEntries_eq sent.nonneg agree sent.slice new with ⟨empty, kept⟩ | ⟨carries, merged⟩
  · have last : reach call.args = call.args.prevLogIndex.toNat := by simp [reach, empty]
    refine ⟨?_, ?_, ?_, ?_⟩
    · rw [last, ← agree, show log = _ from kept]
      exact List.take_prefix _ _
    · rw [show log = _ from kept]
      exact anchored
    · intro entry member
      rw [show log = _ from kept, ← server.log] at member
      have bound := h.valid.logTerm _ entry member
      rw [server.current] at bound
      exact bound.trans current
    · intro part shared _
      rw [show log = _ from kept]
      exact shared
  · rw [show log = _ from merged]
    refine ⟨List.prefix_rfl, (h.valid.leadingAnchored _).restrict (List.take_prefix _ _), ?_, ?_⟩
    · intro entry member
      exact h.valid.leadingBound _ entry (List.mem_of_mem_take member)
    · intro part shared led
      exact shared_short sent.nonneg sent.inside sent.slice carries new shared led

theorem coupled_accept (h : Coupled v L) {call : AppendCall n C} (sent : Sent L call)
    {prev : LogEntry C} (current : (v.peer call.serverTo).currentTerm ≤ call.args.term)
    (prevFound : index (v.peer call.serverTo).log call.args.prevLogIndex = some prev)
    (matched : prev.term = call.args.prevLogTerm)
    (new : ¬ Overlaps (v.peer call.serverTo).log call.args) :
    ∃ L', Coupled (v.setPeer call.serverTo ((v.peer call.serverTo).accepted call.args)) L' ∧
      Extends L L' ∧ ∀ k ≤ reach call.args, L'.acked call.serverTo call.args.term k := by
  have server := h.servers call.serverTo
  have led := sent.leader
  obtain ⟨covers, anchored, terms, keeps⟩ := accepted_log h sent current prevFound matched new
  generalize logEq : mergeEntries (v.peer call.serverTo).log call.args.prevLogIndex
    call.args.entries = log at covers anchored terms keeps
  have term : ((v.peer call.serverTo).stepUp call.args.term).currentTerm = call.args.term := by
    rw [stepUp_currentTerm]
    omega
  have acts := L.actsAt_follow call.serverTo call.args.term log (reach call.args)
  have valid := h.valid.follow (by rw [server.current]; exact current) led sent.apart.symm
    anchored terms (by rw [server.log]; exact keeps) sent.inside covers
  have foreign : L.leader call.args.term ≠ some call.serverTo := by
    rw [led]
    exact fun same => sent.apart (Option.some.inj same).symm
  -- the commit index either stays, at a settled position that is kept, or moves
  -- to the leader's, which the new log covers
  have oldSettled := (server.settled.mono h.valid (Extends.refl L) current List.prefix_rfl).kept
    h.valid (by rw [led]; exact Option.some_ne_none _) keeps
  have newSettled := sent.settled.within h.valid (by have := sent.commit; omega) covers
  have long : reach call.args < log.length := by
    have length := covers.length_le
    have inside := sent.inside
    rw [List.length_take] at length
    omega
  have oldCommit := oldSettled.short h.valid (List.ne_nil_of_length_pos (by omega))
  have sentCommit := sent.commit
  have applied := server.applied
  refine ⟨_, h.act acts valid ?_, acts.toExtends, fun k below => L.follow_acked _ _ _ below⟩
  simp only [Peer.accepted, logEq]
  exact
    { current := by rw [term, Ledger.follow_current]
      log := by simp
      standing := fun _ unled => by
        simp only [term] at unled
        exact absurd (led.symm.trans unled) (Option.some_ne_none _)
      applied := by
        simp only [stepUp_lastApplied]
        refine ⟨applied.1, ?_⟩
        split <;> omega
      commit := by
        simp only
        split <;> omega
      settled := by
        simp only [term]
        split
        · rw [min_eq_left (by omega)]
          exact newSettled.mono h.valid acts.toExtends le_rfl List.prefix_rfl
        · exact oldSettled.mono h.valid acts.toExtends le_rfl List.prefix_rfl
      matched := fun leads => by
        simp only [term] at leads
        exact absurd leads foreign
      next := fun leads => by
        simp only [term] at leads
        exact absurd leads foreign }

section Replies

variable {call : AppendCall n C} {reply : AppendEntriesReply}

theorem serves_matched (h : Coupled v L) (sent : Sent L call) (replied : call.reply = some reply)
    (current : call.args.term = (v.peer call.caller).currentTerm)
    (success : reply.success = true) :
    Serves L call.caller ((v.peer call.caller).matched call.serverTo call.args) := by
  have server := h.servers call.caller
  have leader := sent.leader
  rw [current] at leader
  have log := leads h leader
  have nonneg := sent.nonneg
  have inside := sent.inside
  have position : (reach call.args : ℤ) = call.args.prevLogIndex + call.args.entries.length := by
    simp only [reach]
    omega
  refine { server with matched := fun _ i k positive below => ?_, next := fun _ i => ?_ }
  · rcases eq_or_ne i call.serverTo with rfl | other
    · have bound : (k : ℤ) ≤ call.args.prevLogIndex + call.args.entries.length := by
        simpa [Peer.matched] using below
      have acked := sent.acked reply replied success k (by omega)
      rw [current] at acked
      exact acked
    · simp only [Peer.matched, Function.update_of_ne other] at positive below
      exact server.matched leader i k positive below
  · rcases eq_or_ne i call.serverTo with rfl | other
    · rw [current, log] at inside
      simp only [Peer.matched, Function.update_self]
      omega
    · simp only [Peer.matched, Function.update_of_ne other]
      exact server.next leader i

theorem valid_commit (h : Coupled v L) {s : Fin n} {m : ℕ} {entry : LogEntry C}
    {backers : Finset (Fin n)} (leader : L.leader (v.peer s).currentTerm = some s)
    (at_m : (L.leading (v.peer s).currentTerm)[m]? = some entry)
    (own : entry.term = (v.peer s).currentTerm) (outside : s ∉ backers)
    (many : n / 2 < 1 + backers.card)
    (acks : ∀ w ∈ backers, L.acked w (v.peer s).currentTerm m) :
    ((L.ack s m).commit (v.peer s).currentTerm m).Valid LogEntry.term := by
  have now : L.current s = (v.peer s).currentTerm := (h.servers s).current
  have short := (List.getElem?_eq_some_iff.mp at_m).1
  have positive : (v.peer s).currentTerm ≠ 0 := by
    intro zero
    rw [zero, h.valid.rootUnled] at leader
    exact Option.some_ne_none _ leader.symm
  -- the leader acknowledges its own entry, and then a majority has
  have acked : (L.ack s m).Valid LogEntry.term := by
    refine h.valid.ack (by rw [now]; exact short) ?_
    rw [now, (h.servers s).log, leads h leader]
    exact List.take_prefix _ _
  refine acked.commit positive at_m own (Q := insert s backers) ?_ fun w member => ?_
  · rw [Finset.card_insert_of_notMem outside, Fintype.card_fin]
    omega
  · rcases Finset.mem_insert.mp member with rfl | inside
    · exact .inr ⟨rfl, now.symm, le_rfl⟩
    · exact .inl (acks w inside)

theorem coupled_advanced (h : Coupled v L) (evidence : Evidence v) {j : ℕ} {M : ℤ}
    {entry : LogEntry C} (found : v.appendCalls[j]? = some call)
    (replied : call.reply = some reply)
    (current : call.args.term = (v.peer call.caller).currentTerm)
    (success : reply.success = true) (above : (v.peer call.caller).commitIndex < M)
    (entryFound : index (v.peer call.caller).log M = some entry)
    (own : entry.term = (v.peer call.caller).currentTerm)
    (many : n / 2 < 1 + (Finset.univ.filter fun i =>
      ((v.peer call.caller).matched call.serverTo call.args).matchIndex i ≥ M).card) :
    ∃ L', Coupled ((v.setPeer call.caller
      { (v.peer call.caller).matched call.serverTo call.args with commitIndex := M }).record
        (.advanced call.caller (v.peer call.caller).currentTerm M
          (v.peer call.caller).log)) L' := by
  have sent := h.calls call (List.mem_of_getElem? found)
  have server := serves_matched h sent replied current success
  have applied := (h.servers call.caller).applied
  have leader := sent.leader
  rw [current] at leader
  have log := leads h leader
  obtain ⟨nonneg, at_M⟩ := index_eq_some.mp entryFound
  obtain ⟨m, rfl⟩ := Int.eq_ofNat_of_zero_le nonneg
  rw [Int.toNat_natCast, ← log] at at_M
  have short := (List.getElem?_eq_some_iff.mp at_M).1
  have holds : (L.leading (v.peer call.caller).currentTerm).take (m + 1) <+:
      (v.peer call.caller).log := by
    rw [log]
    exact List.take_prefix _ _
  have committed := valid_commit h leader at_M own
    (fun self => by
      have reaches := (Finset.mem_filter.mp self).2
      rcases evidence.matched found replied current success call.caller with low | ⟨other, -⟩
      · omega
      · exact other rfl)
    many fun w inside => by
      have reaches := (Finset.mem_filter.mp inside).2
      exact server.matched leader w m (by omega) reaches
  have acts := (L.actsAt_ack call.caller m).trans
    (Ledger.actsAt_commit _ call.caller (v.peer call.caller).currentTerm m)
  have kept := server.mono h.valid acts.toExtends rfl rfl (fun _ led => led)
  have commitHere : ((L.ack call.caller m).commit (v.peer call.caller).currentTerm m).committed
      (v.peer call.caller).currentTerm m := .inr ⟨rfl, rfl⟩
  have advanced : Serves _ call.caller
      { (v.peer call.caller).matched call.serverTo call.args with commitIndex := (m : ℤ) } :=
    { kept with
      applied := ⟨applied.1, by simp only [Peer.matched]; omega⟩
      commit := by rw [log] at short; simp only [Peer.matched]; omega
      settled := .inr ⟨_, m, commitHere, le_rfl, le_rfl, holds⟩ }
  refine ⟨_, (h.act acts committed advanced).record ?_⟩
  exact ⟨m, rfl, commitHere, holds⟩

theorem serves_retry (h : Coupled v L) (sent : Sent L call) (replied : call.reply = some reply)
    (current : call.args.term = (v.peer call.caller).currentTerm)
    (failure : reply.success = false) (term : reply.term = (v.peer call.caller).currentTerm) :
    Serves L call.caller ((v.peer call.caller).retry call.serverTo reply) := by
  have server := h.servers call.caller
  have leader := sent.leader
  rw [current] at leader
  have log := leads h leader
  have hint := sent.hint reply replied failure (term.trans current.symm)
  have inside := sent.inside
  rw [current, log] at inside
  refine { server with next := fun _ i => ?_ }
  rcases eq_or_ne i call.serverTo with rfl | other
  · simp only [Peer.retry, Function.update_self]
    refine nextAfterConflict_le (hint.trans ?_)
    simp only [reach] at inside
    omega
  · simp only [Peer.retry, Function.update_of_ne other]
    exact server.next leader i

end Replies

theorem coupled_apply (h : Coupled v L) {s : Fin n} {entry : LogEntry C}
    (behind : (v.peer s).lastApplied < (v.peer s).commitIndex)
    (entryFound : index (v.peer s).log ((v.peer s).lastApplied + 1) = some entry) :
    Coupled ((v.setPeer s { v.peer s with lastApplied := (v.peer s).lastApplied + 1 }).record
      (.applied s ⟨true, entry.command, (v.peer s).lastApplied + 1⟩)) L := by
  have server := h.servers s
  have applied := server.applied
  obtain ⟨nonneg, found⟩ := index_eq_some.mp entryFound
  have decided := server.settled.decided h.valid (by omega) (by omega) found
  have served : Serves L s { v.peer s with lastApplied := (v.peer s).lastApplied + 1 } :=
    { server with applied := ⟨nonneg, behind⟩ }
  refine (h.setPeer served).record ?_
  exact ⟨((v.peer s).lastApplied + 1).toNat, entry, (Int.toNat_of_nonneg nonneg).symm, rfl, decided⟩

structure Known (v : View n C) : Prop where
  ballots : Ballots v
  lead : Leadership v
  elected : Elected v
  evidence : Evidence v

theorem Known.moved {c : Cluster n C} (h : Known (view c)) {a : Action n C}
    (own : CountsOwnTerm c a) {v' : View n C} (move : Moved (view c) a v') : Known v' where
  ballots := h.ballots.moved move
  lead := h.lead.moved h.ballots move
  elected := h.elected.moved h.ballots own move
  evidence := h.evidence.moved h.lead move

theorem coupled_moved {c : Cluster n C} {a : Action n C} (known : Known (view c))
    (h : Coupled (view c) L) (orderly : Orderly c a) {v' : View n C}
    (move : Moved (view c) a v') : ∃ L', Coupled v' L' := by
  obtain ⟨ballots, lead, elected, evidence⟩ := known
  obtain ⟨own, new, built⟩ := orderly
  cases move with
  | quiet => exact ⟨L, h⟩
  | kickOff s last lastFound => exact coupled_kickOff h ballots lastFound
  | refuse x k s e reply found => exact ⟨_, (coupled_stepUp h s e.args.term).setElection found rfl⟩
  | grant x k s e last found waiting current free lastFound newer =>
    exact coupled_grant h ballots found current free lastFound newer rfl
  | voteUnsent x k s e reply t found => exact ⟨_, (coupled_stepUp h x t).setElection found rfl⟩
  | voteSent x k s e reply found => exact ⟨_, h.setElection found rfl⟩
  | receive x k e vote rest found => exact ⟨_, h.setElection found rfl⟩
  | collect x k e pc turn found => exact ⟨_, h.setElection found rfl⟩
  | elect x k e found standing many =>
    have led := coupled_elect h ballots lead elected found standing many
      (own e found standing many)
    exact ⟨_, led.setElection (k := k) found rfl⟩
  | beat s j sent leading requests =>
    refine ⟨_, h.setCalls fun call member => ?_⟩
    refine (List.mem_append.mp member).imp_right fun added => ?_
    obtain ⟨request, inSent, rfl⟩ := List.mem_map.mp added
    obtain ⟨apart, args⟩ := broadcast_mem requests inSent
    exact sent_heartbeat h lead leading apart args
  | encode j call cell found unanswered unread held =>
    rw [encode_built ((built call found).symm.trans held)]
    exact ⟨_, h.setCall { h.calls call (List.mem_of_getElem? found) with }⟩
  | appendStale j call found unanswered stale =>
    refine ⟨_, h.setCall (sent_reply (h.calls call (List.mem_of_getElem? found)) (by simp) ?_)⟩
    intro _ same
    exact absurd same stale.ne'
  | appendRefuse j call reply found unanswered current refusal =>
    have raised := coupled_stepUp h call.serverTo call.args.term
    obtain ⟨failure, hint⟩ := refusal.hint
    have sent := raised.calls call (List.mem_of_getElem? found)
    exact ⟨_, raised.setCall (sent_reply sent (by simp [failure]) fun _ _ => hint)⟩
  | appendAccept j call prev found unanswered current prevFound matched =>
    have fresh : ¬ Overlaps ((view c).peer call.serverTo).log call.args := fun overlaps =>
      new call found ⟨current, ⟨prev, prevFound, matched⟩, overlaps⟩
    have sent := h.calls call (List.mem_of_getElem? found)
    obtain ⟨L', coupled, grow, acked⟩ := coupled_accept h sent current prevFound matched fresh
    have answered : Sent L' { call with reply := some ⟨call.args.term, true, 0, 0⟩ } :=
      sent_reply (sent.mono h.valid grow) (fun _ => acked) (by simp)
    exact ⟨L', (coupled.setCall answered).record trivial⟩
  | replyIgnored j => exact ⟨_, h.dropCall j⟩
  | replyMatched j call reply found replied current success =>
    have sent := h.calls call (List.mem_of_getElem? found)
    exact ⟨_, (h.setPeer (serves_matched h sent replied current success)).dropCall j⟩
  | replyAdvanced j call reply M entry found replied current success above entryFound own' many =>
    obtain ⟨L', coupled⟩ := coupled_advanced h evidence found replied current success above
      entryFound own' many
    exact ⟨L', coupled.dropCall j⟩
  | replyRaised j call t => exact ⟨_, (coupled_stepUp h call.caller t).dropCall j⟩
  | replyConflict j call reply found replied current failure term leading =>
    have sent := h.calls call (List.mem_of_getElem? found)
    exact ⟨_, (h.setPeer (serves_retry h sent replied current failure term)).dropCall j⟩
  | apply s entry behind entryFound => exact ⟨_, coupled_apply h behind entryFound⟩
  | start s command position leading =>
    have current := (h.servers s).current
    have leader := leader_of_state h lead leading
    rw [← current] at leader
    exact ⟨_, (h.act (h.valid.actsAt_append leader) (h.valid.append leader current.symm)
      (serves_append h.valid (h.servers s) leading leader _ _)).record trivial⟩
  | allocate s room => exact ⟨_, h.setPeer { h.servers s with }⟩
  | kill s =>
    exact ⟨_, coupled_raise h (q := { (view c).peer s with state := .dead }) le_rfl rfl rfl rfl rfl
      rfl (by simp)⟩

def origin [Inhabited C] : Ledger (Fin n) (LogEntry C) where
  current := fun _ => 0
  log := fun _ => [⟨default, 0⟩]
  leader := fun _ => none
  opening := fun _ => []
  leading := fun t => if t = 0 then [⟨default, 0⟩] else []
  stood := fun _ _ => none
  ballot := fun _ _ => none
  acked := fun _ _ _ => False
  committed := fun _ _ => False

theorem origin_anchored [Inhabited C] :
    Anchored LogEntry.term (origin (n := n) (C := C)).leading [⟨default, 0⟩] := by
  intro i e found
  obtain ⟨rfl, rfl⟩ : i = 0 ∧ e = ⟨default, 0⟩ := by
    cases i with
    | zero => exact ⟨rfl, by simpa using found.symm⟩
    | succ i => simp at found
  simp [origin]

theorem origin_valid [Inhabited C] : (origin (n := n) (C := C)).Valid LogEntry.term where
  rootUnled := rfl
  unled t nonzero _ := if_neg nonzero
  opened _ := List.nil_prefix
  openingTerm _ _ member := absurd member List.not_mem_nil
  leadingTerm t i e found _ := by
    have member := List.mem_of_getElem? found
    simp only [origin] at member
    split at member
    · rename_i zero
      rw [List.mem_singleton.mp member, zero]
    · exact absurd member List.not_mem_nil
  logAnchored _ := origin_anchored
  leadingAnchored t := by
    by_cases zero : t = 0
    · simpa [origin, zero] using origin_anchored (n := n) (C := C)
    · intro i e found
      simp [origin, zero] at found
  logTerm _ e member := by
    rw [List.mem_singleton.mp member]
    exact le_rfl
  stoodAnchored _ _ _ stood := absurd stood.symm (Option.some_ne_none _)
  ballotStood _ _ _ _ ballot := absurd ballot.symm (Option.some_ne_none _)
  elected _ _ leader := absurd leader.symm (Option.some_ne_none _)
  leads _ _ leader := absurd leader.symm (Option.some_ne_none _)
  ackHeld _ _ _ acked := acked.elim
  ackVoted _ _ _ _ _ _ acked := acked.elim
  commitAcked _ _ committed := committed.elim

theorem origin_coupled [Inhabited C] :
    Coupled (view (RaftCluster.init : Cluster n C)) origin where
  valid := origin_valid
  servers s :=
    { current := rfl
      log := rfl
      standing := fun candidate => absurd candidate (by simp [view, RaftCluster.init, make])
      applied := ⟨le_rfl, le_rfl⟩
      commit := by simp [view, RaftCluster.init, make]
      settled := .inl rfl
      matched := fun leader => absurd leader.symm (Option.some_ne_none _)
      next := fun leader => absurd leader.symm (Option.some_ne_none _) }
  elections _ _ member := absurd member List.not_mem_nil
  calls _ member := absurd member List.not_mem_nil
  fits _ member := absurd member List.not_mem_nil
  led _ _ leader := absurd leader.symm (Option.some_ne_none _)
  cast _ _ _ _ ballot := absurd ballot.symm (Option.some_ne_none _)

theorem reaches_coupled [Inhabited C] {c : Cluster n C} (run : Reaches Orderly c) :
    Known (view c) ∧ ∃ L, Coupled (view c) L := by
  refine run.invariant (fun c => Known (view c) ∧ ∃ L, Coupled (view c) L) ?_
    ⟨⟨.init, .init, fun _ _ _ found => absurd found List.not_mem_nil, .init⟩, _, origin_coupled⟩
  rintro c c' a ⟨known, L, coupled⟩ orderly taken
  have move := step_moved taken
  exact ⟨known.moved orderly.1 move, coupled_moved known coupled orderly move⟩

end DistributedLabs.RaftRefinement
