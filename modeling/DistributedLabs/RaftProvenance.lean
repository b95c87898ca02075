import DistributedLabs.RaftRoots

/-! Where log entries come from. While every encoder finds the entry that the
round put into its request, every entry behind the sentinel of a log, and every
entry on its way to one, goes back to a `Start` on a leader of the entry's term,
even where logs hold an entry twice. An encoder that comes too late can send
anything its array was overwritten with. -/

namespace DistributedLabs.RaftProvenance
open GuardedRuns RaftPeer RaftCluster RaftMoves RaftRoots

variable {n : ℕ} {C : Type}

/-- The encoder of a call finds the entry that the request was built with. -/
def SendsBuilt (c : Cluster n C) : Action n C → Prop
  | .encode j => ∀ call ∈ c.appendCalls[j]?,
      nextCell (c.raft call.caller).toPeer call = call.args.entries[call.read / 2]?
  | _ => True

instance [DecidableEq C] (c : Cluster n C) : (a : Action n C) → Decidable (SendsBuilt c a)
  | .encode j => inferInstanceAs (Decidable (∀ call ∈ c.appendCalls[j]?,
      nextCell (c.raft call.caller).toPeer call = call.args.entries[call.read / 2]?))
  | .tickerTest _ | .tickerCheck _ _ | .kickOffElection _ | .requestVote _ _ _
  | .handleRequestVote _ _ _ | .receiveVote _ _ | .collectVotes _ _ | .heartbeatTest _ _
  | .sendHeartBeats _ _ | .appendEntries _ | .handleAppendEntries _ | .checkerTest _
  | .checkerLock _ | .checkerApply _ | .checkerUnlock _ | .start _ _ | .allocate _ _
  | .killStore _ | .killLocked _ => isTrue trivial

theorem readField_self (e : LogEntry C) (field : ℕ) : readField e field e = e := by
  unfold readField
  split <;> rfl

theorem encode_built {call : AppendCall n C} {cell : LogEntry C}
    (same : call.args.entries[call.read / 2]? = some cell) :
    call.encode cell = { call with read := call.read + 1 } := by
  have kept : call.args.entries.modify (call.read / 2) (readField cell call.read) =
      call.args.entries := by
    apply List.ext_getElem?
    intro i
    rw [List.getElem?_modify]
    split
    · rename_i here
      rw [← here, same]
      simp [readField_self]
    · simp
  simp [AppendCall.encode, kept]

structure Sourced (trace : List (Event n C)) (t : ℕ) (e : LogEntry C) : Prop where
  bound : e.term ≤ t
  started : ∃ s position, .started s e position ∈ trace

def SourcedAll (trace : List (Event n C)) (t : ℕ) (entries : List (LogEntry C)) : Prop :=
  ∀ e ∈ entries, Sourced trace t e

structure Provenance (v : View n C) : Prop where
  logs : ∀ s, SourcedAll v.trace (v.peer s).currentTerm ((v.peer s).log.drop 1)
  calls : ∀ call ∈ v.appendCalls, SourcedAll v.trace call.args.term call.args.entries
  ballots : ∀ s, ∀ e ∈ v.elections s, e.args.lastLogTerm < e.args.term
  applied : ∀ s msg, .applied s msg ∈ v.trace →
    ∃ e, e.command = msg.command ∧ Sourced v.trace e.term e

section Sources

variable {trace trace' : List (Event n C)} {t t' : ℕ} {log : List (LogEntry C)}

theorem Sourced.mono (grow : trace <+: trace') (later : t ≤ t') {e : LogEntry C}
    (h : Sourced trace t e) : Sourced trace' t' e where
  bound := h.bound.trans later
  started := by
    have ⟨s, position, found⟩ := h.started
    exact ⟨s, position, grow.subset found⟩

theorem SourcedAll.mono (grow : trace <+: trace') (later : t ≤ t') {entries : List (LogEntry C)}
    (h : SourcedAll trace t entries) : SourcedAll trace' t' entries :=
  fun e member => (h e member).mono grow later

theorem SourcedAll.bound (h : SourcedAll trace t (log.drop 1)) (rooted : RootedLog log) {i : ℕ}
    {e : LogEntry C} (found : log[i]? = some e) : e.term ≤ t := by
  -- the sentinel has term zero, so the bound holds of it too
  rcases eq_or_ne i 0 with zero | behind
  · have root := (rooted.term_eq_zero found).mpr zero
    omega
  · exact (h e (mem_drop_one found behind)).bound

theorem SourcedAll.append (h : SourcedAll trace t (log.drop 1)) (rooted : log ≠ [])
    {entries : List (LogEntry C)} (sourced : SourcedAll trace t entries) :
    SourcedAll trace t ((log ++ entries).drop 1) := by
  intro e member
  rw [List.drop_append_of_le_length (List.length_pos_iff.mpr rooted)] at member
  exact (List.mem_append.mp member).elim (h e) (sourced e)

theorem SourcedAll.merge (h : SourcedAll trace t (log.drop 1)) (rooted : RootedLog log)
    {args : AppendEntriesArgs n C} (inside : 0 ≤ args.prevLogIndex)
    (sourced : SourcedAll trace t args.entries) :
    SourcedAll trace t ((mergeEntries log args.prevLogIndex args.entries).drop 1) := by
  cases mergeEntries_cases log args with
  | inl appended =>
    rw [appended.1]
    exact h.append rooted.ne_nil sourced
  | inr replaced =>
    have position : (args.prevLogIndex + 1).toNat = args.prevLogIndex.toNat + 1 := by omega
    rw [replaced, position]
    refine SourcedAll.append (fun e member => h e ?_) (rooted.take _).ne_nil sourced
    rw [List.drop_take] at member
    exact List.mem_of_mem_take member

theorem SourcedAll.heartbeat {p : Peer n C} (h : SourcedAll trace p.currentTerm (p.log.drop 1))
    {me i : Fin n} {args : AppendEntriesArgs n C} (built : heartbeatArgs me p i = some args) :
    SourcedAll trace args.term args.entries := by
  have ⟨k, prev, found, same⟩ := heartbeatArgs_eq built
  subst same
  intro e member
  rw [Nat.add_comm, ← List.drop_drop] at member
  exact h e (List.mem_of_mem_drop member)

end Sources

section Keep

variable {v : View n C}

theorem Provenance.setPeer (h : Provenance v) {s : Fin n} {p : Peer n C}
    (log : SourcedAll v.trace p.currentTerm (p.log.drop 1)) : Provenance (v.setPeer s p) where
  logs := View.forall_setPeer
    (P := fun _ p => SourcedAll v.trace p.currentTerm (p.log.drop 1)) h.logs log
  calls := h.calls
  ballots := h.ballots
  applied := h.applied

theorem Provenance.setKept (h : Provenance v) {s : Fin n} {p : Peer n C}
    (log : p.log = (v.peer s).log) (term : (v.peer s).currentTerm ≤ p.currentTerm) :
    Provenance (v.setPeer s p) := by
  apply h.setPeer
  rw [log]
  exact (h.logs s).mono List.prefix_rfl term

theorem Provenance.stepUp (h : Provenance v) (s : Fin n) (t : ℕ) :
    Provenance (v.setPeer s ((v.peer s).stepUp t)) :=
  h.setKept (by simp) (by simp)

theorem Provenance.record (h : Provenance v) {event : Event n C}
    (applied : ∀ s msg, event = .applied s msg →
      ∃ e, e.command = msg.command ∧ Sourced v.trace e.term e) : Provenance (v.record event) where
  logs s := (h.logs s).mono (List.prefix_append _ _) le_rfl
  calls call member := (h.calls call member).mono (List.prefix_append _ _) le_rfl
  ballots := h.ballots
  applied s msg found := by
    have source : ∃ e, e.command = msg.command ∧ Sourced v.trace e.term e := by
      cases List.mem_append.mp found with
      | inl old => exact h.applied s msg old
      | inr new => exact applied s msg (List.mem_singleton.mp new).symm
    have ⟨e, command, sourced⟩ := source
    exact ⟨e, command, sourced.mono (List.prefix_append _ _) le_rfl⟩

theorem Provenance.setCalls (h : Provenance v) {calls : List (AppendCall n C)}
    (sourced : ∀ call ∈ calls, call ∈ v.appendCalls ∨
      SourcedAll v.trace call.args.term call.args.entries) :
    Provenance { v with appendCalls := calls } :=
  { h with calls := fun call member => (sourced call member).elim (h.calls call) id }

theorem Provenance.dropCall (h : Provenance v) (j : ℕ) : Provenance (v.dropCall j) :=
  h.setCalls fun _ member => .inl (List.mem_of_mem_eraseIdx member)

theorem Provenance.setCall (h : Provenance v) {j : ℕ} {call call' : AppendCall n C}
    (found : v.appendCalls[j]? = some call) (same : call'.args = call.args) :
    Provenance (v.setCall j call') := by
  refine h.setCalls fun other member => ?_
  cases List.mem_or_eq_of_mem_set member with
  | inl old => exact .inl old
  | inr new =>
    rw [new, same]
    exact .inr (h.calls call (List.mem_of_getElem? found))

theorem Provenance.setElection (h : Provenance v) {x : Fin n} {k : ℕ} {e e' : Election n}
    (found : (v.elections x)[k]? = some e) (same : e'.args = e.args) :
    Provenance (v.setElection x k e') where
  logs := h.logs
  calls := h.calls
  applied := h.applied
  ballots s f member := by
    cases mem_setElection member with
    | inl old => exact h.ballots s f old
    | inr new =>
      rw [new.2, same]
      exact h.ballots x e (List.mem_of_getElem? found)

theorem Provenance.addElection (h : Provenance v) {x : Fin n} {e : Election n}
    (earlier : e.args.lastLogTerm < e.args.term) : Provenance (v.addElection x e) :=
  { h with
    ballots := fun s f member => (mem_addElection member).elim (h.ballots s f) (· ▸ earlier) }

theorem Provenance.moved {c : Cluster n C} (h : Provenance (view c)) (roots : Roots (view c))
    {a : Action n C} (built : SendsBuilt c a) {v' : View n C} (move : Moved (view c) a v') :
    Provenance v' := by
  cases move with
  | quiet => exact h
  | kickOff s last lastFound =>
    have bound := (h.logs s).bound (roots.peers s).log (index_last lastFound).2
    have bumped := h.setKept (s := s) (p := ((view c).peer s).stand s) rfl (Nat.le_succ _)
    exact (bumped.addElection (Nat.lt_succ_of_le bound)).record (by simp)
  | refuse x k s e reply found =>
    exact (h.stepUp s e.args.term).setElection found rfl
  | grant x k s e last found waiting current =>
    have voted := h.setKept (s := s) (p := ((view c).peer s).grant e.args)
      (by simp [Peer.grant]) (by simp [Peer.grant])
    apply Provenance.record
    · exact voted.setElection found rfl
    · simp
  | voteUnsent x k s e reply t found => exact (h.stepUp x t).setElection found rfl
  | voteSent x k s e reply found => exact h.setElection found rfl
  | receive x k e vote rest found => exact h.setElection found rfl
  | collect x k e pc turn found => exact h.setElection found rfl
  | elect x k e found standing =>
    have led := h.setKept (s := x) (p := ((view c).peer x).lead) rfl le_rfl
    apply Provenance.record
    · exact led.setElection found rfl
    · simp
  | beat s j sent leading requests =>
    refine h.setCalls fun call member => (List.mem_append.mp member).imp_right fun new => ?_
    obtain ⟨request, inSent, same⟩ := List.mem_map.mp new
    subst same
    exact (h.logs s).heartbeat (broadcast_mem requests inSent).2
  | encode j call cell found unanswered unread held =>
    rw [encode_built ((built call found).symm.trans held)]
    exact h.setCall found rfl
  | appendStale j call found => exact h.setCall found rfl
  | appendRefuse j call reply found =>
    exact (h.stepUp call.serverTo call.args.term).setCall found rfl
  | appendAccept j call prev found unanswered current prevFound matched =>
    have member := List.mem_of_getElem? found
    have inside := (roots.calls call member).inside
    have merged := h.setPeer (s := call.serverTo)
      (p := ((view c).peer call.serverTo).accepted call.args)
      (by
        have held := (h.logs call.serverTo).mono List.prefix_rfl current
        simpa [Peer.accepted, current] using
          held.merge (roots.peers call.serverTo).log inside (h.calls call member))
    apply Provenance.record
    · exact merged.setCall found rfl
    · simp
  | replyIgnored j => exact h.dropCall j
  | replyMatched j call =>
    have kept := h.setKept (s := call.caller)
      (p := ((view c).peer call.caller).matched call.serverTo call.args) rfl le_rfl
    exact kept.dropCall j
  | replyAdvanced j call reply M =>
    have kept := h.setKept (s := call.caller)
      (p := { ((view c).peer call.caller).matched call.serverTo call.args with commitIndex := M })
      rfl le_rfl
    exact (kept.dropCall j).record (by simp)
  | replyRaised j call t => exact (h.stepUp call.caller t).dropCall j
  | replyConflict j call reply =>
    have kept := h.setKept (s := call.caller)
      (p := ((view c).peer call.caller).retry call.serverTo reply) rfl le_rfl
    exact kept.dropCall j
  | apply s entry behind entryFound =>
    have checked := (roots.peers s).checked
    obtain ⟨_, found⟩ := index_eq_some.mp entryFound
    have sourced := h.logs s entry (mem_drop_one found (by omega))
    have kept := h.setKept (s := s)
      (p := { (view c).peer s with lastApplied := ((view c).peer s).lastApplied + 1 }) rfl le_rfl
    refine kept.record fun _ msg same => ⟨entry, ?_, ⟨le_rfl, sourced.started⟩⟩
    injection same with _ same
    rw [← same]
  | start s command position leading =>
    -- the event is recorded first, so that the new entry has its source
    have recorded : Provenance ((view c).record
        (.started s ⟨command, ((view c).peer s).currentTerm⟩ position)) := h.record (by simp)
    refine recorded.setPeer (s := s) (p := ((view c).peer s).appendCommand command)
      ((recorded.logs s).append (roots.peers s).log.ne_nil fun e member => ?_)
    rw [List.mem_singleton.mp member]
    exact ⟨le_rfl, s, position, by simp [View.record]⟩
  | allocate s room => exact h.setKept rfl le_rfl
  | kill s =>
    exact h.setKept (s := s) (p := { (view c).peer s with state := .dead }) rfl le_rfl

end Keep

theorem Provenance.init [Inhabited C] : Provenance (view (RaftCluster.init : Cluster n C)) where
  logs _ _ member := absurd member List.not_mem_nil
  calls _ member := absurd member List.not_mem_nil
  ballots _ _ member := absurd member List.not_mem_nil
  applied _ _ found := absurd found List.not_mem_nil

theorem reaches_provenance [Inhabited C] {c : Cluster n C} (run : Reaches SendsBuilt c) :
    Provenance (view c) :=
  run.invariant_under (fun c => Roots (view c)) (fun c => Provenance (view c))
    (fun roots _ taken => roots.moved (step_moved taken))
    (fun roots _ h built taken => h.moved roots built (step_moved taken)) .init .init

/-- Some `Start` earlier in the run of `c` made `e`, on a server that led the
term of `e` at that moment. -/
def Created [Inhabited C] (c : Cluster n C) (e : LogEntry C) : Prop :=
  ∃ before after s, Reaches free before ∧ (before.raft s).state = .leader ∧
    (before.raft s).currentTerm = e.term ∧ step before (.start s e.command) = some after ∧
    Run step free after c

theorem Created.tail [Inhabited C] {c c' : Cluster n C} {a : Action n C} {e : LogEntry C}
    (h : Created c e) (taken : step c a = some c') : Created c' e := by
  have ⟨before, after, s, reached, leading, term, started, later⟩ := h
  exact ⟨before, after, s, reached, leading, term, started, later.tail trivial taken⟩

theorem started_moved {v v' : View n C} {a : Action n C} (move : Moved v a v') {s : Fin n}
    {e : LogEntry C} {position : ℤ} (found : .started s e position ∈ v'.trace) :
    .started s e position ∈ v.trace ∨ a = .start s e.command ∧ (v.peer s).state = .leader ∧
      (v.peer s).currentTerm = e.term := by
  cases move with
  | start x command position' leading =>
    refine (List.mem_append.mp found).imp_right fun new => ?_
    injection List.mem_singleton.mp new with server entry
    subst server entry
    exact ⟨rfl, leading, rfl⟩
  | _ =>
    left
    simpa [View.record, View.setPeer, View.setElection, View.addElection, View.setCall,
      View.dropCall, View.addCalls] using found

theorem created_of_started [Inhabited C] {c : Cluster n C} (run : Reaches free c) {s : Fin n}
    {e : LogEntry C} {position : ℤ} (found : .started s e position ∈ c.trace) : Created c e := by
  induction run with
  | refl => exact absurd found List.not_mem_nil
  | tail before allowed taken ih =>
    cases started_moved (step_moved taken) found with
    | inl old => exact (ih old).tail taken
    | inr new =>
      have ⟨action, leading, term⟩ := new
      subst action
      exact ⟨_, _, s, before, leading, term, taken, .refl⟩

/-- While encoders find what was built, every entry behind a sentinel, every
entry of a request and every applied command was made by a `Start` on a leader
of its term; terms of entries never exceed those of the server or the request
that holds them, and a vote request names a last term before its own. -/
theorem entries_created [Inhabited C] {c : Cluster n C} (run : Reaches SendsBuilt c) :
    (∀ s i e, (c.raft s).log[i]? = some e →
      e.term ≤ (c.raft s).currentTerm ∧ (1 ≤ i → Created c e)) ∧
    (∀ call ∈ c.appendCalls, ∀ e ∈ call.args.entries, e.term ≤ call.args.term ∧ Created c e) ∧
    (∀ s msg, .applied s msg ∈ c.trace → ∃ e, e.command = msg.command ∧ Created c e) ∧
    (∀ s, ∀ election ∈ c.elections s, election.args.lastLogTerm < election.args.term) := by
  have roots := reaches_roots run
  have known := reaches_provenance run
  have plain : Reaches free c := run.mono fun _ _ _ => trivial
  have created {t : ℕ} {e : LogEntry C} (sourced : Sourced c.trace t e) : Created c e := by
    have ⟨s, position, found⟩ := sourced.started
    exact created_of_started plain found
  refine ⟨fun s i e found => ⟨(known.logs s).bound (roots.peers s).log found, fun behind => ?_⟩,
    fun call member e inside => ?_, fun s msg applied => ?_, known.ballots⟩
  · exact created (known.logs s e (mem_drop_one found (by omega)))
  · have sourced := known.calls call member e inside
    exact ⟨sourced.bound, created sourced⟩
  · have ⟨e, command, sourced⟩ := known.applied s msg applied
    exact ⟨e, command, created sourced⟩

theorem entries_created_two_peers : ∃ c : Cluster 2 ℕ, Reaches SendsBuilt c ∧
    (c.raft 1).log[1]? = some ⟨7, 1⟩ ∧ .applied 0 ⟨true, 7, 1⟩ ∈ c.trace ∧
      Created c ⟨7, 1⟩ := by
  obtain ⟨c, run, both⟩ := exec_test step SendsBuilt (RaftCluster.init : Cluster 2 ℕ)
    (List.flatten [timeout 0, poll 0 0 1, tally 0 0, [.start 0 7], beat 0 0, encodes 0 1,
      [.appendEntries 0, .handleAppendEntries 0, .checkerTest 0, .checkerLock 0, .checkerApply 0]])
    (fun c => (c.raft 1).log[1]? = some ⟨7, 1⟩ ∧ .applied 0 ⟨true, 7, 1⟩ ∈ c.trace) (by decide)
  have ⟨copied, applied⟩ := of_decide_eq_true both
  exact ⟨c, run, copied, applied, ((entries_created run).1 1 1 _ copied).2 le_rfl⟩

/-- Server 0 leads term 1 and builds a request for server 4. Before the request
is encoded, server 1 leads term 2 and overwrites the only entry of server 0 in
place. Server 4, still in term 1, stores what the encoder then finds: an entry
of term 2 in a request of term 1. -/
theorem entry_outruns_term : ¬ ∀ c : Cluster 5 ℕ, Reaches free c → ∀ (s : Fin 5) (i : ℕ)
    (e : LogEntry ℕ), (c.raft s).log[i]? = some e → e.term ≤ (c.raft s).currentTerm := by
  obtain ⟨c, run, both⟩ := exec_test step free (RaftCluster.init : Cluster 5 ℕ)
    (List.flatten [timeout 0, poll 0 0 3, poll 0 0 4, tally 0 0, tally 0 0, [.start 0 7], beat 0 0,
      timeout 1, timeout 1, poll 1 1 2, poll 1 1 3, tally 1 1, tally 1 1, [.start 1 9], beat 1 0,
      encodes 4 1, [.appendEntries 4], encodes 3 1, [.appendEntries 3]])
    (fun c => (c.raft 4).log[1]? = some ⟨9, 2⟩ ∧ (c.raft 4).currentTerm = 1) (by decide)
  have ⟨stored, term⟩ := of_decide_eq_true both
  intro bounded
  have bound := bounded c run 4 1 _ stored
  rw [term] at bound
  exact absurd bound (by decide)

end DistributedLabs.RaftProvenance
