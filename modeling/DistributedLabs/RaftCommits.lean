import DistributedLabs.RaftElection

/-! No commit without a majority. Commit indices travel from leader to
follower and from there to later leaders; each of them goes back to one
advance of some leader that half of the other peers had acknowledged in that
leader's own term. This needs no assumption on the run. -/

namespace DistributedLabs.RaftCommits
open GuardedRuns RaftPeer RaftCluster RaftMoves RaftVotes RaftElection

variable {n : ℕ} {C : Type}

/-- In `trace`, peer `w` had answered a request of leader `l` in term `T` that
reaches index `N`. -/
def Acknowledged (trace : List (Event n C)) (l : Fin n) (T : ℕ) (N : ℤ) (w : Fin n) : Prop :=
  ∃ args, .answered w args ∈ trace ∧ args.leaderID = l ∧ args.term = T ∧
    N ≤ args.prevLogIndex + args.entries.length

/-- Some leader advanced its commit index to `i` or beyond, at an entry of its
own term, after half of the peers other than itself had acknowledged it. -/
def Agreed (trace : List (Event n C)) (i : ℤ) : Prop :=
  ∃ pre post l T N log, trace = pre ++ .advanced l T N log :: post ∧ i ≤ N ∧
    (∃ entry, index log N = some entry ∧ entry.term = T) ∧
    (∃ opening, .becameLeader l T opening ∈ pre) ∧
    ∃ S : Finset (Fin n), n / 2 ≤ S.card ∧ l ∉ S ∧ ∀ w ∈ S, Acknowledged pre l T N w

def Backed (trace : List (Event n C)) (i : ℤ) : Prop := i ≤ 0 ∨ Agreed trace i

def Noted (trace : List (Event n C)) (s : Fin n) (p : Peer n C) (i : Fin n) : Prop :=
  p.matchIndex i ≤ 0 ∨ (i ≠ s ∧ Acknowledged trace s p.currentTerm (p.matchIndex i) i)

structure Traced (trace : List (Event n C)) (call : AppendCall n C) : Prop where
  leader : call.args.leaderID = call.caller
  apart : call.serverTo ≠ call.caller
  led : ∃ log, .becameLeader call.caller call.args.term log ∈ trace
  commit : Backed trace call.args.leaderCommit
  answered : ∀ reply, call.reply = some reply → reply.success = true →
    .answered call.serverTo call.args ∈ trace

structure Evidence (v : View n C) : Prop where
  rooted : ∀ s, (v.peer s).log ≠ []
  nonneg : ∀ s, 0 ≤ (v.peer s).commitIndex
  commits : ∀ s, Backed v.trace (v.peer s).commitIndex
  noted : ∀ s log i, .becameLeader s (v.peer s).currentTerm log ∈ v.trace →
    Noted v.trace s (v.peer s) i
  calls : ∀ call ∈ v.appendCalls, Traced v.trace call
  applied : ∀ s msg, .applied s msg ∈ v.trace → Backed v.trace msg.commandIndex

section Monotone

variable {trace trace' : List (Event n C)}

theorem Acknowledged.mono (grow : trace <+: trace') {l w : Fin n} {T : ℕ} {N : ℤ}
    (h : Acknowledged trace l T N w) : Acknowledged trace' l T N w := by
  obtain ⟨args, answered, rest⟩ := h
  exact ⟨args, grow.subset answered, rest⟩

theorem Acknowledged.lower {l w : Fin n} {T : ℕ} {N M : ℤ} (h : Acknowledged trace l T N w)
    (below : M ≤ N) : Acknowledged trace l T M w := by
  obtain ⟨args, answered, leader, term, reach⟩ := h
  exact ⟨args, answered, leader, term, below.trans reach⟩

theorem Agreed.mono (grow : trace <+: trace') {i : ℤ} (h : Agreed trace i) :
    Agreed trace' i := by
  obtain ⟨tail, rfl⟩ := grow
  obtain ⟨pre, post, l, T, N, log, rfl, rest⟩ := h
  exact ⟨pre, post ++ tail, l, T, N, log, by simp, rest⟩

theorem Agreed.lower {i j : ℤ} (h : Agreed trace i) (below : j ≤ i) : Agreed trace j := by
  obtain ⟨pre, post, l, T, N, log, split, bound, rest⟩ := h
  exact ⟨pre, post, l, T, N, log, split, below.trans bound, rest⟩

theorem Backed.mono (grow : trace <+: trace') {i : ℤ} (h : Backed trace i) : Backed trace' i :=
  h.imp_right (·.mono grow)

theorem Backed.lower {i j : ℤ} (h : Backed trace i) (below : j ≤ i) : Backed trace j :=
  h.imp below.trans (·.lower below)

theorem Noted.mono (grow : trace <+: trace') {s i : Fin n} {p : Peer n C}
    (h : Noted trace s p i) : Noted trace' s p i :=
  h.imp_right fun ⟨other, ack⟩ => ⟨other, ack.mono grow⟩

theorem Traced.mono (grow : trace <+: trace') {call : AppendCall n C} (h : Traced trace call) :
    Traced trace' call where
  leader := h.leader
  apart := h.apart
  led := h.led.imp fun _ found => grow.subset found
  commit := h.commit.mono grow
  answered reply replied success := grow.subset (h.answered reply replied success)

end Monotone

section Keep

variable {v : View n C}

theorem Evidence.setPeer (h : Evidence v) {s : Fin n} {p : Peer n C} (log : p.log ≠ [])
    (nonneg : 0 ≤ p.commitIndex) (commit : Backed v.trace p.commitIndex)
    (noted : ∀ log i, .becameLeader s p.currentTerm log ∈ v.trace → Noted v.trace s p i) :
    Evidence (v.setPeer s p) where
  calls := h.calls
  applied := h.applied
  rooted := View.forall_setPeer (P := fun _ p => p.log ≠ []) h.rooted log
  nonneg := View.forall_setPeer (P := fun _ p => 0 ≤ p.commitIndex) h.nonneg nonneg
  commits := View.forall_setPeer (P := fun _ p => Backed v.trace p.commitIndex) h.commits commit
  noted := View.forall_setPeer (P := fun w p => ∀ log i,
    .becameLeader w p.currentTerm log ∈ v.trace → Noted v.trace w p i) h.noted noted

theorem Evidence.setKept (h : Evidence v) (lead : Leadership v) {s : Fin n} {p : Peer n C}
    (log : p.log ≠ []) (nonneg : 0 ≤ p.commitIndex)
    (commit : Backed v.trace p.commitIndex)
    (term : (v.peer s).currentTerm ≤ p.currentTerm)
    (notes : p.matchIndex = (v.peer s).matchIndex) : Evidence (v.setPeer s p) := by
  -- a peer keeps its notes within a term; in a later term it has never led
  refine h.setPeer log nonneg commit fun opening i found => ?_
  have bound := (lead.held s _ opening found).1
  have same : p.currentTerm = (v.peer s).currentTerm := by omega
  have old := h.noted s opening i (same ▸ found)
  rw [Noted, same, notes]
  exact old

theorem Evidence.stepUp (h : Evidence v) (lead : Leadership v) (s : Fin n) (t : ℕ) :
    Evidence (v.setPeer s ((v.peer s).stepUp t)) :=
  h.setKept lead (by simpa using h.rooted s) (by simpa using h.nonneg s)
    (by simpa using h.commits s) (by simp) (by simp)

theorem Evidence.record (h : Evidence v) {event : Event n C}
    (other : ∀ s t log, event ≠ .becameLeader s t log)
    (applied : ∀ s msg, event = .applied s msg → Backed v.trace msg.commandIndex) :
    Evidence (v.record event) where
  rooted := h.rooted
  nonneg := h.nonneg
  commits s := (h.commits s).mono (List.prefix_append _ _)
  calls call member := (h.calls call member).mono (List.prefix_append _ _)
  noted s log i found := by
    rcases List.mem_append.mp found with old | new
    · exact (h.noted s log i old).mono (List.prefix_append _ _)
    · exact absurd (List.mem_singleton.mp new).symm (other _ _ _)
  applied s msg found := by
    rcases List.mem_append.mp found with old | new
    · exact (h.applied s msg old).mono (List.prefix_append _ _)
    · exact (applied s msg (List.mem_singleton.mp new).symm).mono (List.prefix_append _ _)

theorem Evidence.elect (h : Evidence v) (x : Fin n) :
    Evidence ((v.setPeer x (v.peer x).lead).record
      (.becameLeader x (v.peer x).currentTerm (v.peer x).log)) := by
  have led := h.setPeer (s := x) (p := (v.peer x).lead) (h.rooted x) (h.nonneg x) (h.commits x)
    (fun _ _ _ => .inl le_rfl)
  refine
    { rooted := led.rooted
      nonneg := led.nonneg
      commits := fun s => (led.commits s).mono (List.prefix_append _ _)
      calls := fun call member => (led.calls call member).mono (List.prefix_append _ _)
      noted := fun s log i found => ?_
      applied := fun s msg found => ?_ }
  · rcases eq_or_ne s x with rfl | other
    · left
      simp [View.record, View.setPeer, Peer.lead]
    · rcases List.mem_append.mp found with old | new
      · exact (led.noted s log i old).mono (List.prefix_append _ _)
      · injection List.mem_singleton.mp new with server
        exact absurd server other
  · have old : .applied s msg ∈ v.trace := by simpa [View.record, View.setPeer] using found
    exact (h.applied s msg old).mono (List.prefix_append _ _)

theorem Evidence.setCalls (h : Evidence v) {calls : List (AppendCall n C)}
    (traced : ∀ call ∈ calls, call ∈ v.appendCalls ∨ Traced v.trace call) :
    Evidence { v with appendCalls := calls } :=
  { h with calls := fun call member => (traced call member).elim (h.calls call) id }

theorem Evidence.dropCall (h : Evidence v) (j : ℕ) : Evidence (v.dropCall j) :=
  h.setCalls fun _ member => .inl (List.mem_of_mem_eraseIdx member)

theorem Evidence.setCall (h : Evidence v) {j : ℕ} {call : AppendCall n C}
    (traced : Traced v.trace call) : Evidence (v.setCall j call) :=
  h.setCalls fun other member => by
    rcases List.mem_or_eq_of_mem_set member with old | rfl
    · exact .inl old
    · exact .inr traced

theorem Traced.reply {trace : List (Event n C)} {call : AppendCall n C} (h : Traced trace call)
    {reply : AppendEntriesReply}
    (answered : reply.success = true → .answered call.serverTo call.args ∈ trace) :
    Traced trace { call with reply := some reply } := by
  refine { h with answered := fun r replied success => ?_ }
  obtain rfl : reply = r := by simpa using replied
  exact answered success

theorem mergeEntries_ne_nil {log : List (LogEntry C)} {args : AppendEntriesArgs n C}
    {prev : LogEntry C} (found : index log args.prevLogIndex = some prev) :
    mergeEntries log args.prevLogIndex args.entries ≠ [] := by
  have ⟨_, kept⟩ := index_eq_some.mp (mergeEntries_prev found)
  intro empty
  simp [empty] at kept

theorem Evidence.matched (h : Evidence v) {j : ℕ} {call : AppendCall n C}
    {reply : AppendEntriesReply} (found : v.appendCalls[j]? = some call)
    (replied : call.reply = some reply)
    (current : call.args.term = (v.peer call.caller).currentTerm)
    (success : reply.success = true) (i : Fin n) :
    Noted v.trace call.caller ((v.peer call.caller).matched call.serverTo call.args) i := by
  have traced := h.calls call (List.mem_of_getElem? found)
  obtain ⟨log, led⟩ := traced.led
  rcases eq_or_ne i call.serverTo with rfl | other
  · refine .inr ⟨traced.apart, call.args, traced.answered reply replied success, traced.leader,
      current, ?_⟩
    simp [Peer.matched]
  · have old := h.noted call.caller log i (current ▸ led)
    simpa [Noted, Peer.matched, other] using old

/-- A positive reply that lets the leader advance is the last piece of the
evidence for the advance itself. -/
theorem Evidence.agreed (h : Evidence v) {j : ℕ} {call : AppendCall n C}
    {reply : AppendEntriesReply} {M : ℤ} {entry : LogEntry C}
    (found : v.appendCalls[j]? = some call) (replied : call.reply = some reply)
    (current : call.args.term = (v.peer call.caller).currentTerm)
    (success : reply.success = true) (above : (v.peer call.caller).commitIndex < M)
    (entryFound : index (v.peer call.caller).log M = some entry)
    (own : entry.term = (v.peer call.caller).currentTerm)
    (many : n / 2 < 1 + (Finset.univ.filter fun i =>
      ((v.peer call.caller).matched call.serverTo call.args).matchIndex i ≥ M).card) :
    Agreed (v.trace ++ [.advanced call.caller (v.peer call.caller).currentTerm M
      (v.peer call.caller).log]) M := by
  have positive := h.nonneg call.caller
  have notes {i : Fin n}
      (reach : ((v.peer call.caller).matched call.serverTo call.args).matchIndex i ≥ M) :
      i ≠ call.caller ∧
        Acknowledged v.trace call.caller (v.peer call.caller).currentTerm M i := by
    rcases h.matched found replied current success i with low | ⟨other, ack⟩
    · omega
    · exact ⟨other, ack.lower reach⟩
  have led := (h.calls call (List.mem_of_getElem? found)).led
  rw [current] at led
  refine ⟨v.trace, [], call.caller, _, M, _, rfl, le_rfl, ⟨entry, entryFound, own⟩, led,
    Finset.univ.filter fun i =>
      ((v.peer call.caller).matched call.serverTo call.args).matchIndex i ≥ M, by omega, ?_, ?_⟩
  · intro self
    exact (notes (Finset.mem_filter.mp self).2).1 rfl
  · intro w member
    exact (notes (Finset.mem_filter.mp member).2).2

theorem Evidence.moved (h : Evidence v) (lead : Leadership v) {a : Action n C} {v' : View n C}
    (move : Moved v a v') : Evidence v' := by
  cases move with
  | quiet => exact h
  | kickOff s last lastFound =>
    have bumped := h.setKept lead (s := s) (p := (v.peer s).stand s) (h.rooted s) (h.nonneg s)
      (h.commits s) (Nat.le_succ _) rfl
    exact { bumped.record (by simp) (by simp) with }
  | refuse x k s e =>
    have raised := h.stepUp lead s e.args.term
    exact { raised with }
  | grant x k s e =>
    have voted := h.setKept lead (s := s) (p := (v.peer s).grant e.args)
      (by simpa [Peer.grant] using h.rooted s) (by simpa [Peer.grant] using h.nonneg s)
      (by simpa [Peer.grant] using h.commits s) (by simp [Peer.grant]) (by simp [Peer.grant])
    exact { voted.record (by simp) (by simp) with }
  | voteUnsent x k s e reply t =>
    have raised := h.stepUp lead x t
    exact { raised with }
  | voteSent => exact { h with }
  | receive => exact { h with }
  | collect => exact { h with }
  | elect x k e found standing many => exact { h.elect x with }
  | beat s j sent leading built =>
    refine h.setCalls fun call member => ?_
    refine (List.mem_append.mp member).imp_right fun new => ?_
    obtain ⟨request, inSent, rfl⟩ := List.mem_map.mp new
    obtain ⟨apart, args⟩ := broadcast_mem built inSent
    obtain ⟨prev, -, same⟩ := Option.map_eq_some_iff.mp args
    rw [← same]
    exact
      { leader := rfl
        apart := apart
        led := lead.recorded s leading
        commit := h.commits s
        answered := fun _ replied => absurd replied.symm (Option.some_ne_none _) }
  | encode j call cell found unanswered =>
    have traced := h.calls call (List.mem_of_getElem? found)
    exact h.setCall { traced with
      answered := fun _ replied =>
        absurd (unanswered.symm.trans replied).symm (Option.some_ne_none _) }
  | appendStale j call found =>
    exact h.setCall ((h.calls call (List.mem_of_getElem? found)).reply (by simp))
  | appendRefuse j call reply found unanswered current refusal =>
    have raised := h.stepUp lead call.serverTo call.args.term
    refine raised.setCall ((h.calls call (List.mem_of_getElem? found)).reply fun success => ?_)
    rcases refusal with ⟨-, -, rfl⟩ | ⟨prev, -, -, rfl⟩ <;> simp at success
  | appendAccept j call prev found unanswered current prevFound matched =>
    have traced := h.calls call (List.mem_of_getElem? found)
    have old := h.nonneg call.serverTo
    have nonempty := mergeEntries_ne_nil prevFound
    have positive := List.length_pos_iff.mpr nonempty
    have merged := h.setKept lead (s := call.serverTo)
      (p := (v.peer call.serverTo).accepted call.args) (by simpa [Peer.accepted] using nonempty)
      (by simp only [Peer.accepted]; split <;> omega)
      (by
        simp only [Peer.accepted]
        split
        · exact traced.commit.lower (by omega)
        · exact h.commits call.serverTo)
      (by simp [Peer.accepted]) (by simp [Peer.accepted])
    refine (merged.record (by simp) (by simp)).setCall
      ((traced.mono (List.prefix_append _ _)).reply fun _ => ?_)
    simp
  | replyIgnored j => exact h.dropCall j
  | replyMatched j call reply found replied current success =>
    have kept := h.setPeer (s := call.caller)
      (p := (v.peer call.caller).matched call.serverTo call.args) (h.rooted _) (h.nonneg _)
      (h.commits _) (fun _ i _ => h.matched found replied current success i)
    exact kept.dropCall j
  | replyAdvanced j call reply M entry found replied current success above entryFound own many =>
    have agreed := h.agreed found replied current success above entryFound own many
    have old := h.nonneg call.caller
    have recorded : Evidence (v.record (.advanced call.caller (v.peer call.caller).currentTerm M
      (v.peer call.caller).log)) := h.record (by simp) (by simp)
    have kept := recorded.setPeer (s := call.caller)
      (p := { (v.peer call.caller).matched call.serverTo call.args with commitIndex := M })
      (h.rooted _) (by simp only; omega) (.inr agreed)
      (fun _ i _ => (h.matched found replied current success i).mono (List.prefix_append _ _))
    exact kept.dropCall j
  | replyRaised j call t =>
    exact (h.stepUp lead call.caller t).dropCall j
  | replyConflict j call reply =>
    have kept := h.setKept lead (s := call.caller)
      (p := (v.peer call.caller).retry call.serverTo reply) (h.rooted _) (h.nonneg _)
      (h.commits _) le_rfl rfl
    exact kept.dropCall j
  | apply s entry behind =>
    have kept := h.setKept lead (s := s)
      (p := { v.peer s with lastApplied := (v.peer s).lastApplied + 1 }) (h.rooted s)
      (h.nonneg s) (h.commits s) le_rfl rfl
    refine kept.record (by simp) fun _ msg same => ?_
    injection same with _ same
    subst same
    exact (h.commits s).lower behind
  | start s command =>
    have kept := h.setKept lead (s := s) (p := (v.peer s).appendCommand command)
      (by simp [Peer.appendCommand]) (h.nonneg s) (h.commits s) le_rfl rfl
    exact kept.record (by simp) (by simp)
  | allocate s room =>
    exact h.setKept lead (h.rooted s) (h.nonneg s) (h.commits s) le_rfl rfl
  | kill s =>
    exact h.setKept lead (s := s) (p := { v.peer s with state := .dead }) (h.rooted s)
      (h.nonneg s) (h.commits s) le_rfl rfl

end Keep

theorem Evidence.init [Inhabited C] : Evidence (view (RaftCluster.init : Cluster n C)) where
  rooted _ := List.cons_ne_nil _ _
  nonneg _ := le_rfl
  commits _ := .inl le_rfl
  noted _ _ _ found := absurd found List.not_mem_nil
  calls _ member := absurd member List.not_mem_nil
  applied _ _ found := absurd found List.not_mem_nil

theorem reaches_evidence [Inhabited C] {ok : Cluster n C → Action n C → Prop} {c : Cluster n C}
    (run : Reaches ok c) : Evidence (view c) := by
  have both : (Ballots (view c) ∧ Leadership (view c)) ∧ Evidence (view c) := by
    refine run.invariant (fun c => (Ballots (view c) ∧ Leadership (view c)) ∧ Evidence (view c))
      ?_ ⟨⟨.init, .init⟩, .init⟩
    rintro c c' a ⟨⟨ballots, lead⟩, evidence⟩ - taken
    have move := step_moved taken
    exact ⟨⟨ballots.moved move, lead.moved ballots move⟩, evidence.moved lead move⟩
  exact both.2

/-- Every index that some peer has committed or applied goes back to a leader
that advanced to it, or beyond it, at an entry of its own term, after half of
the other peers had each acknowledged that much to that leader in that term. -/
theorem commit_agreed [Inhabited C] {c : Cluster n C} (run : Reaches free c) {i : ℤ}
    (positive : 1 ≤ i) {s : Fin n}
    (reached : i ≤ (c.raft s).commitIndex ∨ ∃ command, .applied s ⟨true, command, i⟩ ∈ c.trace) :
    ∃ pre post l T N log, c.trace = pre ++ .advanced l T N log :: post ∧ i ≤ N ∧
      (∃ entry, index log N = some entry ∧ entry.term = T) ∧
      (∃ opening, .becameLeader l T opening ∈ pre) ∧
      ∃ S : Finset (Fin n), n / 2 ≤ S.card ∧ l ∉ S ∧ ∀ w ∈ S, ∃ args, .answered w args ∈ pre ∧
        args.leaderID = l ∧ args.term = T ∧ N ≤ args.prevLogIndex + args.entries.length := by
  have evidence := reaches_evidence run
  have backed : Backed c.trace i := by
    rcases reached with committed | ⟨command, applied⟩
    · exact (evidence.commits s).lower committed
    · exact evidence.applied s _ applied
  exact backed.resolve_left (by omega)

theorem commit_agreed_two_peers : ∃ c : Cluster 2 ℕ, Reaches free c ∧
    1 ≤ (c.raft 1).commitIndex ∧ Agreed c.trace 1 := by
  obtain ⟨c, run, commits⟩ := exec_test step free (RaftCluster.init : Cluster 2 ℕ)
    (List.flatten [timeout 1, poll 1 0 0, tally 1 0, [.start 1 7], beat 1 0, encodes 0 1,
      [.appendEntries 0, .handleAppendEntries 0]])
    (fun c => 1 ≤ (c.raft 1).commitIndex) (by decide)
  have committed := of_decide_eq_true commits
  exact ⟨c, run, committed, commit_agreed run le_rfl (.inl committed)⟩

end DistributedLabs.RaftCommits
