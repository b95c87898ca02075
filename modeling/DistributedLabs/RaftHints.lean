import DistributedLabs.RaftRoots

/-! The hints of a refusal. The scan of `AppendEntries` leaves `ConflictIndex`
at zero if it meets no other term; it always meets the sentinel, because no
other entry has term zero and a request that asks for the sentinel is never
refused. So a leader's next indices stay positive. -/

namespace DistributedLabs.RaftHints
open GuardedRuns RaftPeer RaftCluster RaftMoves RaftRoots

variable {n : ℕ} {C : Type}

/-- Hints that a leader can follow. -/
structure Hinted (args : AppendEntriesArgs n C) (reply : AppendEntriesReply) : Prop where
  term : reply.conflictTerm = -1 ∨ 1 ≤ reply.conflictTerm
  positive : 1 ≤ reply.conflictIndex
  inside : reply.conflictIndex ≤ args.prevLogIndex

structure Hints (v : View n C) : Prop where
  replies : ∀ call ∈ v.appendCalls, ∀ reply, call.reply = some reply → reply.success = false →
    reply.term = call.args.term → Hinted call.args reply
  next : ∀ s, (v.peer s).state = .leader → ∀ i, 1 ≤ (v.peer s).nextIndex i

theorem hinted_of_refusal {p : Peer n C} (log : RootedLog p.log)
    {args : AppendEntriesArgs n C} (request : RootedArgs args) {reply : AppendEntriesReply}
    (refusal : Refusal p args reply) : Hinted args reply := by
  cases refusal with
  | inl beyond =>
    have ⟨short, nonempty, same⟩ := beyond
    subst same
    have positive := List.length_pos_iff.mpr nonempty
    exact ⟨.inl rfl, by simp only; omega, short⟩
  | inr mismatch =>
    have inside := (Refusal.hint (.inr mismatch)).2
    have ⟨prev, found, differs, same⟩ := mismatch
    subst same
    have ⟨nonneg, found⟩ := index_eq_some.mp found
    -- the sentinel is asked for with its own term, so the entry refused is another one
    have position : args.prevLogIndex.toNat ≠ 0 := by
      intro zero
      rw [(log.term_eq_zero found).mpr zero] at differs
      exact differs (request.sentinel.mpr (by omega)).symm
    have term : prev.term ≠ 0 := (log.term_eq_zero found).not.mpr position
    refine ⟨.inr (by simp only; omega), conflictScan_pos ?_ _, inside⟩
    rw [log.root]
    exact fun same => term (Option.some.inj same).symm

section Keep

variable {v : View n C}

theorem Hints.setPeer (h : Hints v) {s : Fin n} {p : Peer n C}
    (next : p.state = .leader → ∀ i, 1 ≤ p.nextIndex i) : Hints (v.setPeer s p) where
  replies := h.replies
  next := View.forall_setPeer (P := fun _ p => p.state = .leader → ∀ i, 1 ≤ p.nextIndex i)
    h.next next

theorem Hints.stepUp (h : Hints v) (s : Fin n) (t : ℕ) :
    Hints (v.setPeer s ((v.peer s).stepUp t)) := by
  refine h.setPeer fun leading => ?_
  have same := stepUp_state (by decide) leading
  rw [same] at leading ⊢
  exact h.next s leading

theorem Hints.setCalls (h : Hints v) {calls : List (AppendCall n C)}
    (hinted : ∀ call ∈ calls, call ∈ v.appendCalls ∨ ∀ reply, call.reply = some reply →
      reply.success = false → reply.term = call.args.term → Hinted call.args reply) :
    Hints { v with appendCalls := calls } :=
  { h with replies := fun call member => (hinted call member).elim (h.replies call) id }

theorem Hints.dropCall (h : Hints v) (j : ℕ) : Hints (v.dropCall j) :=
  h.setCalls fun _ member => .inl (List.mem_of_mem_eraseIdx member)

theorem Hints.setReply (h : Hints v) {j : ℕ} {call : AppendCall n C} {reply : AppendEntriesReply}
    (hinted : reply.success = false → reply.term = call.args.term → Hinted call.args reply) :
    Hints (v.setCall j { call with reply := some reply }) := by
  refine h.setCalls fun other member => (List.mem_or_eq_of_mem_set member).imp_right fun new => ?_
  subst new
  intro given same
  rw [← Option.some.inj same]
  exact hinted

theorem update_pos {f : Fin n → ℤ} (positive : ∀ i, 1 ≤ f i) (s : Fin n) {x : ℤ} (new : 1 ≤ x)
    (i : Fin n) : 1 ≤ Function.update f s x i := by
  by_cases same : i = s
  · simpa [same] using new
  · simpa [same] using positive i

theorem Hints.moved (h : Hints v) (known : Roots v) {a : Action n C} {v' : View n C}
    (move : Moved v a v') : Hints v' := by
  cases move with
  | quiet => exact h
  | kickOff s => exact { h.setPeer (s := s) (p := (v.peer s).stand s) (by simp [Peer.stand]) with }
  | refuse x k s e => exact { h.stepUp s e.args.term with }
  | grant x k s e =>
    exact { h.setPeer (s := s) (p := (v.peer s).grant e.args) (by simp [Peer.grant]) with }
  | voteUnsent x k s e reply t => exact { h.stepUp x t with }
  | voteSent => exact { h with }
  | receive => exact { h with }
  | collect => exact { h with }
  | elect x =>
    have positive := List.length_pos_iff.mpr (known.peers x).log.ne_nil
    exact { h.setPeer (s := x) (p := (v.peer x).lead) (fun _ _ => by
      simp only [Peer.lead]
      omega) with }
  | beat s j sent leading built =>
    refine h.setCalls fun call member => (List.mem_append.mp member).imp_right fun new => ?_
    obtain ⟨request, inSent, same⟩ := List.mem_map.mp new
    subst same
    exact fun _ replied => absurd replied.symm (Option.some_ne_none _)
  | encode j call cell found unanswered =>
    refine h.setCalls fun other member => (List.mem_or_eq_of_mem_set member).imp_right fun new => ?_
    subst new
    exact fun _ replied => absurd (unanswered.symm.trans replied).symm (Option.some_ne_none _)
  | appendStale j call found unanswered stale =>
    exact h.setReply fun _ same => absurd same stale.ne'
  | appendRefuse j call reply found unanswered current refusal =>
    have request := known.calls call (List.mem_of_getElem? found)
    exact (h.stepUp _ _).setReply fun _ _ => hinted_of_refusal (known.peers _).log request refusal
  | appendAccept j call prev found unanswered current =>
    have merged := h.setPeer (s := call.serverTo)
      (p := (v.peer call.serverTo).accepted call.args) (fun leading => by
        have same := stepUp_state (by decide) leading
        have kept := h.next call.serverTo (by rw [← same]; exact leading)
        simpa [Peer.accepted] using kept)
    refine { merged.setReply (j := j) ?_ with }
    simp
  | replyIgnored j => exact h.dropCall j
  | replyMatched j call reply found =>
    have inside := (known.calls call (List.mem_of_getElem? found)).inside
    have kept := h.setPeer (s := call.caller)
      (p := (v.peer call.caller).matched call.serverTo call.args)
      (fun leading => update_pos (h.next _ leading) _ (by omega))
    exact kept.dropCall j
  | replyAdvanced j call reply M entry found =>
    have inside := (known.calls call (List.mem_of_getElem? found)).inside
    have kept := h.setPeer (s := call.caller)
      (p := { (v.peer call.caller).matched call.serverTo call.args with commitIndex := M })
      (fun leading => update_pos (h.next _ leading) _ (by omega))
    exact { kept.dropCall j with }
  | replyRaised j call t => exact (h.stepUp call.caller t).dropCall j
  | replyConflict j call reply found replied current failure term leading =>
    have hinted := h.replies call (List.mem_of_getElem? found) reply replied failure
      (term.trans current.symm)
    have kept := h.setPeer (s := call.caller)
      (p := (v.peer call.caller).retry call.serverTo reply)
      (fun leading => update_pos (h.next _ leading) _ (nextAfterConflict_pos hinted.positive))
    exact kept.dropCall j
  | apply s =>
    have kept := h.setPeer (s := s)
      (p := { v.peer s with lastApplied := (v.peer s).lastApplied + 1 }) (h.next s)
    exact { kept with }
  | start s command =>
    have kept := h.setPeer (s := s) (p := (v.peer s).appendCommand command) (h.next s)
    exact { kept with }
  | allocate s room => exact h.setPeer (h.next s)
  | kill s => exact h.setPeer (s := s) (p := { v.peer s with state := .dead }) (by simp)

end Keep

theorem Hints.init [Inhabited C] : Hints (view (RaftCluster.init : Cluster n C)) where
  replies _ member := absurd member List.not_mem_nil
  next _ := by simp [view, RaftCluster.init, make]

theorem reaches_hints [Inhabited C] {ok : Cluster n C → Action n C → Prop} {c : Cluster n C}
    (run : Reaches ok c) : Hints (view c) :=
  run.invariant_under (fun c => Roots (view c)) (fun c => Hints (view c))
    (fun known _ taken => known.moved (step_moved taken))
    (fun known _ h _ taken => h.moved known (step_moved taken)) .init .init

/-- Every log opens with the only entry of term zero, every request asks for an
entry inside its leader's log, every refusal carries usable hints, and so no
leader ever turns to a negative index or takes the branch without a term. -/
theorem hints_wellFormed [Inhabited C] {c : Cluster n C} (run : Reaches free c) :
    (∀ s, (c.raft s).log[0]?.map LogEntry.term = some 0 ∧
      ∀ i e, 1 ≤ i → (c.raft s).log[i]? = some e → 1 ≤ e.term) ∧
    (∀ call ∈ c.appendCalls, (∀ e ∈ call.args.entries, 1 ≤ e.term) ∧
      0 ≤ call.args.prevLogIndex ∧ (call.args.prevLogTerm = 0 ↔ call.args.prevLogIndex = 0)) ∧
    (∀ call ∈ c.appendCalls, ∀ reply, call.reply = some reply → reply.success = false →
      reply.term = call.args.term →
        (reply.conflictTerm = -1 ∨ 1 ≤ reply.conflictTerm) ∧
        1 ≤ reply.conflictIndex ∧ reply.conflictIndex ≤ call.args.prevLogIndex) ∧
    (∀ s, (c.raft s).state = .leader → ∀ i, 1 ≤ (c.raft s).nextIndex i) ∧
    (∀ call ∈ c.appendCalls, ∀ reply, call.reply = some reply → reply.success = false →
      call.args.term = (c.raft call.caller).currentTerm →
        reply.term = (c.raft call.caller).currentTerm → reply.conflictTerm ≠ 0) := by
  have known := reaches_roots run
  have hints := reaches_hints run
  refine ⟨fun s => ⟨(known.peers s).log.root, fun i e positive found => ?_⟩,
    fun call member => ?_, fun call member reply replied refused own => ?_, hints.next,
    fun call member reply replied refused current own => ?_⟩
  · exact (known.peers s).log.positive e (mem_drop_one found (by omega))
  · have request := known.calls call member
    exact ⟨request.positive, request.inside, request.sentinel⟩
  · have hinted := hints.replies call member reply replied refused own
    exact ⟨hinted.term, hinted.positive, hinted.inside⟩
  · have hinted := hints.replies call member reply replied refused (own.trans current.symm)
    have term := hinted.term
    omega

/-- Server 0 leads a second time with an entry that server 1 has not seen. -/
theorem hints_wellFormed_two_peers : ∃ c : Cluster 2 ℕ, Reaches free c ∧
    ∃ call ∈ c.appendCalls, call.reply = some ⟨2, false, 1, -1⟩ ∧ call.args.term = 2 ∧
      1 ≤ call.args.prevLogIndex := by
  obtain ⟨c, run, refused⟩ := exec_test step free (RaftCluster.init : Cluster 2 ℕ)
    (List.flatten [[.tickerTest 0, .tickerCheck 0 true], timeout 0, poll 0 0 1, tally 0 0,
      [.start 0 7, .kickOffElection 0], poll 0 1 1, tally 0 1, beat 0 1, [.appendEntries 0]])
    (fun c => ∃ call ∈ c.appendCalls, call.reply = some ⟨2, false, 1, -1⟩ ∧ call.args.term = 2)
    (by decide)
  have ⟨call, member, replied, term⟩ := of_decide_eq_true refused
  have hint := (hints_wellFormed run).2.2.1 call member _ replied rfl term.symm
  exact ⟨c, run, call, member, replied, term, hint.2.1.trans hint.2.2⟩

end DistributedLabs.RaftHints
