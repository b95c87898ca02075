import DistributedLabs.KvNetwork
import DistributedLabs.KvChecker

/-! The clerks and the server on the network behave as the model without a network in
KvServer says: an attempt there is lost before or after its handler ran, or delivered.
The handler of a pending `Call` has run when the reply is there. -/

namespace DistributedLabs.KvRefinement
open GuardedRuns LabRpc RpcCalls RpcReturns KvNetwork
open KvServer (KVServer Request System handle)
open KvExactlyOnce (Tracked reaches_tracked tracked_init)

variable {E : Type}

def replyOf (calls : List (LabRpc.Call E ℕ KVServer Args Args String)) (pending : Option ℕ) :
    Option String := do
  let c ← calls[← pending]?
  (outcome c.handler).bind Prod.snd

def absCall (calls : List (LabRpc.Call E ℕ KVServer Args Args String)) (calling : Calling) :
    KvServer.Call :=
  ⟨calling.ticket, calling.request, replyOf calls calling.pending⟩

def absClerk (calls : List (LabRpc.Call E ℕ KVServer Args Args String)) :
    Option (Clerk E) → KvServer.Clerk
  | none => ⟨0, none⟩
  | some ck => ⟨ck.seqNum, ck.calling.map (absCall calls)⟩

def entryOf (op : KvServer.Operation) : Entry := ⟨op.clientId, op.request, op.call, op.response⟩

/-- The state of the model without a network. -/
structure Abs (cfg : Config E) (sys : System) : Prop where
  server : cfg.net.objects = [sys.server]
  clerks : ∀ id, sys.clerks id = absClerk cfg.net.calls (cfg.clerks id)
  clock : sys.clock = cfg.clock
  history : sys.history.map entryOf = cfg.history

/-- On a reliable network no reply is lost. -/
def allowed (unreliable : Bool) (_ : System) : KvServer.Action → Prop
  | .loseReply _ => unreliable = true
  | _ => True

section Simulation

variable {cfg cfg' : Config E} {sys : System} {unreliable : Bool}

theorem Abs.calling (abs : Abs cfg sys) {id : ℤ} {ck : Clerk E} {calling : Calling}
    (working : Working cfg.clerks id ck calling) :
    sys.clerks id = ⟨ck.seqNum, some (absCall cfg.net.calls calling)⟩ := by
  rw [abs.clerks id, working.1, absClerk, working.2, Option.map_some]

theorem Abs.ticket (abs : Abs cfg sys) {t : ℕ} {entry : Entry}
    (found : cfg.history[t]? = some entry) :
    ∃ op, sys.history[t]? = some op ∧ entryOf op = entry := by
  rw [← abs.history, List.getElem?_map] at found
  exact Option.map_eq_some_iff.mp found

theorem Abs.length (abs : Abs cfg sys) : sys.history.length = cfg.history.length := by
  rw [← abs.history, List.length_map]

theorem clerks_update {clerks : ℤ → Option (Clerk E)} {id : ℤ} {new : Option (Clerk E)}
    {calls : List (LabRpc.Call E ℕ KVServer Args Args String)} {abs : ℤ → KvServer.Clerk}
    {absNew : KvServer.Clerk} (own : absNew = absClerk calls new)
    (others : ∀ id', id' ≠ id → abs id' = absClerk calls (clerks id')) (id' : ℤ) :
    Function.update abs id absNew id' = absClerk calls (Function.update clerks id new id') := by
  rcases eq_or_ne id' id with rfl | apart
  · rw [Function.update_self, Function.update_self, own]
  · rw [Function.update_of_ne apart, Function.update_of_ne apart, others id' apart]

theorem Abs.makeClient (abs : Abs cfg sys) {id : ℤ} {ck : Clerk E}
    {net : Network E ℕ KVServer Args Args String} {ends : ℤ → Option E}
    (absent : cfg.clerks id = none) (seqNum : ck.seqNum = 0) (idle : ck.calling = none)
    (objects : net.objects = cfg.net.objects) (calls : net.calls = cfg.net.calls) :
    Abs { cfg with net := net, clerks := Function.update cfg.clerks id (some ck), ends := ends }
      sys where
  server := objects.trans abs.server
  clerks id' := by
    rw [← Function.update_eq_self id sys.clerks]
    refine clerks_update ?_ (fun id' _ => calls ▸ abs.clerks id') id'
    rw [abs.clerks id, absent, absClerk, absClerk, seqNum, idle, Option.map_none]
  clock := abs.clock
  history := abs.history

theorem Abs.congr (abs : Abs cfg sys) {net : Network E ℕ KVServer Args Args String}
    {ends : ℤ → Option E} (objects : net.objects = cfg.net.objects)
    (calls : net.calls = cfg.net.calls) : Abs { cfg with net := net, ends := ends } sys where
  server := objects.trans abs.server
  clerks := by simpa only [calls] using abs.clerks
  clock := abs.clock
  history := abs.history

theorem Abs.invoke (abs : Abs cfg sys) {id : ℤ} {ck : Clerk E} {request : Request}
    (found : cfg.clerks id = some ck) (idle : ck.calling = none) :
    ∃ sys', KvServer.step sys (.invoke id request) = some sys' ∧ Abs { cfg with
      clerks := Function.update cfg.clerks id (some { ck with
        seqNum := ck.seqNum + 1, calling := some ⟨cfg.history.length, request, none⟩ })
      clock := cfg.clock + 1
      history := cfg.history ++ [⟨id, request, cfg.clock, none⟩] } sys' := by
  have clerk : sys.clerks id = ⟨ck.seqNum, none⟩ := by
    rw [abs.clerks id, found, absClerk, idle, Option.map_none]
  simp only [KvServer.step, KvServer.invoke, clerk, if_true, Option.some.injEq, exists_eq_left']
  exact
  { server := abs.server
    clerks := clerks_update (by rw [abs.length]; rfl) fun id' _ => abs.clerks id'
    clock := by rw [abs.clock]
    history := by rw [List.map_append, abs.history, ← abs.clock]; rfl }

theorem replyOf_some {calls : List (LabRpc.Call E ℕ KVServer Args Args String)} {k : ℕ}
    {c : LabRpc.Call E ℕ KVServer Args Args String} (here : calls[k]? = some c) :
    replyOf calls (some k) = (outcome c.handler).bind Prod.snd := by
  simp only [replyOf, Option.bind_eq_bind, Option.bind_some, here]

theorem replyOf_append {calls : List (LabRpc.Call E ℕ KVServer Args Args String)} {k : ℕ}
    (bound : k < calls.length) (c : LabRpc.Call E ℕ KVServer Args Args String) :
    replyOf (calls ++ [c]) (some k) = replyOf calls (some k) := by
  simp only [replyOf, Option.bind_eq_bind, Option.bind_some, List.getElem?_append_left bound]

theorem absClerk_congr {calls calls' : List (LabRpc.Call E ℕ KVServer Args Args String)}
    {clerks : ℤ → Option (Clerk E)} {id : ℤ}
    (same : ∀ ck calling, Working clerks id ck calling →
      replyOf calls' calling.pending = replyOf calls calling.pending) :
    absClerk calls (clerks id) = absClerk calls' (clerks id) := by
  cases found : clerks id with
  | none => rfl
  | some ck =>
    cases calls' : ck.calling with
    | none => rw [absClerk, absClerk, calls', Option.map_none, Option.map_none]
    | some calling =>
      rw [absClerk, absClerk, calls', Option.map_some, Option.map_some, absCall, absCall,
        same ck calling ⟨found, calls'⟩]

theorem splitMethod_get : splitMethod "KVServer.Get" = some ("KVServer", "Get") := by decide

theorem splitMethod_put : splitMethod "KVServer.Put" = some ("KVServer", "Put") := by decide

theorem splitMethod_append : splitMethod "KVServer.Append" = some ("KVServer", "Append") := by
  decide

theorem lookup_message {rs : Server KVServer Args Args String}
    (services : rs.services = Function.update (fun _ => none) "KVServer" (some kvService))
    {endname : E} {id seqNum : ℤ} {request : Request} {rcvr : ℕ}
    {method : Method KVServer Args Args String}
    (known : rs.lookup (message endname id seqNum request).svcMeth = some (rcvr, method)) :
    rcvr = 0 ∧ ∃ body, method = Method.atomic body ∧
      ∀ kv, body kv (message endname id seqNum request).args =
        ((handle kv id seqNum request).server, (handle kv id seqNum request).value) := by
  cases request with
  | get key =>
    simp only [message, Server.lookup, splitMethod_get, services] at known
    cases known
    exact ⟨rfl, _, rfl, fun _ => rfl⟩
  | put key value =>
    simp only [message, Server.lookup, splitMethod_put, services] at known
    cases known
    exact ⟨rfl, _, rfl, fun _ => rfl⟩
  | append key value =>
    simp only [message, Server.lookup, splitMethod_append, services] at known
    cases known
    exact ⟨rfl, _, rfl, fun _ => rfl⟩

theorem replyOf_set_ne {calls : List (LabRpc.Call E ℕ KVServer Args Args String)} {k j : ℕ}
    (c' : LabRpc.Call E ℕ KVServer Args Args String) (apart : k ≠ j) :
    replyOf (calls.set k c') (some j) = replyOf calls (some j) := by
  simp only [replyOf, Option.bind_eq_bind, Option.bind_some, List.getElem?_set_ne apart]

theorem replyOf_set_self {calls : List (LabRpc.Call E ℕ KVServer Args Args String)} {k : ℕ}
    {c : LabRpc.Call E ℕ KVServer Args Args String} (here : calls[k]? = some c)
    (c' : LabRpc.Call E ℕ KVServer Args Args String) :
    replyOf (calls.set k c') (some k) = (outcome c'.handler).bind Prod.snd :=
  replyOf_some (List.getElem?_set_self (List.getElem?_eq_some_iff.mp here).1)

theorem replyOf_set {calls : List (LabRpc.Call E ℕ KVServer Args Args String)} {k : ℕ}
    {c c' : LabRpc.Call E ℕ KVServer Args Args String} (here : calls[k]? = some c)
    (same : (outcome c'.handler).bind Prod.snd = (outcome c.handler).bind Prod.snd)
    (pending : Option ℕ) :
    replyOf (calls.set k c') pending = replyOf calls pending := by
  cases pending with
  | none => rfl
  | some j =>
    by_cases apart : k = j
    · subst apart
      rw [replyOf_set_self here, same, replyOf_some here]
    · exact replyOf_set_ne c' apart

theorem advanced_silent {rn next : Network E ℕ KVServer Args Args String} {k : ℕ} {m : Move}
    {c c' : LabRpc.Call E ℕ KVServer Args Args String}
    (together : Together c.client c.process c.handler) (adv : Advanced rn k m c next c')
    (other : m ≠ .run) : ticks m = 0 ∧ next.objects = rn.objects ∧
      (outcome c'.handler).bind Prod.snd = (outcome c.handler).bind Prod.snd := by
  cases adv with
  | goOn | ends => exact absurd rfl other
  | begin =>
    cases together
    exact ⟨rfl, rfl, rfl⟩
  | _ => exact ⟨rfl, rfl, rfl⟩

section Wired

variable [DecidableEq E] [ToString E]

theorem Abs.send (abs : Abs cfg sys) (wired : Wired unreliable cfg) {id : ℤ} {ck : Clerk E}
    {calling : Calling} (working : Working cfg.clerks id ck calling)
    (ready : calling.pending = none) : Abs { cfg with
      net := { cfg.net with calls := cfg.net.calls ++
        [⟨message ck.server id ck.seqNum calling.request, .sending, .absent, .absent⟩] }
      clerks := Function.update cfg.clerks id (some { ck with
        calling := some { calling with pending := some cfg.net.calls.length } }) } sys where
  server := abs.server
  clerks id' := by
    rw [← Function.update_eq_self id sys.clerks]
    refine clerks_update ?_ (fun id' _ => ?_) id'
    · rw [abs.calling working, absClerk, Option.map_some, absCall, absCall, ready]
      simp [replyOf, outcome]
    · rw [abs.clerks id']
      apply absClerk_congr
      intro ck' calling' working'
      cases pending : calling'.pending with
      | none => rfl
      | some k =>
        obtain ⟨c, here, -⟩ := wired.owned id' ck' calling' k working' pending
        exact replyOf_append (List.getElem?_eq_some_iff.mp here).1 _
  clock := abs.clock
  history := abs.history

theorem Abs.lost (abs : Abs cfg sys) (wired : Wired unreliable cfg) {id : ℤ} {ck : Clerk E}
    {calling : Calling} {k : ℕ} {c : LabRpc.Call E ℕ KVServer Args Args String}
    (working : Working cfg.clerks id ck calling) (pending : calling.pending = some k)
    (here : cfg.net.calls[k]? = some c) (returned : c.client = .returned none) :
    ∃ a sys', allowed unreliable sys a ∧ KvServer.step sys a = some sys' ∧ Abs { cfg with
      clerks := Function.update cfg.clerks id (some { ck with
        calling := some { calling with pending := none } })
      clock := cfg.clock + 1 } sys' := by
  have clerk := abs.calling working
  have reply : replyOf cfg.net.calls calling.pending = (outcome c.handler).bind Prod.snd := by
    rw [pending, replyOf_some here]
  rw [absCall, reply] at clerk
  rcases returned_idle wired.quietly here returned with absent | ⟨server, value, finished⟩
  · rw [absent] at clerk
    refine ⟨.loseRequest id, { sys with clock := sys.clock + 1 }, trivial, ?_, ?_⟩
    · simp only [KvServer.step, KvServer.loseRequest, clerk, Option.bind_eq_bind, Option.bind_some]
      exact if_pos rfl
    · refine ⟨abs.server, fun id' => ?_, by rw [abs.clock], abs.history⟩
      rw [← Function.update_eq_self id sys.clerks]
      exact clerks_update clerk (fun id' _ => abs.clerks id') id'
  · rw [finished] at clerk
    refine ⟨.loseReply id, { sys with
      clerks := Function.update sys.clerks id
        ⟨ck.seqNum, some ⟨calling.ticket, calling.request, none⟩⟩
      clock := sys.clock + 1 }, ?_, ?_, ?_⟩
    · cases unreliable with
      | false => cases finished.symm.trans ((wired.relied.certain k c here).failed (.inr returned))
      | true => rfl
    · simp only [KvServer.step, KvServer.loseReply, clerk, Option.bind_eq_bind, Option.bind_some]
      exact if_neg (Option.some_ne_none value)
    · exact ⟨abs.server, clerks_update rfl fun id' _ => abs.clerks id', by rw [abs.clock],
        abs.history⟩

theorem Abs.answered (abs : Abs cfg sys) (wired : Wired unreliable cfg) {id : ℤ} {ck : Clerk E}
    {calling : Calling} {k : ℕ} {c : LabRpc.Call E ℕ KVServer Args Args String} {value : String}
    {entry : Entry} (working : Working cfg.clerks id ck calling)
    (pending : calling.pending = some k) (here : cfg.net.calls[k]? = some c)
    (returned : c.client = .returned (some value))
    (ticket : cfg.history[calling.ticket]? = some entry) :
    ∃ sys', KvServer.step sys (.deliver id) = some sys' ∧ Abs { cfg with
      clerks := Function.update cfg.clerks id (some { ck with calling := none })
      clock := cfg.clock + 1
      history := cfg.history.set calling.ticket
        { entry with response := some (value, cfg.clock) } } sys' := by
  have clerk := abs.calling working
  have reply : replyOf cfg.net.calls calling.pending = some value := by
    rw [pending, replyOf_some here]
    have together := (wired.sound.traced k c here).together
    rw [returned] at together
    generalize c.process = process at together
    generalize c.handler = handler at together
    cases together with
    | returned => rfl
  rw [absCall, reply] at clerk
  obtain ⟨op, found, same⟩ := abs.ticket ticket
  simp only [KvServer.step, KvServer.deliver, clerk, Option.bind_eq_bind, Option.bind_some, found,
    Option.some.injEq, exists_eq_left']
  exact
  { server := abs.server
    clerks := clerks_update rfl fun id' _ => abs.clerks id'
    clock := by rw [abs.clock]
    history := by rw [List.map_set, abs.history, ← same, abs.clock]; rfl }

omit [ToString E] [DecidableEq E] in
theorem found_services {net : Network E ℕ KVServer Args Args String}
    {services : String → Option (Service KVServer Args Args String)}
    (serving : net.heap.map Server.services = [services]) {server rcvr : ℕ} {svcMeth : String}
    {method : Method KVServer Args Args String}
    (found : Found net.heap server svcMeth rcvr method) :
    ∃ rs : Server KVServer Args Args String, rs.services = services ∧
      rs.lookup svcMeth = some (rcvr, method) := by
  obtain ⟨rs, here, known⟩ := found
  have member := List.mem_map_of_mem (f := Server.services) (List.mem_of_getElem? here)
  rw [serving] at member
  exact ⟨rs, List.mem_singleton.mp member, known⟩

theorem wired_handles (wired : Wired unreliable cfg) {k : ℕ} {req : ReqMsg E Args}
    {client : Client String} {process : Process ℕ String} {server rcvr : ℕ}
    {method : Method KVServer Args Args String} {vars : Args} {x x' : KVServer}
    {next : Args ⊕ String}
    (here : cfg.net.calls[k]? = some ⟨req, client, process, .running server rcvr method vars⟩)
    (result : method.resume x vars = some (x', next)) :
    ∃ id ck calling, Working cfg.clerks id ck calling ∧ calling.pending = some k ∧ rcvr = 0 ∧
      x' = (handle x id ck.seqNum calling.request).server ∧
      next = .inr (handle x id ck.seqNum calling.request).value := by
  have waits : ∀ reply, client ≠ .returned reply := by
    rintro reply rfl
    exact absurd (returned_idle wired.quietly here rfl) (not_idle nofun nofun)
  obtain ⟨id, ck, calling, working, pending⟩ := wired.owner k _ here waits
  obtain ⟨d, same, message⟩ := wired.owned id ck calling k working pending
  obtain rfl := Option.some.inj (here.symm.trans same)
  have traced := wired.sound.traced k _ here
  obtain ⟨rs, services, known⟩ :=
    found_services wired.serving (traced.methods server rcvr method rfl)
  have reached := traced.running server rcvr method vars rfl
  change req = _ at message
  subst message
  obtain ⟨receiver, body, rfl, handles⟩ := lookup_message services known
  obtain ⟨after, reply⟩ := reached.atomic result
  rw [handles] at after reply
  exact ⟨id, ck, calling, working, pending, receiver, after, reply⟩

theorem Abs.run (abs : Abs cfg sys) (wired : Wired unreliable cfg) (tracked : Tracked sys) {k : ℕ}
    {req : ReqMsg E Args} {client : Client String} {process : Process ℕ String} {server rcvr : ℕ}
    {method : Method KVServer Args Args String} {vars : Args} {x x' : KVServer} {reply : String}
    {executions : List (Execution Args String)}
    (here : cfg.net.calls[k]? = some ⟨req, client, process, .running server rcvr method vars⟩)
    (found : cfg.net.objects[rcvr]? = some x)
    (result : method.resume x vars = some (x', .inr reply)) :
    ∃ id sys', KvServer.step sys (.execute id) = some sys' ∧ Abs { cfg with
      net := { cfg.net with
        objects := cfg.net.objects.set rcvr x'
        calls := cfg.net.calls.set k ⟨req, client, process, .ran server reply⟩
        executions := executions }
      clock := cfg.clock + 1 } sys' := by
  obtain ⟨id, ck, calling, working, pending, rfl, rfl, replied⟩ := wired_handles wired here result
  obtain rfl := Sum.inr.inj replied
  rw [abs.server] at found
  obtain rfl := Option.some.inj found
  have clerk := abs.calling working
  have unanswered : replyOf cfg.net.calls calling.pending = none := by
    rw [pending, replyOf_some here]
    rfl
  rw [absCall, unanswered] at clerk
  obtain ⟨op, ticket, -⟩ := tracked.calling id _ (by rw [clerk]; rfl)
  refine ⟨id, ?_⟩
  simp only [KvServer.step, KvServer.execute, clerk, Option.bind_eq_bind, Option.bind_some, ticket,
    if_true, Option.some.injEq, exists_eq_left']
  exact
  { server := by rw [abs.server]; rfl
    clerks := by
      rw [← Function.update_eq_self id cfg.clerks, working.1]
      refine clerks_update ?_ fun id' apart => ?_
      · rw [absClerk, working.2, Option.map_some, absCall, pending, replyOf_set_self here]
        rfl
      · rw [abs.clerks id']
        apply absClerk_congr
        intro ck' calling' working'
        cases pending' : calling'.pending with
        | none => rfl
        | some j =>
          refine replyOf_set_ne _ ?_
          rintro rfl
          obtain ⟨d, same, own⟩ := wired.owned id' ck' calling' k working' pending'
          obtain ⟨d', same', own'⟩ := wired.owned id ck calling k working pending
          obtain rfl := Option.some.inj (same.symm.trans same')
          exact apart (message_client (own.symm.trans own'))
    clock := by rw [abs.clock]
    history := by
      obtain ⟨bound, rfl⟩ := List.getElem?_eq_some_iff.mp ticket
      rw [List.map_set]
      change (sys.history.map entryOf).set _ (entryOf sys.history[calling.ticket]) = _
      rw [← List.map_set, List.set_getElem_self, abs.history] }

theorem Abs.moved (abs : Abs cfg sys) (wired : Wired unreliable cfg) (tracked : Tracked sys)
    {a : KvNetwork.Action E} (moved : Moved cfg a cfg') :
    ∃ sys', Run KvServer.step (allowed unreliable) sys sys' ∧ Abs cfg' sys' := by
  cases moved with
  | makeClient absent new => exact ⟨sys, .refl, abs.makeClient absent rfl rfl rfl rfl⟩
  | deleteClient found old => exact ⟨sys, .refl, abs.congr rfl rfl⟩
  | invoke found idle =>
    obtain ⟨sys', taken, abs'⟩ := abs.invoke found idle
    exact ⟨sys', Run.refl.tail (a := .invoke _ _) trivial taken, abs'⟩
  | send working ready => exact ⟨sys, .refl, abs.send wired working ready⟩
  | lost working pending here returned =>
    obtain ⟨a, sys', fine, taken, abs'⟩ := abs.lost wired working pending here returned
    exact ⟨sys', Run.refl.tail fine taken, abs'⟩
  | answered working pending here returned ticket =>
    obtain ⟨sys', taken, abs'⟩ := abs.answered wired working pending here returned ticket
    exact ⟨sys', Run.refl.tail (a := .deliver _) trivial taken, abs'⟩
  | @move k m c next c' here moved =>
    have adv := advance_advanced moved
    by_cases runs : m = .run
    · subst runs
      cases adv with
      | goOn found result =>
        obtain ⟨_, _, _, -, -, -, -, next⟩ := wired_handles wired here result
        cases next
      | ends found result =>
        obtain ⟨id, sys', taken, abs'⟩ := abs.run wired tracked here found result
        exact ⟨sys', Run.refl.tail (a := .execute id) trivial taken, abs'⟩
    · obtain ⟨silent, objects, same⟩ :=
        advanced_silent (wired.sound.traced k c here).together adv runs
      refine ⟨sys, .refl, ?_⟩
      exact
      { server := objects.trans abs.server
        clerks := fun id => by
          rw [abs.clerks id]
          exact absClerk_congr fun ck calling _ => replyOf_set here same calling.pending
        clock := by rw [silent]; exact abs.clock
        history := abs.history }
  | cleanup running => exact ⟨sys, .refl, abs.congr rfl rfl⟩
  | stop closed => exact ⟨sys, .refl, abs.congr rfl rfl⟩

omit [DecidableEq E] [ToString E] in
theorem makeConfig_abs : Abs (makeConfig unreliable : Config E) KvServer.init where
  server := rfl
  clerks _ := rfl
  clock := rfl
  history := rfl

theorem Abs.follows (abs : Abs cfg sys) (wired : Wired unreliable cfg)
    (before : KvServer.Reaches (allowed unreliable) sys)
    (later : Run KvNetwork.step (fun cfg a => orderly cfg a = true) cfg cfg') :
    ∃ sys', Run KvServer.step (allowed unreliable) sys sys' ∧ Abs cfg' sys' := by
  refine later.invariant_under (Wired unreliable)
    (fun cfg => ∃ sys', Run KvServer.step (allowed unreliable) sys sys' ∧ Abs cfg sys')
    (fun h allowed taken => h.moved allowed (KvNetwork.step_moved taken)) ?_ wired
    ⟨sys, .refl, abs⟩
  rintro cfg cfg' a wired - ⟨sys', run, abs'⟩ - taken
  have tracked := reaches_tracked (before.trans run)
  obtain ⟨sys'', more, abs''⟩ := abs'.moved wired tracked (KvNetwork.step_moved taken)
  exact ⟨sys'', run.trans more, abs''⟩

/-- On the simulated network, however it delays and drops messages, the clerks and the
server do what the model without a network allows: their states and the history are those
of one of its runs, and whatever they do next continues that run. When the network is
reliable, no reply is lost in it. -/
theorem kv_refines (reached : KvNetwork.Reaches unreliable cfg) :
    ∃ sys, KvServer.Reaches (allowed unreliable) sys ∧ Abs cfg sys ∧
      ∀ cfg', Run KvNetwork.step (fun cfg a => orderly cfg a = true) cfg cfg' →
        ∃ sys', Run KvServer.step (allowed unreliable) sys sys' ∧ Abs cfg' sys' := by
  obtain ⟨sys, run, abs⟩ := makeConfig_abs.follows makeConfig_wired .refl reached
  exact ⟨sys, run, abs, fun cfg' later => abs.follows (reaches_wired reached) run later⟩

def onePass (k : ℕ) (lost : Bool) : List (KvNetwork.Action ℕ) :=
  [.accept, .read, .begin, .dispatch, .invoke, .run, .receive, .leave lost, .answer].map (.move k)

theorem kv_refines_lost : ∃ (cfg : Config ℕ) (sys : System), KvNetwork.Reaches true cfg ∧
    cfg.history = [⟨1, .append "x" "a", 0, some ("", 4)⟩] ∧
    KvServer.Reaches (allowed true) sys ∧ sys.history.map entryOf = cfg.history := by
  obtain ⟨cfg, reached, seen⟩ := exec_test KvNetwork.step (fun cfg a => orderly cfg a = true)
    (makeConfig true) ([.makeClient 1 0, .invoke 1 (.append "x" "a"), .send 1] ++ onePass 0 true ++
      [.receive 1, .send 1] ++ onePass 1 false ++ [.receive 1, .deleteClient 1])
    (fun cfg => cfg.history = [⟨1, .append "x" "a", 0, some ("", 4)⟩]) (by decide +kernel)
  obtain ⟨sys, run, abs, -⟩ := kv_refines reached
  exact ⟨cfg, sys, reached, of_decide_eq_true seen, run, abs.history⟩

end Wired

end Simulation

section Reliable

open KvServer (step_moved)
open KvLinearizable (PutsOnce KvInput kvInput reaches_linked)
open Porcupine (Operation CheckResult)
open PorcupineCheck KvChecker

/-- A call whose attempt has not run its handler has run none before. -/
def Fresh (sys : System) : Prop :=
  ∀ id, ∀ call ∈ (sys.clerks id).calling, call.reply = none →
    ∀ op ∈ sys.history[call.ticket]?, op.attempts = []

theorem Fresh.moved {sys sys' : System} {a : KvServer.Action} (h : Fresh sys)
    (tracked : Tracked sys) (fine : allowed false sys a) (moved : KvServer.Moved sys a sys') :
    Fresh sys' := by
  intro id' call' found' unanswered op' ticket'
  cases moved with
  | invoke id request idle =>
    have entry : sys.history[call'.ticket]? = some op' ∨ op'.attempts = [] := by
      rcases append_cases ticket' with before | ⟨-, rfl⟩
      · exact .inl before
      · exact .inr rfl
    rcases entry with before | untried
    · rcases eq_or_ne id' id with rfl | apart
      · simp only [Function.update_self, Option.mem_def, Option.some.injEq] at found'
        subst found'
        simp at before
      · simp only [Function.update_of_ne apart] at found'
        exact h id' call' found' unanswered op' before
    · exact untried
  | loseRequest id => exact h id' call' found' unanswered op' ticket'
  | execute id call op found ticket =>
    rcases eq_or_ne id' id with rfl | apart
    · simp only [Function.update_self, Option.mem_def, Option.some.injEq] at found'
      subst found'
      cases unanswered
    · simp only [Function.update_of_ne apart] at found'
      obtain ⟨mine, same, client, -⟩ := tracked.calling id call found
      have tickets := tracked.ticket_ne same client found' apart
      rw [Option.mem_def, List.getElem?_set_ne tickets] at ticket'
      exact h id' call' found' unanswered op' ticket'
  | loseReply id call found => cases fine
  | deliver id call op value found replied ticket =>
    rcases eq_or_ne id' id with rfl | apart
    · simp [Function.update_self] at found'
    · simp only [Function.update_of_ne apart] at found'
      obtain ⟨mine, same, client, -⟩ := tracked.calling id call found
      have tickets := tracked.ticket_ne same client found' apart
      rw [Option.mem_def, List.getElem?_set_ne tickets] at ticket'
      exact h id' call' found' unanswered op' ticket'

variable [DecidableEq E] [ToString E] {cfg : Config E} {log : List (Operation KvInput String)}

end Reliable

end DistributedLabs.KvRefinement
