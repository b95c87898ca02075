import DistributedLabs.KvExactlyOnce
import DistributedLabs.RpcReturns

/-! The clerks of kvsrv and their server on the simulated network (kvsrv/client.go,
kvsrv/config.go). A clerk sends its call again until `Call` returns true; clients are
made and deleted as the tests do it. Client ids are drawn at random and taken to be
different. The clock ticks when a clerk begins or ends a call or an attempt and when a
handler runs. The history records the calls and is read by no action. -/

namespace DistributedLabs.KvNetwork
open GuardedRuns LabRpc RpcCalls RpcReturns
open KvServer (KVServer GetArgs PutAppendArgs Request Handled startKVServer handle System)
open KvExactlyOnce (Tracked reaches_tracked)

variable {E : Type}

/-- The arguments of either kind. A handler gets the fields of its own kind. -/
inductive Args
  | get (args : GetArgs)
  | putAppend (args : PutAppendArgs)

def Args.toGet : Args → GetArgs
  | .get args => args
  | .putAppend args => ⟨args.key, args.clientID, args.seqNum⟩

def Args.toPutAppend : Args → PutAppendArgs
  | .get args => ⟨args.key, "", args.clientID, args.seqNum⟩
  | .putAppend args => args

/-- What the network sees of a handler: it holds `kv.mu` until it returns. -/
def handler (run : KVServer → Args → Handled) : Method KVServer Args Args String :=
  Method.atomic fun kv args => ((run kv args).server, (run kv args).value)

def kvService : Service KVServer Args Args String where
  name := "KVServer"
  rcvr := 0
  methods name :=
    if name = "Get" then some (handler fun kv args => KvServer.get kv args.toGet)
    else if name = "Put" then some (handler fun kv args => KvServer.put kv args.toPutAppend)
    else if name = "Append" then some (handler fun kv args => KvServer.append kv args.toPutAppend)
    else none

def message (endname : E) (id seqNum : ℤ) : Request → ReqMsg E Args
  | .get key => ⟨endname, "KVServer.Get", .get ⟨key, id, seqNum⟩⟩
  | .put key value => ⟨endname, "KVServer.Put", .putAppend ⟨key, value, id, seqNum⟩⟩
  | .append key value => ⟨endname, "KVServer.Append", .putAppend ⟨key, value, id, seqNum⟩⟩

/-- A clerk in `Get` or `PutAppend`; `pending` is the `Call` that its loop is in. -/
structure Calling where
  ticket : ℕ
  request : Request
  pending : Option ℕ

structure Clerk (E : Type) where
  server : E
  seqNum : ℤ
  calling : Option Calling

structure Entry where
  clientId : ℤ
  request : Request
  call : ℕ
  response : Option (String × ℕ)
  deriving DecidableEq

structure Config (E : Type) where
  net : Network E ℕ KVServer Args Args String
  clerks : ℤ → Option (Clerk E)
  ends : ℤ → Option E
  clock : ℕ
  history : List Entry

inductive Action (E : Type)
  | makeClient (id : ℤ) (endname : E)
  | deleteClient (id : ℤ)
  | invoke (id : ℤ) (request : Request)
  | send (id : ℤ)
  | receive (id : ℤ)
  | move (k : ℕ) (m : Move)
  | cleanup
  | stop

variable [DecidableEq E] [ToString E]

def serverId : ℕ := 0

def makeConfig (unreliable : Bool) : Config E where
  net := { addServer { (makeNetwork : Network E ℕ KVServer Args Args String) with
    objects := [startKVServer]
    heap := [makeServer.addService kvService] } serverId 0 with
    reliable := !unreliable }
  clerks := fun _ => none
  ends := fun _ => none
  clock := 0
  history := []

def makeClient (cfg : Config E) (id : ℤ) (endname : E) : Option (Config E) := do
  guard (cfg.clerks id).isNone
  let net ← (makeEnd cfg.net endname).toOption
  some { cfg with
    net := enable (connect net endname serverId) endname true
    clerks := Function.update cfg.clerks id (some ⟨endname, 0, none⟩)
    ends := Function.update cfg.ends id (some endname) }

def deleteClient (cfg : Config E) (id : ℤ) : Option (Config E) := do
  let endname ← cfg.ends id
  let net ← (deleteEnd cfg.net endname).toOption
  some { cfg with net := net, ends := Function.update cfg.ends id none }

/-- `ck.seqNum++`, before the loop. -/
def invoke (cfg : Config E) (id : ℤ) (request : Request) : Option (Config E) := do
  let ck ← cfg.clerks id
  guard ck.calling.isNone
  some { cfg with
    clerks := Function.update cfg.clerks id
      (some { ck with
        seqNum := ck.seqNum + 1, calling := some ⟨cfg.history.length, request, none⟩ })
    clock := cfg.clock + 1
    history := cfg.history ++ [⟨id, request, cfg.clock, none⟩] }

/-- The loop goes round and calls `Call`. -/
def send (cfg : Config E) (id : ℤ) : Option (Config E) := do
  let ck ← cfg.clerks id
  let calling ← ck.calling
  guard calling.pending.isNone
  let net ← LabRpc.step cfg.net (.call (message ck.server id ck.seqNum calling.request))
  some { cfg with
    net := net
    clerks := Function.update cfg.clerks id
      (some { ck with calling := some { calling with pending := some cfg.net.calls.length } }) }

/-- `Call` has returned: the loop ends, or goes round again. -/
def receive (cfg : Config E) (id : ℤ) : Option (Config E) := do
  let ck ← cfg.clerks id
  let calling ← ck.calling
  let call ← cfg.net.calls[← calling.pending]?
  match call.client with
  | .returned none =>
    some { cfg with
      clerks := Function.update cfg.clerks id
        (some { ck with calling := some { calling with pending := none } })
      clock := cfg.clock + 1 }
  | .returned (some value) =>
    let entry ← cfg.history[calling.ticket]?
    some { cfg with
      clerks := Function.update cfg.clerks id (some { ck with calling := none })
      clock := cfg.clock + 1
      history := cfg.history.set calling.ticket
        { entry with response := some (value, cfg.clock) } }
  | _ => none

def ticks : Move → ℕ
  | .run => 1
  | _ => 0

def step (cfg : Config E) : Action E → Option (Config E)
  | .makeClient id endname => makeClient cfg id endname
  | .deleteClient id => deleteClient cfg id
  | .invoke id request => invoke cfg id request
  | .send id => send cfg id
  | .receive id => receive cfg id
  | .move k m => do
    let net ← LabRpc.step cfg.net (.move k m)
    some { cfg with net := net, clock := cfg.clock + ticks m }
  | .cleanup => do
    let net ← LabRpc.step cfg.net .cleanup
    some { cfg with net := net }
  | .stop => do
    let net ← LabRpc.step cfg.net .stop
    some { cfg with net := net }

/-- A client is deleted when its clerk is idle, and not used after that. -/
def orderly (cfg : Config E) : Action E → Bool
  | .deleteClient id => (cfg.clerks id).all fun ck => ck.calling.isNone
  | .invoke id _ => (cfg.ends id).isSome
  | _ => true

def Reaches (unreliable : Bool) (cfg : Config E) : Prop :=
  Run step (fun cfg a => orderly cfg a = true) (makeConfig unreliable) cfg

def opened (rn : Network E ℕ KVServer Args Args String) (endname : E) :
    Network E ℕ KVServer Args Args String :=
  enable (connect { rn with
    ends := Function.update rn.ends endname true
    enabled := Function.update rn.enabled endname false
    connections := Function.update rn.connections endname none } endname serverId) endname true

def closedEnd (rn : Network E ℕ KVServer Args Args String) (endname : E) :
    Network E ℕ KVServer Args Args String :=
  { rn with
    ends := Function.update rn.ends endname false
    enabled := Function.update rn.enabled endname false
    connections := Function.update rn.connections endname none }

def Working (clerks : ℤ → Option (Clerk E)) (id : ℤ) (ck : Clerk E) (calling : Calling) : Prop :=
  clerks id = some ck ∧ ck.calling = some calling

inductive Moved (cfg : Config E) : Action E → Config E → Prop
  | makeClient {id endname} (absent : cfg.clerks id = none) (new : cfg.net.ends endname = false) :
      Moved cfg (.makeClient id endname) { cfg with
        net := opened cfg.net endname
        clerks := Function.update cfg.clerks id (some ⟨endname, 0, none⟩)
        ends := Function.update cfg.ends id (some endname) }
  | deleteClient {id endname} (found : cfg.ends id = some endname)
      (old : cfg.net.ends endname = true) :
      Moved cfg (.deleteClient id)
        { cfg with net := closedEnd cfg.net endname, ends := Function.update cfg.ends id none }
  | invoke {id request ck} (found : cfg.clerks id = some ck) (idle : ck.calling = none) :
      Moved cfg (.invoke id request) { cfg with
        clerks := Function.update cfg.clerks id (some { ck with
          seqNum := ck.seqNum + 1, calling := some ⟨cfg.history.length, request, none⟩ })
        clock := cfg.clock + 1
        history := cfg.history ++ [⟨id, request, cfg.clock, none⟩] }
  | send {id ck calling} (working : Working cfg.clerks id ck calling)
      (ready : calling.pending = none) :
      Moved cfg (.send id) { cfg with
        net := { cfg.net with calls := cfg.net.calls ++
          [⟨message ck.server id ck.seqNum calling.request, .sending, .absent, .absent⟩] }
        clerks := Function.update cfg.clerks id (some { ck with
          calling := some { calling with pending := some cfg.net.calls.length } }) }
  | lost {id ck calling k c} (working : Working cfg.clerks id ck calling)
      (pending : calling.pending = some k) (here : cfg.net.calls[k]? = some c)
      (returned : c.client = .returned none) :
      Moved cfg (.receive id) { cfg with
        clerks := Function.update cfg.clerks id (some { ck with
          calling := some { calling with pending := none } })
        clock := cfg.clock + 1 }
  | answered {id ck calling k c value entry} (working : Working cfg.clerks id ck calling)
      (pending : calling.pending = some k) (here : cfg.net.calls[k]? = some c)
      (returned : c.client = .returned (some value))
      (ticket : cfg.history[calling.ticket]? = some entry) :
      Moved cfg (.receive id) { cfg with
        clerks := Function.update cfg.clerks id (some { ck with calling := none })
        clock := cfg.clock + 1
        history := cfg.history.set calling.ticket
          { entry with response := some (value, cfg.clock) } }
  | move {k m c next c'} (here : cfg.net.calls[k]? = some c)
      (moved : advance cfg.net k c m = some (next, c')) :
      Moved cfg (.move k m) { cfg with
        net := { next with calls := cfg.net.calls.set k c' }
        clock := cfg.clock + ticks m }
  | cleanup (running : cfg.net.closed = false) :
      Moved cfg .cleanup { cfg with net := { cfg.net with closed := true } }
  | stop (closed : cfg.net.closed = true) :
      Moved cfg .stop { cfg with net := { cfg.net with accepting := false } }

theorem step_moved {cfg cfg' : Config E} {a : Action E} (taken : step cfg a = some cfg') :
    Moved cfg a cfg' := by
  cases a with
  | makeClient id endname =>
    obtain ⟨_, absent, rest⟩ := Option.bind_eq_some_iff.mp taken
    obtain ⟨net, made, same⟩ := Option.bind_eq_some_iff.mp rest
    simp only [makeEnd] at made
    split at made <;> cases made
    cases same
    exact .makeClient (Option.isNone_iff_eq_none.mp (guard_some.mp absent))
      (Bool.eq_false_iff.mpr ‹_›)
  | deleteClient id =>
    obtain ⟨endname, found, rest⟩ := Option.bind_eq_some_iff.mp taken
    obtain ⟨net, made, same⟩ := Option.bind_eq_some_iff.mp rest
    simp only [deleteEnd] at made
    split at made <;> cases made
    cases same
    exact .deleteClient found ‹_›
  | invoke id request =>
    obtain ⟨ck, found, rest⟩ := Option.bind_eq_some_iff.mp taken
    obtain ⟨_, idle, same⟩ := Option.bind_eq_some_iff.mp rest
    cases same
    exact .invoke found (Option.isNone_iff_eq_none.mp (guard_some.mp idle))
  | send id =>
    obtain ⟨ck, found, rest⟩ := Option.bind_eq_some_iff.mp taken
    obtain ⟨calling, working, rest⟩ := Option.bind_eq_some_iff.mp rest
    obtain ⟨_, ready, rest⟩ := Option.bind_eq_some_iff.mp rest
    obtain ⟨net, called, same⟩ := Option.bind_eq_some_iff.mp rest
    cases called
    cases same
    exact .send ⟨found, working⟩ (Option.isNone_iff_eq_none.mp (guard_some.mp ready))
  | receive id =>
    obtain ⟨ck, found, rest⟩ := Option.bind_eq_some_iff.mp taken
    obtain ⟨calling, working, rest⟩ := Option.bind_eq_some_iff.mp rest
    obtain ⟨k, pending, rest⟩ := Option.bind_eq_some_iff.mp rest
    obtain ⟨c, here, rest⟩ := Option.bind_eq_some_iff.mp rest
    split at rest
    · rename_i returned
      cases rest
      exact .lost ⟨found, working⟩ pending here returned
    · rename_i value returned
      obtain ⟨entry, ticket, same⟩ := Option.bind_eq_some_iff.mp rest
      cases same
      exact .answered ⟨found, working⟩ pending here returned ticket
    · cases rest
  | move k m =>
    obtain ⟨net, moved, same⟩ := Option.bind_eq_some_iff.mp taken
    cases same
    obtain ⟨c, here, rest⟩ := Option.bind_eq_some_iff.mp moved
    obtain ⟨⟨next, c'⟩, advanced, same⟩ := Option.bind_eq_some_iff.mp rest
    cases same
    exact .move here advanced
  | cleanup =>
    obtain ⟨net, closed, same⟩ := Option.bind_eq_some_iff.mp taken
    simp only [LabRpc.step] at closed
    split at closed <;> cases closed
    cases same
    exact .cleanup (Bool.eq_false_iff.mpr ‹_›)
  | stop =>
    obtain ⟨net, stopped, same⟩ := Option.bind_eq_some_iff.mp taken
    simp only [LabRpc.step] at stopped
    split at stopped <;> cases stopped
    cases same
    exact .stop ‹_›

/-- What the tests do to the network: it stays as reliable as it was made. -/
def configured (unreliable : Bool) (rn : Network E ℕ KVServer Args Args String)
    (a : LabRpc.Action E ℕ KVServer Args Args String) : Prop :=
  quiet rn a = true ∧ ∀ yes, a = .reliable yes → yes = !unreliable

structure Wired (unreliable : Bool) (cfg : Config E) : Prop where
  reached : LabRpc.Reaches (configured unreliable) cfg.net
  serving : cfg.net.heap.map Server.services =
    [Function.update (fun _ => none) "KVServer" (some kvService)]
  owned : ∀ id ck calling k, Working cfg.clerks id ck calling → calling.pending = some k →
    ∃ c, cfg.net.calls[k]? = some c ∧ c.req = message ck.server id ck.seqNum calling.request
  owner : ∀ (k : ℕ) c, cfg.net.calls[k]? = some c → (∀ reply, c.client ≠ .returned reply) →
    ∃ id ck calling, Working cfg.clerks id ck calling ∧ calling.pending = some k
  named : ∀ id ck endname, cfg.clerks id = some ck → cfg.ends id = some endname →
    ck.server = endname
  live : ∀ id ck calling, Working cfg.clerks id ck calling → cfg.ends id = some ck.server
  made : ∀ id endname, cfg.ends id = some endname → cfg.net.ends endname = true
  distinct : ∀ id id' endname, cfg.ends id = some endname → cfg.ends id' = some endname → id = id'

section Steps

variable {unreliable : Bool} {cfg cfg' : Config E}

theorem Wired.quietly (h : Wired unreliable cfg) :
    LabRpc.Reaches (fun rn a => quiet rn a = true) cfg.net :=
  h.reached.mono fun _ _ allowed => allowed.1

theorem Wired.sound (h : Wired unreliable cfg) : Sound cfg.net := reaches_sound h.reached

theorem Wired.relied (h : Wired false cfg) : Relied cfg.net := by
  refine reaches_relied (h.reached.mono fun rn a allowed => ?_)
  cases a with
  | reliable yes => exact allowed.2 yes rfl
  | _ => exact allowed.1

omit [DecidableEq E] [ToString E] in
theorem message_client {endname endname' : E} {id id' seqNum seqNum' : ℤ}
    {request request' : Request}
    (same : message endname id seqNum request = message endname' id' seqNum' request') :
    id = id' := by
  cases request <;> cases request' <;> simp_all [message]

theorem makeConfig_wired : Wired unreliable (makeConfig unreliable : Config E) where
  reached := by
    have receiver : Run LabRpc.step (configured unreliable)
        (makeNetwork : Network E ℕ KVServer Args Args String) _ :=
      Run.refl.tail (a := .newObject startKVServer) ⟨rfl, nofun⟩ rfl
    have made := receiver.tail (a := .newServer [kvService]) ⟨rfl, nofun⟩ rfl
    have named := made.tail (a := .addServer serverId 0) ⟨rfl, nofun⟩ rfl
    exact named.tail (a := .reliable (!unreliable)) ⟨rfl, by rintro _ ⟨⟩; rfl⟩ rfl
  serving := rfl
  owned _ _ _ _ working := nomatch working.1
  owner _ _ here := nomatch here
  named _ _ _ found := nomatch found
  live _ _ _ working := nomatch working.1
  made _ _ found := nomatch found
  distinct _ _ _ found := nomatch found

omit [DecidableEq E] [ToString E] in
theorem update_cases {clerks : ℤ → Option (Clerk E)} {id id' : ℤ} {new ck : Clerk E}
    (found : Function.update clerks id (some new) id' = some ck) :
    (id' = id ∧ ck = new) ∨ clerks id' = some ck := by
  rw [Function.update_apply] at found
  split at found
  · exact .inl ⟨‹_›, (Option.some.inj found).symm⟩
  · exact .inr found

omit [DecidableEq E] [ToString E] in
theorem working_update {clerks : ℤ → Option (Clerk E)} {id id' : ℤ} {new ck : Clerk E}
    {calling : Calling} (working : Working (Function.update clerks id (some new)) id' ck calling) :
    (id' = id ∧ ck = new ∧ new.calling = some calling) ∨
      (id' ≠ id ∧ Working clerks id' ck calling) := by
  by_cases same : id' = id
  · subst same
    obtain ⟨found, calls⟩ := working
    rw [Function.update_self] at found
    obtain rfl := Option.some.inj found
    exact .inl ⟨rfl, rfl, calls⟩
  · rw [Working, Function.update_of_ne same] at working
    exact .inr ⟨same, working⟩

omit [DecidableEq E] [ToString E] in
theorem Working.update {clerks : ℤ → Option (Clerk E)} {id id' : ℤ} {ck : Clerk E}
    {calling : Calling} (working : Working clerks id' ck calling) (apart : id' ≠ id)
    (new : Option (Clerk E)) : Working (Function.update clerks id new) id' ck calling := by
  rwa [Working, Function.update_of_ne apart]

omit [DecidableEq E] [ToString E] in
theorem working_of_watches {c : LabRpc.Call E ℕ KVServer Args Args String}
    (together : Together c.client c.process c.handler) {info : Info ℕ}
    (watched : watches c.process = some info) (reply : Option String) :
    c.client ≠ .returned reply := by
  obtain ⟨req, client, process, handler⟩ := c
  cases together <;> simp_all [watches]

theorem Wired.endIdle (h : Wired unreliable cfg) {endname : E}
    (unused : ∀ id ck calling, Working cfg.clerks id ck calling → ck.server ≠ endname) :
    endIdle cfg.net endname = true := by
  refine List.all_eq_true.mpr fun c member => decide_eq_true ?_
  obtain ⟨k, here⟩ := List.mem_iff_getElem?.mp member
  cases watched : watches c.process with
  | none => exact .inr rfl
  | some info =>
    left
    obtain ⟨id, ck, calling, working, pending⟩ := h.owner k c here
      (working_of_watches (h.sound.traced k c here).together watched)
    obtain ⟨d, same, req⟩ := h.owned id ck calling k working pending
    obtain rfl := Option.some.inj (here.symm.trans same)
    have endname' : c.req.endname = ck.server := by
      rw [req]
      cases calling.request <;> rfl
    rw [endname']
    exact unused id ck calling working

theorem Wired.makeClient (h : Wired unreliable cfg) {id : ℤ} {endname : E}
    (absent : cfg.clerks id = none) (new : cfg.net.ends endname = false) :
    Wired unreliable { cfg with
      net := opened cfg.net endname
      clerks := Function.update cfg.clerks id (some ⟨endname, 0, none⟩)
      ends := Function.update cfg.ends id (some endname) } where
  reached := by
    have idle : RpcReturns.endIdle cfg.net endname = true := by
      refine h.endIdle fun id ck calling working same => ?_
      have used := h.made id ck.server (h.live id ck calling working)
      rw [same, new] at used
      cases used
    have allowed : configured unreliable cfg.net (.makeEnd endname) := ⟨idle, by simp⟩
    have made := h.reached.tail allowed
      (show LabRpc.step cfg.net (.makeEnd endname) = some _ by
        simp only [LabRpc.step, makeEnd, new]
        rfl)
    have connected := made.tail (a := .connect endname serverId) ⟨rfl, by simp⟩ rfl
    exact connected.tail (a := .enable endname true) ⟨rfl, by simp⟩ rfl
  serving := h.serving
  owned id' ck calling k working pending := by
    rcases working_update working with ⟨-, rfl, calls⟩ | ⟨-, before⟩
    · cases calls
    · exact h.owned id' ck calling k before pending
  owner k c here waits := by
    obtain ⟨id', ck, calling, working, pending⟩ := h.owner k c here waits
    refine ⟨id', ck, calling, working.update ?_ _, pending⟩
    rintro rfl
    cases absent.symm.trans working.1
  named id' ck endname' found same := by
    simp only [Function.update_apply] at found same
    split at found
    · rw [if_pos ‹_›] at same
      rw [← Option.some.inj found, Option.some.inj same]
    · rw [if_neg ‹_›] at same
      exact h.named id' ck endname' found same
  live id' ck calling working := by
    rcases working_update working with ⟨-, rfl, calls⟩ | ⟨apart, before⟩
    · cases calls
    · exact (Function.update_of_ne apart _ _).trans (h.live id' ck calling before)
  made id' endname' found := by
    simp only [opened, enable, connect, Function.update_apply] at found ⊢
    split at found
    · obtain rfl := Option.some.inj found
      rw [if_pos rfl]
    · rw [h.made id' endname' found, ite_self]
  distinct id₁ id₂ endname' first second := by
    have taken {id'} (found : cfg.ends id' = some endname') : endname' ≠ endname := by
      rintro rfl
      cases new.symm.trans (h.made id' endname' found)
    simp only [Function.update_apply] at first second
    split at first <;> split at second
    · rw [‹id₁ = id›, ‹id₂ = id›]
    · exact absurd (Option.some.inj first).symm (taken second)
    · exact absurd (Option.some.inj second).symm (taken first)
    · exact h.distinct id₁ id₂ endname' first second

theorem Wired.deleteClient (h : Wired unreliable cfg) {id : ℤ} {endname : E}
    (found : cfg.ends id = some endname) (old : cfg.net.ends endname = true)
    (idle : ∀ ck calling, ¬ Working cfg.clerks id ck calling) :
    Wired unreliable { cfg with
      net := closedEnd cfg.net endname, ends := Function.update cfg.ends id none } where
  reached := by
    have unused : RpcReturns.endIdle cfg.net endname = true := by
      refine h.endIdle fun id' ck calling working same => ?_
      obtain rfl := h.distinct id' id endname (same ▸ h.live id' ck calling working) found
      exact idle ck calling working
    have allowed : configured unreliable cfg.net (.deleteEnd endname) := ⟨unused, nofun⟩
    exact h.reached.tail allowed
      (show LabRpc.step cfg.net (.deleteEnd endname) = some _ by
        simp only [LabRpc.step, deleteEnd, old]
        rfl)
  serving := h.serving
  owned := h.owned
  owner := h.owner
  named id' ck endname' found same := by
    simp only [Function.update_apply] at same
    split at same
    · cases same
    · exact h.named id' ck endname' found same
  live id' ck calling working := by
    refine (Function.update_of_ne ?_ _ _).trans (h.live id' ck calling working)
    rintro rfl
    exact idle ck calling working
  made id' endname' kept := by
    simp only [Function.update_apply] at kept
    split at kept
    · cases kept
    · rename_i apart
      refine (Function.update_of_ne ?_ _ _).trans (h.made id' endname' kept)
      rintro rfl
      exact apart (h.distinct id' id endname' kept found)
  distinct id₁ id₂ endname' first second := by
    simp only [Function.update_apply] at first second
    split at first <;> split at second
    · cases first
    · cases first
    · cases second
    · exact h.distinct id₁ id₂ endname' first second

theorem Wired.invoke (h : Wired unreliable cfg) {id : ℤ} {ck : Clerk E} {request : Request}
    (found : cfg.clerks id = some ck) (idle : ck.calling = none)
    (listed : cfg.ends id = some ck.server) {clock : ℕ} {history : List Entry} {ticket : ℕ} :
    Wired unreliable { cfg with
      clerks := Function.update cfg.clerks id (some { ck with
        seqNum := ck.seqNum + 1, calling := some ⟨ticket, request, none⟩ })
      clock := clock, history := history } where
  reached := h.reached
  serving := h.serving
  owned id' ck' calling k working pending := by
    rcases working_update working with ⟨-, rfl, same⟩ | ⟨-, before⟩
    · obtain rfl := Option.some.inj same
      cases pending
    · exact h.owned id' ck' calling k before pending
  owner k c here waits := by
    obtain ⟨id', ck', calling, working, pending⟩ := h.owner k c here waits
    refine ⟨id', ck', calling, working.update ?_ _, pending⟩
    rintro rfl
    obtain rfl := Option.some.inj (found.symm.trans working.1)
    cases idle.symm.trans working.2
  named id' ck' endname' found' same := by
    rcases update_cases found' with ⟨rfl, rfl⟩ | before
    · exact h.named id' ck endname' found same
    · exact h.named id' ck' endname' before same
  live id' ck' calling working := by
    rcases working_update working with ⟨rfl, rfl, -⟩ | ⟨-, before⟩
    · exact listed
    · exact h.live id' ck' calling before
  made := h.made
  distinct := h.distinct

theorem Wired.send (h : Wired unreliable cfg) {id : ℤ} {ck : Clerk E} {calling : Calling}
    (working : Working cfg.clerks id ck calling) (ready : calling.pending = none) :
    Wired unreliable { cfg with
      net := { cfg.net with calls := cfg.net.calls ++
        [⟨message ck.server id ck.seqNum calling.request, .sending, .absent, .absent⟩] }
      clerks := Function.update cfg.clerks id (some { ck with
        calling := some { calling with pending := some cfg.net.calls.length } }) } where
  reached := h.reached.tail
    (a := .call (message ck.server id ck.seqNum calling.request)) ⟨rfl, nofun⟩ rfl
  serving := h.serving
  owned id' ck' calling' k working' pending := by
    rcases working_update working' with ⟨rfl, rfl, same⟩ | ⟨-, before⟩
    · obtain rfl := Option.some.inj same
      obtain rfl := Option.some.inj pending
      exact ⟨_, List.getElem?_concat_length, rfl⟩
    · obtain ⟨c, here, req⟩ := h.owned id' ck' calling' k before pending
      have bound := (List.getElem?_eq_some_iff.mp here).1
      exact ⟨c, (List.getElem?_append_left bound).trans here, req⟩
  owner k c here waits := by
    rcases append_cases here with before | ⟨rfl, rfl⟩
    · obtain ⟨id', ck', calling', working', pending⟩ := h.owner k c before waits
      refine ⟨id', ck', calling', working'.update ?_ _, pending⟩
      rintro rfl
      obtain rfl := Option.some.inj (working.1.symm.trans working'.1)
      obtain rfl := Option.some.inj (working.2.symm.trans working'.2)
      cases ready.symm.trans pending
    · exact ⟨id, _, _, ⟨Function.update_self .., rfl⟩, rfl⟩
  named id' ck' endname' found' same := by
    rcases update_cases found' with ⟨rfl, rfl⟩ | before
    · exact h.named id' ck endname' working.1 same
    · exact h.named id' ck' endname' before same
  live id' ck' calling' working' := by
    rcases working_update working' with ⟨rfl, rfl, -⟩ | ⟨-, before⟩
    · exact h.live id' ck calling working
    · exact h.live id' ck' calling' before
  made := h.made
  distinct := h.distinct

theorem Wired.receive (h : Wired unreliable cfg) {id : ℤ} {ck : Clerk E} {calling : Calling}
    {k : ℕ} {c : LabRpc.Call E ℕ KVServer Args Args String} {reply : Option String}
    (working : Working cfg.clerks id ck calling) (pending : calling.pending = some k)
    (here : cfg.net.calls[k]? = some c) (returned : c.client = .returned reply)
    {next : Option Calling} (ready : ∀ calling', next = some calling' → calling'.pending = none)
    {clock : ℕ} {history : List Entry} :
    Wired unreliable { cfg with
      clerks := Function.update cfg.clerks id (some { ck with calling := next })
      clock := clock, history := history } where
  reached := h.reached
  serving := h.serving
  owned id' ck' calling' j working' waiting := by
    rcases working_update working' with ⟨-, rfl, same⟩ | ⟨-, before⟩
    · cases (ready calling' same).symm.trans waiting
    · exact h.owned id' ck' calling' j before waiting
  owner j d atJ waits := by
    obtain ⟨id', ck', calling', working', waiting⟩ := h.owner j d atJ waits
    refine ⟨id', ck', calling', working'.update ?_ _, waiting⟩
    rintro rfl
    obtain rfl := Option.some.inj (working.1.symm.trans working'.1)
    obtain rfl := Option.some.inj (working.2.symm.trans working'.2)
    obtain rfl := Option.some.inj (pending.symm.trans waiting)
    obtain rfl := Option.some.inj (here.symm.trans atJ)
    exact waits reply returned
  named id' ck' endname' found' same := by
    rcases update_cases found' with ⟨rfl, rfl⟩ | before
    · exact h.named id' ck endname' working.1 same
    · exact h.named id' ck' endname' before same
  live id' ck' calling' working' := by
    rcases working_update working' with ⟨rfl, rfl, -⟩ | ⟨-, before⟩
    · exact h.live id' ck calling working
    · exact h.live id' ck' calling' before
  made := h.made
  distinct := h.distinct

section Network

variable {k : ℕ} {m : Move} {c c' : LabRpc.Call E ℕ KVServer Args Args String}
  {next : Network E ℕ KVServer Args Args String}

omit [DecidableEq E] [ToString E] in
theorem advanced_req (adv : Advanced cfg.net k m c next c') : c'.req = c.req := by
  cases adv <;> rfl

omit [DecidableEq E] [ToString E] in
theorem advanced_returned (adv : Advanced cfg.net k m c next c')
    (waits : ∀ reply, c'.client ≠ .returned reply) (reply : Option String) :
    c.client ≠ .returned reply := by
  cases adv <;> first | exact waits reply | nofun

omit [DecidableEq E] [ToString E] in
theorem advanced_ends (adv : Advanced cfg.net k m c next c') : next.ends = cfg.net.ends := by
  cases adv <;> rfl

theorem Wired.move (h : Wired unreliable cfg) (here : cfg.net.calls[k]? = some c)
    (moved : advance cfg.net k c m = some (next, c')) {clock : ℕ} :
    Wired unreliable { cfg with
      net := { next with calls := cfg.net.calls.set k c' }, clock := clock } := by
  have adv := advance_advanced moved
  exact
  { reached := h.reached.tail (a := .move k m) ⟨rfl, nofun⟩ (by
      simp only [LabRpc.step, here, Option.bind_eq_bind, Option.bind_some, moved])
    serving := (advanced_framed adv).services.trans h.serving
    owned := by
      intro id ck calling j working pending
      obtain ⟨d, atJ, req⟩ := h.owned id ck calling j working pending
      have bound := (List.getElem?_eq_some_iff.mp atJ).1
      by_cases same : k = j
      · subst same
        obtain rfl := Option.some.inj (here.symm.trans atJ)
        exact ⟨c', List.getElem?_set_self bound, (advanced_req adv).trans req⟩
      · exact ⟨d, (List.getElem?_set_ne same).trans atJ, req⟩
    owner := by
      intro j d atJ waits
      rcases set_cases here _ atJ with ⟨rfl, rfl⟩ | ⟨-, before⟩
      · exact h.owner j c here (advanced_returned adv waits)
      · exact h.owner j d before waits
    named := h.named
    live := h.live
    made := fun id endname found => (congrFun (advanced_ends adv) _).trans (h.made id endname found)
    distinct := h.distinct }

end Network

theorem Wired.closing (h : Wired unreliable cfg) {a : LabRpc.Action E ℕ KVServer Args Args String}
    {net : Network E ℕ KVServer Args Args String} (allowed : configured unreliable cfg.net a)
    (taken : LabRpc.step cfg.net a = some net) (heap : net.heap = cfg.net.heap)
    (calls : net.calls = cfg.net.calls) (ends : net.ends = cfg.net.ends) :
    Wired unreliable { cfg with net := net } where
  reached := h.reached.tail allowed taken
  serving := by simpa only [heap] using h.serving
  owned := by simpa only [calls] using h.owned
  owner := by simpa only [calls] using h.owner
  named := h.named
  live := h.live
  made := by simpa only [ends] using h.made
  distinct := h.distinct

theorem Wired.moved (h : Wired unreliable cfg) {a : Action E} (allowed : orderly cfg a = true)
    (moved : Moved cfg a cfg') : Wired unreliable cfg' := by
  cases moved with
  | makeClient absent new => exact h.makeClient absent new
  | deleteClient found old =>
    refine h.deleteClient found old ?_
    intro ck calling working
    simp [orderly, working.1, working.2] at allowed
  | invoke found idle =>
    obtain ⟨endname, listed⟩ := Option.isSome_iff_exists.mp allowed
    exact h.invoke found idle (h.named _ _ _ found listed ▸ listed)
  | send working ready => exact h.send working ready
  | lost working pending here returned =>
    refine h.receive working pending here returned ?_
    intro calling' same
    cases same
    rfl
  | answered working pending here returned ticket =>
    refine h.receive working pending here returned ?_
    intro calling' same
    cases same
  | move here moved => exact h.move here moved
  | cleanup running =>
    exact h.closing (a := .cleanup) ⟨rfl, by simp⟩ (by simp [LabRpc.step, running]) rfl rfl rfl
  | stop closed =>
    exact h.closing (a := .stop) ⟨rfl, by simp⟩ (by simp [LabRpc.step, closed]) rfl rfl rfl

theorem reaches_wired (reached : Reaches unreliable cfg) : Wired unreliable cfg :=
  reached.invariant (Wired unreliable) (fun h allowed taken => h.moved allowed (step_moved taken))
    makeConfig_wired

end Steps

end DistributedLabs.KvNetwork
