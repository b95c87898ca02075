import DistributedLabs.GuardedRuns

/-! The simulated network (labrpc/labrpc.go). `Call` sends a request to the thread
of `MakeNetwork`, which starts `processReq` for it; that reads the connections,
may drop the request, runs the handler in a thread of its own, watches whether the
server is deleted meanwhile, may drop the reply, and answers. Handlers run at the same
time, each a few steps at a time, and may be blocked or never return. Arguments and
replies are passed as values, and delays are of any length. A server is known by its
place in `heap`, and a receiver by its place in `objects`. What has been executed is
recorded and read by no thread. -/

namespace DistributedLabs.LabRpc
open GuardedRuns

variable {E V X L A R : Type}

/-- A method that handles requests: its local variables when it is called, and its next
step on the receiver, after which it goes on or returns. A method that is blocked has
no next step. -/
structure Method (X L A R : Type) where
  start : A → L
  resume : X → L → Option (X × (L ⊕ R))

/-- A method that keeps others away from its receiver until it returns, as by a mutex:
nobody sees the receiver in between. -/
def Method.atomic (body : X → A → X × R) : Method X A A R where
  start args := args
  resume x args := some ((body x args).1, .inr (body x args).2)

structure Service (X L A R : Type) where
  name : String
  rcvr : ℕ
  methods : String → Option (Method X L A R)

structure Server (X L A R : Type) where
  services : String → Option (Service X L A R)
  count : ℕ

def makeServer : Server X L A R := ⟨fun _ => none, 0⟩

def Server.addService (rs : Server X L A R) (svc : Service X L A R) : Server X L A R :=
  { rs with services := Function.update rs.services svc.name (some svc) }

def splitMethod (svcMeth : String) : Option (String × String) :=
  let back := svcMeth.toList.reverse
  match back.dropWhile (· ≠ '.') with
  | [] => none
  | _ :: serviceName =>
    some (String.ofList serviceName.reverse, String.ofList (back.takeWhile (· ≠ '.')).reverse)

/-- The receiver and the method that a request names; without one the program ends. -/
def Server.lookup (rs : Server X L A R) (svcMeth : String) : Option (ℕ × Method X L A R) := do
  let (serviceName, methodName) ← splitMethod svcMeth
  let svc ← rs.services serviceName
  some (svc.rcvr, ← svc.methods methodName)

structure ReqMsg (E A : Type) where
  endname : E
  svcMeth : String
  args : A
  deriving DecidableEq

/-- Where `Call` is; it returns false without a reply. -/
inductive Client (R : Type)
  | sending
  | waiting
  | returned (reply : Option R)
  deriving DecidableEq

/-- What `processReq` has read of the network. -/
structure Info (V : Type) where
  servername : V
  server : ℕ
  reliable : Bool

/-- Where `processReq` is: before it reads, before it runs the handler, in its loop,
behind the loop with the reply that it got, and before it answers. -/
inductive Process (V R : Type)
  | absent
  | entered
  | admitted (info : Info V)
  | waiting (info : Info V)
  | left (info : Info V) (reply : Option R)
  | replying (reply : Option R)
  | done

/-- Where the thread of the handler is: before `dispatch`, before the method is called,
in the method, and before and after its reply is taken from it. -/
inductive Handler (X L A R : Type)
  | absent
  | started (server : ℕ)
  | dispatched (server rcvr : ℕ) (method : Method X L A R)
  | running (server rcvr : ℕ) (method : Method X L A R) (vars : L)
  | ran (server : ℕ) (reply : R)
  | finished (server : ℕ) (reply : R)

structure Call (E V X L A R : Type) where
  req : ReqMsg E A
  client : Client R
  process : Process V R
  handler : Handler X L A R

structure Execution (A R : Type) where
  call : ℕ
  server : ℕ
  svcMeth : String
  args : A
  reply : Option R

def close (executions : List (Execution A R)) (k : ℕ) (reply : R) : List (Execution A R) :=
  executions.map fun e => if e.call = k then { e with reply := some reply } else e

structure Network (E V X L A R : Type) where
  reliable : Bool
  ends : E → Bool
  enabled : E → Bool
  servers : V → Option ℕ
  connections : E → Option V
  accepting : Bool
  closed : Bool
  count : BitVec 32
  objects : List X
  heap : List (Server X L A R)
  calls : List (Call E V X L A R)
  executions : List (Execution A R)

def makeNetwork : Network E V X L A R where
  reliable := true
  ends := fun _ => false
  enabled := fun _ => false
  servers := fun _ => none
  connections := fun _ => none
  accepting := true
  closed := false
  count := 0
  objects := []
  heap := []
  calls := []
  executions := []

section Configuration

variable [DecidableEq E] [DecidableEq V]

def makeEnd [ToString E] (rn : Network E V X L A R) (endname : E) :
    Except String (Network E V X L A R) :=
  if rn.ends endname then .error s!"MakeEnd: {endname} already exists\n"
  else .ok { rn with
    ends := Function.update rn.ends endname true
    enabled := Function.update rn.enabled endname false
    connections := Function.update rn.connections endname none }

def deleteEnd [ToString E] (rn : Network E V X L A R) (endname : E) :
    Except String (Network E V X L A R) :=
  if rn.ends endname then .ok { rn with
    ends := Function.update rn.ends endname false
    enabled := Function.update rn.enabled endname false
    connections := Function.update rn.connections endname none }
  else .error s!"MakeEnd: {endname} doesn't exists\n"

def addServer (rn : Network E V X L A R) (servername : V) (rs : ℕ) : Network E V X L A R :=
  { rn with servers := Function.update rn.servers servername (some rs) }

def deleteServer (rn : Network E V X L A R) (servername : V) : Network E V X L A R :=
  { rn with servers := Function.update rn.servers servername none }

def connect (rn : Network E V X L A R) (endname : E) (servername : V) : Network E V X L A R :=
  { rn with connections := Function.update rn.connections endname (some servername) }

def enable (rn : Network E V X L A R) (endname : E) (enabled : Bool) : Network E V X L A R :=
  { rn with enabled := Function.update rn.enabled endname enabled }

end Configuration

def getCount (rn : Network E V X L A R) (servername : V) : Option ℕ := do
  let rs ← rn.heap[← rn.servers servername]?
  some rs.count

def getTotalCount (rn : Network E V X L A R) : ℤ := rn.count.toInt

def readEndnameInfo (rn : Network E V X L A R) (endname : E) : Option (Info V) := do
  guard (rn.enabled endname)
  let servername ← rn.connections endname
  let server ← rn.servers servername
  some ⟨servername, server, rn.reliable⟩

def isServerDead (rn : Network E V X L A R) (endname : E) (info : Info V) : Bool :=
  rn.enabled endname = false ∨ rn.servers info.servername ≠ some info.server

inductive Move
  | accept
  | giveUp
  | read
  | drop
  | begin
  | dispatch
  | invoke
  | run
  | receive
  | poll
  | leave (lost : Bool)
  | drain
  | answer
  deriving DecidableEq

def advance (rn : Network E V X L A R) (k : ℕ) (c : Call E V X L A R) :
    Move → Option (Network E V X L A R × Call E V X L A R)
  | .accept =>
    match c.client with
    | .sending =>
      if rn.accepting then
        some ({ rn with count := rn.count + 1 }, { c with client := .waiting, process := .entered })
      else none
    | _ => none
  | .giveUp =>
    match c.client with
    | .sending => if rn.closed then some (rn, { c with client := .returned none }) else none
    | _ => none
  | .read =>
    match c.process with
    | .entered =>
      match readEndnameInfo rn c.req.endname with
      | some info => some (rn, { c with process := .admitted info })
      | none => some (rn, { c with process := .replying none })
    | _ => none
  | .drop =>
    match c.process with
    | .admitted info =>
      if info.reliable then none else some (rn, { c with process := .replying none })
    | _ => none
  | .begin =>
    match c.process with
    | .admitted info =>
      some (rn, { c with process := .waiting info, handler := .started info.server })
    | _ => none
  | .dispatch =>
    match c.handler with
    | .started server => do
      let rs ← rn.heap[server]?
      let (rcvr, method) ← rs.lookup c.req.svcMeth
      some ({ rn with heap := rn.heap.set server { rs with count := rs.count + 1 } },
        { c with handler := .dispatched server rcvr method })
    | _ => none
  | .invoke =>
    match c.handler with
    | .dispatched server rcvr method =>
      some ({ rn with
          executions := rn.executions ++ [⟨k, server, c.req.svcMeth, c.req.args, none⟩] },
        { c with handler := .running server rcvr method (method.start c.req.args) })
    | _ => none
  | .run =>
    match c.handler with
    | .running server rcvr method vars => do
      let x ← rn.objects[rcvr]?
      match ← method.resume x vars with
      | (x', .inl vars') =>
        some ({ rn with objects := rn.objects.set rcvr x' },
          { c with handler := .running server rcvr method vars' })
      | (x', .inr reply) =>
        some ({ rn with
            objects := rn.objects.set rcvr x'
            executions := close rn.executions k reply },
          { c with handler := .ran server reply })
    | _ => none
  | .receive =>
    match c.process, c.handler with
    | .waiting info, .ran server reply =>
      some (rn, { c with process := .left info (some reply), handler := .finished server reply })
    | _, _ => none
  | .poll =>
    match c.process with
    | .waiting info =>
      if isServerDead rn c.req.endname info then some (rn, { c with process := .left info none })
      else none
    | _ => none
  | .leave lost =>
    match c.process with
    | .left info reply =>
      if reply.isNone || isServerDead rn c.req.endname info then
        some (rn, { c with process := .replying none })
      else if !info.reliable && lost then some (rn, { c with process := .replying none })
      else some (rn, { c with process := .replying reply })
    | _ => none
  | .drain =>
    -- the loop was left without the reply
    match c.process, c.handler with
    | .left _ _, .ran server reply | .replying _, .ran server reply | .done, .ran server reply =>
      some (rn, { c with handler := .finished server reply })
    | _, _ => none
  | .answer =>
    match c.client, c.process with
    | .waiting, .replying reply => some (rn, { c with client := .returned reply, process := .done })
    | _, _ => none

/-- A server with its services is made before it is added under a name; the receivers
of the services are made before that, and other threads may change them. -/
inductive Action (E V X L A R : Type)
  | makeEnd (endname : E)
  | deleteEnd (endname : E)
  | newObject (x : X)
  | write (rcvr : ℕ) (x : X)
  | newServer (services : List (Service X L A R))
  | addServer (servername : V) (rs : ℕ)
  | deleteServer (servername : V)
  | connect (endname : E) (servername : V)
  | enable (endname : E) (enabled : Bool)
  | reliable (yes : Bool)
  | cleanup
  | stop
  | call (req : ReqMsg E A)
  | move (k : ℕ) (m : Move)

variable [DecidableEq E] [DecidableEq V] [ToString E]

def step (rn : Network E V X L A R) : Action E V X L A R → Option (Network E V X L A R)
  | .makeEnd endname => (makeEnd rn endname).toOption
  | .deleteEnd endname => (deleteEnd rn endname).toOption
  | .newObject x => some { rn with objects := rn.objects ++ [x] }
  | .write rcvr x => some { rn with objects := rn.objects.set rcvr x }
  | .newServer services => do
    guard (∀ svc ∈ services, svc.rcvr < rn.objects.length)
    some { rn with heap := rn.heap ++ [services.foldl Server.addService makeServer] }
  | .addServer servername rs =>
    if rs < rn.heap.length then some (addServer rn servername rs) else none
  | .deleteServer servername => some (deleteServer rn servername)
  | .connect endname servername => some (connect rn endname servername)
  | .enable endname enabled => some (enable rn endname enabled)
  | .reliable yes => some { rn with reliable := yes }
  | .cleanup => if rn.closed then none else some { rn with closed := true }
  | .stop => if rn.closed then some { rn with accepting := false } else none
  | .call req => some { rn with calls := rn.calls ++ [⟨req, .sending, .absent, .absent⟩] }
  | .move k m => do
    let (rn', c) ← advance rn k (← rn.calls[k]?) m
    some { rn' with calls := rn.calls.set k c }

def Reaches (ok : Network E V X L A R → Action E V X L A R → Prop) (rn : Network E V X L A R) :
    Prop :=
  Run step ok makeNetwork rn

example : splitMethod "Raft.AppendEntries" = some ("Raft", "AppendEntries") := by decide

end DistributedLabs.LabRpc
