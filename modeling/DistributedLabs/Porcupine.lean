import DistributedLabs.LinkedCells
import DistributedLabs.PorcupineBitset

/-! The linearizability checker (porcupine/model.go, porcupine/checker.go). A
function field that is nil is `none`. Nodes lie in an arena and pointers are
positions; a nil dereference, an access out of range and a failed type assertion
have no result. The stack of calls has its top first. `sort.Sort` is not stable,
so that any arrangement sorted by `Less` may come out of it. -/

namespace DistributedLabs.Porcupine
open LinkedCells PorcupineBitset

structure Operation (I O : Type) where
  clientId : ℤ
  input : I
  call : ℤ
  output : O
  ret : ℤ
  deriving DecidableEq

inductive Kind
  | call
  | ret
  deriving DecidableEq

structure Event (I O : Type) where
  clientId : ℤ
  kind : Kind
  value : I ⊕ O
  id : ℤ
  deriving DecidableEq

structure Model (S I O : Type) where
  partition : Option (List (Operation I O) → List (List (Operation I O)))
  partitionEvent : Option (List (Event I O) → List (List (Event I O)))
  init : S
  step : S → I → O → Bool × S
  equal : Option (S → S → Bool)

structure FullModel (S I O : Type) where
  partition : List (Operation I O) → List (List (Operation I O))
  partitionEvent : List (Event I O) → List (List (Event I O))
  init : S
  step : S → I → O → Bool × S
  equal : S → S → Bool

inductive CheckResult
  | unknown
  | ok
  | illegal
  deriving DecidableEq

section Entries

variable {S I O : Type}

def noPartition (history : List (Operation I O)) : List (List (Operation I O)) := [history]

def noPartitionEvent (history : List (Event I O)) : List (List (Event I O)) := [history]

def shallowEqual [DecidableEq S] (state1 state2 : S) : Bool := state1 = state2

def fillDefault [DecidableEq S] (model : Model S I O) : FullModel S I O where
  partition := model.partition.getD noPartition
  partitionEvent := model.partitionEvent.getD noPartitionEvent
  init := model.init
  step := model.step
  equal := model.equal.getD shallowEqual

structure Entry (I O : Type) where
  kind : Kind
  value : I ⊕ O
  id : ℤ
  time : ℤ
  clientId : ℤ
  deriving DecidableEq

def less (a b : Entry I O) : Bool :=
  if a.time ≠ b.time then a.time < b.time else a.kind = .call ∧ b.kind = .ret

def entriesFrom (id : ℤ) : List (Operation I O) → List (Entry I O)
  | [] => []
  | elem :: rest =>
    ⟨.call, .inl elem.input, id, elem.call, elem.clientId⟩ ::
      ⟨.ret, .inr elem.output, id, elem.ret, elem.clientId⟩ :: entriesFrom (id + 1) rest

def MakeEntries (history : List (Operation I O)) (entries : List (Entry I O)) : Prop :=
  entries.Perm (entriesFrom 0 history) ∧ entries.Pairwise fun a b => less b a = false

/-- The loop of `renumber` over the map `m` and the next number `id`. -/
def renumberFrom (m : ℤ → Option ℤ) (id : ℤ) : List (Event I O) → List (Event I O)
  | [] => []
  | v :: rest =>
    match m v.id with
    | some r => { v with id := r } :: renumberFrom m id rest
    | none => { v with id := id } :: renumberFrom (Function.update m v.id (some id)) (id + 1) rest

def renumber (events : List (Event I O)) : List (Event I O) := renumberFrom (fun _ => none) 0 events

def convertFrom (i : ℤ) : List (Event I O) → List (Entry I O)
  | [] => []
  | elem :: rest => ⟨elem.kind, elem.value, elem.id, i, elem.clientId⟩ :: convertFrom (i + 1) rest

def convertEntries (events : List (Event I O)) : List (Entry I O) := convertFrom 0 events

end Entries

/-- What a node holds besides its links; `matching` is the field `match`, nil in a
return. Only the head of the list has a nil value. -/
structure Item (I O : Type) where
  value : Option (I ⊕ O)
  matching : Option ℕ
  id : ℤ
  deriving DecidableEq

abbrev Node (I O : Type) := Cell (Item I O)

section Nodes

variable {I O : Type}

/-- The nodes made so far, the first of the list, and the return of each id. -/
structure Linking (I O : Type) where
  nodes : List (Node I O)
  root : Option ℕ
  matching : ℤ → Option ℕ

def linkEntry (elem : Entry I O) (l : Linking I O) : Option (Linking I O) :=
  let entry := l.nodes.length
  match elem.kind with
  | .ret => do
    let nodes ← insertBefore (l.nodes ++ [⟨⟨some elem.value, none, elem.id⟩, none, none⟩])
      entry l.root
    some ⟨nodes, entry, Function.update l.matching elem.id (some entry)⟩
  | .call => do
    let nodes ← insertBefore
      (l.nodes ++ [⟨⟨some elem.value, l.matching elem.id, elem.id⟩, none, none⟩]) entry l.root
    some ⟨nodes, entry, l.matching⟩

def makeLinkedEntries : List (Entry I O) → Option (Linking I O)
  | [] => some ⟨[], none, fun _ => none⟩
  | elem :: rest => do linkEntry elem (← makeLinkedEntries rest)

/-- Take a call and its return out of the list. Nothing guards `entry.next`. -/
def lift (nodes : List (Node I O)) (entry : ℕ) : Option (List (Node I O)) := do
  let e ← nodes[entry]?
  let _ ← e.next
  let nodes ← unlink nodes entry
  unlink nodes (← e.item.matching)

def unlift (nodes : List (Node I O)) (entry : ℕ) : Option (List (Node I O)) := do
  let e ← nodes[entry]?
  let nodes ← relink nodes (← e.item.matching)
  let e ← nodes[entry]?
  let _ ← e.next
  relink nodes entry

end Nodes

structure CacheEntry (S : Type) where
  linearized : Bitset
  state : S

abbrev Cache (S : Type) := BitVec 64 → List (CacheEntry S)

structure CallsEntry (S : Type) where
  entry : ℕ
  state : S

/-- A pointer to a sequence of ids. A sequence is not written again once it is
pointed to, so that the ids belong to the address. -/
structure Sequence where
  address : ℕ
  ids : List ℤ
  deriving DecidableEq

/-- The variables of the loop in `checkSingle`, and how many sequences it has made. -/
structure Search (S I O : Type) where
  nodes : List (Node I O)
  headEntry : ℕ
  entry : Option ℕ
  linearized : Bitset
  cache : Cache S
  calls : List (CallsEntry S)
  longest : List (Option Sequence)
  state : S
  made : ℕ

structure Verdict where
  ok : Bool
  longest : List (Option Sequence)
  deriving DecidableEq

section Check

variable {S I O : Type}

def cacheContains (model : FullModel S I O) (cache : Cache S) (entry : CacheEntry S) : Bool :=
  (cache entry.linearized.hash).any fun elem =>
    entry.linearized.equals elem.linearized && model.equal entry.state elem.state

def callIds (nodes : List (Node I O)) (calls : List (CallsEntry S)) : Option (List ℤ) :=
  calls.reverse.mapM fun v => nodes[v.entry]?.map fun e => e.item.id

/-- Write `seq` for `id` unless what is there is as long. -/
def recordLongest (seq : Sequence) (longest : List (Option Sequence)) (id : ℤ) :
    Option (List (Option Sequence)) := do
  let i ← id.toNat?
  match ← longest[i]? with
  | none => some (longest.set i (some seq))
  | some old => some (if old.ids.length < seq.ids.length then longest.set i (some seq) else longest)

/-- A call at `entry`, its node being `e`: try it as the next one. -/
def tryCall (model : FullModel S I O) (search : Search S I O) (entry : ℕ) (e : Node I O)
    (matching : ℕ) : Option (Search S I O) := do
  let m ← search.nodes[matching]?
  let input ← (← e.item.value).getLeft?
  let output ← (← m.item.value).getRight?
  let (ok, newState) := model.step search.state input output
  if ok then
    let newLinearized ← search.linearized.set (← e.item.id.toNat?)
    let newCacheEntry : CacheEntry S := ⟨newLinearized, newState⟩
    if cacheContains model search.cache newCacheEntry then
      some { search with entry := e.next }
    else
      let hash := newLinearized.hash
      let nodes ← lift search.nodes entry
      let head ← nodes[search.headEntry]?
      some { search with
        nodes := nodes
        entry := head.next
        linearized := newLinearized
        cache := Function.update search.cache hash (search.cache hash ++ [newCacheEntry])
        calls := ⟨entry, search.state⟩ :: search.calls
        state := newState }
  else some { search with entry := e.next }

def recordCalls (computePartial : Bool) (search : Search S I O) :
    Option (List (Option Sequence)) :=
  if computePartial then do
    let ids ← callIds search.nodes search.calls
    ids.foldlM (recordLongest ⟨search.made, ids⟩) search.longest
  else some search.longest

def backtrack (computePartial : Bool) (search : Search S I O) (callsTop : CallsEntry S)
    (below : List (CallsEntry S)) : Option (Search S I O) := do
  let longest ← recordCalls computePartial search
  let e ← search.nodes[callsTop.entry]?
  let linearized ← search.linearized.clear (← e.item.id.toNat?)
  let nodes ← unlift search.nodes callsTop.entry
  let e ← nodes[callsTop.entry]?
  some { search with
    nodes := nodes
    entry := e.next
    linearized := linearized
    calls := below
    longest := longest
    state := callsTop.state
    made := search.made + 1 }

/-- One test of the loop of `checkSingle` and one round, or its end. -/
def iterate (model : FullModel S I O) (computePartial killed : Bool) (search : Search S I O) :
    Option (Search S I O ⊕ Verdict) := do
  let head ← search.nodes[search.headEntry]?
  if head.next = none then
    let ids ← callIds search.nodes search.calls
    some (.inr ⟨true, search.longest.map fun _ => some ⟨search.made, ids⟩⟩)
  else if killed then some (.inr ⟨false, search.longest⟩)
  else
    let entry ← search.entry
    let e ← search.nodes[entry]?
    match e.item.matching with
    | some matching => (tryCall model search entry e matching).map .inl
    | none =>
      match search.calls with
      | [] => some (.inr ⟨false, search.longest⟩)
      | callsTop :: below => (backtrack computePartial search callsTop below).map .inl

def startSearch (model : FullModel S I O) (history : List (Entry I O)) :
    Option (Search S I O) := do
  let linked ← makeLinkedEntries history
  let count ← length linked.nodes linked.nodes.length linked.root
  let n := count / 2
  let headEntry := linked.nodes.length
  let nodes ← insertBefore (linked.nodes ++ [⟨⟨none, none, -1⟩, none, none⟩]) headEntry linked.root
  some ⟨nodes, headEntry, linked.root, newBitset n, fun _ => [], [], List.replicate n none,
    model.init, 0⟩

/-- The loop of `checkSingle` for at most so many rounds; the n-th load of the kill
flag reads `kill n`. -/
def searchLoop (model : FullModel S I O) (computePartial : Bool) :
    ℕ → (ℕ → Bool) → Search S I O → Option (Search S I O ⊕ Verdict)
  | 0, _, search => some (.inl search)
  | rounds + 1, kill, search => do
    match ← iterate model computePartial (kill 0) search with
    | .inl next => searchLoop model computePartial rounds (fun n => kill (n + 1)) next
    | .inr v => some (.inr v)

def checkSingle (model : FullModel S I O) (history : List (Entry I O)) (computePartial : Bool)
    (kill : ℕ → Bool) (rounds : ℕ) : Option (Search S I O ⊕ Verdict) := do
  searchLoop model computePartial rounds kill (← startSearch model history)

end Check
end DistributedLabs.Porcupine
