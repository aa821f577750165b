import GravTree.Session
import GravTree.Lib.System

/-!
# Threads

The clients, the background flush thread and the destructor, one critical section
or one access to a flag at a time. A wait on `flush_cv_` tests its predicate under
`flush_cv_mu_` and then releases the mutex and blocks in one step; a notify wakes
threads that are blocked when it is issued.

The tree is behind `cache_mu_`: what the flush thread does to it, what `flush()`
does and what a lookup does are single steps here.
-/

namespace GravTree

/-- What the threads read of `opts_`. -/
structure Options where
  /-- `buffer_threshold`. -/
  bufferThreshold : Nat
  /-- `hard_limit()`. -/
  hardLimit : Nat

/-- What `insert` or `remove` was asked to write. -/
structure Write where
  key : Bytes
  value : Bytes
  deleted : Bool

/-- What a client goes on with after `wait_for_flush_complete`. -/
inductive Resume where
  /-- `insert` and `remove` write. -/
  | write (r : Write)
  /-- `flush()` drains. -/
  | drain

/-- Where a client is. -/
inductive Client where
  | idle
  /-- Before the test against `hard_limit()`. -/
  | limit (r : Write)
  /-- Before the test of the wait's predicate. -/
  | wait (k : Resume)
  /-- The predicate was false and the mutex is still held. -/
  | block (k : Resume)
  | blocked (k : Resume)
  /-- Before the critical section of `insert` and `remove`. -/
  | write (r : Write)
  /-- Before the test against `buffer_threshold`. -/
  | threshold
  /-- Before the exchange of `signal_flush`, called by `flush()` or by a write. -/
  | signal (flushing : Bool)
  /-- Before `notify_one`. -/
  | notify (flushing : Bool)
  /-- Before `get`'s lookup in the write buffer. -/
  | lookup (key : Bytes) (since : Nat)
  /-- Before `get`'s lookup in the tree. -/
  | descend (key : Bytes) (since : Nat)
  /-- Before `flush()` drains the write buffer. -/
  | drain
  /-- Before `flush()` merges what it drained and writes the root. -/
  | persist (pending : List Entry)

/-- Where the flush thread is. -/
inductive Flusher where
  /-- Before the test of the wait's predicate. -/
  | test
  /-- The predicate was false and the mutex is still held. -/
  | block
  | blocked
  /-- Before the test of `stop_`. -/
  | awake
  /-- Before `flush_in_progress_` is set. -/
  | raise
  /-- Before the write buffer is drained. -/
  | drain
  /-- Before the drained entries are merged into the root. -/
  | merge (pending : List Entry)
  /-- Before `flush_requested_` is cleared. -/
  | clearRequest
  /-- Before `flush_in_progress_` is cleared. -/
  | clearProgress
  /-- Before `notify_all`. -/
  | notify
  | exited

/-- Where the destructor is. -/
inductive Destructor where
  /-- Not called. -/
  | idle
  /-- Before `notify_all`. -/
  | notify
  /-- Before `join`. -/
  | join
  | drain
  | persist (pending : List Entry)
  | gone

/-- What a `get` returned, and how many writes had been made when it was called. -/
structure Answer where
  key : Bytes
  since : Nat
  result : Except Exc (Option Bytes)

/-- The state of one session with `n` clients. The code does not have the last two
fields. -/
structure State (n : Nat) where
  writeBuf : WriteBuf := {}
  seq : SequenceNumber := 1
  world : World
  /-- `flush_requested_`. -/
  requested : Bool := false
  /-- `flush_in_progress_`. -/
  inProgress : Bool := false
  /-- `stop_`. -/
  stop : Bool := false
  flusher : Flusher := .test
  clients : Fin n → Client := fun _ => .idle
  destructor : Destructor := .idle
  /-- The writes, oldest first. -/
  log : List Entry := []
  answers : List Answer := []

/-- A call. -/
inductive Call where
  | insert (key value : Bytes)
  | remove (key : Bytes)
  | get (key : Bytes)
  | flush

/-- A thread that can block on `flush_cv_`. -/
inductive Waiter (n : Nat) where
  | flusher
  | client (i : Fin n)

/-- The client of a system that has one. -/
def soleClient : Fin 1 := 0

/-- What happens next. `plan` is what the environment does to the file operations. -/
inductive Event (n : Nat) where
  /-- An idle client makes a call. -/
  | call (i : Fin n) (c : Call)
  /-- The next step of a client. `woken` is the thread its `notify_one` wakes. -/
  | client (i : Fin n) (woken : Option (Waiter n)) (plan : Option (Nat × Stop))
  /-- The next step of the flush thread. -/
  | flusher (plan : Option (Nat × Stop))
  /-- The next step of the destructor. -/
  | destructor (plan : Option (Nat × Stop))

/-- Where `wait_for_flush_complete` returns to. -/
def Resume.next : Resume → Client
  | .write r => .write r
  | .drain => .drain

namespace Client

/-- Where `signal_flush` returns to. -/
def signalled (flushing : Bool) : Client := if flushing then .wait .drain else .idle

/-- Between the test and the block of a wait. -/
def isBlock : Client → Bool
  | .block _ => true
  | _ => false

def isBlocked : Client → Bool
  | .blocked _ => true
  | _ => false

/-- What a notification makes of it. -/
def wake : Client → Client
  | .blocked k => .wait k
  | c => c

end Client

namespace Flusher

def isBlock : Flusher → Bool
  | .block => true
  | _ => false

def isBlocked : Flusher → Bool
  | .blocked => true
  | _ => false

/-- What a notification makes of it. -/
def wake : Flusher → Flusher
  | .blocked => .test
  | f => f

end Flusher

namespace State

variable {n : Nat}

/-- A session on an empty directory. -/
def start (n : Nat) (sizing : Sizing) : State n := { world := (Db.start sizing).world }

/-- `flush_cv_mu_` is free. -/
def mutexFree (s : State n) : Bool :=
  !s.flusher.isBlock && decide (∀ i, (s.clients i).isBlock = false)

/-- The predicate of the flush thread's wait. -/
def wanted (s : State n) : Bool := s.requested || s.stop

/-- The predicate of `wait_for_flush_complete`. -/
def calm (s : State n) : Bool := !s.inProgress || s.stop

/-- The client `i` goes on to `c`. -/
@[simps]
def goto (s : State n) (i : Fin n) (c : Client) : State n :=
  { s with clients := Function.update s.clients i c }

/-- `notify_all`. -/
@[simps]
def notifyAll (s : State n) : State n :=
  { s with flusher := s.flusher.wake, clients := fun i => (s.clients i).wake }

/-- `notify_one`: some blocked thread wakes, if there is one. -/
def notifyOne (s : State n) : Option (Waiter n) → Option (State n)
  | none =>
    if !s.flusher.isBlocked && decide (∀ i, (s.clients i).isBlocked = false) then some s else none
  | some .flusher => if s.flusher.isBlocked then some { s with flusher := .test } else none
  | some (.client i) =>
    if (s.clients i).isBlocked then some (s.goto i (s.clients i).wake) else none

/-- The critical section of `insert` and `remove`. -/
@[simps]
def write (s : State n) (r : Write) : State n :=
  let e : Entry := { key := r.key, value := r.value, seqNo := s.seq, deleted := r.deleted }
  { s with writeBuf := s.writeBuf.insert e, seq := s.seq + 1, log := s.log ++ [e] }

/-- A `get` returns. -/
@[simps]
def answer (s : State n) (a : Answer) : State n := { s with answers := s.answers ++ [a] }

/-- The first step of a call. -/
def call (s : State n) (i : Fin n) : Call → State n
  | .insert k v => s.goto i (.limit ⟨k, v, false⟩)
  | .remove k => s.goto i (.limit ⟨k, .empty, true⟩)
  | .get k => s.goto i (.lookup k s.log.length)
  | .flush => s.goto i (.signal true)

/-- The next step of client `i`. -/
def clientStep (o : Options) (s : State n) (i : Fin n) (woken : Option (Waiter n))
    (plan : Option (Nat × Stop)) : Option (State n) :=
  match s.clients i with
  | .idle => none
  | .limit r =>
    some (s.goto i (if o.hardLimit ≤ s.writeBuf.sizeBytes then .wait (.write r) else .write r))
  | .wait k =>
    if s.mutexFree then
      some (s.goto i (if s.calm then k.next else .block k))
    else none
  | .block k => some (s.goto i (.blocked k))
  | .blocked _ => none
  | .write r => some ((s.write r).goto i .threshold)
  | .threshold =>
    some (s.goto i (if o.bufferThreshold ≤ s.writeBuf.sizeBytes then .signal false else .idle))
  | .signal flushing =>
    some ({ s with requested := true }.goto i
      (if s.requested then .signalled flushing else .notify flushing))
  | .notify flushing =>
    (s.notifyOne woken).map (·.goto i (.signalled flushing))
  | .lookup k since =>
    match s.writeBuf.findKey k with
    | some e =>
      some ((s.answer ⟨k, since, .ok (if e.deleted then none else some e.value)⟩).goto i .idle)
    | none => some (s.goto i (.descend k since))
  | .descend k since =>
    some (({ s with world := Act.exec (getFromTree k) ⟨s.world, plan⟩ }.answer
      ⟨k, since, Act.eval (getFromTree k) ⟨s.world, plan⟩⟩).goto i .idle)
  | .drain => some ({ s with writeBuf := {} }.goto i (.persist s.writeBuf.entries))
  | .persist pending =>
    some ({ s with world := Act.exec (persistRoot pending) ⟨s.world, plan⟩ }.goto i .idle)

/-- The next step of `flush_thread_fn`. -/
def flusherStep (s : State n) (plan : Option (Nat × Stop)) : Option (State n) :=
  match s.flusher with
  | .test =>
    if s.mutexFree then some { s with flusher := if s.wanted then .awake else .block } else none
  | .block => some { s with flusher := .blocked }
  | .blocked => none
  | .awake => some { s with flusher := if s.stop then .exited else .raise }
  | .raise => some { s with inProgress := true, flusher := .drain }
  | .drain => some { s with writeBuf := {}, flusher := .merge s.writeBuf.entries }
  | .merge pending => some { s with
      world := Act.exec (catchAll (flushPending pending)) ⟨s.world, plan⟩
      flusher := .clearRequest }
  | .clearRequest => some { s with requested := false, flusher := .clearProgress }
  | .clearProgress => some { s with inProgress := false, flusher := .notify }
  | .notify => some { s.notifyAll with flusher := .test }
  | .exited => none

/-- The next step of the destructor. -/
def destructorStep (s : State n) (plan : Option (Nat × Stop)) : Option (State n) :=
  match s.destructor with
  | .idle => some { s with stop := true, destructor := .notify }
  | .notify => some { s.notifyAll with destructor := .join }
  | .join =>
    match s.flusher with
    | .exited => some { s with destructor := .drain }
    | _ => none
  | .drain => some { s with writeBuf := {}, destructor := .persist s.writeBuf.entries }
  | .persist pending => some { s with
      world := Act.exec (catchAll (destroyTree pending)) ⟨s.world, plan⟩
      destructor := .gone }
  | .gone => none

/-- One step. -/
def step (o : Options) (s : State n) : Event n → Option (State n)
  | .call i c =>
    match s.clients i with
    | .idle => some (s.call i c)
    | _ => none
  | .client i woken plan => s.clientStep o i woken plan
  | .flusher plan => s.flusherStep plan
  | .destructor plan => s.destructorStep plan

end State

end GravTree
