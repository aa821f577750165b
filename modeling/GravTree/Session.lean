import GravTree.Tree

/-!
# Sessions

A session is what lies between `GravTree::open` and the destructor: the write
buffer, the sequence counter and the tree. Here the client's calls and the
background flush cycles are taken one at a time, each run to its end;
`GravTree.Threads` interleaves their critical sections.
-/

namespace GravTree

/-- The write buffer as its readers see it: the bottom chain of the skip list. -/
structure WriteBuf where
  entries : List Entry := []
  sorted : Sorted entries := by exact List.Pairwise.nil

namespace WriteBuf

/-- `SkipList::insert`: after every entry that sorts before the new one. -/
def insert (b : WriteBuf) (e : Entry) : WriteBuf where
  entries := b.entries.orderedInsert Entry.le e
  sorted := b.sorted.orderedInsert e b.entries

/-- `SkipList::find_key`. -/
def findKey (b : WriteBuf) (key : Bytes) : Option Entry := lookupSorted b.entries key

/-- `SkipList::size_bytes`. -/
def sizeBytes (b : WriteBuf) : Nat := (b.entries.map Entry.sizeBytes).sum

end WriteBuf

/-- A session. -/
structure Db where
  writeBuf : WriteBuf := {}
  /-- `seq_`. -/
  seq : SequenceNumber := 1
  world : World

namespace Db

/-- `GravTree::open` on a directory. -/
def openDir (sizing : Sizing) (disk : Disk) : Except Exc Db :=
  match openTree ⟨{ sizing, disk }, none⟩ with
  | .ok _ m => .ok { world := m.world }
  | .error e _ => .error e

/-- A session on an empty directory. -/
def start (sizing : Sizing) : Db := { world := Act.exec openTree ⟨{ sizing }, none⟩ }

/-- The critical section of `insert` and `remove`. -/
def write (db : Db) (key value : Bytes) (deleted : Bool) : Db :=
  { db with
    writeBuf := db.writeBuf.insert { key, value, seqNo := db.seq, deleted }
    seq := db.seq + 1 }

/-- `insert`. -/
def insert (db : Db) (key value : Bytes) : Db := db.write key value false

/-- `remove`. -/
def remove (db : Db) (key : Bytes) : Db := db.write key .empty true

/-- One background cycle: drain the write buffer, then merge and flush. `stop` is
the environment's plan for the file operations of the cycle. -/
def cycleWith (db : Db) (stop : Option (Nat × Stop)) : Db :=
  { db with
    writeBuf := {}
    world := Act.exec (catchAll (flushPending db.writeBuf.entries)) ⟨db.world, stop⟩ }

/-- A background cycle whose file operations succeed. -/
def cycle (db : Db) : Db := db.cycleWith none

/-- `flush()` once the background thread is idle: drain, merge, persist. -/
def flushWith (db : Db) (stop : Option (Nat × Stop)) : Db :=
  { db with
    writeBuf := {}
    world := Act.exec (persistRoot db.writeBuf.entries) ⟨db.world, stop⟩ }

/-- A `flush()` whose file operations succeed. -/
def flush (db : Db) : Db := db.flushWith none

/-- `get`. -/
def get (db : Db) (key : Bytes) : Except Exc (Option Bytes) :=
  match db.writeBuf.findKey key with
  | some e => .ok (if e.deleted then none else some e.value)
  | none => Act.eval (getFromTree key) ⟨db.world, none⟩

/-- `range_scan`. -/
def rangeScan (db : Db) (first last : Bytes) : Except Exc (List Entry) :=
  Act.eval (rangeScanTree db.writeBuf.entries first last) ⟨db.world, none⟩

/-- What the destructor leaves. -/
def closed (db : Db) : World :=
  Act.exec (catchAll (destroyTree db.writeBuf.entries)) ⟨db.world, none⟩

/-- The directory the destructor leaves. -/
def close (db : Db) : Disk := db.closed.disk

/-- The destructor, then `open` on the directory it leaves. -/
def reopen (db : Db) : Except Exc Db := openDir db.world.sizing db.close

end Db

/-! ## Runs -/

/-- A step of a session. -/
inductive Op where
  | insert (key value : Bytes)
  | remove (key : Bytes)
  | flush
  | cycle

namespace Db

def step (db : Db) : Op → Db
  | .insert k v => db.insert k v
  | .remove k => db.remove k
  | .flush => db.flush
  | .cycle => db.cycle

/-- A run of one session. -/
def run (db : Db) (ops : List Op) : Db := ops.foldl step db

@[simp] theorem run_nil (db : Db) : db.run [] = db := rfl

@[simp] theorem run_cons (db : Db) (op : Op) (ops : List Op) :
    db.run (op :: ops) = (db.step op).run ops := rfl

theorem run_append (db : Db) (ops ops' : List Op) :
    db.run (ops ++ ops') = (db.run ops).run ops' := List.foldl_append ..

end Db

/-- The value a run last gave `key`: none if it was removed last or never written. -/
def lastWrite (key : Bytes) (ops : List Op) : Option Bytes :=
  ops.foldl (fun r op => match op with
    | .insert k v => if k = key then some v else r
    | .remove k => if k = key then none else r
    | _ => r) none

end GravTree
