import Mathlib.Logic.Function.Basic
import TrafficServer.Cache.Part

/-!
# The table of open writers

`OpenDir` has an `OpenDirEntry` for each key that is being written. An entry keeps no key of its own:
it is known by the `first_key` of the writer at the head of its list. Entries and `CacheVC`s are known
by numbers that stand for their addresses.

`WriterTable` is what the table is for: the writers of each key, and the limit set by the first one.
-/

namespace TrafficServer

open Function

/-- `OpenDirEntry`: the counts are `inku16`. -/
structure OpenDirEntry where
  writers : List Nat
  readers : List Nat
  numWriters : BitVec 16
  maxWriters : BitVec 16

/-- The fields of a writing `CacheVC` that the table uses. -/
structure WriteVC where
  firstKey : CacheKey
  od : Option Nat

structure OpenDir where
  bucket : Nat → List Nat
  entry : Nat → OpenDirEntry
  nextEntry : Nat
  vc : Nat → WriteVC
  delayedReaders : List Nat

/-- What `signal_readers` finds at the mutex of a reader. -/
inductive ReaderLock
  | otherThread
  | taken
  | missed

namespace OpenDir

def openDirBuckets : Nat := 256

def bucketOf (key : CacheKey) : Nat := key.word 0 % openDirBuckets

def empty : OpenDir where
  bucket _ := []
  entry _ := ⟨[], [], 0, 0⟩
  nextEntry := 0
  vc _ := ⟨⟨0, 0⟩, none⟩
  delayedReaders := []

variable (d : OpenDir)

def headKey (e : Nat) : Option CacheKey :=
  (d.entry e).writers.head?.map fun w => (d.vc w).firstKey

/-- `open_read`; `open_write` has the same loop. -/
def openRead (key : CacheKey) : Option Nat :=
  (d.bucket (bucketOf key)).find? fun e => d.headKey e = some key

def pushWriter (cont e : Nat) : OpenDir :=
  { d with
    entry := update d.entry e
      { d.entry e with
        writers := cont :: (d.entry e).writers
        numWriters := (d.entry e).numWriters + 1 }
    vc := update d.vc cont { d.vc cont with od := some e } }

def pushEntry (cont : Nat) (maxWriters : Int) : OpenDir :=
  let b := bucketOf (d.vc cont).firstKey
  { d with
    entry := update d.entry d.nextEntry ⟨[cont], [], 1, BitVec.ofInt 16 maxWriters⟩
    nextEntry := d.nextEntry + 1
    vc := update d.vc cont { d.vc cont with od := some d.nextEntry }
    bucket := update d.bucket b (d.nextEntry :: d.bucket b) }

def openWrite (cont : Nat) (allowIfWriters : Bool) (maxWriters : Int) : OpenDir × Nat :=
  match d.openRead (d.vc cont).firstKey with
  | some e =>
    if allowIfWriters ∧ (d.entry e).numWriters < (d.entry e).maxWriters then (d.pushWriter cont e, 1)
    else (d, 0)
  | none => (d.pushEntry cont maxWriters, 1)

/-- The loop of `signal_readers`: a reader whose lock is taken gets its event; the others are
`newly_delayed_readers`. -/
def signalLoop (lock : Nat → ReaderLock) : List Nat → List Nat → List Nat
  | [], newly => newly
  | r :: rs, newly =>
    match lock r with
    | .otherThread => signalLoop lock rs (newly ++ [r])
    | .taken => signalLoop lock rs newly
    | .missed => signalLoop lock rs (r :: newly)

def signalReaders (lock : Nat → ReaderLock) : OpenDir :=
  { d with delayedReaders := signalLoop lock d.delayedReaders [] }

/-- The entry after its last writer: out of its bucket, its readers signalled. -/
def removeEntry (cont e : Nat) (lock : Nat → ReaderLock) : OpenDir :=
  let b := bucketOf (d.vc cont).firstKey
  ({ d with
      bucket := update d.bucket b ((d.bucket b).erase e)
      delayedReaders := d.delayedReaders ++ (d.entry e).readers } : OpenDir).signalReaders lock

def popWriter (cont e : Nat) : OpenDir :=
  { d with
    entry := update d.entry e
      { d.entry e with
        writers := (d.entry e).writers.erase cont
        numWriters := (d.entry e).numWriters - 1 } }

def clearOd (cont : Nat) : OpenDir :=
  { d with vc := update d.vc cont { d.vc cont with od := none } }

/-- `close_write`; there is no entry to take the writer from if `od` is null. -/
def closeWrite (cont : Nat) (lock : Nat → ReaderLock) : Option OpenDir :=
  (d.vc cont).od.map fun e =>
    let d := d.popWriter cont e
    if (d.entry e).writers = [] then (d.removeEntry cont e lock).clearOd cont else d.clearOd cont

def wait (e reader : Nat) : OpenDir :=
  { d with
    entry := update d.entry e
      { d.entry e with readers := reader :: (d.entry e).readers } }

def setFirstKey (cont : Nat) (key : CacheKey) : OpenDir :=
  { d with vc := update d.vc cont { d.vc cont with firstKey := key } }

end OpenDir

/-- A call: a `CacheVC` opens for writing under a key, a writer closes, or a reader waits for the
writers of a key. -/
inductive OpenDirOp
  | openWrite (cont : Nat) (key : CacheKey) (allowIfWriters : Bool) (maxWriters : Int)
  | closeWrite (cont : Nat) (lock : Nat → ReaderLock)
  | wait (key : CacheKey) (reader : Nat)

def OpenDir.apply (d : OpenDir) : OpenDirOp → Option OpenDir
  | .openWrite cont key allowIfWriters maxWriters =>
    some ((d.setFirstKey cont key).openWrite cont allowIfWriters maxWriters).1
  | .closeWrite cont lock => d.closeWrite cont lock
  | .wait key reader => (d.openRead key).map (d.wait · reader)

/-! ### The abstract table -/

/-- The writers of each key, and the limit that the first of them has set. -/
structure WriterTable where
  writers : CacheKey → List Nat
  limit : CacheKey → Int

namespace WriterTable

def empty : WriterTable := ⟨fun _ => [], fun _ => 0⟩

variable (t : WriterTable)

def openWrite (cont : Nat) (key : CacheKey) (allowIfWriters : Bool) (maxWriters : Int) :
    WriterTable × Nat :=
  if t.writers key = [] then
    (⟨update t.writers key [cont], update t.limit key maxWriters⟩, 1)
  else if allowIfWriters ∧ ((t.writers key).length : Int) < t.limit key then
    (⟨update t.writers key (cont :: t.writers key), t.limit⟩, 1)
  else (t, 0)

def closeWrite (cont : Nat) : WriterTable := ⟨fun key => (t.writers key).erase cont, t.limit⟩

def apply : OpenDirOp → WriterTable
  | .openWrite cont key allowIfWriters maxWriters =>
    (t.openWrite cont key allowIfWriters maxWriters).1
  | .closeWrite cont _ => t.closeWrite cont
  | .wait .. => t

end WriterTable

end TrafficServer
