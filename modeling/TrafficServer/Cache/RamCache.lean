import Mathlib.Logic.Function.Basic
import TrafficServer.Cache.Part
import TrafficServer.Lib.CInt

/-!
# The RAM cache

`RamCache` keeps document data in memory: each entry is in the hash bucket of its key and on the LRU
queue, and `cur_bytes` is the memory that the entries take. An entry is known by a number that stands
for its address; buckets and queue are lists of these.
-/

namespace TrafficServer

open CInt (toInt32)

/-- `IOBufferData`: its address and its `block_size`. -/
structure BufferData where
  addr : Nat
  blockSize : Nat
deriving DecidableEq, Repr

structure RamCacheEntry where
  key : CacheKey
  auxkey1 : BitVec 32
  auxkey2 : BitVec 32
  data : BufferData

/-- `RamCache` with its one partition. Entries are allocated in the order of their numbers. -/
structure RamCache where
  bytes : Int
  partitionSize : Nat
  seenSize : Nat
  curBytes : Int
  entry : Nat → RamCacheEntry
  nextEntry : Nat
  bucket : Nat → List Nat
  lru : List Nat
  seen : Nat → BitVec 16

namespace RamCache

def ramCacheFastLoadSize : Int := 32768

/-- `RamCache::init` of a new cache for `abytes` bytes. For no objects the cache stays disabled. -/
def init (abytes : Int) (aobjects : Nat) : RamCache where
  bytes := if aobjects = 0 then 0 else abytes
  partitionSize := aobjects
  seenSize := if aobjects = 0 then 0 else aobjects * 2 - 1
  curBytes := 0
  entry _ := ⟨⟨0, 0⟩, 0, 0, ⟨0, 0⟩⟩
  nextEntry := 0
  bucket _ := []
  lru := []
  seen _ := 0

variable (c : RamCache)

def bucketOf (key : CacheKey) : Nat := key.word 3 % c.partitionSize

def isEntry (key : CacheKey) (auxkey1 auxkey2 : BitVec 32) (e : Nat) : Bool :=
  (c.entry e).key = key ∧ (c.entry e).auxkey1 = auxkey1 ∧ (c.entry e).auxkey2 = auxkey2

def get (key : CacheKey) (auxkey1 auxkey2 : BitVec 32) : RamCache × Option BufferData :=
  if c.partitionSize = 0 then (c, none)
  else
    match (c.bucket (c.bucketOf key)).find? (c.isEntry key auxkey1 auxkey2) with
    | some e => ({ c with lru := c.lru.erase e ++ [e] }, some (c.entry e).data)
    | none => (c, none)

def removeEntry (ee : Nat) : RamCache :=
  let ii := c.bucketOf (c.entry ee).key
  { c with
    bucket := Function.update c.bucket ii ((c.bucket ii).erase ee)
    curBytes := toInt32 (c.curBytes - (c.entry ee).data.blockSize) }

/-- The walk of `put` through the bucket: whether the entry is present. Entries under the key with
other auxkeys are removed. -/
def putLoop (key : CacheKey) (auxkey1 auxkey2 : BitVec 32) : List Nat → RamCache → RamCache × Bool
  | [], c => (c, false)
  | e :: es, c =>
    if (c.entry e).key = key then
      if (c.entry e).auxkey1 = auxkey1 ∧ (c.entry e).auxkey2 = auxkey2 then (c, true)
      else putLoop key auxkey1 auxkey2 es (({ c with lru := c.lru.erase e } : RamCache).removeEntry e)
    else putLoop key auxkey1 auxkey2 es c

def pushEntry (key : CacheKey) (data : BufferData) (auxkey1 auxkey2 : BitVec 32) : RamCache :=
  let i := c.bucketOf key
  { c with
    entry := Function.update c.entry c.nextEntry ⟨key, auxkey1, auxkey2, data⟩
    nextEntry := c.nextEntry + 1
    bucket := Function.update c.bucket i (c.nextEntry :: c.bucket i)
    lru := c.lru ++ [c.nextEntry]
    curBytes := toInt32 (c.curBytes + data.blockSize) }

/-- The loop that evicts entries, along the queue. It takes the link of the head, and there is
none (`none`) when the queue is empty. -/
def evict : List Nat → RamCache → Option RamCache
  | [], c => if c.curBytes > c.bytes then none else some c
  | ee :: lru, c =>
    if c.curBytes > c.bytes then evict lru (({ c with lru := lru } : RamCache).removeEntry ee)
    else some c

def putEntry (key : CacheKey) (data : BufferData) (auxkey1 auxkey2 : BitVec 32) :
    Option (RamCache × Nat) :=
  let r := putLoop key auxkey1 auxkey2 (c.bucket (c.bucketOf key)) c
  if r.2 then some (r.1, 1)
  else
    let c := r.1.pushEntry key data auxkey1 auxkey2
    (evict c.lru c).map (·, 1)

def setSeen (key : CacheKey) : RamCache :=
  { c with seen := Function.update c.seen (key.word 3 % c.seenSize) (BitVec.ofNat 16 (key.word 3)) }

def put (key : CacheKey) (data : BufferData) (auxkey1 auxkey2 : BitVec 32) :
    Option (RamCache × Nat) :=
  if c.partitionSize = 0 then some (c, 0)
  else
    let oldseen := c.seen (key.word 3 % c.seenSize)
    if oldseen ≠ BitVec.ofNat 16 (key.word 3) ∧
        c.bytes ≤ toInt32 (c.curBytes + ramCacheFastLoadSize) then
      some (c.setSeen key, 0)
    else (c.setSeen key).putEntry key data auxkey1 auxkey2

/-- `fixup`: the first entry under the old auxkeys gets the new ones. -/
def fixup (key : CacheKey) (old1 old2 new1 new2 : BitVec 32) : RamCache × Nat :=
  if c.partitionSize = 0 then (c, 0)
  else
    match (c.bucket (c.bucketOf key)).find? (c.isEntry key old1 old2) with
    | some e =>
      ({ c with
          entry := Function.update c.entry e { c.entry e with auxkey1 := new1, auxkey2 := new2 } }, 1)
    | none => (c, 0)

end RamCache

/-- A call. -/
inductive RamOp
  | put (key : CacheKey) (data : BufferData) (auxkey1 auxkey2 : BitVec 32)
  | get (key : CacheKey) (auxkey1 auxkey2 : BitVec 32)
  | fixup (key : CacheKey) (old1 old2 new1 new2 : BitVec 32)

def RamCache.apply (c : RamCache) : RamOp → Option RamCache
  | .put key data auxkey1 auxkey2 => (c.put key data auxkey1 auxkey2).map (·.1)
  | .get key auxkey1 auxkey2 => some (c.get key auxkey1 auxkey2).1
  | .fixup key old1 old2 new1 new2 => some (c.fixup key old1 old2 new1 new2).1

end TrafficServer
