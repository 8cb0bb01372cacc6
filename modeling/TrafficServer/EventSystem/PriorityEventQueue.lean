import Mathlib.Algebra.Group.Nat.Defs
import Mathlib.Logic.Function.Basic
import Mathlib.Data.List.Nodup

/-!
# The priority event queue

Timed events wait on ten lists, by how long they have to wait. `check_ready` looks again at the first
lists only, as many as the highest bit tells that has changed in the number of the current interval of
5 ms. Events are known by numbers that stand for their addresses.
-/

namespace TrafficServer

/-- What the queue reads and writes of an `Event`. -/
structure Event where
  timeoutAt : Int
  inHeap : Nat := 0
  inThePriorityQueue : Bool := false
  cancelled : Bool := false
deriving DecidableEq

def nPqList : Nat := 10

def pqBucketTime (i : Nat) : Nat := 5 * 1000000 * 2 ^ i

structure PriorityEventQueue where
  event : Nat → Event
  after : Nat → List Nat := fun _ => []
  lastCheckTime : Nat
  lastCheckBuckets : Nat

namespace PriorityEventQueue

def buckets (now : Nat) : Nat := now / pqBucketTime 0 % 2 ^ 32

def new (timeoutAt : Nat → Int) (now : Nat) : PriorityEventQueue where
  event := fun e => { timeoutAt := timeoutAt e }
  lastCheckTime := now
  lastCheckBuckets := buckets now

variable (q : PriorityEventQueue)

def setEvent (e : Nat) (x : Event) : PriorityEventQueue :=
  { q with event := Function.update q.event e x }

def setAfter (i : Nat) (l : List Nat) : PriorityEventQueue :=
  { q with after := Function.update q.after i l }

def listFor (t : Int) : Nat :=
  if t ≤ pqBucketTime 3 then
    if t ≤ pqBucketTime 1 then
      if t ≤ pqBucketTime 0 then 0 else 1
    else
      if t ≤ pqBucketTime 2 then 2 else 3
  else
    if t ≤ pqBucketTime 7 then
      if t ≤ pqBucketTime 5 then
        if t ≤ pqBucketTime 4 then 4 else 5
      else
        if t ≤ pqBucketTime 6 then 6 else 7
    else
      if t ≤ pqBucketTime 8 then 8 else 9

def put (e i : Nat) : PriorityEventQueue :=
  (q.setEvent e { q.event e with inHeap := i }).setAfter i (q.after i ++ [e])

def enqueue (e now : Nat) : PriorityEventQueue :=
  (q.setEvent e { q.event e with inThePriorityQueue := true }).put e
    (listFor ((q.event e).timeoutAt - now))

def remove (e : Nat) : PriorityEventQueue :=
  (q.setEvent e { q.event e with inThePriorityQueue := false }).setAfter (q.event e).inHeap
    ((q.after (q.event e).inHeap).erase e)

def dequeueReady : PriorityEventQueue × Option Nat :=
  match q.after 0 with
  | [] => (q, none)
  | e :: l => ((q.setEvent e { q.event e with inThePriorityQueue := false }).setAfter 0 l, some e)

def countBits : Nat → Nat → Nat
  | 0, _ => 0
  | fuel + 1, todo => if todo = 0 then 0 else countBits fuel (todo / 2) + 1

/-- From list `j` down, while the time to wait is not longer than that of the list before. -/
def demote (tt : Int) : Nat → Nat
  | 0 => 0
  | j + 1 => if tt ≤ pqBucketTime j then demote tt j else j + 1

/-- An event of list `i`; if it has been cancelled it is freed. -/
def checkEvent (now i : Nat) (q : PriorityEventQueue) (e : Nat) : PriorityEventQueue :=
  if (q.event e).cancelled then
    q.setEvent e { q.event e with inThePriorityQueue := false, cancelled := false }
  else q.put e (demote ((q.event e).timeoutAt - now) i)

def checkList (now : Nat) (q : PriorityEventQueue) (i : Nat) : PriorityEventQueue :=
  (q.after i).foldl (checkEvent now i) (q.setAfter i [])

def todoLists (now : Nat) : Nat :=
  countBits 32 ((buckets now ^^^ q.lastCheckBuckets) &&& (2 ^ (nPqList - 1) - 1))

def checkReady (now : Nat) : PriorityEventQueue :=
  (List.range' 1 (q.todoLists now)).foldl (checkList now)
    { q with lastCheckTime := now, lastCheckBuckets := buckets now }

def cancel (e : Nat) : PriorityEventQueue := q.setEvent e { q.event e with cancelled := true }

def drain : Nat → PriorityEventQueue → List Nat
  | 0, _ => []
  | fuel + 1, q =>
    match q.dequeueReady with
    | (_, none) => []
    | (q, some e) => e :: drain fuel q

end PriorityEventQueue

end TrafficServer
