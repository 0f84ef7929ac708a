import Librocks.Kueue.Codec
import Librocks.Store.Defs

/-!
# The message queue

Reference: `include/impl/KueueImpl.h`.

This is `KueueImpl` as one thread runs it. A queue keeps its messages in a Kind of the store, under
the codes of the keys from `minKey` up to `maxKey`, and the two keys and the counters only in memory.
The locks have no effect on a single thread and are left out here. A wait that no other thread can end
halts with `blocked`; a wait with a timeout ends by itself.

Every method works on a local `state` when the caller passed no status pointer, so the store always
gets a variable to write to.
-/

namespace Librocks

def MIN_KEY : UInt64 := 0x0000000000000000

def MAX_KEY : UInt64 := 0xFFFFFFFFFFFFFFFF

/-- The members of `KueueImpl`. The store it points to is passed along with it. -/
structure KueueImpl where
  totalPuts_ : UInt64 := 0
  totalTakes_ : UInt64 := 0
  count : Int64 := 0
  minKey : UInt64 := MIN_KEY
  maxKey : UInt64 := MIN_KEY
  queueKind : Option Kind := none
  isValid_ : Bool := false
  deriving DecidableEq

namespace KueueImpl

/-- `getKindRef`: dereferences `queueKind`. -/
def getKindRef (q : KueueImpl) : Except Halt Kind :=
  match q.queueKind with
  | some kind => .ok kind
  | none => .error .nullDeref

/-- The local variable behind `state`. -/
def localState (status : Option ℤ) : Option ℤ := some (status.getD Status.ok)

/-- The updates of a successful removal. -/
def removed (q : KueueImpl) : KueueImpl :=
  { q with minKey := q.minKey + 1, count := q.count - 1, totalTakes_ := q.totalTakes_ + 1 }

/-! ## Construction -/

/-- The key that a `findMinKey` or `findMaxKey` answered, if it has the length of a key. -/
def foundKey (r : StoreImpl.Reply) : Option UInt64 :=
  match r.data with
  | some key => if r.resultLen = some 8 then some (getU64BE key) else none
  | none => none

/-- The keys, the counter and the validity, once both extreme keys were read. -/
def init (kind : Kind) (smallestKey greatestKey : Option UInt64) : KueueImpl :=
  let q : KueueImpl := { queueKind := some kind, minKey := smallestKey.getD MIN_KEY }
  let lastMax := greatestKey.getD q.maxKey
  let q := { q with maxKey := match greatestKey with
                              | some key => key + 1
                              | none => q.maxKey }
  if lastMax ≥ q.minKey then
    let q := { q with count := (q.maxKey - q.minKey).toInt64 }
    { q with isValid_ := decide (q.count ≥ 0) }
  else q

/-- The constructor `KueueImpl(kvStore, id)`. The answers are those to `getOrCreateKind`,
`findMinKey` and `findMaxKey`. -/
def new (aKind aMin aMax : Answers) (id : Bytes) (s : StoreImpl) :
    Except Halt (KueueImpl × StoreImpl) := do
  let (state, s) := s.getKindManager (some Status.ok)
  if state = some Status.ok then do
    let (state, kind, s) ← s.getOrCreateKind aKind state id
    if state = some Status.ok ∧ kind.isValid then do
      let kind := Kind.impl kind
      let (rMin, s) ← s.findMinKey aMin state kind 0
      if rMin.status = some Status.ok then do
        let (rMax, s) ← s.findMaxKey aMax rMin.status kind (rMin.resultLen.getD 0)
        if rMax.status = some Status.ok then
          return (init kind (foundKey rMin) (foundKey rMax), s)
        else
          return ({ queueKind := some kind, minKey := (foundKey rMin).getD MIN_KEY }, s)
      else return ({ queueKind := some kind }, s)
    else return ({}, s)
  else return ({}, s)

/-! ## Operations -/

def put (a : Answers) (status : Option ℤ) (value : Bytes) (q : KueueImpl) (s : StoreImpl) :
    Except Halt (Option ℤ × KueueImpl × StoreImpl) :=
  if q.isValid_ then do
    let kind ← q.getKindRef
    let key := putU64BE q.maxKey
    let q := { q with maxKey := q.maxKey + 1 }
    let (state, s) ← s.put a (localState status) kind (some key) value
    if state = some Status.ok then
      return (assign Status.ok status,
        { q with count := q.count + 1, totalPuts_ := q.totalPuts_ + 1 }, s)
    else return (assign (state.getD Status.ok) status, { q with maxKey := q.maxKey - 1 }, s)
  else return (assign Status.invalid status, q, s)

/-- What the reading operations answer: status, `*valLen`, the returned buffer and `*pKey`. -/
structure Reply where
  status : Option ℤ
  valLen : Option ℕ := none
  value : Option Bytes := none
  pKey : Option UInt64 := none
  deriving DecidableEq, Repr

/-- The end of both overloads of `take`: remove the message under `minKey`. -/
def takeNow (a : Answers) (status : Option ℤ) (valLen : Option ℕ) (q : KueueImpl) (s : StoreImpl) :
    Except Halt (Reply × KueueImpl × StoreImpl) := do
  let kind ← q.getKindRef
  let (r, s) ← s.singleRemoveIfPresent a (localState status) kind valLen (some (putU64BE q.minKey))
  let q := if r.status = some Status.ok then q.removed else q
  return ({ status := assign (r.status.getD Status.ok) status, valLen := r.resultLen,
            value := r.data }, q, s)

/-- `take(status, valLen)`: waits as long as the count is zero. -/
def take (a : Answers) (status : Option ℤ) (valLen : Option ℕ) (q : KueueImpl) (s : StoreImpl) :
    Except Halt (Reply × KueueImpl × StoreImpl) :=
  if q.isValid_ then
    if q.count = 0 then .error .blocked
    else q.takeNow a status valLen s
  else return ({ status := assign Status.invalid status, valLen }, q, s)

/-- The wait of the operations with a timeout, and what follows it when the count is positive. -/
def waitFor (timeout : ℤ) (status : Option ℤ) (valLen : Option ℕ) (pKey : Option UInt64)
    (q : KueueImpl) (s : StoreImpl) (body : Except Halt (Reply × KueueImpl × StoreImpl)) :
    Except Halt (Reply × KueueImpl × StoreImpl) :=
  if q.isValid_ then
    if q.count > 0 then body
    else if timeout > 0 then return ({ status := assign Status.timedOut status, valLen, pKey }, q, s)
    else .error .blocked
  else return ({ status := assign Status.invalid status, valLen, pKey }, q, s)

/-- `take(status, valLen, timeout)`. -/
def takeTimed (a : Answers) (status : Option ℤ) (valLen : Option ℕ) (timeout : ℤ) (q : KueueImpl)
    (s : StoreImpl) : Except Halt (Reply × KueueImpl × StoreImpl) :=
  q.waitFor timeout status valLen none s (q.takeNow a status valLen s)

/-- The end of `readNext`: read the message under `minKey`. -/
def readNow (a : Answers) (status : Option ℤ) (valLen : Option ℕ) (pKey : Option UInt64)
    (q : KueueImpl) (s : StoreImpl) : Except Halt (Reply × KueueImpl × StoreImpl) := do
  let kind ← q.getKindRef
  let (r, s) ← s.get a (localState status) kind valLen (some (putU64BE q.minKey))
  let pKey := if r.status = some Status.ok then pKey.map fun _ => q.minKey else pKey
  return ({ status := assign (r.status.getD Status.ok) status, valLen := r.resultLen,
            value := r.data, pKey }, q, s)

def readNext (a : Answers) (status : Option ℤ) (valLen : Option ℕ) (pKey : Option UInt64)
    (timeout : ℤ) (q : KueueImpl) (s : StoreImpl) : Except Halt (Reply × KueueImpl × StoreImpl) :=
  q.waitFor timeout status valLen pKey s (q.readNow a status valLen pKey s)

/-- `erase`. On a single thread the second test of the key repeats the first one. -/
def erase (a : Answers) (key : UInt64) (q : KueueImpl) (s : StoreImpl) :
    Except Halt (Bool × KueueImpl × StoreImpl) :=
  if q.isValid_ ∧ key = q.minKey then do
    let state := some Status.ok
    if key = q.minKey then do
      let kind ← q.getKindRef
      let (state, s) ← s.singleRemove a state kind (some (putU64BE key))
      let q := if state = some Status.ok then q.removed else q
      return (decide (state = some Status.ok), q, s)
    else return (decide (state = some Status.ok), q, s)
  else return (false, q, s)

/-- The loop of `clear`. The count drops by one in every turn, so that as many turns as the count
says are enough; the `i`-th turn gets the answers `as i`. -/
def clearLoop (as : ℕ → Answers) (kind : Kind) :
    ℕ → ℕ → Option ℤ → KueueImpl → StoreImpl → Except Halt (Option ℤ × KueueImpl × StoreImpl)
  | 0, _, state, q, s => return (state, q, s)
  | n + 1, i, state, q, s =>
      if q.count > 0 then do
        let (state, s) ← s.singleRemove (as i) state kind (some (putU64BE q.minKey))
        if state = some Status.ok then clearLoop as kind n (i + 1) state q.removed s
        else return (state, q, s)
      else return (state, q, s)

def clear (as : ℕ → Answers) (status : Option ℤ) (q : KueueImpl) (s : StoreImpl) :
    Except Halt (Option ℤ × KueueImpl × StoreImpl) :=
  if q.isValid_ then do
    let kind ← q.getKindRef
    let (state, q, s) ← clearLoop as kind q.count.toInt.toNat 0 (localState status) q s
    return (assign (state.getD Status.ok) status, q, s)
  else return (assign Status.invalid status, q, s)

def size (q : KueueImpl) : Int64 := q.count

def isEmpty (q : KueueImpl) : Bool := q.size == 0

/-! ## Runs -/

/-- A public method with its arguments. -/
inductive Call
  | put (status : Option ℤ) (value : Bytes)
  | take (status : Option ℤ) (valLen : Option ℕ)
  | takeTimed (status : Option ℤ) (valLen : Option ℕ) (timeout : ℤ)
  | readNext (status : Option ℤ) (valLen : Option ℕ) (pKey : Option UInt64) (timeout : ℤ)
  | erase (key : UInt64)
  | clear (status : Option ℤ)

/-- What a call answered: a reply, or the Boolean of `erase`. -/
inductive Outcome
  | reply (r : Reply)
  | erased (b : Bool)
  deriving DecidableEq, Repr

def Call.run (as : ℕ → Answers) (q : KueueImpl) (s : StoreImpl) :
    Call → Except Halt (Outcome × KueueImpl × StoreImpl)
  | .put status value =>
      (q.put (as 0) status value s).map fun x => (.reply { status := x.1 }, x.2)
  | .take status valLen =>
      (q.take (as 0) status valLen s).map fun x => (.reply x.1, x.2)
  | .takeTimed status valLen timeout =>
      (q.takeTimed (as 0) status valLen timeout s).map fun x => (.reply x.1, x.2)
  | .readNext status valLen pKey timeout =>
      (q.readNext (as 0) status valLen pKey timeout s).map fun x => (.reply x.1, x.2)
  | .erase key => (q.erase (as 0) key s).map fun x => (.erased x.1, x.2)
  | .clear status => (q.clear as status s).map fun x => (.reply { status := x.1 }, x.2)

/-- A label of a run: a call, the answers to it and what it answered. -/
structure Label where
  call : Call
  answers : ℕ → Answers
  outcome : Outcome

/-- One call that returns. -/
def Step (x : KueueImpl × StoreImpl) (l : Label) (y : KueueImpl × StoreImpl) : Prop :=
  l.call.run l.answers x.1 x.2 = .ok (l.outcome, y)

/-- The state after a call that returns. -/
def Call.after (c : Call) (as : ℕ → Answers) (x : KueueImpl × StoreImpl) : KueueImpl × StoreImpl :=
  match c.run as x.1 x.2 with
  | .ok (_, y) => y
  | .error _ => x

/-- A step on concrete data is found by evaluating the outcome. -/
theorem Call.step_after {x : KueueImpl × StoreImpl} {c : Call} {as : ℕ → Answers} {o : Outcome}
    (h : (c.run as x.1 x.2).map Prod.fst = .ok o) : Step x ⟨c, as, o⟩ (c.after as x) := by
  unfold Step after
  cases hrun : c.run as x.1 x.2 with
  | error e => rw [hrun] at h; cases h
  | ok y => rw [hrun] at h; cases h; rfl

/-- A queue that was just built on a store that was just created. -/
def created : KueueImpl × StoreImpl :=
  match new {} {} {} [113] .created with
  | .ok x => x
  | .error _ => ({}, .created)

theorem new_created : new {} {} {} [113] .created = .ok created := rfl

/-- The Kind of that queue. -/
def createdKind : KindImpl := .new [113] 1

end KueueImpl

end Librocks
