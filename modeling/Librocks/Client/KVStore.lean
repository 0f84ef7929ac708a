import Librocks.Client.Bytes
import Librocks.Manager.Defs
import Librocks.Store.Buffers

/-!
# The client's view of a store

Reference: `src/client/KVStore.cpp`, `src/client/RocksException.cpp`, `include/client/KVStore.h`.

`KVStore` wraps a `Store` for C++ clients: keys, values and names come as string views, statuses
become exceptions, and buffers become `bytes` objects. A method returns, or it throws a
`RocksException`; in both cases the store is what the call has left.

A string view is a length-delimited byte string. A key is optional because a default constructed
view has a null `data()`, which the store refuses; for a value or a name a null view is an empty
one.
-/

namespace Librocks

/-! ## Names of Kinds -/

namespace KindImpl

/-- `name()`: the C string that a client reads. -/
def name (k : KindImpl) : Bytes := cStr k.name_

/-- `operator<`. -/
def lt (k other : KindImpl) : Bool := decide (k.name_ < other.name)

end KindImpl

/-! ## Exceptions -/

/-- `RocksException`: the status and the text. -/
structure RocksException where
  code_ : ℤ
  what : String
  deriving DecidableEq, Repr

namespace RocksException

def NAME : String := "RocksException - "

/-- `RocksException(int code, const std::string& message)`. -/
def new (code : ℤ) (message : String) : RocksException := ⟨code, NAME ++ message ++ "\n"⟩

def code (e : RocksException) : ℤ := e.code_

end RocksException

/-- A client's store. The pointer is null if the client passed null. -/
structure KVStore where
  store : Option StoreImpl

namespace KVStore

/-- What a method ends with: a result or an exception, and the store after it. -/
abbrev Ended (α : Type) := Except RocksException α × KVStore

def codes : List (ℤ × String) :=
  [(Status.invalid, "Invalid"), (Status.noIterator, "NoIterator"),
    (Status.alreadyExists, "AlreadyExists"), (Status.noTransaction, "NoTransaction"),
    (Status.closed, "Closed"), (Status.ok, "Ok"), (Status.notFound, "NotFound"),
    (Status.corruption, "Corruption"), (Status.notSupported, "NotSupported"),
    (Status.invalidArgument, "InvalidArgument"), (Status.ioError, "IOError"),
    (Status.mergeInProgress, "MergeInProgress"), (Status.incomplete, "Incomplete"),
    (Status.shutdownInProgress, "ShutdownInProgress"), (Status.timedOut, "TimedOut"),
    (Status.aborted, "Aborted"), (Status.busy, "Busy"), (Status.expired, "Expired"),
    (Status.tryAgain, "TryAgain"), (Status.compactionTooLarge, "CompactionTooLarge"),
    (Status.columnFamilyDropped, "ColumnFamilyDropped"), (Status.unknown, "Unknown")]

def throwForStatus (status : ℤ) : Except RocksException Bool :=
  if status ≠ Status.ok then
    match codes.lookup status with
    | some text => .error (.new status text)
    | none => .error (.new status "Unknown")
  else .ok false

/-- `store->`. -/
def deref (kv : KVStore) : Except Halt StoreImpl :=
  match kv.store with
  | some s => .ok s
  | none => .error .nullDeref

/-- The value of a local `int status = Status::Ok` after its address was passed to a call. -/
def statusOf (status : Option ℤ) : ℤ := status.getD Status.ok

/-- `if (status is not accepted) throwForStatus(status)`, and then the result. -/
def orThrow {α : Type} (accepted : ℤ → Bool) (status : Option ℤ) (result : α) :
    Except RocksException α := do
  if !accepted (statusOf status) then
    let _ ← throwForStatus (statusOf status)
  return result

/-- The methods that throw unless the status is Ok. -/
def isOk (status : ℤ) : Bool := status == Status.ok

/-- The methods for which an absent key is no error. -/
def isOkOrNotFound (status : ℤ) : Bool := status == Status.ok || status == Status.notFound

/-! ## Construction -/

/-- `KVStore(std::string_view path)`. -/
def new (a : StoreImpl.OpenAnswers) (b : Answers) : Except Halt (Except RocksException KVStore) := do
  let opened ← openStore a b (some Status.ok)
  return orThrow isOk opened.status ⟨opened.object⟩

/-- `KVStore(Store*)`. -/
def ofStore (pStore : Option StoreImpl) : KVStore := ⟨pStore⟩

/-- `~KVStore()`: the database object that was deleted, if one was. -/
def destroy (a : Answers) (kv : KVStore) : Except Halt (Option Rocks.Db) :=
  match kv.store with
  | some s => (s.destroy a).map Prod.fst
  | none => .ok none

/-! ## Data -/

/-- A method that returns nothing. -/
def callVoid (kv : KVStore) (call : StoreImpl → Except Halt (Option ℤ × StoreImpl)) :
    Except Halt (Ended Unit) := do
  let s ← kv.deref
  let (status, s) ← call s
  return (orThrow isOk status (), ⟨some s⟩)

/-- A method that returns a `bytes` object. -/
def callBytes (kv : KVStore) (accepted : ℤ → Bool)
    (call : StoreImpl → Except Halt (StoreImpl.Reply × StoreImpl)) :
    Except Halt (Ended (BytesObj Bytes)) := do
  let s ← kv.deref
  let (r, s) ← call s
  return (orThrow accepted r.status (.new r.data (r.resultLen.getD 0)), ⟨some s⟩)

def put (a : Answers) (kind : Kind) (key : Option Bytes) (value : Bytes) (kv : KVStore) :
    Except Halt (Ended Unit) :=
  kv.callVoid fun s => s.put a (some Status.ok) kind key value

def remove (a : Answers) (kind : Kind) (key : Option Bytes) (kv : KVStore) :
    Except Halt (Ended Unit) :=
  kv.callVoid fun s => s.remove a (some Status.ok) kind key

def get (a : Answers) (kind : Kind) (key : Option Bytes) (kv : KVStore) :
    Except Halt (Ended (BytesObj Bytes)) :=
  kv.callBytes isOkOrNotFound fun s => s.get a (some Status.ok) kind (some 0) key

def updateIfPresent (a : Answers) (kind : Kind) (key : Option Bytes) (value : Bytes) (kv : KVStore) :
    Except Halt (Ended (BytesObj Bytes)) :=
  kv.callBytes isOkOrNotFound fun s => s.updateIfPresent a (some Status.ok) kind (some 0) key value

def singleRemove (a : Answers) (kind : Kind) (key : Option Bytes) (kv : KVStore) :
    Except Halt (Ended Unit) :=
  kv.callVoid fun s => s.singleRemove a (some Status.ok) kind key

def singleRemoveIfPresent (a : Answers) (kind : Kind) (key : Option Bytes) (kv : KVStore) :
    Except Halt (Ended (BytesObj Bytes)) :=
  kv.callBytes isOkOrNotFound fun s => s.singleRemoveIfPresent a (some Status.ok) kind (some 0) key

def removeIfPresent (a : Answers) (kind : Kind) (key : Option Bytes) (kv : KVStore) :
    Except Halt (Ended (BytesObj Bytes)) :=
  kv.callBytes isOkOrNotFound fun s => s.removeIfPresent a (some Status.ok) kind (some 0) key

/-- Ok is true and AlreadyExists is false; for any other status `throwForStatus` throws. -/
def putIfAbsent (a : Answers) (kind : Kind) (key : Option Bytes) (value : Bytes) (kv : KVStore) :
    Except Halt (Ended Bool) := do
  let s ← kv.deref
  let (status, s) ← s.putIfAbsent a (some Status.ok) kind key value
  let result :=
    if statusOf status = Status.ok then .ok true
    else if statusOf status = Status.alreadyExists then .ok false
    else throwForStatus (statusOf status)
  return (result, ⟨some s⟩)

def findMinKey (a : Answers) (kind : Kind) (kv : KVStore) : Except Halt (Ended (BytesObj Bytes)) :=
  kv.callBytes isOk fun s => s.findMinKey a (some Status.ok) kind 0

def findMaxKey (a : Answers) (kind : Kind) (kv : KVStore) : Except Halt (Ended (BytesObj Bytes)) :=
  kv.callBytes isOk fun s => s.findMaxKey a (some Status.ok) kind 0

def compact (a : Answers) (kind : Kind) (kv : KVStore) : Except Halt (Ended Unit) :=
  kv.callVoid fun s => s.compact a (some Status.ok) kind

def compactAll (a : Answers) (kv : KVStore) : Except Halt (Ended Unit) :=
  kv.callVoid fun s => s.compactAll a (some Status.ok)

def close (a : Answers) (kv : KVStore) : Except Halt (Ended Unit) :=
  match kv.store with
  | some s => (s.close a).map fun x => (.ok (), ⟨some x.2⟩)
  | none => .ok (.ok (), kv)

def isOpen (kv : KVStore) : Except Halt Bool := kv.deref.map StoreImpl.isOpen

/-! ## Kinds -/

/-- `getKindManager`, and then a call on the manager, which is the store itself. -/
def getKindManager {α : Type} (kv : KVStore)
    (call : StoreImpl → Except Halt (Except RocksException α × StoreImpl)) :
    Except Halt (Ended α) := do
  let s ← kv.deref
  let (status, s) := s.getKindManager (some Status.ok)
  match orThrow isOk status () with
  | .error e => return (.error e, ⟨some s⟩)
  | .ok () => do
      let (result, s) ← call s
      return (result, ⟨some s⟩)

def getDefaultKind (kv : KVStore) : Except Halt (Ended KindImpl) :=
  kv.getKindManager fun s =>
    let (status, k, s) := s.getDefaultKind (some Status.ok)
    .ok (orThrow isOk status k, s)

/-- The name crosses to the store as `std::string(kindName).c_str()`. -/
def getOrCreateKind (a : Answers) (kindName : Bytes) (kv : KVStore) : Except Halt (Ended KindImpl) :=
  kv.getKindManager fun s => do
    let (status, k, s) ← s.getOrCreateKind a (some Status.ok) kindName
    return (orThrow isOk status k, s)

/-- `KindSet::insert`: the set is ordered by `comparator` and keeps the first of two equivalent
Kinds. -/
def insertSorted (k : KindImpl) : List KindImpl → List KindImpl
  | [] => [k]
  | k' :: rest =>
      if k.lt k' then k :: k' :: rest
      else if k'.lt k then k' :: insertSorted k rest
      else k' :: rest

/-- The Kinds in the order of their names. -/
def getKinds (kv : KVStore) : Except Halt (Ended (List KindImpl)) :=
  kv.getKindManager fun s =>
    let (r, s) := s.getKinds (some Status.ok)
    .ok (orThrow isOk r.status
      ((r.kinds.filterMap Kind.toKindImpl).foldl (fun set k => insertSorted k set) []), s)

/-! ## Runs -/

/-- A method with its arguments. -/
inductive Call
  | put (kind : Kind) (key : Option Bytes) (value : Bytes)
  | remove (kind : Kind) (key : Option Bytes)
  | get (kind : Kind) (key : Option Bytes)
  | updateIfPresent (kind : Kind) (key : Option Bytes) (value : Bytes)
  | singleRemove (kind : Kind) (key : Option Bytes)
  | singleRemoveIfPresent (kind : Kind) (key : Option Bytes)
  | removeIfPresent (kind : Kind) (key : Option Bytes)
  | putIfAbsent (kind : Kind) (key : Option Bytes) (value : Bytes)
  | findMinKey (kind : Kind)
  | findMaxKey (kind : Kind)
  | compact (kind : Kind)
  | compactAll
  | close
  | isOpen
  | getDefaultKind
  | getOrCreateKind (kindName : Bytes)
  | getKinds

/-- The state after a call that returned or threw. -/
def Call.run (a : Answers) (kv : KVStore) : Call → Except Halt KVStore
  | .put kind key value => (kv.put a kind key value).map Prod.snd
  | .remove kind key => (kv.remove a kind key).map Prod.snd
  | .get kind key => (kv.get a kind key).map Prod.snd
  | .updateIfPresent kind key value => (kv.updateIfPresent a kind key value).map Prod.snd
  | .singleRemove kind key => (kv.singleRemove a kind key).map Prod.snd
  | .singleRemoveIfPresent kind key => (kv.singleRemoveIfPresent a kind key).map Prod.snd
  | .removeIfPresent kind key => (kv.removeIfPresent a kind key).map Prod.snd
  | .putIfAbsent kind key value => (kv.putIfAbsent a kind key value).map Prod.snd
  | .findMinKey kind => (kv.findMinKey a kind).map Prod.snd
  | .findMaxKey kind => (kv.findMaxKey a kind).map Prod.snd
  | .compact kind => (kv.compact a kind).map Prod.snd
  | .compactAll => (kv.compactAll a).map Prod.snd
  | .close => (kv.close a).map Prod.snd
  | .isOpen => kv.isOpen.map fun _ => kv
  | .getDefaultKind => kv.getDefaultKind.map Prod.snd
  | .getOrCreateKind kindName => (kv.getOrCreateKind a kindName).map Prod.snd
  | .getKinds => kv.getKinds.map Prod.snd

/-- One call of a client. -/
def Step (kv : KVStore) (l : Call × Answers) (kv' : KVStore) : Prop := l.1.run l.2 kv = .ok kv'

/-! ## Statuses and exceptions -/

theorem throwForStatus_ne {c : ℤ} (hc : c ≠ Status.ok) :
    ∃ text, throwForStatus c = .error (.new c text) := by
  unfold throwForStatus
  rw [if_pos hc]
  cases codes.lookup c with
  | some text => exact ⟨text, rfl⟩
  | none => exact ⟨"Unknown", rfl⟩

/-- A method returns its result if the status is accepted, and else throws the status. -/
theorem orThrow_cases {α : Type} (accepted : ℤ → Bool) (hok : accepted Status.ok = true)
    (status : Option ℤ) (x : α) :
    (accepted (statusOf status) = true ∧ orThrow accepted status x = .ok x) ∨
      (accepted (statusOf status) = false ∧ ∃ text,
        orThrow accepted status x = .error (.new (statusOf status) text)) := by
  unfold orThrow
  cases hacc : accepted (statusOf status) with
  | true => exact Or.inl ⟨rfl, rfl⟩
  | false =>
    have hne : statusOf status ≠ Status.ok := by
      intro heq
      rw [heq, hok] at hacc
      cases hacc
    obtain ⟨text, htext⟩ := throwForStatus_ne hne
    exact Or.inr ⟨rfl, text, by rw [htext]; rfl⟩

theorem orThrow_eq_ok {α : Type} {accepted : ℤ → Bool} (hok : accepted Status.ok = true)
    {status : Option ℤ} {x y : α} (h : orThrow accepted status x = .ok y) :
    accepted (statusOf status) = true ∧ y = x := by
  obtain ⟨hacc, hret⟩ | ⟨-, text, hthrow⟩ := orThrow_cases accepted hok status x
  · exact ⟨hacc, Except.ok.inj (h.symm.trans hret)⟩
  · rw [h] at hthrow
    cases hthrow

/-! ## The calls of the store under a client's call -/

section

variable {kv kv' : KVStore} {s : StoreImpl} {a : Answers}

/-- The client has a store, and what it has after its call comes from it by calls of the store. -/
def Reaches (s : StoreImpl) (kv' : KVStore) : Prop :=
  ∃ ls s', kv'.store = some s' ∧ Run StoreImpl.Step s ls s'

theorem deref_eq (hs : kv.store = some s) : kv.deref = .ok s := by
  simp only [deref, hs]

theorem Reaches.refl (hs : kv.store = some s) : Reaches s kv := ⟨[], s, hs, .nil s⟩

theorem Reaches.single {s' : StoreImpl} {c : StoreImpl.Call} {r : StoreImpl.Reply}
    (h : c.run a s = .ok (r, s')) : Reaches s ⟨some s'⟩ :=
  ⟨[⟨c, a, r⟩], s', rfl, .single h⟩

/-- A call that has ended, by returning or by throwing, has left the store as the call under it did.
-/
theorem callVoid_ended {call : StoreImpl → Except Halt (Option ℤ × StoreImpl)}
    (hs : kv.store = some s) (hrun : (kv.callVoid call).map Prod.snd = .ok kv') :
    ∃ x, call s = .ok x ∧ kv' = ⟨some x.2⟩ := by
  obtain ⟨⟨y, t⟩, hended, rfl⟩ := exists_of_map_eq_ok hrun
  simp only [callVoid, deref_eq hs, ok_bind] at hended
  obtain ⟨x, hx, hended⟩ := exists_of_bind_eq_ok hended
  cases hended
  exact ⟨x, hx, rfl⟩

theorem callBytes_ended {accepted : ℤ → Bool}
    {call : StoreImpl → Except Halt (StoreImpl.Reply × StoreImpl)}
    (hs : kv.store = some s) (hrun : (kv.callBytes accepted call).map Prod.snd = .ok kv') :
    ∃ x, call s = .ok x ∧ kv' = ⟨some x.2⟩ := by
  obtain ⟨⟨y, t⟩, hended, rfl⟩ := exists_of_map_eq_ok hrun
  simp only [callBytes, deref_eq hs, ok_bind] at hended
  obtain ⟨x, hx, hended⟩ := exists_of_bind_eq_ok hended
  cases hended
  exact ⟨x, hx, rfl⟩

theorem putIfAbsent_ended {kind : Kind} {key : Option Bytes} {value : Bytes} (hs : kv.store = some s)
    (hrun : (kv.putIfAbsent a kind key value).map Prod.snd = .ok kv') :
    ∃ x, s.putIfAbsent a (some Status.ok) kind key value = .ok x ∧ kv' = ⟨some x.2⟩ := by
  obtain ⟨⟨y, t⟩, hended, rfl⟩ := exists_of_map_eq_ok hrun
  simp only [putIfAbsent, deref_eq hs, ok_bind] at hended
  obtain ⟨x, hx, hended⟩ := exists_of_bind_eq_ok hended
  cases hended
  exact ⟨x, hx, rfl⟩

theorem callVoid_reaches {call : StoreImpl → Except Halt (Option ℤ × StoreImpl)}
    {c : StoreImpl.Call} (hcall : c.run a s = (call s).map StoreImpl.voidReply)
    (hs : kv.store = some s) (hrun : (kv.callVoid call).map Prod.snd = .ok kv') : Reaches s kv' := by
  obtain ⟨x, hx, rfl⟩ := callVoid_ended hs hrun
  have hreply : c.run a s = .ok (StoreImpl.voidReply x) := by
    rw [hcall, hx]
    rfl
  exact .single hreply

theorem callBytes_reaches {accepted : ℤ → Bool}
    {call : StoreImpl → Except Halt (StoreImpl.Reply × StoreImpl)} {c : StoreImpl.Call}
    (hcall : c.run a s = call s) (hs : kv.store = some s)
    (hrun : (kv.callBytes accepted call).map Prod.snd = .ok kv') : Reaches s kv' := by
  obtain ⟨x, hx, rfl⟩ := callBytes_ended hs hrun
  exact .single (hcall.trans hx)

/-- `getKindManager` is a call of the store itself; the call on the manager is the next one. -/
theorem getKindManager_reaches {α : Type}
    {call : StoreImpl → Except Halt (Except RocksException α × StoreImpl)} {c : StoreImpl.Call}
    (hcall : ∀ t x, call t = .ok x → ∃ r, c.run a t = .ok (r, x.2))
    (hs : kv.store = some s) (hrun : (kv.getKindManager call).map Prod.snd = .ok kv') :
    Reaches s kv' := by
  obtain ⟨⟨x, t⟩, hended, rfl⟩ := exists_of_map_eq_ok hrun
  simp only [getKindManager, deref_eq hs, ok_bind] at hended
  have hmanager : StoreImpl.Step s ⟨.getKindManager (some Status.ok), a, _⟩
      (s.getKindManager (some Status.ok)).2 := rfl
  cases hst : orThrow isOk (s.getKindManager (some Status.ok)).1 () with
  | error e =>
    -- the store is closed and there is no second call
    simp only [hst] at hended
    cases hended
    exact ⟨_, _, rfl, .single hmanager⟩
  | ok u =>
    simp only [hst] at hended
    obtain ⟨y, hy, hended⟩ := exists_of_bind_eq_ok hended
    cases hended
    obtain ⟨r, hr⟩ := hcall _ y hy
    have hnext : StoreImpl.Step (s.getKindManager (some Status.ok)).2 ⟨c, a, r⟩ y.2 := hr
    exact ⟨_, _, rfl, .cons hmanager (.single hnext)⟩

/-- **A client's call is a run of calls of the store.** -/
theorem Step.reaches {l : Call × Answers} (hs : kv.store = some s) (hstep : Step kv l kv') :
    Reaches s kv' := by
  obtain ⟨c, a⟩ := l
  cases c with
  | put kind key value => exact callVoid_reaches (c := .put (some Status.ok) kind key value) rfl hs hstep
  | remove kind key => exact callVoid_reaches (c := .remove (some Status.ok) kind key) rfl hs hstep
  | get kind key => exact callBytes_reaches (c := .get (some Status.ok) kind (some 0) key) rfl hs hstep
  | updateIfPresent kind key value =>
    exact callBytes_reaches (c := .updateIfPresent (some Status.ok) kind (some 0) key value) rfl hs hstep
  | singleRemove kind key =>
    exact callVoid_reaches (c := .singleRemove (some Status.ok) kind key) rfl hs hstep
  | singleRemoveIfPresent kind key =>
    exact callBytes_reaches (c := .singleRemoveIfPresent (some Status.ok) kind (some 0) key) rfl hs hstep
  | removeIfPresent kind key =>
    exact callBytes_reaches (c := .removeIfPresent (some Status.ok) kind (some 0) key) rfl hs hstep
  | putIfAbsent kind key value =>
    obtain ⟨x, hx, rfl⟩ := putIfAbsent_ended hs hstep
    have hreply : (StoreImpl.Call.putIfAbsent (some Status.ok) kind key value).run a s
        = .ok (StoreImpl.voidReply x) := by
      rw [StoreImpl.Call.run, hx]
      rfl
    exact .single hreply
  | findMinKey kind => exact callBytes_reaches (c := .findMinKey (some Status.ok) kind 0) rfl hs hstep
  | findMaxKey kind => exact callBytes_reaches (c := .findMaxKey (some Status.ok) kind 0) rfl hs hstep
  | compact kind => exact callVoid_reaches (c := .compact (some Status.ok) kind) rfl hs hstep
  | compactAll => exact callVoid_reaches (c := .compactAll (some Status.ok)) rfl hs hstep
  | close =>
    obtain ⟨⟨x, t⟩, hrun, rfl⟩ := exists_of_map_eq_ok hstep
    simp only [close, hs] at hrun
    obtain ⟨y, hy, heq⟩ := exists_of_map_eq_ok hrun
    cases heq
    have hreply : StoreImpl.Call.close.run a s = .ok (StoreImpl.noReply y.2) := by
      rw [StoreImpl.Call.run, hy]
      rfl
    exact .single hreply
  | isOpen =>
    obtain ⟨b, -, rfl⟩ := exists_of_map_eq_ok hstep
    exact .refl hs
  | getDefaultKind =>
    refine getKindManager_reaches (c := .getDefaultKind (some Status.ok)) (a := a) ?_ hs hstep
    intro t x hx
    cases hx
    exact ⟨_, rfl⟩
  | getOrCreateKind kindName =>
    refine getKindManager_reaches (c := .getOrCreateKind (some Status.ok) kindName) (a := a) ?_ hs hstep
    intro t x hx
    obtain ⟨⟨status, k, t'⟩, hk, hx⟩ := exists_of_bind_eq_ok hx
    cases hx
    exact ⟨_, by rw [StoreImpl.Call.run, hk]; rfl⟩
  | getKinds =>
    refine getKindManager_reaches (c := .getKinds (some Status.ok)) (a := a) ?_ hs hstep
    intro t x hx
    cases hx
    exact ⟨_, rfl⟩

end

end KVStore

end Librocks
