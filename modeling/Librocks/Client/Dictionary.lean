import Librocks.Client.Outcomes
import Mathlib.Data.Set.Card

/-!
# The client's dictionaries

Reference: `src/client/KVStore.cpp`, `src/client/RocksException.cpp`, `src/impl/StoreImpl.cpp`.

To a client a store is a dictionary for each Kind, which outlives the `KVStore` objects that open it.
`dictionary_refined`: in every run of constructions and destructions of `KVStore` objects and of calls
of their methods, a call returns what the dictionaries say and changes them as they say, or it throws
and changes nothing. It throws only if the store is closed, its arguments are refused, or RocksDB denies
something that it asks for; the exception carries the code of that cause (`Throws`) and its text.

Four things are asked. A client uses only Kinds that the open store has returned, and single-removes
only keys that were put at most once since they were last removed. RocksDB does not answer a write with
`NotFound`, which the conditional methods take for the answer of the read before it, and its seeks do not
fail, for a failed one is taken for an empty Kind. A constructor whose `TransactionDB::Open` fails does
not end, and is no step of a run.
-/

namespace Librocks

open Rocks StoreImpl

/-! ## The abstract dictionaries -/

/-- Whether there is an open store, the names of the Kinds, and what is under each name. -/
structure Dictionary where
  isOpen : Bool
  names : Set Bytes
  maps : Bytes → Family

namespace Dictionary

/-- The dictionary of one Kind is changed. -/
def edit (d : Dictionary) (k : KindImpl) (f : Family → Family) : Dictionary :=
  { d with maps := Function.update d.maps k.name_ (f (d.maps k.name_)) }

/-- The object for the value of a key: an empty one if there is none. -/
def read (d : Dictionary) (k : KindImpl) (key : Bytes) : KVStore.Result :=
  .bytes (.ofContent (((d.maps k.name_).lookup key).getD []))

/-- What a method that returns has done, and what it returns. -/
inductive Does (d : Dictionary) : KVStore.Call → KVStore.Result → Dictionary → Prop
  | put (k : KindImpl) (key value : Bytes) :
      Does d (.put (.impl k) (some key) value) .void (d.edit k fun m => m.insert key value)
  | remove (k : KindImpl) (key : Bytes) :
      Does d (.remove (.impl k) (some key)) .void (d.edit k fun m => m.erase key)
  | singleRemove (k : KindImpl) (key : Bytes) :
      Does d (.singleRemove (.impl k) (some key)) .void (d.edit k fun m => m.erase key)
  | get (k : KindImpl) (key : Bytes) : Does d (.get (.impl k) (some key)) (d.read k key) d
  | updateIfPresent (k : KindImpl) (key value : Bytes) :
      Does d (.updateIfPresent (.impl k) (some key) value) (d.read k key)
        (d.edit k fun m => if key ∈ m then m.insert key value else m)
  | singleRemoveIfPresent (k : KindImpl) (key : Bytes) :
      Does d (.singleRemoveIfPresent (.impl k) (some key)) (d.read k key)
        (d.edit k fun m => m.erase key)
  | removeIfPresent (k : KindImpl) (key : Bytes) :
      Does d (.removeIfPresent (.impl k) (some key)) (d.read k key) (d.edit k fun m => m.erase key)
  | putIfAbsent (k : KindImpl) (key value : Bytes) :
      Does d (.putIfAbsent (.impl k) (some key) value) (.bool (decide (key ∉ d.maps k.name_)))
        (d.edit k fun m => if key ∈ m then m else m.insert key value)
  | findMinKey (k : KindImpl) :
      Does d (.findMinKey (.impl k)) (.bytes (.ofContent ((FMap.firstKey (d.maps k.name_)).getD []))) d
  | findMaxKey (k : KindImpl) :
      Does d (.findMaxKey (.impl k)) (.bytes (.ofContent ((FMap.lastKey (d.maps k.name_)).getD []))) d
  | compact (k : KindImpl) : Does d (.compact (.impl k)) .void d
  | compactAll : Does d .compactAll .void d
  | getDefaultKind (k : KindImpl) (hk : k.name_ = DefaultCF) : Does d .getDefaultKind (.kind k) d
  | getOrCreateKind (name : Bytes) (k : KindImpl) (hk : k.name_ = cStr name) :
      Does d (.getOrCreateKind name) (.kind k) { d with names := insert (cStr name) d.names }
  | getKinds (ks : List KindImpl) (hsorted : (ks.map KindImpl.name_).Pairwise (· < ·))
      (hall : ∀ name, name ∈ ks.map KindImpl.name_ ↔ name ∈ d.names) : Does d .getKinds (.kinds ks) d

/-- What RocksDB may deny a method that asks for it, and the code for that. Nothing else of what RocksDB
answers makes a method throw. -/
inductive Denies (d : Dictionary) (a : Answers) : KVStore.Call → ℤ → Prop
  | put (k : KindImpl) (key value : Bytes) {code : ℤ} (h : WriteFails a code) :
      Denies d a (.put (.impl k) (some key) value) code
  | remove (k : KindImpl) (key : Bytes) {code : ℤ} (h : WriteFails a code) :
      Denies d a (.remove (.impl k) (some key)) code
  | singleRemove (k : KindImpl) (key : Bytes) {code : ℤ} (h : WriteFails a code) :
      Denies d a (.singleRemove (.impl k) (some key)) code
  | get (k : KindImpl) (key : Bytes) {code : ℤ} (h : ReadFails a code) :
      Denies d a (.get (.impl k) (some key)) code
  | updateIfPresent (k : KindImpl) (key value : Bytes) {code : ℤ}
      (h : CondFails a (key ∈ d.maps k.name_) code) :
      Denies d a (.updateIfPresent (.impl k) (some key) value) code
  | singleRemoveIfPresent (k : KindImpl) (key : Bytes) {code : ℤ}
      (h : CondFails a (key ∈ d.maps k.name_) code) :
      Denies d a (.singleRemoveIfPresent (.impl k) (some key)) code
  | removeIfPresent (k : KindImpl) (key : Bytes) {code : ℤ}
      (h : CondFails a (key ∈ d.maps k.name_) code) :
      Denies d a (.removeIfPresent (.impl k) (some key)) code
  | putIfAbsent (k : KindImpl) (key value : Bytes) {code : ℤ}
      (h : CondFails a (key ∉ d.maps k.name_) code) :
      Denies d a (.putIfAbsent (.impl k) (some key) value) code
  | findMinKey (k : KindImpl) (h : a.iterator = false) :
      Denies d a (.findMinKey (.impl k)) Status.noIterator
  | findMaxKey (k : KindImpl) (h : a.iterator = false) :
      Denies d a (.findMaxKey (.impl k)) Status.noIterator
  | compact (k : KindImpl) {code : ℤ} (h : CompactFails a 1 code) : Denies d a (.compact (.impl k)) code
  | compactAll {code : ℤ} (h : CompactFails a d.names.ncard code) : Denies d a .compactAll code
  | getOrCreateKind (name : Bytes) {e : Error} (hnew : cStr name ∉ d.names) (h : a.create = some e) :
      Denies d a (.getOrCreateKind name) e.code

/-- Why a method throws, with the code of the exception. `close` and `isOpen` never do. -/
inductive Throws (d : Dictionary) (a : Answers) (c : KVStore.Call) : ℤ → Prop
  | closed (h : d.isOpen = false) (hclose : c ≠ .close) (hasks : c ≠ .isOpen) :
      Throws d a c Status.closed
  | refused (h : c.Refused) : Throws d a c Status.invalidArgument
  | denied {code : ℤ} (hopen : d.isOpen = true) (hargs : ¬ c.Refused) (h : d.Denies a c code) :
      Throws d a c code

end Dictionary

/-! ## Sessions -/

/-- A client's `KVStore`, the database on disk as it was last closed, and the Kinds that were returned
since it was last opened. -/
structure Session where
  kv : KVStore
  disk : Db
  given : List KindImpl

namespace Session

/-- A call with what it ended with, and the life of the `KVStore` objects. -/
inductive Event
  | call (c : KVStore.Call) (a : Answers) (r : Except RocksException KVStore.Result)
  | construct (o : OpenAnswers) (b : Answers) (e : Option RocksException)
  | destroy (a : Answers)

def isOpen (x : Session) : Bool := x.kv.store.any StoreImpl.isOpen

/-- The database: the open one, or the one on disk. -/
def content (x : Session) : Db := (x.kv.store.bind StoreImpl.txnDb).getD x.disk

/-- The dictionaries that a session stands for. -/
def dictionary (x : Session) : Dictionary where
  isOpen := x.isOpen
  names := {name | name ∈ x.content.families.map Prod.fst}
  maps name := (x.content.view name).1

/-- The Kinds that an ended call hands to the client. -/
def received (r : Except RocksException KVStore.Result) : List KindImpl :=
  match r with
  | .ok result => result.given
  | .error _ => []

inductive Step (x : Session) : Event → Session → Prop
  | call {c : KVStore.Call} {a : Answers} {r : Except RocksException KVStore.Result} {kv' : KVStore}
      (hc : c ≠ .close) (h : c.exec a x.kv = .ok (r, kv')) :
      Step x (.call c a r) { x with kv := kv', given := x.given ++ received r }
  | close {a : Answers} {s s' : StoreImpl} {d : Option Db} (hs : x.kv.store = some s)
      (h : s.close a = .ok (d, s')) :
      Step x (.call .close a (.ok .void)) ⟨⟨some s'⟩, d.getD x.disk, []⟩
  | construct {o : OpenAnswers} {b : Answers} {kv' : KVStore} (hclosed : x.isOpen = false)
      (ho : Honest (x.disk.families.map Prod.fst) o) (hr : Restores x.disk o)
      (h : KVStore.new o b = .ok (.ok kv')) : Step x (.construct o b none) ⟨kv', x.disk, []⟩
  | constructThrows {o : OpenAnswers} {b : Answers} {e : RocksException} (hclosed : x.isOpen = false)
      (h : KVStore.new o b = .ok (.error e)) : Step x (.construct o b (some e)) ⟨⟨none⟩, x.disk, []⟩
  | destroy {a : Answers} {d : Option Db} (h : x.kv.destroy a = .ok d) :
      Step x (.destroy a) ⟨⟨none⟩, d.getD x.disk, []⟩

/-- What is asked of RocksDB and of the clients. -/
structure Polite (x : Session) (e : Event) : Prop where
  write : ∀ c a r, e = .call c a r → c.ifPresent = true →
    a.write ≠ some .notFound ∧ a.commit ≠ some .notFound
  seek : ∀ c a r, e = .call c a r → a.seek = none
  kind : ∀ c a r k, e = .call c a r → x.isOpen = true → c.kind = some (.impl k) → k ∈ x.given
  once : ∀ c a r k key, e = .call c a r → x.isOpen = true → c.singleDeletes = some (k, key) →
    (x.content.view k.name_).2 key = false

end Session

/-- What an event means for the dictionaries. -/
inductive Dictionary.Step (d : Dictionary) : Session.Event → Dictionary → Prop
  | returns {c : KVStore.Call} {a : Answers} {r : KVStore.Result} {d' : Dictionary}
      (hopen : d.isOpen = true) (hargs : ¬ c.Refused) (h : d.Does c r d') : Step d (.call c a (.ok r)) d'
  | throws {c : KVStore.Call} {a : Answers} {code : ℤ} (h : d.Throws a c code) :
      Step d (.call c a (.error (KVStore.thrown code))) d
  | isOpen {a : Answers} : Step d (.call .isOpen a (.ok (.bool d.isOpen))) d
  | close {a : Answers} : Step d (.call .close a (.ok .void)) { d with isOpen := false }
  | construct {o : OpenAnswers} {b : Answers} (hclosed : d.isOpen = false) :
      Step d (.construct o b none) { d with isOpen := true, names := insert DefaultCF d.names }
  | constructThrows {o : OpenAnswers} {b : Answers} (hclosed : d.isOpen = false)
      (hwhy : o.listed = false) :
      Step d (.construct o b (some (KVStore.thrown o.list.code))) d
  | destroy {a : Answers} : Step d (.destroy a) { d with isOpen := false }

namespace Session

/-- There is no open store, and the database on disk is well named. -/
structure Closed (x : Session) : Prop where
  store : ∀ s, x.kv.store = some s → s.isOpen = false ∧ s.txnDb = none
  named : Site.WellNamed (x.disk.families.map Prod.fst)

/-- The store is open, and has the Kinds that it has returned. -/
structure Running (x : Session) (s : StoreImpl) (db : Db) : Prop where
  store : x.kv.store = some s
  openWith : s.OpenWith db
  aligned : Aligned s db
  given : ∀ k ∈ x.given, s.kinds.lookup k.name_ = some k

def Inv (x : Session) : Prop := x.Closed ∨ ∃ s db, x.Running s db

variable {x y : Session} {s s' : StoreImpl} {db db' : Db} {a : Answers} {k : KindImpl}

theorem Closed.isOpen (h : x.Closed) : x.isOpen = false := by
  cases hs : x.kv.store with
  | none => simp only [Session.isOpen, hs, Option.any_none]
  | some s => simp only [Session.isOpen, hs, Option.any_some, (h.store s hs).1]

theorem Closed.content (h : x.Closed) : x.content = x.disk := by
  cases hs : x.kv.store with
  | none => simp only [Session.content, hs, Option.bind_none, Option.getD_none]
  | some s => simp only [Session.content, hs, Option.bind_some, (h.store s hs).2, Option.getD_none]

namespace Running

theorem isOpen (h : x.Running s db) : x.isOpen = true := by
  simp only [Session.isOpen, h.store, Option.any_some, h.openWith.isOpen]

theorem content (h : x.Running s db) : x.content = db := by
  simp only [Session.content, h.store, Option.bind_some, h.openWith.txnDb, Option.getD_some]

/-- The Kinds that were returned belong to families of the database. -/
theorem mem_families (h : x.Running s db) (hk : k ∈ x.given) :
    (k.name_, k.handle) ∈ db.families ∧ k.isValid = true := by
  obtain ⟨name, handle⟩ := k
  obtain ⟨hd, hmem, hkind⟩ := h.aligned.lookup_iff.mp (h.given _ hk)
  cases hkind
  exact ⟨hmem, rfl⟩

/-- A Kind for each name. -/
theorem kinds_length (h : x.Running s db) : s.kinds.length = x.dictionary.names.ncard := by
  have hset : x.dictionary.names = ((db.families.map Prod.fst).toFinset : Set Bytes) := by
    ext name
    simp only [dictionary, h.content, List.coe_toFinset]
  rw [hset, Set.ncard_coe_finset, List.toFinset_card_of_nodup h.aligned.names, h.aligned.kinds,
    List.length_map, List.length_map]

theorem maps_eq (h : x.Running s db) (hk : k ∈ x.given) :
    x.dictionary.maps k.name_ = db.data k.handle := by
  have hview := view_of_mem h.aligned.names (h.mem_families hk).1
  simp only [dictionary, h.content, hview]

/-- A call that leaves the families as they are, and what is in them, has done nothing to the
dictionaries. -/
theorem untouched (h : x.Running s db) (hu : Untouched s db s' db') :
    Running { x with kv := ⟨some s'⟩ } s' db' ∧ dictionary { x with kv := ⟨some s'⟩ } = x.dictionary := by
  have hc : Confined 0 s db s' db' := hu.confined h.aligned
  have hrunning : Running { x with kv := ⟨some s'⟩ } s' db' :=
    ⟨rfl, hc.toOpenWith, hc.toAligned, fun k hk => by rw [hc.registry]; exact h.given k hk⟩
  refine ⟨hrunning, ?_⟩
  simp only [dictionary, hrunning.isOpen, h.isOpen, hrunning.content, h.content, hu.content.view,
    hc.families]

/-- A call that is confined to one Kind has changed its dictionary. -/
theorem confined (h : x.Running s db) (hk : k ∈ x.given) (hc : Confined k.handle s db s' db')
    {f : Family → Family} (hf : db'.data k.handle = f (db.data k.handle)) :
    Running { x with kv := ⟨some s'⟩ } s' db' ∧
      dictionary { x with kv := ⟨some s'⟩ } = x.dictionary.edit k f := by
  have hrunning : Running { x with kv := ⟨some s'⟩ } s' db' :=
    ⟨rfl, hc.toOpenWith, hc.toAligned, fun k hk => by rw [hc.registry]; exact h.given k hk⟩
  have hmem := (h.mem_families hk).1
  refine ⟨hrunning, ?_⟩
  have hmaps : (dictionary { x with kv := ⟨some s'⟩ }).maps
      = Function.update x.dictionary.maps k.name_ (db'.data k.handle) := by
    funext name
    simp only [dictionary, hrunning.content, h.content, hc.view h.aligned hmem]
    by_cases hname : name = k.name_
    · subst hname
      rw [Function.update_self, Function.update_self]
    · rw [Function.update_of_ne hname, Function.update_of_ne hname]
  rw [hf, ← h.maps_eq hk] at hmaps
  rw [Dictionary.edit, ← hmaps]
  simp only [dictionary, hrunning.isOpen, h.isOpen, hrunning.content, h.content, hc.families]

/-- A `SingleDelete` of a key that was not overwritten is a `Delete`. -/
theorem single_delete (h : x.Running s db) (hk : k ∈ x.given) {key : Bytes}
    (honce : (x.content.view k.name_).2 key = false) (undefined : Option Bytes) :
    (db.apply (.singleDelete k.handle key undefined)).data k.handle = (db.data k.handle).erase key := by
  have hover : db.overwritten k.handle key = false := by
    rwa [h.content, view_of_mem h.aligned.names (h.mem_families hk).1] at honce
  simp [Db.apply, hover, Db.setFamily, Db.setOverwritten]

theorem read_eq (h : x.Running s db) (hk : k ∈ x.given) (key : Bytes) :
    x.dictionary.read k key = .bytes (.ofContent (((db.data k.handle).lookup key).getD [])) := by
  rw [Dictionary.read, h.maps_eq hk]

end Running

/-- A call has ended: the store runs, and the dictionaries are as they should be. -/
def Ends (x : Session) (c : KVStore.Call) (a : Answers) (r : Except RocksException KVStore.Result)
    (kv' : KVStore) : Prop :=
  (∃ s db, Running { x with kv := kv', given := x.given ++ received r } s db) ∧
    Dictionary.Step x.dictionary (.call c a r)
      (dictionary { x with kv := kv', given := x.given ++ received r })

/-- A call has ended without handing out a Kind. -/
structure Ended (x : Session) (c : KVStore.Call) (a : Answers) (r : Except RocksException KVStore.Result)
    (kv' : KVStore) : Prop where
  received : received r = []
  running : ∃ s db, Running { x with kv := kv' } s db
  step : Dictionary.Step x.dictionary (.call c a r) (dictionary { x with kv := kv' })

theorem Ended.ends {c : KVStore.Call} {r : Except RocksException KVStore.Result} {kv' : KVStore}
    (h : x.Ended c a r kv') : x.Ends c a r kv' := by
  rw [Ends, h.received, List.append_nil]
  exact ⟨h.running, h.step⟩

namespace Running

variable {c : KVStore.Call} {code : ℤ} {r : Except RocksException KVStore.Result} {kv' : KVStore}

theorem returned (h : x.Running s db) (href : ¬ c.Refused) {result : KVStore.Result}
    (hgiven : result.given = []) (hrunning : ∃ s db, Running { x with kv := kv' } s db)
    (hdoes : x.dictionary.Does c result (dictionary { x with kv := kv' })) :
    x.Ended c a (.ok result) kv' :=
  ⟨hgiven, hrunning, .returns h.isOpen href hdoes⟩

/-- An exception after which nothing has changed. -/
theorem threw (h : x.Running s db) (hu : Untouched s db s' db') (hwhy : x.dictionary.Throws a c code) :
    x.Ended c a (.error (KVStore.thrown code)) ⟨some s'⟩ := by
  obtain ⟨hrunning, hsame⟩ := h.untouched hu
  refine ⟨rfl, ⟨s', db', hrunning⟩, ?_⟩
  rw [hsame]
  exact .throws hwhy

/-- An exception for what RocksDB denies. -/
theorem denied (h : x.Running s db) (href : ¬ c.Refused) (hu : Untouched s db s' db')
    (hwhy : x.dictionary.Denies a c code) : x.Ended c a (.error (KVStore.thrown code)) ⟨some s'⟩ :=
  h.threw hu (.denied h.isOpen href hwhy)

/-- A call that has read only. -/
theorem returned_same (h : x.Running s db) (href : ¬ c.Refused) {result : KVStore.Result}
    (hgiven : result.given = []) (hdoes : x.dictionary.Does c result x.dictionary) :
    x.Ended c a (.ok result) ⟨some s⟩ := by
  obtain ⟨hrunning, hsame⟩ := h.untouched h.openWith.untouched
  refine h.returned href hgiven ⟨s, db, hrunning⟩ ?_
  rwa [hsame]

/-- `put`, `remove` and `singleRemove`. -/
theorem void_write (h : x.Running s db) (href : ¬ c.Refused) (hk : k ∈ x.given)
    (write : Bytes → Handle → Write) (hfam : ∀ key fam, (write key fam).handle = fam)
    {key : Bytes} {f : Family → Family}
    (hf : (db.apply (write key k.handle)).data k.handle = f (db.data k.handle))
    (hdoes : x.dictionary.Does c .void (x.dictionary.edit k f))
    (hdenies : ∀ {code}, WriteFails a code → x.dictionary.Denies a c code)
    (hrun : (x.kv.callVoid fun s => s.voidOp (fun status key s => s.txWrite a (write key) status (.impl k))
      (some Status.ok) (.impl k) (some key)).map (KVStore.Ended.as fun _ => .void) = .ok (r, kv')) :
    x.Ended c a r kv' := by
  obtain ⟨code, s', db', hop, ⟨rfl, hc, hdata⟩ | ⟨hcode, hfails, hu⟩⟩ :=
    voidWrite_impl h.openWith h.aligned (h.mem_families hk).2 a hfam key
  · rw [KVStore.callVoid_eq h.store hop, KVStore.orThrow_accepted rfl] at hrun
    cases hrun
    obtain ⟨hrunning, hedit⟩ :=
      h.confined hk hc ((congrFun hdata k.handle).trans hf)
    refine h.returned href rfl ⟨s', db', hrunning⟩ ?_
    rwa [hedit]
  · rw [KVStore.callVoid_thrown h.store hop hcode] at hrun
    cases hrun
    exact h.denied href hu (hdenies hfails)

/-- `updateIfPresent`, `singleRemoveIfPresent` and `removeIfPresent`. -/
theorem if_present (h : x.Running s db) (href : ¬ c.Refused) (hk : k ∈ x.given)
    (write : Bytes → Handle → Write) (hfam : ∀ key fam, (write key fam).handle = fam)
    {key : Bytes} {f : Family → Family}
    (hf : key ∈ db.data k.handle → (db.apply (write key k.handle)).data k.handle = f (db.data k.handle))
    (hnone : key ∉ db.data k.handle → f (db.data k.handle) = db.data k.handle)
    (hdoes : x.dictionary.Does c (x.dictionary.read k key) (x.dictionary.edit k f))
    (hdenies : ∀ {code}, CondFails a (key ∈ x.dictionary.maps k.name_) code → x.dictionary.Denies a c code)
    (hwrites : a.write ≠ some .notFound ∧ a.commit ≠ some .notFound)
    (hrun : (x.kv.callBytes KVStore.isOkOrNotFound fun s => s.readOp
      (ifPresent a (fun status kind key s => s.txWrite a (write key) status kind) (.impl k))
      (some Status.ok) (.impl k) (some 0) (some key)).map (KVStore.Ended.as .bytes) = .ok (r, kv')) :
    x.Ended c a r kv' := by
  have hread := h.read_eq hk key
  obtain ⟨reply, code, s', db', hop, hst, hends⟩ :=
    ifPresent_impl h.openWith h.aligned (h.mem_families hk).2 a hfam key
  rcases hends with ⟨value, hl, hdata, hlen, rfl, hc, hdb⟩ | ⟨hl, rfl, hdata, hlen, rfl⟩ |
      ⟨hcode, hfails, hu⟩
  · rw [KVStore.callBytes_eq h.store hop, hst, KVStore.orThrow_accepted rfl, hdata, hlen] at hrun
    cases hrun
    obtain ⟨hrunning, hedit⟩ := h.confined hk hc
      ((congrFun hdb k.handle).trans (hf (Finmap.mem_of_lookup_eq_some hl)))
    refine h.returned href rfl ⟨s', db', hrunning⟩ ?_
    rw [hl] at hread
    rw [hedit]
    rwa [hread] at hdoes
  · rw [KVStore.callBytes_eq h.store hop, hst, KVStore.orThrow_accepted rfl, hdata, hlen] at hrun
    cases hrun
    have hsame : x.dictionary.edit k f = x.dictionary := by
      rw [Dictionary.edit, h.maps_eq hk, hnone (Finmap.lookup_eq_none.mp hl), ← h.maps_eq hk,
        Function.update_eq_self]
    rw [hl] at hread
    rw [hsame, hread] at hdoes
    exact h.returned_same href rfl hdoes
  · rw [KVStore.callBytes_thrown h.store hop hst
      (KVStore.isOkOrNotFound_eq_false hcode (hfails.ne_notFound hwrites.1 hwrites.2)) hcode] at hrun
    cases hrun
    rw [← h.maps_eq hk] at hfails
    exact h.denied href hu (hdenies hfails)

theorem get (h : x.Running s db) {key : Bytes} (href : ¬ KVStore.Call.Refused (.get (.impl k) (some key)))
    (hk : k ∈ x.given)
    (hrun : KVStore.Call.exec a x.kv (.get (.impl k) (some key)) = .ok (r, kv')) :
    x.Ended (.get (.impl k) (some key)) a r kv' := by
  have hvalid : (Kind.impl k).isValid = true := (h.mem_families hk).2
  have hread := h.read_eq hk key
  have hreply : ∀ st len data, s.get_ a (some Status.ok) (.impl k) 0 key = .ok (st, len, data) →
      s.get a (some Status.ok) (.impl k) (some 0) (some key)
        = .ok ({ status := st, resultLen := some len, data := data }, s) := by
    intro st len data hget
    simp only [StoreImpl.get, readOp, hvalid, if_true, h.openWith.validateOpen_eq, assign_some, hget]
    rfl
  simp only [KVStore.Call.exec, KVStore.get] at hrun
  rcases get_impl h.openWith a k key with ⟨value, -, hl, hget⟩ | ⟨-, hl, hget⟩ | ⟨code, hfails, hget⟩
  · rw [KVStore.callBytes_eq h.store (hreply _ _ _ hget), KVStore.orThrow_accepted rfl] at hrun
    cases hrun
    rw [hl] at hread
    have hdoes := Dictionary.Does.get (d := x.dictionary) k key
    rw [hread] at hdoes
    exact h.returned_same href rfl hdoes
  · rw [KVStore.callBytes_eq h.store (hreply _ _ _ hget), KVStore.orThrow_accepted rfl] at hrun
    cases hrun
    rw [hl] at hread
    have hdoes := Dictionary.Does.get (d := x.dictionary) k key
    rw [hread] at hdoes
    exact h.returned_same href rfl hdoes
  · obtain ⟨hok, hnot, -⟩ := hfails.ne
    rw [KVStore.callBytes_thrown h.store (hreply _ _ _ hget) rfl
      (KVStore.isOkOrNotFound_eq_false hok hnot) hok] at hrun
    cases hrun
    exact h.denied href h.openWith.untouched (.get k key hfails)

theorem put_if_absent (h : x.Running s db) {key value : Bytes}
    (href : ¬ KVStore.Call.Refused (.putIfAbsent (.impl k) (some key) value)) (hk : k ∈ x.given)
    (hrun : KVStore.Call.exec a x.kv (.putIfAbsent (.impl k) (some key) value) = .ok (r, kv')) :
    x.Ended (.putIfAbsent (.impl k) (some key) value) a r kv' := by
  have hdoes := Dictionary.Does.putIfAbsent (d := x.dictionary) k key value
  rw [h.maps_eq hk] at hdoes
  simp only [KVStore.Call.exec] at hrun
  obtain ⟨code, s', db', hop, hends⟩ :=
    putIfAbsent_impl h.openWith h.aligned (h.mem_families hk).2 a key value
  rw [KVStore.putIfAbsent_eq h.store hop] at hrun
  rcases hends with ⟨hmem, rfl, rfl⟩ | ⟨hmem, rfl, hc, hdb⟩ | ⟨hcode, hfails, hu⟩
  · rw [if_neg (by decide), if_pos rfl] at hrun
    cases hrun
    have hsame : x.dictionary.edit k (fun m => if key ∈ m then m else m.insert key value)
        = x.dictionary := by
      rw [Dictionary.edit, h.maps_eq hk, if_pos hmem, ← h.maps_eq hk, Function.update_eq_self]
    rw [hsame, decide_eq_false (not_not.mpr hmem)] at hdoes
    exact h.returned_same href rfl hdoes
  · rw [if_pos rfl] at hrun
    cases hrun
    obtain ⟨hrunning, hedit⟩ := h.confined hk hc
      (f := fun m => if key ∈ m then m else m.insert key value) (by
        rw [hdb, if_neg hmem]
        exact Function.update_self _ _ _)
    refine h.returned href rfl ⟨s', db', hrunning⟩ ?_
    rw [hedit]
    rwa [decide_eq_true hmem] at hdoes
  · rw [if_neg hcode, if_neg hfails.ne_alreadyExists] at hrun
    cases hrun
    rw [← h.maps_eq hk] at hfails
    exact h.denied href hu (.putIfAbsent k key value hfails)

theorem find_key (h : x.Running s db) (href : ¬ c.Refused) (hk : k ∈ x.given) (hseek : a.seek = none)
    {extreme : Family → Option Bytes}
    (hdoes : x.dictionary.Does c
      (.bytes (.ofContent ((extreme (x.dictionary.maps k.name_)).getD []))) x.dictionary)
    (hdenies : a.iterator = false → x.dictionary.Denies a c Status.noIterator)
    (hrun : (x.kv.callBytes KVStore.isOk fun s => s.findKey a extreme (some Status.ok) (.impl k) 0).map
      (KVStore.Ended.as .bytes) = .ok (r, kv')) : x.Ended c a r kv' := by
  have hv := (h.mem_families hk).2
  rw [h.maps_eq hk] at hdoes
  cases hit : a.iterator with
  | false =>
    rw [KVStore.callBytes_thrown h.store (findKey_noIterator h.openWith hv hit extreme (some Status.ok) 0)
      rfl rfl (by decide)] at hrun
    cases hrun
    exact h.denied href h.openWith.untouched (hdenies hit)
  | true =>
    have hfound : (if a.seek.isNone then extreme (db.data k.handle) else none)
        = extreme (db.data k.handle) := by simp [hseek]
    rw [KVStore.callBytes_eq h.store
      (findKey_sought h.openWith hv hit extreme (some Status.ok) 0 hfound),
      assign_some, KVStore.orThrow_accepted rfl] at hrun
    cases hrun
    refine h.returned_same href rfl ?_
    cases hkey : extreme (db.data k.handle) with
    | none => rwa [hkey] at hdoes
    | some key => rwa [hkey] at hdoes

/-- `compact` and `compactAll`, with the number of Kinds that they compact. -/
theorem compacted (h : x.Running s db) (href : ¬ c.Refused)
    {call : StoreImpl → Except Halt (Option ℤ × StoreImpl)} {n : ℕ}
    (hcall : ∃ code, call s = .ok (some code, s) ∧ (code = Status.ok ∨ CompactFails a n code))
    (hdoes : x.dictionary.Does c .void x.dictionary)
    (hdenies : ∀ {code}, CompactFails a n code → x.dictionary.Denies a c code)
    (hrun : (x.kv.callVoid call).map (KVStore.Ended.as fun _ => .void) = .ok (r, kv')) :
    x.Ended c a r kv' := by
  obtain ⟨code, hop, rfl | hfails⟩ := hcall
  · rw [KVStore.callVoid_eq h.store hop, KVStore.orThrow_accepted rfl] at hrun
    cases hrun
    exact h.returned_same href rfl hdoes
  · rw [KVStore.callVoid_thrown h.store hop hfails.ne_ok] at hrun
    cases hrun
    exact h.denied href h.openWith.untouched (hdenies hfails)

/-- The Kinds that a call hands out are entries of the store. -/
theorem extend (h : x.Running s db) {ks : List KindImpl}
    (hks : ∀ k ∈ ks, s.kinds.lookup k.name_ = some k) :
    Running { x with given := x.given ++ ks } s db :=
  { h with given := fun k hk => (List.mem_append.mp hk).elim (h.given k) (hks k) }

theorem default_kind (h : x.Running s db) (href : ¬ KVStore.Call.Refused .getDefaultKind)
    (hrun : KVStore.Call.exec a x.kv .getDefaultKind = .ok (r, kv')) :
    x.Ends .getDefaultKind a r kv' := by
  obtain ⟨kind, hget, -, hname, hl⟩ := getDefaultKind_aligned h.openWith h.aligned (some Status.ok)
  obtain ⟨hrunning, hsame⟩ := h.untouched h.openWith.untouched
  simp only [KVStore.Call.exec, KVStore.getDefaultKind] at hrun
  rw [KVStore.getKindManager_eq (r := .ok kind) h.store h.openWith (by
    simp only [hget, assign_some, KVStore.orThrow_accepted (show KVStore.isOk Status.ok = true from rfl)]
    rfl)] at hrun
  cases hrun
  rw [← hname] at hl
  refine ⟨⟨s, db, hrunning.extend fun k hk => ?_⟩, ?_⟩
  · rwa [List.mem_singleton.mp hk]
  · show Dictionary.Step _ _ (dictionary { x with kv := ⟨some s⟩ })
    rw [hsame]
    exact .returns h.isOpen href (.getDefaultKind kind hname)

theorem create_kind (h : x.Running s db) {name : Bytes}
    (href : ¬ KVStore.Call.Refused (.getOrCreateKind name))
    (hrun : KVStore.Call.exec a x.kv (.getOrCreateKind name) = .ok (r, kv')) :
    x.Ends (.getOrCreateKind name) a r kv' := by
  obtain ⟨st, kind, s', db', hget, hw', hal', hanswer, hkeeps⟩ :=
    getOrCreateKind_aligned h.openWith h.aligned a (some Status.ok) name
  obtain ⟨db₁, hw₁, hview, hnames⟩ := getOrCreateKind_view h.openWith h.aligned hget
  obtain rfl := hw'.db_eq hw₁.txnDb
  simp only [KVStore.Call.exec, KVStore.getOrCreateKind] at hrun
  cases hanswer with
  | granted hst hv hname hl =>
    subst hst
    rw [KVStore.getKindManager_eq (r := .ok kind) h.store h.openWith (by
      simp only [hget, ok_bind, assign_some, KVStore.orThrow_accepted (show KVStore.isOk Status.ok = true
        from rfl)]
      rfl)] at hrun
    cases hrun
    have hrunning : Running { x with kv := ⟨some s'⟩ } s' db' :=
      ⟨rfl, hw', hal', fun k hk => hkeeps _ k (h.given k hk)⟩
    refine ⟨⟨s', db', hrunning.extend fun k hk => ?_⟩, ?_⟩
    · rw [List.mem_singleton.mp hk, hname]
      exact hl
    · have hall : {n | n ∈ db'.families.map Prod.fst}
          = insert (cStr name) {n | n ∈ db.families.map Prod.fst} := by
        refine Set.ext fun n => ⟨fun hn => (hnames n hn).symm, ?_⟩
        rintro (rfl | hold)
        · by_contra hno
          rw [hal'.lookup_none_iff.mpr hno] at hl
          cases hl
        · exact hkeeps.mem_families h.aligned hal' hold
      have hsame : dictionary { x with kv := ⟨some s'⟩ }
          = { x.dictionary with names := insert (cStr name) x.dictionary.names } := by
        simp only [dictionary, hrunning.isOpen, h.isOpen, hrunning.content, h.content, hview]
        exact congrArg (fun names => (⟨true, names, _⟩ : Dictionary)) hall
      show Dictionary.Step _ _ (dictionary { x with kv := ⟨some s'⟩ })
      rw [hsame]
      exact .returns h.isOpen href (.getOrCreateKind name kind hname)
  | refused code hcode hst hv hs =>
    subst hst hs
    rw [KVStore.getKindManager_eq (r := .error (KVStore.thrown code)) h.store h.openWith (by
      simp only [hget, ok_bind, assign_some, KVStore.orThrow_thrown (KVStore.isOk_eq_false hcode) hcode]
      rfl)] at hrun
    cases hrun
    obtain ⟨hnew, e, he, rfl⟩ := getOrCreateKind_code h.openWith h.aligned hget hcode
    have hnames : cStr name ∉ x.dictionary.names := by
      show cStr name ∉ x.content.families.map Prod.fst
      rwa [h.content]
    exact (h.denied href h.openWith.untouched (.getOrCreateKind name hnames he)).ends

theorem all_kinds (h : x.Running s db) (href : ¬ KVStore.Call.Refused .getKinds)
    (hrun : KVStore.Call.exec a x.kv .getKinds = .ok (r, kv')) :
    x.Ends .getKinds a r kv' := by
  obtain ⟨ks, hget, hordered, hmem⟩ := KVStore.getKinds_ordered h.store h.openWith h.aligned
  simp only [KVStore.Call.exec, hget] at hrun
  cases hrun
  refine ⟨⟨s, db, h.extend fun k hk => ?_⟩, .returns h.isOpen href (.getKinds ks ?_ fun name => ?_)⟩
  · obtain ⟨e, he, rfl⟩ := (hmem k).mp hk
    exact h.aligned.lookup_iff.mpr ⟨e.2, he, rfl⟩
  · exact List.pairwise_map.mpr hordered.sorted
  · show _ ↔ name ∈ x.content.families.map Prod.fst
    rw [h.content]
    simp only [List.mem_map, hmem]
    constructor
    · rintro ⟨k, ⟨e, he, rfl⟩, rfl⟩
      exact ⟨e, he, rfl⟩
    · rintro ⟨e, he, rfl⟩
      exact ⟨⟨e.1, some e.2⟩, ⟨e, he, rfl⟩, rfl⟩

/-- **What one call does.** -/
theorem call_step (h : x.Running s db) (hp : x.Polite (.call c a r)) (hc : c ≠ .close)
    (hrun : c.exec a x.kv = .ok (r, kv')) : x.Ends c a r kv' := by
  by_cases href : c.Refused
  · rw [KVStore.Call.exec_refused h.store h.openWith href] at hrun
    cases hrun
    rw [show x.kv = ⟨some s⟩ by rw [← h.store]]
    exact (h.threw h.openWith.untouched (.refused href)).ends
  have hgiven := fun k => hp.kind c a r k rfl h.isOpen
  have honce := fun k key => hp.once c a r k key rfl h.isOpen
  have hwrites := hp.write c a r rfl
  have hseek := hp.seek c a r rfl
  cases c with
  | put kind key value =>
    obtain ⟨k, rfl⟩ := KVStore.Call.exists_impl href rfl
    obtain ⟨key, rfl⟩ := KVStore.Call.exists_key href rfl
    exact (h.void_write href (hgiven k rfl) (fun key fam => .put fam key value) (fun _ _ => rfl)
      (Function.update_self _ _ _) (.put k key value) (.put k key value) hrun).ends
  | remove kind key =>
    obtain ⟨k, rfl⟩ := KVStore.Call.exists_impl href rfl
    obtain ⟨key, rfl⟩ := KVStore.Call.exists_key href rfl
    exact (h.void_write href (hgiven k rfl) (fun key fam => .delete fam key) (fun _ _ => rfl)
      (Function.update_self _ _ _) (.remove k key) (.remove k key) hrun).ends
  | singleRemove kind key =>
    obtain ⟨k, rfl⟩ := KVStore.Call.exists_impl href rfl
    obtain ⟨key, rfl⟩ := KVStore.Call.exists_key href rfl
    exact (h.void_write href (hgiven k rfl) (fun key fam => .singleDelete fam key a.undefined)
      (fun _ _ => rfl) (h.single_delete (hgiven k rfl) (honce k key rfl) a.undefined)
      (.singleRemove k key) (.singleRemove k key) hrun).ends
  | get kind key =>
    obtain ⟨k, rfl⟩ := KVStore.Call.exists_impl href rfl
    obtain ⟨key, rfl⟩ := KVStore.Call.exists_key href rfl
    exact (h.get href (hgiven k rfl) hrun).ends
  | updateIfPresent kind key value =>
    obtain ⟨k, rfl⟩ := KVStore.Call.exists_impl href rfl
    obtain ⟨key, rfl⟩ := KVStore.Call.exists_key href rfl
    refine (h.if_present href (hgiven k rfl) (fun key fam => .put fam key value) (fun _ _ => rfl)
      (f := fun m => if key ∈ m then m.insert key value else m) (fun hmem => ?_) (fun hmem => if_neg hmem)
      (.updateIfPresent k key value) (.updateIfPresent k key value) (hwrites rfl) hrun).ends
    exact (Function.update_self _ _ _).trans (if_pos hmem).symm
  | singleRemoveIfPresent kind key =>
    obtain ⟨k, rfl⟩ := KVStore.Call.exists_impl href rfl
    obtain ⟨key, rfl⟩ := KVStore.Call.exists_key href rfl
    refine (h.if_present href (hgiven k rfl) (fun key fam => .singleDelete fam key a.undefined)
      (fun _ _ => rfl) (fun _ => h.single_delete (hgiven k rfl) (honce k key rfl) a.undefined)
      (fun hmem => ?_) (.singleRemoveIfPresent k key) (.singleRemoveIfPresent k key) (hwrites rfl)
      hrun).ends
    exact FMap.erase_of_notMem hmem
  | removeIfPresent kind key =>
    obtain ⟨k, rfl⟩ := KVStore.Call.exists_impl href rfl
    obtain ⟨key, rfl⟩ := KVStore.Call.exists_key href rfl
    refine (h.if_present href (hgiven k rfl) (fun key fam => .delete fam key) (fun _ _ => rfl)
      (fun _ => Function.update_self _ _ _) (fun hmem => ?_) (.removeIfPresent k key)
      (.removeIfPresent k key) (hwrites rfl) hrun).ends
    exact FMap.erase_of_notMem hmem
  | putIfAbsent kind key value =>
    obtain ⟨k, rfl⟩ := KVStore.Call.exists_impl href rfl
    obtain ⟨key, rfl⟩ := KVStore.Call.exists_key href rfl
    exact (h.put_if_absent href (hgiven k rfl) hrun).ends
  | findMinKey kind =>
    obtain ⟨k, rfl⟩ := KVStore.Call.exists_impl href rfl
    exact (h.find_key href (hgiven k rfl) hseek (.findMinKey k) (.findMinKey k) hrun).ends
  | findMaxKey kind =>
    obtain ⟨k, rfl⟩ := KVStore.Call.exists_impl href rfl
    exact (h.find_key href (hgiven k rfl) hseek (.findMaxKey k) (.findMaxKey k) hrun).ends
  | compact kind =>
    obtain ⟨k, rfl⟩ := KVStore.Call.exists_impl href rfl
    exact (h.compacted href (compact_impl h.openWith (h.mem_families (hgiven k rfl)).2 a) (.compact k)
      (.compact k) hrun).ends
  | compactAll =>
    refine (h.compacted href (compactAll_impl h.openWith a) .compactAll (fun hfails => ?_) hrun).ends
    rw [h.kinds_length] at hfails
    exact .compactAll hfails
  | close => exact absurd rfl hc
  | isOpen =>
    simp only [KVStore.Call.exec, KVStore.isOpen, KVStore.deref_eq h.store] at hrun
    cases hrun
    rw [h.openWith.isOpen, ← h.isOpen]
    exact Ended.ends ⟨rfl, ⟨s, db, h⟩, .isOpen⟩
  | getDefaultKind => exact h.default_kind href hrun
  | getOrCreateKind name => exact h.create_kind href hrun
  | getKinds => exact h.all_kinds href hrun

end Running

/-! ## The life of the objects -/

variable {e : Event}

/-- What a session without an open store stands for. -/
theorem shut (kv' : KVStore) (given : List KindImpl)
    (hnamed : Site.WellNamed (x.content.families.map Prod.fst))
    (hkv : ∀ s, kv'.store = some s → s.isOpen = false ∧ s.txnDb = none) :
    Closed ⟨kv', x.content, given⟩ ∧
      dictionary ⟨kv', x.content, given⟩ = { x.dictionary with isOpen := false } := by
  have hclosed : Closed ⟨kv', x.content, given⟩ := ⟨hkv, hnamed⟩
  refine ⟨hclosed, ?_⟩
  simp only [dictionary, hclosed.isOpen, hclosed.content]

namespace Closed

theorem shut (h : x.Closed) (kv' : KVStore) (given : List KindImpl)
    (hkv : ∀ s, kv'.store = some s → s.isOpen = false ∧ s.txnDb = none) :
    Closed ⟨kv', x.disk, given⟩ ∧ dictionary ⟨kv', x.disk, given⟩ = x.dictionary := by
  have hnamed : Site.WellNamed (x.content.families.map Prod.fst) := by
    rw [h.content]
    exact h.named
  have hshut := Session.shut kv' given hnamed hkv
  rw [h.content] at hshut
  refine ⟨hshut.1, hshut.2.trans ?_⟩
  rw [← h.isOpen]
  rfl

/-- The methods of a closed store throw, and `isOpen` says so. -/
theorem call_step (h : x.Closed) {c : KVStore.Call} {r : Except RocksException KVStore.Result}
    {kv' : KVStore} {given : List KindImpl} (hc : c ≠ .close) (hrun : c.exec a x.kv = .ok (r, kv')) :
    Closed ⟨kv', x.disk, given⟩ ∧
      Dictionary.Step x.dictionary (.call c a r) (dictionary ⟨kv', x.disk, given⟩) := by
  cases hs : x.kv.store with
  | none =>
    rw [KVStore.Call.exec_null hs hc] at hrun
    cases hrun
  | some s =>
    obtain ⟨hopen, hdb⟩ := h.store s hs
    by_cases hasks : c = .isOpen
    · subst hasks
      simp only [KVStore.Call.exec, KVStore.isOpen, KVStore.deref_eq hs] at hrun
      cases hrun
      obtain ⟨hclosed, hsame⟩ := h.shut x.kv given h.store
      refine ⟨hclosed, ?_⟩
      rw [hsame, hopen, ← h.isOpen]
      exact .isOpen
    · obtain ⟨code, s', hexec, hcode, hopen', hdb'⟩ := KVStore.Call.exec_closed hs hopen a hc hasks
      rw [hexec] at hrun
      cases hrun
      obtain ⟨hclosed, hsame⟩ := h.shut ⟨some s'⟩ given (by
        rintro t ⟨⟩
        exact ⟨hopen', hdb'.trans hdb⟩)
      refine ⟨hclosed, ?_⟩
      rw [hsame]
      rcases hcode with rfl | ⟨hbad, rfl⟩
      · exact .throws (.closed h.isOpen hc hasks)
      · exact .throws (.refused hbad)

/-- **Opening the database again** finds the dictionaries, and that of the default Kind. -/
theorem construct (h : x.Closed) {o : OpenAnswers} {b : Answers} {kv' : KVStore}
    (ho : Honest (x.disk.families.map Prod.fst) o) (hr : Restores x.disk o)
    (hrun : KVStore.new o b = .ok (.ok kv')) :
    (∃ s db, Running ⟨kv', x.disk, []⟩ s db) ∧
      Dictionary.Step x.dictionary (.construct o b none) (dictionary ⟨kv', x.disk, []⟩) := by
  rcases KVStore.new_cases hrun with ⟨hl, hopened, s, hnew, heq⟩ | ⟨-, heq⟩
  swap
  · cases heq
  cases heq
  obtain ⟨s', db, hnew', hw, hsame, -⟩ := new_opened hl hopened
  obtain rfl := Except.ok.inj (hnew.symm.trans hnew')
  obtain ⟨db', hw', hal⟩ := Site.new_aligned h.named ho hl hopened hnew
  obtain rfl := hw.db_eq hw'.txnDb
  have hrunning : Running ⟨⟨some s⟩, x.disk, []⟩ s db :=
    { store := rfl, openWith := hw, aligned := hal, given := fun k hk => absurd hk List.not_mem_nil }
  refine ⟨⟨s, db, hrunning⟩, ?_⟩
  have hnames : {name | name ∈ db.families.map Prod.fst}
      = insert DefaultCF {name | name ∈ x.disk.families.map Prod.fst} :=
    Set.ext fun name => ho.mem_families h.named hl hopened hsame
  have hdictionary : dictionary ⟨⟨some s⟩, x.disk, []⟩
      = { x.dictionary with isOpen := true, names := insert DefaultCF x.dictionary.names } := by
    simp only [dictionary, hrunning.isOpen, hrunning.content, h.content,
      hr.view ho h.named hl hopened hsame]
    exact congrArg (fun names => (⟨true, names, _⟩ : Dictionary)) hnames
  rw [hdictionary]
  exact .construct h.isOpen

theorem step (h : x.Closed) (hs : Step x e y) : y.Inv ∧ Dictionary.Step x.dictionary e y.dictionary := by
  have hnone : ∀ s, (⟨none⟩ : KVStore).store = some s → s.isOpen = false ∧ s.txnDb = none := by
    rintro s ⟨⟩
  have hoff : { x.dictionary with isOpen := false } = x.dictionary := by
    rw [← h.isOpen]
    rfl
  cases hs with
  | call hc hrun =>
    obtain ⟨hclosed, hstep⟩ := h.call_step hc hrun
    exact ⟨.inl hclosed, hstep⟩
  | @close a s s' d hs hrun =>
    rw [close_closed (h.store s hs).1] at hrun
    cases hrun
    obtain ⟨hclosed, hsame⟩ := h.shut ⟨some s⟩ [] (by
      rintro t ⟨⟩
      exact h.store s hs)
    refine ⟨.inl hclosed, ?_⟩
    show Dictionary.Step _ _ (dictionary ⟨⟨some s⟩, x.disk, []⟩)
    rw [hsame, ← hoff]
    exact .close
  | construct _ ho hr hrun =>
    obtain ⟨hrunning, hstep⟩ := h.construct ho hr hrun
    exact ⟨.inr hrunning, hstep⟩
  | constructThrows _ hrun =>
    rcases KVStore.new_cases hrun with ⟨-, -, s, -, heq⟩ | ⟨hl, heq⟩
    · cases heq
    · cases heq
      obtain ⟨hclosed, hsame⟩ := h.shut ⟨none⟩ [] hnone
      refine ⟨.inl hclosed, ?_⟩
      rw [hsame]
      exact .constructThrows h.isOpen hl
  | @destroy a d hrun =>
    have hd : d = none := by
      cases hs : x.kv.store with
      | none =>
        simp only [KVStore.destroy, hs] at hrun
        exact (Except.ok.inj hrun).symm
      | some s =>
        simp only [KVStore.destroy, hs, destroy_eq_close, close_closed (h.store s hs).1] at hrun
        exact (Except.ok.inj hrun).symm
    subst hd
    obtain ⟨hclosed, hsame⟩ := h.shut ⟨none⟩ [] hnone
    refine ⟨.inl hclosed, ?_⟩
    show Dictionary.Step _ _ (dictionary ⟨⟨none⟩, x.disk, []⟩)
    rw [hsame, ← hoff]
    exact .destroy

end Closed

theorem Running.step (h : x.Running s db) (hp : x.Polite e) (hs : Step x e y) :
    y.Inv ∧ Dictionary.Step x.dictionary e y.dictionary := by
  have hnamed : Site.WellNamed (x.content.families.map Prod.fst) := by
    rw [h.content]
    exact Site.wellNamed_of_aligned h.aligned
  cases hs with
  | call hc hrun =>
    obtain ⟨hrunning, hstep⟩ := h.call_step hp hc hrun
    exact ⟨.inr hrunning, hstep⟩
  | @close a s₁ s' d hs hrun =>
    obtain rfl := Option.some.inj (h.store.symm.trans hs)
    rw [close_open h.openWith] at hrun
    cases hrun
    have hshut := Session.shut ⟨some { s with isOpen := false, kinds := [], txnDb := none }⟩ [] hnamed (by
      rintro t ⟨⟩
      exact ⟨rfl, rfl⟩)
    rw [h.content] at hshut
    refine ⟨.inl hshut.1, ?_⟩
    show Dictionary.Step _ _ (dictionary ⟨⟨some _⟩, db, []⟩)
    rw [hshut.2]
    exact .close
  | construct hclosed => exact absurd (h.isOpen.symm.trans hclosed) (by decide)
  | constructThrows hclosed => exact absurd (h.isOpen.symm.trans hclosed) (by decide)
  | @destroy a d hrun =>
    simp only [KVStore.destroy, h.store, destroy_eq_close, close_open h.openWith] at hrun
    cases hrun
    have hshut := Session.shut ⟨none⟩ [] hnamed (by rintro t ⟨⟩)
    rw [h.content] at hshut
    refine ⟨.inl hshut.1, ?_⟩
    show Dictionary.Step _ _ (dictionary ⟨⟨none⟩, db, []⟩)
    rw [hshut.2]
    exact .destroy

/-- **What one step preserves, and what it means.** -/
theorem Inv.step (hx : x.Inv) (hp : x.Polite e) (hs : Step x e y) :
    y.Inv ∧ Dictionary.Step x.dictionary e y.dictionary := by
  rcases hx with hclosed | ⟨s, db, hrunning⟩
  · exact hclosed.step hs
  · exact hrunning.step hp hs

/-- **A client's store is a dictionary for each Kind.** In every run what a call returns, or throws, is
what the dictionaries give, and after every run every further call returns or throws. -/
theorem dictionary_refined {es : List Event} (hx : x.Closed) (hrun : Run (guarded Polite Step) x es y) :
    Run Dictionary.Step x.dictionary es y.dictionary ∧
      ∀ s, y.kv.store = some s → ∀ (c : KVStore.Call) (a : Answers), ∃ z, c.exec a y.kv = .ok z := by
  have hstep : ∀ x d e y, (Inv x ∧ x.dictionary = d) → guarded Polite Step x e y →
      ∃ d', Dictionary.Step d e d' ∧ Inv y ∧ y.dictionary = d' := by
    rintro x d e y ⟨hinv, rfl⟩ ⟨hp, hs⟩
    obtain ⟨hinv', hd⟩ := hinv.step hp hs
    exact ⟨_, hd, hinv', rfl⟩
  obtain ⟨d, hd, hy, rfl⟩ := hrun.simulates hstep ⟨.inl hx, rfl⟩
  refine ⟨hd, fun s hs c a => ?_⟩
  rcases hy with hclosed | ⟨s', db, hrunning⟩
  · exact KVStore.Call.exec_sound hs (sound_of_closed (hclosed.store s hs).1) a c
  · obtain rfl := Option.some.inj (hrunning.store.symm.trans hs)
    exact KVStore.Call.exec_sound hs hrunning.openWith.sound a c

/-! ### An example -/

/-- No object, and no database yet. -/
private def nowhere : Session := ⟨⟨none⟩, { Db.created with families := [] }, []⟩

private def started : Session := { nowhere with kv := ⟨some .created⟩ }

private def startedWith : Session := { started with given := [DefaultKind] }

private def putSix : KVStore.Call := .put (.impl DefaultKind) (some [6]) [7]

/-- The store after the put, and the database that is closed then. -/
private def sixStored : StoreImpl :=
  match putSix.exec {} ⟨some .created⟩ with
  | .ok (_, ⟨some s⟩) => s
  | _ => .created

private def sixDb : Db := sixStored.txnDb.getD Db.created

private def laidDown : Session :=
  ⟨⟨some { sixStored with isOpen := false, kinds := [], txnDb := none }⟩, sixDb, []⟩

/-- The default family has another handle when the database is opened again. -/
private def pickedUp : OpenAnswers where
  list := { error := none, pathNotFound := false }
  families := [DefaultCF]
  opened := { error := none, pathNotFound := false }
  db := { Db.created with
          families := [(DefaultCF, 4)]
          nextHandle := 5
          data := fun _ => sixDb.data defaultFamily
          overwritten := fun _ => sixDb.overwritten defaultFamily }
  handles := [4]

private def laterKind : KindImpl := ⟨DefaultCF, some 4⟩

private def laterStore : StoreImpl :=
  match StoreImpl.new pickedUp with
  | .ok s => s
  | .error _ => .created

private def later : Session := { laidDown with kv := ⟨some laterStore⟩ }

private def laterWith : Session := { later with given := [laterKind] }

private def getSix : KVStore.Call := .get (.impl laterKind) (some [6])

private theorem closed_nowhere : nowhere.Closed where
  store := by rintro s ⟨⟩
  named := .inl rfl

private theorem honest_pickedUp : Honest [DefaultCF] pickedUp where
  listed _ := ⟨by decide, by decide, fun _ => Iff.rfl⟩
  missing h := absurd h (by decide)
  opened _ := ⟨rfl, by decide, rfl, by decide⟩

private theorem restores_pickedUp : Restores sixDb pickedUp := fun _ e he => by
  rw [List.mem_singleton.mp he]
  rfl

private theorem polite_of_plain {x : Session} {e : Event} (hcall : ∀ c a r, e = .call c a r →
    a.seek = none ∧ c.singleDeletes = none ∧ c.ifPresent = false ∧
      ∀ k, c.kind = some (.impl k) → k ∈ x.given) : x.Polite e where
  write c a r he hc := absurd ((hcall c a r he).2.2.1.symm.trans hc) (by decide)
  seek c a r he := (hcall c a r he).1
  kind c a r k he _ hk := (hcall c a r he).2.2.2 k hk
  once c a r k key he _ hk := absurd ((hcall c a r he).2.1.symm.trans hk) (by simp)

private def keptSix : List Event :=
  [.construct .created {} none, .call .getDefaultKind {} (.ok (.kind DefaultKind)),
    .call putSix {} (.ok .void), .call .close {} (.ok .void), .construct pickedUp {} none,
    .call .getDefaultKind {} (.ok (.kind laterKind)), .call getSix {} (.ok (.bytes (.ofContent [7])))]

/-- A value is put, and read by the next object. -/
theorem dictionary_refined_kept :
    nowhere.Closed ∧ Run (guarded Polite Step) nowhere keptSix laterWith ∧
      Run Dictionary.Step nowhere.dictionary keptSix laterWith.dictionary := by
  have hopen : Step nowhere (.construct .created {} none) started :=
    .construct (x := nowhere) rfl honest_created (fun _ e he => by
      rw [List.mem_singleton.mp he]
      rfl) rfl
  have hkind : Step started (.call .getDefaultKind {} (.ok (.kind DefaultKind))) startedWith :=
    .call (x := started) (by rintro ⟨⟩) rfl
  have hput : Step startedWith (.call putSix {} (.ok .void)) { startedWith with kv := ⟨some sixStored⟩ } :=
    .call (x := startedWith) (by rintro ⟨⟩) rfl
  have hclose : Step { startedWith with kv := ⟨some sixStored⟩ } (.call .close {} (.ok .void)) laidDown :=
    .close (x := { startedWith with kv := ⟨some sixStored⟩ }) (d := some sixDb) rfl rfl
  have hreopen : Step laidDown (.construct pickedUp {} none) later :=
    .construct (x := laidDown) rfl honest_pickedUp restores_pickedUp rfl
  have hlater : Step later (.call .getDefaultKind {} (.ok (.kind laterKind))) laterWith :=
    .call (x := later) (by rintro ⟨⟩) rfl
  have hget : Step laterWith (.call getSix {} (.ok (.bytes (.ofContent [7])))) laterWith :=
    .call (x := laterWith) (by rintro ⟨⟩) rfl
  have hobject : ∀ {x : Session} {e : Event}, (∀ c a r, e ≠ .call c a r) → x.Polite e :=
    fun hno => polite_of_plain fun c a r he => absurd he (hno c a r)
  have hplain : ∀ {x : Session} {c : KVStore.Call} {r : Except RocksException KVStore.Result},
      c.singleDeletes = none → c.ifPresent = false → (∀ k, c.kind = some (.impl k) → k ∈ x.given) →
        x.Polite (.call c {} r) := by
    intro x c r hsingle hif hgiven
    refine polite_of_plain ?_
    rintro _ _ _ ⟨⟩
    exact ⟨rfl, hsingle, hif, hgiven⟩
  have hrun : Run (guarded Polite Step) nowhere keptSix laterWith := by
    refine .cons ⟨hobject (by rintro _ _ _ ⟨⟩), hopen⟩ ?_
    refine .cons ⟨hplain rfl rfl (by rintro _ ⟨⟩), hkind⟩ ?_
    refine .cons ⟨hplain rfl rfl ?_, hput⟩ ?_
    · rintro _ ⟨⟩
      exact List.mem_singleton_self _
    refine .cons ⟨hplain rfl rfl (by rintro _ ⟨⟩), hclose⟩ ?_
    refine .cons ⟨hobject (by rintro _ _ _ ⟨⟩), hreopen⟩ ?_
    refine .cons ⟨hplain rfl rfl (by rintro _ ⟨⟩), hlater⟩ (.single ⟨hplain rfl rfl ?_, hget⟩)
    rintro _ ⟨⟩
    exact List.mem_singleton_self _
  exact ⟨closed_nowhere, hrun, (dictionary_refined closed_nowhere hrun).1⟩

end Session

end Librocks
