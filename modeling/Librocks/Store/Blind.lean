import Librocks.Kueue.HandOut
import Librocks.Store.Lifecycle

/-!
# The status of a store call

Every public method of `StoreImpl` that takes a status pointer settles on a code of its own
(`observe_decides`): what the variable held before is never read, and a null pointer changes nothing
but the report. `statusBlind_iff` adds that the code is Ok exactly when the call succeeded. The exceptions are
`findMinKey` and `findMaxKey` with a seek that failed, which report Ok.
-/

namespace Librocks

open Rocks

namespace StoreImpl

variable {s : StoreImpl} {a : Answers}

/-! ## Steps inside a call -/

/-- A write reports the refusal of RocksDB, or leaves the status to its caller. -/
theorem txWrite_passes (s : StoreImpl) (a : Answers) (write : Handle → Write) (k : Kind) :
    Passes fun status => s.txWrite a write status k := by
  unfold txWrite
  cases k.toKindImpl with
  | none => exact (Decides.ok Status.invalidArgument s).passes
  | some kind =>
    simp only
    cases s.reusableTx a with
    | error e => exact .error e
    | ok x =>
      simp only [ok_bind]
      cases x.2.deref with
      | error e => exact .error e
      | ok db =>
        simp only [ok_bind]
        rcases db.beginTransaction a.begins x.1 with ⟨_ | tx, db₂⟩
        · exact (Decides.ok Status.noTransaction _).passes
        · simp only
          rcases db₂.txnWrite a.write tx (write kind.handle) with ⟨_ | e, db₃⟩
          · simp only
            rcases db₃.txnCommit a.commit tx with ⟨_ | e, db₄⟩
            · simp only
              cases occasionalWalSync a { x.2 with txnDb := some db₄ } with
              | error e => exact .error e
              | ok s' => exact .keep s'
            · exact (Decides.ok e.code _).passes
          · exact (Decides.ok e.code _).passes

/-- So does a read; an absent key is reported as well. -/
theorem get_passes (s : StoreImpl) (a : Answers) (k : Kind) (len : ℕ) (key : Bytes) :
    Passes fun status => s.get_ a status k len key := by
  unfold get_
  cases k.toKindImpl with
  | none => exact (Decides.ok Status.invalidArgument _).passes
  | some kind =>
    simp only
    cases s.deref with
    | error e => exact .error e
    | ok db =>
      simp only [ok_bind]
      cases db.get a.get kind.handle key with
      | error e => exact (Decides.ok e.code _).passes
      | ok value =>
        simp only
        split
        · exact .keep _
        · exact .keep _

/-! ## The frames of the public methods -/

/-- The frame of the writing methods sets the status before it passes it on. -/
theorem voidOp_decides {body : Option ℤ → Bytes → StoreImpl → Except Halt (Option ℤ × StoreImpl)}
    (hbody : ∀ key, Passes fun status => body status key s) (kind : Kind) (key : Option Bytes) :
    Decides fun status => s.voidOp body status kind key := by
  unfold voidOp validateOpen
  cases key with
  | none => exact .ok _ _
  | some key =>
    simp only
    split_ifs
    · exact (hbody key).decides Status.ok
    · exact (Decides.ok Status.closed _).passes.decides Status.closed
    · exact .ok _ _

/-- A reply without its status. -/
def split (x : Reply × StoreImpl) : Option ℤ × Reply × StoreImpl :=
  (x.1.status, { x.1 with status := none }, x.2)

/-- So does the frame of the reading methods. -/
theorem readOp_decides {body : Option ℤ → Bytes → StoreImpl →
      Except Halt (Option ℤ × ℕ × Option Bytes × StoreImpl)}
    (hbody : ∀ key, Passes fun status => body status key s) (kind : Kind) (len : Option ℕ)
    (key : Option Bytes) :
    Decides fun status => (s.readOp body status kind len key).map split := by
  unfold readOp validateOpen
  rcases key with _ | key
  · exact ⟨.ok (Status.invalidArgument, { status := none, resultLen := len }, s), fun _ => rfl⟩
  rcases len with _ | len
  · exact ⟨.ok (Status.invalidArgument, { status := none }, s), fun _ => rfl⟩
  simp only
  split_ifs
  · have hd := ((hbody key).decides Status.ok).map fun x =>
      (({ status := none, resultLen := some x.1, data := x.2.1 }, x.2.2) : Reply × StoreImpl)
    obtain ⟨g, hg⟩ := hd
    refine ⟨g, fun status => (?_ : _ = _).trans (hg status)⟩
    simp only
    cases body (assign Status.ok status) key s <;> rfl
  · refine ⟨.ok (Status.closed, { status := none, resultLen := some 0 }, { s with code := Status.closed }),
      fun status => ?_⟩
    cases status <;> rfl
  · exact ⟨.ok (Status.invalidArgument, { status := none, resultLen := some len }, s), fun _ => rfl⟩

/-- The conditional operations keep their own state and assign it at the end. -/
theorem ifPresent_decides (a : Answers)
    (write : Option ℤ → Kind → Bytes → StoreImpl → Except Halt (Option ℤ × StoreImpl)) (kind : Kind)
    (key : Bytes) (s : StoreImpl) : Decides fun status => ifPresent a write kind status key s := by
  unfold ifPresent
  cases s.get_ a (some Status.ok) kind 0 key with
  | error e => exact ⟨.error e, fun _ => rfl⟩
  | ok x =>
    simp only [ok_bind]
    split_ifs
    · cases write x.1 kind key s with
      | error e => exact ⟨.error e, fun _ => rfl⟩
      | ok y => exact .ok (y.1.getD Status.ok) (x.2.1, x.2.2, y.2)
    · exact .ok (x.1.getD Status.ok) (x.2.1, x.2.2, s)

/-- A seek that fails is not reported, but the status is still of the call's own making. -/
theorem findKey_decides (a : Answers) (extreme : Family → Option Bytes) (k : Kind) (len : ℕ)
    (s : StoreImpl) : Decides fun status => (s.findKey a extreme status k len).map split := by
  have hargument : Decides fun status => (Except.ok
      ({ status := assign Status.invalidArgument status, resultLen := some len }, s) :
        Except Halt (Reply × StoreImpl)).map split :=
    ⟨.ok (Status.invalidArgument, { status := none, resultLen := some len }, s), fun _ => rfl⟩
  by_cases hv : k.isValid = true
  swap
  · simp only [findKey, hv]
    exact hargument
  cases k with
  | other name valid =>
    simp only [findKey, hv, if_true, Kind.toKindImpl]
    exact hargument
  | impl kind =>
    simp only [findKey, hv, if_true, Kind.toKindImpl, validateOpen]
    by_cases hopen : s.isOpen = true
    swap
    · simp only [if_neg hopen]
      refine ⟨.ok (Status.closed, { status := none, resultLen := some 0 },
        { s with code := Status.closed }), fun status => ?_⟩
      cases status <;> rfl
    · simp only [if_pos hopen]
      cases s.deref with
      | error e => exact ⟨.error e, fun _ => rfl⟩
      | ok db =>
        simp only [ok_bind]
        cases a.iterator with
        | false =>
          refine ⟨.ok (Status.noIterator, { status := none, resultLen := some 0 }, s), fun status => ?_⟩
          cases status <;> rfl
        | true =>
          simp only [if_true]
          generalize (if a.seek.isNone = true then extreme (db.data kind.handle) else none) = found
          cases found with
          | none => exact ⟨.ok (Status.ok, { status := none, resultLen := some 0 }, s), fun _ => rfl⟩
          | some key =>
            cases key with
            | nil => exact ⟨.ok (Status.ok, { status := none, resultLen := some 0 }, s), fun _ => rfl⟩
            | cons b bs =>
              exact ⟨.ok (Status.ok, { status := none
                                       resultLen := some (b :: bs).length
                                       data := some (b :: bs) }, s), fun _ => rfl⟩

/-- The loop reports the first Kind that fails, and nothing when none does. -/
theorem compactLoop_passes (s : StoreImpl) (a : Answers) (kinds : List (Bytes × KindImpl)) (i : ℕ) :
    Passes fun status => (s.compactLoop a i kinds status).map fun st => (st, ()) := by
  induction kinds generalizing i with
  | nil => exact .keep ()
  | cons k rest ih =>
    simp only [compactLoop, compactKind]
    cases s.deref with
    | error e => exact .error e
    | ok db =>
      simp only [ok_bind]
      cases a.compact i with
      | none =>
        obtain ⟨g, hg⟩ := ih (i + 1)
        exact ⟨g, fun status => hg status⟩
      | some e => exact (Decides.ok e.code ()).passes

/-! ## Calls -/

/-- The same call with another status pointer. -/
def Call.withStatus (status : Option ℤ) : Call → Call
  | .put _ kind key value => .put status kind key value
  | .remove _ kind key => .remove status kind key
  | .singleRemove _ kind key => .singleRemove status kind key
  | .removeRange _ kind b e => .removeRange status kind b e
  | .get _ kind len key => .get status kind len key
  | .updateIfPresent _ kind len key value => .updateIfPresent status kind len key value
  | .singleRemoveIfPresent _ kind len key => .singleRemoveIfPresent status kind len key
  | .removeIfPresent _ kind len key => .removeIfPresent status kind len key
  | .putIfAbsent _ kind key value => .putIfAbsent status kind key value
  | .findMinKey _ kind len => .findMinKey status kind len
  | .findMaxKey _ kind len => .findMaxKey status kind len
  | .compact _ kind => .compact status kind
  | .compactAll _ => .compactAll status
  | .getKindManager _ => .getKindManager status
  | .getKinds _ => .getKinds status
  | .getDefaultKind _ => .getDefaultKind status
  | .getOrCreateKind _ name => .getOrCreateKind status name
  | .syncWAL => .syncWAL
  | .flush => .flush
  | .flushNoWait => .flushNoWait
  | .close => .close

/-- The methods with a status parameter. -/
def Call.takesStatus : Call → Bool
  | .syncWAL | .flush | .flushNoWait | .close => false
  | _ => true

/-- What the call does with a status pointer: the status after it, the value it returns and the state. -/
def Call.observe (a : Answers) (s : StoreImpl) (c : Call) (status : Option ℤ) :
    Except Halt (Option ℤ × Reply × StoreImpl) :=
  ((c.withStatus status).run a s).map split

/-- A call that returns nothing, seen as a reply. -/
theorem voidOp_observe {f : Option ℤ → Except Halt (Option ℤ × StoreImpl)} (h : Decides f) :
    Decides fun status => ((f status).map voidReply).map split := by
  obtain ⟨g, hg⟩ := h
  refine ⟨g.map fun x => (x.1, { status := none }, x.2), fun status => ?_⟩
  simp only [hg]
  cases g <;> rfl

/-- A call that returns a Kind, seen as a reply. -/
theorem kindReply_observe {f : Option ℤ → Except Halt (Option ℤ × KindImpl × StoreImpl)}
    (h : Decides f) : Decides fun status => ((f status).map kindReply).map split := by
  obtain ⟨g, hg⟩ := h
  refine ⟨g.map fun x => (x.1, { status := none, kinds := [.impl x.2.1] }, x.2.2), fun status => ?_⟩
  simp only [hg]
  cases g <;> rfl

theorem putIfAbsent_decides (a : Answers) (kind : Kind) (key : Option Bytes) (value : Bytes)
    (s : StoreImpl) : Decides fun status => s.putIfAbsent a status kind key value := by
  refine voidOp_decides (fun key => Decides.passes ?_) kind key
  cases s.get_ a (some Status.ok) kind 0 key with
  | error e => exact ⟨.error e, fun _ => rfl⟩
  | ok x =>
    simp only [ok_bind]
    split_ifs
    · cases s.put_ a (some Status.ok) kind key value with
      | error e => exact ⟨.error e, fun _ => rfl⟩
      | ok y => exact .ok (y.1.getD Status.ok) y.2
    · exact .ok Status.alreadyExists s
    · exact .ok (x.1.getD Status.ok) s

theorem removeRange_decides (a : Answers) (k : Kind) (b e : Option Bytes) (s : StoreImpl) :
    Decides fun status => s.removeRange a status k b e := by
  unfold removeRange validateOpen
  rcases b with _ | b
  · exact .ok _ _
  rcases e with _ | e
  · exact .ok _ _
  simp only
  by_cases hv : k.isValid = true
  swap
  · simp only [if_neg hv]
    exact .ok _ _
  simp only [if_pos hv]
  by_cases hopen : s.isOpen = true
  swap
  · simp only [if_neg hopen]
    exact (Decides.ok Status.closed _).passes.decides Status.closed
  simp only [if_pos hopen]
  cases k.toKindImpl with
  | none => exact (Decides.ok Status.invalidArgument s).passes.decides Status.ok
  | some kind =>
    simp only
    cases a.batch with
    | some err => exact (Decides.ok err.code s).passes.decides Status.ok
    | none =>
      simp only
      cases s.deref with
      | error e => exact ⟨.error e, fun _ => rfl⟩
      | ok db =>
        simp only [ok_bind]
        rcases db.writeRange a.dbWrite kind.handle b e with ⟨_ | err, db'⟩
        · exact .ok Status.ok _
        · exact (Decides.ok err.code _).passes.decides Status.ok

theorem compact_decides (a : Answers) (k : Kind) (s : StoreImpl) :
    Decides fun status => s.compact a status k := by
  unfold compact validateOpen
  by_cases hv : k.isValid = true
  swap
  · simp only [if_neg hv]
    exact .ok _ _
  simp only [if_pos hv]
  cases k.toKindImpl with
  | none => exact .ok _ _
  | some kind =>
    simp only
    by_cases hopen : s.isOpen = true
    swap
    · simp only [if_neg hopen]
      exact (Decides.ok Status.closed _).passes.decides Status.closed
    simp only [if_pos hopen, compactKind]
    cases s.deref with
    | error e => exact ⟨.error e, fun _ => rfl⟩
    | ok db =>
      simp only [ok_bind]
      cases a.compact 0 with
      | none => exact .ok Status.ok s
      | some e => exact (Decides.ok e.code s).passes.decides Status.ok

theorem compactAll_decides (a : Answers) (s : StoreImpl) :
    Decides fun status => s.compactAll a status := by
  unfold compactAll validateOpen
  by_cases hopen : s.isOpen = true
  swap
  · simp only [if_neg hopen]
    exact (Decides.ok Status.closed _).passes.decides Status.closed
  simp only [if_pos hopen]
  obtain ⟨g, hg⟩ := ((compactLoop_passes s a s.kinds 0).decides Status.ok).map fun _ => s
  refine ⟨g, fun status => Eq.trans ?_ (hg status)⟩
  dsimp only
  cases s.compactLoop a 0 s.kinds (assign Status.ok status) <;> rfl

theorem getOrCreateKind_decides (a : Answers) (name : Bytes) (s : StoreImpl) :
    Decides fun status => s.getOrCreateKind a status name := by
  unfold getOrCreateKind validateOpen
  by_cases hopen : s.isOpen = true
  swap
  · simp only [if_neg hopen]
    exact .ok _ _
  simp only [if_pos hopen]
  cases s.kinds.lookup (cStr name) with
  | some kind => exact .ok _ _
  | none =>
    simp only [createKind]
    cases s.deref with
    | error e => exact ⟨.error e, fun _ => rfl⟩
    | ok db =>
      simp only [ok_bind]
      cases db.createColumnFamily a.create (cStr name) with
      | error e => exact (Decides.ok e.code _).passes.decides Status.ok
      | ok x => exact .ok Status.ok _

theorem getDefaultKind_decides (s : StoreImpl) :
    Decides fun status =>
      (.ok (s.getDefaultKind status) : Except Halt (Option ℤ × KindImpl × StoreImpl)) := by
  unfold getDefaultKind validateOpen
  by_cases hopen : s.isOpen = true
  swap
  · simp only [if_neg hopen]
    exact .ok _ _
  simp only [if_pos hopen]
  cases s.kinds.lookup DefaultCF with
  | some kind => exact .ok _ _
  | none => exact (Decides.ok Status.notFound _).passes.decides Status.ok

theorem getKinds_decides (s : StoreImpl) :
    Decides fun status => (.ok (split (s.getKinds status)) : Except Halt (Option ℤ × Reply × StoreImpl)) := by
  unfold getKinds validateOpen
  by_cases hopen : s.isOpen = true
  swap
  · simp only [if_neg hopen, split]
    exact (Decides.ok Status.closed _).passes.decides Status.closed
  · simp only [if_pos hopen, split]
    exact .ok _ _

theorem getKindManager_decides (s : StoreImpl) :
    Decides fun status => (.ok (s.getKindManager status) : Except Halt (Option ℤ × StoreImpl)) := by
  unfold getKindManager validateOpen
  by_cases hopen : s.isOpen = true
  swap
  · simp only [if_neg hopen]
    exact .ok _ _
  · simp only [if_pos hopen]
    exact .ok _ _

/-- **Every method with a status parameter settles on its own code.** -/
theorem observe_decides (a : Answers) (s : StoreImpl) {c : Call} (hc : c.takesStatus = true) :
    Decides (c.observe a s) := by
  unfold Call.observe
  cases c with
  | put _ kind key value =>
    exact voidOp_observe (voidOp_decides (fun key => txWrite_passes s a _ kind) kind key)
  | remove _ kind key =>
    exact voidOp_observe (voidOp_decides (fun key => txWrite_passes s a _ kind) kind key)
  | singleRemove _ kind key =>
    exact voidOp_observe (voidOp_decides (fun key => txWrite_passes s a _ kind) kind key)
  | removeRange _ kind b e => exact voidOp_observe (removeRange_decides a kind b e s)
  | get _ kind len key =>
    refine readOp_decides (fun key => ?_) kind len key
    obtain ⟨g, hg⟩ := get_passes s a kind 0 key
    refine ⟨g.map fun x => (x.1, x.2.1, x.2.2, s), fun status => ?_⟩
    simp only [hg]
    cases g <;> rfl
  | updateIfPresent _ kind len key value =>
    exact readOp_decides (fun key => (ifPresent_decides a _ kind key s).passes) kind len key
  | singleRemoveIfPresent _ kind len key =>
    exact readOp_decides (fun key => (ifPresent_decides a _ kind key s).passes) kind len key
  | removeIfPresent _ kind len key =>
    exact readOp_decides (fun key => (ifPresent_decides a _ kind key s).passes) kind len key
  | putIfAbsent _ kind key value => exact voidOp_observe (putIfAbsent_decides a kind key value s)
  | findMinKey _ kind len => exact findKey_decides a _ kind len s
  | findMaxKey _ kind len => exact findKey_decides a _ kind len s
  | compact _ kind => exact voidOp_observe (compact_decides a kind s)
  | compactAll _ => exact voidOp_observe (compactAll_decides a s)
  | getKindManager _ => exact voidOp_observe (getKindManager_decides s)
  | getKinds _ => exact getKinds_decides s
  | getDefaultKind _ => exact kindReply_observe (getDefaultKind_decides s)
  | getOrCreateKind _ name => exact kindReply_observe (getOrCreateKind_decides a name s)
  | syncWAL | flush | flushNoWait | close => exact absurd hc (by decide)

/-! ## Success -/

/-- A Kind of the library with a handle. -/
def Usable (kind : Kind) : Prop := ∃ k : KindImpl, kind = .impl k ∧ k.isValid = true

/-- The read succeeds and finds the key, or finds that there is none. -/
def Finds (a : Answers) (s : StoreImpl) (kind : Kind) (key : Option Bytes) (present : Bool) : Prop :=
  ∃ k key' db, kind = .impl k ∧ key = some key' ∧ s.txnDb = some db ∧ a.get = none ∧
    ((db.data k.handle).lookup key').isSome = present

/-- What it takes for a call to do what it is for: arguments that are accepted, an open store, and
RocksDB calls that succeed. -/
def Call.Succeeds (a : Answers) (s : StoreImpl) (c : Call) : Prop :=
  s.isOpen = true ∧
    match c with
    | .put _ kind key _ | .remove _ kind key | .singleRemove _ kind key =>
        Usable kind ∧ key.isSome = true ∧ Grants a
    | .removeRange .. => c.commitsRange a = true
    | .get _ kind len key => Usable kind ∧ len.isSome = true ∧ Finds a s kind key true
    | .updateIfPresent _ kind len key _ | .singleRemoveIfPresent _ kind len key
    | .removeIfPresent _ kind len key =>
        Usable kind ∧ len.isSome = true ∧ Finds a s kind key true ∧ Grants a
    | .putIfAbsent _ kind key _ => Usable kind ∧ Finds a s kind key false ∧ Grants a
    | .findMinKey _ kind _ | .findMaxKey _ kind _ => Usable kind ∧ a.iterator = true ∧ a.seek = none
    | .compact _ kind => Usable kind ∧ a.compact 0 = none
    | .compactAll _ => ∀ i < s.kinds.length, a.compact i = none
    | .getKindManager _ | .getKinds _ => True
    | .getDefaultKind _ => (s.kinds.lookup DefaultCF).isSome = true
    | .getOrCreateKind _ name =>
        (s.kinds.lookup (cStr name)).isSome = true ∨
          ∃ db x, s.txnDb = some db ∧ db.createColumnFamily a.create (cStr name) = .ok x
    | .syncWAL | .flush | .flushNoWait | .close => True

/-- A seek of `findMinKey` or `findMaxKey` that is made, and fails. -/
def Call.SeekFails (a : Answers) (s : StoreImpl) : Call → Prop
  | .findMinKey _ kind _ | .findMaxKey _ kind _ =>
      s.isOpen = true ∧ Usable kind ∧ a.iterator = true ∧ a.seek ≠ none
  | _ => False

variable {db : Db}

/-- A writing method reports Ok exactly when its checks pass and its body reports Ok. -/
theorem voidOp_ok_iff {body : Option ℤ → Bytes → StoreImpl → Except Halt (Option ℤ × StoreImpl)}
    {kind : Kind} {key : Option Bytes} {c : ℤ} {s' : StoreImpl}
    (hrun : s.voidOp body (some Status.ok) kind key = .ok (some c, s')) :
    c = Status.ok ↔ s.isOpen = true ∧ kind.isValid = true ∧
      ∃ key', key = some key' ∧ body (some Status.ok) key' s = .ok (some Status.ok, s') := by
  have hno : ∀ {code : ℤ} {P : Prop}, code ≠ Status.ok → code = c → ¬ P → (c = Status.ok ↔ P) := by
    rintro code P hcode rfl hP
    exact iff_of_false hcode hP
  rcases key with _ | key
  · cases hrun
    exact hno (by decide) rfl fun h => absurd h.2.2 (by simp)
  by_cases hv : kind.isValid = true
  swap
  · simp only [voidOp, if_neg hv] at hrun
    cases hrun
    exact hno (by decide) rfl fun h => hv h.2.1
  by_cases hopen : s.isOpen = true
  swap
  · simp only [voidOp, if_pos hv, validateOpen, if_neg hopen] at hrun
    cases hrun
    exact hno (by decide) rfl fun h => hopen h.1
  simp only [voidOp, if_pos hv, validateOpen, if_pos hopen, assign_some] at hrun
  constructor
  · rintro rfl
    exact ⟨hopen, hv, key, rfl, hrun⟩
  · rintro ⟨-, -, key', hkey, hbody⟩
    cases hkey
    rw [hrun] at hbody
    exact Option.some.inj (Prod.mk.inj (Except.ok.inj hbody)).1

/-- So does a reading method, which also needs the length pointer. -/
theorem readOp_ok_iff {body : Option ℤ → Bytes → StoreImpl →
      Except Halt (Option ℤ × ℕ × Option Bytes × StoreImpl)}
    {kind : Kind} {len : Option ℕ} {key : Option Bytes} {c : ℤ} {x : Reply × StoreImpl}
    (hrun : (s.readOp body (some Status.ok) kind len key).map split = .ok (some c, x)) :
    c = Status.ok ↔ s.isOpen = true ∧ kind.isValid = true ∧ len.isSome = true ∧
      ∃ key' y, key = some key' ∧ body (some Status.ok) key' s = .ok (some Status.ok, y) := by
  have hno : ∀ {code : ℤ} {P : Prop}, code ≠ Status.ok → code = c → ¬ P → (c = Status.ok ↔ P) := by
    rintro code P hcode rfl hP
    exact iff_of_false hcode hP
  rcases key with _ | key
  · cases hrun
    exact hno (by decide) rfl fun ⟨_, _, _, _, _, h, _⟩ => absurd h (by simp)
  rcases len with _ | len
  · cases hrun
    exact hno (by decide) rfl fun ⟨_, _, h, _⟩ => absurd h (by simp)
  by_cases hv : kind.isValid = true
  swap
  · simp only [readOp, if_neg hv] at hrun
    cases hrun
    exact hno (by decide) rfl fun h => hv h.2.1
  by_cases hopen : s.isOpen = true
  swap
  · simp only [readOp, if_pos hv, validateOpen, if_neg hopen] at hrun
    cases hrun
    exact hno (by decide) rfl fun h => hopen h.1
  simp only [readOp, if_pos hv, validateOpen, if_pos hopen, assign_some] at hrun
  obtain ⟨r, hr, hsplit⟩ := exists_of_map_eq_ok hrun
  obtain ⟨y, hbody, hy⟩ := exists_of_bind_eq_ok hr
  obtain ⟨hst, -⟩ := Prod.mk.inj hsplit
  cases hy
  constructor
  · rintro rfl
    refine ⟨hopen, hv, rfl, key, y.2, rfl, ?_⟩
    rw [hbody, ← hst]
  · rintro ⟨-, -, -, key', y', hkey, hbody'⟩
    cases hkey
    rw [hbody] at hbody'
    cases hbody'
    exact (Option.some.inj hst).symm

/-- A transactional write on a Kind that says it is valid. -/
theorem txWrite_usable (h : OpenWith s db) {write : Handle → Write} {kind : Kind}
    (hv : kind.isValid = true) {status : Option ℤ} {s' : StoreImpl}
    (hrun : s.txWrite a write (some Status.ok) kind = .ok (status, s')) :
    status = some Status.ok ↔ Usable kind ∧ Grants a := by
  cases kind with
  | other name valid =>
    cases hrun
    exact iff_of_false (by decide) fun ⟨⟨k, hk, _⟩, _⟩ => absurd hk (by simp)
  | impl k =>
    rw [txWrite_ok_iff h a write k hrun]
    exact (and_iff_right ⟨k, rfl, hv⟩).symm

/-- `put`, `remove` and `singleRemove` report Ok exactly when the write was committed. -/
theorem write_ok_iff (hs : s.Sound) {write : Bytes → Handle → Write} {kind : Kind} {key : Option Bytes}
    {c : ℤ} {s' : StoreImpl}
    (hrun : s.voidOp (fun status key s => s.txWrite a (write key) status kind) (some Status.ok) kind key
      = .ok (some c, s')) :
    c = Status.ok ↔ s.isOpen = true ∧ Usable kind ∧ key.isSome = true ∧ Grants a := by
  rw [voidOp_ok_iff hrun]
  constructor
  · rintro ⟨hopen, hv, key', rfl, hbody⟩
    obtain ⟨db, hw⟩ := hs.openWith hopen
    obtain ⟨hu, hg⟩ := (txWrite_usable hw hv hbody).mp rfl
    exact ⟨hopen, hu, rfl, hg⟩
  · rintro ⟨hopen, ⟨k, rfl, hv⟩, hkey, hg⟩
    obtain ⟨key', rfl⟩ := Option.isSome_iff_exists.mp hkey
    obtain ⟨db, hw⟩ := hs.openWith hopen
    refine ⟨hopen, hv, key', rfl, ?_⟩
    have hvalid : (Kind.impl k).isValid = true := hv
    simp only [voidOp, if_pos hvalid, hw.validateOpen_eq, assign_some] at hrun
    rw [hrun, (txWrite_usable hw hvalid hrun).mpr ⟨⟨k, rfl, hv⟩, hg⟩]

/-- A read on a Kind that says it is valid. -/
theorem finds_iff (h : OpenWith s db) {k : KindImpl} {key : Bytes} {present : Bool} :
    Finds a s (.impl k) (some key) present ↔
      a.get = none ∧ ((db.data k.handle).lookup key).isSome = present := by
  constructor
  · rintro ⟨k', key', db', hk, hkey, hdb, hfound⟩
    cases hk
    cases hkey
    obtain rfl := h.db_eq hdb
    exact hfound
  · intro hfound
    exact ⟨k, key, db, rfl, rfl, h.txnDb, hfound⟩

/-- The read of the conditional operations: what it finds can be told from its status. -/
theorem get_status (h : OpenWith s db) (a : Answers) (k : KindImpl) (key : Bytes) :
    ∃ c y, s.get_ a (some Status.ok) (.impl k) 0 key = .ok (some c, y) ∧
      (c = Status.ok ↔ Finds a s (.impl k) (some key) true) ∧
      (c = Status.notFound ↔ Finds a s (.impl k) (some key) false) := by
  simp only [finds_iff h]
  cases hget : a.get with
  | some e =>
    simp only [get_, Kind.toKindImpl, h.deref_eq, ok_bind, hget]
    refine ⟨e.1.code, (0, none), rfl, ?_, ?_⟩
    · exact iff_of_false (readError_code_ne e).1 (by simp)
    · exact iff_of_false (readError_code_ne e).2 (by simp)
  | none =>
    cases hl : (db.data k.handle).lookup key with
    | some value =>
      refine ⟨Status.ok, _, get_read h hget hl (some Status.ok), iff_of_true rfl ⟨rfl, rfl⟩, ?_⟩
      exact iff_of_false (by decide) (by simp)
    | none =>
      simp only [get_, Kind.toKindImpl, h.deref_eq, ok_bind, hget, Db.get, hl]
      refine ⟨Status.notFound, (0, none), rfl, ?_, iff_of_true rfl ⟨trivial, rfl⟩⟩
      exact iff_of_false (by decide) (by simp)

/-- The read reports Ok exactly when it finds a value. -/
theorem get_ok_iff (h : OpenWith s db) {kind : Kind} (hv : kind.isValid = true) (key : Bytes) :
    (∃ y, s.get_ a (some Status.ok) kind 0 key = .ok (some Status.ok, y)) ↔
      Usable kind ∧ Finds a s kind (some key) true := by
  cases kind with
  | other name valid =>
    apply iff_of_false
    · rintro ⟨y, hy⟩
      have hcode : some Status.invalidArgument = some Status.ok :=
        (Prod.mk.inj (Except.ok.inj hy)).1
      exact absurd hcode (by decide)
    · rintro ⟨⟨k, hk, -⟩, -⟩
      exact absurd hk (by simp)
  | impl k =>
    obtain ⟨c, y, hget, hok, -⟩ := get_status h a k key
    rw [and_iff_right ⟨k, rfl, hv⟩, ← hok, hget]
    constructor
    · rintro ⟨y', hy⟩
      exact Option.some.inj (Prod.mk.inj (Except.ok.inj hy)).1
    · rintro rfl
      exact ⟨y, rfl⟩

/-- The conditional operations report Ok exactly when there was a value and the write was committed. -/
theorem ifPresent_ok_iff (h : OpenWith s db) {kind : Kind} (hv : kind.isValid = true) (key : Bytes)
    (write : Bytes → Handle → Write) :
    (∃ y, ifPresent a (fun status kind key s => s.txWrite a (write key) status kind) kind
        (some Status.ok) key s = .ok (some Status.ok, y)) ↔
      Usable kind ∧ Finds a s kind (some key) true ∧ Grants a := by
  have hgot := get_ok_iff (a := a) h hv key
  cases kind with
  | other name valid =>
    apply iff_of_false
    · rintro ⟨y, hy⟩
      have hcode : some Status.invalidArgument = some Status.ok :=
        (Prod.mk.inj (Except.ok.inj hy)).1
      exact absurd hcode (by decide)
    · rintro ⟨⟨k, hk, -⟩, -⟩
      exact absurd hk (by simp)
  | impl k =>
    by_cases hread : a.get = none ∧ ∃ value, (db.data k.handle).lookup key = some value
    · obtain ⟨hget, value, hl⟩ := hread
      have hread := get_read h hget hl (some Status.ok)
      obtain ⟨st, s', db', hwrite, hres⟩ := txWrite_open h a (write key) (some Status.ok) (.impl k)
      have hok := txWrite_ok_iff h a (write key) k hwrite
      simp only [ifPresent, hread, ok_bind, if_true, hwrite]
      rw [← and_assoc, and_iff_right (hgot.mp ⟨_, hread⟩), ← hok]
      constructor
      · rintro ⟨y, hy⟩
        have hcode : some (st.getD Status.ok) = some Status.ok := (Prod.mk.inj (Except.ok.inj hy)).1
        rcases hres with ⟨c, hc, rfl, -⟩ | ⟨_, _, hst, -⟩
        · exact absurd (Option.some.inj hcode) hc
        · exact hst
      · rintro rfl
        exact ⟨_, rfl⟩
    · obtain ⟨c, hc, hrun⟩ := get_missed h hread
      have hne : some c ≠ some Status.ok := by simpa using hc
      simp only [ifPresent, hrun, ok_bind, if_neg hne]
      apply iff_of_false
      · rintro ⟨y, hy⟩
        have hcode : some c = some Status.ok := (Prod.mk.inj (Except.ok.inj hy)).1
        exact hne hcode
      · intro hno
        obtain ⟨y, hy⟩ := hgot.mpr ⟨hno.1, hno.2.1⟩
        rw [hrun] at hy
        exact hne (Prod.mk.inj (Except.ok.inj hy)).1

/-- `putIfAbsent` reports Ok exactly when there was no value and the write was committed. -/
theorem putIfAbsent_ok_iff (hs : s.Sound) {kind : Kind} {key : Option Bytes} {value : Bytes} {c : ℤ}
    {s' : StoreImpl} (hrun : s.putIfAbsent a (some Status.ok) kind key value = .ok (some c, s')) :
    c = Status.ok ↔ s.isOpen = true ∧ Usable kind ∧ Finds a s kind key false ∧ Grants a := by
  have hframe := voidOp_ok_iff hrun
  by_cases hopen : s.isOpen = true
  swap
  · rw [hframe]
    exact iff_of_false (fun h => hopen h.1) fun h => hopen h.1
  obtain ⟨db, hw⟩ := hs.openWith hopen
  rcases key with _ | key
  · rw [hframe]
    exact iff_of_false (fun ⟨_, _, _, hno, _⟩ => absurd hno (by simp))
      fun ⟨_, _, ⟨_, _, _, _, hno, _⟩, _⟩ => absurd hno (by simp)
  by_cases hu : Usable kind
  swap
  · rw [hframe]
    refine iff_of_false (fun ⟨_, hv, key', hkey, hbody⟩ => ?_) fun h => hu h.2.1
    cases kind with
    | impl k => exact hu ⟨k, rfl, hv⟩
    | other name valid =>
      have hcode : some Status.invalidArgument = some Status.ok := (Prod.mk.inj (Except.ok.inj hbody)).1
      exact absurd hcode (by decide)
  obtain ⟨k, rfl, hv⟩ := hu
  have hvalid : (Kind.impl k).isValid = true := hv
  simp only [putIfAbsent, voidOp, if_pos hvalid, hw.validateOpen_eq, assign_some] at hrun
  -- the read decides which branch is taken
  obtain ⟨c₁, y, hget, hok, habsent⟩ := get_status hw a k key
  rw [hget] at hrun
  rw [and_iff_right hopen, and_iff_right ⟨k, rfl, hv⟩, ← habsent]
  by_cases hnone : c₁ = Status.notFound
  · obtain ⟨st, s₁, db₁, hwrite, hres⟩ :=
      txWrite_open hw a (fun fam => .put fam key value) (some Status.ok) (.impl k)
    subst hnone
    simp only [ok_bind, if_true, put_, hwrite] at hrun
    rw [and_iff_right rfl, ← txWrite_ok_iff hw a (fun fam => .put fam key value) k hwrite]
    rcases hres with ⟨c', -, rfl, -⟩ | ⟨_, _, rfl, -⟩
    · cases hrun
      simp
    · cases hrun
      simp
  · have hne : some c₁ ≠ some Status.notFound := by simpa using hnone
    refine iff_of_false ?_ fun h => hnone h.1
    by_cases hread : c₁ = Status.ok
    · subst hread
      simp only [ok_bind, if_neg hne, if_true] at hrun
      cases hrun
      exact show Status.alreadyExists ≠ Status.ok by decide
    · have hne' : some c₁ ≠ some Status.ok := by simpa using hread
      simp only [ok_bind, if_neg hne, if_neg hne'] at hrun
      cases hrun
      exact hread

/-- `removeRange` reports Ok exactly when its batch was written. -/
theorem removeRange_ok_iff (hs : s.Sound) (st : Option ℤ) {kind : Kind} {b e : Option Bytes} {c : ℤ}
    {s' : StoreImpl} (hrun : s.removeRange a (some Status.ok) kind b e = .ok (some c, s')) :
    c = Status.ok ↔
      s.isOpen = true ∧ (Call.removeRange st kind b e).commitsRange a = true := by
  by_cases hopen : s.isOpen = true
  · obtain ⟨db, hw⟩ := hs.openWith hopen
    rw [and_iff_right hopen]
    obtain ⟨st', s₁, db₁, hrun', hres⟩ := removeRange_open hw a (some Status.ok) kind b e
    obtain ⟨hst, rfl⟩ := Prod.mk.inj (Except.ok.inj (hrun.symm.trans hrun'))
    rcases hres with ⟨c', hc', hst', hu⟩ | ⟨k, b', e', rfl, rfl, rfl, ⟨hv, hle, hbatch, hwrite⟩, hst', -⟩
    · rw [← hst] at hst'
      obtain rfl := Option.some.inj hst'
      refine iff_of_false hc' fun hcom => ?_
      -- a range that is not refused is committed
      cases kind with
      | other name valid => exact absurd hcom (by simp [Call.commitsRange])
      | impl k =>
        rcases b with _ | b
        · exact absurd hcom (by simp [Call.commitsRange])
        rcases e with _ | e
        · exact absurd hcom (by simp [Call.commitsRange])
        simp only [Call.commitsRange, Bool.and_eq_true, decide_eq_true_eq,
          Option.isNone_iff_eq_none] at hcom
        obtain ⟨⟨⟨hv, hle⟩, hbatch⟩, hwrite⟩ := hcom
        have hvalid : (Kind.impl k).isValid = true := hv
        simp only [removeRange, if_pos hvalid, hw.validateOpen_eq, Kind.toKindImpl, hbatch, hw.deref_eq,
          ok_bind, Db.writeRange, if_neg (not_lt.mpr hle), hwrite] at hrun
        exact hc' (Option.some.inj (Prod.mk.inj (Except.ok.inj hrun)).1).symm
    · rw [← hst] at hst'
      refine iff_of_true (Option.some.inj hst') ?_
      simp [Call.commitsRange, hv, hle, hbatch, hwrite]
  · refine iff_of_false (fun hc => ?_) fun h => hopen h.1
    subst hc
    unfold removeRange validateOpen at hrun
    simp only [if_neg hopen] at hrun
    rcases b with _ | b
    · exact absurd (Prod.mk.inj (Except.ok.inj hrun)).1 (by decide)
    rcases e with _ | e
    · exact absurd (Prod.mk.inj (Except.ok.inj hrun)).1 (by decide)
    simp only at hrun
    split_ifs at hrun
    · exact absurd (Prod.mk.inj (Except.ok.inj hrun)).1 (by decide)
    · exact absurd (Prod.mk.inj (Except.ok.inj hrun)).1 (by decide)

/-- `findMinKey` and `findMaxKey` report Ok as soon as they have an iterator. -/
theorem findKey_ok_iff (hs : s.Sound) {extreme : Family → Option Bytes} {kind : Kind} {len : ℕ} {c : ℤ}
    {x : Reply × StoreImpl}
    (hrun : (s.findKey a extreme (some Status.ok) kind len).map split = .ok (some c, x)) :
    c = Status.ok ↔ s.isOpen = true ∧ Usable kind ∧ a.iterator = true := by
  have hargument : ¬ Usable kind → s.findKey a extreme (some Status.ok) kind len
      = .ok ({ status := some Status.invalidArgument, resultLen := some len }, s) := by
    intro hu
    by_cases hv : kind.isValid = true
    · cases kind with
      | impl k => exact absurd ⟨k, rfl, hv⟩ hu
      | other name valid => simp only [findKey, if_pos hv, Kind.toKindImpl]; rfl
    · simp only [findKey, if_neg hv]; rfl
  by_cases hu : Usable kind
  swap
  · rw [hargument hu] at hrun
    cases hrun
    exact iff_of_false (show Status.invalidArgument ≠ Status.ok by decide) fun h => hu h.2.1
  obtain ⟨k, rfl, hv⟩ := hu
  have hvalid : (Kind.impl k).isValid = true := hv
  by_cases hopen : s.isOpen = true
  swap
  · simp only [findKey, if_pos hvalid, Kind.toKindImpl, validateOpen, if_neg hopen] at hrun
    cases hrun
    exact iff_of_false (show Status.closed ≠ Status.ok by decide) fun h => hopen h.1
  obtain ⟨db, hw⟩ := hs.openWith hopen
  simp only [findKey, if_pos hvalid, Kind.toKindImpl, hw.validateOpen_eq, hw.deref_eq, ok_bind,
    assign_some] at hrun
  cases hit : a.iterator with
  | false =>
    rw [hit] at hrun
    cases hrun
    exact iff_of_false (show Status.noIterator ≠ Status.ok by decide) fun h => absurd h.2.2 (by simp)
  | true =>
    rw [hit] at hrun
    refine iff_of_true ?_ ⟨hopen, ⟨k, rfl, hv⟩, rfl⟩
    simp only [if_true] at hrun
    generalize (if a.seek.isNone = true then extreme (db.data k.handle) else none) = found at hrun
    obtain ⟨r, hr, hsplit⟩ := exists_of_map_eq_ok hrun
    have hst : r.1.status = some Status.ok := by
      cases found with
      | none => cases hr; rfl
      | some key => cases key <;> cases hr <;> rfl
    exact Option.some.inj ((Prod.mk.inj hsplit).1.symm.trans hst)

/-- `compact` reports Ok exactly when the one `CompactRange` succeeded. -/
theorem compact_ok_iff (hs : s.Sound) {kind : Kind} {c : ℤ} {s' : StoreImpl}
    (hrun : s.compact a (some Status.ok) kind = .ok (some c, s')) :
    c = Status.ok ↔ s.isOpen = true ∧ Usable kind ∧ a.compact 0 = none := by
  by_cases hv : kind.isValid = true
  swap
  · simp only [compact, if_neg hv] at hrun
    cases hrun
    refine iff_of_false (show Status.invalidArgument ≠ Status.ok by decide) fun h => ?_
    obtain ⟨-, ⟨k, rfl, hk⟩, -⟩ := h
    exact hv hk
  cases kind with
  | other name valid =>
    simp only [compact, if_pos hv, Kind.toKindImpl] at hrun
    cases hrun
    refine iff_of_false (show Status.invalidArgument ≠ Status.ok by decide) fun h => ?_
    obtain ⟨-, ⟨k, hk, -⟩, -⟩ := h
    exact absurd hk (by simp)
  | impl k =>
    by_cases hopen : s.isOpen = true
    swap
    · simp only [compact, if_pos hv, Kind.toKindImpl, validateOpen, if_neg hopen] at hrun
      cases hrun
      exact iff_of_false (show Status.closed ≠ Status.ok by decide) fun h => hopen h.1
    obtain ⟨db, hw⟩ := hs.openWith hopen
    simp only [compact, if_pos hv, Kind.toKindImpl, hw.validateOpen_eq, compactKind, hw.deref_eq,
      ok_bind, assign_some] at hrun
    cases hcompact : a.compact 0 with
    | none =>
      rw [hcompact] at hrun
      cases hrun
      exact iff_of_true rfl ⟨hopen, ⟨k, rfl, hv⟩, rfl⟩
    | some e =>
      rw [hcompact] at hrun
      cases hrun
      exact iff_of_false e.code_pos.ne' fun h => absurd h.2.2 (by simp)

/-- The loop reports Ok exactly when every `CompactRange` succeeded; the induction is on the Kinds left. -/
theorem compactLoop_ok_iff (h : OpenWith s db) (kinds : List (Bytes × KindImpl)) (i : ℕ) {c : ℤ}
    (hrun : s.compactLoop a i kinds (some Status.ok) = .ok (some c)) :
    c = Status.ok ↔ ∀ j < kinds.length, a.compact (i + j) = none := by
  induction kinds generalizing i with
  | nil =>
    cases hrun
    exact iff_of_true rfl fun j hj => absurd hj (Nat.not_lt_zero j)
  | cons k rest ih =>
    simp only [compactLoop, compactKind, h.deref_eq, ok_bind] at hrun
    cases hcompact : a.compact i with
    | some e =>
      rw [hcompact] at hrun
      cases hrun
      refine iff_of_false e.code_pos.ne' fun hall => ?_
      have := hall 0 (by simp)
      rw [Nat.add_zero, hcompact] at this
      cases this
    | none =>
      rw [hcompact] at hrun
      rw [ih (i + 1) hrun]
      constructor
      · intro hall j hj
        cases j with
        | zero => exact hcompact
        | succ j =>
          have := hall j (by simpa using hj)
          rwa [Nat.add_assoc, Nat.add_comm 1 j] at this
      · intro hall j hj
        have := hall (j + 1) (by simpa using hj)
        rwa [Nat.add_assoc, Nat.add_comm 1 j]

theorem of_voidReply {r : Except Halt (Option ℤ × StoreImpl)} {c : ℤ} {x : Reply × StoreImpl}
    (hrun : (r.map voidReply).map split = .ok (some c, x)) : ∃ s', r = .ok (some c, s') := by
  obtain ⟨y, hy, hsplit⟩ := exists_of_map_eq_ok hrun
  obtain ⟨⟨st, s'⟩, hr, rfl⟩ := exists_of_map_eq_ok hy
  obtain ⟨rfl, -⟩ := Prod.mk.inj hsplit
  exact ⟨s', hr⟩

theorem of_kindReply {r : Except Halt (Option ℤ × KindImpl × StoreImpl)} {c : ℤ}
    {x : Reply × StoreImpl} (hrun : (r.map kindReply).map split = .ok (some c, x)) :
    ∃ kind s', r = .ok (some c, kind, s') := by
  obtain ⟨y, hy, hsplit⟩ := exists_of_map_eq_ok hrun
  obtain ⟨⟨st, kind, s'⟩, hr, rfl⟩ := exists_of_map_eq_ok hy
  obtain ⟨rfl, -⟩ := Prod.mk.inj hsplit
  exact ⟨kind, s', hr⟩

/-- So does `compactAll` on an open store. -/
theorem compactAll_ok_iff (hs : s.Sound) {c : ℤ} {s' : StoreImpl}
    (hrun : s.compactAll a (some Status.ok) = .ok (some c, s')) :
    c = Status.ok ↔ s.isOpen = true ∧ ∀ i < s.kinds.length, a.compact i = none := by
  by_cases hopen : s.isOpen = true
  swap
  · simp only [compactAll, validateOpen, if_neg hopen] at hrun
    cases hrun
    exact iff_of_false (show Status.closed ≠ Status.ok by decide) fun h => hopen h.1
  obtain ⟨db, hw⟩ := hs.openWith hopen
  simp only [compactAll, hw.validateOpen_eq, assign_some] at hrun
  obtain ⟨st, hloop, hret⟩ := exists_of_bind_eq_ok hrun
  cases hret
  rw [compactLoop_ok_iff hw s.kinds 0 hloop, and_iff_right hopen]
  simp only [Nat.zero_add]

/-- `getOrCreateKind` reports Ok exactly when the Kind is registered or its column family was created. -/
theorem getOrCreateKind_ok_iff (hs : s.Sound) {name : Bytes} {c : ℤ} {kind : KindImpl}
    {s' : StoreImpl} (hrun : s.getOrCreateKind a (some Status.ok) name = .ok (some c, kind, s')) :
    c = Status.ok ↔ s.isOpen = true ∧ ((s.kinds.lookup (cStr name)).isSome = true ∨
      ∃ db x, s.txnDb = some db ∧ db.createColumnFamily a.create (cStr name) = .ok x) := by
  by_cases hopen : s.isOpen = true
  swap
  · simp only [getOrCreateKind, validateOpen, if_neg hopen] at hrun
    cases hrun
    exact iff_of_false (show Status.closed ≠ Status.ok by decide) fun h => hopen h.1
  obtain ⟨db, hw⟩ := hs.openWith hopen
  rw [and_iff_right hopen]
  simp only [getOrCreateKind, hw.validateOpen_eq, assign_some] at hrun
  cases hl : s.kinds.lookup (cStr name) with
  | some k =>
    rw [hl] at hrun
    cases hrun
    exact iff_of_true rfl (.inl rfl)
  | none =>
    rw [hl] at hrun
    simp only [createKind, hw.deref_eq, ok_bind] at hrun
    cases hcreate : db.createColumnFamily a.create (cStr name) with
    | ok x =>
      rw [hcreate] at hrun
      cases hrun
      exact iff_of_true rfl (.inr ⟨db, x, hw.txnDb, hcreate⟩)
    | error e =>
      rw [hcreate] at hrun
      cases hrun
      refine iff_of_false e.code_pos.ne' ?_
      rintro (hno | ⟨db', x, hdb, hx⟩)
      · cases hno
      · obtain rfl := hw.db_eq hdb
        rw [hcreate] at hx
        cases hx

/-- `getDefaultKind` reports Ok exactly when the default Kind is registered. -/
theorem getDefaultKind_ok_iff {c : ℤ} {kind : KindImpl} {s' : StoreImpl}
    (hrun : s.getDefaultKind (some Status.ok) = (some c, kind, s')) :
    c = Status.ok ↔ s.isOpen = true ∧ (s.kinds.lookup DefaultCF).isSome = true := by
  by_cases hopen : s.isOpen = true
  swap
  · simp only [getDefaultKind, validateOpen, if_neg hopen] at hrun
    cases hrun
    exact iff_of_false (show Status.closed ≠ Status.ok by decide) fun h => hopen h.1
  rw [and_iff_right hopen]
  simp only [getDefaultKind, validateOpen, if_pos hopen] at hrun
  cases hl : s.kinds.lookup DefaultCF with
  | some k =>
    rw [hl] at hrun
    cases hrun
    exact iff_of_true rfl rfl
  | none =>
    rw [hl] at hrun
    cases hrun
    exact iff_of_false (show Status.notFound ≠ Status.ok by decide) (by simp)

/-- The reads of `get`, and of the operations that read first. -/
theorem finds_ok_iff (hs : s.Sound) {body : Option ℤ → Bytes → StoreImpl →
      Except Halt (Option ℤ × ℕ × Option Bytes × StoreImpl)} {P : Prop}
    {kind : Kind} {len : Option ℕ} {key : Option Bytes} {c : ℤ} {x : Reply × StoreImpl}
    (hbody : ∀ db, OpenWith s db → kind.isValid = true → ∀ key,
      (∃ y, body (some Status.ok) key s = .ok (some Status.ok, y)) ↔
        Usable kind ∧ Finds a s kind (some key) true ∧ P)
    (hrun : (s.readOp body (some Status.ok) kind len key).map split = .ok (some c, x)) :
    c = Status.ok ↔
      s.isOpen = true ∧ Usable kind ∧ len.isSome = true ∧ Finds a s kind key true ∧ P := by
  rw [readOp_ok_iff hrun]
  constructor
  · rintro ⟨hopen, hv, hlen, key', y, rfl, hy⟩
    obtain ⟨db, hw⟩ := hs.openWith hopen
    obtain ⟨hu, hf, hP⟩ := (hbody db hw hv key').mp ⟨y, hy⟩
    exact ⟨hopen, hu, hlen, hf, hP⟩
  · rintro ⟨hopen, hu, hlen, hf, hP⟩
    obtain ⟨db, hw⟩ := hs.openWith hopen
    have hv : kind.isValid = true := by
      obtain ⟨k, rfl, hv⟩ := hu
      exact hv
    obtain ⟨k, key', db', hk, rfl, hread⟩ := hf
    obtain ⟨y, hy⟩ := (hbody db hw hv key').mpr ⟨hu, ⟨k, key', db', hk, rfl, hread⟩, hP⟩
    exact ⟨hopen, hv, hlen, key', y, rfl, hy⟩

/-- **Ok means success**, but a seek of `findMinKey` or `findMaxKey` that failed is reported as Ok too. -/
theorem observe_ok_iff (hs : s.Sound) {c : Call} (hc : c.takesStatus = true) {code : ℤ}
    {x : Reply × StoreImpl} (hrun : c.observe a s (some Status.ok) = .ok (some code, x)) :
    code = Status.ok ↔ c.Succeeds a s ∨ c.SeekFails a s := by
  cases c with
  | put st kind key value | remove st kind key | singleRemove st kind key =>
    obtain ⟨s', hrun⟩ := of_voidReply hrun
    rw [write_ok_iff hs hrun]
    exact (or_false _).symm.to_iff
  | removeRange st kind b e =>
    obtain ⟨s', hrun⟩ := of_voidReply hrun
    rw [removeRange_ok_iff hs st hrun]
    exact (or_false _).symm.to_iff
  | get st kind len key =>
    rw [finds_ok_iff (a := a) (P := True) hs (fun db hw hv key => ?_) hrun]
    · simp only [Call.Succeeds, Call.SeekFails, and_true, or_false]
    · rw [and_true, ← get_ok_iff hw hv key]
      constructor
      · rintro ⟨y, hy⟩
        obtain ⟨⟨st, len, data⟩, hr, hret⟩ := exists_of_bind_eq_ok hy
        obtain ⟨rfl, -⟩ := Prod.mk.inj (Except.ok.inj hret)
        exact ⟨(len, data), hr⟩
      · rintro ⟨y, hy⟩
        exact ⟨(y.1, y.2, s), by simp only [hy, ok_bind]; rfl⟩
  | updateIfPresent st kind len key value | singleRemoveIfPresent st kind len key
  | removeIfPresent st kind len key =>
    rw [finds_ok_iff hs (fun db hw hv key => ifPresent_ok_iff hw hv key _) hrun]
    exact (or_false _).symm.to_iff
  | putIfAbsent st kind key value =>
    obtain ⟨s', hrun⟩ := of_voidReply hrun
    rw [putIfAbsent_ok_iff hs hrun]
    exact (or_false _).symm.to_iff
  | findMinKey st kind len | findMaxKey st kind len =>
    rw [findKey_ok_iff hs hrun]
    simp only [Call.Succeeds, Call.SeekFails]
    by_cases hseek : a.seek = none
    · simp [hseek]
    · simp [hseek]
  | compact st kind =>
    obtain ⟨s', hrun⟩ := of_voidReply hrun
    rw [compact_ok_iff hs hrun]
    exact (or_false _).symm.to_iff
  | compactAll st =>
    obtain ⟨s', hrun⟩ := of_voidReply hrun
    rw [compactAll_ok_iff hs hrun]
    exact (or_false _).symm.to_iff
  | getKindManager st =>
    obtain ⟨s', hrun⟩ := of_voidReply (r := .ok (s.getKindManager (some Status.ok))) hrun
    simp only [Call.Succeeds, Call.SeekFails, and_true, or_false]
    by_cases hopen : s.isOpen = true
    · simp only [getKindManager, validateOpen, if_pos hopen] at hrun
      cases hrun
      exact iff_of_true rfl hopen
    · simp only [getKindManager, validateOpen, if_neg hopen] at hrun
      cases hrun
      exact iff_of_false (show Status.closed ≠ Status.ok by decide) hopen
  | getKinds st =>
    simp only [Call.Succeeds, Call.SeekFails, and_true, or_false]
    by_cases hopen : s.isOpen = true
    · simp only [Call.observe, Call.withStatus, Call.run, getKinds, validateOpen, if_pos hopen] at hrun
      cases hrun
      exact iff_of_true rfl hopen
    · simp only [Call.observe, Call.withStatus, Call.run, getKinds, validateOpen, if_neg hopen] at hrun
      cases hrun
      exact iff_of_false (show Status.closed ≠ Status.ok by decide) hopen
  | getDefaultKind st =>
    obtain ⟨kind, s', hrun⟩ := of_kindReply (r := .ok (s.getDefaultKind (some Status.ok))) hrun
    rw [getDefaultKind_ok_iff (Except.ok.inj hrun)]
    exact (or_false _).symm.to_iff
  | getOrCreateKind st name =>
    obtain ⟨kind, s', hrun⟩ := of_kindReply hrun
    rw [getOrCreateKind_ok_iff hs hrun]
    exact (or_false _).symm.to_iff
  | syncWAL | flush | flushNoWait | close => exact absurd hc (by decide)

/-- **A store call is blind to the status it is given, and describes itself there**, exactly when it is
not a `findMinKey` or `findMaxKey` whose seek fails. -/
theorem statusBlind_iff (hs : s.Sound) {c : Call} (hc : c.takesStatus = true) :
    StatusBlind (c.observe a s) (fun _ => c.Succeeds a s) ↔ ¬ c.SeekFails a s := by
  constructor
  · intro hb hno
    obtain ⟨r, s', hrun, -⟩ := run_sound hs a (c.withStatus (some Status.ok))
    have hobs : c.observe a s (some Status.ok) = .ok (split (r, s')) := by
      simp only [Call.observe, hrun]
      rfl
    obtain ⟨code, hcode, hiff⟩ := hb.describes Status.ok _ _ hobs
    rw [split, hcode] at hobs
    have hok := (observe_ok_iff hs hc hobs).mpr (.inr hno)
    have hsucc := hiff.mp hok
    cases c with
    | findMinKey st kind len | findMaxKey st kind len => exact hno.2.2.2 hsucc.2.2.2
    | _ => exact hno
  · intro hno
    refine (observe_decides a s hc).statusBlind fun x code hrun => ?_
    rw [observe_ok_iff hs hc hrun]
    exact ⟨fun h => h.resolve_right hno, .inl⟩

/-- What a caller with a variable gets from a call: one code, and the rest, whatever the variable held. -/
theorem settles (hs : s.Sound) {c : Call} (hc : c.takesStatus = true) (hno : ¬ c.SeekFails a s) :
    ∃ (code : ℤ) (r : Reply) (s' : StoreImpl),
      (∀ v, (c.withStatus (some v)).run a s = .ok ({ r with status := some code }, s')) ∧
      (code = Status.ok ↔ c.Succeeds a s) := by
  obtain ⟨r, s', hrun, -⟩ := run_sound hs a (c.withStatus (some Status.ok))
  have hobs : c.observe a s (some Status.ok) = .ok (split (r, s')) := by
    simp only [Call.observe, hrun]
    rfl
  have hblind := (statusBlind_iff hs hc).mpr hno
  obtain ⟨code, hcode, hiff⟩ := hblind.describes Status.ok _ _ hobs
  refine ⟨code, r, s', fun v => ?_, hiff⟩
  obtain ⟨⟨r', s''⟩, hrun', hsplit⟩ := exists_of_map_eq_ok ((hblind.same v Status.ok).trans hobs)
  obtain ⟨hst, hrest⟩ := Prod.mk.inj hsplit
  obtain ⟨hr, rfl⟩ := Prod.mk.inj hrest
  have hst' : r'.status = some code := hst.trans hcode
  have hsame : r' = { r with status := some code } := by
    cases r
    cases r'
    cases hr
    cases hst'
    rfl
  rw [hrun', hsame]

end StoreImpl

end Librocks
