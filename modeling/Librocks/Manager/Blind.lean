import Librocks.Kueue.Bounds
import Librocks.Manager.Lifecycle
import Librocks.Store.Blind

/-!
# The status of a call on a queue or on a manager

The methods of a queue hand their status on to the store, and use it as the flag that decides whether
the keys move. What it held before does not matter, except in `clear`: its loop may run zero times, and
then nothing has been assigned.

`status_blind_iff` collects the three classes. Its exceptions are a seek that failed, `clear` on a queue
that counts no message, a manager's `syncWal` with a failed `FlushWAL`, and a manager's `get` that hands
out a queue that is not valid.
-/

namespace Librocks

open Rocks

/-! ## Queues -/

namespace KueueImpl

variable {q : KueueImpl} {s : StoreImpl}

/-- The same call with another status pointer. -/
def Call.withStatus (status : Option ℤ) : Call → Call
  | .put _ value => .put status value
  | .take _ valLen => .take status valLen
  | .takeTimed _ valLen timeout => .takeTimed status valLen timeout
  | .readNext _ valLen pKey timeout => .readNext status valLen pKey timeout
  | .erase key => .erase key
  | .clear _ => .clear status

/-- The methods with a status parameter. -/
def Call.takesStatus : Call → Bool
  | .erase _ => false
  | _ => true

/-- An answer without its status. -/
def split (x : Outcome × KueueImpl × StoreImpl) : Option ℤ × Outcome × KueueImpl × StoreImpl :=
  match x.1 with
  | .reply r => (r.status, .reply { r with status := none }, x.2)
  | .erased b => (none, .erased b, x.2)

/-- What the call does with a status pointer: the status after it, the answer and the state. -/
def Call.observe (as : ℕ → Answers) (q : KueueImpl) (s : StoreImpl) (c : Call) (status : Option ℤ) :
    Except Halt (Option ℤ × Outcome × KueueImpl × StoreImpl) :=
  ((c.withStatus status).run as q s).map split

/-- The store call that a queue call comes down to succeeds. -/
def Call.Stores (as : ℕ → Answers) (q : KueueImpl) (s : StoreImpl) (c : Call) (kind : Kind) : Prop :=
  match c with
  | .put _ value => (StoreImpl.Call.put none kind (some (putU64BE q.maxKey)) value).Succeeds (as 0) s
  | .take _ valLen | .takeTimed _ valLen _ =>
      (StoreImpl.Call.singleRemoveIfPresent none kind valLen (some (putU64BE q.minKey))).Succeeds (as 0) s
  | .readNext _ valLen _ _ =>
      (StoreImpl.Call.get none kind valLen (some (putU64BE q.minKey))).Succeeds (as 0) s
  | .erase _ | .clear _ => True

/-- A call on a queue that did what it is for: the queue is valid, there is a message in time, and the
store call succeeds. A `clear` is done when it leaves no message in the count. -/
def Call.Succeeds (as : ℕ → Answers) (q : KueueImpl) (s : StoreImpl) (c : Call)
    (x : Outcome × KueueImpl × StoreImpl) : Prop :=
  q.isValid_ = true ∧ (∃ kind, q.queueKind = some kind ∧ c.Stores as q s kind) ∧
    match c with
    | .takeTimed .. | .readNext .. => q.count > 0
    | .clear _ => ¬ x.2.1.count > 0
    | _ => True

/-- A `clear` whose loop makes no turn. -/
def Call.Idles (q : KueueImpl) : Call → Prop
  | .clear _ => q.isValid_ = true ∧ ¬ q.count > 0
  | _ => False

theorem localState_eq (status : Option ℤ) : localState status = some (status.getD Status.ok) := rfl

/-! ### The store calls of a queue -/

theorem store_put_settles (hs : s.Sound) (a : Answers) (kind : Kind) (key value : Bytes) :
    ∃ code s', (∀ v, s.put a (some v) kind (some key) value = .ok (some code, s')) ∧
      (code = Status.ok ↔ (StoreImpl.Call.put none kind (some key) value).Succeeds a s) := by
  obtain ⟨code, r, s', hrun, hiff⟩ := StoreImpl.settles (a := a) hs
    (c := .put none kind (some key) value) rfl not_false
  refine ⟨code, s', fun v => ?_, hiff⟩
  obtain ⟨⟨st, t⟩, hput, hx⟩ := exists_of_map_eq_ok (hrun v)
  obtain ⟨hr, rfl⟩ := Prod.mk.inj hx
  rw [hput, show st = some code from congrArg StoreImpl.Reply.status hr]

theorem store_singleRemove_settles (hs : s.Sound) (a : Answers) (kind : Kind) (key : Bytes) :
    ∃ code s', (∀ v, s.singleRemove a (some v) kind (some key) = .ok (some code, s')) ∧ s'.Sound := by
  obtain ⟨code, r, s', hrun, hiff⟩ := StoreImpl.settles (a := a) hs
    (c := .singleRemove none kind (some key)) rfl not_false
  have hremove : ∀ v, s.singleRemove a (some v) kind (some key) = .ok (some code, s') := by
    intro v
    obtain ⟨⟨st, t⟩, hremove, hx⟩ := exists_of_map_eq_ok (hrun v)
    obtain ⟨hr, rfl⟩ := Prod.mk.inj hx
    rw [hremove, show st = some code from congrArg StoreImpl.Reply.status hr]
  obtain ⟨st, t, hsound, ht⟩ := store_singleRemove_sound hs a (some Status.ok) kind (some key)
  rw [hremove] at hsound
  cases hsound
  exact ⟨code, s', hremove, ht⟩

/-! ### The methods -/

/-- A method of a queue that is not valid reports just that. -/
theorem statusBlind_of_invalid (hv : ¬ q.isValid_ = true) (as : ℕ → Answers) {c : Call}
    (hc : c.takesStatus = true) : StatusBlind (c.observe as q s) (c.Succeeds as q s) := by
  have hobs : ∃ x, ∀ status, c.observe as q s status = .ok (assign Status.invalid status, x) := by
    cases c with
    | put st value | clear st =>
      refine ⟨(.reply { status := none }, q, s), fun status => ?_⟩
      simp only [Call.observe, Call.withStatus, Call.run, put, clear, if_neg hv]
      rfl
    | take st valLen | takeTimed st valLen timeout =>
      refine ⟨(.reply { status := none, valLen }, q, s), fun status => ?_⟩
      simp only [Call.observe, Call.withStatus, Call.run, take, takeTimed, waitFor, if_neg hv]
      rfl
    | readNext st valLen pKey timeout =>
      refine ⟨(.reply { status := none, valLen, pKey }, q, s), fun status => ?_⟩
      simp only [Call.observe, Call.withStatus, Call.run, readNext, waitFor, if_neg hv]
      rfl
    | erase key => exact absurd hc (by simp [Call.takesStatus])
  obtain ⟨x, hx⟩ := hobs
  exact .of_ok hx (iff_of_false (by decide) fun h => hv h.1)

section Valid

variable {kind : Kind}

/-- On a valid queue it is the store call that decides. -/
theorem exists_stores_iff (hk : q.queueKind = some kind) (as : ℕ → Answers) {c : Call} :
    (∃ kind, q.queueKind = some kind ∧ c.Stores as q s kind) ↔ c.Stores as q s kind := by
  constructor
  · rintro ⟨kind', hk', hstores⟩
    obtain rfl := Option.some.inj (hk.symm.trans hk')
    exact hstores
  · intro hstores
    exact ⟨kind, hk, hstores⟩

theorem put_statusBlind (hv : q.isValid_ = true) (hk : q.queueKind = some kind) (hs : s.Sound)
    (as : ℕ → Answers) (st : Option ℤ) (value : Bytes) :
    StatusBlind ((Call.put st value).observe as q s) ((Call.put st value).Succeeds as q s) := by
  have href : q.getKindRef = .ok kind := by simp only [getKindRef, hk]
  obtain ⟨code, s', hrun, hiff⟩ := store_put_settles hs (as 0) kind (putU64BE q.maxKey) value
  have hobs : ∃ q', ∀ status, (Call.put st value).observe as q s status
      = .ok (assign code status, .reply { status := none }, q', s') := by
    by_cases hcode : code = Status.ok
    · subst hcode
      refine ⟨{ q with maxKey := q.maxKey + 1, count := q.count + 1, totalPuts_ := q.totalPuts_ + 1 },
        fun status => ?_⟩
      simp only [Call.observe, Call.withStatus, Call.run, put, if_pos hv, href, ok_bind, localState_eq,
        hrun, if_true]
      rfl
    · have hne : some code ≠ some Status.ok := by simpa using hcode
      refine ⟨{ q with maxKey := q.maxKey + 1 - 1 }, fun status => ?_⟩
      simp only [Call.observe, Call.withStatus, Call.run, put, if_pos hv, href, ok_bind, localState_eq,
        hrun, if_neg hne]
      rfl
  obtain ⟨q', hq'⟩ := hobs
  refine .of_ok hq' (hiff.trans ?_)
  simp only [Call.Succeeds, hv, true_and, exists_stores_iff hk, and_true]
  rfl

/-- What both overloads of `take` do once there is a message. -/
theorem takeNow_settles (hk : q.queueKind = some kind) (hs : s.Sound) (a : Answers)
    (valLen : Option ℕ) :
    ∃ (code : ℤ) (r : Reply) (y : KueueImpl × StoreImpl),
      (∀ status, q.takeNow a status valLen s = .ok ({ r with status := assign code status }, y)) ∧
      (code = Status.ok ↔ (StoreImpl.Call.singleRemoveIfPresent none kind valLen
        (some (putU64BE q.minKey))).Succeeds a s) := by
  have href : q.getKindRef = .ok kind := by simp only [getKindRef, hk]
  obtain ⟨code, r, s', hrun, hiff⟩ := StoreImpl.settles (a := a) hs
    (c := .singleRemoveIfPresent none kind valLen (some (putU64BE q.minKey))) rfl not_false
  refine ⟨code, { status := none, valLen := r.resultLen, value := r.data },
    (if some code = some Status.ok then q.removed else q, s'), fun status => ?_, hiff⟩
  have hstore : s.singleRemoveIfPresent a (localState status) kind valLen (some (putU64BE q.minKey))
      = .ok ({ r with status := some code }, s') := hrun _
  simp only [takeNow, href, ok_bind, hstore]
  rfl

theorem readNow_settles (hk : q.queueKind = some kind) (hs : s.Sound) (a : Answers)
    (valLen : Option ℕ) (pKey : Option UInt64) :
    ∃ (code : ℤ) (r : Reply) (y : KueueImpl × StoreImpl),
      (∀ status, q.readNow a status valLen pKey s = .ok ({ r with status := assign code status }, y)) ∧
      (code = Status.ok ↔
        (StoreImpl.Call.get none kind valLen (some (putU64BE q.minKey))).Succeeds a s) := by
  have href : q.getKindRef = .ok kind := by simp only [getKindRef, hk]
  obtain ⟨code, r, s', hrun, hiff⟩ := StoreImpl.settles (a := a) hs
    (c := .get none kind valLen (some (putU64BE q.minKey))) rfl not_false
  refine ⟨code, { status := none, valLen := r.resultLen, value := r.data,
                  pKey := if some code = some Status.ok then pKey.map fun _ => q.minKey else pKey },
    (q, s'), fun status => ?_, hiff⟩
  have hstore : s.get a (localState status) kind valLen (some (putU64BE q.minKey))
      = .ok ({ r with status := some code }, s') := hrun _
  simp only [readNow, href, ok_bind, hstore]
  rfl

theorem take_statusBlind (hv : q.isValid_ = true) (hk : q.queueKind = some kind) (hs : s.Sound)
    (as : ℕ → Answers) (st : Option ℤ) (valLen : Option ℕ) :
    StatusBlind ((Call.take st valLen).observe as q s) ((Call.take st valLen).Succeeds as q s) := by
  by_cases hzero : q.count = 0
  · refine .of_error (fun status => (?_ : _ = Except.error Halt.blocked))
    simp only [Call.observe, Call.withStatus, Call.run, take, if_pos hv, if_pos hzero]
    rfl
  obtain ⟨code, r, y, hrun, hiff⟩ := takeNow_settles hk hs (as 0) valLen
  have hobs : ∀ status, (Call.take st valLen).observe as q s status
      = .ok (assign code status, .reply { r with status := none }, y) := by
    intro status
    simp only [Call.observe, Call.withStatus, Call.run, take, if_pos hv, if_neg hzero, hrun]
    rfl
  refine .of_ok hobs (hiff.trans ?_)
  simp only [Call.Succeeds, hv, true_and, exists_stores_iff hk, and_true]
  rfl

/-- The methods with a timeout, from what they do once there is a message. -/
theorem waitFor_statusBlind (hv : q.isValid_ = true) (hk : q.queueKind = some kind)
    {as : ℕ → Answers} {c : Call} {timeout : ℤ} {valLen : Option ℕ} {pKey : Option UInt64}
    {body : Option ℤ → Except Halt (Reply × KueueImpl × StoreImpl)} {code : ℤ} {r : Reply}
    {y : KueueImpl × StoreImpl}
    (hcall : ∀ status, c.observe as q s status
      = ((q.waitFor timeout status valLen pKey s (body status)).map fun x => (Outcome.reply x.1, x.2)).map
          split)
    (hsucc : ∀ x, c.Succeeds as q s x ↔ q.isValid_ = true ∧
      (∃ kind, q.queueKind = some kind ∧ c.Stores as q s kind) ∧ q.count > 0)
    (hbody : ∀ status, body status = .ok ({ r with status := assign code status }, y))
    (hiff : code = Status.ok ↔ c.Stores as q s kind) :
    StatusBlind (c.observe as q s) (c.Succeeds as q s) := by
  by_cases hpos : q.count > 0
  · have hobs : ∀ status, c.observe as q s status
        = .ok (assign code status, .reply { r with status := none }, y) := by
      intro status
      simp only [hcall, waitFor, if_pos hv, if_pos hpos, hbody]
      rfl
    refine .of_ok hobs (hiff.trans ?_)
    rw [hsucc, and_iff_right hv, exists_stores_iff hk, and_iff_left hpos]
  · by_cases htime : timeout > 0
    · have hobs : ∀ status, c.observe as q s status
          = .ok (assign Status.timedOut status, .reply { status := none, valLen, pKey }, q, s) := by
        intro status
        simp only [hcall, waitFor, if_pos hv, if_neg hpos, if_pos htime]
        rfl
      refine .of_ok hobs (iff_of_false (by decide) fun h => hpos ((hsucc _).mp h).2.2)
    · refine .of_error (fun status => (?_ : _ = Except.error Halt.blocked))
      simp only [hcall, waitFor, if_pos hv, if_neg hpos, if_neg htime]
      rfl

theorem toInt_removed_count {n : ℕ} (hn : q.count.toInt = n + 1) : q.removed.count.toInt = n := by
  have hle : q.count.toInt < 2 ^ 63 := q.count.toInt_lt
  have hone : (1 : Int64).toInt = 1 := rfl
  rw [show q.removed.count = q.count - 1 from rfl, Int64.toInt_sub, hone, hn,
    Int.bmod_eq_of_le (by omega) (by omega)]
  omega

theorem count_pos_iff : q.count > 0 ↔ 0 < q.count.toInt := Int64.lt_iff_toInt_lt

/-- The loop of `clear` from a positive count: the first turn assigns the state, and it ends with Ok
exactly when the count has come down to zero. -/
theorem clearLoop_settles (as : ℕ → Answers) (kind : Kind) (n i : ℕ) {q : KueueImpl} {s : StoreImpl}
    (hs : s.Sound) (hn : q.count.toInt = n + 1) :
    ∃ (code : ℤ) (y : KueueImpl × StoreImpl),
      (∀ v, clearLoop as kind (n + 1) i (some v) q s = .ok (some code, y)) ∧
      (code = Status.ok ↔ ¬ y.1.count > 0) := by
  induction n generalizing i q s with
  | zero =>
    have hpos : q.count > 0 := count_pos_iff.mpr (by omega)
    obtain ⟨code, s', hrun, -⟩ := store_singleRemove_settles hs (as i) kind (putU64BE q.minKey)
    by_cases hcode : code = Status.ok
    · subst hcode
      refine ⟨Status.ok, (q.removed, s'), fun v => ?_, iff_of_true rfl ?_⟩
      · simp only [clearLoop, if_pos hpos, hrun, ok_bind, if_true]
        rfl
      · rw [count_pos_iff, toInt_removed_count hn]
        omega
    · have hne : some code ≠ some Status.ok := by simpa using hcode
      refine ⟨code, (q, s'), fun v => ?_, iff_of_false hcode (not_not.mpr hpos)⟩
      simp only [clearLoop, if_pos hpos, hrun, ok_bind, if_neg hne]
      rfl
  | succ n ih =>
    have hpos : q.count > 0 := count_pos_iff.mpr (by omega)
    obtain ⟨code, s', hrun, hs'⟩ := store_singleRemove_settles hs (as i) kind (putU64BE q.minKey)
    by_cases hcode : code = Status.ok
    · subst hcode
      obtain ⟨code, y, hloop, hiff⟩ := ih (i + 1) hs' (toInt_removed_count hn)
      refine ⟨code, y, fun v => ?_, hiff⟩
      rw [clearLoop, if_pos hpos, hrun, ok_bind]
      exact hloop Status.ok
    · have hne : some code ≠ some Status.ok := by simpa using hcode
      refine ⟨code, (q, s'), fun v => ?_, iff_of_false hcode (not_not.mpr hpos)⟩
      rw [clearLoop, if_pos hpos, hrun, ok_bind]
      simp only [if_neg hne]
      rfl

theorem clear_statusBlind (hv : q.isValid_ = true) (hk : q.queueKind = some kind) (hs : s.Sound)
    (as : ℕ → Answers) (st : Option ℤ) (hpos : q.count > 0) :
    StatusBlind ((Call.clear st).observe as q s) ((Call.clear st).Succeeds as q s) := by
  have href : q.getKindRef = .ok kind := by simp only [getKindRef, hk]
  obtain ⟨n, hn⟩ : ∃ n : ℕ, q.count.toInt = n + 1 := by
    have := count_pos_iff.mp hpos
    exact ⟨q.count.toInt.toNat - 1, by omega⟩
  have hturns : q.count.toInt.toNat = n + 1 := by omega
  obtain ⟨code, y, hloop, hiff⟩ := clearLoop_settles as kind n 0 hs hn
  have hobs : ∀ status, (Call.clear st).observe as q s status
      = .ok (assign code status, .reply { status := none }, y) := by
    intro status
    simp only [Call.observe, Call.withStatus, Call.run, clear, if_pos hv, href, ok_bind, hturns,
      localState_eq, hloop]
    rfl
  refine .of_ok hobs (hiff.trans ?_)
  simp only [Call.Succeeds, hv, true_and, exists_stores_iff hk]
  exact (and_iff_right trivial).symm

/-- A `clear` that makes no turn leaves the status as it was. -/
theorem clear_idle (hv : q.isValid_ = true) (hk : q.queueKind = some kind) (as : ℕ → Answers)
    (st : Option ℤ) (hpos : ¬ q.count > 0) (v : ℤ) :
    (Call.clear st).observe as q s (some v) = .ok (some v, .reply { status := none }, q, s) := by
  have href : q.getKindRef = .ok kind := by simp only [getKindRef, hk]
  have hturns : q.count.toInt.toNat = 0 := by
    have hle : ¬ 0 < q.count.toInt := fun h => hpos (count_pos_iff.mpr h)
    omega
  simp only [Call.observe, Call.withStatus, Call.run, clear, if_pos hv, href, ok_bind, hturns, clearLoop]
  rfl

end Valid

/-- **A queue call is blind to the status it is given, and describes itself there**, exactly when it is
not a `clear` with nothing to clear. -/
theorem statusBlind_iff (hq : q.Sound) (hs : s.Sound) (as : ℕ → Answers) {c : Call}
    (hc : c.takesStatus = true) :
    StatusBlind (c.observe as q s) (c.Succeeds as q s) ↔ ¬ c.Idles q := by
  by_cases hv : q.isValid_ = true
  swap
  · refine iff_of_true (statusBlind_of_invalid hv as hc) fun hno => ?_
    cases c with
    | clear st => exact hv hno.1
    | _ => exact hno
  obtain ⟨kind, hk⟩ := Option.isSome_iff_exists.mp (hq hv)
  cases c with
  | put st value => exact iff_of_true (put_statusBlind hv hk hs as st value) not_false
  | take st valLen => exact iff_of_true (take_statusBlind hv hk hs as st valLen) not_false
  | takeTimed st valLen timeout =>
    obtain ⟨code, r, y, hrun, hiff⟩ := takeNow_settles hk hs (as 0) valLen
    exact iff_of_true (waitFor_statusBlind hv hk (fun _ => rfl) (fun _ => Iff.rfl) hrun hiff) not_false
  | readNext st valLen pKey timeout =>
    obtain ⟨code, r, y, hrun, hiff⟩ := readNow_settles hk hs (as 0) valLen pKey
    exact iff_of_true (waitFor_statusBlind hv hk (fun _ => rfl) (fun _ => Iff.rfl) hrun hiff) not_false
  | erase key => exact absurd hc (by simp [Call.takesStatus])
  | clear st =>
    by_cases hpos : q.count > 0
    · exact iff_of_true (clear_statusBlind hv hk hs as st hpos) fun hno => hno.2 hpos
    · refine iff_of_false (fun hb => ?_) (not_not.mpr ⟨hv, hpos⟩)
      have hsame := hb.same 0 1
      rw [clear_idle hv hk as st hpos, clear_idle hv hk as st hpos] at hsame
      exact absurd (Option.some.inj (Prod.mk.inj (Except.ok.inj hsame)).1) (by decide)

/-! ### Queues that are built -/

/-- The constructor takes these readings of the smallest and the greatest key for the bounds of a
queue. -/
def Plausible (smallestKey greatestKey : Option UInt64) : Prop :=
  match greatestKey with
  | some k =>
      (smallestKey.getD MIN_KEY).toNat ≤ k.toNat ∧
        (k.toNat + 1 - (smallestKey.getD MIN_KEY).toNat < 2 ^ 63 ∨
          k.toNat + 1 - (smallestKey.getD MIN_KEY).toNat = 2 ^ 64)
  | none => smallestKey.getD MIN_KEY = 0

/-- What it takes to build a valid queue: the Kind, both iterators, and plausible keys in them. -/
def Buildable (aKind aMin aMax : Answers) (id : Bytes) (s : StoreImpl) : Prop :=
  ∃ kd s₁ db, Obtains aKind id s kd s₁ ∧ s₁.OpenWith db ∧ aMin.iterator = true ∧ aMax.iterator = true ∧
    Plausible (reading aMin FMap.firstKey (db.data kd.handle))
      (reading aMax FMap.lastKey (db.data kd.handle))

theorem init_isValid_iff (kind : Kind) (mn mx : Option UInt64) :
    (init kind mn mx).isValid_ = true ↔ Plausible mn mx := by
  cases mx with
  | none => exact (init_none kind mn).2.2
  | some k => exact (init_some kind mn).2.1

/-- **A queue is built valid exactly when it is buildable.** -/
theorem new_isValid_iff (hs : s.Sound) (aKind aMin aMax : Answers) (id : Bytes) :
    ∃ q s', new aKind aMin aMax id s = .ok (q, s') ∧
      (q.isValid_ = true ↔ Buildable aKind aMin aMax id s) := by
  by_cases hread : (∃ kd s₁, Obtains aKind id s kd s₁) ∧ aMin.iterator = true ∧ aMax.iterator = true
  · obtain ⟨⟨kd, s₁, hgot⟩, hmin, hmax⟩ := hread
    obtain ⟨-, db, hopen⟩ := hgot.openWith hs
    refine ⟨_, s₁, new_read hs hgot hopen hmin hmax, ?_⟩
    rw [init_isValid_iff]
    constructor
    · intro hp
      exact ⟨kd, s₁, db, hgot, hopen, hmin, hmax, hp⟩
    · rintro ⟨kd', s₁', db', hgot', hopen', -, -, hp⟩
      have hsame := hgot.call.symm.trans hgot'.call
      cases hsame
      obtain rfl := hopen.db_eq hopen'.txnDb
      exact hp
  · obtain ⟨q, s', hnew, hv⟩ := new_unread hs hread
    refine ⟨q, s', hnew, iff_of_false (by simp [hv]) ?_⟩
    rintro ⟨kd, s₁, db, hgot, -, hmin, hmax, -⟩
    exact hread ⟨⟨kd, s₁, hgot⟩, hmin, hmax⟩

end KueueImpl

/-! ## Managers -/

namespace KueueManagerImpl

variable {m : KueueManagerImpl}

/-- The constructor settles on the code of the attempt to open. -/
theorem new_statusBlind (a : StoreImpl.OpenAnswers) (b : Answers) :
    StatusBlind (fun status => new a b status) fun x => x.1.isOpen = true := by
  by_cases hl : a.listed = true
  · by_cases ho : a.opened.isOk = true
    · obtain ⟨s, db, hnew, hw, -⟩ := StoreImpl.new_opened hl ho
      have hrun : ∀ status, new a b status = .ok (assign Status.ok status, { store := some s }, none) := by
        intro status
        simp only [new, hnew, ok_bind, hw.isOpen, if_true]
        rfl
      exact .of_ok hrun (iff_of_true rfl hw.isOpen)
    · have hfails : a.openFails = true := by simp [StoreImpl.OpenAnswers.openFails, hl, ho]
      refine .of_error fun status => (?_ : _ = Except.error Halt.nullDeref)
      simp only [new, StoreImpl.new_openFails hfails]
      rfl
  · have hl' : a.listed = false := by simpa using hl
    obtain ⟨s, hnew, hclosed, -, hcode⟩ := StoreImpl.new_listFails hl'
    obtain ⟨hclose, hdestroy⟩ := release_closed hclosed b
    have hbad : a.list.isOk = false := by
      simp only [StoreImpl.OpenAnswers.listed, Bool.or_eq_false_iff] at hl'
      exact hl'.1
    have hrun : ∀ status, new a b status = .ok (assign a.list.code status, { store := none }, some s) := by
      intro status
      simp only [new, hnew, ok_bind, hclosed, hclose, hdestroy, hcode, assign_assign]
      rfl
    exact .of_ok hrun (iff_of_false (StoreImpl.RStatus_code_of_not_ok hbad) (by simp [isOpen]))

/-- The methods with a status parameter. -/
inductive Method
  | get (id : Bytes)
  | compactAll
  | syncWal

/-- What a method does with a status pointer: the status after it, the queue it returns and the state. -/
def Method.observe (as : ℕ → Answers) (m : KueueManagerImpl) :
    Method → Option ℤ → Except Halt (Option ℤ × Option KueueImpl × KueueManagerImpl)
  | .get id, status => m.get as status id
  | .compactAll, status => (m.compactAll (as 0) status).map fun x => (x.1, none, x.2)
  | .syncWal, status => (m.syncWal (as 0) status).map fun x => (x.1, none, x.2)

/-- A method that did what it is for: `get` returned a valid queue, `compactAll` compacted every Kind,
`syncWal` synced. -/
def Method.Succeeds (as : ℕ → Answers) (m : KueueManagerImpl) (o : Method)
    (x : Option KueueImpl × KueueManagerImpl) : Prop :=
  m.isOpen = true ∧
    match o with
    | .get _ => ∃ q, x.1 = some q ∧ q.isValid_ = true
    | .compactAll => ∃ s, m.store = some s ∧ (StoreImpl.Call.compactAll none).Succeeds (as 0) s
    | .syncWal => (as 0).flushWAL = none

/-- The cases in which an open manager reports Ok for something that did not succeed: a queue that is
not valid is handed out again, one is built that is not valid, or `FlushWAL` failed. -/
def Method.Hides (as : ℕ → Answers) (m : KueueManagerImpl) (o : Method) : Prop :=
  m.isOpen = true ∧
    match o with
    | .get id =>
        (∃ q, m.queues.lookup (cStr id) = some q ∧ q.isValid_ = false) ∨
          (m.queues.lookup (cStr id) = none ∧
            ∀ s, m.store = some s → ¬ KueueImpl.Buildable (as 0) (as 1) (as 2) (cStr id) s)
    | .compactAll => False
    | .syncWal => (as 0).flushWAL ≠ none

theorem statusBlind_of_closed (hclosed : ¬ m.isOpen = true) (as : ℕ → Answers) (o : Method) :
    StatusBlind (o.observe as m) (o.Succeeds as m) := by
  have hobs : ∀ status, o.observe as m status = .ok (assign Status.closed status, none, m) := by
    intro status
    cases o with
    | get id => simp only [Method.observe, get, validateOpen, if_neg hclosed]; rfl
    | compactAll => simp only [Method.observe, compactAll, validateOpen, if_neg hclosed]; rfl
    | syncWal => simp only [Method.observe, syncWal, validateOpen, if_neg hclosed]; rfl
  exact .of_ok hobs (iff_of_false (by decide) fun h => hclosed h.1)

theorem get_statusBlind_iff (hm : m.Sound) (hopen : m.isOpen = true) (as : ℕ → Answers) (id : Bytes) :
    StatusBlind ((Method.get id).observe as m) ((Method.get id).Succeeds as m) ↔
      ¬ (Method.get id).Hides as m := by
  obtain ⟨s, hstore, -⟩ := exists_store_of_isOpen hopen
  cases hl : m.queues.lookup (cStr id) with
  | some q =>
    have hobs : ∀ status, (Method.get id).observe as m status
        = .ok (assign Status.ok status, some q, m) := by
      intro status
      simp only [Method.observe, get, validateOpen, if_pos hopen, hl]
      rfl
    rw [statusBlind_iff_of_ok hobs]
    constructor
    · rintro ⟨-, q', hq', hv⟩ ⟨-, ⟨q'', hq'', hno⟩ | ⟨hno, -⟩⟩
      · cases hq'
        obtain rfl := Option.some.inj (hl.symm.trans hq'')
        rw [hv] at hno
        cases hno
      · rw [hl] at hno
        cases hno
    · intro hno
      refine ⟨hopen, q, rfl, ?_⟩
      by_contra hv
      exact hno ⟨hopen, .inl ⟨q, hl, by simpa using hv⟩⟩
  | none =>
    obtain ⟨q, s', hnew, hiff⟩ :=
      KueueImpl.new_isValid_iff (hm.store s hstore) (as 0) (as 1) (as 2) (cStr id)
    have hobs : ∀ status, (Method.get id).observe as m status = .ok (assign Status.ok status, some q,
        { store := some s', queues := m.queues ++ [(cStr id, q)] }) := by
      intro status
      simp only [Method.observe, get, validateOpen, if_pos hopen, hl, deref, hstore, ok_bind, hnew]
      rfl
    rw [statusBlind_iff_of_ok hobs]
    constructor
    · rintro ⟨-, q', hq', hv⟩ ⟨-, ⟨q'', hq'', -⟩ | ⟨-, hno⟩⟩
      · rw [hl] at hq''
        cases hq''
      · cases hq'
        exact hno s hstore (hiff.mp hv)
    · intro hno
      refine ⟨hopen, q, rfl, hiff.mpr ?_⟩
      by_contra hb
      refine hno ⟨hopen, .inr ⟨hl, fun s'' hs'' => ?_⟩⟩
      obtain rfl := Option.some.inj (hstore.symm.trans hs'')
      exact hb

theorem compactAll_statusBlind (hm : m.Sound) (hopen : m.isOpen = true) (as : ℕ → Answers) :
    StatusBlind (Method.compactAll.observe as m) (Method.compactAll.Succeeds as m) := by
  obtain ⟨s, hstore, -⟩ := exists_store_of_isOpen hopen
  have hs := hm.store s hstore
  -- the store call gets the pointer after Ok was written there
  obtain ⟨g, hg⟩ := StoreImpl.compactAll_decides (as 0) s
  have hobs : ∀ status, Method.compactAll.observe as m status
      = g.map fun x => (assign x.1 status, none, { m with store := some x.2 }) := by
    intro status
    simp only [Method.observe, compactAll, validateOpen, if_pos hopen, deref, hstore, ok_bind, hg]
    cases g with
    | error e => rfl
    | ok x => exact congrArg (fun st => Except.ok (st, _)) (assign_assign x.1 Status.ok status)
  refine Decides.statusBlind ⟨g.map fun x => (x.1, none, { m with store := some x.2 }), fun status => ?_⟩
    fun x c hrun => ?_
  · rw [hobs]
    cases g <;> rfl
  · rw [hobs] at hrun
    cases g with
    | error e => cases hrun
    | ok y =>
      cases hrun
      rw [StoreImpl.compactAll_ok_iff hs (hg (some Status.ok))]
      constructor
      · intro hall
        exact ⟨hopen, s, hstore, hall⟩
      · rintro ⟨-, s', hs', hall⟩
        obtain rfl := Option.some.inj (hstore.symm.trans hs')
        exact hall

theorem syncWal_statusBlind_iff (hm : m.Sound) (hopen : m.isOpen = true) (as : ℕ → Answers) :
    StatusBlind (Method.syncWal.observe as m) (Method.syncWal.Succeeds as m) ↔
      ¬ Method.syncWal.Hides as m := by
  obtain ⟨s, hstore, hs⟩ := exists_store_of_isOpen hopen
  obtain ⟨db, hw⟩ := (hm.store s hstore).openWith hs
  obtain ⟨s', db', hrun, -⟩ := StoreImpl.syncWAL_open hw (as 0)
  have hobs : ∀ status, Method.syncWal.observe as m status
      = .ok (assign Status.ok status, none, { m with store := some s' }) := by
    intro status
    simp only [Method.observe, syncWal, validateOpen, if_pos hopen, deref, hstore, ok_bind, hrun]
    rfl
  rw [statusBlind_iff_of_ok hobs]
  simp only [Method.Succeeds, Method.Hides, hopen, true_and, not_not, ne_eq]

/-- **A manager call is blind to the status it is given, and describes itself there**, exactly when it
does not hide a failure. -/
theorem statusBlind_iff (hm : m.Sound) (as : ℕ → Answers) (o : Method) :
    StatusBlind (o.observe as m) (o.Succeeds as m) ↔ ¬ o.Hides as m := by
  by_cases hopen : m.isOpen = true
  · cases o with
    | get id => exact get_statusBlind_iff hm hopen as id
    | compactAll => exact iff_of_true (compactAll_statusBlind hm hopen as) fun hno => hno.2
    | syncWal => exact syncWal_statusBlind_iff hm hopen as
  · exact iff_of_true (statusBlind_of_closed hopen as o) fun hno => hopen hno.1

end KueueManagerImpl

/-! ## The library -/

/-- **What a status holds before a call never matters, and after the call it describes that call**,
with four exceptions: a `findMinKey` or `findMaxKey` whose seek fails, a `clear` of a valid queue that
counts no message, a manager's `syncWal` whose `FlushWAL` fails, and a manager's `get` of a queue that
is not valid. -/
theorem status_blind_iff {s : StoreImpl} {q : KueueImpl} {m : KueueManagerImpl} (hs : s.Sound)
    (hq : q.Sound) (hm : m.Sound) (a : Answers) (as : ℕ → Answers) :
    (∀ c : StoreImpl.Call, c.takesStatus = true →
      (StatusBlind (c.observe a s) (fun _ => c.Succeeds a s) ↔ ¬ c.SeekFails a s)) ∧
    (∀ c : KueueImpl.Call, c.takesStatus = true →
      (StatusBlind (c.observe as q s) (c.Succeeds as q s) ↔ ¬ c.Idles q)) ∧
    (∀ o : KueueManagerImpl.Method,
      (StatusBlind (o.observe as m) (o.Succeeds as m) ↔ ¬ o.Hides as m)) ∧
    ∀ opens : StoreImpl.OpenAnswers,
      StatusBlind (fun status => KueueManagerImpl.new opens a status) fun x => x.1.isOpen = true :=
  ⟨fun _ hc => StoreImpl.statusBlind_iff hs hc, fun _ hc => KueueImpl.statusBlind_iff hq hs as hc,
    fun o => KueueManagerImpl.statusBlind_iff hm as o,
    fun opens => KueueManagerImpl.new_statusBlind opens a⟩

/-- A manager on the store and the queue that were just created. -/
private def firstQueue : KueueManagerImpl where
  store := some KueueImpl.created.2
  queues := [([113], KueueImpl.created.1)]

/-- All four at the queue that was just built: its put, its manager's `get`, a `findMinKey` on its
store, and the constructor. -/
theorem status_blind_iff_created :
    StatusBlind ((StoreImpl.Call.findMinKey none (.impl KueueImpl.createdKind) 0).observe {}
        KueueImpl.created.2)
      (fun _ => (StoreImpl.Call.findMinKey none (.impl KueueImpl.createdKind) 0).Succeeds {}
        KueueImpl.created.2) ∧
    StatusBlind ((KueueImpl.Call.put none [7]).observe (fun _ => {}) KueueImpl.created.1
        KueueImpl.created.2)
      ((KueueImpl.Call.put none [7]).Succeeds (fun _ => {}) KueueImpl.created.1 KueueImpl.created.2) ∧
    StatusBlind ((KueueManagerImpl.Method.get [113]).observe (fun _ => {}) firstQueue)
      ((KueueManagerImpl.Method.get [113]).Succeeds (fun _ => {}) firstQueue) ∧
    StatusBlind (fun status => KueueManagerImpl.new .created {} status) fun x => x.1.isOpen = true := by
  have hs : KueueImpl.created.2.Sound := fun _ => rfl
  have hq : KueueImpl.created.1.Sound := fun _ => rfl
  have hm : firstQueue.Sound := ⟨fun s hs => by cases hs; exact fun _ => rfl, fun e he => by
    rw [List.mem_singleton.mp he]; exact hq⟩
  obtain ⟨hstore, hqueue, hmanager, hnew⟩ := status_blind_iff hs hq hm {} fun _ => {}
  refine ⟨(hstore _ rfl).mpr fun h => h.2.2.2 rfl, (hqueue _ rfl).mpr not_false,
    (hmanager _).mpr ?_, hnew _⟩
  rintro ⟨-, ⟨q, hl, hno⟩ | ⟨hl, -⟩⟩
  · cases hl
    exact absurd hno (by decide)
  · exact absurd hl (by decide)

/-- `clear` on the empty queue that was just built keeps what the variable held: after a call that
succeeded it still shows 5. -/
theorem clear_keeps_status :
    (KueueImpl.created.1.clear (fun _ => {}) (some 5) KueueImpl.created.2).map (fun x => x.1)
        = .ok (some 5) ∧
      (KueueImpl.created.1.clear (fun _ => {}) (some 0) KueueImpl.created.2).map (fun x => x.1)
        = .ok (some 0) ∧
      ¬ StatusBlind ((KueueImpl.Call.clear none).observe (fun _ => {}) KueueImpl.created.1
          KueueImpl.created.2)
        ((KueueImpl.Call.clear none).Succeeds (fun _ => {}) KueueImpl.created.1 KueueImpl.created.2) := by
  refine ⟨rfl, rfl, fun hb => ?_⟩
  have hsame := congrArg (Except.map Prod.fst) (hb.same 5 0)
  have hfive : ((KueueImpl.Call.clear none).observe (fun _ => {}) KueueImpl.created.1
      KueueImpl.created.2 (some 5)).map Prod.fst = .ok (some 5) := rfl
  have hzero : ((KueueImpl.Call.clear none).observe (fun _ => {}) KueueImpl.created.1
      KueueImpl.created.2 (some 0)).map Prod.fst = .ok (some 0) := rfl
  rw [hfive, hzero] at hsame
  exact absurd (Option.some.inj (Except.ok.inj hsame)) (by decide)

end Librocks
