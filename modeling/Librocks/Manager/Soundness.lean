import Librocks.Kueue.Construct
import Librocks.Manager.Defs

/-!
# Queues and managers never dereference a null pointer

A queue is sound when validity comes with a Kind, a manager when its store and its queues are sound.
From sound states every call returns or waits, whatever the counters hold, and leaves sound states.
-/

namespace Librocks

open Rocks

/-! ## Queues -/

namespace KueueImpl

/-- A valid queue has a Kind. -/
def Sound (q : KueueImpl) : Prop := q.isValid_ = true → q.queueKind.isSome = true

/-- The call did not dereference a null pointer, and what it leaves is sound: it returned such a pair,
or it waits. -/
def SoundResult {α : Type} (r : Except Halt (α × KueueImpl × StoreImpl)) : Prop :=
  r = .error .blocked ∨ ∃ o q s, r = .ok (o, q, s) ∧ q.Sound ∧ s.Sound

theorem SoundResult.map {α β : Type} {r : Except Halt (α × KueueImpl × StoreImpl)} (f : α → β)
    (h : SoundResult r) : SoundResult (r.map fun x => (f x.1, x.2)) := by
  rcases h with rfl | ⟨o, q, s, rfl, hq, hs⟩
  · exact .inl rfl
  · exact .inr ⟨f o, q, s, rfl, hq, hs⟩

variable {q : KueueImpl} {s : StoreImpl}

/-- A valid queue gets at its Kind. -/
theorem Sound.getKindRef (hq : q.Sound) (hv : q.isValid_ = true) :
    ∃ kind, q.getKindRef = .ok kind := by
  obtain ⟨kind, hk⟩ := Option.isSome_iff_exists.mp (hq hv)
  exact ⟨kind, by simp only [KueueImpl.getKindRef, hk]⟩

/-- The store call of `put` returns, and keeps the store sound. -/
theorem store_put_sound (hs : s.Sound) (a : Answers) (status : Option ℤ) (kind : Kind)
    (key : Option Bytes) (v : Bytes) :
    ∃ st s', s.put a status kind key v = .ok (st, s') ∧ s'.Sound := by
  obtain ⟨r, s', hrun, hs'⟩ := StoreImpl.run_sound hs a (.put status kind key v)
  obtain ⟨⟨st, s''⟩, hput, hx⟩ := exists_of_map_eq_ok hrun
  obtain ⟨-, rfl⟩ := Prod.mk.inj hx
  exact ⟨st, s'', hput, hs'⟩

/-- So does the store call of `erase` and `clear`. -/
theorem store_singleRemove_sound (hs : s.Sound) (a : Answers) (status : Option ℤ) (kind : Kind)
    (key : Option Bytes) :
    ∃ st s', s.singleRemove a status kind key = .ok (st, s') ∧ s'.Sound := by
  obtain ⟨r, s', hrun, hs'⟩ := StoreImpl.run_sound hs a (.singleRemove status kind key)
  obtain ⟨⟨st, s''⟩, hremove, hx⟩ := exists_of_map_eq_ok hrun
  obtain ⟨-, rfl⟩ := Prod.mk.inj hx
  exact ⟨st, s'', hremove, hs'⟩

/-- A put leaves the Kind of the queue as it is, whether it is refused or not. -/
theorem put_sound (hq : q.Sound) (hs : s.Sound) (a : Answers) (status : Option ℤ) (v : Bytes) :
    SoundResult (q.put a status v s) := by
  by_cases hv : q.isValid_
  · obtain ⟨kind, hk⟩ := hq.getKindRef hv
    obtain ⟨st, s', hrun, hs'⟩ :=
      store_put_sound hs a (localState status) kind (some (putU64BE q.maxKey)) v
    simp only [put, hv, if_true, hk, ok_bind, hrun]
    have hkind : q.queueKind.isSome = true := hq hv
    split
    · exact .inr ⟨_, _, s', rfl, fun _ => hkind, hs'⟩
    · exact .inr ⟨_, _, s', rfl, fun _ => hkind, hs'⟩
  · simp only [put, hv]
    exact .inr ⟨_, q, s, rfl, hq, hs⟩

/-- The part of the takes behind the wait. -/
theorem takeNow_sound (hq : q.Sound) (hs : s.Sound) (hv : q.isValid_ = true) (a : Answers)
    (status : Option ℤ) (valLen : Option ℕ) : SoundResult (q.takeNow a status valLen s) := by
  obtain ⟨kind, hk⟩ := hq.getKindRef hv
  obtain ⟨r, s', hrun, hs'⟩ := StoreImpl.run_sound hs a
    (.singleRemoveIfPresent (localState status) kind valLen (some (putU64BE q.minKey)))
  simp only [StoreImpl.Call.run] at hrun
  simp only [takeNow, hk, ok_bind, hrun]
  refine .inr ⟨_, _, s', rfl, ?_, hs'⟩
  split
  · exact hq
  · exact hq

/-- A call that waits with a timeout: it goes on only with a valid queue. -/
theorem waitFor_sound (hq : q.Sound) (hs : s.Sound) (timeout : ℤ) (status : Option ℤ)
    (valLen : Option ℕ) (pKey : Option UInt64) {body : Except Halt (Reply × KueueImpl × StoreImpl)}
    (hbody : q.isValid_ = true → SoundResult body) :
    SoundResult (q.waitFor timeout status valLen pKey s body) := by
  unfold waitFor
  split_ifs with hv
  · exact hbody hv
  · exact .inr ⟨_, q, s, rfl, hq, hs⟩
  · exact .inl rfl
  · exact .inr ⟨_, q, s, rfl, hq, hs⟩

/-- The part of `readNext` behind the wait. -/
theorem readNow_sound (hq : q.Sound) (hs : s.Sound) (hv : q.isValid_ = true) (a : Answers)
    (status : Option ℤ) (valLen : Option ℕ) (pKey : Option UInt64) :
    SoundResult (q.readNow a status valLen pKey s) := by
  obtain ⟨kind, hk⟩ := hq.getKindRef hv
  obtain ⟨r, s', hrun, hs'⟩ := StoreImpl.run_sound hs a
    (.get (localState status) kind valLen (some (putU64BE q.minKey)))
  simp only [StoreImpl.Call.run] at hrun
  simp only [readNow, hk, ok_bind, hrun]
  exact .inr ⟨_, q, s', rfl, hq, hs'⟩

/-- `erase` asks for the Kind only after the test of validity. -/
theorem erase_sound (hq : q.Sound) (hs : s.Sound) (a : Answers) (key : UInt64) :
    SoundResult (q.erase a key s) := by
  by_cases hhit : q.isValid_ = true ∧ key = q.minKey
  · obtain ⟨kind, hk⟩ := hq.getKindRef hhit.1
    obtain ⟨st, s', hrun, hs'⟩ :=
      store_singleRemove_sound hs a (some Status.ok) kind (some (putU64BE key))
    simp only [erase, if_pos hhit, if_pos hhit.2, hk, ok_bind, hrun]
    refine .inr ⟨_, _, s', rfl, ?_, hs'⟩
    split
    · exact hq
    · exact hq
  · simp only [erase, if_neg hhit]
    exact .inr ⟨_, q, s, rfl, hq, hs⟩

/-- The loop of `clear` works on the Kind it was given; the induction is on the rounds left. -/
theorem clearLoop_sound (as : ℕ → Answers) (kind : Kind) (n i : ℕ) (state : Option ℤ)
    (hq : q.Sound) (hs : s.Sound) : SoundResult (clearLoop as kind n i state q s) := by
  induction n generalizing i state q s with
  | zero => exact .inr ⟨_, q, s, rfl, hq, hs⟩
  | succ n ih =>
    unfold clearLoop
    split_ifs
    · obtain ⟨st, s', hrun, hs'⟩ :=
        store_singleRemove_sound hs (as i) state kind (some (putU64BE q.minKey))
      simp only [hrun, ok_bind]
      split_ifs
      · exact ih (i + 1) st (q := q.removed) hq hs'
      · exact .inr ⟨_, q, s', rfl, hq, hs'⟩
    · exact .inr ⟨_, q, s, rfl, hq, hs⟩

/-- `clear` runs its loop with the Kind of a valid queue. -/
theorem clear_sound (hq : q.Sound) (hs : s.Sound) (as : ℕ → Answers) (status : Option ℤ) :
    SoundResult (q.clear as status s) := by
  by_cases hv : q.isValid_
  · obtain ⟨kind, hk⟩ := hq.getKindRef hv
    simp only [clear, hv, if_true, hk, ok_bind]
    rcases clearLoop_sound as kind q.count.toInt.toNat 0 (localState status) hq hs with
      hloop | ⟨o, q', s', hloop, hq', hs'⟩
    · rw [hloop]
      exact .inl rfl
    · rw [hloop]
      exact .inr ⟨_, q', s', rfl, hq', hs'⟩
  · simp only [clear, hv]
    exact .inr ⟨_, q, s, rfl, hq, hs⟩

/-- **A queue call never dereferences a null pointer**, from whatever state of the counters. -/
theorem run_sound (hq : q.Sound) (hs : s.Sound) (as : ℕ → Answers) (c : Call) :
    SoundResult (c.run as q s) := by
  cases c with
  | put status v => exact (put_sound hq hs (as 0) status v).map fun st => Outcome.reply { status := st }
  | take status valLen =>
    refine SoundResult.map Outcome.reply ?_
    unfold take
    split_ifs with hv
    · exact .inl rfl
    · exact takeNow_sound hq hs hv (as 0) status valLen
    · exact .inr ⟨_, q, s, rfl, hq, hs⟩
  | takeTimed status valLen timeout =>
    exact (waitFor_sound hq hs timeout status valLen none
      fun hv => takeNow_sound hq hs hv (as 0) status valLen).map _
  | readNext status valLen pKey timeout =>
    exact (waitFor_sound hq hs timeout status valLen pKey
      fun hv => readNow_sound hq hs hv (as 0) status valLen pKey).map _
  | erase key => exact (erase_sound hq hs (as 0) key).map _
  | clear status => exact (clear_sound hq hs as status).map fun st => Outcome.reply { status := st }

/-- Building a queue never dereferences a null pointer either. -/
theorem new_sound (hs : s.Sound) (aKind aMin aMax : Answers) (id : Bytes) :
    ∃ q s', new aKind aMin aMax id s = .ok (q, s') ∧ q.Sound ∧ s'.Sound := by
  cases hopen : s.isOpen with
  | false =>
    obtain ⟨s', hnew, hs'⟩ := new_closed hopen aKind aMin aMax id
    exact ⟨_, s', hnew, fun hv => absurd hv (by simp), StoreImpl.sound_of_closed hs'⟩
  | true =>
    obtain ⟨db, hw⟩ := hs.openWith hopen
    obtain ⟨q, s', db', hnew, hw', hkind, -⟩ := new_open hw aKind aMin aMax id
    refine ⟨q, s', hnew, fun hv => ?_, hw'.sound⟩
    obtain ⟨kd, hkd⟩ := hkind hv
    rw [hkd]
    rfl

end KueueImpl

/-! ## Managers -/

namespace KueueManagerImpl

/-- Every store and every queue of the manager is sound. -/
structure Sound (m : KueueManagerImpl) : Prop where
  store : ∀ s, m.store = some s → s.Sound
  queues : ∀ e ∈ m.queues, e.2.Sound

variable {m : KueueManagerImpl}

/-- An open manager has an open store. -/
theorem exists_store_of_isOpen (h : m.isOpen = true) : ∃ s, m.store = some s ∧ s.isOpen = true := by
  unfold isOpen at h
  cases hstore : m.store with
  | none => rw [hstore] at h; cases h
  | some s => rw [hstore] at h; exact ⟨s, rfl, h⟩

/-- `get` builds a queue on a sound store, or finds one. -/
theorem get_sound (hm : m.Sound) (as : ℕ → Answers) (status : Option ℤ) (id : Bytes) :
    ∃ st q m', m.get as status id = .ok (st, q, m') ∧ m'.Sound := by
  unfold get validateOpen
  by_cases hopen : m.isOpen
  · obtain ⟨s, hstore, -⟩ := exists_store_of_isOpen hopen
    simp only [hopen, if_true]
    cases hl : m.queues.lookup (cStr id) with
    | some q => exact ⟨_, _, m, rfl, hm⟩
    | none =>
      obtain ⟨q, s', hnew, hq, hs'⟩ :=
        KueueImpl.new_sound (hm.store s hstore) (as 0) (as 1) (as 2) (cStr id)
      simp only [deref, hstore, ok_bind, hnew]
      refine ⟨_, _, _, rfl, ?_, ?_⟩
      · intro t ht
        cases ht
        exact hs'
      · intro e he
        rcases List.mem_append.mp he with he | he
        · exact hm.queues e he
        · rw [List.mem_singleton.mp he]
          exact hq
  · simp only [hopen]
    exact ⟨_, _, m, rfl, hm⟩

/-- A manager with another sound store is sound. -/
theorem store_sound (hm : m.Sound) {s' : StoreImpl} (hs' : s'.Sound) :
    Sound { m with store := some s' } where
  store t ht := by
    cases ht
    exact hs'
  queues := hm.queues

/-- `compactAll` of the manager asks for its store only when that is open. -/
theorem compactAll_sound (hm : m.Sound) (a : Answers) (status : Option ℤ) :
    ∃ st m', m.compactAll a status = .ok (st, m') ∧ m'.Sound := by
  unfold compactAll validateOpen
  by_cases hopen : m.isOpen
  · obtain ⟨s, hstore, -⟩ := exists_store_of_isOpen hopen
    obtain ⟨r, s', hrun, hs'⟩ :=
      StoreImpl.run_sound (hm.store s hstore) a (.compactAll (assign Status.ok status))
    obtain ⟨⟨st, s''⟩, hcompact, hx⟩ := exists_of_map_eq_ok hrun
    obtain ⟨-, rfl⟩ := Prod.mk.inj hx
    simp only [hopen, if_true, deref, hstore, ok_bind, hcompact]
    exact ⟨_, _, rfl, store_sound hm hs'⟩
  · simp only [hopen]
    exact ⟨_, m, rfl, hm⟩

/-- So does `syncWal`. -/
theorem syncWal_sound (hm : m.Sound) (a : Answers) (status : Option ℤ) :
    ∃ st m', m.syncWal a status = .ok (st, m') ∧ m'.Sound := by
  unfold syncWal validateOpen
  by_cases hopen : m.isOpen
  · obtain ⟨s, hstore, hs⟩ := exists_store_of_isOpen hopen
    obtain ⟨db, hw⟩ := (hm.store s hstore).openWith hs
    obtain ⟨s', db', hrun, hf⟩ := StoreImpl.syncWAL_open hw a
    simp only [hopen, if_true, deref, hstore, ok_bind, hrun]
    exact ⟨_, _, rfl, store_sound hm hf.toOpenWith.sound⟩
  · simp only [hopen]
    exact ⟨_, m, rfl, hm⟩

/-- `close` leaves the manager closed. -/
theorem close_sound (hm : m.Sound) (a : Answers) :
    ∃ db m', m.close_ a = .ok (db, m') ∧ m'.Sound ∧ m'.isOpen = false := by
  unfold close_
  by_cases hopen : m.isOpen
  · obtain ⟨s, hstore, -⟩ := exists_store_of_isOpen hopen
    obtain ⟨db, s', hrun, -⟩ := StoreImpl.destroy_sound (hm.store s hstore) a
    simp only [hopen, if_true, deref, hstore, ok_bind, hrun]
    exact ⟨_, _, rfl, ⟨nofun, nofun⟩, rfl⟩
  · simp only [hopen]
    exact ⟨_, m, rfl, hm, by simpa using hopen⟩

/-- A call on a queue of the manager returns or waits. -/
theorem onQueue_sound (hm : m.Sound) (as : ℕ → Answers) (id : Bytes) (c : KueueImpl.Call) :
    m.onQueue as id c = .error .blocked ∨ ∃ m', m.onQueue as id c = .ok m' ∧ m'.Sound := by
  unfold onQueue
  cases hl : m.queues.lookup id with
  | none => exact .inr ⟨m, rfl, hm⟩
  | some q =>
    cases hstore : m.store with
    | none => exact .inr ⟨m, rfl, hm⟩
    | some s =>
      obtain ⟨before, after, hmem, -⟩ := List.lookup_eq_some_iff.mp hl
      have hq : q.Sound := hm.queues (id, q) (by rw [hmem]; simp)
      rcases KueueImpl.run_sound hq (hm.store s hstore) as c with hrun | ⟨o, q', s', hrun, hq', hs'⟩
      · simp only [hrun]
        exact .inl rfl
      · simp only [hrun, ok_bind]
        refine .inr ⟨_, rfl, ⟨fun t ht => by cases ht; exact hs', fun e he => ?_⟩⟩
        obtain ⟨e', he', rfl⟩ := List.mem_map.mp he
        split
        · exact hq'
        · exact hm.queues e' he'

/-- **A client call on a sound manager never dereferences a null pointer**, and leaves it sound. -/
theorem run_sound (hm : m.Sound) (as : ℕ → Answers) (c : Call) :
    c.run as m = .error .blocked ∨ ∃ m', c.run as m = .ok m' ∧ m'.Sound := by
  cases c with
  | get status id =>
    obtain ⟨st, q, m', hrun, hm'⟩ := get_sound hm as status id
    exact .inr ⟨m', by simp only [Call.run, hrun]; rfl, hm'⟩
  | compactAll status =>
    obtain ⟨st, m', hrun, hm'⟩ := compactAll_sound hm (as 0) status
    exact .inr ⟨m', by simp only [Call.run, hrun]; rfl, hm'⟩
  | syncWal status =>
    obtain ⟨st, m', hrun, hm'⟩ := syncWal_sound hm (as 0) status
    exact .inr ⟨m', by simp only [Call.run, hrun]; rfl, hm'⟩
  | close =>
    obtain ⟨db, m', hrun, hm', -⟩ := close_sound hm (as 0)
    exact .inr ⟨m', by simp only [Call.run, close, hrun]; rfl, hm'⟩
  | queue id c => exact onQueue_sound hm as id c

/-- A run keeps the manager sound. -/
theorem sound_of_run {m' : KueueManagerImpl} {ls : List (Call × (ℕ → Answers))}
    (hrun : Run Step m ls m') (hm : m.Sound) : m'.Sound := by
  refine hrun.invariant (P := Sound) (fun m l t hs hstep => ?_) hm
  rcases run_sound hs l.2 l.1 with hb | ⟨t', hok, ht'⟩
  · exact absurd (hb.symm.trans hstep) (by simp)
  · obtain rfl := Except.ok.inj (hok.symm.trans hstep)
    exact ht'

end KueueManagerImpl

end Librocks
