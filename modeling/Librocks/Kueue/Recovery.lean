import Librocks.Kueue.Construct
import Librocks.Kueue.Counting

/-!
# Recovery

A queue keeps its two keys and its count in memory only. After a crash RocksDB comes back with a prefix
of the writes that were committed, and the next object has to find the queue in whatever is stored then.

A log is the list of the writes to the Kind of a queue, in the order of their commits. `History` is what
such a log can be: any number of objects, one after the other, each built on what the log before it
left, and each one used by any number of threads until it is closed or the process dies, at any step;
a crash cuts the log to a prefix. `queue_recovery`: every prefix of such a log stores an interval of
keys, and the object built on it has the surviving messages and delivers them in order.
-/

namespace Librocks

open Rocks

/-! ## Logs -/

/-- A committed write to the Kind of a queue. -/
inductive Entry
  | put (key value : Bytes)
  | singleDelete (key : Bytes) (undefined : Option Bytes)

/-- The write to the column family `h`. -/
def Entry.write (h : Handle) : Entry → Write
  | .put key value => .put h key value
  | .singleDelete key undefined => .singleDelete h key undefined

theorem Entry.write_injective (h : Handle) : Function.Injective (Entry.write h) := by
  intro e e' heq
  cases e <;> cases e' <;> cases heq <;> rfl

/-- The database that a log leaves, with the Kind in the family `h`. -/
def replay (h : Handle) (log : List Entry) : Db := Db.created.commitWrites (log.map (Entry.write h))

/-- The family `h` holds what the log wrote. -/
structure Recovers (h : Handle) (log : List Entry) (db : Db) : Prop where
  data : db.data h = (replay h log).data h
  overwritten : db.overwritten h = (replay h log).overwritten h

/-- The keys and values that were put and not removed since, in the order of the puts. -/
def survivors (log : List Entry) : List (Bytes × Bytes) :=
  log.foldl (fun live e => match e with
    | .put key value => live ++ [(key, value)]
    | .singleDelete key _ => live.filter fun m => m.1 ≠ key) []

theorem survivors_put (log : List Entry) (key value : Bytes) :
    survivors (log ++ [.put key value]) = survivors log ++ [(key, value)] := by
  simp [survivors]

theorem survivors_singleDelete (log : List Entry) (key : Bytes) (undefined : Option Bytes) :
    survivors (log ++ [.singleDelete key undefined])
      = (survivors log).filter fun m => m.1 ≠ key := by
  simp [survivors]

/-- The effect of a write does not depend on the log before it. -/
private theorem apply_wal (db : Db) (wal : List Write) (w : Write) :
    (({ db with wal } : Db).apply w).data = (db.apply w).data ∧
      (({ db with wal } : Db).apply w).overwritten = (db.apply w).overwritten := by
  cases w with
  | singleDelete h key undefined =>
    simp only [Db.apply]
    split <;> [cases undefined; skip] <;> exact ⟨rfl, rfl⟩
  | _ => exact ⟨rfl, rfl⟩

/-- Replaying one more entry is one more write. -/
theorem wrote_replay (h : Handle) (log : List Entry) (e : Entry) :
    StoreImpl.Wrote (e.write h) (replay h log) (replay h (log ++ [e])) := by
  have happly := apply_wal ((log.map (Entry.write h)).foldl Db.apply Db.created)
    (Db.created.wal ++ log.map (Entry.write h)) (e.write h)
  refine ⟨?_, ?_, ?_⟩
  · rw [replay, replay, Db.commitWrites, Db.commitWrites, happly.1]
    simp
  · rw [replay, replay, Db.commitWrites, Db.commitWrites, happly.2]
    simp
  · simp [replay, Db.commitWrites, Db.created]

/-- A committed write is one more entry of what the family holds. -/
theorem Recovers.wrote {h : Handle} {log : List Entry} {db db' : Db} (hr : Recovers h log db)
    (e : Entry) (hw : StoreImpl.Wrote (e.write h) db db') : Recovers h (log ++ [e]) db' := by
  have hreplay := wrote_replay h log e
  refine ⟨?_, ?_⟩
  · rw [hw.data, hreplay.data]
    cases e with
    | put key value => simp [Entry.write, Db.apply, Db.setFamily, hr.data]
    | singleDelete key undefined =>
      simp only [Entry.write, Db.apply, hr.overwritten, hr.data]
      split <;> [cases undefined; skip] <;> simp [Db.setFamily]
  · rw [hw.overwritten, hreplay.overwritten]
    cases e with
    | put key value =>
      simp [Entry.write, Db.apply, Db.setFamily, Db.setOverwritten, hr.data, hr.overwritten]
    | singleDelete key undefined =>
      simp only [Entry.write, Db.apply, hr.overwritten, hr.data]
      split <;> [cases undefined; skip] <;>
        simp [Db.setFamily, Db.setOverwritten, hr.overwritten]

/-! ## Logs that keep a queue -/

/-- The keys and values of a queue. -/
def Fifo.entries (f : Fifo) : List (Bytes × Bytes) :=
  (f.msgs.zipIdx f.lo).map fun m => (code m.2, m.1)

/-- The log leaves the messages of `f`. -/
structure Keeps (log : List Entry) (f : Fifo) : Prop where
  entries : survivors log = f.entries
  stored : ∀ h, Stored h (replay h log) f

namespace Keeps

variable {log : List Entry} {f : Fifo}

theorem nil : Keeps [] ⟨0, []⟩ where
  entries := rfl
  stored _ := ⟨rfl, fun _ hk => absurd hk Finmap.notMem_empty, Nat.zero_le _⟩

theorem top_le (h : Keeps log f) : f.top ≤ 2 ^ 64 := (h.stored 0).top_le

theorem put (h : Keeps log f) (htop : f.top < 2 ^ 64) (v : Bytes) :
    Keeps (log ++ [.put (code f.top) v]) (f.push v) where
  entries := by
    rw [survivors_put, h.entries]
    simp [Fifo.entries, Fifo.push, Fifo.top, List.zipIdx_append]
  stored fam := (h.stored fam).put htop (wrote_replay fam log (.put (code f.top) v))

theorem singleDelete (h : Keeps log f) (hne : f.msgs ≠ []) (undefined : Option Bytes) :
    Keeps (log ++ [.singleDelete (code f.lo) undefined]) (f.drop 1) where
  entries := by
    obtain ⟨m, rest, hm⟩ := List.exists_cons_of_ne_nil hne
    have htop := h.top_le
    simp only [Fifo.top, hm, List.length_cons] at htop
    rw [survivors_singleDelete, h.entries]
    simp only [Fifo.entries, Fifo.drop, hm, List.zipIdx_cons, List.map_cons, List.drop_one,
      List.tail_cons]
    rw [List.filter_cons_of_neg (by simp), List.filter_eq_self]
    -- all later keys differ from the first one
    intro e he
    obtain ⟨⟨v, i⟩, hi, rfl⟩ := List.mem_map.mp he
    have hlo := List.le_snd_of_mem_zipIdx hi
    have hhi := List.snd_lt_add_of_mem_zipIdx hi
    have hkey : code i ≠ code f.lo := fun heq => by
      have := code_injOn (Set.mem_Iio.mpr (by omega)) (Set.mem_Iio.mpr (by omega)) heq
      omega
    simpa using hkey
  stored fam :=
    (h.stored fam).singleDelete hne (wrote_replay fam log (.singleDelete (code f.lo) undefined))

/-- An empty queue starts again at zero. -/
theorem exists_normal (h : Keeps log f) :
    ∃ f', Keeps log f' ∧ (f'.msgs = [] → f'.lo = 0) := by
  by_cases hnil : f.msgs = []
  · refine ⟨⟨0, []⟩, ⟨?_, fun fam => ?_⟩, fun _ => rfl⟩
    · rw [h.entries, Fifo.entries, hnil]
      rfl
    · have hst := h.stored fam
      refine ⟨?_, hst.once, Nat.zero_le _⟩
      rw [hst.data, hnil]
      rfl
  · exact ⟨f, h, fun hno => absurd hno hnil⟩

theorem length_survivors (h : Keeps log f) : (survivors log).length = f.msgs.length := by
  rw [h.entries, Fifo.entries, List.length_map, List.length_zipIdx]

theorem lo_lt (h : Keeps log f) (hzero : f.msgs = [] → f.lo = 0) : f.lo < 2 ^ 64 := by
  have htop := h.top_le
  simp only [Fifo.top] at htop
  by_cases hnil : f.msgs = []
  · rw [hzero hnil]
    decide
  · have := List.length_pos_of_ne_nil hnil
    omega

theorem recovers (h : Keeps log f) {fam : Handle} {db : Db} (hdb : Recovers fam log db) :
    Stored fam db f where
  data := by rw [hdb.data]; exact (h.stored fam).data
  once := by rw [hdb.data, hdb.overwritten]; exact (h.stored fam).once
  top_le := h.top_le

end Keeps

/-- Every prefix of the log leaves a queue. -/
def GapFree (log : List Entry) : Prop := ∀ p, p <+: log → ∃ f, Keeps p f

theorem GapFree.concat {log : List Entry} {e : Entry} {f : Fifo} (h : GapFree log)
    (hf : Keeps (log ++ [e]) f) : GapFree (log ++ [e]) := by
  intro p hp
  rcases List.prefix_concat_iff.mp hp with rfl | hold
  · exact ⟨f, hf⟩
  · exact h p hold

/-! ## Incarnations -/

namespace Threads

variable {T : Type}

/-- What the clients of the object `q` keep to: `erase` gets keys that some `readNext` on the object
returned, and `maxKey` does not wrap around. The last key there is may still be used, unless the object
would have used all of them. -/
structure Tame (q : KueueImpl) (x : State T) (l : Label T) : Prop where
  room : ∀ state v, x.pc l.thread = .putNext state v →
    q.minKey.toNat + q.count.toInt.toNat + x.shared.puts.length
      < if q.minKey = 0 then 2 ^ 64 - 1 else 2 ^ 64
  erase : ∀ key, x.pc l.thread = .idle → l.choice.op = .erase key → x.shared.Returned key

/-- The writes `news` were logged since the log was `wal`. With them the whole log leaves `f`, and it
is what the Kind holds. -/
structure Logged (kd : KindImpl) (wal : List Write) (log : List Entry) (f : Fifo) (s : StoreImpl)
    (db : Db) (news : List Entry) : Prop extends s.OpenWith db where
  wal : db.wal = wal ++ news.map (Entry.write kd.handle)
  recovers : Recovers kd.handle (log ++ news) db
  gapFree : GapFree (log ++ news)
  keeps : Keeps (log ++ news) f

variable [DecidableEq T] {x y : State T} {l : Label T} {kd : KindImpl} {f₀ : Fifo} {lim : ℕ}
  {wal : List Write} {log news : List Entry}

/-- **One step.** It logs a put at the top, the removal of the oldest message, or nothing. -/
theorem Logged.step {db : Db} (h : Logged kd wal log (x.fifo f₀) x.shared.store db news)
    (hinv : Inv kd f₀ lim x) (hs : Step x l y) :
    ∃ db' news', Logged kd wal log (y.fifo f₀) y.shared.store db' news' := by
  obtain ⟨p', hmove, -⟩ := hs.move
  obtain ⟨db₁, db', hopen, hopen', -, hcommit⟩ := hinv.commit hmove
  obtain rfl : db = db₁ := h.db_eq hopen.txnDb
  -- a step that commits appends its write
  have happend : ∀ e : Entry, StoreImpl.Wrote (e.write kd.handle) db db' →
      Keeps (log ++ news ++ [e]) (y.fifo f₀) →
      ∃ db' news', Logged kd wal log (y.fifo f₀) y.shared.store db' news' := by
    intro e hw hkeeps
    refine ⟨db', news ++ [e], hopen', ?_, ?_, ?_, ?_⟩
    · rw [hw.wal, h.wal, List.append_assoc, List.map_append]
      rfl
    · rw [← List.append_assoc]
      exact h.recovers.wrote e hw
    · rw [← List.append_assoc]
      exact h.gapFree.concat hkeeps
    · rw [← List.append_assoc]
      exact hkeeps
  cases hcommit with
  | nothing _ hfifo hdb =>
    refine ⟨db', news, hopen', hdb.wal.trans h.wal, ⟨?_, ?_⟩, h.gapFree, ?_⟩
    · rw [hdb.data]
      exact h.recovers.data
    · rw [hdb.overwritten]
      exact h.recovers.overwritten
    · rw [hfifo]
      exact h.keeps
  | put v _ hfifo htop hw =>
    refine happend (.put (code (x.fifo f₀).top) v) hw ?_
    rw [hfifo]
    exact h.keeps.put htop v
  | singleDelete undefined _ hfifo hne hw =>
    refine happend (.singleDelete (code (x.fifo f₀).lo) undefined) hw ?_
    rw [hfifo]
    exact h.keeps.singleDelete hne undefined

/-- **Every run** of an object that was built on a gap-free log keeps the log gap-free. -/
theorem Logged.run (lim : ℕ) {db₀ : Db} {q : KueueImpl} {s : StoreImpl} (hlog : GapFree log)
    (hkeeps : Keeps log f₀) (hrep : KueueImpl.Rep kd (q, s) f₀) (hlim : Limit f₀ lim)
    (htop : f₀.top ≤ lim) (hopen : s.OpenWith db₀) (hrec : Recovers kd.handle log db₀)
    {ls : List (Label T)}
    (hrun : Run (guarded (Allowed f₀ lim) Step) (State.start T q s) ls x) :
    ∃ db news, Logged kd db₀.wal log (x.fifo f₀) x.shared.store db news := by
  have hf : (State.start T q s).fifo f₀ = f₀ := by simp [State.fifo, State.start]
  refine (hrun.invariant (P := fun x => Inv kd f₀ lim x ∧
      ∃ db news, Logged kd db₀.wal log (x.fifo f₀) x.shared.store db news)
    (fun x l y hx hst => ?_) ⟨Inv.start hrep hlim htop, db₀, [], hopen, ?_, ?_, ?_, ?_⟩).2
  · obtain ⟨hinv, db, news, hlogged⟩ := hx
    exact ⟨hinv.step hst.1 hst.2, hlogged.step hinv hst.2⟩
  · simp
  · rw [List.append_nil]
    exact hrec
  · rw [List.append_nil]
    exact hlog
  · rw [List.append_nil, hf]
    exact hkeeps

end Threads

/-- One object and what its threads write: built on a store whose Kind holds what the log wrote, with
reads that succeeded and fewer than `2 ^ 63` messages, and used up to any step. -/
inductive Incarnation (log : List Entry) : List Entry → Prop
  | mk {T : Type} [DecidableEq T] {s s' : StoreImpl} {db db' db'' : Db} {aKind aMin aMax : Answers}
      {id : Bytes} {q : KueueImpl} {kd : KindImpl} {ls : List (Threads.Label T)} {x : Threads.State T}
      {news : List Entry} (hstore : s.OpenWith db)
      (hnew : KueueImpl.new aKind aMin aMax id s = .ok (q, s')) (hvalid : q.isValid_ = true)
      (hmin : aMin.seek = none) (hmax : aMax.seek = none) (hopen : s'.OpenWith db')
      (hkind : q.queueKind = some (.impl kd)) (hrec : Recovers kd.handle log db')
      (hlen : (survivors log).length < 2 ^ 63)
      (hrun : Run (guarded (Threads.Tame q) Threads.Step) (Threads.State.start T q s') ls x)
      (hopen' : x.shared.store.OpenWith db'')
      (hwal : db''.wal = db'.wal ++ news.map (Entry.write kd.handle)) : Incarnation log news

/-- The logs that a queue can have. -/
inductive History : List Entry → Prop
  | empty : History []
  /-- A crash loses the end of the log. -/
  | crash {log p : List Entry} (h : History log) (hp : p <+: log) : History p
  | live {log news : List Entry} (h : History log) (hi : Incarnation log news) : History (log ++ news)

/-- **One incarnation.** -/
theorem GapFree.incarnation {log news : List Entry} (h : GapFree log) (hi : Incarnation log news) :
    GapFree (log ++ news) := by
  obtain ⟨hstore, hnew, hvalid, hmin, hmax, hopen, hkind, hrec, hlen, hrun, hopen', hwal⟩ := hi
  rename_i T _ s s' db db' db'' aKind aMin aMax id q kd ls x
  obtain ⟨f, hkeeps⟩ := h log (List.prefix_refl _)
  obtain ⟨f₀, hkeeps₀, hzero⟩ := hkeeps.exists_normal
  have hbuilt := KueueImpl.new_built hstore hnew hopen hkind
  have hrep := (KueueImpl.init_rep hopen (hkeeps₀.recovers hrec) hzero
    (hbuilt.init (.inl ⟨hmin, hmax⟩) (.inl hvalid)) hvalid).1
  rw [hkeeps₀.length_survivors] at hlen
  -- the bound of the clients is one on the numbers of the keys
  have hlo : q.minKey.toNat = f₀.lo := by
    rw [show q.minKey = _ from hrep.minKey, UInt64.toNat_ofNat_of_lt' (hkeeps₀.lo_lt hzero)]
  have hcount : q.count.toInt.toNat = f₀.msgs.length := by
    rw [hrep.count_toInt hlen, Int.toNat_natCast]
  have hstart : q.minKey = 0 ↔ f₀.lo = 0 := by
    rw [← hlo, ← UInt64.toNat_inj]
    rfl
  have htop := hkeeps₀.top_le
  simp only [Fifo.top] at htop
  obtain ⟨db₁, news₁, hlogged⟩ := Threads.Logged.run
    (if q.minKey = 0 then 2 ^ 64 - 1 else 2 ^ 64) h hkeeps₀ hrep
    ⟨by split_ifs <;> omega, by
      split_ifs with h0
      · exact .inr (by decide)
      · exact .inl (Nat.pos_of_ne_zero fun h0' => h0 (hstart.mpr h0'))⟩
    (by
      simp only [Fifo.top]
      split_ifs with h0
      · have := hstart.mp h0
        omega
      · exact htop) hopen hrec
    (hrun.mono fun x l y hst => ⟨⟨fun state v hp => by
      have := hst.1.room state v hp
      rw [hlo, hcount] at this
      exact this, hst.1.erase⟩, hst.2⟩)
  obtain rfl : db₁ = db'' := hlogged.db_eq hopen'.txnDb
  have hnews : news₁ = news := by
    have heq := List.append_cancel_left (hlogged.wal.symm.trans hwal)
    exact List.map_injective_iff.mpr (Entry.write_injective kd.handle) heq
  rw [← hnews]
  exact hlogged.gapFree

theorem History.gapFree {log : List Entry} (h : History log) : GapFree log := by
  induction h with
  | empty =>
    intro p hp
    rw [List.prefix_nil.mp hp]
    exact ⟨_, Keeps.nil⟩
  | crash _ hp ih => exact fun p' hp' => ih p' (hp'.trans hp)
  | live _ hi ih => exact ih.incarnation hi

/-! ## Delivery -/

namespace KueueImpl

/-- Successive calls of `take`, each with the answers of RocksDB to it. -/
def takes : List Answers → KueueImpl → StoreImpl → Except Halt (List Reply × KueueImpl × StoreImpl)
  | [], q, s => return ([], q, s)
  | a :: as, q, s => do
      let (r, q, s) ← q.take a (some Status.ok) (some 0) s
      let (rs, q, s) ← takes as q s
      return (r :: rs, q, s)

/-- The reply that delivers a message. -/
def delivered (m : Bytes) : Reply :=
  { status := some Status.ok, valLen := some m.length, value := StoreImpl.buffer m }

variable {kd : KindImpl} {q : KueueImpl} {s : StoreImpl} {f : Fifo}

theorem take_delivers (h : Rep kd (q, s) f) (hv : kd.isValid = true) {a : Answers}
    (ha : StoreImpl.Faultless a) {m : Bytes} {rest : List Bytes} (hm : f.msgs = m :: rest)
    (hlen : f.msgs.length < 2 ^ 63) :
    ∃ q' s', q.take a (some Status.ok) (some 0) s = .ok (delivered m, q', s') ∧
      Rep kd (q', s') (f.drop 1) := by
  obtain ⟨db, hopen, hst⟩ := h.stored
  have hvalid : q.isValid_ = true := h.valid
  have hcount : ¬ q.count = 0 := by
    intro h0
    have hzero : (0 : Int64).toInt = 0 := rfl
    have hint := h.count_toInt hlen
    rw [h0, hzero, hm, List.length_cons] at hint
    omega
  obtain ⟨s₁, hremove⟩ := StoreImpl.singleRemoveIfPresent_faultless hopen ha hv Status.ok 0
    (hst.lookup_head hm)
  have htake : q.takeNow a (some Status.ok) (some 0) s = .ok (delivered m, q.removed, s₁) := by
    simp only [takeNow, h.getKindRef_eq, ok_bind, localState, Option.getD_some, h.key_min, hremove,
      if_true]
    rfl
  obtain ⟨r, q', s', f', hrun, hrep, c, hc, hdone, -⟩ := takeNow_rep h a (some Status.ok) (some 0)
  cases htake.symm.trans hrun
  obtain ⟨_, _, -, -, -, rfl⟩ := hdone (Option.some.inj hc).symm
  exact ⟨q.removed, s₁, by simp only [take, hvalid, if_true, if_neg hcount, htake], hrep⟩

/-- As many takes as there are messages deliver them in their order. -/
theorem takes_deliver (h : Rep kd (q, s) f) (hv : kd.isValid = true)
    (hlen : f.msgs.length < 2 ^ 63) (as : List Answers) (has : ∀ a ∈ as, StoreImpl.Faultless a)
    (hle : as.length ≤ f.msgs.length) :
    ∃ q' s', takes as q s = .ok ((f.msgs.take as.length).map delivered, q', s') ∧
      Rep kd (q', s') (f.drop as.length) := by
  induction as generalizing q s f with
  | nil => exact ⟨q, s, rfl, by simpa using h⟩
  | cons a as ih =>
    obtain ⟨m, rest, hm⟩ := List.exists_cons_of_length_pos (Nat.lt_of_lt_of_le (Nat.succ_pos _) hle)
    obtain ⟨q₁, s₁, htake, hrep₁⟩ := take_delivers h hv (has a List.mem_cons_self) hm hlen
    have hdrop : (f.drop 1).msgs = rest := by simp [Fifo.drop, hm]
    rw [hm, List.length_cons] at hlen hle
    obtain ⟨q', s', htakes, hrep'⟩ := ih hrep₁ (by rw [hdrop]; omega)
      (fun a' ha' => has a' (List.mem_cons_of_mem _ ha')) (by rw [hdrop]; simpa using hle)
    refine ⟨q', s', ?_, ?_⟩
    · simp only [takes, htake, ok_bind, htakes, hdrop, hm, List.length_cons, List.take_succ_cons,
        List.map_cons]
      rfl
    · rw [Fifo.drop_drop, Nat.add_comm] at hrep'
      exact hrep'

/-- After the last message there is nothing to take. -/
theorem take_blocked (h : Rep kd (q, s) f) (hnil : f.msgs = []) (a : Answers) (status : Option ℤ)
    (valLen : Option ℕ) : q.take a status valLen s = .error .blocked := by
  have hvalid : q.isValid_ = true := h.valid
  have hcount : q.count = 0 := by
    rw [show q.count = _ from h.count, hnil]
    rfl
  simp only [take, hvalid, if_true, if_pos hcount]

end KueueImpl

/-! ## Recovery -/

/-- The object `q`, with the store `s`, holds the survivors of the log `p`, whose first key has the
number `lo`. -/
structure Rebuilt (p : List Entry) (lo : ℕ) (q : KueueImpl) (s : StoreImpl) : Prop where
  valid : q.isValid_ = true
  count : q.count.toInt = (survivors p).length
  minKey : q.minKey = UInt64.ofNat lo
  /-- It is zero if the last key there is holds a message. -/
  maxKey : q.maxKey = UInt64.ofNat (lo + (survivors p).length)
  /-- Takes deliver the survivors in the order of their puts, and nothing else. -/
  takes : ∀ as : List Answers, (∀ a ∈ as, StoreImpl.Faultless a) →
    as.length ≤ (survivors p).length →
    ∃ q' s', KueueImpl.takes as q s
        = .ok (((survivors p).take as.length).map fun m => KueueImpl.delivered m.2, q', s') ∧
      (as.length = (survivors p).length →
        ∀ a status valLen, q'.take a status valLen s' = .error .blocked)

/-- What can be recovered from the log `p`. -/
structure Restored (p : List Entry) (lo : ℕ) : Prop where
  empty : survivors p = [] → lo = 0
  top_le : lo + (survivors p).length ≤ 2 ^ 64
  /-- The live keys are the codes of an interval. -/
  keys : (survivors p).map Prod.fst = (List.range' lo (survivors p).length).map code
  /-- A Kind that holds what the log wrote holds the survivors. -/
  live : ∀ fam db, Recovers fam p db → ∀ k v, (db.data fam).lookup k = some v ↔ (k, v) ∈ survivors p
  card : ∀ fam db, Recovers fam p db → (db.data fam).keys.card = (survivors p).length
  /-- Building an object on such a Kind, with reads that succeed. -/
  rebuilt : ∀ {s s' : StoreImpl} {db db' : Db} {aKind aMin aMax : Answers} {id : Bytes}
    {q : KueueImpl} {kd : KindImpl}, s.OpenWith db →
    KueueImpl.new aKind aMin aMax id s = .ok (q, s') → s'.OpenWith db' →
    q.queueKind = some (.impl kd) → Recovers kd.handle p db' →
    aMin.iterator = true → aMin.seek = none → aMax.iterator = true → aMax.seek = none →
    Rebuilt p lo q s'

/-- A Kind that stores a queue holds its entries. -/
theorem Stored.lookup_iff {fam : Handle} {db : Db} {f : Fifo} (h : Stored fam db f) (k v : Bytes) :
    (db.data fam).lookup k = some v ↔ (k, v) ∈ f.entries := by
  simp only [Fifo.entries, List.mem_map, Prod.mk.injEq, h.data]
  constructor
  · intro hv
    obtain ⟨i, hlo, hhi, rfl⟩ := FMap.mem_segment.mp (Finmap.mem_iff.mpr ⟨v, hv⟩)
    obtain ⟨j, rfl⟩ := Nat.exists_eq_add_of_le hlo
    rw [FMap.lookup_segment h.injOn (by omega)] at hv
    exact ⟨(v, f.lo + j), List.mk_add_mem_zipIdx_iff_getElem?.mpr hv, rfl, rfl⟩
  · rintro ⟨⟨w, i⟩, hi, rfl, rfl⟩
    obtain ⟨j, rfl⟩ := Nat.exists_eq_add_of_le (List.le_snd_of_mem_zipIdx hi)
    have hj := List.mk_add_mem_zipIdx_iff_getElem?.mp hi
    rw [FMap.lookup_segment h.injOn (List.getElem?_eq_some_iff.mp hj).1]
    exact hj

theorem Keeps.rebuilt {p : List Entry} {f : Fifo} (h : Keeps p f) (hlen : f.msgs.length < 2 ^ 63)
    {kd : KindImpl} (hv : kd.isValid = true) {q : KueueImpl} {s : StoreImpl}
    (hrep : KueueImpl.Rep kd (q, s) f) : Rebuilt p f.lo q s where
  valid := hrep.valid
  count := by
    rw [h.length_survivors]
    exact hrep.count_toInt hlen
  minKey := hrep.minKey
  maxKey := by
    rw [h.length_survivors]
    exact hrep.maxKey
  takes as has hle := by
    have hmsgs : f.msgs = (survivors p).map Prod.snd := by
      simp [h.entries, Fifo.entries, Function.comp_def]
    rw [h.length_survivors] at hle ⊢
    obtain ⟨q', s', htakes, hrep'⟩ := KueueImpl.takes_deliver hrep hv hlen as has hle
    refine ⟨q', s', ?_, fun hall a status valLen => KueueImpl.take_blocked hrep' ?_ a status valLen⟩
    · rw [htakes, hmsgs, ← List.map_take, List.map_map]
      rfl
    · rw [hall]
      simp [Fifo.drop]

/-- **Recovery.** Every prefix of every log of a queue can be recovered from. -/
theorem queue_recovery {log p : List Entry} (h : History log) (hp : p <+: log)
    (hlen : (survivors p).length < 2 ^ 63) : ∃ lo, Restored p lo := by
  obtain ⟨f, hkeeps⟩ := h.gapFree p hp
  obtain ⟨f₀, hkeeps₀, hzero⟩ := hkeeps.exists_normal
  have hlength := hkeeps₀.length_survivors
  rw [hlength] at hlen
  refine ⟨f₀.lo, ?_⟩
  refine { empty := fun hnil => ?_, top_le := ?_, keys := ?_, live := fun fam db hrec k v => ?_,
           card := fun fam db hrec => ?_, rebuilt := ?_ }
  · rw [hnil] at hlength
    exact hzero (List.length_eq_zero_iff.mp hlength.symm)
  · rw [hlength]
    exact hkeeps₀.top_le
  · rw [hlength, hkeeps₀.entries, Fifo.entries, List.map_map, ← List.zipIdx_map_snd, List.map_map]
    rfl
  · rw [hkeeps₀.entries]
    exact (hkeeps₀.recovers hrec).lookup_iff k v
  · rw [(hkeeps₀.recovers hrec).data, hlength]
    exact FMap.card_keys_segment (hkeeps₀.recovers hrec).injOn
  · intro s s' db db' aKind aMin aMax id q kd hstore hnew hopen hkind hrec hitMin hmin hitMax hmax
    have hbuilt := KueueImpl.new_built hstore hnew hopen hkind
    have hst := hkeeps₀.recovers hrec
    have hq := hbuilt.init (.inl ⟨hmin, hmax⟩) (.inr ⟨hitMin, hitMax⟩)
    have hvalid : q.isValid_ = true := by
      rw [hq, KueueImpl.init_stored hst hzero, decide_eq_true_eq, ge_iff_le, Int64.le_iff_toInt_le,
        Int64.toInt_ofInt_of_le (by omega) (by omega)]
      exact Int.natCast_nonneg _
    exact hkeeps₀.rebuilt hlen hbuilt.kind (KueueImpl.init_rep hopen hst hzero hq hvalid).1

/-- A test that is enough for `Tame` on a queue that was just created. -/
private def tame (x : Threads.State Bool) (l : Threads.Label Bool) : Bool :=
  decide (x.shared.puts.length < 2 ^ 64 - 1) &&
    match l.choice.op with
    | .erase _ => false
    | _ => true

private theorem tame_spec (x : Threads.State Bool) (l : Threads.Label Bool) (h : tame x l = true) :
    Threads.Tame KueueImpl.created.1 x l := by
  simp only [tame, Bool.and_eq_true, decide_eq_true_eq] at h
  refine ⟨fun _ _ _ => ?_, fun key _ hop => ?_⟩
  · show 0 + 0 + x.shared.puts.length < 2 ^ 64 - 1
    omega
  · rw [hop] at h
    exact nomatch h.2

/-- A message is put, and the process dies when a `take` has just removed it from the Kind. -/
private def putRemove : List (Threads.Label Bool) :=
  List.replicate 9 ⟨false, { op := .put Status.ok [7] }⟩ ++
    List.replicate 4 ⟨true, { op := .consume { consumer := .take } }⟩

private def putRemoved : Threads.State Bool :=
  (follow Threads.State.next tame
    (Threads.State.start Bool KueueImpl.created.1 KueueImpl.created.2) putRemove).getD
    (Threads.State.start Bool {} KueueImpl.created.2)

/-- What it leaves, and what is left if the removal is lost. -/
theorem queue_recovery_put_remove :
    putRemoved.shared.queue.count = 1 ∧
      (∃ lo, Restored [.put (code 0) [7], .singleDelete (code 0) none] lo) ∧
      survivors [.put (code 0) [7]] = [(code 0, [7])] ∧ ∃ lo, Restored [.put (code 0) [7]] lo := by
  have hrun : Run (guarded (Threads.Tame KueueImpl.created.1) Threads.Step)
      (Threads.State.start Bool KueueImpl.created.1 KueueImpl.created.2) putRemove putRemoved := by
    have hfollow : follow Threads.State.next tame
        (Threads.State.start Bool KueueImpl.created.1 KueueImpl.created.2) putRemove
          = some putRemoved := rfl
    exact Run.guarded_of_follow tame_spec hfollow
  have hcreated : StoreImpl.created.OpenWith (Db.created.beginTransaction true none).2 := ⟨rfl, rfl⟩
  have hlife : Incarnation [] [.put (code 0) [7], .singleDelete (code 0) none] :=
    .mk hcreated KueueImpl.new_created rfl rfl rfl ⟨rfl, rfl⟩ rfl ⟨rfl, rfl⟩ (by decide) hrun
      ⟨rfl, rfl⟩ rfl
  have hhistory : History [.put (code 0) [7], .singleDelete (code 0) none] := .live .empty hlife
  exact ⟨rfl, queue_recovery hhistory (List.prefix_refl _) (by decide), rfl,
    queue_recovery hhistory ⟨_, rfl⟩ (by decide)⟩

end Librocks
