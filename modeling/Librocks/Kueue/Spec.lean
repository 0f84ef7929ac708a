import Librocks.Kueue.Defs
import Librocks.Store.Refinement

/-!
# What one call does to a queue

The abstract queue `Fifo` is a list of messages together with the number of its first key. `Rep` says
how a queue object represents it: the Kind holds the segment of the messages, `minKey` and `maxKey`
are its two ends and `count` its length, each modulo the width of its type.

`Fifo.Step` is the first-in first-out discipline, read off the call and its answer. The spec lemmas
`put_rep`, `takeNow_rep`, `readNow_rep`, `erase_rep` and `clear_rep` show that each operation follows
it from every represented state, whatever the store answers; `run_rep` puts them together.
-/

namespace Librocks

open Rocks

/-- An abstract queue: the number of the first key and the messages from the oldest on. -/
structure Fifo where
  lo : ℕ
  msgs : List Bytes
  deriving DecidableEq, Repr

namespace Fifo

/-- The number of the first free key. -/
def top (f : Fifo) : ℕ := f.lo + f.msgs.length

def push (f : Fifo) (v : Bytes) : Fifo := { f with msgs := f.msgs ++ [v] }

/-- Drop the `n` oldest messages. -/
def drop (f : Fifo) (n : ℕ) : Fifo := ⟨f.lo + n, f.msgs.drop n⟩

@[simp] theorem top_push (f : Fifo) (v : Bytes) : (f.push v).top = f.top + 1 := by
  simp [top, push]
  omega

@[simp] theorem drop_zero (f : Fifo) : f.drop 0 = f := by
  simp [drop]

theorem drop_drop (f : Fifo) (m n : ℕ) : (f.drop m).drop n = f.drop (m + n) := by
  simp [drop, List.drop_drop, Nat.add_assoc]

theorem top_drop {f : Fifo} {n : ℕ} (hn : n ≤ f.msgs.length) : (f.drop n).top = f.top := by
  simp [top, drop]
  omega

end Fifo

/-! ## The Kind of a queue -/

/-- The family `h` holds exactly the messages of `f`, each key put once. -/
structure Stored (h : Handle) (db : Db) (f : Fifo) : Prop where
  data : db.data h = FMap.segment code f.lo f.msgs
  once : ∀ k ∈ db.data h, db.overwritten h k = false
  top_le : f.top ≤ 2 ^ 64

namespace Stored

/-- The store is open and its Kind `kd` holds the messages of `f`. -/
def In (kd : KindImpl) (s : StoreImpl) (f : Fifo) : Prop :=
  ∃ db, s.OpenWith db ∧ Stored kd.handle db f

variable {h : Handle} {db db' : Db} {f : Fifo}

/-- Two families with the same content store the same messages. -/
theorem of_eq {h' : Handle} (hst : Stored h db f) (hdata : db'.data h' = db.data h)
    (hover : db'.overwritten h' = db.overwritten h) : Stored h' db' f where
  data := by rw [hdata]; exact hst.data
  once := by rw [hdata, hover]; exact hst.once
  top_le := hst.top_le

/-- A database with the same content stores the same messages. -/
theorem congr (hst : Stored h db f) (hdata : db'.data = db.data)
    (hover : db'.overwritten = db.overwritten) : Stored h db' f :=
  hst.of_eq (by rw [hdata]) (by rw [hover])

/-- An empty family stores a queue that starts at zero. -/
theorem normal (hst : Stored h db f) :
    ∃ f', Stored h db f' ∧ (f'.msgs = [] → f'.lo = 0) ∧ f'.top ≤ f.top := by
  by_cases hnil : f.msgs = []
  · refine ⟨⟨0, []⟩, ⟨?_, hst.once, Nat.zero_le _⟩, fun _ => rfl, Nat.zero_le _⟩
    rw [hst.data, hnil]
    rfl
  · exact ⟨f, hst, fun hno => absurd hno hnil, le_rfl⟩

theorem injOn (hst : Stored h db f) : Set.InjOn code (Set.Ico f.lo f.top) :=
  code_injOn.mono fun _ hi => lt_of_lt_of_le hi.2 hst.top_le

/-- The message under the first key. -/
theorem lookup_head (hst : Stored h db f) {m : Bytes} {rest : List Bytes}
    (hm : f.msgs = m :: rest) : (db.data h).lookup (code f.lo) = some m := by
  rw [hst.data, hm]
  exact FMap.lookup_segment_head _ _ _

/-- What is stored under the first key is the oldest message. -/
theorem exists_head (hst : Stored h db f) {v : Bytes}
    (hv : (db.data h).lookup (code f.lo) = some v) : ∃ rest, f.msgs = v :: rest := by
  cases hm : f.msgs with
  | cons m rest =>
    rw [hst.lookup_head hm] at hv
    obtain rfl := Option.some.inj hv
    exact ⟨rest, rfl⟩
  | nil =>
    rw [hst.data, hm, FMap.segment_nil, Finmap.lookup_empty] at hv
    cases hv

/-- The first key is taken. -/
theorem head_mem (hst : Stored h db f) (hne : f.msgs ≠ []) : code f.lo ∈ db.data h := by
  obtain ⟨m, rest, hm⟩ := List.exists_cons_of_ne_nil hne
  exact Finmap.mem_iff.mpr ⟨m, hst.lookup_head hm⟩

/-- The key after the last one is free. -/
theorem top_notMem (hst : Stored h db f) (htop : f.top < 2 ^ 64) : code f.top ∉ db.data h := by
  have hinj : Set.InjOn code (Set.Icc f.lo f.top) :=
    code_injOn.mono fun _ hi => lt_of_le_of_lt hi.2 htop
  rw [hst.data]
  exact FMap.notMem_segment (I := Set.Icc f.lo f.top) hinj
    (fun i h₁ h₂ => ⟨h₁, le_of_lt h₂⟩) ⟨Nat.le_add_right _ _, le_rfl⟩ (.inr le_rfl)

/-- A committed put of the first free key appends. -/
theorem put (hst : Stored h db f) {v : Bytes} (htop : f.top < 2 ^ 64)
    (hw : StoreImpl.Wrote (.put h (code f.top) v) db db') : Stored h db' (f.push v) := by
  have hinj : Set.InjOn code (Set.Icc f.lo f.top) :=
    code_injOn.mono fun _ hi => lt_of_le_of_lt hi.2 htop
  have hfree := hst.top_notMem htop
  have hdata : db'.data h = (db.data h).insert (code f.top) v := by
    rw [hw.put_data, Function.update_self]
  refine { data := ?_, once := fun k hk => ?_, top_le := by rw [Fifo.top_push]; omega }
  · rw [hdata, hst.data]
    exact (FMap.segment_concat v hinj).symm
  · have hover : db'.overwritten h k
        = if k = code f.top then ((db.data h).lookup (code f.top)).isSome
          else db.overwritten h k := by
      rw [hw.overwritten]
      simp [Db.apply, Db.setFamily, Db.setOverwritten, Function.update_apply]
    rw [hover]
    split_ifs with hkey
    · rw [Finmap.lookup_eq_none.mpr hfree]
      rfl
    · rw [hdata, Finmap.mem_insert] at hk
      exact hst.once k (hk.resolve_left hkey)

/-- A committed `SingleDelete` of the first key drops the oldest message. -/
theorem singleDelete (hst : Stored h db f) {undefined : Option Bytes} (hne : f.msgs ≠ [])
    (hw : StoreImpl.Wrote (.singleDelete h (code f.lo) undefined) db db') :
    Stored h db' (f.drop 1) := by
  obtain ⟨m, rest, hm⟩ := List.exists_cons_of_ne_nil hne
  have honce := hst.once _ (hst.head_mem hne)
  have hdata : db'.data h = (db.data h).erase (code f.lo) := by
    rw [hw.singleDelete_data honce, Function.update_self]
  have hinj := hst.injOn
  refine { data := ?_, once := fun k hk => ?_, top_le := ?_ }
  · rw [hdata, hst.data]
    simp only [Fifo.top, hm] at hinj
    simp only [Fifo.drop, hm, List.drop_one, List.tail_cons]
    exact FMap.segment_erase_head hinj
  · have hover : db'.overwritten h k
        = if k = code f.lo then false else db.overwritten h k := by
      rw [hw.overwritten]
      simp [Db.apply, honce, Db.setFamily, Db.setOverwritten, Function.update_apply]
    rw [hover]
    split_ifs with hkey
    · rfl
    · rw [hdata, Finmap.mem_erase] at hk
      exact hst.once k hk.2
  · rw [Fifo.top_drop (List.length_pos_of_ne_nil hne)]
    exact hst.top_le

end Stored

namespace KueueImpl

theorem queueKind_of_getKindRef {q : KueueImpl} {kind : Kind} (h : q.getKindRef = .ok kind) :
    q.queueKind = some kind := by
  unfold getKindRef at h
  split at h
  · next k hk =>
    cases h
    exact hk
  · cases h

/-- The queue object and its store represent the abstract queue `f` in the Kind `kd`. -/
structure Rep (kd : KindImpl) (x : KueueImpl × StoreImpl) (f : Fifo) : Prop where
  valid : x.1.isValid_ = true
  kind : x.1.queueKind = some (.impl kd)
  stored : Stored.In kd x.2 f
  minKey : x.1.minKey = UInt64.ofNat f.lo
  maxKey : x.1.maxKey = UInt64.ofNat f.top
  count : x.1.count = Int64.ofInt f.msgs.length

namespace Rep

variable {kd : KindImpl} {q : KueueImpl} {s : StoreImpl} {f : Fifo}

theorem getKindRef_eq (h : Rep kd (q, s) f) : q.getKindRef = .ok (.impl kd) := by
  have hkind : q.queueKind = some (.impl kd) := h.kind
  simp only [getKindRef, hkind]

theorem key_min (h : Rep kd (q, s) f) : putU64BE q.minKey = code f.lo := by
  rw [code, ← h.minKey]

theorem key_max (h : Rep kd (q, s) f) : putU64BE q.maxKey = code f.top := by
  rw [code, ← h.maxKey]

/-- A count other than zero means that there is a message. -/
theorem msgs_ne_nil (h : Rep kd (q, s) f) (hc : q.count ≠ 0) : f.msgs ≠ [] := by
  intro hnil
  refine hc ?_
  rw [show q.count = _ from h.count, hnil]
  rfl

theorem msgs_ne_nil_of_pos (h : Rep kd (q, s) f) (hc : q.count > 0) : f.msgs ≠ [] :=
  h.msgs_ne_nil fun h0 => by rw [h0] at hc; exact absurd hc (by decide)

/-- As long as the count does not overflow it is the number of messages. -/
theorem count_toInt (h : Rep kd (q, s) f) (hlen : f.msgs.length < 2 ^ 63) :
    q.count.toInt = f.msgs.length := by
  rw [show q.count = _ from h.count]
  exact Int64.toInt_ofInt_of_le (by omega) (by omega)

theorem msgs_eq_nil (h : Rep kd (q, s) f) (hlen : f.msgs.length < 2 ^ 63) (hc : ¬ q.count > 0) :
    f.msgs = [] := by
  have hle : ¬ (0 : ℤ) < q.count.toInt := fun hpos => hc (Int64.lt_iff_toInt_lt.mpr hpos)
  rw [h.count_toInt hlen] at hle
  exact List.length_eq_zero_iff.mp (by omega)

/-- The store may change in whatever leaves its content. -/
theorem untouched (h : Rep kd (q, s) f) {s' : StoreImpl}
    (hs : Stored.In kd s' f) : Rep kd (q, s') f :=
  { h with stored := hs }

/-- A successful removal of the oldest message. -/
theorem removed (h : Rep kd (q, s) f) {s' : StoreImpl} (hne : f.msgs ≠ [])
    (hs : Stored.In kd s' (f.drop 1)) :
    Rep kd (q.removed, s') (f.drop 1) := by
  have hpos := List.length_pos_of_ne_nil hne
  refine { valid := h.valid, kind := h.kind, stored := hs, minKey := ?_, maxKey := ?_, count := ?_ }
  · rw [show q.removed.minKey = q.minKey + 1 from rfl, show q.minKey = _ from h.minKey]
    exact (UInt64.ofNat_add f.lo 1).symm
  · rw [Fifo.top_drop hpos]
    exact h.maxKey
  · rw [show q.removed.count = q.count - 1 from rfl, show q.count = _ from h.count,
      show (1 : Int64) = Int64.ofInt 1 from rfl, ← Int64.ofInt_sub]
    congr 1
    rw [Fifo.drop, List.length_drop]
    exact (Nat.cast_pred hpos).symm

end Rep

end KueueImpl

/-! ## The discipline -/

/-- The first-in first-out discipline, as the caller sees it. A reader of the oldest message also gets
its key. `clear` may stop early, with a code other than Ok; below `2 ^ 63` messages it does not stop
for any other reason. -/
def Fifo.Step (f : Fifo) (l : KueueImpl.Label) (f' : Fifo) : Prop :=
  match l.call, l.outcome with
  | .put status v, .reply r => Reports status r.status (f' = f.push v) (f' = f)
  | .take status _, .reply r | .takeTimed status _ _, .reply r =>
      Reports status r.status
        (∃ m rest, f.msgs = m :: rest ∧ r.value = StoreImpl.buffer m ∧ r.valLen = some m.length ∧
          f' = f.drop 1)
        (f' = f)
  | .readNext status _ pKey _, .reply r =>
      Reports status r.status
        (∃ m rest, f.msgs = m :: rest ∧ r.value = StoreImpl.buffer m ∧ r.valLen = some m.length ∧
          r.pKey = pKey.map (fun _ => UInt64.ofNat f.lo) ∧ f' = f)
        (r.pKey = pKey ∧ r.value = none ∧ f' = f)
  | .erase key, .erased true => key = UInt64.ofNat f.lo ∧ f.msgs ≠ [] ∧ f' = f.drop 1
  | .erase _, .erased false => f' = f
  | .clear status, .reply r =>
      ∃ n ≤ f.msgs.length, f' = f.drop n ∧
        (f.msgs.length < 2 ^ 63 →
          f'.msgs = [] ∨ ∃ c, c ≠ Status.ok ∧ r.status = assign c status)
  | _, _ => False

/-! ## Store calls on the Kind of a queue -/

namespace Stored

variable {kd : KindImpl} {s : StoreImpl} {db : Db} {f : Fifo}

theorem In.of_untouched {s' : StoreImpl} {db' : Db} (hst : Stored kd.handle db f)
    (hu : StoreImpl.Untouched s db s' db') : In kd s' f :=
  ⟨db', hu.toOpenWith, hst.congr hu.content.data hu.content.overwritten⟩

/-- `put` under the first free key. -/
theorem In.put (h : In kd s f) (htop : f.top < 2 ^ 64) (a : Answers) (c₀ : ℤ) (v : Bytes) :
    ∃ c s', s.put a (some c₀) (.impl kd) (some (code f.top)) v = .ok (some c, s') ∧
      ((c ≠ Status.ok ∧ In kd s' f) ∨ (c = Status.ok ∧ In kd s' (f.push v))) := by
  obtain ⟨db, hopen, hst⟩ := h
  obtain ⟨_, s', db', hrun, hres⟩ :=
    StoreImpl.voidWrite_open hopen a (fun key fam => .put fam key v) (some c₀) (.impl kd)
      (some (code f.top))
  rcases hres with ⟨c, hc, rfl, hu⟩ | ⟨k, key, hk, hkey, rfl, hcom⟩
  · exact ⟨c, s', hrun, .inl ⟨hc, .of_untouched hst hu⟩⟩
  · cases hk
    cases hkey
    exact ⟨_, s', hrun, .inr ⟨rfl, db', hcom.toOpenWith, hst.put htop hcom.toWrote⟩⟩

/-- `singleRemove` of the first key, when there is a message under it. -/
theorem In.singleRemove (h : In kd s f) (hne : f.msgs ≠ []) (a : Answers) (c₀ : ℤ) :
    ∃ c s', s.singleRemove a (some c₀) (.impl kd) (some (code f.lo)) = .ok (some c, s') ∧
      ((c ≠ Status.ok ∧ In kd s' f) ∨ (c = Status.ok ∧ In kd s' (f.drop 1))) := by
  obtain ⟨db, hopen, hst⟩ := h
  obtain ⟨_, s', db', hrun, hres⟩ :=
    StoreImpl.voidWrite_open hopen a (fun key fam => .singleDelete fam key a.undefined) (some c₀)
      (.impl kd) (some (code f.lo))
  rcases hres with ⟨c, hc, rfl, hu⟩ | ⟨k, key, hk, hkey, rfl, hcom⟩
  · exact ⟨c, s', hrun, .inl ⟨hc, .of_untouched hst hu⟩⟩
  · cases hk
    cases hkey
    exact ⟨_, s', hrun, .inr ⟨rfl, db', hcom.toOpenWith, hst.singleDelete hne hcom.toWrote⟩⟩

/-- `singleRemoveIfPresent` of the first key: an Ok means that there was a message. -/
theorem In.singleRemoveIfPresent (h : In kd s f) (a : Answers) (c₀ : ℤ) (len : Option ℕ) :
    ∃ c r s', s.singleRemoveIfPresent a (some c₀) (.impl kd) len (some (code f.lo)) = .ok (r, s') ∧
      r.status = some c ∧
      ((c ≠ Status.ok ∧ In kd s' f) ∨
        (c = Status.ok ∧ ∃ m rest, f.msgs = m :: rest ∧ r.data = StoreImpl.buffer m ∧
          r.resultLen = some m.length ∧ In kd s' (f.drop 1))) := by
  obtain ⟨db, hopen, hst⟩ := h
  obtain ⟨r, s', db', hrun, hres⟩ :=
    StoreImpl.ifPresent_open hopen a (fun key fam => .singleDelete fam key a.undefined) (some c₀)
      (.impl kd) len (some (code f.lo))
  rcases hres with ⟨c, hc, hr, hu⟩ | ⟨k, key, m, hk, hkey, hr, hl, hdata, hlen, hcom⟩
  · exact ⟨c, r, s', hrun, hr, .inl ⟨hc, .of_untouched hst hu⟩⟩
  · cases hk
    cases hkey
    obtain ⟨rest, hm⟩ := hst.exists_head hl
    exact ⟨_, r, s', hrun, hr, .inr ⟨rfl, m, rest, hm, hdata, hlen, db', hcom.toOpenWith,
      hst.singleDelete (by simp [hm]) hcom.toWrote⟩⟩

/-- `get` of the first key: an Ok means that there was a message. -/
theorem In.get (h : In kd s f) (a : Answers) (c₀ : ℤ) (len : Option ℕ) :
    ∃ c r, s.get a (some c₀) (.impl kd) len (some (code f.lo)) = .ok (r, s) ∧ r.status = some c ∧
      ((c ≠ Status.ok ∧ r.data = none) ∨
        (c = Status.ok ∧ ∃ m rest, f.msgs = m :: rest ∧ r.data = StoreImpl.buffer m ∧
          r.resultLen = some m.length)) := by
  obtain ⟨db, hopen, hst⟩ := h
  obtain ⟨r, hrun, hres⟩ :=
    StoreImpl.get_open hopen a (some c₀) (.impl kd) len (some (code f.lo))
  rcases hres with ⟨c, hc, hr, hdata⟩ | ⟨k, key, m, hk, hkey, hr, hl, hdata, hlen⟩
  · exact ⟨c, r, hrun, hr, .inl ⟨hc, hdata⟩⟩
  · cases hk
    cases hkey
    obtain ⟨rest, hm⟩ := hst.exists_head hl
    exact ⟨_, r, hrun, hr, .inr ⟨rfl, m, rest, hm, hdata, hlen⟩⟩

end Stored

/-! ## The operations -/

namespace KueueImpl

variable {kd : KindImpl} {q : KueueImpl} {s : StoreImpl} {f : Fifo}

theorem put_rep (h : Rep kd (q, s) f) (htop : f.top < 2 ^ 64) (a : Answers) (status : Option ℤ)
    (v : Bytes) :
    ∃ st q' s' f', q.put a status v s = .ok (st, q', s') ∧ Rep kd (q', s') f' ∧
      Reports status st (f' = f.push v) (f' = f) := by
  obtain ⟨c, s', hrun, hres⟩ := h.stored.put htop a (status.getD Status.ok) v
  have hvalid : q.isValid_ = true := h.valid
  simp only [put, hvalid, if_true, h.getKindRef_eq, ok_bind, h.key_max, localState, hrun]
  rcases hres with ⟨hc, hin⟩ | ⟨rfl, hin⟩
  · have hne : some c ≠ some Status.ok := by simpa using hc
    simp only [if_neg hne]
    refine ⟨_, _, s', f, rfl, ?_, .of_undone hc rfl rfl⟩
    exact { h with valid := rfl, stored := hin, maxKey := by simpa using h.maxKey }
  · simp only [if_true]
    refine ⟨_, _, s', f.push v, rfl, ?_, .of_done rfl rfl⟩
    refine { valid := rfl, kind := h.kind, stored := hin, minKey := h.minKey, maxKey := ?_,
             count := ?_ }
    · rw [Fifo.top_push, UInt64.ofNat_add, ← h.maxKey]
      rfl
    · show q.count + 1 = _
      rw [show q.count = _ from h.count, show (1 : Int64) = Int64.ofInt 1 from rfl, ← Int64.ofInt_add]
      simp [Fifo.push]

theorem takeNow_rep (h : Rep kd (q, s) f) (a : Answers) (status : Option ℤ) (valLen : Option ℕ) :
    ∃ r q' s' f', q.takeNow a status valLen s = .ok (r, q', s') ∧ Rep kd (q', s') f' ∧
      Reports status r.status
        (∃ m rest, f.msgs = m :: rest ∧ r.value = StoreImpl.buffer m ∧ r.valLen = some m.length ∧
          f' = f.drop 1)
        (f' = f) := by
  obtain ⟨c, r, s', hrun, hr, hres⟩ :=
    h.stored.singleRemoveIfPresent a (status.getD Status.ok) valLen
  simp only [takeNow, h.getKindRef_eq, ok_bind, h.key_min, localState, hrun, hr]
  rcases hres with ⟨hc, hin⟩ | ⟨rfl, m, rest, hm, hdata, hlen, hin⟩
  · have hne : some c ≠ some Status.ok := by simpa using hc
    simp only [if_neg hne]
    exact ⟨_, q, s', f, rfl, h.untouched hin, .of_undone hc rfl rfl⟩
  · exact ⟨_, q.removed, s', f.drop 1, rfl, h.removed (by simp [hm]) hin,
      .of_done rfl ⟨m, rest, hm, hdata, hlen, rfl⟩⟩

theorem readNow_rep (h : Rep kd (q, s) f) (a : Answers) (status : Option ℤ) (valLen : Option ℕ)
    (pKey : Option UInt64) :
    ∃ r f', q.readNow a status valLen pKey s = .ok (r, q, s) ∧ Rep kd (q, s) f' ∧
      Reports status r.status
        (∃ m rest, f.msgs = m :: rest ∧ r.value = StoreImpl.buffer m ∧ r.valLen = some m.length ∧
          r.pKey = pKey.map (fun _ => UInt64.ofNat f.lo) ∧ f' = f)
        (r.pKey = pKey ∧ r.value = none ∧ f' = f) := by
  obtain ⟨c, r, hrun, hr, hres⟩ := h.stored.get a (status.getD Status.ok) valLen
  simp only [readNow, h.getKindRef_eq, ok_bind, h.key_min, localState, hrun, hr]
  rcases hres with ⟨hc, hdata⟩ | ⟨rfl, m, rest, hm, hdata, hlen⟩
  · have hne : some c ≠ some Status.ok := by simpa using hc
    simp only [if_neg hne]
    exact ⟨_, f, rfl, h, .of_undone hc rfl ⟨rfl, hdata, rfl⟩⟩
  · refine ⟨_, f, rfl, h, .of_done rfl ⟨m, rest, hm, hdata, hlen, ?_, rfl⟩⟩
    simp only [if_true, show q.minKey = _ from h.minKey]

/-- `erase` of any key, provided that a key equal to `minKey` has a message under it. -/
theorem erase_rep (h : Rep kd (q, s) f) (a : Answers) (key : UInt64)
    (hhead : key = q.minKey → f.msgs ≠ []) :
    ∃ b q' s' f', q.erase a key s = .ok (b, q', s') ∧ Rep kd (q', s') f' ∧
      (b = true → key = UInt64.ofNat f.lo ∧ f.msgs ≠ [] ∧ f' = f.drop 1) ∧
      (b = false → f' = f) := by
  have hvalid : q.isValid_ = true := h.valid
  by_cases hkey : key = q.minKey
  · subst hkey
    obtain ⟨c, s', hrun, hres⟩ := h.stored.singleRemove (hhead rfl) a Status.ok
    simp only [erase, hvalid, true_and, if_true, h.getKindRef_eq, ok_bind, h.key_min, hrun]
    rcases hres with ⟨hc, hin⟩ | ⟨rfl, hin⟩
    · have hne : some c ≠ some Status.ok := by simpa using hc
      simp only [if_neg hne]
      exact ⟨_, q, s', f, rfl, h.untouched hin, by simp [hc], fun _ => rfl⟩
    · exact ⟨_, q.removed, s', f.drop 1, rfl, h.removed (hhead rfl) hin,
        fun _ => ⟨h.minKey, hhead rfl, rfl⟩, by simp⟩
  · have hno : ¬ (q.isValid_ = true ∧ key = q.minKey) := fun hk => hkey hk.2
    exact ⟨false, q, s, f, by simp only [erase, if_neg hno]; rfl, h, by simp, fun _ => rfl⟩

/-- The loop of `clear` drops a prefix, and all of it when the turns suffice and nothing fails. -/
theorem clearLoop_rep (as : ℕ → Answers) (n i : ℕ) (c₀ : ℤ) (h : Rep kd (q, s) f) :
    ∃ c q' s' k, clearLoop as (.impl kd) n i (some c₀) q s = .ok (some c, q', s') ∧
      k ≤ f.msgs.length ∧ Rep kd (q', s') (f.drop k) ∧
      (f.msgs.length < 2 ^ 63 → f.msgs.length ≤ n → (f.drop k).msgs = [] ∨ c ≠ Status.ok) := by
  induction n generalizing i c₀ q s f with
  | zero =>
    refine ⟨c₀, q, s, 0, rfl, Nat.zero_le _, by rwa [Fifo.drop_zero], fun _ hn => .inl ?_⟩
    rw [Fifo.drop_zero]
    exact List.length_eq_zero_iff.mp (Nat.le_zero.mp hn)
  | succ n ih =>
    by_cases hpos : q.count > 0
    · have hne := h.msgs_ne_nil_of_pos hpos
      obtain ⟨c, s', hrun, hres⟩ := h.stored.singleRemove hne (as i) c₀
      simp only [clearLoop, if_pos hpos, h.key_min, hrun, ok_bind]
      rcases hres with ⟨hc, hin⟩ | ⟨rfl, hin⟩
      · have hst : some c ≠ some Status.ok := by simpa using hc
        simp only [if_neg hst]
        exact ⟨c, q, s', 0, rfl, Nat.zero_le _, by rw [Fifo.drop_zero]; exact h.untouched hin,
          fun _ _ => .inr hc⟩
      · have hlen := List.length_pos_of_ne_nil hne
        have hdrop : (f.drop 1).msgs.length = f.msgs.length - 1 := List.length_drop
        obtain ⟨c, q', s'', k, hloop, hk, hrep, hall⟩ :=
          ih (i + 1) Status.ok (h.removed hne hin)
        simp only [if_true]
        rw [Fifo.drop_drop] at hrep hall
        exact ⟨c, q', s'', 1 + k, hloop, by omega, hrep, fun h₁ h₂ => hall (by omega) (by omega)⟩
    · simp only [clearLoop, if_neg hpos]
      refine ⟨c₀, q, s, 0, rfl, Nat.zero_le _, by rwa [Fifo.drop_zero], fun hlt _ => .inl ?_⟩
      rw [Fifo.drop_zero]
      exact h.msgs_eq_nil hlt hpos

theorem clear_rep (h : Rep kd (q, s) f) (as : ℕ → Answers) (status : Option ℤ) :
    ∃ st q' s' k, q.clear as status s = .ok (st, q', s') ∧ k ≤ f.msgs.length ∧
      Rep kd (q', s') (f.drop k) ∧
      (f.msgs.length < 2 ^ 63 →
        (f.drop k).msgs = [] ∨ ∃ c, c ≠ Status.ok ∧ st = assign c status) := by
  have hvalid : q.isValid_ = true := h.valid
  obtain ⟨c, q', s', k, hloop, hk, hrep, hall⟩ :=
    clearLoop_rep as q.count.toInt.toNat 0 (status.getD Status.ok) h
  simp only [clear, hvalid, if_true, h.getKindRef_eq, ok_bind, localState, hloop]
  refine ⟨_, q', s', k, rfl, hk, hrep, fun hlt => ?_⟩
  rcases hall hlt (by rw [h.count_toInt hlt]; simp) with hnil | hc
  · exact .inl hnil
  · exact .inr ⟨c, hc, rfl⟩

/-! ## Every call -/

/-- What a call needs in order to keep to the discipline: a put needs a free key, and an `erase` of the
key `minKey` a message. -/
structure Admissible (c : Call) (f : Fifo) : Prop where
  put : ∀ status v, c = .put status v → f.top < 2 ^ 64
  erase : ∀ key, c = .erase key → key = UInt64.ofNat f.lo → f.msgs ≠ []

/-- The wait of the operations with a timeout: the body runs if there is a message. -/
theorem waitFor_rep (h : Rep kd (q, s) f) (timeout : ℤ) (status : Option ℤ) (valLen : Option ℕ)
    (pKey : Option UInt64) (body : Except Halt (Reply × KueueImpl × StoreImpl)) :
    q.waitFor timeout status valLen pKey s body = body ∨
      q.waitFor timeout status valLen pKey s body
        = .ok ({ status := assign Status.timedOut status, valLen, pKey }, q, s) ∨
      (q.waitFor timeout status valLen pKey s body = .error .blocked ∧
        (f.msgs.length < 2 ^ 63 → f.msgs = [])) := by
  have hvalid : q.isValid_ = true := h.valid
  simp only [waitFor, hvalid, if_true]
  by_cases hpos : q.count > 0
  · exact .inl (if_pos hpos)
  · by_cases ht : timeout > 0
    · exact .inr (.inl (by rw [if_neg hpos, if_pos ht]; rfl))
    · exact .inr (.inr ⟨by rw [if_neg hpos, if_neg ht], fun hlt => h.msgs_eq_nil hlt hpos⟩)

/-- **One call.** From a represented state an admissible call returns and follows the discipline, or it
waits for a message that a single thread will not get. -/
theorem run_rep (h : Rep kd (q, s) f) (c : Call) (as : ℕ → Answers) (hc : Admissible c f) :
    (c.run as q s = .error .blocked ∧ (f.msgs.length < 2 ^ 63 → f.msgs = [])) ∨
      ∃ o x f', c.run as q s = .ok (o, x) ∧ Rep kd x f' ∧ f.Step ⟨c, as, o⟩ f' := by
  cases c with
  | put status v =>
    obtain ⟨st, q', s', f', hrun, hrep, hst⟩ := put_rep h (hc.put _ _ rfl) (as 0) status v
    refine .inr ⟨.reply { status := st }, (q', s'), f', ?_, hrep, hst⟩
    simp only [Call.run, hrun]
    rfl
  | take status valLen =>
    have hvalid : q.isValid_ = true := h.valid
    by_cases h0 : q.count = 0
    · refine .inl ⟨by simp only [Call.run, take, hvalid, if_true, if_pos h0]; rfl, fun hlt => ?_⟩
      exact h.msgs_eq_nil hlt (by rw [h0]; decide)
    · obtain ⟨r, q', s', f', hrun, hrep, hst⟩ := takeNow_rep h (as 0) status valLen
      refine .inr ⟨.reply r, (q', s'), f', ?_, hrep, hst⟩
      simp only [Call.run, take, hvalid, if_true, if_neg h0, hrun]
      rfl
  | takeTimed status valLen timeout =>
    rcases waitFor_rep h timeout status valLen none (q.takeNow (as 0) status valLen s) with
      hwait | hwait | ⟨hwait, hnil⟩
    · obtain ⟨r, q', s', f', hrun, hrep, hst⟩ := takeNow_rep h (as 0) status valLen
      refine .inr ⟨.reply r, (q', s'), f', ?_, hrep, hst⟩
      simp only [Call.run, takeTimed, hwait.trans hrun]
      rfl
    · refine .inr ⟨.reply _, (q, s), f, by simp only [Call.run, takeTimed, hwait]; rfl, h, ?_⟩
      exact Reports.of_undone (by decide) rfl rfl
    · exact .inl ⟨by simp only [Call.run, takeTimed, hwait]; rfl, hnil⟩
  | readNext status valLen pKey timeout =>
    rcases waitFor_rep h timeout status valLen pKey (q.readNow (as 0) status valLen pKey s) with
      hwait | hwait | ⟨hwait, hnil⟩
    · obtain ⟨r, f', hrun, hrep, hst⟩ := readNow_rep h (as 0) status valLen pKey
      refine .inr ⟨.reply r, (q, s), f', ?_, hrep, hst⟩
      simp only [Call.run, readNext, hwait.trans hrun]
      rfl
    · refine .inr ⟨.reply _, (q, s), f, by simp only [Call.run, readNext, hwait]; rfl, h, ?_⟩
      exact Reports.of_undone (by decide) rfl ⟨rfl, rfl, rfl⟩
    · exact .inl ⟨by simp only [Call.run, readNext, hwait]; rfl, hnil⟩
  | erase key =>
    have hhead : key = q.minKey → f.msgs ≠ [] :=
      fun hk => hc.erase key rfl (hk.trans h.minKey)
    obtain ⟨b, q', s', f', hrun, hrep, htrue, hfalse⟩ := erase_rep h (as 0) key hhead
    refine .inr ⟨.erased b, (q', s'), f', by simp only [Call.run, hrun]; rfl, hrep, ?_⟩
    cases b with
    | true => exact htrue rfl
    | false => exact hfalse rfl
  | clear status =>
    obtain ⟨st, q', s', k, hrun, hk, hrep, hall⟩ := clear_rep h as status
    refine .inr ⟨.reply { status := st }, (q', s'), f.drop k, ?_, hrep, k, hk, rfl, hall⟩
    simp only [Call.run, hrun]
    rfl

end KueueImpl

end Librocks
