import Librocks.Kueue.Alone
import Librocks.Kueue.Ledger

/-!
# No loss, no duplication, first in first out

`two_lock_protocol`: whatever the threads do and however they interleave, messages leave the queue in
the order in which their puts were committed, each once, and none is lost; the count lags behind the
Kind by the updates outstanding and no more.
-/

namespace Librocks.Threads

open Rocks

variable {T : Type} [DecidableEq T]

/-- What the clients keep to: `maxKey` does not wrap around, and `erase` gets only keys that some
`readNext` on the same object returned. -/
structure Orderly (x : State T) (l : Label T) : Prop where
  maxKey : ∀ state v, x.pc l.thread = .putNext state v → x.shared.queue.maxKey ≠ MAX_KEY
  erase : ∀ key, x.pc l.thread = .idle → l.choice.op = .erase key → x.shared.Returned key

/-- The step is not a `fetch_add` that overflows. -/
def NoOverflow (x : State T) (l : Label T) : Prop :=
  x.pc l.thread = .putAdd → x.shared.queue.count ≠ Int64.maxValue

/-- A test that is enough for these conditions, and for answers of RocksDB that refuse nothing. -/
def calm (x : State T) (l : Label T) : Bool :=
  decide (x.shared.queue.maxKey ≠ MAX_KEY) && decide (x.shared.queue.count ≠ Int64.maxValue) &&
    (l.choice.answers.reuse && l.choice.answers.begins && l.choice.answers.write.isNone &&
      l.choice.answers.commit.isNone && l.choice.answers.get.isNone) &&
    match l.choice.op with
    | .erase key => x.shared.returns.any fun ret =>
        match ret.answer with
        | .read k r => decide (k = key ∧ r.status = some Status.ok)
        | _ => false
    | _ => true

omit [DecidableEq T] in
theorem calm_spec (x : State T) (l : Label T) (h : calm x l = true) :
    (Orderly x l ∧ NoOverflow x l) ∧ StoreImpl.Faultless l.choice.answers := by
  simp only [calm, Bool.and_eq_true, decide_eq_true_eq, Option.isNone_iff_eq_none] at h
  obtain ⟨⟨⟨hmax, hcount⟩, ⟨⟨⟨hreuse, hbegins⟩, hwrite⟩, hcommit⟩, hget⟩, herase⟩ := h
  refine ⟨⟨⟨fun _ _ _ => hmax, fun key _ hop => ?_⟩, fun _ => hcount⟩,
    hreuse, hbegins, hwrite, hcommit, hget⟩
  rw [hop] at herase
  obtain ⟨ret, hret, hnames⟩ := List.any_eq_true.mp herase
  refine ⟨ret, hret, ?_⟩
  cases hans : ret.answer with
  | read k r =>
    rw [hans] at hnames
    show k = key ∧ r.status = some Status.ok
    exact of_decide_eq_true hnames
  | _ =>
    rw [hans] at hnames
    cases hnames

/-- The greatest value of `maxKey`. -/
def topKey : ℕ := 2 ^ 64 - 1

theorem limit_topKey (f₀ : Fifo) : Limit f₀ topKey := ⟨by decide, .inr (by decide)⟩

variable {x y : State T} {l : Label T} {kd : KindImpl} {f₀ : Fifo}

omit [DecidableEq T] in
theorem Inv.allowed (h : Inv kd f₀ topKey x) (ho : Orderly x l) : Allowed f₀ topKey x l where
  room state v hp := by
    obtain ⟨db, -, hb⟩ := h.book
    have hr : x.reserved = 0 := by
      rw [(h.put_numbers (t := l.thread) (by rw [hp]; exact trivial)).1, hp]
      rfl
    have hbound := h.bound
    rw [hr, h.top_fifo] at hbound
    refine lt_of_le_of_ne hbound fun heq => ho.maxKey state v hp ?_
    rw [hb.maxKey, hr, h.top_fifo, Nat.add_zero, heq]
    rfl
  erase := ho.erase

/-- The invariant of the runs whose count does not overflow. -/
structure Fits (kd : KindImpl) (f₀ : Fifo) (x : State T) : Prop extends Inv kd f₀ topKey x where
  fits : x.tally f₀ < 2 ^ 63

theorem Fits.step (h : Fits kd f₀ x) (ho : Orderly x l) (hc : NoOverflow x l) (hs : Step x l y) :
    Fits kd f₀ y := by
  have hg := h.allowed ho
  refine { toInv := h.toInv.step hg hs, fits := ?_ }
  rcases h.tally_step hg hs with hle | ⟨hp, heq⟩
  · exact lt_of_le_of_lt hle h.fits
  · have hne : x.tally f₀ ≠ 2 ^ 63 - 1 := by
      intro hmax
      refine hc hp (Int64.toInt.inj ?_)
      rw [(h.count_toInt h.fits).1, hmax]
      rfl
    have := h.fits
    omega

/-! ## What an observer finds -/

theorem Pc.uncounted_ne_zero {p : Pc} (h : p.uncounted ≠ 0) : p = .putAdd := by
  cases p <;> first | rfl | exact absurd rfl h

theorem Pc.overcounted_ne_zero {p : Pc} (h : p.overcounted ≠ 0) :
    ∃ k, p = .removeNext k ∨ p = .removeSub k := by
  cases p with
  | removeNext k => exact ⟨k, .inl rfl⟩
  | removeSub k => exact ⟨k, .inr rfl⟩
  | _ => exact absurd rfl h

open Classical in
omit [DecidableEq T] in
theorem Locks.uncounted_eq (h : Locks x) :
    x.uncounted = if ∃ t, x.pc t = .putAdd then 1 else 0 := by
  split_ifs with hput
  · obtain ⟨t, ht⟩ := hput
    have hp : (x.pc t).uncounted = 1 := by rw [ht]; rfl
    exact (h.put.atOwner_of_ne_zero Pc.uncounted_eq_zero (by rw [hp]; decide)).trans hp
  · by_contra hne
    obtain ⟨t, ht⟩ := Mutex.exists_of_atOwner_ne_zero hne
    have hp : (x.pc t).uncounted ≠ 0 := by rw [ht]; exact hne
    exact hput ⟨t, Pc.uncounted_ne_zero hp⟩

open Classical in
omit [DecidableEq T] in
theorem Locks.overcounted_eq (h : Locks x) :
    x.overcounted = if ∃ t k, x.pc t = .removeNext k ∨ x.pc t = .removeSub k then 1 else 0 := by
  split_ifs with htake
  · obtain ⟨t, k, ht⟩ := htake
    have hp : (x.pc t).overcounted = 1 := by rcases ht with ht | ht <;> rw [ht] <;> rfl
    exact (h.take.atOwner_of_ne_zero Pc.overcounted_eq_zero (by rw [hp]; decide)).trans hp
  · by_contra hne
    obtain ⟨t, ht⟩ := Mutex.exists_of_atOwner_ne_zero hne
    have hp : (x.pc t).overcounted ≠ 0 := by rw [ht]; exact hne
    obtain ⟨k, hk⟩ := Pc.overcounted_ne_zero hp
    exact htake ⟨t, k, hk⟩

open Classical in
/-- What holds in every state of the protocol, for a queue that started empty. -/
structure Conserved (kd : KindImpl) (x : State T) (db : Db) : Prop where
  count_nonneg : x.shared.queue.count ≥ 0
  /-- The Kind differs from the count by a put that is not counted and a removal that is. -/
  card_keys : ((db.data kd.handle).keys.card : ℤ) = x.shared.queue.count.toInt
    + (if ∃ t, x.pc t = .putAdd then 1 else 0)
    - (if ∃ t k, x.pc t = .removeNext k ∨ x.pc t = .removeSub k then 1 else 0)
  /-- A consumer about to call the store finds a message under `minKey`. -/
  present : ∀ t, (x.pc t).Ready →
    ∃ v, (db.data kd.handle).lookup (putU64BE x.shared.queue.minKey) = some v
  take_found : ∀ t w, x.pc t = .takeStore w → ∀ a, StoreImpl.Faultless a → ∀ r s,
    x.shared.store.singleRemoveIfPresent a (some w.state) (.impl kd) w.valLen
      (some (putU64BE x.shared.queue.minKey)) = .ok (r, s) → r.status ≠ some Status.notFound
  read_found : ∀ t w, x.pc t = .readStore w → ∀ a, StoreImpl.Faultless a → ∀ r s,
    x.shared.store.get a (some w.state) (.impl kd) w.valLen
      (some (putU64BE x.shared.queue.minKey)) = .ok (r, s) → r.status ≠ some Status.notFound
  /-- The messages removed are the first ones put, in their order. -/
  removed : x.shared.removals.map Removed.value
    = (x.shared.puts.take x.shared.removals.length).map some
  /-- No key is removed twice. -/
  once : (x.shared.removals.map Removed.key).Nodup
  /-- The messages not removed are in the Kind. -/
  kept : db.data kd.handle = FMap.segment code x.shared.removals.length
    (x.shared.puts.drop x.shared.removals.length)
  /-- A `take` that returned Ok returned what it removed. -/
  taken : ∀ ret ∈ x.shared.returns, ret.answer.Took →
    ∃ m ∈ x.shared.removals, Backs m ret.thread ret.call ret.answer

omit [DecidableEq T] in
/-- The keys of the removals are the codes of consecutive numbers. -/
theorem Inv.nodup_keys {lim : ℕ} (h : Inv kd f₀ lim x) :
    (x.shared.removals.map Removed.key).Nodup := by
  have hkeys : x.shared.removals.map Removed.key
      = (List.range x.shared.removals.length).map fun i => UInt64.ofNat (f₀.lo + i) := by
    have := congrArg (List.map Prod.fst) h.record
    simpa [List.map_map, Function.comp_def] using this
  rw [hkeys]
  refine List.Nodup.map_on (fun i hi j hj heq => ?_) List.nodup_range
  have htop := h.top_fifo
  have hlen := h.length_fifo
  have hbound := h.bound
  have hlim := h.limit.le
  simp only [Fifo.top] at htop
  rw [List.mem_range] at hi hj
  have hmod : (f₀.lo + i) % 2 ^ 64 = (f₀.lo + j) % 2 ^ 64 := by
    simpa using congrArg UInt64.toNat heq
  simp only [Fifo.top] at hbound
  omega

omit [DecidableEq T] in
theorem Fits.conserved (h : Fits kd ⟨0, []⟩ x) (hledger : Ledger Answer.Took x) :
    ∃ db, x.shared.store.OpenWith db ∧ Conserved kd x db := by
  obtain ⟨db, hopen, hb⟩ := h.book
  obtain ⟨hcount, hnonneg⟩ := h.count_toInt h.fits
  have hfifo : x.fifo ⟨0, []⟩ = ⟨x.shared.removals.length,
      x.shared.puts.drop x.shared.removals.length⟩ := by simp [State.fifo, Fifo.drop]
  have hpresent : ∀ t, (x.pc t).Ready →
      ∃ v, (db.data kd.handle).lookup (putU64BE x.shared.queue.minKey) = some v := by
    intro t ht
    have hd : x.unshifted = 0 := by rw [(h.take_numbers ht.holdsTake).1, ht.unshifted_eq]
    rw [hd] at hb
    obtain ⟨m, rest, hm⟩ :=
      List.exists_cons_of_length_pos (Nat.zero_lt_of_lt ((h.points t).ready ht))
    rw [hb.minKey_eq]
    exact ⟨m, hb.stored.lookup_head hm⟩
  refine ⟨db, hopen, ?_⟩
  refine { count_nonneg := ?_, card_keys := ?_, present := hpresent, take_found := ?_,
           read_found := ?_, removed := ?_, once := h.nodup_keys, kept := ?_,
           taken := hledger.returned }
  · rw [ge_iff_le, Int64.le_iff_toInt_le, hcount]
    exact hnonneg
  · have hcard : (db.data kd.handle).keys.card = (x.fifo ⟨0, []⟩).msgs.length := by
      rw [hb.stored.data]
      exact FMap.card_keys_segment hb.stored.injOn
    have hu := h.toLocks.uncounted_eq
    have hc := h.toLocks.overcounted_eq
    rw [hcard, hcount, State.tally]
    split_ifs at hu hc ⊢ <;> omega
  · intro t w hp a ha r s hrun
    obtain ⟨v, hv⟩ := hpresent t (by rw [hp]; exact trivial)
    exact StoreImpl.singleRemoveIfPresent_found hopen ha hv hrun
  · intro t w hp a ha r s hrun
    obtain ⟨v, hv⟩ := hpresent t (by rw [hp]; exact trivial)
    exact StoreImpl.get_found hopen ha hv hrun
  · have hvalues : x.shared.removals.map Removed.value
        = (List.range x.shared.removals.length).map fun i => x.shared.puts[i]? := by
      have := congrArg (List.map Prod.snd) h.record
      simpa [List.map_map, Function.comp_def] using this
    rw [hvalues]
    have hgone : x.shared.removals.length ≤ x.shared.puts.length := by simpa using h.gone
    refine List.ext_getElem (by simp [hgone]) fun i h₁ h₂ => ?_
    have hi : i < x.shared.puts.length := by
      simp only [List.length_map, List.length_range] at h₁
      omega
    simp [hi]
  · rw [hb.stored.data, hfifo]

/-- **The two-lock protocol.** From a valid queue on an empty Kind, in every state that any number of
threads reach in any order of steps, as long as `maxKey` and `count` stay in range. -/
theorem two_lock_protocol {s s' : StoreImpl} {db db' : Db} {aKind aMin aMax : Answers} {id : Bytes}
    {q : KueueImpl} (hstore : s.OpenWith db)
    (hnew : KueueImpl.new aKind aMin aMax id s = .ok (q, s')) (hvalid : q.isValid_ = true)
    (hopen : s'.OpenWith db') (hkind : q.queueKind = some (.impl kd))
    (hempty : db'.data kd.handle = ∅) {ls : List (Label T)}
    (hrun : Run (guarded (fun x l => Orderly x l ∧ NoOverflow x l) Step) (State.start T q s') ls x) :
    ∃ db, x.shared.store.OpenWith db ∧ Conserved kd x db := by
  have hcontiguous : Contiguous kd.handle db' 0 0 :=
    { le := le_rfl, hi_le := Nat.zero_le _
      keys := fun k => by
        rw [hempty]
        exact ⟨fun hk => absurd hk Finmap.notMem_empty,
          fun ⟨i, _, hi, _⟩ => absurd hi (Nat.not_lt_zero i)⟩
      once := fun k hk => by rw [hempty] at hk; exact absurd hk Finmap.notMem_empty }
  obtain ⟨⟨lo, msgs⟩, ⟨hrep, -⟩, -, hlen, hlo⟩ :=
    KueueImpl.new_rep hstore hnew hvalid hopen hkind (.inr hempty) hcontiguous
  obtain rfl : msgs = [] := List.length_eq_zero_iff.mp hlen
  obtain rfl : lo = 0 := hlo
  have hstart : Fits kd ⟨0, []⟩ (State.start T q s') :=
    { toInv := Inv.start hrep (limit_topKey _) (Nat.zero_le _)
      fits := by
        show (0 : ℤ) < 2 ^ 63
        norm_num }
  obtain ⟨hfits, hledger⟩ := hrun.invariant
    (P := fun x => Fits kd ⟨0, []⟩ x ∧ Ledger Answer.Took x)
    (fun x l y hx hst => by
      obtain ⟨⟨ho, hc⟩, hst⟩ := hst
      obtain ⟨db, hopen, hb⟩ := hx.1.book
      refine ⟨hx.1.step ho hc hst, hx.2.step (fun ans hans => ?_) hb.kind hopen
        (fun _ hno => hno.elim) hst⟩
      cases ans with
      | taken key r => exact ⟨key, rfl, hans⟩
      | _ => exact hans.elim)
    ⟨hstart, Ledger.start _ _ _⟩
  exact hfits.conserved hledger

/-- One thread puts a message while another one takes it. The taker gets the lock first and has to
wait; the put wakes it up. -/
private def putTake : List (Label Bool) :=
  let put : Label Bool := ⟨false, { op := .put Status.ok [7], wake := some true }⟩
  let take : Label Bool := ⟨true, { op := .consume { consumer := .take } }⟩
  [take, put, take, put, take, put, take, put, put, put, put, put, put,
    take, take, take, take, take, take, take]

private def putTaken : State Bool :=
  (follow State.next calm (State.start Bool KueueImpl.created.1 KueueImpl.created.2) putTake).getD
    (State.start Bool {} KueueImpl.created.2)

theorem two_lock_protocol_put_take :
    putTaken.shared.returns.map Return.answer
        = [.taken 0 { status := some Status.ok, resultLen := some 1, data := some [7] }] ∧
      ∃ db, putTaken.shared.store.OpenWith db ∧ Conserved KueueImpl.createdKind putTaken db := by
  have hcreated : StoreImpl.created.OpenWith (Db.created.beginTransaction true none).2 := ⟨rfl, rfl⟩
  have hrun : Run (guarded (fun x l => Orderly x l ∧ NoOverflow x l) Step)
      (State.start Bool KueueImpl.created.1 KueueImpl.created.2) putTake putTaken :=
    Run.guarded_of_follow (fun x l h => (calm_spec x l h).1) rfl
  exact ⟨rfl, two_lock_protocol hcreated KueueImpl.new_created rfl ⟨rfl, rfl⟩ rfl rfl hrun⟩

/-- A run to a negative count: after `2 ^ 63` puts, with `maxKey` far from its bound and no call that
failed. -/
theorem count_overflows :
    ∃ (ls : List (Label Unit)) (x : State Unit),
      Run (guarded (fun x l => Orderly x l ∧ StoreImpl.Faultless l.choice.answers) Step)
        (State.start Unit KueueImpl.created.1 KueueImpl.created.2) ls x ∧
      ¬ x.shared.queue.count ≥ 0 := by
  have hfree : Free (State.start Unit KueueImpl.created.1 KueueImpl.created.2).shared := ⟨rfl, rfl⟩
  obtain ⟨ls, sh, hrun, -, -, hrep⟩ := puts_smooth (t := ()) hfree rfl rfl KueueImpl.created_rep []
    (2 ^ 63) (by decide) (fun _ => .idle) rfl
  refine ⟨ls, ⟨sh, fun _ => .idle⟩, hrun.mono fun x l y hst => ?_, ?_⟩
  · have hsmooth := hst.1
    exact ⟨⟨⟨hsmooth.maxKey, fun key hp hop => absurd hop (hsmooth.erase hp key)⟩,
      hsmooth.faultless⟩, hst.2⟩
  · have hcount : sh.queue.count = Int64.ofInt (2 ^ 63 : ℕ) := by
      rw [show sh.queue.count = _ from hrep.count, List.nil_append, List.length_replicate]
    show ¬ sh.queue.count ≥ 0
    rw [hcount]
    decide

end Librocks.Threads
