import Librocks.Kueue.Life
import Librocks.Kueue.Recovery

/-!
# Keys that name messages

`readNext` hands out a key with which the message can be acknowledged later, by `erase`. The next key of
a queue is computed from the messages that are still there when its object is built. On a Kind that was
drained it is zero again, and then a key names another message than before (`keys_used_twice`).

`keys_identify_messages`: as long as no object is built on a drained Kind, the keys of all puts differ,
over all objects of the queue, and what is removed under a key that some `readNext` returned, of this or
of a former object, is the message that came with it.

The proof looks at the present object with the record of all, `Life.whole`: the former objects have left
it as one object would have.
-/

namespace Librocks

open Rocks

/-- The keys and values of the puts in a log. -/
def putsOf (log : List Write) : List (Bytes × Bytes) :=
  log.filterMap fun w => match w with
    | .put _ key value => some (key, value)
    | _ => none

namespace Threads

variable {T : Type}

namespace Life

/-- The keys of the messages are their names. -/
structure Identifies (x : Life T) : Prop where
  /-- No two puts have used the same key. -/
  keys : ((putsOf x.log).map Prod.fst).Nodup
  /-- What `readNext` returned is the message that was put under the key. -/
  read : ∀ ret ∈ x.record.returns, ∀ key r, ret.answer = .read key r → r.status = some Status.ok →
    ∃ v, (putU64BE key, v) ∈ putsOf x.log ∧ r.data = StoreImpl.buffer v ∧
      r.resultLen = some v.length
  /-- What was removed under the key is that message too. -/
  removed : ∀ m ∈ x.record.removals, ∀ ret ∈ x.record.returns, ∀ r, ret.answer = .read m.key r →
    r.status = some Status.ok → ∃ v, m.value = some v ∧ r.data = StoreImpl.buffer v ∧
      r.resultLen = some v.length

/-- `maxKey` does not wrap around. -/
def Unwrapped (x : Life T) : Happening T → Prop
  | .act l => ∀ state v, x.state.pc l.thread = .putNext state v → x.state.shared.queue.maxKey ≠ MAX_KEY
  | .reopen .. => True

/-- `erase` gets only keys that some `readNext`, of any object, returned. -/
def Acknowledges (x : Life T) : Happening T → Prop
  | .act l => ∀ key, x.state.pc l.thread = .idle → l.choice.op = .erase key →
      x.whole.shared.Returned key
  | .reopen .. => True

/-- No object is built on a Kind that was drained: empty, although there were messages. -/
def Undrained (x : Life T) : Happening T → Prop
  | .act _ => True
  | .reopen .. => x.state.shared.content = ∅ → x.record.puts = []

/-- The store calls of the step are refused nothing. -/
def Faultless (_ : Life T) : Happening T → Prop
  | .act l => StoreImpl.Faultless l.choice.answers
  | .reopen .. => True

/-- The conditions under which the keys of a queue last. -/
structure Lasting (x : Life T) (e : Happening T) : Prop where
  unwrapped : x.Unwrapped e
  acknowledges : x.Acknowledges e
  undrained : x.Undrained e

end Life

/-! ## Steps and former objects -/

section Move

variable [DecidableEq T] {t : T} {ch : Choice T} {sh sh' : Shared T} {p p' : Pc}

omit [DecidableEq T] in
theorem Shared.remove_after (past : Record T) (sh : Shared T) (t : T) (key : UInt64) (s : StoreImpl) :
    (sh.remove t key s).after past = (sh.after past).remove t key s := by
  simp only [Shared.after, Shared.remove, List.append_assoc]
  rfl

omit [DecidableEq T] in
theorem Shared.answered_after (past : Record T) (sh : Shared T) (t : T) (ans : Answer) :
    (sh.answered t ans).after past = (sh.after past).answered t ans := by
  simp only [Shared.after, Shared.answered, List.append_assoc]

theorem notifyOne_after (past : Record T) {wake : Option T} (h : sh.notifyOne wake = some sh') :
    (sh.after past).notifyOne wake = some (sh'.after past) := by
  rcases notifyOne_cases h with ⟨rfl, hw, rfl⟩ | ⟨u, hu, rfl, rfl⟩
  · exact if_pos hw
  · exact if_pos hu

/-- No step reads the record. -/
theorem Move.after (past : Record T) (h : Move t ch sh p p' sh') :
    Move t ch (sh.after past) p p' (sh'.after past) := by
  cases h with
  | putStore hkind hput =>
    have h : Move t ch (sh.after past) _ _ _ := .putStore hkind hput
    rw [show (sh.after past).puts = past.puts ++ sh.puts from rfl, List.append_assoc] at h
    exact h
  | putStoreFailed hkind hput hst => exact .putStoreFailed hkind hput hst
  | takeStore hkind hremove hst =>
    rw [Shared.remove_after]
    exact .takeStore hkind hremove hst
  | takeStoreFailed hkind hremove hst => exact .takeStoreFailed hkind hremove hst
  | readStore hkind hget => exact .readStore hkind hget
  | eraseStore hkind hremove =>
    rw [Shared.remove_after]
    exact .eraseStore hkind hremove
  | eraseStoreFailed hkind hremove hst => exact .eraseStoreFailed hkind hremove hst
  | clearStore hkind hremove =>
    rw [Shared.remove_after]
    exact .clearStore hkind hremove
  | clearStoreFailed hkind hremove hst => exact .clearStoreFailed hkind hremove hst
  | eraseRefused =>
    rw [Shared.answered_after]
    exact .eraseRefused
  | takeUnlock =>
    rw [Shared.answered_after]
    exact .takeUnlock
  | sigNotify hn => exact .sigNotify (notifyOne_after past hn)
  | removeNotify hc hn => exact .removeNotify hc (notifyOne_after past hn)
  | removeSilent hc => exact .removeSilent hc
  | resume hw hfree => exact .resume hw hfree
  | call => exact .call
  | putNext => exact .putNext
  | waitPasses hw => exact .waitPasses hw
  | lastPasses hw => exact .lastPasses hw
  | _ => constructor <;> assumption

/-! ## What `readNext` tells -/

/-- An answer of `readNext` gives the number of a message as its key, and the message. -/
def Answer.Tells (msgs : List Bytes) : Answer → Prop
  | .read key r => r.status = some Status.ok → ∃ n v, key = UInt64.ofNat n ∧ msgs[n]? = some v ∧
      r.data = StoreImpl.buffer v ∧ r.resultLen = some v.length
  | _ => True

/-- The same of an answer that is about to be returned. -/
def Pc.Tells (msgs : List Bytes) : Pc → Prop
  | .removeNext (.answer ans) | .removeSub (.answer ans) => ans.Tells msgs
  | .removeNotify ans _ | .takeUnlock ans => ans.Tells msgs
  | _ => True

theorem Answer.Tells.append {msgs : List Bytes} {ans : Answer} (h : ans.Tells msgs)
    (more : List Bytes) : ans.Tells (msgs ++ more) := by
  cases ans with
  | read key r =>
    intro hst
    obtain ⟨n, v, hkey, hv, hdata⟩ := h hst
    have hlt := (List.getElem?_eq_some_iff.mp hv).1
    exact ⟨n, v, hkey, by rw [List.getElem?_append_left hlt]; exact hv, hdata⟩
  | _ => exact trivial

theorem Pc.Tells.append {msgs : List Bytes} {p : Pc} (h : p.Tells msgs) (more : List Bytes) :
    p.Tells (msgs ++ more) := by
  cases p with
  | removeNext k | removeSub k =>
    cases k with
    | answer ans => exact Answer.Tells.append h more
    | loop => exact trivial
  | removeNotify ans c | takeUnlock ans => exact Answer.Tells.append h more
  | _ => exact trivial

/-- The answers after a step are those before it, but for the one that a `readNext` has just read. -/
theorem Move.tells {msgs : List Bytes} (h : Move t ch sh p p' sh') (hp : p.Tells msgs)
    (hr : ∀ ret ∈ sh.returns, ret.answer.Tells msgs)
    (hread : ∀ w kind r store, p = .readStore w → sh.queue.queueKind = some kind →
      sh.store.get ch.answers (some w.state) kind w.valLen (some (putU64BE sh.queue.minKey))
        = .ok (r, store) → (Answer.read sh.queue.minKey r).Tells msgs) :
    p'.Tells msgs ∧ ∀ ret ∈ sh'.returns, ret.answer.Tells msgs := by
  have hanswered : ∀ ans : Answer, ans.Tells msgs →
      ∀ ret ∈ sh.returns ++ [⟨t, sh.calls t, ans⟩], ret.answer.Tells msgs := by
    intro ans hans ret hret
    rcases List.mem_append.mp hret with hold | hnew
    · exact hr ret hold
    · rw [List.mem_singleton.mp hnew]
      exact hans
  cases h with
  | readStore hkind hget => exact ⟨hread _ _ _ _ rfl hkind hget, hr⟩
  | takeUnlock => exact ⟨trivial, hanswered _ hp⟩
  | eraseRefused => exact ⟨trivial, hanswered _ trivial⟩
  | removeNext =>
    rename_i k
    cases k <;> exact ⟨hp, hr⟩
  | removeSub | removeSilent => exact ⟨hp, hr⟩
  | removeNotify _ hn =>
    rw [notifyOne_eq hn]
    exact ⟨hp, hr⟩
  | sigNotify hn =>
    rw [notifyOne_eq hn]
    exact ⟨trivial, hr⟩
  | call => cases hop : ch.op <;> cases hv : sh.queue.isValid_ <;> exact ⟨trivial, hr⟩
  | waitPasses | lastPasses =>
    rename_i w _
    cases w with
    | mk consumer => cases consumer <;> exact ⟨trivial, hr⟩
  | _ => exact ⟨trivial, hr⟩

end Move

/-- A `readNext` that reads tells the first message and its number. -/
theorem Inv.reads {x : State T} {kd : KindImpl} {lim : ℕ} (h : Inv kd ⟨0, []⟩ lim x) {t : T} {w : Wait}
    (hp : x.pc t = .readStore w) {a : Answers} {c : ℤ} {kind : Kind} {len : Option ℕ}
    {r : StoreImpl.Reply} {store : StoreImpl} (hkind : x.shared.queue.queueKind = some kind)
    (hget : x.shared.store.get a (some c) kind len (some (putU64BE x.shared.queue.minKey))
      = .ok (r, store)) :
    (Answer.read x.shared.queue.minKey r).Tells x.shared.puts := by
  intro hst
  have hready : (x.pc t).Ready := by
    rw [hp]
    exact trivial
  obtain ⟨db, hopen, hb⟩ := h.book
  rw [(h.take_numbers hready.holdsTake).1, hready.unshifted_eq] at hb
  obtain rfl := Option.some.inj (hkind.symm.trans hb.kind)
  obtain ⟨m, rest, hm⟩ := List.exists_cons_of_length_pos (Nat.zero_lt_of_lt ((h.points t).ready hready))
  obtain ⟨r', hrun, hres⟩ := StoreImpl.get_open hopen a (some c) (.impl kd) len
    (some (putU64BE x.shared.queue.minKey))
  obtain ⟨rfl, -⟩ := Prod.mk.inj (Except.ok.inj (hrun.symm.trans hget))
  rcases hres with ⟨c', hc', hfailed, -⟩ | ⟨k, key, v, hk, hkey, -, hv, hdata, hlen⟩
  · rw [hfailed] at hst
    exact absurd (Option.some.inj hst) hc'
  cases hk
  cases hkey
  -- the value under `minKey` is the first message
  rw [hb.minKey_eq, show putU64BE (UInt64.ofNat _) = code _ from rfl, hb.stored.lookup_head hm] at hv
  obtain rfl := Option.some.inj hv
  have h0 : (x.fifo ⟨0, []⟩).msgs[0]? = some m := by rw [hm]; rfl
  refine ⟨x.shared.removals.length, m, ?_, by simpa [State.fifo, Fifo.drop] using h0, hdata, hlen⟩
  rw [hb.minKey_eq]
  simp [State.fifo, Fifo.drop]

/-! ## The invariant -/

namespace Life

variable {x y : Life T} {kd : KindImpl}

/-- The present object with the record of all, and the puts of the log. -/
structure Named (kd : KindImpl) (x : Life T) : Prop where
  inv : Inv kd ⟨0, []⟩ topKey x.whole
  told : ∀ t, (x.state.pc t).Tells x.record.puts
  returned : ∀ ret ∈ x.record.returns, ret.answer.Tells x.record.puts
  log : putsOf x.log = (⟨0, x.record.puts⟩ : Fifo).entries

theorem Named.length_le (h : Named kd x) : x.record.puts.length ≤ topKey := by
  have hbound := h.inv.bound
  rw [h.inv.top_fifo] at hbound
  have hlen : x.whole.shared.puts.length = x.record.puts.length := rfl
  simp only [Fifo.top, List.length_nil] at hbound
  omega

/-- Two messages with one key are one. -/
theorem Named.eq_of_key (h : Named kd x) {i j : ℕ} (hi : i < x.record.puts.length)
    (hj : j < x.record.puts.length) (heq : UInt64.ofNat i = UInt64.ofNat j) : i = j := by
  have hle := h.length_le
  simp only [topKey] at hle
  refine code_injOn (Set.mem_Iio.mpr (by omega)) (Set.mem_Iio.mpr (by omega)) ?_
  rw [code, code, heq]

theorem Named.identifies (h : Named kd x) : Identifies x where
  keys := by
    have hkeys : (putsOf x.log).map Prod.fst = (List.range x.record.puts.length).map code := by
      rw [h.log, Fifo.entries, List.map_map, List.range_eq_range',
        ← List.zipIdx_map_snd 0 x.record.puts, List.map_map]
      rfl
    rw [hkeys]
    refine List.Nodup.map_on (fun i hi j hj heq => ?_) List.nodup_range
    have hle := h.length_le
    simp only [topKey, List.mem_range] at hle hi hj
    exact code_injOn (Set.mem_Iio.mpr (by omega)) (Set.mem_Iio.mpr (by omega)) heq
  read ret hret key r hans hst := by
    have htells := h.returned ret hret
    rw [hans] at htells
    obtain ⟨n, v, rfl, hv, hdata, hlen⟩ := htells hst
    refine ⟨v, ?_, hdata, hlen⟩
    rw [h.log]
    exact List.mem_map.mpr ⟨(v, n), List.mem_zipIdx_iff_getElem?.mpr hv, rfl⟩
  removed m hm ret hret r hans hst := by
    have htells := h.returned ret hret
    rw [hans] at htells
    obtain ⟨n, v, hkey, hv, hdata, hlen⟩ := htells hst
    have hmem : (m.key, m.value) ∈ x.whole.shared.removals.map fun m => (m.key, m.value) :=
      List.mem_map_of_mem hm
    rw [h.inv.record, List.mem_map] at hmem
    obtain ⟨i, hi, heq⟩ := hmem
    obtain ⟨hikey, hivalue⟩ := Prod.mk.inj heq
    have hlt : i < x.record.puts.length := lt_of_lt_of_le (List.mem_range.mp hi) h.inv.gone
    rw [Nat.zero_add] at hikey
    obtain rfl := h.eq_of_key hlt (List.getElem?_eq_some_iff.mp hv).1 (hikey.trans hkey)
    exact ⟨v, hivalue.symm.trans hv, hdata, hlen⟩

section Step

variable [DecidableEq T]

/-- What a step of the present object puts is logged under the next number. -/
theorem Named.log_act (h : Named kd x) {l : Label T} {z : State T} (hs : Threads.Step x.state l z) :
    ∃ more, x.past.puts ++ z.shared.puts = x.record.puts ++ more ∧
      putsOf (x.log ++ x.state.shared.committed z.shared)
        = (⟨0, x.record.puts ++ more⟩ : Fifo).entries := by
  obtain ⟨p', hmove, -⟩ := hs.move
  obtain ⟨db, db', hopen, hopen', -, hcommit⟩ := h.inv.commit (y := ⟨z.shared.after x.past, z.pc⟩)
    (hmove.after x.past)
  obtain ⟨_, -, hb⟩ := h.inv.book
  have hkind : x.state.shared.queue.queueKind = some (.impl kd) := hb.kind
  have hcommitted : ∀ ws : List Write, db'.wal = db.wal ++ ws →
      x.state.shared.committed z.shared = ws.filter fun w => decide (kd.handle = w.handle) :=
    fun ws hwal => Shared.committed_eq hopen hopen' hkind hwal
  have hnone : (⟨0, x.record.puts ++ []⟩ : Fifo).entries = putsOf x.log := by
    rw [List.append_nil, h.log]
  cases hcommit with
  | nothing hputs _ hdb =>
    refine ⟨[], hputs.trans (List.append_nil _).symm, ?_⟩
    rw [hcommitted [] (by rw [hdb.wal, List.append_nil]), hnone]
    exact congrArg putsOf (List.append_nil _)
  | put v hputs _ _ hw =>
    refine ⟨[v], hputs, ?_⟩
    have htop : (x.whole.fifo ⟨0, []⟩).top = x.record.puts.length := by
      rw [h.inv.top_fifo]
      exact Nat.zero_add _
    rw [hcommitted _ hw.wal, htop]
    have hlog := h.log
    simp only [putsOf, Fifo.entries] at hlog
    simp [putsOf, Write.handle, Fifo.entries, List.zipIdx_append, hlog]
  | singleDelete undefined hputs _ _ hw =>
    refine ⟨[], hputs.trans (List.append_nil _).symm, ?_⟩
    rw [hcommitted _ hw.wal, hnone]
    simp [putsOf, Write.handle]

theorem Named.act (h : Named kd x) {l : Label T} {z : State T} (hg : Threads.Orderly x.whole l)
    (hs : Threads.Step x.state l z) :
    Named kd { x with state := z, log := x.log ++ x.state.shared.committed z.shared } := by
  obtain ⟨more, hputs, hlog⟩ := h.log_act hs
  obtain ⟨p', hmove, hpc⟩ := hs.move
  have hwhole := hmove.after x.past
  obtain ⟨htells, hreturned⟩ := hwhole.tells (h.told l.thread) h.returned
    fun w kind r store hp hkind hget => h.inv.reads (t := l.thread) hp hkind hget
  refine ⟨h.inv.move (h.inv.allowed hg) hwhole hpc, fun t => ?_, fun ret hret => ?_, ?_⟩
  · show (z.pc t).Tells (x.past.puts ++ z.shared.puts)
    rw [hputs, hpc]
    by_cases ht : t = l.thread
    · subst ht
      rw [Function.update_self]
      exact htells.append more
    · rw [Function.update_of_ne ht]
      exact (h.told t).append more
  · show ret.answer.Tells (x.past.puts ++ z.shared.puts)
    rw [hputs]
    exact (hreturned ret hret).append more
  · show putsOf _ = (⟨0, x.past.puts ++ z.shared.puts⟩ : Fifo).entries
    rw [hputs]
    exact hlog

end Step

theorem Named.reopen (h : Named kd x) {id : Bytes} {q : KueueImpl} {s : StoreImpl} {kd' : KindImpl}
    {db db' : Db} (hopen : x.state.shared.store.OpenWith db) (hnew : Opened id q s kd' db')
    (hdata : db'.data kd'.handle = db.data kd.handle)
    (hover : db'.overwritten kd'.handle = db.overwritten kd.handle)
    (hg : x.state.shared.content = ∅ → x.record.puts = []) :
    Named kd' { past := x.record, state := State.start T q s, log := x.log } := by
  obtain ⟨db₁, hopen₁, hb⟩ := h.inv.book
  obtain rfl : db₁ = db := hopen₁.db_eq hopen.txnDb
  set y : Life T := { past := x.record, state := State.start T q s, log := x.log } with hy
  have hrecord : y.record = x.record := by simp [hy, record, State.start]
  have hputs : y.whole.shared.puts = x.whole.shared.puts := congrArg Record.puts hrecord
  have hremovals : y.whole.shared.removals = x.whole.shared.removals :=
    congrArg Record.removals hrecord
  have hreturns : y.whole.shared.returns = x.whole.shared.returns := congrArg Record.returns hrecord
  have hfifo : y.whole.fifo ⟨0, []⟩ = x.whole.fifo ⟨0, []⟩ := by
    rw [State.fifo, State.fifo, hputs, hremovals]
  -- the first number is zero only if nothing was ever put
  have hzero : (x.whole.fifo ⟨0, []⟩).msgs = [] → (x.whole.fifo ⟨0, []⟩).lo = 0 := by
    intro hnil
    have hempty : x.state.shared.content = ∅ := by
      rw [Shared.content_eq hopen hb.kind, hb.stored.data, hnil]
      rfl
    have hgone := h.inv.gone
    rw [show x.whole.shared.puts = [] from hg hempty] at hgone
    simpa [State.fifo, Fifo.drop] using hgone
  refine ⟨.of_idle rfl rfl rfl hnew.toOpenWith ?_ (fun key hkey => ?_) ?_ ?_ ?_ (limit_topKey _),
    fun _ => trivial, fun ret hret => ?_, ?_⟩
  · rw [hfifo]
    exact hnew.book (hb.stored.of_eq hdata hover) hzero
  · obtain ⟨ret, hret, hnames⟩ := hkey
    rw [hreturns] at hret
    obtain ⟨n, hn, hfirst, hlt⟩ := h.inv.returned key ⟨ret, hret, hnames⟩
    rw [hfifo]
    exact ⟨n, hn, hfirst, hlt.imp (fun hgone => hgone) fun hlo => ⟨hlo.1, Nat.zero_lt_of_lt hlo.2⟩⟩
  · rw [hputs, hremovals]
    exact h.inv.gone
  · rw [hputs, hremovals]
    exact h.inv.record
  · rw [hfifo]
    exact (Nat.le_add_right _ _).trans h.inv.bound
  · rw [hrecord] at hret ⊢
    exact h.returned ret hret
  · rw [hrecord]
    exact h.log

/-- **Every step** of a thread, and every object that is not built on a drained Kind, keeps the names. -/
theorem Named.step [DecidableEq T] (h : Named kd x) {id : Bytes} {e : Happening T} (hg : x.Lasting e)
    (hs : Step id x e y) : ∃ kd', Named kd' y := by
  cases hs with
  | act hs => exact ⟨kd, h.act ⟨hg.unwrapped, hg.acknowledges⟩ hs⟩
  | reopen hopen hkind hnew hdata hover =>
    obtain ⟨_, -, hb⟩ := h.inv.book
    obtain rfl : _ = kd := Kind.impl.inj (Option.some.inj (hkind.symm.trans hb.kind))
    exact ⟨_, h.reopen hopen hnew hdata hover hg.undrained⟩

theorem Named.start {id : Bytes} {q : KueueImpl} {s : StoreImpl} {db : Db} (h : Opened id q s kd db)
    (hempty : db.data kd.handle = ∅) : Named kd (start T q s) where
  inv := (Sound.start h hempty).inv
  told _ := trivial
  returned _ hno := absurd hno List.not_mem_nil
  log := rfl

end Life

/-- **Keys name messages**, from the first object on an empty Kind on, with any number of threads and
further objects, as long as none is built on a drained Kind. -/
theorem keys_identify_messages [DecidableEq T] {id : Bytes} {q : KueueImpl} {s : StoreImpl}
    {kd : KindImpl} {db : Db} (hfirst : Opened id q s kd db) (hempty : db.data kd.handle = ∅)
    {es : List (Happening T)} {x : Life T}
    (hrun : Run (guarded Life.Lasting (Life.Step id)) (Life.start T q s) es x) : x.Identifies := by
  obtain ⟨kd', hnamed⟩ := hrun.invariant (P := fun x => ∃ kd, Life.Named kd x)
    (fun _ _ _ ⟨_, h⟩ hst => h.step hst.1 hst.2) ⟨kd, .start hfirst hempty⟩
  exact hnamed.identifies

/-! ## Lives that can be followed -/

/-- The test `calm` on the record of all objects. -/
private def calmOverall (x : Life Unit) : Happening Unit → Bool
  | .act l => calm x.whole l
  | .reopen .. => false

private theorem calmOverall_spec {x : Life Unit} {e : Happening Unit} (h : calmOverall x e = true) :
    (x.Unwrapped e ∧ x.Faultless e) ∧ x.Acknowledges e ∧ x.Undrained e := by
  cases e with
  | act l =>
    obtain ⟨⟨horderly, -⟩, hfaultless⟩ := calm_spec x.whole l h
    exact ⟨⟨horderly.maxKey, hfaultless⟩, horderly.erase, trivial⟩
  | reopen => cases h

/-- The same without a look at what `erase` gets. -/
private def smoothOverall (x : Life Unit) : Happening Unit → Bool
  | .act l => calmOverall x (.act ⟨(), { l.choice with op := .clear Status.ok }⟩)
  | .reopen .. => false

private theorem smoothOverall_spec {x : Life Unit} {e : Happening Unit} (h : smoothOverall x e = true) :
    (x.Unwrapped e ∧ x.Faultless e) ∧ x.Undrained e := by
  cases e with
  | act l =>
    have hcalm : calmOverall x (.act ⟨(), { l.choice with op := .clear Status.ok }⟩) = true := h
    obtain ⟨⟨hmax, hfaultless⟩, -, -⟩ := calmOverall_spec hcalm
    exact ⟨⟨hmax, hfaultless⟩, trivial⟩
  | reopen => cases h

/-- The steps of a put that signals, of one that does not, and of the other operations. -/
private def putFirst (v : Bytes) : List (Happening Unit) :=
  List.replicate 9 (.act ⟨(), { op := .put Status.ok v }⟩)

private def putMore (v : Bytes) : List (Happening Unit) :=
  List.replicate 6 (.act ⟨(), { op := .put Status.ok v }⟩)

private def readFirst : List (Happening Unit) :=
  List.replicate 5 (.act ⟨(), { op := .consume { consumer := .readNext 0 } }⟩)

private def takeFirst : List (Happening Unit) :=
  List.replicate 8 (.act ⟨(), { op := .consume { consumer := .take } }⟩)

private def eraseZero : List (Happening Unit) :=
  List.replicate 9 (.act ⟨(), { op := .erase 0 }⟩)

private def newborn : Life Unit := Life.start Unit KueueImpl.created.1 KueueImpl.created.2

private def live (ok : Life Unit → Happening Unit → Bool) (x : Life Unit) (es : List (Happening Unit)) :
    Life Unit :=
  (follow Life.next ok x es).getD newborn

/-- The event that the object of `x` is followed by the next one. -/
private def rebuild (x : Life Unit) : Happening Unit :=
  .reopen (x.rebuild [113]).1 (x.rebuild [113]).2

private theorem run_live {g : Life Unit → Happening Unit → Prop}
    {ok : Life Unit → Happening Unit → Bool} {x y : Life Unit} {es : List (Happening Unit)}
    (hg : ∀ x e, ok x e = true → g x e) (h : follow Life.next ok x es = some y) :
    Run (guarded g (Life.Step [113])) x es y :=
  .of_follow (fun x e _ hok hnext => ⟨hg x e hok, Life.step_of_next hnext⟩) h

private theorem ne_empty_of_lookup {m : Family} {key v : Bytes} (h : m.lookup key = some v) :
    m ≠ ∅ := by
  rintro rfl
  cases h

/-- Two puts, and a read of the first message. -/
private def twoPut : Life Unit := live calmOverall newborn (putFirst [7] ++ putMore [8] ++ readFirst)

/-- With the next object a third put, and an `erase` of the message that was read. -/
private def staleErased : Life Unit :=
  live calmOverall (twoPut.rebuilt [113]) (putMore [9] ++ eraseZero)

theorem keys_identify_messages_stale :
    putsOf staleErased.log = [(code 0, [7]), (code 1, [8]), (code 2, [9])] ∧
      staleErased.record.removals.map (fun m => (m.key, m.value)) = [(0, some [7])] ∧
      staleErased.Identifies := by
  obtain ⟨db, hfirst, hempty⟩ := opened_created
  have hlasting : ∀ x e, calmOverall x e = true → Life.Lasting x e := fun x e h =>
    ⟨(calmOverall_spec h).1.1, (calmOverall_spec h).2.1, (calmOverall_spec h).2.2⟩
  have hput : follow Life.next calmOverall newborn (putFirst [7] ++ putMore [8] ++ readFirst)
      = some twoPut := rfl
  have herase : follow Life.next calmOverall (twoPut.rebuilt [113]) (putMore [9] ++ eraseZero)
      = some staleErased := rfl
  have hrebuilt : Life.Step [113] twoPut (rebuild twoPut) (twoPut.rebuilt [113]) :=
    Life.step_rebuilt ⟨rfl, rfl⟩ rfl ⟨rfl, rfl⟩ rfl ⟨rfl, rfl⟩ rfl rfl rfl rfl
  have hreopen : Life.Lasting twoPut (rebuild twoPut) :=
    ⟨trivial, trivial, fun hno => absurd hno (ne_empty_of_lookup
      (show twoPut.state.shared.content.lookup (code 0) = some [7] from rfl))⟩
  exact ⟨rfl, rfl, keys_identify_messages hfirst hempty
    ((run_live hlasting hput).append (.cons ⟨hreopen, hrebuilt⟩ (run_live hlasting herase)))⟩

/-- A message is put, read and taken; the next object starts on the drained Kind. -/
private def readTaken : Life Unit :=
  live calmOverall newborn (putFirst [7] ++ readFirst ++ takeFirst)

/-- Another message is put, and an `erase` gets the key that was read. -/
private def otherErased : Life Unit :=
  live calmOverall (readTaken.rebuilt [113]) (putFirst [8] ++ eraseZero)

/-- An `erase` of the key zero on a queue without messages, two puts and a `take`. -/
private def gapLeft : Life Unit :=
  live smoothOverall newborn (eraseZero ++ putMore [7] ++ putFirst [8] ++ takeFirst)

/-- The next object puts under the key that was taken. -/
private def gapFilled : Life Unit := live smoothOverall (gapLeft.rebuilt [113]) (putMore [9])

private theorem otherErased_run :
    Run (guarded (fun x e => (x.Unwrapped e ∧ x.Faultless e) ∧ x.Acknowledges e) (Life.Step [113]))
      newborn (putFirst [7] ++ readFirst ++ takeFirst ++ rebuild readTaken :: (putFirst [8] ++ eraseZero))
      otherErased := by
  have hcalm : ∀ x e, calmOverall x e = true →
      (x.Unwrapped e ∧ x.Faultless e) ∧ x.Acknowledges e := fun x e h =>
    ⟨(calmOverall_spec h).1, (calmOverall_spec h).2.1⟩
  have htaken : follow Life.next calmOverall newborn (putFirst [7] ++ readFirst ++ takeFirst)
      = some readTaken := rfl
  have herased : follow Life.next calmOverall (readTaken.rebuilt [113]) (putFirst [8] ++ eraseZero)
      = some otherErased := rfl
  have hrebuilt : Life.Step [113] readTaken (rebuild readTaken) (readTaken.rebuilt [113]) :=
    Life.step_rebuilt ⟨rfl, rfl⟩ rfl ⟨rfl, rfl⟩ rfl ⟨rfl, rfl⟩ rfl rfl rfl rfl
  exact (run_live hcalm htaken).append
    (.cons ⟨⟨⟨trivial, trivial⟩, trivial⟩, hrebuilt⟩ (run_live hcalm herased))

private theorem gapFilled_run :
    Run (guarded (fun x e => (x.Unwrapped e ∧ x.Faultless e) ∧ x.Undrained e) (Life.Step [113]))
      newborn (eraseZero ++ putMore [7] ++ putFirst [8] ++ takeFirst ++ rebuild gapLeft :: putMore [9])
      gapFilled := by
  have hleft : follow Life.next smoothOverall newborn
      (eraseZero ++ putMore [7] ++ putFirst [8] ++ takeFirst) = some gapLeft := rfl
  have hfilled : follow Life.next smoothOverall (gapLeft.rebuilt [113]) (putMore [9])
      = some gapFilled := rfl
  have hrebuilt : Life.Step [113] gapLeft (rebuild gapLeft) (gapLeft.rebuilt [113]) :=
    Life.step_rebuilt ⟨rfl, rfl⟩ rfl ⟨rfl, rfl⟩ rfl ⟨rfl, rfl⟩ rfl rfl rfl rfl
  have hundrained : gapLeft.state.shared.content ≠ ∅ :=
    ne_empty_of_lookup (show gapLeft.state.shared.content.lookup (code 0) = some [7] from rfl)
  exact (run_live (fun _ _ => smoothOverall_spec) hleft).append
    (.cons ⟨⟨⟨trivial, trivial⟩, fun hno => absurd hno hundrained⟩, hrebuilt⟩
      (run_live (fun _ _ => smoothOverall_spec) hfilled))

/-- Keys are used twice, although every call succeeds: on a Kind that was drained, where the second
message is erased with the key of the first one; and after an `erase` of a key that no `readNext`
returned. -/
theorem keys_used_twice :
    (∃ (es : List (Happening Unit)) (x : Life Unit),
      Run (guarded (fun x e => (x.Unwrapped e ∧ x.Faultless e) ∧ x.Acknowledges e) (Life.Step [113]))
        (Life.start Unit KueueImpl.created.1 KueueImpl.created.2) es x ∧
      putsOf x.log = [(code 0, [7]), (code 0, [8])] ∧
      x.record.returns.map Return.answer
        = [.read 0 { status := some Status.ok, resultLen := some 1, data := some [7] },
          .taken 0 { status := some Status.ok, resultLen := some 1, data := some [7] },
          .erased 0 true] ∧
      x.record.removals.map (fun m => (m.key, m.value)) = [(0, some [7]), (0, some [8])] ∧
      ¬ x.Identifies) ∧
    ∃ (es : List (Happening Unit)) (x : Life Unit),
      Run (guarded (fun x e => (x.Unwrapped e ∧ x.Faultless e) ∧ x.Undrained e) (Life.Step [113]))
        (Life.start Unit KueueImpl.created.1 KueueImpl.created.2) es x ∧
      putsOf x.log = [(code 0, [7]), (code 1, [8]), (code 1, [9])] ∧ ¬ x.Identifies := by
  refine ⟨⟨_, otherErased, otherErased_run, rfl, rfl, rfl, fun hid => ?_⟩,
    _, gapFilled, gapFilled_run, rfl, fun hid => ?_⟩
  · have hkeys : (putsOf otherErased.log).map Prod.fst = [code 0, code 0] := rfl
    exact absurd (hkeys ▸ hid.keys) (by decide)
  · have hkeys : (putsOf gapFilled.log).map Prod.fst = [code 0, code 1, code 1] := rfl
    exact absurd (hkeys ▸ hid.keys) (by decide)

end Threads

end Librocks
