import Librocks.Kueue.Construct

/-!
# Sequential runs of a queue

`fifo_refinement`: over any number of calls of one thread and any pattern of store failures, a queue
behaves as the list of its messages. The client keeps to the protocol: `erase` gets only keys that an
earlier `readNext` returned, and puts stop before `maxKey` would wrap around. To say so, a `Session`
carries the keys returned so far and `top`, the value of `maxKey` without the wrap-around.
-/

namespace Librocks

open Rocks

/-! ## What the discipline implies -/

namespace Fifo

/-- A step appends one message, or drops some of the oldest ones. -/
theorem Step.evolves {f f' : Fifo} {l : KueueImpl.Label} (h : f.Step l f') :
    (∃ status v, l.call = .put status v ∧ f' = f.push v) ∨
      ∃ n ≤ f.msgs.length, f' = f.drop n := by
  obtain ⟨call, as, outcome⟩ := l
  have hsame : ∀ {g : Fifo}, g = f → ∃ n ≤ f.msgs.length, g = f.drop n :=
    fun hg => ⟨0, Nat.zero_le _, by rw [hg, drop_zero]⟩
  have hone : ∀ {m rest}, f.msgs = m :: rest → 1 ≤ f.msgs.length := by
    intro m rest hm
    simp [hm]
  cases call with
  | put status v =>
    cases outcome with
    | erased b => exact h.elim
    | reply r =>
      rcases Reports.done_or_undone h with hf | hf
      · exact .inl ⟨status, v, rfl, hf⟩
      · exact .inr (hsame hf)
  | take status valLen =>
    cases outcome with
    | erased b => exact h.elim
    | reply r =>
      rcases Reports.done_or_undone h with ⟨m, rest, hm, -, -, hf⟩ | hf
      · exact .inr ⟨1, hone hm, hf⟩
      · exact .inr (hsame hf)
  | takeTimed status valLen timeout =>
    cases outcome with
    | erased b => exact h.elim
    | reply r =>
      rcases Reports.done_or_undone h with ⟨m, rest, hm, -, -, hf⟩ | hf
      · exact .inr ⟨1, hone hm, hf⟩
      · exact .inr (hsame hf)
  | readNext status valLen pKey timeout =>
    cases outcome with
    | erased b => exact h.elim
    | reply r =>
      rcases Reports.done_or_undone h with ⟨_, _, _, _, _, _, hf⟩ | ⟨-, -, hf⟩
      · exact .inr (hsame hf)
      · exact .inr (hsame hf)
  | erase key =>
    cases outcome with
    | reply r => exact h.elim
    | erased b =>
      cases b with
      | true => exact .inr ⟨1, List.length_pos_of_ne_nil h.2.1, h.2.2⟩
      | false => exact .inr (hsame h)
  | clear status =>
    cases outcome with
    | erased b => exact h.elim
    | reply r =>
      obtain ⟨n, hn, hf, -⟩ := h
      exact .inr ⟨n, hn, hf⟩

end Fifo

namespace KueueImpl

/-- The keys that a call returned: `*pKey` after a `readNext` that succeeded. A caller without a status
pointer can tell success only by the buffer, so that the key of an empty message, which is written too, is
not counted for it. -/
def returnedKeys (l : Label) : List UInt64 :=
  match l.call, l.outcome with
  | .readNext status _ _ _, .reply r =>
      if r.status = some Status.ok ∨ (status = none ∧ r.value.isSome) then r.pKey.toList else []
  | _, _ => []

/-- A returned key is the key of the oldest message. -/
theorem returnedKeys_head {f f' : Fifo} {l : Label} (h : f.Step l f') {k : UInt64}
    (hk : k ∈ returnedKeys l) : k = UInt64.ofNat f.lo ∧ f.msgs ≠ [] ∧ f' = f := by
  obtain ⟨call, as, outcome⟩ := l
  cases call with
  | readNext status valLen pKey timeout =>
    cases outcome with
    | erased b => cases hk
    | reply r =>
      simp only [returnedKeys] at hk
      split_ifs at hk with hok
      · have hdone : ∃ m rest, f.msgs = m :: rest ∧ r.value = StoreImpl.buffer m ∧
            r.valLen = some m.length ∧ r.pKey = pKey.map (fun _ => UInt64.ofNat f.lo) ∧ f' = f := by
          cases status with
          | some c₀ =>
            obtain ⟨c, hc, hdone, -⟩ := h
            rcases hok with hst | ⟨hnone, -⟩
            · exact hdone (Option.some.inj (hc.symm.trans hst))
            · cases hnone
          | none =>
            obtain ⟨hst, hdone | ⟨-, hvalue, -⟩⟩ := h
            · exact hdone
            · rcases hok with hc | ⟨-, hsome⟩
              · rw [hst] at hc
                cases hc
              · rw [hvalue] at hsome
                cases hsome
        obtain ⟨m, rest, hm, -, -, hkey, hf⟩ := hdone
        refine ⟨?_, by simp [hm], hf⟩
        rw [hkey] at hk
        cases pKey with
        | none => simp at hk
        | some _ => simpa using hk
      · cases hk
  | put => cases hk
  | take => cases hk
  | takeTimed => cases hk
  | erase => cases hk
  | clear => cases hk

/-! ## Sessions -/

/-- A queue in use: the object, its store, the keys that `readNext` returned so far, and the value that
`maxKey` would have without wrapping around. -/
structure Session where
  queue : KueueImpl
  store : StoreImpl
  seen : List UInt64
  top : ℕ

namespace Session

structure Step (x : Session) (l : Label) (y : Session) : Prop where
  step : KueueImpl.Step (x.queue, x.store) l (y.queue, y.store)
  seen : y.seen = x.seen ++ returnedKeys l
  top : y.top = x.top + (y.queue.maxKey - x.queue.maxKey).toNat

/-- The protocol of the clients: `erase` only keys that were returned, and no put that would make
`maxKey` wrap around. -/
structure Polite (x : Session) (l : Label) : Prop where
  erase : ∀ key, l.call = .erase key → key ∈ x.seen
  put : ∀ status v, l.call = .put status v → x.top + 1 < 2 ^ 64

/-- The session represents `f`, and the keys seen are numbers from `first` on that are gone or name
the oldest message. -/
structure Tracked (kd : KindImpl) (first : ℕ) (x : Session) (f : Fifo) : Prop where
  rep : Rep kd (x.queue, x.store) f
  top : x.top = f.top
  seen : ∀ k ∈ x.seen, ∃ n, k = UInt64.ofNat n ∧ first ≤ n ∧ (n < f.lo ∨ n = f.lo ∧ f.msgs ≠ [])
  first_le : first ≤ f.lo
  noWrap : 0 < first ∨ f.top < 2 ^ 64

variable {kd : KindImpl} {first : ℕ} {x y : Session} {f : Fifo} {l : Label}

theorem Tracked.top_le (h : Tracked kd first x f) : f.top ≤ 2 ^ 64 := by
  obtain ⟨db, -, hst⟩ := h.rep.stored
  exact hst.top_le

/-- A polite call is admissible: a key that was seen and equals `minKey` still names a message. -/
theorem Tracked.admissible (h : Tracked kd first x f) (hp : Polite x l) : Admissible l.call f where
  put status v hc := by
    have := hp.put status v hc
    rw [h.top] at this
    omega
  erase key hc hkey := by
    obtain ⟨n, rfl, hfirst, hn⟩ := h.seen key (hp.erase key hc)
    rcases hn with hlt | ⟨-, hne⟩
    · -- two numbers below `2 ^ 64` with one code are equal, so `lo` must be `2 ^ 64` and `n` zero
      exfalso
      have htop := h.top_le
      have hle : f.lo ≤ f.top := Nat.le_add_right _ _
      have hmod : n % 2 ^ 64 = f.lo % 2 ^ 64 := by
        have := congrArg UInt64.toNat hkey
        simpa using this
      have hnowrap := h.noWrap
      omega
    · exact hne

/-- **One call of a polite client.** -/
theorem Tracked.step (h : Tracked kd first x f) (hp : Polite x l) (hstep : Step x l y) :
    ∃ f', f.Step l f' ∧ Tracked kd first y f' := by
  rcases run_rep h.rep l.call l.answers (h.admissible hp) with ⟨hblocked, -⟩ | ⟨o, z, f', hrun, hrep, hf⟩
  · exact absurd (hblocked.symm.trans hstep.step) (by simp)
  · obtain ⟨rfl, rfl⟩ := Prod.mk.inj (Except.ok.inj (hrun.symm.trans hstep.step))
    refine ⟨f', hf, ?_⟩
    have hmax : y.top = f.top + (UInt64.ofNat f'.top - UInt64.ofNat f.top).toNat := by
      rw [hstep.top, h.top, ← hrep.maxKey, ← h.rep.maxKey]
    have hreturned : ∀ k ∈ returnedKeys l,
        ∃ n, k = UInt64.ofNat n ∧ first ≤ n ∧ (n < f'.lo ∨ n = f'.lo ∧ f'.msgs ≠ []) := by
      intro k hk
      obtain ⟨rfl, hne, rfl⟩ := returnedKeys_head hf hk
      exact ⟨f'.lo, rfl, h.first_le, .inr ⟨rfl, hne⟩⟩
    rcases hf.evolves with ⟨status, v, hc, rfl⟩ | ⟨n, hn, rfl⟩
    · have hput := hp.put status v hc
      rw [h.top] at hput
      refine { rep := hrep, top := ?_, seen := ?_, first_le := h.first_le,
               noWrap := .inr (by rw [Fifo.top_push]; exact hput) }
      · rw [hmax, Fifo.top_push, UInt64.ofNat_add, UInt64.add_comm, UInt64.add_sub_cancel]
        rfl
      · intro k hk
        rw [hstep.seen, List.mem_append] at hk
        rcases hk with hk | hk
        · obtain ⟨n, rfl, hfirst, hlt | ⟨rfl, hne⟩⟩ := h.seen k hk
          · exact ⟨n, rfl, hfirst, .inl hlt⟩
          · exact ⟨f.lo, rfl, hfirst, .inr ⟨rfl, by simp [Fifo.push]⟩⟩
        · exact hreturned k hk
    · refine { rep := hrep, top := ?_, seen := ?_,
               first_le := h.first_le.trans (Nat.le_add_right _ _),
               noWrap := by rw [Fifo.top_drop hn]; exact h.noWrap }
      · rw [hmax, Fifo.top_drop hn, UInt64.sub_self]
        rfl
      · intro k hk
        rw [hstep.seen, List.mem_append] at hk
        rcases hk with hk | hk
        · obtain ⟨i, rfl, hfirst, hi⟩ := h.seen k hk
          refine ⟨i, rfl, hfirst, ?_⟩
          cases n with
          | zero => rwa [Fifo.drop_zero]
          | succ n => exact .inl (by simp only [Fifo.drop]; omega)
        · exact hreturned k hk

/-- A run of a polite client follows the discipline, and the session stays tracked. -/
theorem Tracked.run {ls : List Label} (h : Tracked kd first x f)
    (hrun : Run (guarded Polite Step) x ls y) :
    ∃ f', Run Fifo.Step f ls f' ∧ Tracked kd first y f' :=
  hrun.simulates (R := Tracked kd first)
    (fun _ _ _ _ htr hst => htr.step hst.1 hst.2) h

/-- A queue on a Kind that holds every key there is. Its count is zero modulo `2 ^ 64`, so that a polite
client can do nothing with it. -/
structure Full (kd : KindImpl) (x : Session) (f : Fifo) : Prop where
  rep : Rep kd (x.queue, x.store) f
  length : f.msgs.length = 2 ^ 64
  seen : x.seen = []
  top : x.top = 2 ^ 64

theorem Full.count (h : Full kd x f) : x.queue.count = 0 := by
  rw [show x.queue.count = _ from h.rep.count, h.length]
  decide

theorem Full.step (h : Full kd x f) (hp : Polite x l) (hstep : Step x l y) :
    f.Step l f ∧ Full kd y f := by
  have hvalid : x.queue.isValid_ = true := h.rep.valid
  have hcount := h.count
  have hpos : ¬ x.queue.count > 0 := by rw [hcount]; decide
  -- the only calls that get through change nothing and return no key
  have hidle : l.call.run l.answers x.queue x.store = .ok (l.outcome, x.queue, x.store) ∧
      f.Step l f ∧ returnedKeys l = [] := by
    have hrun := hstep.step
    obtain ⟨call, as, outcome⟩ := l
    cases call with
    | put status v =>
      have := hp.put status v rfl
      rw [h.top] at this
      omega
    | take status valLen =>
      simp only [KueueImpl.Step, Call.run, take, hvalid, if_true, if_pos hcount] at hrun
      cases hrun
    | takeTimed status valLen timeout =>
      simp only [KueueImpl.Step, Call.run, takeTimed, waitFor, hvalid, if_true, if_neg hpos] at hrun ⊢
      split_ifs at hrun with ht
      · obtain ⟨rfl, -⟩ := Prod.mk.inj (Except.ok.inj hrun)
        exact ⟨by rw [if_pos ht]; rfl, Reports.of_undone (by decide) rfl rfl, rfl⟩
      · cases hrun
    | readNext status valLen pKey timeout =>
      simp only [KueueImpl.Step, Call.run, readNext, waitFor, hvalid, if_true, if_neg hpos] at hrun ⊢
      split_ifs at hrun with ht
      · obtain ⟨rfl, -⟩ := Prod.mk.inj (Except.ok.inj hrun)
        refine ⟨by rw [if_pos ht]; rfl, Reports.of_undone (by decide) rfl ⟨rfl, rfl, rfl⟩, ?_⟩
        cases status <;> rfl
      · cases hrun
    | erase key =>
      have := hp.erase key rfl
      rw [h.seen] at this
      cases this
    | clear status =>
      simp only [KueueImpl.Step, Call.run, clear, hvalid, if_true, h.rep.getKindRef_eq, ok_bind,
        show x.queue.count.toInt.toNat = 0 by rw [hcount]; rfl, clearLoop] at hrun ⊢
      obtain ⟨rfl, -⟩ := Prod.mk.inj (Except.ok.inj hrun)
      refine ⟨rfl, ⟨0, Nat.zero_le _, f.drop_zero.symm, fun hlt => ?_⟩, rfl⟩
      have := h.length
      omega
  obtain ⟨hrun, hf, hret⟩ := hidle
  obtain ⟨-, hsame⟩ := Prod.mk.inj (Except.ok.inj (hrun.symm.trans hstep.step))
  obtain ⟨hq, hs⟩ := Prod.mk.inj hsame
  refine ⟨hf, { rep := ?_, length := h.length, seen := ?_, top := ?_ }⟩
  · rw [← hq, ← hs]
    exact h.rep
  · rw [hstep.seen, h.seen, hret]
    rfl
  · rw [hstep.top, h.top, ← hq, UInt64.sub_self]
    rfl

theorem Full.run {ls : List Label} (h : Full kd x f) (hrun : Run (guarded Polite Step) x ls y) :
    Run Fifo.Step f ls f ∧ Full kd y f := by
  have hstep : ∀ x f' l t, f' = f ∧ Full kd x f → guarded Polite Step x l t →
      ∃ t', Fifo.Step f' l t' ∧ t' = f ∧ Full kd t f := by
    rintro x f' l t ⟨hsame, hx⟩ ⟨hp, hst⟩
    obtain ⟨hf, ht⟩ := hx.step hp hst
    rw [hsame]
    exact ⟨f, hf, rfl, ht⟩
  obtain ⟨f', hrun', rfl, hfull⟩ := hrun.simulates hstep ⟨rfl, h⟩
  exact ⟨hrun', hfull⟩

end Session

/-- **First in, first out.** A valid queue built on a contiguous Kind refines the list of messages
stored there: every run of a polite client follows the discipline, whatever the store answers, and in
the state it reaches the object represents the abstract queue. A further polite call returns, or it
waits on an empty queue. -/
theorem fifo_refinement {s s₁ : StoreImpl} {db db₁ : Db} {aKind aMin aMax : Answers} {id : Bytes}
    {q : KueueImpl} {kd : KindImpl} {lo hi : ℕ} (hopen : s.OpenWith db)
    (hnew : new aKind aMin aMax id s = .ok (q, s₁)) (hvalid : q.isValid_ = true)
    (hmin : aMin.seek = none) (hmax : aMax.seek = none) (hopen₁ : s₁.OpenWith db₁)
    (hkind : q.queueKind = some (.impl kd)) (hc : Contiguous kd.handle db₁ lo hi) :
    ∃ f₀ : Fifo, db₁.data kd.handle = FMap.segment code f₀.lo f₀.msgs ∧
      f₀.msgs.length = hi - lo ∧
      ∀ ls x, Run (guarded Session.Polite Session.Step) ⟨q, s₁, [], if lo < hi then hi else 0⟩ ls x →
        ∃ f, Run Fifo.Step f₀ ls f ∧ Rep kd (x.queue, x.store) f ∧
          ∀ l, Session.Polite x l →
            (∃ o y, l.call.run l.answers x.queue x.store = .ok (o, y)) ∨
            (l.call.run l.answers x.queue x.store = .error .blocked ∧
              (f.msgs.length < 2 ^ 63 → f.msgs = [])) := by
  obtain ⟨f₀, ⟨hrep, -⟩, hdata, hlen, hlo⟩ :=
    new_rep hopen hnew hvalid hopen₁ hkind (.inl ⟨hmin, hmax⟩) hc
  have htop : (if lo < hi then hi else 0) = f₀.top := by
    have := hc.le
    simp only [Fifo.top, hlen, hlo]
    split_ifs <;> omega
  refine ⟨f₀, hdata, hlen, fun ls x hrun => ?_⟩
  -- whatever the session tracks, an admissible call returns or waits on an empty queue
  have hnext : ∀ {f : Fifo} {l : Label}, Rep kd (x.queue, x.store) f → Admissible l.call f →
      (∃ o y, l.call.run l.answers x.queue x.store = .ok (o, y)) ∨
      (l.call.run l.answers x.queue x.store = .error .blocked ∧
        (f.msgs.length < 2 ^ 63 → f.msgs = [])) := by
    intro f l hr ha
    rcases run_rep hr l.call l.answers ha with hb | ⟨o, y, f', hok, -, -⟩
    · exact .inr hb
    · exact .inl ⟨o, y, hok⟩
  have hhi := hc.hi_le
  by_cases hfull : lo = 0 ∧ hi = 2 ^ 64
  · have hx : Session.Full kd ⟨q, s₁, [], if lo < hi then hi else 0⟩ f₀ :=
      { rep := hrep, length := (by omega), seen := rfl,
        top := (if_pos (by omega)).trans hfull.2 }
    obtain ⟨hf, hx'⟩ := hx.run hrun
    refine ⟨f₀, hf, hx'.rep, fun l hp => hnext hx'.rep ⟨fun status v hcall => ?_, fun key hcall => ?_⟩⟩
    · have := hp.put status v hcall
      rw [hx'.top] at this
      omega
    · have := hp.erase key hcall
      rw [hx'.seen] at this
      cases this
  · have hx : Session.Tracked kd f₀.lo ⟨q, s₁, [], if lo < hi then hi else 0⟩ f₀ :=
      { rep := hrep, top := htop, seen := fun _ hk => absurd hk List.not_mem_nil, first_le := le_rfl,
        noWrap := by
          rw [← htop, hlo]
          split_ifs <;> omega }
    obtain ⟨f, hf, hx'⟩ := hx.run hrun
    exact ⟨f, hf, hx'.rep, fun l hp => hnext hx'.rep (hx'.admissible hp)⟩

private def putSeven : Call := .put (some 0) [7]

private def readSeven : Call := .readNext (some 0) (some 0) (some 9) 0

private def sevenPut : KueueImpl × StoreImpl := putSeven.after (fun _ => {}) created

/-- A message is put, read and erased with the key that was read. -/
theorem fifo_refinement_put_read_erase :
    ∃ (f₀ f : Fifo) (x : Session) (ls : List Label), f₀.msgs = [] ∧
      ls.map (fun l => l.outcome) = [.reply { status := some 0 },
        .reply { status := some 0, valLen := some 1, value := some [7], pKey := some 0 },
        .erased true] ∧
      Run (guarded Session.Polite Session.Step) ⟨created.1, created.2, [], 0⟩ ls x ∧
      Run Fifo.Step f₀ ls f ∧ Rep createdKind (x.queue, x.store) f := by
  obtain ⟨db, hopen, hc⟩ := created_contiguous
  have hcreated : StoreImpl.created.OpenWith (Db.created.beginTransaction true none).2 := ⟨rfl, rfl⟩
  obtain ⟨f₀, -, hlen, hruns⟩ :=
    fifo_refinement hcreated new_created rfl rfl rfl hopen rfl hc
  have hput : Session.Step ⟨created.1, created.2, [], 0⟩
      ⟨putSeven, fun _ => {}, .reply { status := some 0 }⟩ ⟨sevenPut.1, sevenPut.2, [], 1⟩ :=
    ⟨Call.step_after rfl, rfl, rfl⟩
  have hread : Session.Step ⟨sevenPut.1, sevenPut.2, [], 1⟩
      ⟨readSeven, fun _ => {},
        .reply { status := some 0, valLen := some 1, value := some [7], pKey := some 0 }⟩
      ⟨(readSeven.after (fun _ => {}) sevenPut).1, (readSeven.after (fun _ => {}) sevenPut).2, [0], 1⟩ :=
    ⟨Call.step_after rfl, rfl, rfl⟩
  have herase : Session.Step
      ⟨(readSeven.after (fun _ => {}) sevenPut).1, (readSeven.after (fun _ => {}) sevenPut).2, [0], 1⟩
      ⟨.erase 0, fun _ => {}, .erased true⟩
      ⟨((Call.erase 0).after (fun _ => {}) (readSeven.after (fun _ => {}) sevenPut)).1,
        ((Call.erase 0).after (fun _ => {}) (readSeven.after (fun _ => {}) sevenPut)).2, [0], 1⟩ :=
    ⟨Call.step_after rfl, rfl, rfl⟩
  have hrun : Run (guarded Session.Polite Session.Step) ⟨created.1, created.2, [], 0⟩ _ _ :=
    .cons ⟨⟨fun _ h => (by cases h), fun _ _ _ => (by decide)⟩, hput⟩ <|
    .cons ⟨⟨fun _ h => (by cases h), fun _ _ h => (by cases h)⟩, hread⟩ <|
    .single ⟨⟨fun _ h => (by cases h; decide), fun _ _ h => (by cases h)⟩, herase⟩
  obtain ⟨f, hf, hrep, -⟩ := hruns _ _ hrun
  exact ⟨f₀, f, _, _, List.length_eq_zero_iff.mp hlen, rfl, hrun, hf, hrep⟩

end KueueImpl

end Librocks
