import Librocks.Kueue.Counting

/-!
# Acknowledgements and removals

A consumer acknowledges a message when `take` returns it with Ok or `erase` returns true for its key.
`Ledger A` says that every acknowledgement of the kind `A` is backed by a removal of the same call: the
call itself deleted the key, and a `take` returned what was stored there. It is kept by every step but
one. When the second test of `erase` fails, `erase` returns true for a key that another call removed.
-/

namespace Librocks.Threads

open Rocks

/-- The answer acknowledges the message under the key. -/
def Answer.Acks (key : UInt64) : Answer → Prop
  | .taken k r => k = key ∧ r.status = some Status.ok
  | .erased k b => k = key ∧ b = true
  | _ => False

/-- A `take` that returned with Ok. -/
def Answer.Took : Answer → Prop
  | .taken _ r => r.status = some Status.ok
  | _ => False

/-- The answer that a control point leads to. -/
def Pc.answer : Pc → Option Answer
  | .removeNext (.answer ans) | .removeSub (.answer ans) => some ans
  | .removeNotify ans _ | .takeUnlock ans => some ans
  | _ => none

variable {T : Type}

/-- The removal `m` was made by the call `n` of the thread `t`, which answers with `ans`. -/
structure Backs (m : Removed T) (t : T) (n : ℕ) (ans : Answer) : Prop where
  thread : m.thread = t
  call : m.call = n
  key : ∀ key, ans.Acks key → m.key = key
  value : ∀ key r, ans = .taken key r →
    ∃ v, m.value = some v ∧ r.data = StoreImpl.buffer v ∧ r.resultLen = some v.length

/-- Acknowledgements of the kind `A` are backed by removals, from the moment they are decided on. -/
structure Ledger (A : Answer → Prop) (x : State T) : Prop where
  pending : ∀ t ans, (x.pc t).answer = some ans → A ans →
    ∃ m ∈ x.shared.removals, Backs m t (x.shared.calls t) ans
  returned : ∀ ret ∈ x.shared.returns, A ret.answer →
    ∃ m ∈ x.shared.removals, Backs m ret.thread ret.call ret.answer

theorem Ledger.start (A : Answer → Prop) (q : KueueImpl) (s : StoreImpl) :
    Ledger A (State.start T q s) where
  pending _ _ h := nomatch h
  returned _ h := nomatch h

variable [DecidableEq T] {t : T} {ch : Choice T} {sh sh' : Shared T} {p p' : Pc} {ans : Answer}
  {kd : KindImpl} {db : Db} {key : UInt64}

theorem Wait.answer_body (w : Wait) : w.body.answer = none := by
  cases w with
  | mk consumer => cases consumer <;> rfl

theorem Op.answer_start (op : Op) (valid : Bool) : (op.start valid).answer = none := by
  cases op <;> cases valid <;> rfl

/-- Removals stay on the record, and only a new call changes the number of calls of the thread. -/
theorem Move.calls_removals (h : Move t ch sh p p' sh') :
    (∀ m ∈ sh.removals, m ∈ sh'.removals) ∧ (∀ u, u ≠ t ∨ p ≠ .idle → sh'.calls u = sh.calls u) := by
  cases h with
  | call =>
    refine ⟨fun _ hm => hm, fun u hu => ?_⟩
    exact Function.update_of_ne (hu.resolve_right fun hp => hp rfl) _ _
  | takeStore | eraseStore | clearStore =>
    exact ⟨fun _ hm => List.mem_append_left _ hm, fun _ _ => rfl⟩
  | sigNotify hn | removeNotify _ hn =>
    rw [notifyOne_eq hn]
    exact ⟨fun _ hm => hm, fun _ _ => rfl⟩
  | _ => exact ⟨fun _ hm => hm, fun _ _ => rfl⟩

/-- What a step adds to the returned answers is the answer that the control point led to. Only the
refusal of the first test of `erase` comes without one. -/
theorem Move.returns (h : Move t ch sh p p' sh') :
    sh'.returns = sh.returns ∨
      ∃ ans, sh'.returns = sh.returns ++ [⟨t, sh.calls t, ans⟩] ∧
        (p.answer = some ans ∨ ∃ k, ans = .erased k false) := by
  cases h with
  | takeUnlock => exact .inr ⟨_, rfl, .inl rfl⟩
  | eraseRefused => exact .inr ⟨_, rfl, .inr ⟨_, rfl⟩⟩
  | sigNotify hn | removeNotify _ hn =>
    rw [notifyOne_eq hn]
    exact .inl rfl
  | _ => exact .inl rfl

omit [DecidableEq T] in
/-- The removal of a `take` is what its answer tells. -/
theorem backs_taken {w : Wait} {r : StoreImpl.Reply} {store : StoreImpl} {n : ℕ}
    (hkd : sh.queue.queueKind = some (.impl kd)) (hopen : sh.store.OpenWith db)
    (hremove : sh.store.singleRemoveIfPresent ch.answers (some w.state) (.impl kd) w.valLen
      (some (putU64BE sh.queue.minKey)) = .ok (r, store)) (hst : r.status = some Status.ok) :
    Backs ⟨t, n, sh.queue.minKey, sh.head⟩ t n (.taken sh.queue.minKey r) := by
  refine ⟨rfl, rfl, fun key hk => hk.1, fun key r' hr => ?_⟩
  cases hr
  obtain ⟨r', s', db', hrun, hres⟩ :=
    StoreImpl.ifPresent_open hopen ch.answers
      (fun key fam => .singleDelete fam key ch.answers.undefined) (some w.state) (.impl kd) w.valLen
      (some (putU64BE sh.queue.minKey))
  obtain ⟨rfl, rfl⟩ := Prod.mk.inj (Except.ok.inj (hrun.symm.trans hremove))
  rcases hres with ⟨c, hc, hst', -⟩ | ⟨k, key', v, hk, hkey, -, hlookup, hdata, hlen, -⟩
  · exact absurd (Option.some.inj (hst'.symm.trans hst)) hc
  · cases hk
    cases hkey
    exact ⟨v, (Shared.head_eq hopen hkd).trans hlookup, hdata, hlen⟩

/-- **Where acknowledgements come from.** An acknowledgement was decided on before, or the step made
the removal that backs it, or it is an `erase` whose second test failed. -/
theorem Move.answer (h : Move t ch sh p p' sh') (hkd : sh.queue.queueKind = some (.impl kd))
    (hopen : sh.store.OpenWith db) (ha : p'.answer = some ans) (hack : ans.Acks key) :
    p.answer = some ans ∨
      (∃ m ∈ sh'.removals, Backs m t (sh'.calls t) ans) ∨
      (p = .eraseCheck key ∧ key ≠ sh.queue.minKey ∧ ans = .erased key true) := by
  cases h with
  | call => exact absurd ha (by rw [Op.answer_start]; simp)
  | waitPasses | lastPasses => exact absurd ha (by rw [Wait.answer_body]; simp)
  | takeStore hkind hremove hst =>
    obtain rfl := Option.some.inj (hkind.symm.trans hkd)
    obtain rfl := Option.some.inj ha
    exact .inr (.inl ⟨_, List.mem_append_right _ (List.mem_singleton_self _),
      backs_taken hkd hopen hremove hst⟩)
  | eraseStore =>
    obtain rfl := Option.some.inj ha
    exact .inr (.inl ⟨_, List.mem_append_right _ (List.mem_singleton_self _), rfl, rfl,
      fun _ hk => hk.1, fun _ _ => Answer.noConfusion⟩)
  | eraseLate hne =>
    obtain rfl := Option.some.inj ha
    obtain ⟨rfl, -⟩ := hack
    exact .inr (.inr ⟨rfl, hne, rfl⟩)
  | takeStoreFailed _ _ hst =>
    obtain rfl := Option.some.inj ha
    exact absurd hack.2 hst
  | eraseStoreFailed =>
    obtain rfl := Option.some.inj ha
    exact absurd hack.2 (by simp)
  | readStore | lastFails =>
    obtain rfl := Option.some.inj ha
    exact hack.elim
  | removeNext =>
    rename_i k
    cases k <;> exact .inl ha
  | removeSub | removeNotify | removeSilent => exact .inl ha
  | _ => exact absurd ha (by simp [Pc.answer])

/-- **One step keeps the ledger**, unless it lets an `erase` return true for a key that is gone. -/
theorem Ledger.step {A : Answer → Prop} {x y : State T} {l : Label T} (h : Ledger A x)
    (hA : ∀ ans, A ans → ∃ key, ans.Acks key)
    (hkd : x.shared.queue.queueKind = some (.impl kd)) (hopen : x.shared.store.OpenWith db)
    (hlate : ∀ key, A (.erased key true) → x.pc l.thread = .eraseCheck key →
      key = x.shared.queue.minKey) (hs : Step x l y) : Ledger A y := by
  obtain ⟨p', hmove, hpc⟩ := hs.move
  obtain ⟨hsub, hcalls⟩ := hmove.calls_removals
  -- an answer that is due was due before, or is backed at once
  have hidle : ∀ {ans}, (x.pc l.thread).answer = some ans → x.pc l.thread ≠ .idle := by
    intro ans ha hp
    rw [hp] at ha
    cases ha
  constructor
  · intro t ans ha hans
    by_cases ht : t = l.thread
    · subst ht
      rw [hpc, Function.update_self] at ha
      obtain ⟨key, hack⟩ := hA ans hans
      rcases hmove.answer hkd hopen ha hack with hold | hnew | ⟨hp, hne, rfl⟩
      · obtain ⟨m, hm, hb⟩ := h.pending _ _ hold hans
        rw [hcalls _ (.inr (hidle hold))]
        exact ⟨m, hsub m hm, hb⟩
      · exact hnew
      · exact absurd (hlate key hans hp) hne
    · rw [hpc, Function.update_of_ne ht] at ha
      obtain ⟨m, hm, hb⟩ := h.pending t ans ha hans
      rw [hcalls t (.inl ht)]
      exact ⟨m, hsub m hm, hb⟩
  · intro ret hret hans
    rcases hmove.returns with heq | ⟨ans, heq, hfrom⟩
    · rw [heq] at hret
      obtain ⟨m, hm, hb⟩ := h.returned ret hret hans
      exact ⟨m, hsub m hm, hb⟩
    · rw [heq] at hret
      rcases List.mem_append.mp hret with hold | hnew
      · obtain ⟨m, hm, hb⟩ := h.returned ret hold hans
        exact ⟨m, hsub m hm, hb⟩
      · obtain rfl := List.mem_singleton.mp hnew
        rcases hfrom with hp | ⟨k, rfl⟩
        · obtain ⟨m, hm, hb⟩ := h.pending _ _ hp hans
          exact ⟨m, hsub m hm, hb⟩
        · obtain ⟨key, hack⟩ := hA _ hans
          exact absurd hack.2 (by simp)

end Librocks.Threads
