import Librocks.Kueue.Counting
import Librocks.Store.Buffers

/-!
# The lengths that a queue returns

Reference: `include/impl/KueueImpl.h`.

`take` and `readNext` hand their `valLen` to the store, which resets it. A queue that is not valid
and a wait that times out answer before that: the null pointer comes with whatever the variable
held. `lengths_agree_iff` puts this together with the methods of the store. For the threads it looks
at the step in which the answer of a call is settled, from any state at all.
-/

namespace Librocks

namespace KueueImpl

/-- What the length variable holds before a call that returns a buffer, if the pointer is not null.
-/
def Call.length : Call → Option ℕ
  | .take _ len | .takeTimed _ len _ | .readNext _ len _ _ => len
  | _ => none

/-- The Kind of the queue is not valid, so that the store refuses it. -/
def KindRefused (q : KueueImpl) : Prop := ∃ kind, q.queueKind = some kind ∧ kind.isValid = false

/-- The call answers before the store has reset the length. -/
def Call.GivesUp (q : KueueImpl) : Call → Prop
  | .take .. => q.isValid_ = false ∨ q.KindRefused
  | .takeTimed .. | .readNext .. => q.isValid_ = false ∨ ¬ q.count > 0 ∨ q.KindRefused
  | _ => False

variable {q q' : KueueImpl} {s s' : StoreImpl} {a : Answers} {status : Option ℤ} {n : ℕ} {r : Reply}

/-- The store calls of `take` and `readNext` refuse nothing but the Kind. -/
theorem kindRefused_iff {kind : Kind} (hkind : q.queueKind = some kind) (key : Bytes) :
    q.KindRefused ↔ some key = none ∨ kind.isValid = false := by
  constructor
  · rintro ⟨kind', hkind', hno⟩
    obtain rfl := Option.some.inj (hkind.symm.trans hkind')
    exact .inr hno
  · rintro (hno | hno)
    · cases hno
    · exact ⟨kind, hkind, hno⟩

theorem takeNow_agrees_iff (hrun : q.takeNow a status (some n) s = .ok (r, q', s')) :
    LengthAgrees r.valLen r.value ↔ (q.KindRefused → n = 0) := by
  obtain ⟨kind, hkind, hrun⟩ := exists_of_bind_eq_ok hrun
  obtain ⟨⟨reply, s₁⟩, hcall, hrun⟩ := exists_of_bind_eq_ok hrun
  cases hrun
  rw [kindRefused_iff (queueKind_of_getKindRef hkind) (putU64BE q.minKey)]
  exact StoreImpl.Call.run_agrees_iff
    (c := .singleRemoveIfPresent (localState status) kind (some n) (some (putU64BE q.minKey))) rfl hcall

theorem readNow_agrees_iff {pKey : Option UInt64}
    (hrun : q.readNow a status (some n) pKey s = .ok (r, q', s')) :
    LengthAgrees r.valLen r.value ↔ (q.KindRefused → n = 0) := by
  obtain ⟨kind, hkind, hrun⟩ := exists_of_bind_eq_ok hrun
  obtain ⟨⟨reply, s₁⟩, hcall, hrun⟩ := exists_of_bind_eq_ok hrun
  cases hrun
  rw [kindRefused_iff (queueKind_of_getKindRef hkind) (putU64BE q.minKey)]
  exact StoreImpl.Call.run_agrees_iff
    (c := .get (localState status) kind (some n) (some (putU64BE q.minKey))) rfl hcall

/-- The operations with a timeout. -/
theorem waitFor_agrees_iff {timeout : ℤ} {pKey : Option UInt64}
    {body : Except Halt (Reply × KueueImpl × StoreImpl)}
    (hbody : body = .ok (r, q', s') → (LengthAgrees r.valLen r.value ↔ (q.KindRefused → n = 0)))
    (hrun : q.waitFor timeout status (some n) pKey s body = .ok (r, q', s')) :
    LengthAgrees r.valLen r.value ↔
      (q.isValid_ = false ∨ ¬ q.count > 0 ∨ q.KindRefused → n = 0) := by
  cases hv : q.isValid_ with
  | false =>
    simp only [waitFor, hv] at hrun
    cases hrun
    exact StoreImpl.agrees_of_refused (.inl rfl)
  | true =>
    simp only [waitFor, hv, if_true] at hrun
    by_cases hpos : q.count > 0
    · rw [if_pos hpos] at hrun
      rw [hbody hrun]
      simp [hpos]
    · rw [if_neg hpos] at hrun
      split_ifs at hrun
      cases hrun
      exact StoreImpl.agrees_of_refused (.inr (.inl hpos))

/-- **The length of a returned message**, with one thread. -/
theorem Call.run_agrees_iff {as : ℕ → Answers} {c : Call} (hlen : c.length = some n)
    {y : KueueImpl × StoreImpl} (hrun : c.run as q s = .ok (.reply r, y)) :
    LengthAgrees r.valLen r.value ↔ (c.GivesUp q → n = 0) := by
  cases c with
  | take status valLen =>
    obtain rfl : valLen = some n := hlen
    obtain ⟨⟨r', q₁, s₁⟩, hcall, hx⟩ := exists_of_map_eq_ok hrun
    cases hx
    cases hv : q.isValid_ with
    | false =>
      simp only [KueueImpl.take, hv] at hcall
      cases hcall
      exact StoreImpl.agrees_of_refused (.inl hv)
    | true =>
      simp only [KueueImpl.take, hv, if_true] at hcall
      split_ifs at hcall
      rw [takeNow_agrees_iff hcall]
      simp [GivesUp, hv]
  | takeTimed status valLen timeout =>
    obtain rfl : valLen = some n := hlen
    obtain ⟨⟨r', q₁, s₁⟩, hcall, hx⟩ := exists_of_map_eq_ok hrun
    cases hx
    exact waitFor_agrees_iff takeNow_agrees_iff hcall
  | readNext status valLen pKey timeout =>
    obtain rfl : valLen = some n := hlen
    obtain ⟨⟨r', q₁, s₁⟩, hcall, hx⟩ := exists_of_map_eq_ok hrun
    cases hx
    exact waitFor_agrees_iff readNow_agrees_iff hcall
  | _ => cases hlen

end KueueImpl

/-! ## Threads -/

namespace Threads

variable {T : Type} [DecidableEq T]

omit [DecidableEq T] in
/-- What a call of a consumer leaves in its length variable and returns, seen from the step that
settles it: the call itself on a queue that is not valid, the last test of a wait that timed out, or
the store call. -/
def settled (valid : Bool) (ch : Choice T) : Pc → Pc → Option (Wait × Option ℕ × Option Bytes)
  | .idle, _ =>
      match ch.op with
      | .consume w => if valid then none else some (w, w.valLen, none)
      | _ => none
  | .waitLast w, .takeUnlock .timedOut => some (w, w.valLen, none)
  | .takeStore w, .removeNext (.answer (.taken _ r)) => some (w, r.resultLen, r.data)
  | .takeStore w, .takeUnlock (.taken _ r) => some (w, r.resultLen, r.data)
  | .readStore w, .takeUnlock (.read _ r) => some (w, r.resultLen, r.data)
  | _, _ => none

/-- The step settles the call before the store has reset the length. -/
def Pc.GivesUp (q : KueueImpl) : Pc → Prop
  | .takeStore _ | .readStore _ => q.KindRefused
  | _ => True

/-- **The length of a returned message**, with any number of threads. -/
theorem Move.agrees_iff {t : T} {ch : Choice T} {sh sh' : Shared T} {p p' : Pc}
    (h : Move t ch sh p p' sh') {w : Wait} {len : Option ℕ} {data : Option Bytes}
    (hsettled : settled sh.queue.isValid_ ch p p' = some (w, len, data)) {n : ℕ}
    (hn : w.valLen = some n) :
    LengthAgrees len data ↔ (p.GivesUp sh.queue → n = 0) := by
  cases h with
  | call =>
    simp only [settled] at hsettled
    split at hsettled
    · split_ifs at hsettled
      cases hsettled
      rw [hn]
      exact StoreImpl.agrees_of_refused trivial
    · cases hsettled
  | lastFails =>
    cases hsettled
    rw [hn]
    exact StoreImpl.agrees_of_refused trivial
  | takeStore hkind hcall | takeStoreFailed hkind hcall =>
    cases hsettled
    rw [hn] at hcall
    rw [Pc.GivesUp, KueueImpl.kindRefused_iff hkind (putU64BE sh.queue.minKey)]
    exact StoreImpl.Call.run_agrees_iff
      (c := .singleRemoveIfPresent (some w.state) _ (some n) (some (putU64BE sh.queue.minKey))) rfl hcall
  | readStore hkind hcall =>
    cases hsettled
    rw [hn] at hcall
    rw [Pc.GivesUp, KueueImpl.kindRefused_iff hkind (putU64BE sh.queue.minKey)]
    exact StoreImpl.Call.run_agrees_iff
      (c := .get (some w.state) _ (some n) (some (putU64BE sh.queue.minKey))) rfl hcall
  | waitPasses | lastPasses =>
    rename_i w' _
    obtain ⟨consumer, state, valLen⟩ := w'
    cases consumer <;> cases hsettled
  | _ => cases hsettled

end Threads

/-- **Buffers and lengths agree**, for every method of the store and the queue that returns a
buffer, exactly when the call is not settled before the length is reset, or the length was zero
anyway. -/
theorem lengths_agree_iff {s : StoreImpl} (hs : s.Sound) (a : Answers) (q : KueueImpl)
    (as : ℕ → Answers) {T : Type} [DecidableEq T] {x y : Threads.State T} {l : Threads.Label T}
    (hstep : Threads.Step x l y) :
    (∀ (c : StoreImpl.Call) n, c.length = some n →
      ∃ r s', c.run a s = .ok (r, s') ∧
        (LengthAgrees r.resultLen r.data ↔ (c.Refused → n = 0))) ∧
    (∀ (c : KueueImpl.Call) n r z, c.length = some n → c.run as q s = .ok (.reply r, z) →
      (LengthAgrees r.valLen r.value ↔ (c.GivesUp q → n = 0))) ∧
    ∀ w len data n,
      Threads.settled x.shared.queue.isValid_ l.choice (x.pc l.thread) (y.pc l.thread)
        = some (w, len, data) → w.valLen = some n →
      (LengthAgrees len data ↔ ((x.pc l.thread).GivesUp x.shared.queue → n = 0)) := by
  refine ⟨fun c n hlen => ?_, fun c n r z hlen hrun => ?_, fun w len data n hsettled hn => ?_⟩
  · obtain ⟨r, s', hrun, -⟩ := StoreImpl.run_sound hs a c
    exact ⟨r, s', hrun, StoreImpl.Call.run_agrees_iff hlen hrun⟩
  · exact KueueImpl.Call.run_agrees_iff hlen hrun
  · obtain ⟨p', hmove, hpc⟩ := hstep.move
    rw [hpc, Function.update_self] at hsettled
    exact hmove.agrees_iff hsettled hn

namespace KueueImpl

private def oneWaiting : KueueImpl × StoreImpl := (Call.put (some 0) [7]).after (fun _ => {}) created

/-- A thread at the store call of a `take` whose length variable holds nine. -/
private def taking : Threads.State Unit :=
  ⟨{ queue := oneWaiting.1, store := oneWaiting.2 }, fun _ => .takeStore ⟨.take, 0, some 9⟩⟩

theorem lengths_agree_iff_taking :
    ∃ y, Threads.Step taking ⟨(), {}⟩ y ∧
      ∃ w len data, Threads.settled true ({} : Threads.Choice Unit) (taking.pc ()) (y.pc ())
        = some (w, len, data) ∧ data = some [7] ∧ LengthAgrees len data := by
  have hsound : oneWaiting.2.Sound := fun _ => rfl
  obtain ⟨y, hstep, hsettled⟩ : ∃ y, Threads.Step taking ⟨(), {}⟩ y ∧
      Threads.settled true ({} : Threads.Choice Unit) (taking.pc ()) (y.pc ())
        = some (⟨.take, 0, some 9⟩, some 1, some [7]) := ⟨_, rfl, rfl⟩
  have hiff := (lengths_agree_iff hsound {} oneWaiting.1 (fun _ => {}) hstep).2.2 _ _ _ 9 hsettled rfl
  refine ⟨y, hstep, _, _, _, hsettled, rfl, hiff.mpr ?_⟩
  rintro ⟨kind, hkind, hno⟩
  have hkind' : some (Kind.impl createdKind) = some kind := hkind
  cases hkind'
  exact absurd hno (by decide)

/-- A Kind that is not valid, a queue that is not valid, and a timeout: a null pointer is returned
beside the length nine that the variable held. -/
theorem lengths_left_behind :
    StoreImpl.created.get {} (some 0) (.impl StoreImpl.EmptyKind) (some 9) (some [1])
        = .ok ({ status := some Status.invalidArgument, resultLen := some 9 }, .created) ∧
      KueueImpl.take {} (some 0) (some 9) {} StoreImpl.created
        = .ok ({ status := some Status.invalid, valLen := some 9 }, {}, .created) ∧
      created.1.takeTimed {} (some 0) (some 9) 1 created.2
        = .ok ({ status := some Status.timedOut, valLen := some 9 }, created) ∧
      ¬ LengthAgrees (some 9) none := by
  refine ⟨rfl, rfl, rfl, fun hno => ?_⟩
  exact absurd (StoreImpl.lengthAgrees_none_iff.mp hno) (by decide)

end KueueImpl

end Librocks
