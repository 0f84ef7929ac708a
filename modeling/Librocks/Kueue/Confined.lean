import Librocks.Kueue.Spec
import Librocks.Store.Families

/-!
# What a queue does to the rest of its store

A queue reaches the store only by calls through its own Kind (`Calls.of_run`): a call of the queue is a
run of such calls. Hence it leaves the registry and the content of every other family as they were
(`Calls.confined`), and the queues on those families keep their messages.
-/

namespace Librocks

open Rocks

namespace StoreImpl

/-- The calls of a queue on the Kind `kd`. -/
def Call.Through (kd : KindImpl) : Call → Prop
  | .put _ kind _ _ | .singleRemove _ kind _ | .singleRemoveIfPresent _ kind _ _ | .get _ kind _ _ =>
      kind = .impl kd
  | _ => False

section

variable {s s' : StoreImpl} {db : Db}

/-- **A call through a Kind** changes no other family. -/
theorem Step.confined {kd : KindImpl} {l : Label} (hw : OpenWith s db) (hal : Aligned s db)
    (hl : l.call.Through kd) (hstep : Step s l s') : ∃ db', Confined kd.handle s db s' db' := by
  obtain ⟨call, a, r⟩ := l
  cases call with
  | put status kind key value =>
    obtain rfl : kind = .impl kd := hl
    obtain ⟨x, hx, heq⟩ := exists_of_map_eq_ok hstep
    cases heq
    obtain ⟨st, t, db', hrun, hres⟩ :=
      voidWrite_open hw a (fun key fam => .put fam key value) status (.impl kd) key
    obtain rfl := Except.ok.inj (hrun.symm.trans hx)
    have hroster := voidWrite_holds (fun key fam => .put fam key value) (Roster.stable _ _)
      (Aligned.roster hw) (fun _ _ => trivial) hx
    rcases hres with ⟨_, _, _, hu⟩ | ⟨k, key', hk, -, -, hcom⟩
    · exact ⟨db', hu.confined hal⟩
    · cases hk
      exact ⟨db', hcom.confined hal hroster⟩
  | singleRemove status kind key =>
    obtain rfl : kind = .impl kd := hl
    obtain ⟨x, hx, heq⟩ := exists_of_map_eq_ok hstep
    cases heq
    obtain ⟨st, t, db', hrun, hres⟩ :=
      voidWrite_open hw a (fun key fam => .singleDelete fam key a.undefined) status (.impl kd) key
    obtain rfl := Except.ok.inj (hrun.symm.trans hx)
    have hroster := voidWrite_holds (fun key fam => .singleDelete fam key a.undefined)
      (Roster.stable _ _) (Aligned.roster hw) (fun _ _ => trivial) hx
    rcases hres with ⟨_, _, _, hu⟩ | ⟨k, key', hk, -, -, hcom⟩
    · exact ⟨db', hu.confined hal⟩
    · cases hk
      exact ⟨db', hcom.confined hal hroster⟩
  | singleRemoveIfPresent status kind len key =>
    obtain rfl : kind = .impl kd := hl
    obtain ⟨r', t, db', hrun, hres⟩ :=
      ifPresent_open hw a (fun key fam => .singleDelete fam key a.undefined) status (.impl kd) len key
    obtain ⟨rfl, rfl⟩ := Prod.mk.inj (Except.ok.inj (hrun.symm.trans hstep))
    have hroster := ifPresent_holds (fun key fam => .singleDelete fam key a.undefined)
      (Roster.stable _ _) (Aligned.roster hw) (fun _ _ => trivial) hstep
    rcases hres with ⟨_, _, _, hu⟩ | ⟨k, key', _, hk, -, -, -, -, -, hcom⟩
    · exact ⟨db', hu.confined hal⟩
    · cases hk
      exact ⟨db', hcom.confined hal hroster⟩
  | get status kind len key =>
    obtain ⟨r', hrun, -⟩ := get_open hw a status kind len key
    obtain ⟨rfl, rfl⟩ := Prod.mk.inj (Except.ok.inj (hrun.symm.trans hstep))
    exact ⟨db, .refl hw hal⟩
  | _ => exact hl.elim

end

end StoreImpl

namespace KueueImpl

/-- `s'` comes from `s` by calls of a queue on the Kind `kd`. -/
def Calls (kd : KindImpl) (s s' : StoreImpl) : Prop :=
  ∃ ls, Run (guarded (fun _ l => l.call.Through kd) StoreImpl.Step) s ls s'

variable {kd : KindImpl} {q : KueueImpl} {s s' : StoreImpl}

/-- No call at all. -/
theorem Calls.refl (kd : KindImpl) (s : StoreImpl) : Calls kd s s := ⟨[], .nil s⟩

/-- One call through the Kind. -/
theorem Calls.single {c : StoreImpl.Call} {a : Answers} {r : StoreImpl.Reply}
    (h : c.run a s = .ok (r, s')) (hc : c.Through kd) : Calls kd s s' :=
  ⟨[⟨c, a, r⟩], .single ⟨hc, h⟩⟩

/-- The calls of two stretches, one after the other. -/
theorem Calls.trans {s'' : StoreImpl} (h₁ : Calls kd s s') (h₂ : Calls kd s' s'') : Calls kd s s'' := by
  obtain ⟨ls, hls⟩ := h₁
  obtain ⟨ls', hls'⟩ := h₂
  exact ⟨ls ++ ls', hls.append hls'⟩

/-- Calls through one Kind leave everything else as it was. -/
theorem Calls.confined {db : Db} (h : Calls kd s s') (hw : s.OpenWith db)
    (hal : StoreImpl.Aligned s db) : ∃ db', StoreImpl.Confined kd.handle s db s' db' := by
  obtain ⟨ls, hrun⟩ := h
  refine hrun.invariant (P := fun t => ∃ db', StoreImpl.Confined kd.handle s db t db') ?_
    ⟨db, .refl hw hal⟩
  rintro t l u ⟨db₁, h₁⟩ ⟨hl, hstep⟩
  obtain ⟨db₂, h₂⟩ := StoreImpl.Step.confined h₁.toOpenWith h₁.toAligned hl hstep
  exact ⟨db₂, h₁.trans h₂⟩

theorem Calls.put {a : Answers} {status st : Option ℤ} {key : Option Bytes} {v : Bytes}
    (h : s.put a status (.impl kd) key v = .ok (st, s')) : Calls kd s s' := by
  have hcall : (StoreImpl.Call.put status (.impl kd) key v).run a s = .ok ({ status := st }, s') := by
    simp only [StoreImpl.Call.run, h]
    rfl
  exact .single hcall rfl

theorem Calls.singleRemove {a : Answers} {status st : Option ℤ} {key : Option Bytes}
    (h : s.singleRemove a status (.impl kd) key = .ok (st, s')) : Calls kd s s' := by
  have hcall : (StoreImpl.Call.singleRemove status (.impl kd) key).run a s
      = .ok ({ status := st }, s') := by
    simp only [StoreImpl.Call.run, h]
    rfl
  exact .single hcall rfl

/-! ## The calls of a queue -/

section

variable (hkind : q.getKindRef = .ok (.impl kd))

include hkind

/-- A take makes one call, through its own Kind. -/
theorem takeNow_calls {a : Answers} {status : Option ℤ} {valLen : Option ℕ}
    {x : Reply × KueueImpl × StoreImpl} (hrun : q.takeNow a status valLen s = .ok x) :
    Calls kd s x.2.2 := by
  simp only [takeNow, hkind, ok_bind] at hrun
  obtain ⟨⟨r, t⟩, hremove, hx⟩ := exists_of_bind_eq_ok hrun
  cases hx
  exact .single (c := .singleRemoveIfPresent _ _ _ _) hremove rfl

theorem readNow_calls {a : Answers} {status : Option ℤ} {valLen : Option ℕ} {pKey : Option UInt64}
    {x : Reply × KueueImpl × StoreImpl} (hrun : q.readNow a status valLen pKey s = .ok x) :
    Calls kd s x.2.2 := by
  simp only [readNow, hkind, ok_bind] at hrun
  obtain ⟨⟨r, t⟩, hget, hx⟩ := exists_of_bind_eq_ok hrun
  cases hx
  exact .single (c := .get _ _ _ _) hget rfl

omit hkind in
/-- Waiting makes no call. -/
theorem waitFor_calls {timeout : ℤ} {status : Option ℤ} {valLen : Option ℕ} {pKey : Option UInt64}
    {body : Except Halt (Reply × KueueImpl × StoreImpl)} {x : Reply × KueueImpl × StoreImpl}
    (hrun : q.waitFor timeout status valLen pKey s body = .ok x)
    (hbody : body = .ok x → Calls kd s x.2.2) : Calls kd s x.2.2 := by
  unfold waitFor at hrun
  split_ifs at hrun
  · exact hbody hrun
  · cases hrun
    exact .refl kd s
  · cases hrun
    exact .refl kd s

theorem erase_calls {a : Answers} {key : UInt64} {x : Bool × KueueImpl × StoreImpl}
    (hrun : q.erase a key s = .ok x) : Calls kd s x.2.2 := by
  unfold erase at hrun
  split_ifs at hrun
  · simp only [hkind, ok_bind] at hrun
    obtain ⟨⟨st, t⟩, hremove, hx⟩ := exists_of_bind_eq_ok hrun
    cases hx
    exact .singleRemove hremove
  · cases hrun
    exact .refl kd s
  · cases hrun
    exact .refl kd s

omit hkind in
/-- The loop of `clear` makes one removal in each round. -/
theorem clearLoop_calls {as : ℕ → Answers} {n i : ℕ} {state : Option ℤ}
    {x : Option ℤ × KueueImpl × StoreImpl} (hrun : clearLoop as (.impl kd) n i state q s = .ok x) :
    Calls kd s x.2.2 := by
  induction n generalizing i state q s with
  | zero =>
    cases hrun
    exact .refl kd s
  | succ n ih =>
    unfold clearLoop at hrun
    split_ifs at hrun
    · obtain ⟨⟨st, t⟩, hremove, hrun⟩ := exists_of_bind_eq_ok hrun
      have hfirst : Calls kd s t := .singleRemove hremove
      simp only at hrun
      split_ifs at hrun
      · exact hfirst.trans (ih hrun)
      · cases hrun
        exact hfirst
    · cases hrun
      exact .refl kd s

/-- **A call of a queue is a run of calls through its Kind.** -/
theorem Calls.of_run {c : Call} {as : ℕ → Answers} {x : Outcome × KueueImpl × StoreImpl}
    (hrun : c.run as q s = .ok x) : Calls kd s x.2.2 := by
  cases c with
  | put status v =>
    obtain ⟨y, hput, rfl⟩ := exists_of_map_eq_ok hrun
    unfold KueueImpl.put at hput
    split_ifs at hput
    · simp only [hkind, ok_bind] at hput
      obtain ⟨⟨st, t⟩, hstore, hy⟩ := exists_of_bind_eq_ok hput
      simp only at hy
      split_ifs at hy
      · cases hy
        exact .put hstore
      · cases hy
        exact .put hstore
    · cases hput
      exact .refl kd s
  | take status valLen =>
    obtain ⟨y, htake, rfl⟩ := exists_of_map_eq_ok hrun
    unfold take at htake
    split_ifs at htake
    · exact takeNow_calls hkind htake
    · cases htake
      exact .refl kd s
  | takeTimed status valLen timeout =>
    obtain ⟨y, htake, rfl⟩ := exists_of_map_eq_ok hrun
    exact waitFor_calls htake fun hbody => takeNow_calls hkind hbody
  | readNext status valLen pKey timeout =>
    obtain ⟨y, hread, rfl⟩ := exists_of_map_eq_ok hrun
    exact waitFor_calls hread fun hbody => readNow_calls hkind hbody
  | erase key =>
    obtain ⟨y, herase, rfl⟩ := exists_of_map_eq_ok hrun
    exact erase_calls hkind herase
  | clear status =>
    obtain ⟨y, hclear, rfl⟩ := exists_of_map_eq_ok hrun
    unfold clear at hclear
    split_ifs at hclear
    · simp only [hkind, ok_bind] at hclear
      obtain ⟨z, hloop, hy⟩ := exists_of_bind_eq_ok hclear
      cases hy
      exact clearLoop_calls hloop
    · cases hclear
      exact .refl kd s

end

/-! ## Queues that could not be built -/

/-- A queue that is not valid does nothing. To its caller it looks like one whose store refuses. -/
theorem run_invalid (hq : q.isValid_ = false) (f : Fifo) (c : Call) (as : ℕ → Answers) :
    ∃ o, c.run as q s = .ok (o, q, s) ∧ f.Step ⟨c, as, o⟩ f := by
  cases c with
  | put status v =>
    refine ⟨.reply { status := assign Status.invalid status }, ?_,
      Reports.of_undone (by decide : Status.invalid ≠ Status.ok) rfl rfl⟩
    simp only [Call.run, put, hq]
    rfl
  | take status valLen | takeTimed status valLen timeout =>
    refine ⟨.reply { status := assign Status.invalid status, valLen }, ?_,
      Reports.of_undone (by decide : Status.invalid ≠ Status.ok) rfl rfl⟩
    simp only [Call.run, take, takeTimed, waitFor, hq]
    rfl
  | readNext status valLen pKey timeout =>
    refine ⟨.reply { status := assign Status.invalid status, valLen, pKey }, ?_,
      Reports.of_undone (by decide : Status.invalid ≠ Status.ok) rfl ⟨rfl, rfl, rfl⟩⟩
    simp only [Call.run, readNext, waitFor, hq]
    rfl
  | erase key =>
    refine ⟨.erased false, ?_, rfl⟩
    simp only [Call.run, erase, hq, Bool.false_eq_true, false_and, if_false]
    rfl
  | clear status =>
    refine ⟨.reply { status := assign Status.invalid status }, ?_, 0, Nat.zero_le _, f.drop_zero.symm,
      fun _ => .inr ⟨Status.invalid, by decide, rfl⟩⟩
    simp only [Call.run, clear, hq]
    rfl

end KueueImpl

end Librocks
