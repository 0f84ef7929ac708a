import Librocks.Common.Run
import Librocks.Store.Calls

/-!
# The store refines one finite map per kind

The abstract store is a family of finite maps. `Applied` says which operation on it a call stands
for, with the condition under which the operation applies and the answer it gives, and `MapStep` reads
a reply: Ok means that the operation was applied, any other status that nothing changed.

A write that failed at any point must not reach the maps later. All writes share one transaction
object whose buffer survives a failed commit, so this is a property of runs; it comes out of the
simulation because `txWrite_open` holds from every state of the buffers.
-/

namespace Librocks

open Rocks

namespace StoreImpl

/-- The content of a store: a finite map for each family. -/
abbrev Content := Handle → Family

/-- The operation on the maps that a call stands for, when it applies, and what it answers. -/
inductive Applied : Call → Content → Reply → Content → Prop
  | put {m : Content} {r : Reply} (status : Option ℤ) (k : KindImpl) (key value : Bytes) :
      Applied (.put status (.impl k) (some key) value) m r
        (Function.update m k.handle ((m k.handle).insert key value))
  | remove {m : Content} {r : Reply} (status : Option ℤ) (k : KindImpl) (key : Bytes) :
      Applied (.remove status (.impl k) (some key)) m r
        (Function.update m k.handle ((m k.handle).erase key))
  | singleRemove {m : Content} {r : Reply} (status : Option ℤ) (k : KindImpl) (key : Bytes) :
      Applied (.singleRemove status (.impl k) (some key)) m r
        (Function.update m k.handle ((m k.handle).erase key))
  | removeRange {m : Content} {r : Reply} (status : Option ℤ) (k : KindImpl) (b e : Bytes)
      (hle : b ≤ e) :
      Applied (.removeRange status (.impl k) (some b) (some e)) m r
        (Function.update m k.handle ((m k.handle).filter fun x => ¬ (b ≤ x ∧ x < e)))
  | get {m : Content} {r : Reply} {value : Bytes} (status : Option ℤ) (k : KindImpl)
      (len : Option ℕ) (key : Bytes) (hold : (m k.handle).lookup key = some value)
      (hdata : r.data = buffer value) (hlen : r.resultLen = some value.length) :
      Applied (.get status (.impl k) len (some key)) m r m
  | updateIfPresent {m : Content} {r : Reply} {old : Bytes} (status : Option ℤ) (k : KindImpl)
      (len : Option ℕ) (key value : Bytes) (hold : (m k.handle).lookup key = some old)
      (hdata : r.data = buffer old) (hlen : r.resultLen = some old.length) :
      Applied (.updateIfPresent status (.impl k) len (some key) value) m r
        (Function.update m k.handle ((m k.handle).insert key value))
  | singleRemoveIfPresent {m : Content} {r : Reply} {old : Bytes} (status : Option ℤ)
      (k : KindImpl) (len : Option ℕ) (key : Bytes)
      (hold : (m k.handle).lookup key = some old)
      (hdata : r.data = buffer old) (hlen : r.resultLen = some old.length) :
      Applied (.singleRemoveIfPresent status (.impl k) len (some key)) m r
        (Function.update m k.handle ((m k.handle).erase key))
  | removeIfPresent {m : Content} {r : Reply} {old : Bytes} (status : Option ℤ) (k : KindImpl)
      (len : Option ℕ) (key : Bytes) (hold : (m k.handle).lookup key = some old)
      (hdata : r.data = buffer old) (hlen : r.resultLen = some old.length) :
      Applied (.removeIfPresent status (.impl k) len (some key)) m r
        (Function.update m k.handle ((m k.handle).erase key))
  | putIfAbsent {m : Content} {r : Reply} (status : Option ℤ) (k : KindImpl) (key value : Bytes)
      (habsent : (m k.handle).lookup key = none) :
      Applied (.putIfAbsent status (.impl k) (some key) value) m r
        (Function.update m k.handle ((m k.handle).insert key value))

/-- The status argument of a map operation; no other call is one. -/
def Call.mapStatus : Call → Option (Option ℤ)
  | .put status _ _ _ => some status
  | .remove status _ _ => some status
  | .singleRemove status _ _ => some status
  | .removeRange status _ _ _ => some status
  | .get status _ _ _ => some status
  | .updateIfPresent status _ _ _ _ => some status
  | .singleRemoveIfPresent status _ _ _ => some status
  | .removeIfPresent status _ _ _ => some status
  | .putIfAbsent status _ _ _ => some status
  | _ => none

/-- How the abstract store follows a call: the operation is applied, or nothing changes, as the
status says. -/
def MapStep (m : Content) (l : Label) (m' : Content) : Prop :=
  match l.call.mapStatus with
  | some status => Reports status l.reply.status (Applied l.call m l.reply m') (m' = m)
  | none => False

/-- The key that a call single-deletes, with its family. -/
def Call.singleDeletes : Call → Option (Handle × Bytes)
  | .singleRemove _ (.impl k) (some key) => some (k.handle, key)
  | .singleRemoveIfPresent _ (.impl k) _ (some key) => some (k.handle, key)
  | _ => none

/-- The calls of the refinement: map operations that single-delete only keys that were put at most
once since they were last removed. -/
structure MapCall (s : StoreImpl) (l : Label) : Prop where
  isMap : l.call.mapStatus.isSome
  once : ∀ db h key, s.txnDb = some db → l.call.singleDeletes = some (h, key) →
    db.overwritten h key = false

theorem MapStep.of_failed {m : Content} {l : Label} {status : Option ℤ} {c : ℤ}
    (hmap : l.call.mapStatus = some status) (hc : c ≠ Status.ok)
    (hr : l.reply.status = assign c status) : MapStep m l m := by
  unfold MapStep
  rw [hmap]
  exact .of_undone hc hr rfl

theorem MapStep.of_applied {m m' : Content} {l : Label} {status : Option ℤ}
    (hmap : l.call.mapStatus = some status) (hr : l.reply.status = assign Status.ok status)
    (happ : Applied l.call m l.reply m') : MapStep m l m' := by
  unfold MapStep
  rw [hmap]
  exact .of_done hr happ

/-! ## The committed writes as map operations -/

theorem Wrote.put_data {h : Handle} {key value : Bytes} {db db' : Db}
    (hw : Wrote (.put h key value) db db') :
    db'.data = Function.update db.data h ((db.data h).insert key value) := hw.data

theorem Wrote.delete_data {h : Handle} {key : Bytes} {db db' : Db}
    (hw : Wrote (.delete h key) db db') :
    db'.data = Function.update db.data h ((db.data h).erase key) := hw.data

/-- `SingleDelete` of a key that was not overwritten is `Delete`. -/
theorem Wrote.singleDelete_data {h : Handle} {key : Bytes} {undefined : Option Bytes} {db db' : Db}
    (hw : Wrote (.singleDelete h key undefined) db db') (honce : db.overwritten h key = false) :
    db'.data = Function.update db.data h ((db.data h).erase key) := by
  rw [hw.data]
  simp [Db.apply, honce, Db.setFamily, Db.setOverwritten]

theorem Wrote.deleteRange_data {h : Handle} {b e : Bytes} {db db' : Db}
    (hw : Wrote (.deleteRange h b e) db db') :
    db'.data = Function.update db.data h ((db.data h).filter fun x => ¬ (b ≤ x ∧ x < e)) := hw.data

/-! ## One call -/

/-- A failed call leaves the maps alone and says so. -/
theorem Failed.refines {s s' : StoreImpl} {db db' : Db} {l : Label} {status : Option ℤ}
    (hf : Failed status l.reply.status s db s' db') (hmap : l.call.mapStatus = some status) :
    ∃ db', OpenWith s' db' ∧ MapStep db.data l db'.data := by
  obtain ⟨c, hc, hr, hu⟩ := hf
  refine ⟨db', hu.toOpenWith, ?_⟩
  rw [hu.content.data]
  exact .of_failed hmap hc hr

/-- **One call is one map operation or nothing**, and the status tells which. -/
theorem step_refines {s s' : StoreImpl} {db : Db} {l : Label} (h : OpenWith s db)
    (hcall : MapCall s l) (hstep : Step s l s') :
    ∃ db', OpenWith s' db' ∧ MapStep db.data l db'.data := by
  obtain ⟨call, a, reply⟩ := l
  have honce := hcall.once db
  have hmap := hcall.isMap
  unfold Step at hstep
  cases call with
  | put status kind key value =>
    obtain ⟨st, s₁, db₁, hrun, hres⟩ :=
      voidWrite_open h a (fun key fam => .put fam key value) status kind key
    simp only [Call.run, put, put_, hrun, Except.map, Except.ok.injEq, Prod.mk.injEq,
      voidReply] at hstep
    obtain ⟨rfl, rfl⟩ := hstep
    rcases hres with hf | ⟨k, key', rfl, rfl, rfl, hcom⟩
    · exact Failed.refines hf rfl
    · refine ⟨db₁, hcom.toOpenWith, .of_applied rfl rfl ?_⟩
      rw [hcom.toWrote.put_data]
      exact .put status k key' value
  | remove status kind key =>
    obtain ⟨st, s₁, db₁, hrun, hres⟩ :=
      voidWrite_open h a (fun key fam => .delete fam key) status kind key
    simp only [Call.run, remove, remove_, hrun, Except.map, Except.ok.injEq, Prod.mk.injEq,
      voidReply] at hstep
    obtain ⟨rfl, rfl⟩ := hstep
    rcases hres with hf | ⟨k, key', rfl, rfl, rfl, hcom⟩
    · exact Failed.refines hf rfl
    · refine ⟨db₁, hcom.toOpenWith, .of_applied rfl rfl ?_⟩
      rw [hcom.toWrote.delete_data]
      exact .remove status k key'
  | singleRemove status kind key =>
    obtain ⟨st, s₁, db₁, hrun, hres⟩ :=
      voidWrite_open h a (fun key fam => .singleDelete fam key a.undefined) status kind key
    simp only [Call.run, singleRemove, singleRemove_, hrun, Except.map, Except.ok.injEq,
      Prod.mk.injEq, voidReply] at hstep
    obtain ⟨rfl, rfl⟩ := hstep
    rcases hres with hf | ⟨k, key', rfl, rfl, rfl, hcom⟩
    · exact Failed.refines hf rfl
    · refine ⟨db₁, hcom.toOpenWith, .of_applied rfl rfl ?_⟩
      rw [hcom.toWrote.singleDelete_data (honce _ _ h.txnDb rfl)]
      exact .singleRemove status k key'
  | removeRange status kind b e =>
    obtain ⟨st, s₁, db₁, hrun, hres⟩ := removeRange_open h a status kind b e
    simp only [Call.run, hrun, Except.map, Except.ok.injEq, Prod.mk.injEq, voidReply] at hstep
    obtain ⟨rfl, rfl⟩ := hstep
    rcases hres with hf | ⟨k, b', e', rfl, rfl, rfl, ⟨-, hle, -, -⟩, rfl, hun⟩
    · exact Failed.refines hf rfl
    · refine ⟨db₁, hun.toOpenWith, .of_applied rfl rfl ?_⟩
      rw [hun.toWrote.deleteRange_data]
      exact .removeRange status k b' e' hle
  | get status kind len key =>
    obtain ⟨r, hrun, hres⟩ := get_open h a status kind len key
    simp only [Call.run, hrun, Except.ok.injEq, Prod.mk.injEq] at hstep
    obtain ⟨rfl, rfl⟩ := hstep
    rcases hres with ⟨c, hc, hst, -⟩ | ⟨k, key', value, rfl, rfl, hst, hl, hdata, hlen⟩
    · exact ⟨db, h, .of_failed rfl hc hst⟩
    · exact ⟨db, h, .of_applied rfl hst (.get status k len key' hl hdata hlen)⟩
  | updateIfPresent status kind len key value =>
    obtain ⟨r, s₁, db₁, hrun, hres⟩ :=
      ifPresent_open h a (fun key fam => .put fam key value) status kind len key
    obtain ⟨rfl, rfl⟩ := Prod.mk.inj (Except.ok.inj (hrun.symm.trans hstep))
    rcases hres with hf | ⟨k, key', old, rfl, rfl, hst, hl, hdata, hlen, hcom⟩
    · exact Failed.refines hf rfl
    · refine ⟨db₁, hcom.toOpenWith, .of_applied rfl hst ?_⟩
      rw [hcom.toWrote.put_data]
      exact .updateIfPresent status k len key' value hl hdata hlen
  | singleRemoveIfPresent status kind len key =>
    obtain ⟨r, s₁, db₁, hrun, hres⟩ :=
      ifPresent_open h a (fun key fam => .singleDelete fam key a.undefined) status kind len key
    obtain ⟨rfl, rfl⟩ := Prod.mk.inj (Except.ok.inj (hrun.symm.trans hstep))
    rcases hres with hf | ⟨k, key', old, rfl, rfl, hst, hl, hdata, hlen, hcom⟩
    · exact Failed.refines hf rfl
    · refine ⟨db₁, hcom.toOpenWith, .of_applied rfl hst ?_⟩
      rw [hcom.toWrote.singleDelete_data (honce _ _ h.txnDb rfl)]
      exact .singleRemoveIfPresent status k len key' hl hdata hlen
  | removeIfPresent status kind len key =>
    obtain ⟨r, s₁, db₁, hrun, hres⟩ :=
      ifPresent_open h a (fun key fam => .delete fam key) status kind len key
    obtain ⟨rfl, rfl⟩ := Prod.mk.inj (Except.ok.inj (hrun.symm.trans hstep))
    rcases hres with hf | ⟨k, key', old, rfl, rfl, hst, hl, hdata, hlen, hcom⟩
    · exact Failed.refines hf rfl
    · refine ⟨db₁, hcom.toOpenWith, .of_applied rfl hst ?_⟩
      rw [hcom.toWrote.delete_data]
      exact .removeIfPresent status k len key' hl hdata hlen
  | putIfAbsent status kind key value =>
    obtain ⟨st, s₁, db₁, hrun, hres⟩ := putIfAbsent_open h a status kind key value
    simp only [Call.run, hrun, Except.map, Except.ok.injEq, Prod.mk.injEq, voidReply] at hstep
    obtain ⟨rfl, rfl⟩ := hstep
    rcases hres with hf | ⟨k, key', rfl, rfl, rfl, hl, hcom⟩
    · exact Failed.refines hf rfl
    · refine ⟨db₁, hcom.toOpenWith, .of_applied rfl rfl ?_⟩
      rw [hcom.toWrote.put_data]
      exact .putIfAbsent status k key' value hl
  | _ => cases hmap

/-! ## Runs -/

/-- **The store refines one finite map per kind.** Whatever RocksDB answers, a run of map operations
on an open store is, reply by reply, a run of the abstract maps, and the store stays ready: every
further map operation returns. -/
theorem run_refines_maps {s s' : StoreImpl} {db : Db} {ls : List Label} (h : OpenWith s db)
    (hrun : Run (guarded MapCall Step) s ls s') :
    ∃ db', OpenWith s' db' ∧ Run MapStep db.data ls db'.data ∧
      ∀ c a, c.mapStatus.isSome → ∃ r s'', Step s' ⟨c, a, r⟩ s'' := by
  obtain ⟨m, hmaps, db', hopen, rfl⟩ :=
    hrun.simulates (R := fun s m => ∃ db, OpenWith s db ∧ m = db.data)
      (by
        rintro s m l t ⟨db, hopen, rfl⟩ ⟨hcall, hstep⟩
        obtain ⟨db', hopen', hmap⟩ := step_refines hopen hcall hstep
        exact ⟨db'.data, hmap, db', hopen', rfl⟩)
      ⟨db, h, rfl⟩
  refine ⟨db', hopen, hmaps, fun c a hc => ?_⟩
  obtain ⟨r, s'', _, hcall, -⟩ := run_open hopen a c (by rintro rfl; cases hc)
  exact ⟨r, s'', hcall⟩

private def putOne : Call := .put (some 5) (.impl DefaultKind) (some [1]) [7]

private def putTwo : Call := .put (some 5) (.impl DefaultKind) (some [2]) [8]

private def takeOne : Call := .singleRemoveIfPresent (some 5) (.impl DefaultKind) (some 0) (some [1])

private def afterOne : StoreImpl := putOne.after {} created

private def afterTwo : StoreImpl := putTwo.after { commit := some .busy } afterOne

/-- A put that commits, a put whose commit fails, and the removal of what the first one stored. -/
theorem run_refines_maps_put_fail_remove :
    ∃ ls s' db', ls.map (fun l => l.reply.status) = [some 0, some 11, some 0] ∧
      Run (guarded MapCall Step) created ls s' ∧ OpenWith s' db' ∧
      Run MapStep (fun _ => ∅) ls db'.data := by
  have h₁ : Step created ⟨putOne, {}, { status := some 0 }⟩ afterOne := Call.step_after rfl
  have h₂ : Step afterOne ⟨putTwo, { commit := some .busy }, { status := some 11 }⟩ afterTwo :=
    Call.step_after rfl
  have h₃ : Step afterTwo ⟨takeOne, {}, { status := some 0, resultLen := some 1, data := some [7] }⟩
      (takeOne.after {} afterTwo) := Call.step_after rfl
  have honce : ∀ db, afterTwo.txnDb = some db → db.overwritten defaultFamily [1] = false := by
    rintro _ ⟨⟩
    rfl
  have hrun : Run (guarded MapCall Step) created _ (takeOne.after {} afterTwo) :=
    .cons ⟨⟨rfl, fun _ _ _ _ h => by cases h⟩, h₁⟩ <|
      .cons ⟨⟨rfl, fun _ _ _ _ h => by cases h⟩, h₂⟩ <|
        .single ⟨⟨rfl, fun db _ _ hdb h => by cases h; exact honce db hdb⟩, h₃⟩
  obtain ⟨db', hopen, hmaps, -⟩ := run_refines_maps ⟨rfl, rfl⟩ hrun
  exact ⟨_, _, db', rfl, hrun, hopen, hmaps⟩

end StoreImpl

end Librocks
