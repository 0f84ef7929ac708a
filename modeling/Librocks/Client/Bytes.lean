import Librocks.Common.Bytes
import Librocks.Common.Ownership
import Librocks.Common.Run

/-!
# The `bytes` object

Reference: `src/client/bytes.cpp`, `include/client/bytes.h`.

A `bytes` object is a size and a pointer to a buffer that it owns. Several objects share one heap
here, so that a copy, a move or a `clear` can be followed through the buffers it allocates, hands on
and gives back. `new char[n]` may throw. `delete[]` or `memcpy` of something that is not allocated
is undefined behaviour and has no result.

The objects of a `Memory` are sound if each of them is empty with a null pointer or has a buffer of
its size, and if each buffer has one owner. `Op.apply` says what the operations are for: they work
on the contents, as if the variables held byte strings. `Memory.run_kept_iff` says when they do: an
operation keeps the objects sound and has the effect of `Op.apply` unless it is a copy assignment of
something non-empty whose allocation fails. `copy` sets the size before it allocates, and after the
exception the assigned object has a size and no buffer.
-/

namespace Librocks

/-- A `bytes` object, over the pointers `P`. -/
structure BytesObj (P : Type) where
  size_ : ℕ
  data_ : Option P
  deriving DecidableEq, Repr

namespace BytesObj

variable {P : Type}

/-- The private constructor: takes what the store returned. -/
def new (bytes : Option P) (length : ℕ) : BytesObj P := ⟨length, bytes⟩

def size (b : BytesObj P) : ℕ := b.size_

def data (b : BytesObj P) : Option P := b.data_

/-- `operator bool`. -/
def toBool (b : BytesObj P) : Bool := b.data_.isSome

def isEmpty (b : BytesObj P) : Bool := b.size_ == 0

/-- The state of a new object before anything is copied or moved into it. -/
def empty : BytesObj P := ⟨0, none⟩

end BytesObj

/-- An address that `new char[n]` may return. -/
abbrev Addr := ℕ

/-- The allocated buffers, and the objects that are alive. -/
structure Memory (V : Type) where
  heap : Addr → Option Bytes
  objs : V → Option (BytesObj Addr)

/-- Why an operation has no result: its behaviour is undefined, or it was given an address that is
in use, which `new` does not return. -/
inductive Fault
  | undefined
  | inUse
  deriving DecidableEq, Repr

/-- How an operation ended. -/
inductive Outcome
  | done
  | threw
  deriving DecidableEq, Repr

namespace Memory

variable {V : Type} [DecidableEq V]

/-- Nothing is allocated and no object is alive. -/
def empty : Memory V := ⟨fun _ => none, fun _ => none⟩

def object (m : Memory V) (x : V) : Except Fault (BytesObj Addr) :=
  (m.objs x).elim (.error .undefined) .ok

def set (m : Memory V) (x : V) (o : BytesObj Addr) : Memory V :=
  { m with objs := Function.update m.objs x (some o) }

/-- The object is not alive any more. Its buffer is not touched. -/
def forget (m : Memory V) (x : V) : Memory V :=
  { m with objs := Function.update m.objs x none }

/-- `delete[]`, which ignores the null pointer. -/
def deleteArray (m : Memory V) : Option Addr → Except Fault (Memory V)
  | none => .ok m
  | some a =>
    if (m.heap a).isSome then .ok { m with heap := Function.update m.heap a none }
    else .error .undefined

/-- `new char[n]`, once the allocator has found the address. -/
def newArray (m : Memory V) (a : Addr) (n : ℕ) : Except Fault (Memory V) :=
  if (m.heap a).isSome then .error .inUse
  else .ok { m with heap := Function.update m.heap a (some (List.replicate n 0)) }

def memcpy (m : Memory V) (dst : Addr) (src : Option Addr) (n : ℕ) : Except Fault (Memory V) :=
  match m.heap dst, src.bind m.heap with
  | some old, some bs =>
    if n ≤ old.length ∧ n ≤ bs.length then
      .ok { m with heap := Function.update m.heap dst (some (bs.take n ++ old.drop n)) }
    else .error .undefined
  | _, _ => .error .undefined

/-- Writes a buffer that has just been allocated. -/
def fill (m : Memory V) (dst : Addr) (content : Bytes) : Memory V :=
  { m with heap := Function.update m.heap dst (some content) }

/-! ## The member functions

`alloc` is the answer of the allocator, where one is asked: an address, or `none` for
`std::bad_alloc`.
-/

def clear (m : Memory V) (x : V) : Except Fault (Memory V) := do
  let this ← m.object x
  if this.size_ > 0 then
    let m ← m.deleteArray this.data_
    .ok (m.set x ⟨0, none⟩)
  else .ok m

def swap (m : Memory V) (x src : V) : Except Fault (Memory V) := do
  let this ← m.object x
  let other ← m.object src
  .ok ((m.set x other).set src this)

def copy (m : Memory V) (x : V) (other : BytesObj Addr) (alloc : Option Addr) :
    Except Fault (Outcome × Memory V) := do
  let this ← m.object x
  let m := m.set x { this with size_ := other.size_ }
  match alloc with
  -- the exception leaves `copy` with the size already set
  | none => .ok (.threw, m)
  | some tmp =>
    let m ← m.newArray tmp other.size_
    let m ← m.memcpy tmp other.data_ other.size_
    .ok (.done, m.set x ⟨other.size_, some tmp⟩)

/-- `bytes(const bytes&)`. An object whose constructor throws has not come alive. -/
def copyConstruct (m : Memory V) (x other : V) (alloc : Option Addr) :
    Except Fault (Outcome × Memory V) := do
  let src ← m.object other
  let m := m.set x .empty
  if src.size_ > 0 then
    match ← m.copy x src alloc with
    | (.done, m) => .ok (.done, m)
    | (.threw, m) => .ok (.threw, m.forget x)
  else .ok (.done, m)

/-- `operator=(const bytes&)`. -/
def copyAssign (m : Memory V) (x other : V) (alloc : Option Addr) :
    Except Fault (Outcome × Memory V) :=
  if x ≠ other then do
    let m ← m.clear x
    let src ← m.object other
    if src.size_ > 0 then m.copy x src alloc
    else .ok (.done, m)
  else .ok (.done, m)

/-- `bytes(bytes&&)`. -/
def moveConstruct (m : Memory V) (x moving : V) : Except Fault (Memory V) :=
  (m.set x .empty).swap moving x

/-- `operator=(bytes&&)`. -/
def moveAssign (m : Memory V) (x moving : V) : Except Fault (Memory V) := m.swap moving x

/-- `~bytes()`. -/
def destroy (m : Memory V) (x : V) : Except Fault (Memory V) := do
  let m ← m.clear x
  .ok (m.forget x)

/-- An object that `KVStore` returns, with the buffer that the store allocated for `content`. There
is no buffer for an empty content, and no object if the allocation fails. -/
def receive (m : Memory V) (x : V) (content : Bytes) (alloc : Option Addr) :
    Except Fault (Outcome × Memory V) :=
  if content.isEmpty then .ok (.done, m.set x (.new none 0))
  else match alloc with
    | none => .ok (.threw, m)
    | some a => do
      let m ← m.newArray a content.length
      .ok (.done, (m.fill a content).set x (.new (some a) content.length))

end Memory

/-! ## Operations on the variables of a program -/

/-- The operations on `bytes` variables. The first variable is the one that is constructed or
assigned, or whose member function is called. -/
inductive Op (V : Type)
  | receive (x : V) (content : Bytes)
  | copyConstruct (x other : V)
  | copyAssign (x other : V)
  | moveConstruct (x moving : V)
  | moveAssign (x moving : V)
  | swap (x src : V)
  | clear (x : V)
  | destroy (x : V)
  deriving DecidableEq, Repr

namespace Op

variable {V : Type} [DecidableEq V]

/-- What a program may ask for: it constructs an object that is not alive, and uses those that are.
-/
def Legal (m : Memory V) : Op V → Prop
  | receive x _ => m.objs x = none
  | copyConstruct x y | moveConstruct x y => m.objs x = none ∧ (m.objs y).isSome
  | copyAssign x y | moveAssign x y | swap x y => (m.objs x).isSome ∧ (m.objs y).isSome
  | clear x | destroy x => (m.objs x).isSome

/-- A member function that cannot throw. -/
def noexcept (res : Except Fault (Memory V)) : Except Fault (Outcome × Memory V) :=
  res.map fun m => (.done, m)

/-- The operation as the code performs it, with what the allocator answers. -/
def exec (m : Memory V) (op : Op V) (alloc : Option Addr) : Except Fault (Outcome × Memory V) :=
  match op with
  | receive x content => m.receive x content alloc
  | copyConstruct x y => m.copyConstruct x y alloc
  | copyAssign x y => m.copyAssign x y alloc
  | moveConstruct x y => noexcept (m.moveConstruct x y)
  | moveAssign x y => noexcept (m.moveAssign x y)
  | swap x y => noexcept (m.swap x y)
  | clear x => noexcept (m.clear x)
  | destroy x => noexcept (m.destroy x)

/-- The operation on variables that hold byte strings. A move leaves an empty string behind, and a
move assignment leaves the old content of the assigned variable. -/
def apply (op : Op V) (vals : V → Option Bytes) : V → Option Bytes :=
  match op with
  | receive x content => Function.update vals x (some content)
  | copyConstruct x y | copyAssign x y => Function.update vals x (vals y)
  | moveConstruct x y => Function.update (Function.update vals y (some [])) x (vals y)
  | moveAssign x y | swap x y => Function.update (Function.update vals x (vals y)) y (vals x)
  | clear x => Function.update vals x (some [])
  | destroy x => Function.update vals x none

/-- The variables that an operation changes. -/
def writes : Op V → List V
  | receive x _ | copyConstruct x _ | copyAssign x _ | clear x | destroy x => [x]
  | moveConstruct x y | moveAssign x y | swap x y => [x, y]

/-- The operations that hand buffers on. -/
def transfers : Op V → Bool
  | moveConstruct _ _ | moveAssign _ _ | swap _ _ => true
  | _ => false

/-- A copy assignment that has something to copy gets its buffer. -/
def Safe (m : Memory V) (alloc : Option Addr) : Op V → Prop
  | copyAssign x y => x = y ∨ (∀ o, m.objs y = some o → o.size_ = 0) ∨ alloc ≠ none
  | _ => True

end Op

namespace Memory

variable {V : Type}

/-- The size is the size of the buffer, and there is no buffer of size zero. -/
def WellFormed (heap : Addr → Option Bytes) (o : BytesObj Addr) : Prop :=
  (o.size_ = 0 ∧ o.data_ = none) ∨
    (0 < o.size_ ∧ ∃ a content, o.data_ = some a ∧ heap a = some content ∧ content.length = o.size_)

/-- The bytes an object refers to. -/
def content (heap : Addr → Option Bytes) (o : BytesObj Addr) : Bytes := (o.data_.bind heap).getD []

/-- The buffer each variable owns. -/
def ptr (m : Memory V) : V → Option Addr := (fun o => o.bind BytesObj.data_) ∘ m.objs

/-- The byte string each variable holds. -/
def value (m : Memory V) : V → Option Bytes := Option.map (content m.heap) ∘ m.objs

/-- The live objects are well formed, and each buffer belongs to exactly one of them. -/
structure Sound (m : Memory V) : Prop where
  wellFormed : ∀ {x o}, m.objs x = some o → WellFormed m.heap o
  owned : Owned m.ptr m.heap

/-- An operation has done what it should: the objects are sound, also after an exception; an
operation that succeeds has the effect of `Op.apply` on the contents and leaves the objects alone
that it is not about; and moves and swaps neither allocate nor give back a buffer. -/
structure Kept (m : Memory V) [DecidableEq V] (op : Op V) (out : Outcome) (m' : Memory V) : Prop where
  sound : m'.Sound
  values : out = .done → m'.value = op.apply m.value
  frame : ∀ z, z ∉ op.writes → m'.objs z = m.objs z
  buffers : op.transfers = true → m'.heap = m.heap

/-- The operation has a result, and it meets `P`, unless the address it was given is in use. -/
def Settles [DecidableEq V] (m : Memory V) (op : Op V) (alloc : Option Addr)
    (P : Outcome → Memory V → Prop) : Prop :=
  (op.exec m alloc = .error .inUse ∧ ∃ a, alloc = some a ∧ (m.heap a).isSome) ∨
    ∃ out m', op.exec m alloc = .ok (out, m') ∧ P out m'

/-- A step of a program: a legal operation, with the answer of the allocator. -/
def Step [DecidableEq V] (m : Memory V) (l : Op V × Option Addr) (m' : Memory V) : Prop :=
  l.1.Legal m ∧ ∃ out, l.1.exec m l.2 = .ok (out, m')

/-! ## Sound objects -/

section

variable {m : Memory V} {x : V} {o : BytesObj Addr} {heap heap' : Addr → Option Bytes}

theorem WellFormed.empty : WellFormed heap .empty := Or.inl ⟨rfl, rfl⟩

/-- An object with a buffer for the content. -/
theorem WellFormed.buffer {a : Addr} {bs : Bytes} (ha : heap a = some bs) (hne : bs ≠ []) :
    WellFormed heap ⟨bs.length, some a⟩ :=
  Or.inr ⟨List.length_pos_iff.mpr hne, a, bs, rfl, ha, rfl⟩

/-- An object depends on its own buffer only. -/
theorem WellFormed.congr (h : WellFormed heap o) (hagree : ∀ a, o.data_ = some a → heap' a = heap a) :
    WellFormed heap' o := by
  obtain hnull | ⟨hpos, a, bs, hdata, ha, hlen⟩ := h
  · exact Or.inl hnull
  · exact Or.inr ⟨hpos, a, bs, hdata, (hagree a hdata).trans ha, hlen⟩

theorem content_congr (hagree : ∀ a, o.data_ = some a → heap' a = heap a) :
    content heap' o = content heap o := by
  unfold content
  cases hdata : o.data_ with
  | none => rfl
  | some a => rw [Option.bind_some, Option.bind_some, hagree a hdata]

/-- A sound object is the empty one or has a buffer with its content. -/
theorem Sound.objs_cases (h : m.Sound) (hx : m.objs x = some o) :
    (o = .empty ∧ m.value x = some []) ∨
      ∃ a bs, o = ⟨bs.length, some a⟩ ∧ bs ≠ [] ∧ m.heap a = some bs ∧ m.value x = some bs := by
  obtain ⟨size, data⟩ := o
  obtain ⟨hsize, hdata⟩ | ⟨hpos, a, bs, hdata, ha, hlen⟩ := h.wellFormed hx
  · obtain rfl : size = 0 := hsize
    obtain rfl : data = none := hdata
    exact Or.inl ⟨rfl, by simp [value, hx, content]⟩
  · obtain rfl : bs.length = size := hlen
    obtain rfl : data = some a := hdata
    exact Or.inr ⟨a, bs, rfl, List.length_pos_iff.mp hpos, ha, by simp [value, hx, content, ha]⟩

theorem object_eq (hx : m.objs x = some o) : m.object x = .ok o := by
  simp [object, hx]

theorem ptr_eq (hx : m.objs x = some o) : m.ptr x = o.data_ := by
  simp [ptr, hx]

theorem ptr_eq_none (hx : m.objs x = none) : m.ptr x = none := by
  simp [ptr, hx]

variable [DecidableEq V] {o' : Option (BytesObj Addr)}

/-- What becomes of the pointers when one object changes. -/
theorem ptr_replace :
    ptr ⟨heap, Function.update m.objs x o'⟩ = Function.update m.ptr x (o'.bind BytesObj.data_) :=
  Function.comp_update _ _ _ _

theorem update_ptr_none (hx : m.ptr x = none) : Function.update m.ptr x none = m.ptr := by
  rw [← hx]
  exact Function.update_eq_self x m.ptr

/-- One object changes, and the heap where the others do not point to. -/
theorem value_replace (hagree : ∀ z a, z ≠ x → m.ptr z = some a → heap' a = m.heap a) :
    value ⟨heap', Function.update m.objs x o'⟩
      = Function.update m.value x (o'.map (content heap')) := by
  funext z
  by_cases hz : z = x
  · subst hz
    simp only [value, Function.comp_apply, Function.update_self]
  · rw [Function.update_of_ne hz]
    simp only [value, Function.comp_apply, Function.update_of_ne hz]
    cases ho : m.objs z with
    | none => rfl
    | some oz =>
      rw [Option.map_some, Option.map_some]
      exact congrArg some (content_congr fun a ha => hagree z a hz ((ptr_eq ho).trans ha))

theorem Sound.replace (h : m.Sound)
    (hagree : ∀ z a, z ≠ x → m.ptr z = some a → heap' a = m.heap a)
    (hwf : ∀ o₁, o' = some o₁ → WellFormed heap' o₁)
    (howned : Owned (Function.update m.ptr x (o'.bind BytesObj.data_)) heap') :
    Sound ⟨heap', Function.update m.objs x o'⟩ := by
  refine ⟨fun {z oz} hz => ?_, ?_⟩
  · change Function.update m.objs x o' z = some oz at hz
    by_cases hzx : z = x
    · rw [hzx, Function.update_self] at hz
      exact hwf oz hz
    · rw [Function.update_of_ne hzx] at hz
      exact (h.wellFormed hz).congr fun a ha => hagree z a hzx ((ptr_eq hz).trans ha)
  · rw [ptr_replace]
    exact howned

/-! ### Steps on sound objects -/

variable {a : Addr} {bs : Bytes}

/-- The object `x` is empty, or becomes so, and keeps no buffer. -/
theorem Sound.set_empty (h : m.Sound) (hx : m.ptr x = none) :
    (m.set x .empty).Sound ∧ (m.set x .empty).value = Function.update m.value x (some []) := by
  refine ⟨h.replace (fun _ _ _ _ => rfl) ?_ ?_, value_replace fun _ _ _ _ => rfl⟩
  · rintro _ ⟨⟩
    exact .empty
  · exact (update_ptr_none hx).symm ▸ h.owned

theorem Sound.forget (h : m.Sound) (hx : m.ptr x = none) :
    (m.forget x).Sound ∧ (m.forget x).value = Function.update m.value x none := by
  refine ⟨h.replace (fun _ _ _ _ => rfl) ?_ ?_, value_replace fun _ _ _ _ => rfl⟩
  · rintro _ ⟨⟩
  · exact (update_ptr_none hx).symm ▸ h.owned

/-- The object `x`, which had no buffer, gets a new one. -/
theorem Sound.acquire (h : m.Sound) (hx : m.ptr x = none) (ha : m.heap a = none) (hne : bs ≠ []) :
    Sound ⟨Function.update m.heap a (some bs), Function.update m.objs x (some ⟨bs.length, some a⟩)⟩ ∧
      value ⟨Function.update m.heap a (some bs), Function.update m.objs x (some ⟨bs.length, some a⟩)⟩
        = Function.update m.value x (some bs) := by
  have hagree : ∀ z b, z ≠ x → m.ptr z = some b → Function.update m.heap a (some bs) b = m.heap b := by
    intro z b _ hz
    obtain ⟨old, hold⟩ := h.owned.held hz
    refine Function.update_of_ne ?_ _ _
    rintro rfl
    rw [ha] at hold
    cases hold
  refine ⟨h.replace hagree ?_ (h.owned.alloc hx ha bs), ?_⟩
  · rintro _ ⟨⟩
    exact .buffer (Function.update_self _ _ _) hne
  · rw [value_replace hagree, Option.map_some]
    simp [content]

/-- The object `x` gives its buffer back. -/
theorem Sound.release (h : m.Sound) (hx : m.ptr x = some a) :
    Sound ⟨Function.update m.heap a none, Function.update m.objs x (some .empty)⟩ ∧
      value ⟨Function.update m.heap a none, Function.update m.objs x (some .empty)⟩
        = Function.update m.value x (some []) := by
  -- nobody else has a pointer to the buffer that goes
  have hagree : ∀ z b, z ≠ x → m.ptr z = some b → Function.update m.heap a none b = m.heap b := by
    intro z b hzx hz
    refine Function.update_of_ne ?_ _ _
    rintro rfl
    exact hzx (h.owned.exclusive hz hx)
  refine ⟨h.replace hagree ?_ (h.owned.free hx), value_replace hagree⟩
  rintro _ ⟨⟩
  exact .empty

/-- `swap` exchanges two objects with their buffers. -/
theorem Sound.swap {y : V} {ox oy : BytesObj Addr} (h : m.Sound) (hx : m.objs x = some ox)
    (hy : m.objs y = some oy) :
    ((m.set x oy).set y ox).Sound ∧ ((m.set x oy).set y ox).value = m.value ∘ Equiv.swap y x := by
  -- as one permutation of the variables, which also covers a swap with itself
  have hobjs : ((m.set x oy).set y ox).objs = m.objs ∘ Equiv.swap y x := by
    rw [Equiv.comp_swap_eq_update, hx, hy]
    rfl
  refine ⟨⟨fun {z oz} hz => ?_, ?_⟩, ?_⟩
  · rw [hobjs] at hz
    exact h.wellFormed hz
  · have hptr : ((m.set x oy).set y ox).ptr = m.ptr ∘ Equiv.swap y x := by
      unfold ptr
      rw [hobjs]
      rfl
    rw [hptr, Equiv.comp_swap_eq_update]
    exact h.owned.swap x y
  · unfold value
    rw [hobjs]
    rfl

/-! ### The member functions -/

theorem clear_spec (h : m.Sound) (hx : m.objs x = some o) :
    ∃ m', m.clear x = .ok m' ∧ m'.Sound ∧ m'.value = Function.update m.value x (some []) ∧
      m'.objs = Function.update m.objs x (some .empty) ∧
      ∀ a, (m'.heap a).isSome → (m.heap a).isSome := by
  obtain ⟨rfl, hval⟩ | ⟨a, bs, rfl, hne, ha, -⟩ := h.objs_cases hx
  · refine ⟨m, by simp [clear, object_eq hx, BytesObj.empty, ok_bind], h, ?_, ?_, fun _ => id⟩
    · rw [← hval, Function.update_eq_self]
    · rw [← hx, Function.update_eq_self]
  · obtain ⟨hsound, hvalue⟩ := h.release (ptr_eq hx)
    have hpos : bs.length > 0 := List.length_pos_iff.mpr hne
    refine ⟨_, ?_, hsound, hvalue, rfl, fun b hb => ?_⟩
    · simp only [clear, object_eq hx, ok_bind, hpos, if_true, deleteArray, ha, Option.isSome_some]
      rfl
    · simp only [Function.update_apply] at hb
      split_ifs at hb
      · cases hb
      · exact hb

/-- `copy` into an empty object, when the allocation succeeds. -/
theorem copy_spec {b : Addr} (hx : m.objs x = some .empty) (hb : m.heap b = some bs)
    (ha : m.heap a = none) :
    m.copy x ⟨bs.length, some b⟩ (some a)
      = .ok (.done, ⟨Function.update m.heap a (some bs),
          Function.update m.objs x (some ⟨bs.length, some a⟩)⟩) := by
  -- the source is allocated and the target was not, so that `memcpy` does not overlap
  have hba : b ≠ a := by
    rintro rfl
    rw [ha] at hb
    cases hb
  have hmem : ∀ objs : V → Option (BytesObj Addr),
      memcpy ⟨Function.update m.heap a (some (List.replicate bs.length 0)), objs⟩ a (some b) bs.length
        = .ok ⟨Function.update m.heap a (some bs), objs⟩ := by
    intro objs
    simp [memcpy, Function.update_of_ne hba, hb]
  simp only [copy, object_eq hx, ok_bind, newArray, set, ha, Option.isSome_none, Bool.false_eq_true,
    if_false, hmem, Function.update_idem]

theorem copy_inUse {other : BytesObj Addr} (hx : m.objs x = some o) (ha : (m.heap a).isSome) :
    m.copy x other (some a) = .error .inUse := by
  simp only [copy, object_eq hx, ok_bind, newArray, set, ha, if_true]
  rfl

theorem copy_threw {other : BytesObj Addr} (hx : m.objs x = some o) :
    m.copy x other none = .ok (.threw, m.set x { o with size_ := other.size_ }) := by
  simp only [copy, object_eq hx, ok_bind]

/-! ### The operations -/

variable {y : V} {alloc : Option Addr}

/-- Nothing has changed. -/
theorem Kept.refl_threw (h : m.Sound) (op : Op V) : Kept m op .threw m where
  sound := h
  values hdone := absurd hdone (by simp)
  frame _ _ := rfl
  buffers _ := rfl

/-- An operation on one variable. -/
theorem Kept.of_update {op : Op V} {m' : Memory V} {out : Outcome} (hsound : m'.Sound)
    (hvalue : m'.value = op.apply m.value) (hobjs : m'.objs = Function.update m.objs x o')
    (hwrites : op.writes = [x]) (htransfers : op.transfers = false) : Kept m op out m' where
  sound := hsound
  values _ := hvalue
  frame z hz := by
    rw [hwrites, List.mem_singleton] at hz
    rw [hobjs, Function.update_of_ne hz]
  buffers ht := by
    rw [htransfers] at ht
    cases ht

theorem receive_settles (h : m.Sound) (bs : Bytes) (hl : (Op.receive x bs).Legal m) :
    m.Settles (.receive x bs) alloc (Kept m (.receive x bs)) := by
  have hx : m.ptr x = none := ptr_eq_none hl
  by_cases hnil : bs = []
  · subst hnil
    obtain ⟨hsound, hvalue⟩ := h.set_empty hx
    exact Or.inr ⟨.done, _, rfl, .of_update hsound hvalue rfl rfl rfl⟩
  have hfull : bs.isEmpty = false := by simpa using hnil
  cases alloc with
  | none =>
    refine Or.inr ⟨.threw, m, ?_, .refl_threw h _⟩
    simp [Op.exec, receive, hfull]
  | some a =>
    by_cases ha : (m.heap a).isSome
    · refine Or.inl ⟨?_, a, rfl, ha⟩
      simp only [Op.exec, receive, hfull, newArray, ha, if_true, Bool.false_eq_true, if_false]
      rfl
    · obtain ⟨hsound, hvalue⟩ := h.acquire hx (Option.not_isSome_iff_eq_none.mp ha) hnil
      refine Or.inr ⟨.done, _, ?_, .of_update hsound hvalue rfl rfl rfl⟩
      simp only [Op.exec, receive, hfull, newArray, ha, ok_bind, Bool.false_eq_true, if_false, fill,
        set, Function.update_idem, BytesObj.new]

theorem copyConstruct_settles (h : m.Sound) (hl : (Op.copyConstruct x y).Legal m) :
    m.Settles (.copyConstruct x y) alloc (Kept m (.copyConstruct x y)) := by
  obtain ⟨hx, hlive⟩ := hl
  obtain ⟨o, hy⟩ := Option.isSome_iff_exists.mp hlive
  obtain ⟨hsound₁, hvalue₁⟩ := h.set_empty (ptr_eq_none hx)
  have hobj : (m.set x .empty).objs x = some .empty := Function.update_self _ _ _
  obtain ⟨rfl, hval⟩ | ⟨b, bs, rfl, hne, hb, hval⟩ := h.objs_cases hy
  · refine Or.inr ⟨.done, m.set x .empty, ?_, .of_update hsound₁ ?_ rfl rfl rfl⟩
    · simp [Op.exec, copyConstruct, object_eq hy, BytesObj.empty]
    · rw [hvalue₁, Op.apply, hval]
  have hpos : bs.length > 0 := List.length_pos_iff.mpr hne
  cases alloc with
  | none =>
    -- the constructor has thrown, and the object is gone with its size
    have hgone : Function.update m.objs x none = m.objs := by
      rw [← hx]
      exact Function.update_eq_self x m.objs
    refine Or.inr ⟨.threw, m, ?_, .refl_threw h _⟩
    simp only [Op.exec, copyConstruct, object_eq hy, ok_bind, hpos, if_true, copy_threw hobj]
    simp only [forget, set, Function.update_idem, hgone]
  | some a =>
    by_cases ha : (m.heap a).isSome
    · refine Or.inl ⟨?_, a, rfl, ha⟩
      simp only [Op.exec, copyConstruct, object_eq hy, ok_bind, hpos, if_true, copy_inUse hobj ha]
      rfl
    · have ha : m.heap a = none := Option.not_isSome_iff_eq_none.mp ha
      obtain ⟨hsound, hvalue⟩ := hsound₁.acquire (ptr_eq hobj) ha hne
      refine Or.inr ⟨.done, _, ?_, .of_update hsound ?_ (Function.update_idem _ _ _) rfl rfl⟩
      · simp only [Op.exec, copyConstruct, object_eq hy, ok_bind, hpos, if_true,
          copy_spec (m := m.set x .empty) hobj hb ha]
      · rw [hvalue, hvalue₁, Op.apply, hval, Function.update_idem]

/-- What an assignment leaves behind whose allocation has failed: a size, and no buffer. -/
theorem not_sound_of_bare {n : ℕ} (hpos : n > 0) : ¬ (m.set x ⟨n, none⟩).Sound := by
  intro h
  obtain ⟨hzero, -⟩ | ⟨-, a, _, hdata, -⟩ := h.wellFormed (Function.update_self x _ m.objs)
  · exact absurd hzero hpos.ne'
  · cases hdata

theorem copyAssign_settles (h : m.Sound) (hl : (Op.copyAssign x y).Legal m) :
    m.Settles (.copyAssign x y) alloc fun out m' =>
      Kept m (.copyAssign x y) out m' ↔ (Op.copyAssign x y).Safe m alloc := by
  by_cases hxy : x = y
  · subst hxy
    refine Or.inr ⟨.done, m, by simp [Op.exec, copyAssign],
      iff_of_true ⟨h, fun _ => ?_, fun _ _ => rfl, fun _ => rfl⟩ (Or.inl rfl)⟩
    exact (Function.update_eq_self x m.value).symm
  -- `clear` comes first, and does not concern the source because it is another object
  obtain ⟨⟨ox, hx⟩, ⟨oy, hy⟩⟩ := hl.imp Option.isSome_iff_exists.mp Option.isSome_iff_exists.mp
  obtain ⟨m₁, hclear, hsound₁, hvalue₁, hobjs₁, hheap⟩ := clear_spec h hx
  have hobj : m₁.objs x = some .empty := by rw [hobjs₁, Function.update_self]
  have hy₁ : m₁.objs y = some oy := by rw [hobjs₁, Function.update_of_ne (Ne.symm hxy), hy]
  have hvaly : m₁.value y = m.value y := by rw [hvalue₁, Function.update_of_ne (Ne.symm hxy)]
  obtain ⟨rfl, hval⟩ | ⟨b, bs, rfl, hne, hb, hval⟩ := hsound₁.objs_cases hy₁
  · refine Or.inr ⟨.done, m₁, ?_,
      iff_of_true (.of_update hsound₁ ?_ hobjs₁ rfl rfl) (Or.inr (Or.inl ?_))⟩
    · simp [Op.exec, copyAssign, hxy, hclear, object_eq hy₁, BytesObj.empty]
    · rw [hvalue₁, Op.apply, ← hvaly, hval]
    · intro o ho
      obtain rfl := Option.some.inj (hy.symm.trans ho)
      rfl
  have hpos : bs.length > 0 := List.length_pos_iff.mpr hne
  have hexec : (Op.copyAssign x y).exec m alloc = m₁.copy x ⟨bs.length, some b⟩ alloc := by
    simp only [Op.exec, copyAssign, ne_eq, hxy, not_false_eq_true, if_true, hclear, ok_bind,
      object_eq hy₁, hpos]
  unfold Settles
  rw [hexec]
  cases alloc with
  | none =>
    refine Or.inr ⟨.threw, _, copy_threw hobj, iff_of_false (fun hkept => ?_) ?_⟩
    · exact not_sound_of_bare hpos hkept.sound
    · rintro (heq | hempty | hbuf)
      · exact hxy heq
      · exact absurd (hempty _ hy) hpos.ne'
      · exact hbuf rfl
  | some a =>
    by_cases ha : (m₁.heap a).isSome
    · exact Or.inl ⟨copy_inUse hobj ha, a, rfl, hheap a ha⟩
    · have ha : m₁.heap a = none := Option.not_isSome_iff_eq_none.mp ha
      obtain ⟨hsound, hvalue⟩ := hsound₁.acquire (ptr_eq hobj) ha hne
      have hobjs : Function.update m₁.objs x (some ⟨bs.length, some a⟩)
          = Function.update m.objs x (some ⟨bs.length, some a⟩) := by
        rw [hobjs₁, Function.update_idem]
      refine Or.inr ⟨.done, _, copy_spec hobj hb ha,
        iff_of_true (.of_update hsound ?_ hobjs rfl rfl) (Or.inr (Or.inr (by simp)))⟩
      rw [hvalue, hvalue₁, Function.update_idem, Op.apply, ← hvaly, hval]

theorem swap_eq {ox oy : BytesObj Addr} (hx : m.objs x = some ox) (hy : m.objs y = some oy) :
    m.swap x y = .ok ((m.set x oy).set y ox) := by
  simp only [swap, object_eq hx, object_eq hy, ok_bind]

/-- Two objects are exchanged: a move assignment, or a swap. -/
theorem Kept.of_swap {op : Op V} {ox oy : BytesObj Addr} (h : m.Sound) (hx : m.objs x = some ox)
    (hy : m.objs y = some oy) (happly : op.apply m.value = m.value ∘ Equiv.swap y x)
    (hwrites : ∀ z, z ∉ op.writes → z ≠ x ∧ z ≠ y) : Kept m op .done ((m.set x oy).set y ox) := by
  obtain ⟨hsound, hvalue⟩ := h.swap hx hy
  refine ⟨hsound, fun _ => hvalue.trans happly.symm, fun z hz => ?_, fun _ => rfl⟩
  obtain ⟨hzx, hzy⟩ := hwrites z hz
  exact (Function.update_of_ne hzy _ _).trans (Function.update_of_ne hzx _ _)

theorem swap_settles (h : m.Sound) (hl : (Op.swap x y).Legal m) :
    m.Settles (.swap x y) alloc (Kept m (.swap x y)) := by
  obtain ⟨⟨ox, hx⟩, ⟨oy, hy⟩⟩ := hl.imp Option.isSome_iff_exists.mp Option.isSome_iff_exists.mp
  refine Or.inr ⟨.done, _, ?_, .of_swap h hx hy ?_ (by simp [Op.writes])⟩
  · rw [Op.exec, swap_eq hx hy]
    rfl
  · exact (Equiv.comp_swap_eq_update y x m.value).symm

theorem moveAssign_settles (h : m.Sound) (hl : (Op.moveAssign x y).Legal m) :
    m.Settles (.moveAssign x y) alloc (Kept m (.moveAssign x y)) := by
  obtain ⟨⟨ox, hx⟩, ⟨oy, hy⟩⟩ := hl.imp Option.isSome_iff_exists.mp Option.isSome_iff_exists.mp
  refine Or.inr ⟨.done, _, ?_, .of_swap h hy hx ?_ (by simp +contextual [Op.writes])⟩
  · rw [Op.exec, moveAssign, swap_eq hy hx]
    rfl
  · rw [Equiv.swap_comm]
    exact (Equiv.comp_swap_eq_update y x m.value).symm

/-- A move construction is a swap with the new object. -/
theorem moveConstruct_settles (h : m.Sound) (hl : (Op.moveConstruct x y).Legal m) :
    m.Settles (.moveConstruct x y) alloc (Kept m (.moveConstruct x y)) := by
  obtain ⟨hx, hlive⟩ := hl
  obtain ⟨o, hy⟩ := Option.isSome_iff_exists.mp hlive
  have hyx : y ≠ x := by
    rintro rfl
    rw [hx] at hy
    cases hy
  obtain ⟨hsound₁, hvalue₁⟩ := h.set_empty (ptr_eq_none hx)
  have hobj : (m.set x .empty).objs x = some .empty := Function.update_self _ _ _
  have hy₁ : (m.set x .empty).objs y = some o := (Function.update_of_ne hyx _ _).trans hy
  obtain ⟨hsound, hvalue⟩ := hsound₁.swap hy₁ hobj
  refine Or.inr ⟨.done, _, ?_, hsound, fun _ => ?_, fun z hz => ?_, fun _ => rfl⟩
  · rw [Op.exec, moveConstruct, swap_eq hy₁ hobj]
    rfl
  · rw [hvalue, Equiv.comp_swap_eq_update, hvalue₁, Function.update_self, Function.update_of_ne hyx,
      Function.update_comm hyx.symm, Function.update_idem]
    rfl
  · have hz : z ≠ x ∧ z ≠ y := by simpa [Op.writes] using hz
    exact (Function.update_of_ne hz.1 _ _).trans
      ((Function.update_of_ne hz.2 _ _).trans (Function.update_of_ne hz.1 _ _))

theorem clear_settles (h : m.Sound) (hl : (Op.clear x).Legal m) :
    m.Settles (.clear x) alloc (Kept m (.clear x)) := by
  obtain ⟨o, hx⟩ := Option.isSome_iff_exists.mp hl
  obtain ⟨m', hclear, hsound, hvalue, hobjs, -⟩ := clear_spec h hx
  refine Or.inr ⟨.done, m', ?_, .of_update hsound hvalue hobjs rfl rfl⟩
  rw [Op.exec, hclear]
  rfl

theorem destroy_settles (h : m.Sound) (hl : (Op.destroy x).Legal m) :
    m.Settles (.destroy x) alloc (Kept m (.destroy x)) := by
  obtain ⟨o, hx⟩ := Option.isSome_iff_exists.mp hl
  obtain ⟨m₁, hclear, hsound₁, hvalue₁, hobjs₁, -⟩ := clear_spec h hx
  have hobj : m₁.objs x = some .empty := by rw [hobjs₁, Function.update_self]
  obtain ⟨hsound, hvalue⟩ := hsound₁.forget (ptr_eq hobj)
  have hgone : (m₁.forget x).objs = Function.update m.objs x none := by
    rw [forget, hobjs₁, Function.update_idem]
  refine Or.inr ⟨.done, m₁.forget x, ?_, .of_update hsound ?_ hgone rfl rfl⟩
  · simp only [Op.exec, destroy, hclear, ok_bind]
    rfl
  · rw [hvalue, hvalue₁, Function.update_idem]
    rfl

/-! ## Runs -/

theorem Settles.mono {op : Op V} {P Q : Outcome → Memory V → Prop} (h : m.Settles op alloc P)
    (hsub : ∀ out m', P out m' → Q out m') : m.Settles op alloc Q := by
  obtain hinUse | ⟨out, m', hexec, hP⟩ := h
  · exact Or.inl hinUse
  · exact Or.inr ⟨out, m', hexec, hsub out m' hP⟩

/-- One operation on sound objects. -/
theorem exec_settles (h : m.Sound) (op : Op V) (alloc : Option Addr) (hl : op.Legal m) :
    m.Settles op alloc fun out m' => Kept m op out m' ↔ op.Safe m alloc := by
  have hsafe : ∀ {op : Op V}, op.Safe m alloc → m.Settles op alloc (Kept m op) →
      m.Settles op alloc fun out m' => Kept m op out m' ↔ op.Safe m alloc :=
    fun hs hk => hk.mono fun _ _ hkept => iff_of_true hkept hs
  cases op with
  | receive x bs => exact hsafe trivial (receive_settles h bs hl)
  | copyConstruct x y => exact hsafe trivial (copyConstruct_settles h hl)
  | copyAssign x y => exact copyAssign_settles h hl
  | moveConstruct x y => exact hsafe trivial (moveConstruct_settles h hl)
  | moveAssign x y => exact hsafe trivial (moveAssign_settles h hl)
  | swap x y => exact hsafe trivial (swap_settles h hl)
  | clear x => exact hsafe trivial (clear_settles h hl)
  | destroy x => exact hsafe trivial (destroy_settles h hl)

omit [DecidableEq V] in
theorem Sound.empty : (Memory.empty : Memory V).Sound where
  wellFormed hx := absurd hx (by simp [Memory.empty])
  owned := Owned.empty

theorem Step.sound {m' : Memory V} {l : Op V × Option Addr} (h : m.Sound)
    (hstep : guarded (fun m l => l.1.Safe m l.2) Step m l m') : m'.Sound := by
  obtain ⟨hsafe, hlegal, out, hexec⟩ := hstep
  obtain ⟨herr, -⟩ | ⟨out', m'', hexec', hkept⟩ := exec_settles h l.1 l.2 hlegal
  · rw [hexec] at herr
    cases herr
  · rw [hexec] at hexec'
    cases hexec'
    exact (hkept.mpr hsafe).sound

/-- **Value semantics.** In a run in which every copy assignment of something non-empty gets its
buffer, the objects are sound after every step. The next operation, whatever it is and whatever the
allocator answers, is defined; and it leaves the objects sound, with the contents that it should
have, if and only if it is not a copy assignment of something non-empty whose allocation fails. -/
theorem run_kept_iff {ls : List (Op V × Option Addr)}
    (hrun : Run (guarded (fun m l => l.1.Safe m l.2) Step) Memory.empty ls m) :
    m.Sound ∧ ∀ (op : Op V) (alloc : Option Addr), op.Legal m →
      m.Settles op alloc fun out m' => Kept m op out m' ↔ op.Safe m alloc := by
  have hsound : m.Sound := hrun.invariant (fun _ _ _ h hstep => Step.sound h hstep) .empty
  exact ⟨hsound, fun op alloc hl => exec_settles hsound op alloc hl⟩

end

theorem run_kept_iff_copied :
    ∃ m : Memory ℕ, Run (guarded (fun m l => l.1.Safe m l.2) Step) Memory.empty
        [(.receive 0 [1, 2], some 7), (.receive 1 [3], some 8), (.copyAssign 1 0, some 8),
          (.copyConstruct 2 1, none)] m ∧
      m.Sound ∧ ∀ (op : Op ℕ) (alloc : Option Addr), op.Legal m →
        m.Settles op alloc fun out m' => Kept m op out m' ↔ op.Safe m alloc := by
  obtain ⟨m, hrun⟩ : ∃ m : Memory ℕ, Run (guarded (fun m l => l.1.Safe m l.2) Step) Memory.empty
      [(.receive 0 [1, 2], some 7), (.receive 1 [3], some 8), (.copyAssign 1 0, some 8),
        (.copyConstruct 2 1, none)] m :=
    ⟨_, .cons ⟨trivial, rfl, _, rfl⟩ (.cons ⟨trivial, rfl, _, rfl⟩
      (.cons ⟨Or.inr (Or.inr (by simp)), ⟨rfl, rfl⟩, _, rfl⟩
        (.cons ⟨trivial, ⟨rfl, rfl⟩, _, rfl⟩ (.nil _))))⟩
  exact ⟨m, hrun, run_kept_iff hrun⟩

/-- A copy assignment whose allocation fails leaves an object with a size and no buffer, and copying
from that one is undefined. -/
theorem copyAssign_leaves_bare :
    ∃ m : Memory ℕ, Run Step Memory.empty
        [(.receive 0 [1], some 7), (.receive 1 [], none), (.copyAssign 1 0, none)] m ∧
      m.objs 1 = some ⟨1, none⟩ ∧ ¬ m.Sound ∧
      (Op.copyConstruct 2 1).exec m (some 8) = .error .undefined := by
  refine ⟨_, .cons ⟨rfl, _, rfl⟩ (.cons ⟨rfl, _, rfl⟩ (.cons ⟨⟨rfl, rfl⟩, _, rfl⟩ (.nil _))),
    rfl, ?_, rfl⟩
  exact not_sound_of_bare (by decide)

end Memory

end Librocks
