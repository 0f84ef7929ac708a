import Librocks.Common.Bytes
import Librocks.Common.FiniteMap

/-!
# The keys of a queue

Reference: `include/impl/KueueImpl.h`, `putU64BE` and `getU64BE`.

The source writes a 64-bit key by swapping its bytes and copying the object representation. On the
little-endian target the representation of a word is its bytes from the least significant one on, so
the copied string is the big-endian code. The code is an order isomorphism onto its image, which is
what lets `SeekToFirst` and `SeekToLast` find the extreme keys.
-/

namespace Librocks

/-- The object representation of a 64-bit word. -/
def memory (x : UInt64) : Bytes := Bytes.leBytes 8 x.toNat

/-- The word whose object representation was copied from `src`. -/
def ofMemory (src : Bytes) : UInt64 := UInt64.ofNat (Bytes.leNat src)

/-- `_byteswap_uint64`: reverses the bytes of a word. -/
def byteswap (x : UInt64) : UInt64 := ofMemory (memory x).reverse

/-- The bytes that are copied into `dst`. -/
def putU64BE (x : UInt64) : Bytes := memory (byteswap x)

/-- The word that is copied from `src`, with its bytes swapped back. -/
def getU64BE (src : Bytes) : UInt64 := byteswap (ofMemory src)

@[simp] theorem length_memory (x : UInt64) : (memory x).length = 8 := Bytes.length_leBytes _ _

@[simp] theorem leNat_memory (x : UInt64) : Bytes.leNat (memory x) = x.toNat := by
  have hx : x.toNat < 256 ^ 8 := x.toNat_lt
  rw [memory, Bytes.leNat_leBytes, Nat.mod_eq_of_lt hx]

/-- A word is read back from its representation. -/
theorem ofMemory_memory (x : UInt64) : ofMemory (memory x) = x := by
  rw [ofMemory, leNat_memory, UInt64.ofNat_toNat]

/-- Eight bytes hold less than `2 ^ 64`. -/
theorem leNat_lt {src : Bytes} (h : src.length = 8) : Bytes.leNat src < 2 ^ 64 := by
  have hlt := Bytes.beNat_lt src.reverse
  rwa [Bytes.beNat_reverse, List.length_reverse, h] at hlt

/-- Every eight bytes are the representation of a word. -/
theorem memory_ofMemory {src : Bytes} (h : src.length = 8) : memory (ofMemory src) = src := by
  rw [memory, ofMemory, UInt64.toNat_ofNat_of_lt' (leNat_lt h), ← h, Bytes.leBytes_leNat]

/-- `putU64BE` writes the bytes of a word, the most significant one first. -/
theorem putU64BE_eq (x : UInt64) : putU64BE x = (memory x).reverse := by
  rw [putU64BE, byteswap, memory_ofMemory (by simp)]

@[simp] theorem length_putU64BE (x : UInt64) : (putU64BE x).length = 8 := by
  simp [putU64BE_eq]

@[simp] theorem beNat_putU64BE (x : UInt64) : Bytes.beNat (putU64BE x) = x.toNat := by
  rw [putU64BE_eq, Bytes.beNat_reverse, leNat_memory]

/-- **Reading back a key.** -/
@[simp] theorem getU64BE_putU64BE (x : UInt64) : getU64BE (putU64BE x) = x := by
  rw [getU64BE, byteswap, putU64BE_eq, memory_ofMemory (by simp), List.reverse_reverse,
    ofMemory_memory]

/-- **Writing back a key**: every string of eight bytes is a code. -/
theorem putU64BE_getU64BE {src : Bytes} (h : src.length = 8) : putU64BE (getU64BE src) = src := by
  rw [putU64BE_eq, getU64BE, byteswap, memory_ofMemory (by simp), memory_ofMemory h,
    List.reverse_reverse]

/-- Keys are compared as the words they encode. -/
theorem putU64BE_lt_iff (x y : UInt64) : putU64BE x < putU64BE y ↔ x < y := by
  rw [Bytes.lt_iff_beNat_lt (by simp), beNat_putU64BE, beNat_putU64BE, UInt64.lt_iff_toNat_lt]

/-- Reading keeps the order of the strings. -/
theorem getU64BE_le {k k' : Bytes} (hk : k.length = 8) (hk' : k'.length = 8) (h : k ≤ k') :
    getU64BE k ≤ getU64BE k' := by
  rw [← UInt64.not_lt, ← putU64BE_lt_iff, putU64BE_getU64BE hk, putU64BE_getU64BE hk']
  exact not_lt.mpr h

/-- **The code is an order isomorphism** between the words and the strings of eight bytes. So the
first and the last key in the order of RocksDB are the codes of the least and the greatest word. -/
theorem codec_order_iso (x y : UInt64) {src : Bytes} (hsrc : src.length = 8) {keys : Finset Bytes}
    (hkeys : ∀ k ∈ keys, k.length = 8) (hne : keys.Nonempty) :
    getU64BE (putU64BE x) = x ∧ putU64BE (getU64BE src) = src ∧
      (putU64BE x < putU64BE y ↔ x < y) ∧
      IsLeast (Set.image getU64BE keys) (getU64BE (keys.min' hne)) ∧
      IsGreatest (Set.image getU64BE keys) (getU64BE (keys.max' hne)) := by
  have hmin := keys.min'_mem hne
  have hmax := keys.max'_mem hne
  refine ⟨getU64BE_putU64BE x, putU64BE_getU64BE hsrc, putU64BE_lt_iff x y, ⟨?_, ?_⟩, ⟨?_, ?_⟩⟩
  · exact Set.mem_image_of_mem getU64BE hmin
  · rintro _ ⟨k, hk, rfl⟩
    exact getU64BE_le (hkeys _ hmin) (hkeys k hk) (keys.min'_le k hk)
  · exact Set.mem_image_of_mem getU64BE hmax
  · rintro _ ⟨k, hk, rfl⟩
    exact getU64BE_le (hkeys k hk) (hkeys _ hmax) (keys.le_max' k hk)

/-- The words on both sides of a carry into the second byte, and of the top bit. -/
private def edges : Finset Bytes :=
  ([255, 256, 0x7FFFFFFFFFFFFFFF, 0x8000000000000000].map putU64BE).toFinset

theorem codec_order_iso_edges :
    putU64BE 255 < putU64BE 256 ∧
      ∃ hne : edges.Nonempty, IsLeast (Set.image getU64BE edges) (getU64BE (edges.min' hne)) ∧
        IsGreatest (Set.image getU64BE edges) (getU64BE (edges.max' hne)) := by
  have hkeys : ∀ k ∈ edges, k.length = 8 := by
    intro k hk
    obtain ⟨x, -, rfl⟩ := List.mem_map.mp (List.mem_toFinset.mp hk)
    exact length_putU64BE x
  have hne : edges.Nonempty := ⟨putU64BE 255, List.mem_toFinset.mpr List.mem_cons_self⟩
  obtain ⟨-, -, hlt, hmin, hmax⟩ := codec_order_iso 255 256 (length_putU64BE 0) hkeys hne
  exact ⟨hlt.mpr (by decide), hne, hmin, hmax⟩

/-- The code of a number; the keys of a queue are the codes of an interval of numbers. -/
def code (n : ℕ) : Bytes := putU64BE (UInt64.ofNat n)

theorem code_toNat (x : UInt64) : code x.toNat = putU64BE x := by
  rw [code, UInt64.ofNat_toNat]

/-- The keys are ordered as the numbers they stand for. -/
theorem code_lt_iff {m n : ℕ} (hm : m < 2 ^ 64) (hn : n < 2 ^ 64) : code m < code n ↔ m < n := by
  rw [code, code, putU64BE_lt_iff, UInt64.lt_iff_toNat_lt, UInt64.toNat_ofNat_of_lt' hm,
    UInt64.toNat_ofNat_of_lt' hn]

theorem code_strictMonoOn : StrictMonoOn code (Set.Iio (2 ^ 64)) :=
  fun _ hm _ hn h => (code_lt_iff hm hn).mpr h

theorem code_injOn : Set.InjOn code (Set.Iio (2 ^ 64)) := code_strictMonoOn.injOn

end Librocks
