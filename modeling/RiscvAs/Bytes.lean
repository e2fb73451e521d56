/-
Bytes, little-endian numbers and byte arrays in memory.

An array is a function from indices to bytes, and `window` reads its first
bytes as a list.  Storing a list of bytes at an index appends it to the window
that ends there and changes nothing below.
-/

import Mathlib

namespace Bytes

abbrev Byte := BitVec 8

/-- The `count` low bytes of a number, the lowest first. -/
def littleEndian : Nat → Nat → List Byte
  | 0, _ => []
  | count + 1, value => BitVec.ofNat 8 value :: littleEndian count (value / 256)

@[simp] theorem littleEndian_length (count value : Nat) :
    (littleEndian count value).length = count := by
  induction count generalizing value with
  | zero => rfl
  | succ count ih => simp [littleEndian, ih]

/-- The number whose bytes these are. -/
def ofLittleEndian : List Byte → Nat
  | [] => 0
  | byte :: bytes => byte.toNat + 256 * ofLittleEndian bytes

theorem ofLittleEndian_littleEndian (count value : Nat) :
    ofLittleEndian (littleEndian count value) = value % 256 ^ count := by
  induction count generalizing value with
  | zero => simp [littleEndian, ofLittleEndian, Nat.mod_one]
  | succ count ih =>
      have split := Nat.mod_mul (x := value) (a := 256) (b := 256 ^ count)
      rw [pow_succ, Nat.mul_comm (256 ^ count) 256, split]
      simp only [littleEndian, ofLittleEndian, ih, BitVec.toNat_ofNat, Nat.reducePow]

theorem littleEndian_mod (count value : Nat) :
    littleEndian count (value % 256 ^ count) = littleEndian count value := by
  induction count generalizing value with
  | zero => rfl
  | succ count ih =>
      have low : BitVec.ofNat 8 (value % 256 ^ (count + 1)) = BitVec.ofNat 8 value := by
        apply BitVec.eq_of_toNat_eq
        rw [BitVec.toNat_ofNat, BitVec.toNat_ofNat]
        exact Nat.mod_mod_of_dvd value (dvd_pow_self 256 (Nat.succ_ne_zero count))
      have high : value % 256 ^ (count + 1) / 256 = value / 256 % 256 ^ count := by
        rw [pow_succ, Nat.mul_comm, Nat.mod_mul_right_div_self]
      rw [littleEndian, littleEndian, low, high, ih]

abbrev Buffer := Nat → Byte

def window (buffer : Buffer) (size : Nat) : List Byte :=
  (List.range size).map buffer

def store (buffer : Buffer) (index : Nat) : List Byte → Buffer
  | [] => buffer
  | byte :: bytes => store (Function.update buffer index byte) (index + 1) bytes

@[simp] theorem window_length (buffer : Buffer) (size : Nat) :
    (window buffer size).length = size := by
  simp [window]

theorem window_succ (buffer : Buffer) (size : Nat) :
    window buffer (size + 1) = window buffer size ++ [buffer size] := by
  simp [window, List.range_succ]

theorem window_congr {buffer buffer' : Buffer} {size : Nat}
    (same : ∀ i < size, buffer i = buffer' i) : window buffer size = window buffer' size := by
  simp only [window]
  exact List.map_congr_left (fun i member => same i (List.mem_range.mp member))

theorem window_getElem? (buffer : Buffer) {size i : Nat} (inside : i < size) :
    (window buffer size)[i]? = some (buffer i) := by
  simp [window, inside]

theorem store_below (buffer : Buffer) (index : Nat) (bytes : List Byte) {i : Nat}
    (below : i < index) : store buffer index bytes i = buffer i := by
  induction bytes generalizing buffer index with
  | nil => rfl
  | cons byte bytes ih =>
      rw [store, ih _ _ (by omega), Function.update_of_ne (by omega)]

theorem store_append (buffer : Buffer) (index : Nat) (first second : List Byte) :
    store buffer index (first ++ second) =
      store (store buffer index first) (index + first.length) second := by
  induction first generalizing buffer index with
  | nil => rfl
  | cons byte bytes ih =>
      rw [List.cons_append, store, ih, store, List.length_cons, Nat.add_assoc,
        Nat.add_comm 1]

/-- Bytes stored at the end of a window extend it. -/
theorem window_store (buffer : Buffer) (index : Nat) (bytes : List Byte) :
    window (store buffer index bytes) (index + bytes.length) = window buffer index ++ bytes := by
  induction bytes generalizing buffer index with
  | nil => simp [store]
  | cons byte bytes ih =>
      have shifted : index + (byte :: bytes).length = index + 1 + bytes.length := by
        simp only [List.length_cons]
        omega
      have kept : window (Function.update buffer index byte) index = window buffer index :=
        window_congr (fun i below => Function.update_of_ne (by omega) _ _)
      rw [store, shifted, ih, window_succ, kept, Function.update_self, List.append_assoc]
      rfl

end Bytes
