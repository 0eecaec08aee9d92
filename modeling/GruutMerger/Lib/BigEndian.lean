import GruutMerger.Lib.Bytes
import Mathlib.Data.List.Induction

/-!
# Integers as bytes

A natural number as a fixed number of bytes, most significant first, and the number that
such bytes stand for. Whatever does not fit is cut off at the front.
-/
namespace BigEndian

open ByteText

/-- The low `len` bytes of a number, most significant first. -/
def write (len n : Nat) : Bytes := (List.range len).map fun i => UInt8.ofNat (n / 256 ^ (len - 1 - i))

/-- The number that bytes stand for. -/
def read (bs : Bytes) : Nat := bs.foldl (fun n b => 256 * n + b.toNat) 0

@[simp] theorem length_write (len n : Nat) : (write len n).length = len := by simp [write]

theorem write_succ (len n : Nat) : write (len + 1) n = write len (n / 256) ++ [UInt8.ofNat n] := by
  unfold write
  rw [List.range_succ, List.map_append]
  congr 1
  · refine List.map_congr_left fun i hi => ?_
    have hi := List.mem_range.mp hi
    rw [Nat.div_div_eq_div_mul, ← Nat.pow_succ', show len + 1 - 1 - i = len - 1 - i + 1 by omega]
  · simp

theorem write_succ_front (len n : Nat) : write (len + 1) n = UInt8.ofNat (n / 256 ^ len) :: write len n := by
  unfold write
  rw [List.range_succ_eq_map, List.map_cons, List.map_map]
  congr 1
  refine List.map_congr_left fun i hi => ?_
  have hi := List.mem_range.mp hi
  simp only [Function.comp_apply]
  rw [show len + 1 - 1 - i.succ = len - 1 - i by omega]

theorem read_concat (bs : Bytes) (b : UInt8) : read (bs ++ [b]) = 256 * read bs + b.toNat := by
  simp [read]

theorem read_write (len n : Nat) : read (write len n) = n % 256 ^ len := by
  induction len generalizing n with
  | zero => simp [write, read, Nat.mod_one]
  | succ len ih =>
    rw [write_succ, read_concat, ih, Nat.pow_succ', Nat.mod_mul, UInt8.toNat_ofNat']
    omega

theorem write_injOn {len m n : Nat} (hm : m < 256 ^ len) (hn : n < 256 ^ len) (h : write len m = write len n) : m = n := by
  have hread := congrArg read h
  rwa [read_write, read_write, Nat.mod_eq_of_lt hm, Nat.mod_eq_of_lt hn] at hread

theorem read_lt (bs : Bytes) : read bs < 256 ^ bs.length := by
  induction bs using List.reverseRecOn with
  | nil => simp [read]
  | append_singleton bs b ih =>
    have hb := b.toNat_lt
    rw [read_concat, List.length_append, List.length_singleton, Nat.pow_succ]
    omega

end BigEndian
