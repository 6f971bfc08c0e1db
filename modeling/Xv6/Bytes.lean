import Mathlib.Algebra.Ring.Nat
import Mathlib.Logic.Function.Basic

/-!
# Byte arrays and the integers stored in them

A block of `N` bytes is a function on `Fin N`. Integers are stored in it little-endian, `k` bytes
from an offset (`Bytes.getLE`, `Bytes.setLE`); lists of bytes are stored and read as they are (`Bytes.setBytes`,
`Bytes.getBytes`). What is read back is what was stored
(`Bytes.getLE_setLE`), and a store changes no byte outside its range (`Bytes.byte_setLE`), so that
fields that do not overlap do not disturb each other (`Bytes.getLE_setLE_of_disjoint`).
-/

namespace Xv6

/-- `N` bytes. -/
abbrev Bytes (N : ℕ) : Type := Fin N → UInt8

namespace Bytes

variable {N : ℕ}

/-- All bytes zero. -/
def zero (N : ℕ) : Bytes N :=
  fun _ => 0

/-- The byte at an offset, 0 past the end. -/
def byte (b : Bytes N) (i : ℕ) : UInt8 :=
  if h : i < N then b ⟨i, h⟩ else 0

/-- Store a byte; nothing happens past the end. -/
def setByte (b : Bytes N) (i : ℕ) (v : UInt8) : Bytes N :=
  fun j => if j.val = i then v else b j

/-- The `k`-byte little-endian integer at an offset. -/
def getLE (b : Bytes N) (off : ℕ) : ℕ → ℕ
  | 0 => 0
  | k + 1 => (b.byte off).toNat + 256 * getLE b (off + 1) k

/-- Bytes stored from an offset on. -/
def setBytes (b : Bytes N) (off : ℕ) : List UInt8 → Bytes N
  | [] => b
  | v :: vs => (b.setByte off v).setBytes (off + 1) vs

/-- `n` bytes from an offset on. -/
def getBytes (b : Bytes N) (off n : ℕ) : List UInt8 :=
  (List.range n).map fun k => b.byte (off + k)

/-- Store the low `k` bytes of `x` at an offset, little-endian. -/
def setLE (b : Bytes N) (off : ℕ) : ℕ → ℕ → Bytes N
  | 0, _ => b
  | k + 1, x => setLE (b.setByte off (UInt8.ofNat x)) (off + 1) k (x / 256)

@[simp] theorem byte_zero (i : ℕ) : (zero N).byte i = 0 := by
  simp [byte, zero]

theorem byte_setByte (b : Bytes N) (i j : ℕ) (v : UInt8) :
    (b.setByte i v).byte j = if j = i ∧ i < N then v else b.byte j := by
  unfold byte setByte
  by_cases hj : j < N
  · by_cases hji : j = i
    · subst hji
      simp [hj]
    · simp [hj, hji]
  · have hn : ¬ (j = i ∧ i < N) := by omega
    simp [hj, hn]

theorem byte_setByte_of_ne (b : Bytes N) {i j : ℕ} (v : UInt8) (h : j ≠ i) :
    (b.setByte i v).byte j = b.byte j := by
  rw [byte_setByte, if_neg fun hc => h hc.1]

theorem byte_setByte_self (b : Bytes N) {i : ℕ} (v : UInt8) (h : i < N) :
    (b.setByte i v).byte i = v := by
  rw [byte_setByte, if_pos ⟨rfl, h⟩]

/-- A store changes no byte outside its range. -/
theorem byte_setLE (b : Bytes N) (off k x : ℕ) {j : ℕ} (h : j < off ∨ off + k ≤ j) :
    (b.setLE off k x).byte j = b.byte j := by
  induction k generalizing b off x with
  | zero => rfl
  | succ k ih =>
    rw [setLE, ih _ _ _ (by omega), byte_setByte_of_ne _ _ (by omega)]

theorem getLE_congr {b b' : Bytes N} {off k : ℕ}
    (h : ∀ j, off ≤ j → j < off + k → b.byte j = b'.byte j) : b.getLE off k = b'.getLE off k := by
  induction k generalizing off with
  | zero => rfl
  | succ k ih =>
    rw [getLE, getLE, h off (Nat.le_refl _) (by omega), ih fun j h₁ h₂ => h j (by omega) (by omega)]

/-- What is read back is what was stored, up to the width of the field. -/
theorem getLE_setLE (b : Bytes N) {off k : ℕ} (x : ℕ) (h : off + k ≤ N) :
    (b.setLE off k x).getLE off k = x % 256 ^ k := by
  induction k generalizing b off x with
  | zero => simp [getLE, Nat.mod_one]
  | succ k ih =>
    rw [getLE, setLE, ih _ _ (by omega), byte_setLE _ _ _ _ (by omega),
      byte_setByte_self _ _ (by omega), Nat.pow_succ, Nat.mul_comm (256 ^ k), Nat.mod_mul]
    simp

/-- Fields that do not overlap do not disturb each other. -/
theorem getLE_setLE_of_disjoint (b : Bytes N) {off k off' k' : ℕ} (x : ℕ)
    (h : off' + k' ≤ off ∨ off + k ≤ off') :
    (b.setLE off k x).getLE off' k' = b.getLE off' k' :=
  getLE_congr fun j h₁ h₂ => byte_setLE _ _ _ _ (by omega)

@[simp] theorem getLE_zero (off k : ℕ) : (zero N).getLE off k = 0 := by
  induction k generalizing off with
  | zero => rfl
  | succ k ih => simp [getLE, ih]

theorem byte_setBytes_of_lt (b : Bytes N) {off j : ℕ} (vs : List UInt8) (h : j < off) :
    (b.setBytes off vs).byte j = b.byte j := by
  induction vs generalizing b off with
  | nil => rfl
  | cons v vs ih => rw [setBytes, ih _ (by omega), byte_setByte_of_ne _ _ (by omega)]

/-- What is read back are the bytes stored, and outside their range the old ones. -/
theorem byte_setBytes (b : Bytes N) {off : ℕ} {vs : List UInt8} (h : off + vs.length ≤ N) (j : ℕ) :
    (b.setBytes off vs).byte j = if off ≤ j ∧ j < off + vs.length then vs.getD (j - off) 0 else b.byte j := by
  induction vs generalizing b off with
  | nil =>
    rw [if_neg (by simp only [List.length_nil]; omega)]
    rfl
  | cons v vs ih =>
    rw [List.length_cons] at h ⊢
    rw [setBytes]
    obtain hlt | rfl | hgt := Nat.lt_trichotomy j off
    · rw [byte_setBytes_of_lt _ _ (by omega), byte_setByte_of_ne _ _ (by omega), if_neg (by omega)]
    · rw [byte_setBytes_of_lt _ _ (by omega), byte_setByte_self _ _ (by omega), if_pos (by omega), Nat.sub_self]
      rfl
    · rw [ih _ (by omega), byte_setByte_of_ne _ _ (by omega)]
      refine if_congr (by omega) ?_ rfl
      rw [show j - off = j - (off + 1) + 1 by omega, List.getD_cons_succ]

theorem getBytes_succ (b : Bytes N) (off k : ℕ) : b.getBytes off (k + 1) = b.byte off :: b.getBytes (off + 1) k := by
  rw [getBytes, List.range_succ_eq_map, List.map_cons, List.map_map, getBytes, Nat.add_zero]
  congr 1
  refine List.map_congr_left fun j _ => ?_
  rw [Function.comp_apply, Nat.succ_eq_add_one, Nat.add_assoc, Nat.add_comm 1 j]

@[simp] theorem getBytes_length (b : Bytes N) (off k : ℕ) : (b.getBytes off k).length = k := by
  rw [getBytes, List.length_map, List.length_range]

end Bytes

end Xv6
