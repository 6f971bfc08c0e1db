import Mathlib.Data.List.Basic
import Mathlib.Data.Nat.ModEq
import Mathlib.Logic.Function.Basic

/-!
# Ring buffers with free-running counters

A ring of `N` cells with two counters of `w` bits that are never reduced modulo `N` : a put
stores at `wr % N` and increments `wr`, a take loads from `rd % N` and increments `rd`. The
counters wrap modulo `2 ^ w`, and a ring is used with `N` a divisor of `2 ^ w`, so the cell
of a counter is the cell of the number of puts or takes it counts.

`Ring.Holds data rd wr put r` says that the ring holds the elements `put` of a whole run,
of which the first `r` have been taken. The tests for a full and an empty ring are exact
(`Ring.Holds.full_iff`, `Ring.Holds.empty_iff`), and put and take keep `Holds`
(`Ring.Holds.put_elem`, `Ring.Holds.take`).
-/

namespace Xv6

namespace Ring

variable {α : Type*} {w N : ℕ} [NeZero N]

/-- The cell of a counter. -/
def cell (N : ℕ) [NeZero N] (c : BitVec w) : Fin N :=
  Fin.ofNat N c.toNat

theorem cell_ofNat (hN : N ∣ 2 ^ w) (n : ℕ) :
    cell N (BitVec.ofNat w n) = Fin.ofNat N n := by
  apply Fin.ext
  simp only [cell, Fin.ofNat, BitVec.toNat_ofNat]
  exact Nat.mod_mod_of_dvd n hN

/-- The elements of `put` were put, the first `r` of them taken, and the ring holds the
rest. -/
structure Holds (data : Fin N → α) (rd wr : BitVec w) (put : List α) (r : ℕ) : Prop where
  rd : rd = BitVec.ofNat w r
  wr : wr = BitVec.ofNat w put.length
  le : r ≤ put.length
  cap : put.length ≤ r + N
  get : ∀ j (hj : j < put.length), r ≤ j → data (Fin.ofNat N j) = put[j]

theorem ofNat_inj_of_lt {a b : ℕ} (hab : a ≤ b) (hlt : b < a + 2 ^ w)
    (h : BitVec.ofNat w a = BitVec.ofNat w b) : a = b := by
  have h1 : a % 2 ^ w = b % 2 ^ w := by simpa using congrArg BitVec.toNat h
  have h2 : (b - a) % 2 ^ w = 0 := Nat.sub_mod_eq_zero_of_mod_eq h1.symm
  have h3 : b - a = 0 := by
    rw [← h2]
    exact (Nat.mod_eq_of_lt (by omega)).symm
  omega

namespace Holds

variable {data : Fin N → α} {rd wr : BitVec w} {put : List α} {r : ℕ}

theorem empty (data : Fin N → α) : Holds data (0 : BitVec w) 0 [] 0 :=
  ⟨rfl, rfl, le_refl _, Nat.zero_le _, fun _ hj _ => absurd hj (Nat.not_lt_zero _)⟩

/-- The counters are equal exactly when everything put was taken. -/
theorem empty_iff (h : Holds data rd wr put r) (hN : N < 2 ^ w) : rd = wr ↔ put.length = r := by
  have hle := h.le
  have hcap := h.cap
  rw [h.rd, h.wr]
  constructor
  · intro heq
    exact (ofNat_inj_of_lt hle (by omega) heq).symm
  · intro heq
    rw [heq]

/-- The counters are `N` apart exactly when no cell is free. -/
theorem full_iff (h : Holds data rd wr put r) (hN : N < 2 ^ w) :
    wr = rd + BitVec.ofNat w N ↔ put.length = r + N := by
  have hle := h.le
  have hcap := h.cap
  rw [h.rd, h.wr, ← BitVec.ofNat_add]
  constructor
  · intro heq
    exact ofNat_inj_of_lt hcap (by omega) heq
  · intro heq
    rw [heq]

/-- The difference of the counters is the number of elements held. -/
theorem count (h : Holds data rd wr put r) (hN : N < 2 ^ w) :
    (wr - rd).toNat = put.length - r := by
  have hle := h.le
  have hcap := h.cap
  have hsub : wr - rd = BitVec.ofNat w (put.length - r) := by
    rw [h.rd, h.wr]
    have : put.length = (put.length - r) + r := by omega
    conv_lhs => rw [this, BitVec.ofNat_add]
    rw [BitVec.add_sub_cancel]
  rw [hsub, BitVec.toNat_ofNat]
  exact Nat.mod_eq_of_lt (by omega)

/-- The cell of `wr` holds none of the elements, unless the ring is full. -/
theorem store (h : Holds data rd wr put r) (hN : N ∣ 2 ^ w) (hfree : put.length < r + N) (x : α) :
    Holds (Function.update data (cell N wr) x) rd wr put r := by
  refine ⟨h.rd, h.wr, h.le, h.cap, fun j hj hrj => ?_⟩
  have hne : Fin.ofNat N j ≠ Fin.ofNat N put.length := by
    intro heq
    have hmod : j % N = put.length % N := by simpa using congrArg Fin.val heq
    have hz : (put.length - j) % N = 0 := Nat.sub_mod_eq_zero_of_mod_eq hmod.symm
    have : put.length - j = 0 := by
      rw [← hz]
      exact (Nat.mod_eq_of_lt (by omega)).symm
    omega
  rw [h.wr, cell_ofNat hN, Function.update_of_ne hne, h.get j hj hrj]

/-- Incrementing `wr` puts the element that is in its cell. -/
theorem push (h : Holds data rd wr put r) (hN : N ∣ 2 ^ w) (hfree : put.length < r + N) :
    Holds data rd (wr + 1) (put ++ [data (cell N wr)]) r := by
  have hle := h.le
  refine ⟨h.rd, ?_, by simp; omega, by simp; omega, fun j hj hrj => ?_⟩
  · rw [h.wr, List.length_append, List.length_singleton, BitVec.ofNat_add]
    rfl
  · rcases Nat.lt_or_ge j put.length with hlt | hge
    · rw [h.get j hlt hrj, List.getElem_append_left hlt]
    · obtain rfl : j = put.length := by simp at hj; omega
      have hcell : cell N wr = Fin.ofNat N put.length := by rw [h.wr, cell_ofNat hN]
      simp [hcell]

/-- Storing at the cell of `wr` and incrementing `wr` puts the element. -/
theorem put_elem (h : Holds data rd wr put r) (hN : N ∣ 2 ^ w) (hfree : put.length < r + N)
    (x : α) : Holds (Function.update data (cell N wr) x) rd (wr + 1) (put ++ [x]) r := by
  have hpush := (h.store hN hfree x).push hN hfree
  rwa [Function.update_self] at hpush

/-- Decrementing `wr` takes the last element back. -/
theorem unput {x : α} (h : Holds data rd wr (put ++ [x]) r) (hr : r ≤ put.length) :
    Holds data rd (wr - 1) put r := by
  have hcap := h.cap
  rw [List.length_append, List.length_singleton] at hcap
  refine ⟨h.rd, ?_, hr, by omega, fun j hj hrj => ?_⟩
  · rw [h.wr, List.length_append, List.length_singleton, BitVec.ofNat_add]
    exact BitVec.add_sub_cancel _ _
  · have hj' : j < (put ++ [x]).length := by
      rw [List.length_append]
      omega
    rw [h.get j hj' hrj, List.getElem_append_left hj]

/-- The cell of `rd` holds the first element not yet taken. -/
theorem head (h : Holds data rd wr put r) (hN : N ∣ 2 ^ w) (hr : r < put.length) :
    data (cell N rd) = put[r] := by
  rw [h.rd, cell_ofNat hN]
  exact h.get r hr (le_refl _)

/-- Incrementing `rd` takes it. -/
theorem take (h : Holds data rd wr put r) (hr : r < put.length) :
    Holds data (rd + 1) wr put (r + 1) := by
  have hcap := h.cap
  refine ⟨?_, h.wr, hr, by omega, fun j hj hrj => h.get j hj (by omega)⟩
  rw [h.rd, BitVec.ofNat_add]
  rfl

end Holds

end Ring

end Xv6
