import Mathlib.Algebra.GroupWithZero.Nat
import Mathlib.Logic.Function.Basic
import Mathlib.Tactic.Push
import Mathlib.Tactic.SplitIfs

/-!
# Moving memory

`memmove` of kernel/string.c and `memmove` of user/ulib.c. Both have a loop that copies upwards and one that
copies downwards, and they choose between them by different tests : the kernel copies downwards only if the
destination begins inside the source, the library whenever the source is not above the destination. The
length is a `uint` in the kernel and an `int` in the library, where a negative one moves nothing.

`Moved` says what a move is for : the destination has the bytes the source had before, and no other byte is
changed. A loop does that if it stores over no byte of the source that it has still to load
(`copyUp_moved`, `copyDown_moved`); the tests of both functions see to it (`memmove_moves`).
-/

namespace Xv6

/-- The bytes of an address space. -/
abbrev Memory := BitVec 64 → UInt8

/-- `while(n-- > 0) *d++ = *s++`. -/
def copyUp : ℕ → BitVec 64 → BitVec 64 → Memory → Memory
  | 0, _, _, m => m
  | n + 1, d, s, m => copyUp n (d + 1) (s + 1) (Function.update m d (m s))

/-- `while(n-- > 0) *--d = *--s`. -/
def copyDown : ℕ → BitVec 64 → BitVec 64 → Memory → Memory
  | 0, _, _, m => m
  | n + 1, d, s, m => copyDown n (d - 1) (s - 1) (Function.update m (d - 1) (m (s - 1)))

/-- `memmove` of the kernel, with the pointer it returns. -/
def Kernel.memmove (dst src : BitVec 64) (n : BitVec 32) (m : Memory) : BitVec 64 × Memory :=
  if n = 0 then (dst, m)
  else if src < dst ∧ dst < src + n.setWidth 64 then
    (dst, copyDown n.toNat (dst + n.setWidth 64) (src + n.setWidth 64) m)
  else (dst, copyUp n.toNat dst src m)

/-- `memmove` of the user library, with the pointer it returns. -/
def Ulib.memmove (vdst vsrc : BitVec 64) (n : BitVec 32) (m : Memory) : BitVec 64 × Memory :=
  if vdst < vsrc then (vdst, copyUp n.toInt.toNat vdst vsrc m)
  else (vdst, copyDown n.toInt.toNat (vdst + n.signExtend 64) (vsrc + n.signExtend 64) m)

/-- The `n` bytes at `dst` are now those that were at `src`, and nothing else is changed. -/
structure Moved (dst src : BitVec 64) (n : ℕ) (m m' : Memory) : Prop where
  moved : ∀ i < n, m' (dst + BitVec.ofNat 64 i) = m (src + BitVec.ofNat 64 i)
  frame : ∀ a, (∀ i < n, a ≠ dst + BitVec.ofNat 64 i) → m' a = m a

variable {dst src : BitVec 64} {n : ℕ} {m m' m₁ m₂ : Memory}

theorem Moved.refl : Moved dst src 0 m m :=
  ⟨fun _ hi => absurd hi (Nat.not_lt_zero _), fun _ _ => rfl⟩

/-- There is one way to move. -/
theorem Moved.unique (h₁ : Moved dst src n m m₁) (h₂ : Moved dst src n m m₂) : m₁ = m₂ := by
  funext a
  by_cases ha : ∀ i < n, a ≠ dst + BitVec.ofNat 64 i
  · rw [h₁.frame a ha, h₂.frame a ha]
  · push Not at ha
    obtain ⟨i, hi, rfl⟩ := ha
    rw [h₁.moved i hi, h₂.moved i hi]

/-! ## The two loops -/

theorem add_one_add_ofNat (a : BitVec 64) (i : ℕ) :
    a + 1 + BitVec.ofNat 64 i = a + BitVec.ofNat 64 (i + 1) := by
  rw [BitVec.add_assoc, Nat.add_comm i 1, BitVec.ofNat_add]
  rfl

theorem add_ofNat_inj {a : BitVec 64} {i j : ℕ} (hi : i < 2 ^ 64) (hj : j < 2 ^ 64)
    (h : a + BitVec.ofNat 64 i = a + BitVec.ofNat 64 j) : i = j := by
  have heq := congrArg BitVec.toNat (BitVec.add_right_inj _ |>.mp h)
  rwa [BitVec.toNat_ofNat, BitVec.toNat_ofNat, Nat.mod_eq_of_lt hi, Nat.mod_eq_of_lt hj] at heq

/-- Upwards : no byte is stored over before it is loaded. -/
theorem copyUp_moved (hn : n ≤ 2 ^ 64)
    (h : ∀ i j, j < i → i < n → src + BitVec.ofNat 64 i ≠ dst + BitVec.ofNat 64 j) :
    Moved dst src n m (copyUp n dst src m) := by
  induction n generalizing dst src m with
  | zero => exact .refl
  | succ n ih =>
    have hrest := @ih (dst + 1) (src + 1) (Function.update m dst (m src)) (by omega) fun i j hji hi => by
      rw [add_one_add_ofNat, add_one_add_ofNat]
      exact h (i + 1) (j + 1) (by omega) (by omega)
    refine ⟨fun i hi => ?_, fun a ha => ?_⟩
    · cases i with
      | zero =>
        -- the rest of the loop stores above the first byte
        rw [BitVec.add_zero, BitVec.add_zero, copyUp, hrest.frame dst fun i hi heq => ?_,
          Function.update_self]
        rw [add_one_add_ofNat] at heq
        have hzero := add_ofNat_inj (i := 0) (by omega) (by omega) ((BitVec.add_zero dst).trans heq)
        cases hzero
      | succ i =>
        have hload : src + BitVec.ofNat 64 (i + 1) ≠ dst := by
          have hne := h (i + 1) 0 (by omega) hi
          rwa [BitVec.add_zero] at hne
        rw [copyUp, ← add_one_add_ofNat, hrest.moved i (by omega), add_one_add_ofNat, Function.update_of_ne hload]
    · have hfirst : a ≠ dst := by
        have hne := ha 0 (by omega)
        rwa [BitVec.add_zero] at hne
      rw [copyUp, hrest.frame a fun i hi => ?_, Function.update_of_ne hfirst]
      rw [add_one_add_ofNat]
      exact ha (i + 1) (by omega)

theorem add_ofNat_succ_sub_one (a : BitVec 64) (i : ℕ) :
    a + BitVec.ofNat 64 (i + 1) - 1 = a + BitVec.ofNat 64 i := by
  rw [← add_one_add_ofNat]
  bv_omega

/-- Downwards, from the ends of the two ranges. -/
theorem copyDown_moved (hn : n ≤ 2 ^ 64)
    (h : ∀ i j, i < j → j < n → src + BitVec.ofNat 64 i ≠ dst + BitVec.ofNat 64 j) :
    Moved dst src n m (copyDown n (dst + BitVec.ofNat 64 n) (src + BitVec.ofNat 64 n) m) := by
  induction n generalizing m with
  | zero => exact .refl
  | succ n ih =>
    rw [copyDown, add_ofNat_succ_sub_one, add_ofNat_succ_sub_one]
    have hrest := @ih (Function.update m (dst + BitVec.ofNat 64 n) (m (src + BitVec.ofNat 64 n))) (by omega)
      fun i j hij hj => h i j hij (by omega)
    refine ⟨fun i hi => ?_, fun a ha => ?_⟩
    · obtain hlt | rfl := Nat.lt_succ_iff_lt_or_eq.mp hi
      · rw [hrest.moved i hlt, Function.update_of_ne (h i n hlt (Nat.lt_succ_self n))]
      · rw [hrest.frame _ fun j hj heq => ?_, Function.update_self]
        have hij := add_ofNat_inj (by omega) (by omega) heq
        omega
    · rw [hrest.frame a fun i hi => ha i (by omega), Function.update_of_ne (ha n (Nat.lt_succ_self n))]

/-! ## The two functions -/

/-- Neither range goes past the last address. -/
def NoWrap (dst src : BitVec 64) (n : ℕ) : Prop :=
  dst.toNat + n ≤ 2 ^ 64 ∧ src.toNat + n ≤ 2 ^ 64

theorem NoWrap.toNat_dst (h : NoWrap dst src n) {i : ℕ} (hi : i < n) :
    (dst + BitVec.ofNat 64 i).toNat = dst.toNat + i := by
  have hdst := h.1
  rw [BitVec.toNat_add, BitVec.toNat_ofNat, Nat.mod_eq_of_lt (by omega : i < 2 ^ 64), Nat.mod_eq_of_lt (by omega)]

theorem NoWrap.toNat_src (h : NoWrap dst src n) {i : ℕ} (hi : i < n) :
    (src + BitVec.ofNat 64 i).toNat = src.toNat + i :=
  NoWrap.toNat_dst ⟨h.2, h.1⟩ hi

/-- Upwards is right if the destination does not begin inside the source, after its first byte. -/
theorem NoWrap.copyUp (h : NoWrap dst src n) (hdir : dst ≤ src ∨ src.toNat + n ≤ dst.toNat) :
    Moved dst src n m (copyUp n dst src m) := by
  refine copyUp_moved (by have := h.1; omega) fun i j hji hi heq => ?_
  have haddr := congrArg BitVec.toNat heq
  rw [h.toNat_src hi, h.toNat_dst (by omega)] at haddr
  obtain hle | hle := hdir
  · have := BitVec.le_def.mp hle
    omega
  · omega

/-- Downwards is right if the destination does not begin below the source. -/
theorem NoWrap.copyDown (h : NoWrap dst src n) (hdir : src ≤ dst) :
    Moved dst src n m (copyDown n (dst + BitVec.ofNat 64 n) (src + BitVec.ofNat 64 n) m) := by
  refine copyDown_moved (by have := h.1; omega) fun i j hij hj heq => ?_
  have haddr := congrArg BitVec.toNat heq
  rw [h.toNat_src (by omega), h.toNat_dst hj] at haddr
  have := BitVec.le_def.mp hdir
  omega

theorem Kernel.memmove_moved {n : BitVec 32} (h : NoWrap dst src n.toNat) :
    Moved dst src n.toNat m (Kernel.memmove dst src n m).2 := by
  have hwide : n.setWidth 64 = BitVec.ofNat 64 n.toNat := by rw [BitVec.ofNat_toNat]
  unfold Kernel.memmove
  split_ifs with hzero hdir
  · rw [hzero]
    exact .refl
  · rw [hwide]
    exact h.copyDown (BitVec.le_of_lt hdir.1)
  · refine h.copyUp ?_
    by_contra hcon
    obtain ⟨hnle, hin⟩ := not_or.mp hcon
    have hlt := BitVec.not_le.mp hnle
    refine hdir ⟨hlt, BitVec.lt_def.mpr ?_⟩
    -- the source ends below the end of the destination, so its end does not wrap
    have hpos := BitVec.lt_def.mp hlt
    have hend := h.1
    have hnlt : n.toNat < 2 ^ 32 := n.isLt
    rw [hwide, BitVec.toNat_add, BitVec.toNat_ofNat, Nat.mod_eq_of_lt (by omega : n.toNat < 2 ^ 64),
      Nat.mod_eq_of_lt (by omega)]
    exact Nat.not_le.mp hin

theorem Ulib.memmove_moved {n : BitVec 32} (h : NoWrap dst src n.toInt.toNat) :
    Moved dst src n.toInt.toNat m (Ulib.memmove dst src n m).2 := by
  unfold Ulib.memmove
  split_ifs with hdir
  · exact h.copyUp (.inl (BitVec.le_of_lt hdir))
  · by_cases hneg : n.toInt < 0
    · rw [Int.toNat_of_nonpos (by omega)]
      exact .refl
    · have hwide : n.signExtend 64 = BitVec.ofNat 64 n.toInt.toNat := by
        rw [BitVec.signExtend, ← BitVec.ofInt_natCast, Int.toNat_of_nonneg (by omega)]
      rw [hwide]
      exact h.copyDown (BitVec.not_lt.mp hdir)

/-- Both functions move their bytes whatever the overlap, hence they do the same. -/
theorem memmove_moves (m : Memory) (dst src : BitVec 64) {n k : BitVec 32} (hn : NoWrap dst src n.toNat)
    (hk : NoWrap dst src k.toInt.toNat) :
    Moved dst src n.toNat m (Kernel.memmove dst src n m).2 ∧
      Moved dst src k.toInt.toNat m (Ulib.memmove dst src k m).2 ∧
      (k.toInt = n.toNat → Kernel.memmove dst src n m = Ulib.memmove dst src k m) := by
  have hkernel : Moved dst src n.toNat m (Kernel.memmove dst src n m).2 := Kernel.memmove_moved hn
  have hulib : Moved dst src k.toInt.toNat m (Ulib.memmove dst src k m).2 := Ulib.memmove_moved hk
  refine ⟨hkernel, hulib, fun heq => Prod.ext ?_ ?_⟩
  · unfold Kernel.memmove Ulib.memmove
    split_ifs <;> rfl
  · rw [heq, Int.toNat_natCast] at hulib
    exact hkernel.unique hulib

/-- Three bytes one place up, over themselves. -/
theorem memmove_moves_overlap : NoWrap 1 0 3 ∧
    Moved 1 0 3 (fun a => a.toNat.toUInt8) (Kernel.memmove 1 0 3 fun a => a.toNat.toUInt8).2 :=
  ⟨⟨by decide, by decide⟩,
    (memmove_moves (fun a => a.toNat.toUInt8) 1 0 (n := 3) (k := 3) ⟨by decide, by decide⟩ ⟨by decide, by decide⟩).1⟩

end Xv6
