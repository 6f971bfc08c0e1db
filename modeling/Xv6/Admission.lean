import Xv6.LogRun

/-!
# Admission to the log

begin_op lets an operation in if the log has room for MAXOPBLOCKS blocks of each operation under way
and of this one. If no operation logs more, a block that is not in the log yet always finds
room (`Admits`) : what is left of the reservations covers it. But log_write tests for room before it looks
whether the block is in the log already, so that a block logged again when the log is exactly full
makes it panic (`logged_again_when_full`).
-/

set_option linter.unusedSectionVars false

namespace Xv6

variable {P : Type*} [DecidableEq P] {start : ℕ} {d₀ : ℕ → Block} {s s' : LogSys P}
  {h h' : LogHist P} {p q : P} {i : BufId} {b : ℕ} {d : Block}

/-! ## What is left of the reservations -/

/-- The blocks that the operations `active` may still log. -/
def reserve (op : P → List ℕ) (active : List P) : ℕ :=
  (active.map fun p => MAXOPBLOCKS - (op p).length).sum

section Reserve

variable {op op' : P → List ℕ} {active : List P}

theorem reserve_cons (op : P → List ℕ) (p : P) (active : List P) :
    reserve op (p :: active) = MAXOPBLOCKS - (op p).length + reserve op active := by
  simp [reserve]

theorem reserve_congr (hop : ∀ q ∈ active, op' q = op q) : reserve op' active = reserve op active := by
  unfold reserve
  rw [List.map_congr_left fun q hq => by rw [hop q hq]]

theorem reserve_erase (op : P → List ℕ) (hp : p ∈ active) :
    reserve op active = MAXOPBLOCKS - (op p).length + reserve op (active.erase p) := by
  rw [← reserve_cons]
  exact ((List.perm_cons_erase hp).map _).sum_nat

theorem reserve_le (op : P → List ℕ) (active : List P) :
    reserve op active ≤ active.length * MAXOPBLOCKS := by
  induction active with
  | nil => exact Nat.zero_le _
  | cons p active ih =>
    rw [reserve_cons, List.length_cons, Nat.succ_mul]
    omega

end Reserve

/-- What is in the log and what is left of the reservations fit into it. -/
structure Admits (s : LogSys P) (h : LogHist P) : Prop where
  fits : s.lh.length + reserve h.op h.active ≤ LOGBLOCKS
  op : ∀ p ∈ h.active, h.op p ⊆ s.lh ∧ (h.op p).length ≤ MAXOPBLOCKS
  panic : s.panic ≠ some .tooBig

/-! ## Every step keeps the reservations -/

theorem ne_tooBig {e e' : Option LogPanic}
    (he : e' = e ∨ e' = some .noBuffers ∨ e' = some .bwrite ∨ e' = some .brelse)
    (hne : e ≠ some .tooBig) : e' ≠ some .tooBig := by
  rcases he with rfl | rfl | rfl | rfl
  · exact hne
  all_goals simp

/-- A step that leaves the log and the operations as they are. -/
theorem Admits.of_eq (hA : Admits s h) (hlh : s'.lh = s.lh) (hop : h'.op = h.op)
    (hactive : h'.active = h.active) (hpanic : s'.panic ≠ some .tooBig) : Admits s' h' := by
  refine ⟨?_, fun p hp => ?_, hpanic⟩
  · rw [hlh, hop, hactive]
    exact hA.fits
  · rw [hlh, hop]
    exact hA.op p (hactive ▸ hp)

/-- Without operations under way, nothing is reserved. -/
theorem Admits.of_idle (hI : LogInv start d₀ s h) (hactive : h.active = [])
    (hpanic : s.panic ≠ some .tooBig) : Admits s h := by
  refine ⟨?_, fun p hp => ?_, hpanic⟩
  · rw [hactive]
    exact hI.lh.length
  · rw [hactive] at hp
    cases hp

theorem Admits.beginOp (hA : Admits s h) (hI : LogInv start d₀ s h)
    (hp : s.pc p = .out ∨ s.pc p = .wakes) : Admits (s.beginOp p) (h.upd s (.beginOp p)) := by
  dsimp only [LogSys.beginOp, LogHist.upd]
  split_ifs with hfull
  · exact hA.of_eq rfl rfl rfl hA.panic
  · have hmem : p ∉ h.active := by
      rw [hI.mem]
      obtain hp | hp := hp <;> simp [hp]
    have hop : ∀ q ∈ h.active, Function.update h.op p [] q = h.op q := fun q hq =>
      Function.update_of_ne (by rintro rfl; exact hmem hq) _ _
    refine ⟨?_, fun q hq => ?_, hA.panic⟩
    · have hle := reserve_le h.op h.active
      rw [← hI.outstanding] at hle
      rw [not_or, Nat.succ_mul] at hfull
      dsimp only [LogSys.goto]
      rw [reserve_cons, reserve_congr hop, Function.update_self, List.length_nil]
      omega
    · obtain rfl | hq := List.mem_cons.mp hq
      · simp
      · dsimp only
        rw [hop q hq]
        exact hA.op q hq

theorem Admits.endOp (hA : Admits s h) (hI : LogInv start d₀ s h) (hp : s.pc p = .inOp) :
    Admits (s.endOp p) (h.upd s (.endOp p)) := by
  have hcom := (hI.inOp hp).2.1
  have hlh : (s.endOp p).lh = s.lh := by
    simp only [LogSys.endOp, hcom]
    split_ifs <;> rfl
  have hpanic : (s.endOp p).panic = s.panic := by
    simp only [LogSys.endOp, hcom]
    split_ifs <;> first | rfl | contradiction
  refine ⟨?_, fun q hq => ?_, hpanic ▸ hA.panic⟩
  · have hfits := hA.fits
    rw [reserve_erase h.op ((hI.mem p).mpr hp)] at hfits
    rw [hlh]
    dsimp only [LogHist.upd]
    omega
  · rw [hlh]
    exact hA.op q (List.mem_of_mem_erase hq)

/-- A new block finds room, and a block that is logged again needs none. -/
theorem Admits.logWrite (hA : Admits s h) (hI : LogInv start d₀ s h) (hp : s.pc p = .inOp)
    (hb : (s.bufs.buf i).blockno = some b) (hin : (h.logged p b).length ≤ MAXOPBLOCKS)
    (hroom : b ∈ s.lh → s.lh.length < LOGBLOCKS) :
    Admits (s.logWrite i b d) (h.upd s (.logWrite p i d)) := by
  have hpos := (hI.inOp hp).2.2
  have hmem := (hI.mem p).mpr hp
  obtain ⟨hsub, hlen⟩ := hA.op p hmem
  have hfits := hA.fits
  rw [reserve_erase h.op hmem] at hfits
  have hnew : b ∉ s.lh → (h.logged p b).length = (h.op p).length + 1 := fun hb' => by
    rw [LogHist.logged, if_neg fun hop => hb' (hsub hop), List.length_cons]
  have hroom' : s.lh.length < LOGBLOCKS := by
    by_cases hold : b ∈ s.lh
    · exact hroom hold
    · have := hnew hold
      omega
  have hboth : ¬ (s.lh.length ≥ LOGBLOCKS ∨ s.outstanding < 1) := by omega
  have hothers : ∀ q ∈ h.active.erase p, Function.update h.op p (h.logged p b) q = h.op q := fun q hq =>
    Function.update_of_ne (by rintro rfl; exact (hI.nodup.mem_erase_iff.mp hq).1 rfl) _ _
  have hlh : (s.logWrite i b d).lh = if b ∈ s.lh then s.lh else s.lh ++ [b] := by
    rw [LogSys.logWrite, if_neg (by omega), if_neg (by omega)]
    dsimp only
    split_ifs <;> rfl
  have hupd : (h.upd s (.logWrite p i d)).op = Function.update h.op p (h.logged p b) ∧
      (h.upd s (.logWrite p i d)).active = h.active := by
    simp only [LogHist.upd, hb, if_neg hboth, and_self]
  refine ⟨?_, fun q hq => ?_, ?_⟩
  · rw [hlh, hupd.1, hupd.2, reserve_erase _ hmem, reserve_congr hothers, Function.update_self]
    split_ifs with hold
    · have hle : (h.op p).length ≤ (h.logged p b).length := by
        rw [LogHist.logged]
        split_ifs <;> simp
      omega
    · have := hnew hold
      rw [List.length_append, List.length_singleton]
      omega
  · rw [hlh, hupd.1]
    rw [hupd.2] at hq
    have hgrows : s.lh ⊆ if b ∈ s.lh then s.lh else s.lh ++ [b] := by
      split_ifs
      · exact List.Subset.refl _
      · exact List.subset_append_left _ _
    by_cases hqp : q = p
    · subst hqp
      rw [Function.update_self]
      refine ⟨fun b' hb' => ?_, hin⟩
      have hb'' : b' = b ∨ b' ∈ h.op q := by
        rw [LogHist.logged] at hb'
        split_ifs at hb'
        · exact Or.inr hb'
        · exact List.mem_cons.mp hb'
      obtain rfl | hb'' := hb''
      · split_ifs with hold
        · exact hold
        · exact List.mem_append_right _ List.mem_cons_self
      · exact hgrows (hsub hb'')
    · rw [Function.update_of_ne hqp]
      exact ⟨List.Subset.trans (hA.op q hq).1 hgrows, (hA.op q hq).2⟩
  · rw [LogSys.logWrite, if_neg (by omega), if_neg (by omega)]
    dsimp only
    split_ifs <;> exact hA.panic

theorem Admits.run (hA : Admits s h) (hI : LogInv start d₀ s h) (hs : s.run start p = some s') :
    Admits s' (h.upd s (.run p)) := by
  have hran := LogSys.ran hs
  refine .of_idle (hI.run hs) ?_ (ne_tooBig hran.panic hA.panic)
  rw [LogHist.upd_run_active, (hI.mode hran.busy).1]

theorem Admits.stepUp {a : LogAct P} (hA : Admits s h) (hI : LogInv start d₀ s h)
    (hin : within (s, h) a = true) (hroom : roomy s a = true) (hs : s.stepUp start a = some s') :
    Admits s' (h.upd s a) := by
  cases a with
  | beginOp p =>
    obtain ⟨hp, rfl⟩ := of_guard hs
    exact hA.beginOp hI hp
  | bread p b =>
    obtain ⟨-, rfl⟩ := of_guard hs
    have hran := LogSys.bget_local s p b fun _ => s.pc p
    exact hA.of_eq hran.lh rfl rfl (ne_tooBig hran.panic hA.panic)
  | acquire p i =>
    simp only [LogSys.stepUp, Option.ite_none_right_eq_some] at hs
    have hran := LogSys.acquire_local hs.2
    exact hA.of_eq hran.lh rfl rfl (ne_tooBig hran.panic hA.panic)
  | logWrite p i d =>
    simp only [LogSys.stepUp] at hs
    cases hb : (s.bufs.buf i).blockno with
    | none => simp [hb] at hs
    | some b =>
      simp only [hb] at hs
      obtain ⟨⟨hp, -⟩, rfl⟩ := of_guard hs
      simp only [within, roomy, hb, Option.all_some, decide_eq_true_eq] at hin hroom
      exact hA.logWrite hI hp hb hin hroom
  | release p i =>
    obtain ⟨-, rfl⟩ := of_guard hs
    have hran := LogSys.releasesleep_local s p i (s.pc p)
    exact hA.of_eq hran.lh rfl rfl (ne_tooBig hran.panic hA.panic)
  | put p i =>
    obtain ⟨-, rfl⟩ := of_guard hs
    exact hA.of_eq rfl rfl rfl hA.panic
  | endOp p =>
    obtain ⟨⟨hp, -⟩, rfl⟩ := of_guard hs
    exact hA.endOp hI hp
  | run p => exact hA.run hI hs
  | crash | boot => cases hs

theorem Admits.step {a : LogAct P} (hA : Admits s h) (hI : LogInv start d₀ s h)
    (hin : within (s, h) a = true) (hroom : roomy s a = true) (hs : s.step start a = some s') :
    Admits s' (h.upd s a) := by
  have hI' := hI.step hs
  unfold LogSys.step at hs
  split at hs
  · cases hs
    exact .of_idle hI' rfl fun hp => by cases hp
  · rename_i hoff
    cases hs
    exact hA.of_eq rfl rfl rfl hA.panic
  · exact hA.run hI hs
  · exact hA.stepUp hI hin hroom hs
  · cases hs

/-! ## The result -/

/-- If no operation logs more than MAXOPBLOCKS blocks, and no block is logged again when the log is full,
log_write never finds a transaction too big. -/
theorem log_write_finds_room {x : LogSys P × LogHist P}
    (hr : (logObserved P start d₀).ReachWhen (fun x a => within x a = true ∧ roomy x.1 a = true) x) :
    x.1.panic ≠ some .tooBig := by
  suffices hA : Admits x.1 x.2 from hA.panic
  refine hr.invariant (I := fun x => Admits x.1 x.2) ?_ ?_
  · rintro ⟨s, h⟩ ⟨⟨rfl, -⟩, rfl⟩
    exact ⟨Nat.zero_le _, by simp [LogHist.start], by simp [LogSys.off]⟩
  · rintro ⟨s, h⟩ a ⟨s', h'⟩ hr hA ⟨hin, hroom⟩ hs
    obtain ⟨hs, rfl⟩ := Machine.observe_step.mp hs
    exact hA.step (.of_reachable (hr.mono fun _ _ _ => trivial)) hin hroom hs

/-- A commit() of one block. -/
theorem log_write_finds_room_one : ∃ x,
    (logObserved (Fin 1) 2 zeroDisk).ReachWhen (fun x a => within x a = true ∧ roomy x.1 a = true) x ∧
    x.1.lh = [100] ∧ x.1.panic ≠ some .tooBig := by
  obtain ⟨x, hr, hx⟩ := one_block
  exact ⟨x, hr, hx.1, log_write_finds_room hr⟩

/-- The log is full, with the 10 blocks of each operation, and one of them logs one of its blocks
again. -/
theorem logged_again_when_full : ∃ x,
    (logObserved (Fin 3) 2 zeroDisk).ReachWhen (fun x a => within x a = true) x ∧
    x.1.panic = some .tooBig := by
  obtain ⟨x, hr, hx, -⟩ := full_log
  obtain ⟨y, hexec, hy⟩ := Option.any_eq_true _ _ |>.mp hx
  exact ⟨y, hr.exec hexec, by simpa using hy⟩

end Xv6
