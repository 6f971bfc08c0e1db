import Xv6.GroupCommit

/-!
# Crash atomicity

The home blocks hold, at any time, the transactions that are done, and possibly some of the writes of
the one whose header has been written (`DiskInv.home`). A crash keeps this, and so
does a crash of the recovery from it; when recovery completes, the home blocks hold exactly the
transactions that were done before the first crash and the one whose header had been
written (`crash_atomic`).
-/

namespace Xv6

variable {P : Type*} [DecidableEq P] {start : ℕ} {d₀ disk : ℕ → Block} {s s' : LogSys P}
  {h : LogHist P} {p : P} {b : ℕ}

theorem DiskInv.home {txs : List Tx} {last : Option Tx} (hd : DiskInv start d₀ disk txs last)
    (hb : LogSys.home start b) :
    disk b = replay d₀ txs b ∨ disk b = replay d₀ (txs ++ last.toList) b := by
  cases last with
  | none => exact Or.inl (Clean.home hd b hb)
  | some t =>
    rw [Option.toList_some, replay_concat]
    obtain ⟨hwf, ⟨k, hS⟩ | hc⟩ := hd
    · rw [hS.home b hb]
      exact overlay_take hwf.nodup k b
    · right
      rw [← replay_concat]
      exact hc.home b hb

/-- The machine is recovering, or has recovered, and the transactions on its disk are `txs`. -/
structure Recovering (txs : List Tx) (s : LogSys P) (h : LogHist P) : Prop where
  pc : ∀ p, (s.pc p).commits = false
  txs : h.done ++ h.last.toList = txs

variable {txs : List Tx}

theorem Recovering.run (hR : Recovering txs s h) (hI : LogInv start d₀ s h)
    (hs : s.run start p = some s') : Recovering txs s' (h.upd s (.run p)) := by
  have hran := LogSys.ran hs
  have hrec : (s.pc p).recovers = true := by
    have := hR.pc p
    simpa [OpPc.commits, hran.busy] using this
  have hcom : s.committing = false := by
    have hmode := (hI.mode hran.busy).2
    rw [if_pos hrec] at hmode
    exact hmode.2
  refine ⟨fun q => ?_, ?_⟩
  · by_contra hq
    have hq' : (s'.pc q).busy = true ∧ (s'.pc q).recovers = false := by
      simpa [OpPc.commits] using hq
    have := hran.committing ((hI.run hs).commits q hq'.1 hq'.2)
    simp [hcom] at this
  · have htxs := hR.txs
    dsimp only [LogHist.upd]
    split
    · exact htxs
    · rename_i hpc
      rw [hpc] at hrec
      cases hrec
    · simpa using htxs
    · exact htxs

theorem Recovering.step {a : LogAct P} (hR : Recovering txs s h) (hI : LogInv start d₀ s h)
    (ha : a.recovery = true) (hs : s.step start a = some s') : Recovering txs s' (h.upd s a) := by
  unfold LogSys.step at hs
  split at hs
  · cases hs
    exact ⟨fun _ => rfl, hR.txs⟩
  · rename_i p _
    cases hs
    refine ⟨fun q => ?_, hR.txs⟩
    dsimp only [LogSys.goto]
    rw [Function.update_apply]
    split_ifs
    · rfl
    · exact hR.pc q
  · exact hR.run hI hs
  · rename_i a _ _ _ _ _ _
    cases a with
    | run p => exact hR.run hI hs
    | crash | boot => cases hs
    | _ => cases ha
  · cases hs

/-- Recovery has completed. -/
theorem Recovering.recovered (hR : Recovering txs s h) (hI : LogInv start d₀ s h) (hup : s.phase = .up) :
    h.done = txs ∧ ∀ b, LogSys.home start b → s.disk b = replay d₀ txs b := by
  have hcom : s.committing = false := by
    by_contra hc
    obtain ⟨p, hp⟩ := hI.someone (Or.inr (by simpa using hc))
    have hmode := (hI.mode hp).2
    rw [if_pos (by have := hR.pc p; simpa [OpPc.commits, hp] using this)] at hmode
    simp [hup] at hmode
  have hg := hI.idle hup hcom
  have hdone : h.done = txs := by
    have htxs := hR.txs
    rwa [hg.last, Option.toList_none, List.append_nil] at htxs
  exact ⟨hdone, fun b hb => hdone ▸ hg.clean.home b hb⟩

/-- No write reaches its home block before its transaction is committed, and after a crash and any number of
crashes of the recovery the disk holds the transactions whose commit() had returned and at most
one more. -/
theorem crash_atomic {x : LogSys P × LogHist P} (hr : (logObserved P start d₀).Reachable x) :
    (∀ b, LogSys.home start b → x.1.disk b = replay d₀ x.2.done b ∨
      x.1.disk b = replay d₀ (x.2.done ++ x.2.last.toList) b) ∧
    ∀ x' y, (logObserved P start d₀).step x .crash = some x' →
      (recoveryMachine P start d₀).Leads x' y → y.1.phase = .up →
      y.2.done = x.2.done ++ x.2.last.toList ∧
      ∀ b, LogSys.home start b → y.1.disk b = replay d₀ y.2.done b := by
  have hI := LogInv.of_reachable hr
  refine ⟨fun b hb => hI.disk.home hb, fun x' y hcrash hl hup => ?_⟩
  obtain ⟨hstep, hh⟩ := Machine.observe_step.mp hcrash
  have hinv := hl.invariant (I := fun y => LogInv start d₀ y.1 y.2 ∧
      Recovering (x.2.done ++ x.2.last.toList) y.1 y.2) ?_ ?_
  · obtain ⟨hdone, hhome⟩ := hinv.2.recovered hinv.1 hup
    exact ⟨hdone, hdone ▸ hhome⟩
  · rintro ⟨s, h⟩ a ⟨s', h'⟩ ⟨hI, hR⟩ hs
    obtain ⟨ha, hs⟩ := Machine.guarded_step.mp hs
    obtain ⟨hs, rfl⟩ := Machine.observe_step.mp hs
    exact ⟨hI.step hs, hR.step hI ha hs⟩
  · refine ⟨hh ▸ hI.step hstep, ?_⟩
    obtain ⟨s', h'⟩ := x'
    obtain rfl : LogSys.off x.1.disk = s' := Option.some.inj hstep
    obtain rfl : h' = _ := hh
    exact ⟨fun _ => rfl, rfl⟩

/-- A crash just after the header of a transaction has been written. -/
theorem crash_atomic_header : ∃ x x' y, (logObserved (Fin 1) 2 zeroDisk).Reachable x ∧
    x.2.last.isSome = true ∧ (logObserved (Fin 1) 2 zeroDisk).step x .crash = some x' ∧
    (recoveryMachine (Fin 1) 2 zeroDisk).Leads x' y ∧
    y.2.done = x.2.done ++ x.2.last.toList := by
  obtain ⟨w, hr, -, -, -, -, hw⟩ := one_block
  obtain ⟨x, hexec, hx⟩ := Option.any_eq_true _ _ |>.mp hw
  rw [Bool.and_eq_true] at hx
  obtain ⟨y, hrun, hup⟩ := Option.any_eq_true _ _ |>.mp hx.2
  have hr' : (logObserved (Fin 1) 2 zeroDisk).Reachable x :=
    Machine.Reachable.leads (hr.mono fun _ _ _ => trivial) (Machine.leads_of_exec hexec)
  obtain ⟨x', hcrash, hl⟩ := recoverRun_leads hrun
  exact ⟨x, x', y, hr', hx.1, hcrash, hl,
    ((crash_atomic hr').2 x' y hcrash hl (by simpa using hup)).1⟩

end Xv6
