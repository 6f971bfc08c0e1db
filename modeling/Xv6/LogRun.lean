import Xv6.LogCommit

/-!
# The invariant of the log, in every run

The steps of the processes that are not in commit() or recover_from_log() keep the invariant
of the log, and so does a crash; hence it holds in every state that the machine reaches
(`LogInv.of_reachable`).
-/

set_option linter.unusedSectionVars false

namespace Xv6

open Function (update_self update_of_ne)

variable {P : Type*} [DecidableEq P] {start : ℕ} {d₀ : ℕ → Block} {s s' : LogSys P} {h : LogHist P}
  {p : P} {i : BufId} {b : ℕ} {d : Block}

/-! ## Buffers -/

theorem OpPc.not_busy_of_ordinary {pc : OpPc} (ho : pc.ordinary = true) : pc.busy = false := by
  cases pc <;> first | rfl | cases ho

theorem LogInv.bread (hI : LogInv start d₀ s h) (hup : s.phase = .up) (ho : (s.pc p).ordinary = true) :
    LogInv start d₀ (s.bget p b fun _ => s.pc p) h := by
  unfold LogSys.bget
  cases hg : s.bufs.bget p b with
  | none => exact hI.fail (Or.inl rfl)
  | some x =>
    have hinv := hI.of_cache hup (OpPc.not_busy_of_ordinary ho) (CacheStep.got hI (hI.bufs.got hg))
    simpa [LogSys.goto] using hinv

theorem LogInv.acquire (hI : LogInv start d₀ s h) (hup : s.phase = .up)
    (ho : (s.pc p).ordinary = true) (hs : s.acquire p i (s.pc p) = some s') :
    LogInv start d₀ s' h := by
  obtain ⟨c', ha, rfl⟩ := Option.map_eq_some_iff.mp hs
  have hinv := hI.of_cache hup (OpPc.not_busy_of_ordinary ho) (CacheStep.acquire hI ha)
  simpa [LogSys.goto] using hinv

theorem LogInv.release (hI : LogInv start d₀ s h) (hup : s.phase = .up)
    (ho : (s.pc p).ordinary = true) (hmem : ⟨p, i, .holds⟩ ∈ s.bufs.refs) :
    LogInv start d₀ (s.releasesleep p i (s.pc p)) h := by
  rw [LogSys.releasesleep, if_pos (hI.bufs.holding hmem)]
  have hinv := hI.of_cache hup (OpPc.not_busy_of_ordinary ho) (CacheStep.releasesleep hI hmem)
  simpa [LogSys.goto] using hinv

theorem LogInv.put (hI : LogInv start d₀ s h) (hup : s.phase = .up)
    (ho : (s.pc p).ordinary = true) (hmem : ⟨p, i, .released⟩ ∈ s.bufs.refs) :
    LogInv start d₀ (s.put p i (s.pc p)) h := by
  have hinv := hI.of_cache hup (OpPc.not_busy_of_ordinary ho) (CacheStep.put hI hmem)
  simpa [LogSys.put, LogSys.goto] using hinv

/-! ## Operations -/

/-- An operation is under way only while nobody commits. -/
theorem LogInv.inOp (hI : LogInv start d₀ s h) (hp : s.pc p = .inOp) :
    s.phase = .up ∧ s.committing = false ∧ 0 < s.outstanding := by
  have hmem := (hI.mem p).mpr hp
  refine ⟨?_, ?_, ?_⟩
  · by_contra hup
    simp [hI.up hup] at hmem
  · by_contra hc
    simp [(hI.committing (by simpa using hc)).2] at hmem
  · rw [hI.outstanding]
    exact List.length_pos_of_mem hmem

theorem LogInv.beginOp (hI : LogInv start d₀ s h) (hup : s.phase = .up)
    (hp : s.pc p = .out ∨ s.pc p = .wakes) :
    LogInv start d₀ (s.beginOp p) (h.upd s (.beginOp p)) := by
  have hpbusy : (s.pc p).busy = false := by obtain hp | hp := hp <;> rw [hp] <;> rfl
  have hpop : s.pc p ≠ .inOp := by obtain hp | hp := hp <;> simp [hp]
  dsimp only [LogSys.beginOp, LogHist.upd]
  split_ifs with hfull
  · -- it sleeps : only its place changes
    have hpcs : ∀ q, q ≠ p → (s.goto p .waits).pc q = s.pc q := fun q hq =>
      update_of_ne hq _ _
    have hpcp : (s.goto p .waits).pc p = .waits := update_self ..
    have hne : ∀ q, ((s.goto p .waits).pc q).busy = true → q ≠ p := by
      rintro q hq rfl
      rw [hpcp] at hq
      cases hq
    refine ⟨hI.disk, hI.bufs, hI.lh, hI.nodup, fun q => ?_, hI.outstanding, fun q r hq hr => ?_,
      fun q hq => ?_, fun q hq hr => ?_, hI.committing, hI.up, fun hoff => ?_, fun hsome => ?_,
      fun q hq => ?_, fun q hq => ?_, fun q hq => ?_, fun hup hc => (hI.idle hup hc).congr rfl rfl fun _ _ => id, hI.panic⟩
    · by_cases hq : q = p
      · subst hq
        rw [hI.mem, hpcp]
        simp [hpop]
      · rw [hpcs q hq, hI.mem]
    · have hq' := hne q hq
      have hr' := hne r hr
      rw [hpcs q hq'] at hq
      rw [hpcs r hr'] at hr
      exact hI.one q r hq hr
    · have hq' := hne q (OpPc.busy_of_recovers hq)
      exact hI.recovers q (by rwa [hpcs q hq'] at hq)
    · have hq' := hne q hq
      rw [hpcs q hq'] at hq hr
      exact hI.commits q hq hr
    · have hoff' : s.phase = .off := hoff
      simp [hup] at hoff'
    · obtain ⟨q, hq⟩ := hI.someone hsome
      have hqp : q ≠ p := by
        rintro rfl
        simp [hpbusy] at hq
      exact ⟨q, by rwa [hpcs q hqp]⟩
    all_goals have hq' := hne q hq; rw [hpcs q hq'] at hq ⊢
    · exact hI.owns q hq
    · exact hI.blocks q hq
    · exact (hI.busy q hq).congr rfl rfl fun _ _ => id
  · rw [not_or] at hfull
    have hcom : s.committing = false := by simpa using hfull.1
    have hg := hI.idle hup hcom
    have hpcs : ∀ q, ({ s with outstanding := s.outstanding + 1 }.goto p .inOp).pc q =
        if q = p then .inOp else s.pc q := fun q => Function.update_apply ..
    refine LogInv.of_idle (fun q => ?_) hup hcom ?_ (fun q => ?_) ?_ hI.lh
      ⟨hg.last, hg.clean, hg.places, hg.cache, hg.logged⟩ hI.panic
    · rw [hpcs]
      split_ifs
      · rfl
      · exact hI.not_busy hup hcom q
    · exact List.nodup_cons.mpr ⟨fun hmem => hpop ((hI.mem p).mp hmem), hI.nodup⟩
    · rw [hpcs, List.mem_cons, hI.mem]
      split_ifs with hq <;> simp [hq]
    · simp [LogSys.goto, hI.outstanding]

theorem LogInv.logWrite (hI : LogInv start d₀ s h) (hp : s.pc p = .inOp)
    (hb : (s.bufs.buf i).blockno = some b) (hmem : ⟨p, i, .holds⟩ ∈ s.bufs.refs)
    (hhome : LogSys.home start b) (hlt : b < 2 ^ 32) :
    LogInv start d₀ (s.logWrite i b d) (h.upd s (.logWrite p i d)) := by
  obtain ⟨hup, hcom, hpos⟩ := hI.inOp hp
  have hg := hI.idle hup hcom
  have hbusy := hI.not_busy hup hcom
  have hvalid := (hg.cache.held hmem hb).1
  simp only [LogSys.logWrite, LogHist.upd, hb]
  by_cases hfull : s.lh.length ≥ LOGBLOCKS
  · rw [if_pos hfull, if_pos (Or.inl hfull)]
    exact hI.fail (Or.inr rfl)
  have hout : ¬ s.outstanding < 1 := by omega
  have hboth : ¬ (s.lh.length ≥ LOGBLOCKS ∨ s.outstanding < 1) := by omega
  rw [if_neg hfull, if_neg hout, if_neg hboth]
  split_ifs with hold
  · -- absorption : the block is logged already
    refine LogInv.of_idle hbusy hup hcom hI.nodup hI.mem hI.outstanding hI.lh
      ⟨hg.last, hg.clean, ?_, hg.cache.absorb hb hvalid hold, fun j _ hj => by omega⟩ hI.panic
    rw [places_record, hg.places, if_pos hold]
  · have hnew : b ∉ s.lh := hold
    have hpin : (s.bufs.setData i d).bpin i = (s.bufs.bpin i).setData i d := by
      simp [Bufs.setData, Bufs.bpin, Bufs.set]
    have hover := ((hg.cache.bpin hb).absorb (d := d) ((Bufs.bpin_same s.bufs i i).blockno.trans hb)
      ((Bufs.bpin_same s.bufs i i).valid.trans hvalid) (List.mem_append_right _ List.mem_cons_self))
    rw [← hpin] at hover
    refine LogInv.of_idle hbusy hup hcom hI.nodup hI.mem hI.outstanding ?_
      ⟨hg.last, hg.clean, ?_, hover, fun j _ hj => by omega⟩ hI.panic
    · refine ⟨?_, ?_, fun b' hb' => ?_, fun b' hb' => ?_⟩
      · rw [List.nodup_append_comm]
        exact List.nodup_cons.mpr ⟨hnew, hI.lh.nodup⟩
      · simp only [List.length_append, List.length_singleton]
        omega
      · obtain hb' | hb' := List.mem_append.mp hb'
        · exact hI.lh.home b' hb'
        · rwa [List.mem_singleton.mp hb']
      · obtain hb' | hb' := List.mem_append.mp hb'
        · exact hI.lh.lt b' hb'
        · rwa [List.mem_singleton.mp hb']
    · rw [places_record, hg.places, if_neg hnew]

theorem LogInv.endOp (hI : LogInv start d₀ s h) (hp : s.pc p = .inOp)
    (hrefs : ∀ r ∈ s.bufs.refs, r.proc ≠ p) :
    LogInv start d₀ (s.endOp p) (h.upd s (.endOp p)) := by
  obtain ⟨hup, hcom, hpos⟩ := hI.inOp hp
  have hg := hI.idle hup hcom
  have hbusy := hI.not_busy hup hcom
  have hmem := (hI.mem p).mpr hp
  have hlen : s.outstanding - 1 = (h.active.erase p).length := by
    rw [List.length_erase_of_mem hmem, hI.outstanding]
  have hactive : ∀ q, q ∈ h.active.erase p ↔ q ≠ p ∧ s.pc q = .inOp := by
    intro q
    rw [hI.nodup.mem_erase_iff, hI.mem]
  dsimp only [LogSys.endOp, LogHist.upd]
  rw [if_neg (by simp [hcom])]
  split_ifs with hlast hnil
  · -- the last operation, with nothing to commit
    have hnone : h.active.erase p = [] := List.length_eq_zero_iff.mp (hlen.symm.trans hlast)
    refine LogInv.of_busy (update_self ..) rfl (fun q hq => ?_) (fun q => ?_) hnone hlast
      ⟨hup, rfl⟩ hI.disk hI.bufs hI.lh (fun r hr => ?_) (fun x hx => by cases hx)
      ⟨hnil, hg.last, hg.clean, hg.places, hg.cache, hg.logged⟩ hI.panic
    · exact (congrArg OpPc.busy (update_of_ne hq _ _)).trans (hbusy q)
    · intro hq
      have hq' := (Function.update_apply s.pc p OpPc.finish q).symm.trans hq
      split_ifs at hq' with hqp
      exact List.not_mem_nil (hnone ▸ (hactive q).mpr ⟨hqp, hq'⟩)
    · exact List.count_eq_zero.mpr fun hr' => hrefs r hr' hr
  · have hnone : h.active.erase p = [] := List.length_eq_zero_iff.mp (hlen.symm.trans hlast)
    refine LogInv.of_busy (update_self ..) rfl (fun q hq => ?_) (fun q => ?_) hnone hlast
      ⟨hup, rfl⟩ hI.disk hI.bufs hI.lh (fun r hr => ?_) (fun x hx => by cases hx)
      ⟨List.length_pos_of_ne_nil hnil, rfl, hg.last, hg.clean, hg.places, hg.cache, hg.logged⟩ hI.panic
    · exact (congrArg OpPc.busy (update_of_ne hq _ _)).trans (hbusy q)
    · intro hq
      have hq' := (Function.update_apply s.pc p (OpPc.copy .writeLog 0 .getLog) q).symm.trans hq
      split_ifs at hq' with hqp
      exact List.not_mem_nil (hnone ▸ (hactive q).mpr ⟨hqp, hq'⟩)
    · exact List.count_eq_zero.mpr fun hr' => hrefs r hr' hr
  · refine LogInv.of_idle (fun q => ?_) hup hcom (hI.nodup.erase p) (fun q => ?_) hlen hI.lh
      ⟨hg.last, hg.clean, hg.places, hg.cache, hg.logged⟩ hI.panic
    · rw [LogSys.wakeup_busy]
      by_contra hq
      have hq' := (LogSys.out_busy (s := s) rfl hq).2
      simp [hbusy q] at hq'
    · rw [LogSys.wakeup_inOp]
      exact (hactive q).trans (LogSys.out_inOp (s := s) (p := p) rfl).symm

/-! ## Crashes -/

/-- A machine that is off : all that matters is the disk. -/
theorem LogInv.of_off {disk : ℕ → Block} (hdisk : DiskInv start d₀ disk h.done h.last)
    (hpins : h.pins = fun _ => 0) (hactive : h.active = []) (hpending : h.pending = []) :
    LogInv start d₀ (.off disk) h where
  disk := hdisk
  bufs := hpins ▸ Bufs.binit_inv
  lh := .nil
  nodup := hactive ▸ List.nodup_nil
  mem _ := by simp [hactive, LogSys.off]
  outstanding := hactive ▸ rfl
  one _ _ hp := by cases hp
  recovers _ hp := by cases hp
  commits _ hp := by cases hp
  committing hc := by cases hc
  up _ := hactive
  off _ := ⟨fun _ => rfl, rfl, rfl, hpending, hpins ▸ Bufs.binit_over _⟩
  someone hs := by rcases hs with hs | hs <;> cases hs
  owns _ hp := by cases hp
  blocks _ hp := by cases hp
  busy _ hp := by cases hp
  idle hup := by cases hup
  panic := Or.inl rfl

theorem LogInv.boot (hI : LogInv start d₀ s h) (hoff : s.phase = .off) :
    LogInv start d₀ ({ s with phase := .booting }.goto p (.head .read .get)) h := by
  obtain ⟨hbusy, -, hrefs, he⟩ := hI.off hoff
  have hnone : h.active = [] := hI.up (by simp [hoff])
  have hcom : s.committing = false := by
    by_contra hc
    have := (hI.committing (by simpa using hc)).1
    simp [hoff] at this
  refine LogInv.of_busy (update_self ..) rfl (fun q hq => ?_) (fun q hq => ?_) hnone
    (hI.outstanding.trans (congrArg List.length hnone)) ⟨rfl, hcom⟩ hI.disk hI.bufs hI.lh (fun r _ => ?_)
    (fun x hx => by cases hx) ⟨⟨he.pending, he.cache⟩, fun hd => by cases hd⟩ hI.panic
  · exact (congrArg OpPc.busy (update_of_ne hq _ _)).trans (hbusy q)
  · have hq' := (Function.update_apply s.pc p (OpPc.head .read .get) q).symm.trans hq
    split_ifs at hq'
    exact hI.not_inOp hnone q hq'
  · exact (congrArg (List.count r) hrefs).trans rfl

/-! ## Every step and every run -/

theorem LogInv.stepUp {a : LogAct P} (hI : LogInv start d₀ s h) (hup : s.phase = .up)
    (hs : s.stepUp start a = some s') : LogInv start d₀ s' (h.upd s a) := by
  cases a with
  | beginOp p =>
    obtain ⟨hp, rfl⟩ := of_guard hs
    exact hI.beginOp hup hp
  | bread p b =>
    obtain ⟨hp, rfl⟩ := of_guard hs
    exact hI.bread hup hp
  | acquire p i =>
    simp only [LogSys.stepUp, Option.ite_none_right_eq_some] at hs
    exact hI.acquire hup hs.1 hs.2
  | logWrite p i d =>
    simp only [LogSys.stepUp] at hs
    cases hb : (s.bufs.buf i).blockno with
    | none => simp [hb] at hs
    | some b =>
      simp only [hb] at hs
      obtain ⟨⟨hp, hmem, hhome, hlt⟩, rfl⟩ := of_guard hs
      exact hI.logWrite hp hb hmem hhome hlt
  | release p i =>
    obtain ⟨⟨hp, hmem⟩, rfl⟩ := of_guard hs
    exact hI.release hup hp hmem
  | put p i =>
    obtain ⟨⟨hp, hmem⟩, rfl⟩ := of_guard hs
    exact hI.put hup hp hmem
  | endOp p =>
    obtain ⟨⟨hp, hrefs⟩, rfl⟩ := of_guard hs
    exact hI.endOp hp (by simpa using hrefs)
  | run p => exact hI.run hs
  | crash | boot => cases hs

theorem LogInv.step {a : LogAct P} (hI : LogInv start d₀ s h) (hs : s.step start a = some s') :
    LogInv start d₀ s' (h.upd s a) := by
  unfold LogSys.step at hs
  split at hs
  · cases hs
    exact .of_off hI.disk rfl rfl rfl
  · rename_i p hoff
    cases hs
    exact hI.boot hoff
  · exact hI.run hs
  · rename_i hup
    exact hI.stepUp hup hs
  · cases hs

/-- The invariant holds in every state reached. -/
theorem LogInv.of_reachable {x : LogSys P × LogHist P} (hr : (logObserved P start d₀).Reachable x) :
    LogInv start d₀ x.1 x.2 := by
  refine hr.invariant (I := fun x => LogInv start d₀ x.1 x.2) ?_ ?_
  · rintro ⟨s, h⟩ ⟨⟨rfl, hread⟩, rfl⟩
    exact .of_off ⟨hread, fun _ _ => rfl⟩ rfl rfl rfl
  · rintro ⟨s, h⟩ a ⟨s', h'⟩ - hI - hs
    obtain ⟨hs, rfl⟩ := Machine.observe_step.mp hs
    exact hI.step hs

/-! ## What a step leaves as it is -/

/-- A step of `p` in the cache changes neither `log` nor the other processes. -/
structure Local (s : LogSys P) (p : P) (s' : LogSys P) : Prop where
  lh : s'.lh = s.lh
  others : ∀ q, q ≠ p → s'.pc q = s.pc q
  committing : s'.committing = s.committing
  panic : s'.panic = s.panic ∨ s'.panic = some .noBuffers ∨ s'.panic = some .bwrite ∨
    s'.panic = some .brelse

/-- A step of `p` in commit() or recover_from_log(). -/
structure Ran (s : LogSys P) (p : P) (s' : LogSys P) : Prop where
  busy : (s.pc p).busy = true
  lh : s'.lh = s.lh ∨ s'.lh = [] ∨ (s.pc p).recovers = true
  others : ∀ q, q ≠ p → s'.pc q = s.pc q ∨ s'.pc q = .wakes
  committing : s'.committing = true → s.committing = true
  panic : s'.panic = s.panic ∨ s'.panic = some .noBuffers ∨ s'.panic = some .bwrite ∨
    s'.panic = some .brelse

theorem Local.of_pc {next : OpPc} (hlh : s'.lh = s.lh) (hpc : s'.pc = Function.update s.pc p next)
    (hcom : s'.committing = s.committing) (hpanic : s'.panic = s.panic) : Local s p s' :=
  ⟨hlh, fun q hq => by rw [hpc, update_of_ne hq], hcom, Or.inl hpanic⟩

theorem Local.ran (hl : Local s p s') (hp : (s.pc p).busy = true) : Ran s p s' :=
  ⟨hp, Or.inl hl.lh, fun q hq => Or.inl (hl.others q hq), fun hc => hl.committing ▸ hc, hl.panic⟩

namespace LogSys

variable {next : OpPc}

theorem bget_local (s : LogSys P) (p : P) (b : ℕ) (next : BufId → OpPc) :
    Local s p (s.bget p b next) := by
  unfold LogSys.bget
  split
  · exact .of_pc rfl rfl rfl rfl
  · exact ⟨rfl, fun _ _ => rfl, rfl, Or.inr (Or.inl rfl)⟩

theorem acquire_local (ha : s.acquire p i next = some s') : Local s p s' := by
  obtain ⟨c', -, rfl⟩ := Option.map_eq_some_iff.mp ha
  exact .of_pc rfl rfl rfl rfl

theorem releasesleep_local (s : LogSys P) (p : P) (i : BufId) (next : OpPc) :
    Local s p (s.releasesleep p i next) := by
  unfold LogSys.releasesleep
  split_ifs
  · exact .of_pc rfl rfl rfl rfl
  · exact ⟨rfl, fun _ _ => rfl, rfl, Or.inr (Or.inr (Or.inr rfl))⟩

theorem put_local (s : LogSys P) (p : P) (i : BufId) (next : OpPc) : Local s p (s.put p i next) :=
  .of_pc rfl rfl rfl rfl

theorem bwrite_local (s : LogSys P) (p : P) (i : BufId) (d : Block) (next : OpPc) :
    Local s p (s.bwrite p i d next) := by
  unfold LogSys.bwrite
  split_ifs
  · exact .of_pc rfl rfl rfl rfl
  · exact ⟨rfl, fun _ _ => rfl, rfl, Or.inr (Or.inr (Or.inl rfl))⟩

theorem startCopy_put_local (s : LogSys P) (p : P) (i : BufId) (kind : CopyKind) :
    Local s p ((s.put p i .out).startCopy p kind) := by
  unfold LogSys.startCopy
  split_ifs <;> rw [put_goto] <;> exact put_local s p i _

theorem nextCopy_put_ran (hp : (s.pc p).busy = true) (kind : CopyKind) (tail : ℕ) :
    Ran s p ((s.put p i .out).nextCopy p kind tail) := by
  unfold LogSys.nextCopy
  split_ifs
  · rw [put_goto]
    exact (put_local s p i _).ran hp
  · cases kind with
    | writeLog =>
      dsimp only
      rw [put_goto]
      exact (put_local s p i _).ran hp
    | install recovering =>
      refine ⟨hp, Or.inr (Or.inl rfl), fun q hq => Or.inl ?_, id, Or.inl rfl⟩
      simp [LogSys.goto, LogSys.put, hq]

theorem ran (hs : s.run start p = some s') : Ran s p s' := by
  unfold LogSys.run at hs
  split at hs
  · rename_i kind tail pc hpc
    have hp := LogSys.busy_of hpc rfl
    cases pc <;> simp only [LogSys.copyStep, Option.some.injEq] at hs
    case getLog | getHome => exact hs ▸ (bget_local s p _ _).ran hp
    case lockLog | lockHome => exact (acquire_local hs).ran hp
    case write => cases kind <;> exact Option.some.inj hs ▸ (bwrite_local s p _ _ _).ran hp
    case unlock | unlockLast => exact hs ▸ (releasesleep_local s p _ _).ran hp
    case unpin => exact hs ▸ Local.ran (.of_pc rfl rfl rfl rfl) hp
    case put => exact hs ▸ (put_local s p _ _).ran hp
    case putLast => exact hs ▸ nextCopy_put_ran hp kind tail
  · rename_i kind pc hpc
    have hp := LogSys.busy_of hpc rfl
    cases pc <;> simp only [LogSys.headStep, Option.some.injEq] at hs
    case get => exact hs ▸ (bget_local s p _ _).ran hp
    case lock => exact (acquire_local hs).ran hp
    case io =>
      cases kind
      · refine Option.some.inj hs ▸
          ⟨hp, Or.inr (Or.inr (by rw [hpc]; rfl)), fun q hq => Or.inl ?_, id, Or.inl rfl⟩
        exact update_of_ne hq _ _
      all_goals exact Option.some.inj hs ▸ (bwrite_local s p _ _ _).ran hp
    case unlock => exact hs ▸ (releasesleep_local s p _ _).ran hp
    case put =>
      cases kind with
      | read | commit => exact Option.some.inj hs ▸ (startCopy_put_local s p _ _).ran hp
      | clear recovering =>
        cases recovering
        · exact Option.some.inj hs ▸ (put_local s p _ _).ran hp
        · exact Option.some.inj hs ▸ Local.ran (.of_pc rfl rfl rfl rfl) hp
  · rename_i hpc
    have hp := LogSys.busy_of hpc rfl
    cases hs
    refine ⟨hp, Or.inl rfl, fun q hq => ?_, fun hc => absurd hc Bool.false_ne_true, Or.inl rfl⟩
    obtain heq | ⟨-, heq⟩ := LogSys.wakeup_pc ({ s with committing := false }.goto p .out) q
    · exact Or.inl (heq.trans (update_of_ne hq _ _))
    · exact Or.inr heq
  · cases hs

end LogSys

theorem LogHist.upd_run_active (h : LogHist P) (s : LogSys P) (p : P) :
    (h.upd s (.run p)).active = h.active := by
  dsimp only [LogHist.upd]
  split
  · rfl
  · split_ifs <;> rfl
  · rfl
  · rfl

/-! ## Recovery -/

/-- The actions of a machine that crashes and recovers. -/
def LogAct.recovery : LogAct P → Bool
  | .crash | .boot _ | .run _ => true
  | _ => false

/-- The machine that only recovers, and crashes. -/
def recoveryMachine (P : Type*) [DecidableEq P] (start : ℕ) (d₀ : ℕ → Block) :
    Machine (LogSys P × LogHist P) (LogAct P) :=
  (logObserved P start d₀).guarded fun _ a => a.recovery = true

/-! ## Runs to look at -/

/-- A disk of zeros; its log is empty. -/
def zeroDisk : ℕ → Block :=
  fun _ => Bytes.zero _

theorem zeroDisk_init (P : Type*) [DecidableEq P] :
    (logObserved P 2 zeroDisk).init (.off zeroDisk, .start) :=
  ⟨⟨rfl, by simp [readHead, word, zeroDisk, Bytes.getLE_zero]⟩, rfl⟩

/-- `p` boots, with nothing to recover. -/
def bootRun {P : Type*} (p : P) : List (LogAct P) :=
  .boot p :: List.replicate 10 (.run p)

/-- `p` writes a block, which gets the buffer `i`. -/
def writeRun {P : Type*} (p : P) (i : BufId) (b : ℕ) : List (LogAct P) :=
  [.bread p b, .acquire p i, .logWrite p i (Bytes.zero _), .release p i, .put p i]

/-- A crash in the state `x`, and the recovery by `p` with one block to install. -/
def recoverRun (p : P) (x : LogSys P × LogHist P) : Option (LogSys P × LogHist P) :=
  (recoveryMachine P 2 zeroDisk).exec x (.crash :: .boot p :: List.replicate 19 (.run p))

theorem recoverRun_leads {x y : LogSys P × LogHist P} (hrun : recoverRun p x = some y) :
    ∃ x', (logObserved P 2 zeroDisk).step x .crash = some x' ∧
      (recoveryMachine P 2 zeroDisk).Leads x' y := by
  rw [recoverRun, Machine.exec_cons] at hrun
  obtain ⟨x', hcrash, hrun⟩ := hrun
  rw [recoveryMachine, Machine.guarded_step] at hcrash
  exact ⟨x', hcrash.2, Machine.leads_of_exec hrun⟩

/-- One operation has logged one block and ended; the header is written 12 steps later. -/
theorem one_block : ∃ x,
    (logObserved (Fin 1) 2 zeroDisk).ReachWhen (fun x a => within x a = true ∧ roomy x.1 a = true) x ∧
    x.1.lh = [100] ∧ x.1.panic = none ∧ x.1.pc 0 = .copy .writeLog 0 .getLog ∧ x.1.bufs.refs = [] ∧
    ((logObserved (Fin 1) 2 zeroDisk).exec x (List.replicate 12 (.run 0))).any (fun y =>
      y.2.last.isSome && (recoverRun 0 y).any fun z => z.1.phase = .up) = true := by
  obtain ⟨x, hr, hx⟩ := Machine.reachable_of_exec
    (M := (logObserved (Fin 1) 2 zeroDisk).guarded fun x a => within x a = true ∧ roomy x.1 a = true)
    (zeroDisk_init (Fin 1)) (bootRun 0 ++ [.beginOp 0] ++ writeRun 0 1 100 ++ [.endOp 0])
    (fun x => x.1.lh = [100] ∧ x.1.panic = none ∧ x.1.pc 0 = .copy .writeLog 0 .getLog ∧
      x.1.bufs.refs = [] ∧
      ((logObserved (Fin 1) 2 zeroDisk).exec x (List.replicate 12 (.run 0))).any (fun y =>
        y.2.last.isSome && (recoverRun 0 y).any fun z => z.1.phase = .up) = true)
    (by decide +kernel)
  exact ⟨x, hr.of_guarded, hx⟩

/-- Three operations log 10 blocks each. -/
def fullRun : List (LogAct (Fin 3)) :=
  bootRun 0 ++ [.beginOp 0, .beginOp 1, .beginOp 2] ++
    (List.range 30).flatMap fun j => writeRun (Fin.ofNat 3 (j / 10)) (Fin.ofNat 30 (j + 1)) (100 + j)

/-- The log is full : a block logged again makes log_write panic, and otherwise the commit() does. -/
theorem full_log : ∃ x, (logObserved (Fin 3) 2 zeroDisk).ReachWhen (fun x a => within x a = true) x ∧
    (((logObserved (Fin 3) 2 zeroDisk).guarded fun x a => within x a = true).exec x
      [.bread 0 100, .acquire 0 1, .logWrite 0 1 (Bytes.zero _)]).any
        (fun y => y.1.panic = some .tooBig) = true ∧
    (((logObserved (Fin 3) 2 zeroDisk).guarded fun x a => within x a = true).exec x
      [.endOp 0, .endOp 1, .endOp 2]).any (fun y =>
        y.1.pc 2 = .copy .writeLog 0 .getLog && y.1.bufs.refs.isEmpty &&
        ((logObserved (Fin 3) 2 zeroDisk).step y (.run 2)).any
          fun z => z.1.panic = some .noBuffers) = true := by
  obtain ⟨x, hr, hx⟩ := Machine.reachable_of_exec
    (M := (logObserved (Fin 3) 2 zeroDisk).guarded fun x a => within x a = true) (zeroDisk_init (Fin 3))
    fullRun
    (fun x => (((logObserved (Fin 3) 2 zeroDisk).guarded fun x a => within x a = true).exec x
        [.bread 0 100, .acquire 0 1, .logWrite 0 1 (Bytes.zero _)]).any
          (fun y => y.1.panic = some .tooBig) = true ∧
      (((logObserved (Fin 3) 2 zeroDisk).guarded fun x a => within x a = true).exec x
        [.endOp 0, .endOp 1, .endOp 2]).any (fun y =>
          y.1.pc 2 = .copy .writeLog 0 .getLog && y.1.bufs.refs.isEmpty &&
          ((logObserved (Fin 3) 2 zeroDisk).step y (.run 2)).any
            fun z => z.1.panic = some .noBuffers) = true)
    (by decide +kernel)
  exact ⟨x, hr.of_guarded, hx⟩

end Xv6
