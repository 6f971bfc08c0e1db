import Xv6.LogRun

/-!
# Group commit

The operations under way log their writes together, and the last to end commits them all. While it does,
without `log.lock`, no operation is under way and none begins. A block that has been logged and not yet
been installed (`LogSys.Pinned`) has exactly one pin : log_write makes it the first time that
it logs the block, and install_trans takes it away (`Pins`).
-/

set_option linter.unusedSectionVars false

namespace Xv6

variable {P : Type*} [DecidableEq P] {start : ℕ} {d₀ disk : ℕ → Block} {s s' : LogSys P}
  {h : LogHist P} {p : P} {i : BufId} {b : ℕ}

/-- In commit(), or in end_op after it. -/
def OpPc.commits (pc : OpPc) : Bool :=
  pc.busy && !pc.recovers

/-- The blocks of the header that are pinned while a process is at `pc`. -/
def OpPc.pinned (lh : List ℕ) : OpPc → List ℕ
  | .copy (.install false) tail pc => lh.drop (tail + pc.unpinned)
  | pc => if pc.recovers then [] else lh

/-- The block has been logged, and install_trans has not unpinned it. -/
def LogSys.Pinned (s : LogSys P) (b : ℕ) : Prop :=
  b ∈ s.lh ∧ ∀ p, b ∈ (s.pc p).pinned s.lh

/-- How a step other than a crash changes the pins of the buffer `i`. -/
inductive Pins (s : LogSys P) (a : LogAct P) (i : BufId) (before after : ℕ) : Prop
  | same (heq : after = before)
  /-- log_write logs the block of the buffer for the first time. -/
  | pin {p : P} {d : Block} {b : ℕ} (ha : a = .logWrite p i d) (hb : (s.bufs.buf i).blockno = some b)
    (hnew : b ∉ s.lh) (hbefore : before = 0) (hafter : after = 1)
  /-- install_trans has written the block home. -/
  | unpin {p : P} {tail : ℕ} {l : BufId} (ha : a = .run p)
    (hpc : s.pc p = .copy (.install false) tail (.unpin l i))
    (hb : (s.bufs.buf i).blockno = some (s.lh.getD tail 0)) (hbefore : before = 1) (hafter : after = 0)

/-! ## The pins -/

theorem OpPc.pinned_of_not_busy {pc : OpPc} {lh : List ℕ} (hp : pc.busy = false) : pc.pinned lh = lh := by
  cases pc <;> first | rfl | cases hp

theorem OpPc.pinned_subset (pc : OpPc) (lh : List ℕ) : pc.pinned lh ⊆ lh := by
  unfold pinned
  split
  · exact List.drop_subset _ _
  · split_ifs
    · exact List.nil_subset _
    · exact List.Subset.refl _

/-- While one process is in commit() or recover_from_log(), it says what is pinned. -/
theorem LogInv.pinned_iff (hI : LogInv start d₀ s h) (hp : (s.pc p).busy = true) :
    s.Pinned b ↔ b ∈ (s.pc p).pinned s.lh := by
  refine ⟨fun hb => hb.2 p, fun hb => ⟨OpPc.pinned_subset _ _ hb, fun q => ?_⟩⟩
  by_cases hq : (s.pc q).busy = true
  · rwa [hI.one q p hq hp]
  · rw [OpPc.pinned_of_not_busy (by simpa using hq)]
    exact OpPc.pinned_subset _ _ hb

/-- The cache over the disk, of a process in commit() or recover_from_log(). -/
theorem BusyInv.cache {pc : OpPc} (hb : BusyInv start d₀ s h pc) (hp : pc.busy = true) :
    ∃ t, s.bufs.Over s.disk h.pins (pc.pinned s.lh) t := by
  match pc with
  | .copy .writeLog tail pc => exact ⟨_, hb.2.2.cache⟩
  | .copy (.install false) tail pc =>
    obtain ⟨-, t, hg⟩ := hb
    exact ⟨_, hg.cache⟩
  | .copy (.install true) tail pc =>
    obtain ⟨-, -, t, k, -, hg⟩ := hb
    have hover := hg.cache
    rw [List.drop_length] at hover
    exact ⟨_, hover⟩
  | .head .read pc => exact ⟨_, hb.1.cache⟩
  | .head .commit pc =>
    dsimp only [BusyInv] at hb
    split_ifs at hb
    · obtain ⟨t, hg⟩ := hb
      exact ⟨_, hg.cache⟩
    · exact ⟨_, hb.cache⟩
  | .head (.clear recovering) pc =>
    have hnil : (OpPc.head (.clear recovering) pc).pinned s.lh = [] :=
      List.eq_nil_of_subset_nil (hb.2.1 ▸ OpPc.pinned_subset _ _)
    exact ⟨_, hnil ▸ hb.1.cache⟩
  | .finish => exact ⟨_, hb.2.cache⟩

/-- The cache over the disk, with the blocks that are pinned. -/
theorem LogInv.pinned_over (hI : LogInv start d₀ s h) :
    ∃ l t, l.Nodup ∧ (∀ b, b ∈ l ↔ s.Pinned b) ∧ s.bufs.Over s.disk h.pins l t := by
  by_cases hp : ∃ p, (s.pc p).busy = true
  · obtain ⟨p, hp⟩ := hp
    obtain ⟨t, ho⟩ := (hI.busy p hp).cache hp
    refine ⟨_, t, ?_, fun b => (hI.pinned_iff hp).symm, ho⟩
    unfold OpPc.pinned
    split
    · exact hI.lh.nodup.sublist (List.drop_sublist _ _)
    · split_ifs
      · exact List.nodup_nil
      · exact hI.lh.nodup
  · have hnot : ∀ p, (s.pc p).busy = false := fun p => by
      by_contra hp'
      exact hp ⟨p, by simpa using hp'⟩
    have hall : ∀ b, b ∈ s.lh ↔ s.Pinned b := fun b =>
      ⟨fun hb => ⟨hb, fun p => by rwa [OpPc.pinned_of_not_busy (hnot p)]⟩, fun hb => hb.1⟩
    cases hphase : s.phase with
    | booting => exact absurd (hI.someone (Or.inl hphase)) hp
    | off =>
      obtain ⟨-, hlh, -, he⟩ := hI.off hphase
      exact ⟨s.lh, [], hI.lh.nodup, hall, hlh ▸ he.cache⟩
    | up =>
      have hcom : s.committing = false := by
        by_contra hc
        exact hp (hI.someone (Or.inr (by simpa using hc)))
      exact ⟨s.lh, _, hI.lh.nodup, hall, (hI.idle hphase hcom).cache⟩

namespace Bufs

variable {c : Bufs P} {pins : BufId → ℕ} {l : List ℕ} {t : Tx}

theorem Over.pins_eq_one (ho : c.Over disk pins l t) (hl : l.Nodup) (hb : b ∈ l)
    (hi : (c.buf i).blockno = some b) : pins i = 1 := by
  rw [ho.pins i, hi]
  have hcount : (l.countP fun b' => decide (some b = some b')) = l.count b := by
    simp only [Option.some.injEq, eq_comm (a := b)]
    rfl
  rw [hcount, List.count_eq_one_of_mem hl hb]

theorem Over.pins_eq_zero (ho : c.Over disk pins l t) (hi : ∀ b ∈ l, (c.buf i).blockno ≠ some b) :
    pins i = 0 := by
  rw [ho.pins i, List.countP_eq_zero]
  exact fun b hb heq => hi b hb (by simpa using heq)

end Bufs

/-- Every step changes the pins as `Pins` says. -/
theorem LogInv.pins_step {a : LogAct P} (hI : LogInv start d₀ s h) (hs : s.step start a = some s')
    (ha : a ≠ .crash) (i : BufId) : Pins s a i (h.pins i) ((h.upd s a).pins i) := by
  cases a with
  | crash => exact absurd rfl ha
  | bread | acquire | release | put | boot | endOp => exact .same rfl
  | beginOp p =>
    dsimp only [LogHist.upd]
    split_ifs <;> exact .same rfl
  | logWrite p j d =>
    dsimp only [LogHist.upd]
    cases hb : (s.bufs.buf j).blockno with
    | none => exact .same rfl
    | some b =>
      dsimp only
      by_cases hfull : s.lh.length ≥ LOGBLOCKS ∨ s.outstanding < 1
      · rw [if_pos hfull]
        exact .same rfl
      by_cases hold : b ∈ s.lh
      · rw [if_neg hfull, if_pos hold]
        exact .same rfl
      rw [if_neg hfull, if_neg hold]
      by_cases hij : i = j
      · subst hij
        obtain ⟨l, t, -, hl, ho⟩ := hI.pinned_over
        have hzero : h.pins i = 0 := by
          refine ho.pins_eq_zero fun b' hb' heq => ?_
          obtain rfl := Option.some.inj (hb.symm.trans heq)
          exact hold ((hl b).mp hb').1
        exact .pin rfl hb hold hzero (by simp [hzero])
      · exact .same (by simp [hij])
  | run p =>
    dsimp only [LogHist.upd]
    split
    · rename_i kind tail l j hpc
      have hp := LogSys.busy_of hpc rfl
      have hbusy := hI.busy p hp
      have hblocks := hI.blocks p hp
      rw [hpc] at hbusy hblocks
      by_cases hij : i = j
      · subst hij
        have hib : (s.bufs.buf i).blockno = some (s.lh.getD tail 0) :=
          hblocks _ (List.mem_cons_of_mem _ List.mem_cons_self)
        match kind with
        | .writeLog | .install true => cases hbusy.2.1
        | .install false =>
          obtain ⟨htail, t, hg⟩ := hbusy
          have hmem : s.lh.getD tail 0 ∈ s.lh.drop tail := by
            rw [List.getD_eq_getElem?_getD, List.getElem?_eq_getElem htail, Option.getD_some,
              List.drop_eq_getElem_cons htail]
            exact List.mem_cons_self
          have hone : h.pins i = 1 :=
            hg.cache.pins_eq_one (hI.lh.nodup.sublist (List.drop_sublist _ _)) hmem hib
          exact .unpin rfl hpc hib hone (by simp [hone])
      · exact .same (by simp [hij])
    · split_ifs <;> exact .same rfl
    · exact .same rfl
    · exact .same rfl

/-! ## The result -/

/-- Only one process commits, with no operation under way and no log_write taking effect, and a logged
block has one pin until it is installed. -/
theorem group_commit_isolated {x : LogSys P × LogHist P} (hr : (logObserved P start d₀).Reachable x) :
    (∀ p q, (x.1.pc p).commits = true → (x.1.pc q).commits = true → p = q) ∧
    (∀ p, (x.1.pc p).commits = true → x.1.committing = true ∧ x.1.outstanding = 0) ∧
    (x.1.committing = true → ∀ p i d, x.1.step start (.logWrite p i d) = none) ∧
    x.1.panic ≠ some .logCommitting ∧ x.1.panic ≠ some .outsideTrans ∧
    x.1.lh.Nodup ∧
    (∀ i, (x.1.bufs.buf i).refcnt = Bufs.refsTo x.1.bufs.refs i + x.2.pins i) ∧
    (∀ b, x.1.Pinned b → ∃ i, (x.1.bufs.buf i).blockno = some b ∧ x.2.pins i = 1) ∧
    (∀ i, x.2.pins i ≠ 0 → ∃ b, (x.1.bufs.buf i).blockno = some b ∧ x.1.Pinned b) ∧
    ∀ a y, (logObserved P start d₀).step x a = some y → a ≠ .crash →
      ∀ i, Pins x.1 a i (x.2.pins i) (y.2.pins i) := by
  have hI := LogInv.of_reachable hr
  obtain ⟨l, t, hnodup, hl, ho⟩ := hI.pinned_over
  have hbusy : ∀ {p}, (x.1.pc p).commits = true →
      (x.1.pc p).busy = true ∧ (x.1.pc p).recovers = false := fun hp => by
    simpa [OpPc.commits] using hp
  refine ⟨fun p q hp hq => hI.one p q (hbusy hp).1 (hbusy hq).1, fun p hp => ?_, fun hc p i d => ?_, ?_, ?_,
    hI.lh.nodup, hI.bufs.count, fun b hb => ?_, fun i hi => ?_, fun a y hs ha i => ?_⟩
  · have hc := hI.commits p (hbusy hp).1 (hbusy hp).2
    refine ⟨hc, ?_⟩
    rw [hI.outstanding, (hI.committing hc).2]
    rfl
  · have hop := hI.not_inOp (hI.committing hc).2 p
    unfold LogSys.step
    cases x.1.panic <;> cases x.1.phase <;> try rfl
    cases hb : (x.1.bufs.buf i).blockno <;> simp [LogSys.stepUp, hb, hop]
  · rcases hI.panic with hp | hp | hp <;> simp [hp]
  · rcases hI.panic with hp | hp | hp <;> simp [hp]
  · obtain ⟨i, hi⟩ := ho.cached b ((hl b).mpr hb)
    exact ⟨i, hi, ho.pins_eq_one hnodup ((hl b).mpr hb) hi⟩
  · by_contra hnone
    exact hi (ho.pins_eq_zero fun b hb heq => hnone ⟨b, heq, (hl b).mp hb⟩)
  · obtain ⟨hs, hy⟩ := Machine.observe_step.mp hs
    rw [hy]
    exact hI.pins_step hs ha i

theorem group_commit_isolated_one : ∃ x, (logObserved (Fin 1) 2 zeroDisk).Reachable x ∧
    x.1.pc 0 = .copy .writeLog 0 .getLog ∧ x.1.committing = true ∧ x.1.outstanding = 0 := by
  obtain ⟨x, hr, -, -, hpc, -⟩ := one_block
  have hr' := hr.mono fun _ _ _ => trivial
  exact ⟨x, hr', hpc, (group_commit_isolated hr').2.1 0 (by rw [hpc]; rfl)⟩

/-- While nobody commits, the log on the disk is empty, the blocks to be committed are those of the pending writes,
and a buffer has the block of the transactions that are done under the pending writes. -/
theorem log_gathers {x : LogSys P × LogHist P} (hr : (logObserved P start d₀).Reachable x) (hup : x.1.phase = .up)
    (hc : x.1.committing = false) :
    readHead (x.1.disk start) = [] ∧ x.1.lh = places x.2.pending ∧
    ∀ i b, LogSys.home start b → (x.1.bufs.buf i).blockno = some b → (x.1.bufs.buf i).valid = true →
      (x.1.bufs.buf i).data = overlay (replay d₀ x.2.done) x.2.pending b := by
  have hg := (LogInv.of_reachable hr).idle hup hc
  refine ⟨hg.clean.head, hg.places.symm, fun i b hb hi hvalid => ?_⟩
  rw [hg.cache.data i b hi hvalid]
  exact overlay_congr fun _ => hg.clean.home b hb

/-- A block has been written, and is not on the disk. -/
theorem log_gathers_one : ∃ x : LogSys (Fin 1) × LogHist (Fin 1), x.2.done = [] ∧ places x.2.pending = [100] ∧
    (x.1.bufs.buf 1).data = overlay (replay zeroDisk []) x.2.pending 100 := by
  obtain ⟨x, hr, hup, hc, hlh, hb, hvalid, hdone⟩ := Machine.reachable_of_exec
    (M := logObserved (Fin 1) 2 zeroDisk) (zeroDisk_init (Fin 1)) (bootRun 0 ++ [.beginOp 0] ++ writeRun 0 1 100)
    (fun x => x.1.phase = .up ∧ x.1.committing = false ∧ x.1.lh = [100] ∧ (x.1.bufs.buf 1).blockno = some 100 ∧
      (x.1.bufs.buf 1).valid = true ∧ x.2.done = []) (by decide +kernel)
  obtain ⟨-, hplaces, hdata⟩ := log_gathers hr hup hc
  refine ⟨x, hdone, hplaces.symm.trans hlh, ?_⟩
  rw [← hdone]
  exact hdata 1 100 (by decide) hb hvalid

end Xv6
