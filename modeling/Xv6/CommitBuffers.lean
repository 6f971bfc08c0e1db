import Mathlib.Data.Fintype.Card
import Xv6.Admission
import Xv6.GroupCommit

/-!
# The buffers of a commit

Every block of a transaction stays pinned until it is installed, and commit() needs a buffer
more for each log block and for the header. The log holds as many blocks as the cache has buffers :
three operations that log MAXOPBLOCKS distinct blocks each pin all of them, and the first bread of
write_log finds no buffer (`commit_without_buffers`). With one block less, commit() gets every
buffer it needs from a cache that nobody else uses (`commit_gets_buffers_iff`).
-/

set_option linter.unusedSectionVars false

namespace Xv6

variable {P : Type*} [DecidableEq P] {start : ℕ} {d₀ disk : ℕ → Block} {s s' : LogSys P}
  {h : LogHist P} {p q : P} {i : BufId} {b : ℕ}

/-- The block that a process in commit() or recover_from_log() is about to read. -/
def OpPc.gets (start : ℕ) (lh : List ℕ) : OpPc → Option ℕ
  | .copy _ tail .getLog => some (start + tail + 1)
  | .copy _ tail (.getHome _) => some (lh.getD tail 0)
  | .head _ .get => some start
  | _ => none

/-! ## Counting the pinned buffers -/

namespace Bufs

variable {c : Bufs P} {pins : BufId → ℕ} {l : List ℕ} {t : Tx}

/-- Each pinned block has a buffer of its own. -/
theorem Over.card_pinned (ho : c.Over disk pins l t) (hl : l.Nodup) :
    (Finset.univ.filter fun i => pins i ≠ 0).card = l.length := by
  have himage : (Finset.univ.filter fun i => pins i ≠ 0).image (fun i => (c.buf i).blockno) =
      l.toFinset.image some := by
    ext x
    simp only [Finset.mem_image, Finset.mem_filter, Finset.mem_univ, true_and, List.mem_toFinset]
    constructor
    · rintro ⟨i, hi, rfl⟩
      by_contra hx
      exact hi (ho.pins_eq_zero fun b hb heq => hx ⟨b, hb, heq.symm⟩)
    · rintro ⟨b, hb, rfl⟩
      obtain ⟨i, hi⟩ := ho.cached b hb
      exact ⟨i, by simp [ho.pins_eq_one hl hb hi], hi⟩
  rw [← List.toFinset_card_of_nodup hl, ← Finset.card_image_of_injective _ (Option.some_injective ℕ),
    ← himage, Finset.card_image_of_injOn]
  intro i hi j hj heq
  have hi' : pins i ≠ 0 := (Finset.mem_filter.mp hi).2
  dsimp only at heq
  cases hb : (c.buf i).blockno with
  | none => exact absurd hb (ho.inv.named i (by have := ho.inv.count i; omega))
  | some b => exact ho.inv.inj i j b hb (heq ▸ hb)

theorem Over.unpinned (ho : c.Over disk pins l t) (hl : l.Nodup) (hlt : l.length < NBUF) :
    ∃ i, pins i = 0 := by
  by_contra hall
  rw [not_exists] at hall
  have hcard := ho.card_pinned hl
  rw [Finset.filter_true_of_mem fun i _ => hall i, Finset.card_univ, Fintype.card_fin] at hcard
  omega

theorem Over.all_pinned (ho : c.Over disk pins l t) (hl : l.Nodup) (hge : NBUF ≤ l.length)
    (i : BufId) : pins i ≠ 0 := by
  have hcard : (Finset.univ.filter fun i => pins i ≠ 0).card = (Finset.univ : Finset BufId).card := by
    refine le_antisymm (Finset.card_filter_le _ _) ?_
    rw [ho.card_pinned hl, Finset.card_univ, Fintype.card_fin]
    exact hge
  have hmem := Finset.filter_card_eq hcard i (Finset.mem_univ i)
  exact hmem

end Bufs

/-- With a transaction as large as the cache, the log blocks find no buffer. -/
theorem LogInv.getLog_fails (hI : LogInv start d₀ s h)
    (hpc : s.pc p = .copy .writeLog 0 .getLog) (hfull : NBUF ≤ s.lh.length) :
    s.bufs.bget p (start + 0 + 1) = none := by
  have hp := LogSys.busy_of hpc rfl
  have hbusy := hI.busy p hp
  rw [hpc] at hbusy
  obtain ⟨htail, -, hg⟩ := hbusy
  have hpins := hg.cache.all_pinned hI.lh.nodup hfull
  refine Bufs.bget_eq_none_of (fun j hj => ?_) fun j hj => ?_
  · by_cases hall : ∀ b ∈ s.lh, (s.bufs.buf j).blockno ≠ some b
    · exact hpins j (hg.cache.pins_eq_zero hall)
    · obtain ⟨b, hb, hjb⟩ : ∃ b ∈ s.lh, (s.bufs.buf j).blockno = some b := by simpa using hall
      obtain rfl := Option.some.inj (hj.symm.trans hjb)
      exact hI.lh.not_home htail (hI.lh.home _ hb)
  · have := hI.bufs.count j
    exact hpins j (by omega)

/-! ## Past the first bread of write_log -/

/-- A commit() that has got past its first bread has a transaction smaller than the cache. -/
def Past (s : LogSys P) : Prop :=
  ∀ p, (s.pc p).commits = true → s.pc p ≠ .copy .writeLog 0 .getLog → s.lh.length < NBUF

theorem OpPc.busy_of_commits {pc : OpPc} (hc : pc.commits = true) :
    pc.busy = true ∧ pc.recovers = false := by
  simpa [OpPc.commits] using hc

theorem Past.of_eq (hP : Past s) (hpc : s'.pc = s.pc) (hlh : s'.lh = s.lh) : Past s' := by
  intro p
  rw [hpc, hlh]
  exact hP p

theorem Past.of_local (hP : Past s) (hl : Local s p s') (hpc : s'.pc p = s.pc p) : Past s' := by
  refine hP.of_eq (funext fun q => ?_) hl.lh
  by_cases hq : q = p
  · rw [hq, hpc]
  · exact hl.others q hq

theorem Past.run (hP : Past s) (hI : LogInv start d₀ s h) (hs : s.run start p = some s') :
    Past s' := by
  intro q hq hfirst
  have hran := LogSys.ran hs
  obtain ⟨hqbusy, hqrec⟩ := OpPc.busy_of_commits hq
  obtain rfl : q = p := by
    by_contra hqp
    obtain heq | heq := hran.others q hqp
    · rw [heq] at hqbusy
      exact hqp (hI.one q p hqbusy hran.busy)
    · rw [heq] at hqbusy
      cases hqbusy
  -- a process in recovery does not come to commit()
  have hrec : (s.pc q).recovers = false := by
    by_contra hrec
    have hmode := (hI.mode hran.busy).2
    rw [if_pos (by simpa using hrec)] at hmode
    have hcom := hran.committing ((hI.run hs).commits q hqbusy hqrec)
    simp [hmode.2] at hcom
  by_cases hpc : s.pc q = .copy .writeLog 0 .getLog
  · -- its first bread got a buffer
    by_contra hfull
    rw [LogSys.run, hpc] at hs
    cases hs
    rw [(LogSys.bget_local s q _ _).lh, not_lt] at hfull
    refine hfirst ?_
    rw [LogSys.bget, hI.getLog_fails hpc hfull]
    exact hpc
  · have hlt := hP q (by simp [OpPc.commits, hran.busy, hrec]) hpc
    obtain heq | heq | heq := hran.lh
    · rwa [heq]
    · rw [heq]
      decide
    · simp [hrec] at heq

theorem Past.stepUp {a : LogAct P} (hP : Past s) (hI : LogInv start d₀ s h)
    (hs : s.stepUp start a = some s') : Past s' := by
  cases a with
  | beginOp p =>
    obtain ⟨-, rfl⟩ := of_guard hs
    obtain ⟨pc, hpc, hpcs, hlh⟩ : ∃ pc : OpPc, pc.commits = false ∧
        (s.beginOp p).pc = Function.update s.pc p pc ∧ (s.beginOp p).lh = s.lh := by
      unfold LogSys.beginOp
      split_ifs
      · exact ⟨.waits, rfl, rfl, rfl⟩
      · exact ⟨.inOp, rfl, rfl, rfl⟩
    intro q hq
    rw [hpcs, Function.update_apply] at hq ⊢
    rw [hlh]
    split_ifs at hq ⊢
    · simp [hpc] at hq
    · exact hP q hq
  | bread p b =>
    obtain ⟨-, rfl⟩ := of_guard hs
    refine hP.of_local (LogSys.bget_local s p b _) ?_
    unfold LogSys.bget
    split
    · exact Function.update_self ..
    · rfl
  | acquire p i =>
    simp only [LogSys.stepUp, Option.ite_none_right_eq_some] at hs
    refine hP.of_local (LogSys.acquire_local hs.2) ?_
    obtain ⟨c', -, rfl⟩ := Option.map_eq_some_iff.mp hs.2
    exact Function.update_self ..
  | logWrite p i d =>
    simp only [LogSys.stepUp] at hs
    cases hb : (s.bufs.buf i).blockno with
    | none => simp [hb] at hs
    | some b =>
      simp only [hb] at hs
      obtain ⟨⟨hp, -⟩, rfl⟩ := of_guard hs
      obtain ⟨hup, hcom, -⟩ := hI.inOp hp
      -- nobody commits
      intro q hq
      have hpcs : (s.logWrite i b d).pc = s.pc := by
        unfold LogSys.logWrite
        dsimp only
        split_ifs <;> rfl
      rw [hpcs] at hq
      simp [OpPc.commits, hI.not_busy hup hcom q] at hq
  | release p i =>
    obtain ⟨-, rfl⟩ := of_guard hs
    refine hP.of_local (LogSys.releasesleep_local s p i _) ?_
    unfold LogSys.releasesleep
    split_ifs
    · exact Function.update_self ..
    · rfl
  | put p i =>
    obtain ⟨-, rfl⟩ := of_guard hs
    exact hP.of_local (LogSys.put_local s p i _) (Function.update_self ..)
  | endOp p =>
    obtain ⟨⟨hp, -⟩, rfl⟩ := of_guard hs
    obtain ⟨hup, hcom, -⟩ := hI.inOp hp
    have hidle : ∀ q, (s.pc q).commits = false := fun q => by
      simp [OpPc.commits, hI.not_busy hup hcom q]
    intro q hq hfirst
    simp only [LogSys.endOp, hcom] at hq hfirst ⊢
    rw [if_neg (by simp)] at hq hfirst ⊢
    split_ifs at hq hfirst ⊢ with hlast hnil
    · simp [LogSys.goto, hnil]
    · dsimp only [LogSys.goto] at hq hfirst
      rw [Function.update_apply] at hq hfirst
      split_ifs at hq hfirst
      · exact absurd rfl hfirst
      · simp [hidle q] at hq
    · obtain ⟨hqbusy, -⟩ := OpPc.busy_of_commits hq
      rw [LogSys.wakeup_busy] at hqbusy
      have hq' := (LogSys.out_busy (s := s) (p := p) rfl (ne_of_eq_of_ne hqbusy (by decide))).2
      simp [hI.not_busy hup hcom q] at hq'
  | run p => exact hP.run hI hs
  | crash | boot => cases hs

theorem Past.step {a : LogAct P} (hP : Past s) (hI : LogInv start d₀ s h)
    (hs : s.step start a = some s') : Past s' := by
  unfold LogSys.step at hs
  split at hs
  · cases hs
    exact fun q hq => by cases hq
  · cases hs
    intro q hq
    dsimp only [LogSys.goto] at hq ⊢
    rw [Function.update_apply] at hq ⊢
    split_ifs at hq ⊢
    · cases hq
    · exact hP q hq
  · exact hP.run hI hs
  · exact hP.stepUp hI hs
  · cases hs

theorem Past.of_reachable {x : LogSys P × LogHist P} (hr : (logObserved P start d₀).Reachable x) :
    Past x.1 := by
  refine hr.invariant (I := fun x => Past x.1) ?_ ?_
  · rintro ⟨s, h⟩ ⟨⟨rfl, -⟩, -⟩ q hq
    cases hq
  · rintro ⟨s, h⟩ a ⟨s', h'⟩ hr hP - hs
    exact hP.step (.of_reachable hr) (Machine.observe_step.mp hs).1

/-! ## The result -/

theorem LogInv.bget_succeeds (hI : LogInv start d₀ s h) (hp : (s.pc p).commits = true)
    (hget : (s.pc p).gets start s.lh = some b) (halone : ∀ r ∈ s.bufs.refs, r.proc = p)
    (hlt : s.lh.length < NBUF) : s.bufs.bget p b ≠ none := by
  obtain ⟨hbusy, hrec⟩ := OpPc.busy_of_commits hp
  obtain ⟨t, hover⟩ := (hI.busy p hbusy).cache hbusy
  have howns := hI.owns p hbusy
  intro hnone
  obtain ⟨huncached, hused⟩ := hI.bufs.bget_eq_none hnone
  -- with no reference left, the buffers in use are those pinned
  have hfree : (s.pc p).locals p = [] → False := by
    intro hlocals
    rw [hlocals] at howns
    have hrefs : s.bufs.refs = [] := by
      refine List.eq_nil_iff_forall_not_mem.mpr fun r hr => ?_
      have hpos := List.count_pos_iff.mpr hr
      rw [howns r (halone r hr)] at hpos
      simp at hpos
    have hsub : List.Sublist ((s.pc p).pinned s.lh) s.lh := by
      unfold OpPc.pinned
      split
      · exact List.drop_sublist _ _
      · split_ifs
        · exact List.nil_sublist _
        · exact List.Sublist.refl _
    obtain ⟨i, hi⟩ := hover.unpinned (hI.lh.nodup.sublist hsub) (hsub.length_le.trans_lt hlt)
    refine hused i ?_
    rw [hI.bufs.count, hi, hrefs]
    rfl
  cases hpc : s.pc p <;> rw [hpc] at hget <;> try cases hget
  case copy kind tail pc =>
    cases pc <;> try cases hget
    case getLog => exact hfree (by rw [hpc]; rfl)
    case getHome l =>
      -- the home block is pinned
      have hinv := hI.busy p hbusy
      rw [hpc] at hinv hover hrec
      have htail : tail < s.lh.length := by
        match kind with
        | .writeLog | .install false => exact hinv.1
        | .install true => cases hrec
      have hmem : s.lh.getD tail 0 ∈ (OpPc.copy kind tail (.getHome l)).pinned s.lh := by
        rw [List.getD_eq_getElem?_getD, List.getElem?_eq_getElem htail, Option.getD_some]
        match kind with
        | .writeLog => exact List.getElem_mem htail
        | .install false =>
          change s.lh[tail] ∈ s.lh.drop tail
          rw [List.drop_eq_getElem_cons htail]
          exact List.mem_cons_self
        | .install true => cases hrec
      obtain ⟨i, hi⟩ := hover.cached _ hmem
      exact huncached i hi
  case head kind pc =>
    cases pc <;> try cases hget
    exact hfree (by rw [hpc]; rfl)

theorem LogSys.run_of_gets (hget : (s.pc p).gets start s.lh = some b) :
    ∃ next, s.run start p = some (s.bget p b next) := by
  unfold LogSys.run
  cases hpc : s.pc p <;> rw [hpc] at hget <;> try cases hget
  case copy kind tail pc =>
    cases pc <;> try cases hget
    case getLog | getHome => exact ⟨_, rfl⟩
  case head kind pc =>
    cases pc <;> try cases hget
    exact ⟨_, rfl⟩

theorem LogSys.bget_panic_iff {next : BufId → OpPc} (hs : s.panic = none) :
    (s.bget p b next).panic = none ↔ s.bufs.bget p b ≠ none := by
  unfold LogSys.bget
  cases hb : s.bufs.bget p b with
  | none => simp [LogSys.fail]
  | some x => simp [LogSys.goto, hs]

/-- commit() gets the buffer it needs from a cache that nobody else uses, unless the transaction
is as large as the cache. -/
theorem commit_gets_buffers_iff {x : LogSys P × LogHist P} (hr : (logObserved P start d₀).Reachable x)
    (hpanic : x.1.panic = none) (hp : (x.1.pc p).commits = true)
    (hget : (x.1.pc p).gets start x.1.lh = some b) (halone : ∀ r ∈ x.1.bufs.refs, r.proc = p) :
    ∃ y, (logObserved P start d₀).step x (.run p) = some y ∧
      (y.1.panic = none ↔ x.1.lh.length < NBUF) := by
  have hI := LogInv.of_reachable hr
  obtain ⟨hbusy, hrec⟩ := OpPc.busy_of_commits hp
  have hup : x.1.phase = .up := (hI.committing (hI.commits p hbusy hrec)).1
  obtain ⟨next, hrun⟩ := LogSys.run_of_gets hget
  refine ⟨(x.1.bget p b next, x.2.upd x.1 (.run p)), Machine.observe_step.mpr ⟨?_, rfl⟩, ?_⟩
  · simp only [logMachine, LogSys.step, hpanic, hup, LogSys.stepUp]
    exact hrun
  · rw [LogSys.bget_panic_iff hpanic]
    refine ⟨fun hb => ?_, hI.bget_succeeds hp hget halone⟩
    by_contra hfull
    have hpc : x.1.pc p = .copy .writeLog 0 .getLog := by
      by_contra hpc
      exact hfull (Past.of_reachable hr p hp hpc)
    rw [hpc] at hget
    obtain rfl := Option.some.inj hget
    exact hb (hI.getLog_fails hpc (not_lt.mp hfull))

/-- A commit() of one block. -/
theorem commit_gets_buffers_iff_one : ∃ x y, (logObserved (Fin 1) 2 zeroDisk).Reachable x ∧
    (x.1.pc 0).commits = true ∧ (logObserved (Fin 1) 2 zeroDisk).step x (.run 0) = some y ∧
    (y.1.panic = none ↔ x.1.lh.length < NBUF) := by
  obtain ⟨x, hr, -, hpanic, hpc, hrefs, -⟩ := one_block
  have hr' := hr.mono fun _ _ _ => trivial
  have hp : (x.1.pc 0).commits = true := by rw [hpc]; rfl
  have hget : (x.1.pc 0).gets 2 x.1.lh = some 3 := by rw [hpc]; rfl
  obtain ⟨y, hs, hy⟩ := commit_gets_buffers_iff hr' hpanic hp hget (by simp [hrefs])
  exact ⟨x, y, hr', hp, hs, hy⟩

/-- Three operations of 10 blocks each end, and the last cannot commit them. -/
theorem commit_without_buffers : ∃ x y,
    (logObserved (Fin 3) 2 zeroDisk).ReachWhen (fun x a => within x a = true) x ∧
    (x.1.pc 2).commits = true ∧ (∀ r ∈ x.1.bufs.refs, r.proc = 2) ∧
    (logObserved (Fin 3) 2 zeroDisk).step x (.run 2) = some y ∧ y.1.panic = some .noBuffers := by
  obtain ⟨w, hr, -, hx⟩ := full_log
  obtain ⟨x, hexec, hx⟩ := Option.any_eq_true _ _ |>.mp hx
  simp only [Bool.and_eq_true, decide_eq_true_eq, List.isEmpty_iff] at hx
  obtain ⟨⟨hpc, hrefs⟩, hs⟩ := hx
  obtain ⟨y, hy, hpanic⟩ := Option.any_eq_true _ _ |>.mp hs
  exact ⟨x, y, hr.exec hexec, by rw [hpc]; rfl, by simp [hrefs], hy, by simpa using hpanic⟩

end Xv6
