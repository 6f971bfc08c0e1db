import Xv6.Reaping

/-!
# The tree of processes

The pids of the processes in the table differ, and the parent links form a tree with init at the
root. `Kernel.Linked` lists what a step can do to pids and parents, with one case, `keep`, for the
steps that leave both alone; `Kernel.Tree` is the invariant. A child gets its pid after its parent, so
the pid falls along every parent link (`Kernel.Tree.order`), which is why the links have no cycle and
end at init.
-/

namespace Xv6

open Function (update_self update_of_ne)

/-- In the tree : the process has been started, and no kwait has returned it. -/
def ProcState.started : ProcState → Bool
  | .sleeping | .runnable | .running | .zombie => true
  | _ => false

theorem ProcState.not_unused_of_started {t : ProcState} (h : t.started = true) : t ≠ .unused := by
  rintro rfl
  cases h

theorem ProcState.started_of_live {t : ProcState} (h : t.live = true) : t.started = true := by
  cases t with
  | unused | used => cases h
  | _ => rfl

theorem ProcState.not_unused_of_live {t : ProcState} (h : t.live = true) : t ≠ .unused := by
  rintro rfl
  cases h

/-- The child of a kfork in progress that has been given its parent. -/
def ThreadPc.linked : ThreadPc → Option Slot
  | forkRun np _ => some np
  | wakeup _ _ next => next.linked
  | _ => none

theorem ThreadPc.linked_of_forks {pc : ThreadPc} (h : pc.forks = none) : pc.linked = none := by
  induction pc with
  | wakeup _ _ _ ih => exact ih h
  | forkRun => cases h
  | _ => rfl

theorem ThreadPc.forks_of_linked {pc : ThreadPc} {x : Slot} (h : pc.linked = some x) :
    pc.forks = some x := by
  induction pc with
  | wakeup _ _ _ ih => exact ih h
  | forkRun => exact h
  | _ => cases h

/-- A change of a slot that keeps its process in its place in the tree. -/
structure Tie (q q' : Proc) : Prop where
  pid : q'.pid = q.pid
  parent : q'.parent = q.parent
  started : q'.state.started = true → q.state.started = true
  unused : q'.state = .unused ↔ q.state = .unused

namespace Tie

theorem refl (q : Proc) : Tie q q :=
  ⟨rfl, rfl, id, Iff.rfl⟩

theorem of_started {q q' : Proc} (hpid : q'.pid = q.pid) (hparent : q'.parent = q.parent)
    (h : q.state.started = true) (h' : q'.state.started = true) : Tie q q' :=
  ⟨hpid, hparent, fun _ => h, iff_of_false (ProcState.not_unused_of_started h')
    (ProcState.not_unused_of_started h)⟩

theorem wakeup (q : Proc) (chan : Option Chan) : Tie q (q.wakeup chan) := by
  unfold Proc.wakeup
  split_ifs with h
  · exact of_started rfl rfl (by rw [h.1]; rfl) rfl
  · exact refl q

theorem kkill (q : Proc) : Tie q q.kkill := by
  unfold Proc.kkill
  by_cases h : q.state = .sleeping
  · simp only [h, if_true]
    exact of_started rfl rfl (by rw [h]; rfl) rfl
  · simp only [h, if_false]
    exact ⟨rfl, rfl, id, Iff.rfl⟩

theorem of_slotStep {q q' : Proc} (h : SlotStep q q') (hparent : q'.parent = q.parent) : Tie q q' := by
  cases h with
  | refl => exact refl q
  | decay =>
    unfold Proc.decay
    split_ifs
    · exact ⟨rfl, rfl, id, Iff.rfl⟩
    · exact ⟨rfl, rfl, id, Iff.rfl⟩
    · exact refl q
  | waits hr => exact ⟨rfl, rfl, id, Iff.rfl⟩
  | wakeup chan => exact wakeup q chan
  | adopt r hne => exact ⟨rfl, hparent, id, Iff.rfl⟩

end Tie

/-- A step of the scheduler makes no pid. -/
theorem schedStep_nextpid {m m' : Mem} {l l' : Locals} {pc pc' : SchedPc}
    (h : schedStep m l pc = some (m', l', pc')) : m'.nextpid = m.nextpid := by
  have hafter : ∀ pass m₁ l₁, (afterScan pass m₁ l₁).1.nextpid = m₁.nextpid := by
    intro pass m₁ l₁
    unfold afterScan
    split <;> (try split) <;> rfl
  have hvisit : ∀ pass p, (visit pass p m l).1.nextpid = m.nextpid := by
    intro pass p
    cases pass with
    | step0 | passC => simp [visit]
    | step1 => rfl
    | passA =>
      simp only [visit, visitA, choose]
      split_ifs
      all_goals first | rfl | (split <;> rfl)
    | passB =>
      simp only [visit, visitB]
      split_ifs <;> rfl
    | step4 =>
      simp only [visit, visit4]
      split_ifs <;> rfl
  cases schedStep_cases h with
  | top | select | idle | gone => rfl
  | @next pass p _ _ _ hv =>
    have hp := hvisit pass p
    rwa [hv] at hp
  | @found pass p _ _ _ hv =>
    have hp := hvisit pass p
    rw [hv] at hp
    exact (hafter ..).trans hp
  | done => exact hafter ..
  | throttle =>
    unfold throttle
    dsimp only
    split_ifs <;> rfl
  | dispatch =>
    unfold dispatch
    dsimp only
    split_ifs <;> rfl

namespace Kernel

variable {n : ℕ}

/-- No kfork has a child it had not, and none has set a parent it had not. -/
structure Settled (s s' : Kernel n) : Prop where
  forks : ∀ r x, (s'.thread r).pc.forks = some x → (s.thread r).pc.forks = some x
  linked : ∀ r x, (s'.thread r).pc.linked = some x → (s.thread r).pc.linked = some x

/-- What a step does to the pids and the parents. -/
inductive Linked (s s' : Kernel n) : Prop
  /-- Nothing. -/
  | keep (htie : ∀ y, Tie (s.mem.proc y) (s'.mem.proc y)) (hnext : s'.mem.nextpid = s.mem.nextpid)
    (hpc : s.Settled s')
  /-- kfork gives the next pid to a child. -/
  | alloc (p x : Slot) (q : Proc) (hx : (s.mem.proc x).state = .unused)
    (hlive : (s.mem.proc p).state.live = true)
    (hproc : s'.mem.proc = Function.update s.mem.proc x q) (hq : q.state = .used)
    (hpid : q.pid = s.mem.nextpid) (hparent : q.parent = (s.mem.proc x).parent)
    (hnext : s'.mem.nextpid = s.mem.nextpid + 1)
    (hforks : ∀ r y, (s'.thread r).pc.forks = some y →
      (s.thread r).pc.forks = some y ∨ r = p ∧ y = x)
    (hlinked : ∀ r y, (s'.thread r).pc.linked = some y → (s.thread r).pc.linked = some y)
  /-- kfork sets the child's parent. -/
  | link (p x : Slot) (hp : (s.thread p).pc.forks = some x)
    (hproc : s'.mem.proc = Function.update s.mem.proc x { s.mem.proc x with parent := some p })
    (hnext : s'.mem.nextpid = s.mem.nextpid)
    (hforks : ∀ r y, (s'.thread r).pc.forks = some y → (s.thread r).pc.forks = some y)
    (hlinked : ∀ r y, (s'.thread r).pc.linked = some y → (s.thread r).pc.linked = some y ∨ y = x)
  /-- kfork starts the child. -/
  | start (p x : Slot) (hp : (s.thread p).pc.linked = some x) (hpf : (s.thread p).pc.forks = some x)
    (hproc : s'.mem.proc = Function.update s.mem.proc x { s.mem.proc x with state := .runnable })
    (hnext : s'.mem.nextpid = s.mem.nextpid) (hpc : s.Settled s')
  /-- `reparent` gives a child to init. -/
  | adopt (p x : Slot) (hx : (s.mem.proc x).parent = some p)
    (hproc : s'.mem.proc = Function.update s.mem.proc x { s.mem.proc x with parent := some initproc })
    (hnext : s'.mem.nextpid = s.mem.nextpid) (hpc : s.Settled s')
  /-- A slot is freed. -/
  | free (x : Slot) (q : Proc) (hx : (s.mem.proc x).state.live = false)
    (hused : (s.mem.proc x).state ≠ .used)
    (hproc : s'.mem.proc = Function.update s.mem.proc x q) (hq : q.state = .unused)
    (hparent : q.parent = none) (hnext : s.mem.nextpid ≤ s'.mem.nextpid) (hpc : s.Settled s')

variable {s s' : Kernel n} {c : Fin n} {a : KAct} {p : Slot}

theorem Settled.of_thread {t : Thread} (hthread : s'.thread = Function.update s.thread p t)
    (hforks : ∀ x, t.pc.forks = some x → (s.thread p).pc.forks = some x)
    (hlinked : ∀ x, t.pc.linked = some x → (s.thread p).pc.linked = some x) : s.Settled s' := by
  refine ⟨fun r x hr => ?_, fun r x hr => ?_⟩
  · by_cases hrp : r = p
    · subst hrp
      rw [hthread, update_self] at hr
      exact hforks x hr
    · rwa [hthread, update_of_ne hrp] at hr
  · by_cases hrp : r = p
    · subst hrp
      rw [hthread, update_self] at hr
      exact hlinked x hr
    · rwa [hthread, update_of_ne hrp] at hr

/-- The thread of `p` goes on without a child. -/
theorem Settled.goto {t : Thread} (hthread : s'.thread = Function.update s.thread p t)
    (h : t.pc.forks = none) : s.Settled s' := by
  refine .of_thread hthread (fun x hx => ?_) fun x hx => ?_
  · rw [h] at hx
    cases hx
  · rw [ThreadPc.linked_of_forks h] at hx
    cases hx

theorem Settled.of_pc (h : ∀ r, (s'.thread r).pc = (s.thread r).pc) : s.Settled s' :=
  ⟨fun r x hx => by rwa [h] at hx, fun r x hx => by rwa [h] at hx⟩

theorem tie_of_update {x : Slot} {q : Proc} (hproc : s'.mem.proc = Function.update s.mem.proc x q)
    (hq : Tie (s.mem.proc x) q) (y : Slot) : Tie (s.mem.proc y) (s'.mem.proc y) := by
  rw [hproc]
  by_cases hy : y = x
  · subst hy
    rwa [update_self]
  · rw [update_of_ne hy]
    exact .refl _

theorem Linked.idle (hproc : s'.mem.proc = s.mem.proc) (hnext : s'.mem.nextpid = s.mem.nextpid)
    (hpc : s.Settled s') : s.Linked s' :=
  .keep (fun y => by rw [hproc]; exact .refl _) hnext hpc

theorem sleep_linked {chan : Chan} (hr : (s.mem.proc p).state = .running) :
    s.Linked (s.sleep c p chan) := by
  refine .keep (tie_of_update (x := p) rfl (.of_started rfl rfl (by rw [hr]; rfl) rfl)) rfl (.of_pc ?_)
  intro r
  by_cases hrp : r = p
  · subst hrp
    simp [sleep, sched, setCpu, setThread, setProc]
  · simp [sleep, sched, setCpu, setThread, setProc, hrp]

theorem call_linked {x : Call} (hr : (s.mem.proc p).state = .running)
    (h : s.call c p x = some s') : s.Linked s' := by
  cases x with
  | fork | kill | wait | wakeup =>
    cases h
    exact .idle rfl rfl (.goto rfl rfl)
  | exit status =>
    simp only [call, Option.ite_none_left_eq_some, Option.some.injEq] at h
    obtain ⟨-, rfl⟩ := h
    exact .idle rfl rfl (.goto rfl rfl)
  | die intena =>
    obtain ⟨-, rfl⟩ := of_guard h
    exact .idle rfl rfl (.goto rfl rfl)
  | sleep | pause =>
    cases h
    exact sleep_linked hr
  | setkilled | exec | growproc =>
    cases h
    exact .keep (tie_of_update (x := p) rfl ⟨rfl, rfl, id, Iff.rfl⟩) rfl (.of_pc fun _ => rfl)

theorem callExiting_linked {status : Int} {x : Call} (hr : (s.mem.proc p).state = .running)
    (h : s.callExiting c p status x = some s') : s.Linked s' := by
  cases x with
  | sleep =>
    cases h
    exact sleep_linked hr
  | wakeup =>
    cases h
    exact .idle rfl rfl (.goto rfl rfl)
  | _ => cases h

theorem forkAlloc_linked {x : Slot} {ok : Bool} (hr : (s.mem.proc p).state = .running)
    (hx : (s.mem.proc x).state = .unused) : s.Linked (s.forkAlloc p x ok) := by
  cases ok with
  | false =>
    have hnext : s.mem.nextpid ≤ s.mem.nextpid + 1 := by omega
    exact .free x _ (by rw [hx]; rfl) (by simp [hx]) rfl rfl rfl hnext (.goto (p := p) rfl rfl)
  | true =>
    have hpc : ∀ r, ((s.forkAlloc p x true).thread r).pc =
        if r = p then .forkParent x s.mem.nextpid else if r = x then .user else (s.thread r).pc := by
      intro r
      simp only [forkAlloc, if_true, goto, setThread, setProc]
      by_cases hrp : r = p
      · simp [hrp]
      · by_cases hrx : r = x
        · subst hrx
          simp [hrp, Thread.forkret]
        · simp [hrp, hrx]
    refine .alloc p x _ hx (by rw [hr]; rfl) rfl rfl rfl rfl rfl (fun r y hy => ?_) fun r y hy => ?_
    · rw [hpc] at hy
      split_ifs at hy with hrp hrx
      · exact Or.inr ⟨hrp, (Option.some.inj hy).symm⟩
      · cases hy
      · exact Or.inl hy
    · rw [hpc] at hy
      split_ifs at hy with hrp hrx
      · cases hy
      · cases hy
      · exact hy

theorem run_linked {ok : Bool} (hr : (s.mem.proc p).state = .running)
    (h : s.run c p ok = some s') : s.Linked s' := by
  unfold run at h
  split at h
  case h_1 => cases h
  case h_2 =>
    cases h
    exact .idle rfl rfl (.goto (p := p) rfl rfl)
  case h_3 x todo hpc =>
    cases h
    split_ifs with hx
    · exact forkAlloc_linked hr hx
    · exact .idle rfl rfl (.goto (p := p) rfl rfl)
  case h_4 np pid hpc =>
    obtain ⟨-, rfl⟩ := of_guard h
    refine .link p np (by rw [hpc]; rfl) rfl rfl (fun r y hy => ?_) fun r y hy => ?_
    · by_cases hrp : r = p
      · subst hrp
        rw [hpc]
        simpa [goto, setThread, ThreadPc.forks] using hy
      · simpa [goto, setThread, setProc, hrp] using hy
    · by_cases hrp : r = p
      · subst hrp
        simp only [goto, setThread, update_self, ThreadPc.linked, Option.some.injEq] at hy
        exact Or.inr hy.symm
      · simp only [goto, setThread, setProc, update_of_ne hrp] at hy
        exact Or.inl hy
  case h_5 np pid hpc =>
    cases h
    exact .start p np (by rw [hpc]; rfl) (by rw [hpc]; rfl) rfl rfl (.goto (p := p) rfl rfl)
  case h_6 =>
    cases h
    exact .idle rfl rfl (.goto (p := p) rfl rfl)
  case h_7 pid x todo hpc =>
    cases h
    split_ifs with hx
    · exact .keep (tie_of_update (x := x) rfl (.kkill _)) rfl (.goto (p := p) rfl rfl)
    · exact .idle rfl rfl (.goto (p := p) rfl rfl)
  case h_8 chan next hpc =>
    cases h
    exact .idle rfl rfl (.of_thread (p := p) rfl (fun x hx => by rw [hpc]; exact hx)
      fun x hx => by rw [hpc]; exact hx)
  case h_9 chan x todo next hpc =>
    cases h
    have hset : ∀ r : Kernel n, r.thread = s.thread →
        s.Settled (r.goto p (.wakeup chan todo next)) := by
      intro r hthread
      refine .of_thread (p := p) (by rw [goto, setThread, hthread]) (fun y hy => ?_) fun y hy => ?_
      · rw [hpc]
        exact hy
      · rw [hpc]
        exact hy
    split_ifs with hxp
    · exact .idle rfl rfl (hset s rfl)
    · exact .keep (tie_of_update (x := x) rfl (.wakeup _ chan)) rfl (hset _ rfl)
  case h_10 =>
    obtain ⟨-, rfl⟩ := of_guard h
    exact .idle rfl rfl (.goto (p := p) rfl rfl)
  case h_11 =>
    cases h
    exact .idle rfl rfl (.goto (p := p) rfl rfl)
  case h_12 status x todo hpc =>
    cases h
    split_ifs with hx
    · exact .adopt p x hx rfl rfl (.goto (p := p) rfl rfl)
    · exact .idle rfl rfl (.goto (p := p) rfl rfl)
  case h_13 status hpc =>
    cases h
    exact .keep (tie_of_update (x := p) rfl (.of_started rfl rfl (by rw [hr]; rfl) rfl)) rfl
      (.of_pc fun _ => rfl)
  case h_14 =>
    obtain ⟨-, rfl⟩ := of_guard h
    exact .idle rfl rfl (.goto (p := p) rfl rfl)
  case h_15 =>
    cases h
    split_ifs
    · exact .idle rfl rfl (.goto (p := p) rfl rfl)
    · exact .idle rfl rfl (.goto (p := p) rfl rfl)
  case h_16 addr havekids x todo hpc =>
    cases h
    split_ifs with hpar hz
    · unfold reap
      dsimp only
      by_cases hfail : (addr && !ok) = true
      · rw [if_pos hfail]
        exact .idle rfl rfl (.goto (p := p) rfl rfl)
      · rw [if_neg hfail]
        exact .free x _ (by rw [hz]; rfl) (by simp [hz]) rfl rfl rfl le_rfl (.goto (p := p) rfl rfl)
    · exact .idle rfl rfl (.goto (p := p) rfl rfl)
    · exact .idle rfl rfl (.goto (p := p) rfl rfl)
  case h_17 =>
    cases h
    split_ifs
    · exact .idle rfl rfl (.goto (p := p) rfl rfl)
    · exact .idle rfl rfl (.goto (p := p) rfl rfl)
  case h_18 addr hpc =>
    cases h
    refine .keep (tie_of_update (x := p) rfl (.of_started rfl rfl (by rw [hr]; rfl) rfl)) rfl
      (.goto (p := p) (t := { s.thread p with pc := .waitLock addr, inSleep := true }) ?_ rfl)
    simp [sleep, sched, setCpu, setThread, setProc, goto, setWaitLock]

theorem handle_linked {i : Intr} (hrunning : ∀ p, (s.cpu c).proc = some p →
    (s.mem.proc p).state = .running) (h : s.handle c i = some s') : s.Linked s' := by
  have hpc : ∀ {r : Kernel n}, r.thread = s.thread → s.Settled r := fun hr =>
    .of_pc fun x => by rw [hr]
  cases i with
  | wakeup chan todo timer user =>
    cases todo with
    | nil =>
      cases h
      exact .idle rfl rfl (hpc rfl)
    | cons x todo =>
      cases h
      split_ifs with hx
      · exact .idle rfl rfl (hpc rfl)
      · exact .keep (tie_of_update (x := x) rfl (.wakeup _ _)) rfl (hpc rfl)
  | temp user =>
    cases h
    exact .idle rfl rfl (hpc rfl)
  | killed timer =>
    obtain ⟨p, hrun, h⟩ := Option.bind_eq_some_iff.mp h
    split_ifs at h
    · cases h
      exact .idle rfl rfl (.goto (p := p) rfl rfl)
    · cases h
      exact .idle rfl rfl (hpc rfl)
    · cases h
      exact .idle rfl rfl (hpc rfl)
  | yield =>
    obtain ⟨p, hrun, rfl⟩ := Option.map_eq_some_iff.mp h
    exact .keep (tie_of_update (x := p) rfl (.of_started rfl rfl (by rw [hrunning p hrun]; rfl) rfl))
      rfl (hpc rfl)

theorem schedule_linked (h : s.schedule c = some s') : s.Linked s' := by
  obtain ⟨m, l, pc, hstep, -, ⟨x, q, hproc, hq⟩, rfl⟩ | ⟨p, -, -, hr, rfl⟩ := schedule_cases h
  · refine .keep (tie_of_update hproc (.of_slotStep hq ?_)) (schedStep_nextpid hstep)
      (.of_pc fun _ => rfl)
    have hp := (schedStep_sameKin hstep).2 x
    rwa [hproc, update_self] at hp
  · obtain ⟨⟨chan, hproc⟩, -, hthread, -⟩ := resume_eq ({ s with
      mem := dispatch s.mem (s.cpu c).loc p }.setCpu c { s.cpu c with pc := .swtch }) c p
    refine .keep (tie_of_update (x := p) (q := { s.mem.proc p with
      state := .running, waitingTick := 0, heat := (s.mem.proc p).heated, chan := chan })
      (hproc.trans ?_) (.of_started rfl rfl (by rw [hr]; rfl) rfl)) ?_ (.of_pc hthread)
    · simp [setCpu, Function.update_idem]
    · unfold resume dispatch
      dsimp only
      split_ifs <;> rfl

/-- What a step does to the pids and the parents. -/
theorem step_linked (hplaced : s.Placed) (h : s.step c a = some s') : s.Linked s' := by
  have hrunning : ∀ p, (s.cpu c).proc = some p → (s.mem.proc p).state = .running :=
    fun p hp => (hplaced.running p).mpr ⟨c, hp⟩
  unfold step at h
  split at h
  case h_1 i hi => exact handle_linked hrunning h
  case h_2 user hi =>
    obtain ⟨-, rfl⟩ := of_guard h
    unfold tick
    split_ifs
    · exact .idle rfl rfl (.of_pc fun _ => rfl)
    · exact .idle rfl rfl (.of_pc fun _ => rfl)
  case h_3 addr user hi =>
    obtain ⟨-, rfl⟩ := of_guard h
    exact .idle rfl rfl (.of_pc fun _ => rfl)
  case h_4 hi hidle => exact schedule_linked h
  case h_5 ok p hi hrun => exact run_linked (hrunning p hrun) h
  case h_6 x p hi hrun =>
    split at h
    · exact call_linked (hrunning p hrun) h
    · exact callExiting_linked (hrunning p hrun) h
    · cases h
  case h_7 => cases h

/-! ## The invariant -/

/-- The pids differ, and the parent links lead to init. -/
structure Tree (s : Kernel n) : Prop where
  pid : ∀ x, (s.mem.proc x).state ≠ .unused →
    0 < (s.mem.proc x).pid ∧ (s.mem.proc x).pid < s.mem.nextpid
  distinct : ∀ x y, (s.mem.proc x).state ≠ .unused → (s.mem.proc y).state ≠ .unused →
    (s.mem.proc x).pid = (s.mem.proc y).pid → x = y
  root : (s.mem.proc initproc).pid = 1 ∧ (s.mem.proc initproc).parent = none
  forks : ∀ r x, (s.thread r).pc.forks = some x → (s.mem.proc r).pid < (s.mem.proc x).pid
  linked : ∀ r x, (s.thread r).pc.linked = some x → (s.mem.proc x).parent ≠ none
  parent : ∀ x, (s.mem.proc x).state.started = true → x ≠ initproc → (s.mem.proc x).parent ≠ none
  order : ∀ x r, (s.mem.proc x).parent = some r → (s.mem.proc r).pid < (s.mem.proc x).pid

theorem boot_tree (n : ℕ) : (boot n).Tree := by
  have hunused : ∀ x, x ≠ initproc → ((boot n).mem.proc x).state = .unused := fun x hx => by
    rw [boot_state hx]
    rfl
  have honly : ∀ x, ((boot n).mem.proc x).state ≠ .unused → x = initproc := fun x hx =>
    by_contra fun hne => hx (hunused x hne)
  refine ⟨fun x hx => ?_, fun x y hx hy _ => ?_, ⟨rfl, rfl⟩, fun r x h => ?_, fun r x h => ?_,
    fun x hx hne => ?_, fun x r hr => ?_⟩
  · obtain rfl := honly x hx
    exact ⟨Int.one_pos, by change (1 : Int) < 2; decide⟩
  · rw [honly x hx, honly y hy]
  · cases h
  · cases h
  · rw [hunused x hne] at hx
    cases hx
  · by_cases hx : x = initproc
    · subst hx
      cases hr
    · rw [boot_state hx] at hr
      cases hr

variable {h : Family}

theorem Tree.one_lt (ht : s.Tree) (hl : s.Lineage h) {x : Slot}
    (hx : (s.mem.proc x).state ≠ .unused) (hne : x ≠ initproc) : 1 < (s.mem.proc x).pid := by
  have hpos := (ht.pid x hx).1
  have hone : (s.mem.proc x).pid ≠ 1 := fun h1 =>
    hne (ht.distinct x initproc hx (ProcState.not_unused_of_live hl.initproc)
      (h1.trans ht.root.1.symm))
  omega

/-- A process that has a parent is in the table. -/
theorem Lineage.used {x r : Slot} (hl : s.Lineage h)
    (hx : (s.mem.proc x).parent = some r) : (s.mem.proc x).state ≠ .unused := by
  intro hu
  rw [hl.orphan x hu] at hx
  cases hx

theorem Tree.keep (ht : s.Tree) (htie : ∀ y, Tie (s.mem.proc y) (s'.mem.proc y))
    (hnext : s'.mem.nextpid = s.mem.nextpid) (hpc : s.Settled s') : s'.Tree := by
  have hunused : ∀ x, (s'.mem.proc x).state ≠ .unused → (s.mem.proc x).state ≠ .unused :=
    fun x hx hu => hx ((htie x).unused.mpr hu)
  refine ⟨fun x hx => ?_, fun x y hx hy hxy => ?_, ?_, fun r x hr => ?_, fun r x hr => ?_,
    fun x hx hne => ?_, fun x r hr => ?_⟩
  · rw [(htie x).pid, hnext]
    exact ht.pid x (hunused x hx)
  · rw [(htie x).pid, (htie y).pid] at hxy
    exact ht.distinct x y (hunused x hx) (hunused y hy) hxy
  · rw [(htie initproc).pid, (htie initproc).parent]
    exact ht.root
  · rw [(htie r).pid, (htie x).pid]
    exact ht.forks r x (hpc.forks r x hr)
  · rw [(htie x).parent]
    exact ht.linked r x (hpc.linked r x hr)
  · rw [(htie x).parent]
    exact ht.parent x ((htie x).started hx) hne
  · rw [(htie x).parent] at hr
    rw [(htie r).pid, (htie x).pid]
    exact ht.order x r hr

/-- kfork gives the child a pid above all the others. -/
theorem Tree.alloc {x : Slot} {q : Proc} (ht : s.Tree) (hl : s.Lineage h)
    (hplaced : s.Placed) (hx : (s.mem.proc x).state = .unused)
    (hlive : (s.mem.proc p).state.live = true)
    (hproc : s'.mem.proc = Function.update s.mem.proc x q) (hq : q.state = .used)
    (hpid : q.pid = s.mem.nextpid) (hparent : q.parent = (s.mem.proc x).parent)
    (hnext : s'.mem.nextpid = s.mem.nextpid + 1)
    (hforks : ∀ r y, (s'.thread r).pc.forks = some y →
      (s.thread r).pc.forks = some y ∨ r = p ∧ y = x)
    (hlinked : ∀ r y, (s'.thread r).pc.linked = some y → (s.thread r).pc.linked = some y) :
    s'.Tree := by
  have hother : ∀ {y}, y ≠ x → s'.mem.proc y = s.mem.proc y := fun hy => by
    rw [hproc, update_of_ne hy]
  have hself : s'.mem.proc x = q := by rw [hproc, update_self]
  have hne : ∀ {y}, (s.mem.proc y).state.live = true → y ≠ x := by
    rintro y hy rfl
    rw [hx] at hy
    cases hy
  have hbelow : ∀ y, y ≠ x → (s'.mem.proc y).state ≠ .unused →
      0 < (s.mem.proc y).pid ∧ (s.mem.proc y).pid < s.mem.nextpid := fun y hy hu =>
    ht.pid y (hother hy ▸ hu)
  have horphan : q.parent = none := hparent.trans (hl.orphan x hx)
  have hinit : initproc ≠ x := hne hl.initproc
  have hone := ht.pid initproc (ProcState.not_unused_of_live hl.initproc)
  refine ⟨fun y hy => ?_, fun y z hy hz hyz => ?_, ?_, fun r y hr => ?_, fun r y hr => ?_,
    fun y hy hyi => ?_, fun y r hr => ?_⟩
  · by_cases hyx : y = x
    · subst hyx
      rw [hself, hpid, hnext]
      omega
    · have := hbelow y hyx hy
      rw [hother hyx, hnext]
      omega
  · by_cases hyx : y = x
    · by_cases hzx : z = x
      · rw [hyx, hzx]
      · have := hbelow z hzx hz
        rw [hyx, hself, hpid, hother hzx] at hyz
        omega
    · by_cases hzx : z = x
      · have := hbelow y hyx hy
        rw [hzx, hself, hpid, hother hyx] at hyz
        omega
      · rw [hother hyx, hother hzx] at hyz
        rw [hother hyx] at hy
        rw [hother hzx] at hz
        exact ht.distinct y z hy hz hyz
  · rw [hother hinit]
    exact ht.root
  · obtain hr | ⟨rfl, rfl⟩ := hforks r y hr
    · have hyx : y ≠ x := by
        rintro rfl
        rw [hplaced.forked r y hr] at hx
        cases hx
      rw [hother (hne (hl.forks r y hr).1), hother hyx]
      exact ht.forks r y hr
    · rw [hother (hne hlive), hself, hpid]
      exact (ht.pid r (ProcState.not_unused_of_live hlive)).2
  · have hr := hlinked r y hr
    have hyx : y ≠ x := by
      rintro rfl
      exact ht.linked r y hr (hl.orphan y hx)
    rw [hother hyx]
    exact ht.linked r y hr
  · by_cases hyx : y = x
    · rw [hyx, hself, hq] at hy
      cases hy
    · rw [hother hyx] at hy ⊢
      exact ht.parent y hy hyi
  · by_cases hyx : y = x
    · rw [hyx, hself, horphan] at hr
      cases hr
    · rw [hother hyx] at hr ⊢
      rw [hother (hne (hl.alive y r hr))]
      exact ht.order y r hr

/-- A child is given a parent whose pid is below its own. -/
theorem Tree.reparent {x r : Slot} (ht : s.Tree) (hx : x ≠ initproc)
    (hr : (s.mem.proc r).pid < (s.mem.proc x).pid)
    (hproc : s'.mem.proc = Function.update s.mem.proc x { s.mem.proc x with parent := some r })
    (hnext : s'.mem.nextpid = s.mem.nextpid)
    (hforks : ∀ r y, (s'.thread r).pc.forks = some y → (s.thread r).pc.forks = some y)
    (hlinked : ∀ r y, (s'.thread r).pc.linked = some y → (s.thread r).pc.linked = some y ∨ y = x) :
    s'.Tree := by
  have hother : ∀ {y}, y ≠ x → s'.mem.proc y = s.mem.proc y := fun hy => by
    rw [hproc, update_of_ne hy]
  have hself : s'.mem.proc x = { s.mem.proc x with parent := some r } := by
    rw [hproc, update_self]
  have hsame : ∀ y, (s'.mem.proc y).state = (s.mem.proc y).state ∧
      (s'.mem.proc y).pid = (s.mem.proc y).pid := by
    intro y
    by_cases hy : y = x
    · subst hy
      rw [hself]
      exact ⟨rfl, rfl⟩
    · rw [hother hy]
      exact ⟨rfl, rfl⟩
  refine ⟨fun y hy => ?_, fun y z hy hz hyz => ?_, ?_, fun q y hq => ?_, fun q y hq => ?_,
    fun y hy hyi => ?_, fun y q hq => ?_⟩
  · rw [(hsame y).1] at hy
    rw [(hsame y).2, hnext]
    exact ht.pid y hy
  · rw [(hsame y).1] at hy
    rw [(hsame z).1] at hz
    rw [(hsame y).2, (hsame z).2] at hyz
    exact ht.distinct y z hy hz hyz
  · rw [hother hx.symm]
    exact ht.root
  · rw [(hsame q).2, (hsame y).2]
    exact ht.forks q y (hforks q y hq)
  · by_cases hyx : y = x
    · rw [hyx, hself]
      simp
    · rw [hother hyx]
      exact ht.linked q y ((hlinked q y hq).resolve_right hyx)
  · by_cases hyx : y = x
    · rw [hyx, hself]
      simp
    · rw [hother hyx] at hy ⊢
      exact ht.parent y hy hyi
  · rw [(hsame q).2, (hsame y).2]
    by_cases hyx : y = x
    · subst hyx
      rw [hself] at hq
      cases hq
      exact hr
    · rw [hother hyx] at hq
      exact ht.order y q hq

/-- A child that has its parent is started. -/
theorem Tree.start {x : Slot} (ht : s.Tree) (hplaced : s.Placed)
    (hp : (s.thread p).pc.linked = some x) (hpf : (s.thread p).pc.forks = some x)
    (hproc : s'.mem.proc = Function.update s.mem.proc x { s.mem.proc x with state := .runnable })
    (hnext : s'.mem.nextpid = s.mem.nextpid) (hpc : s.Settled s') : s'.Tree := by
  have hother : ∀ {y}, y ≠ x → s'.mem.proc y = s.mem.proc y := fun hy => by
    rw [hproc, update_of_ne hy]
  have hself : s'.mem.proc x = { s.mem.proc x with state := .runnable } := by
    rw [hproc, update_self]
  have hsame : ∀ y, (s'.mem.proc y).pid = (s.mem.proc y).pid ∧
      (s'.mem.proc y).parent = (s.mem.proc y).parent := by
    intro y
    by_cases hy : y = x
    · subst hy
      rw [hself]
      exact ⟨rfl, rfl⟩
    · rw [hother hy]
      exact ⟨rfl, rfl⟩
  have hused : ∀ {y}, (s'.mem.proc y).state ≠ .unused → (s.mem.proc y).state ≠ .unused := by
    intro y hy
    by_cases hyx : y = x
    · rw [hyx, hplaced.forked p x hpf]
      simp
    · rwa [hother hyx] at hy
  refine ⟨fun y hy => ?_, fun y z hy hz hyz => ?_, ?_, fun r y hr => ?_, fun r y hr => ?_,
    fun y hy hyi => ?_, fun y r hr => ?_⟩
  · rw [(hsame y).1, hnext]
    exact ht.pid y (hused hy)
  · rw [(hsame y).1, (hsame z).1] at hyz
    exact ht.distinct y z (hused hy) (hused hz) hyz
  · rw [(hsame initproc).1, (hsame initproc).2]
    exact ht.root
  · rw [(hsame r).1, (hsame y).1]
    exact ht.forks r y (hpc.forks r y hr)
  · rw [(hsame y).2]
    exact ht.linked r y (hpc.linked r y hr)
  · rw [(hsame y).2]
    by_cases hyx : y = x
    · exact hyx ▸ ht.linked p x hp
    · rw [hother hyx] at hy
      exact ht.parent y hy hyi
  · rw [(hsame y).2] at hr
    rw [(hsame r).1, (hsame y).1]
    exact ht.order y r hr

/-- A slot that has no children is freed. -/
theorem Tree.free {x : Slot} {q : Proc} (ht : s.Tree) (hl : s.Lineage h) (hplaced : s.Placed)
    (hx : (s.mem.proc x).state.live = false) (hxused : (s.mem.proc x).state ≠ .used)
    (hproc : s'.mem.proc = Function.update s.mem.proc x q) (hq : q.state = .unused)
    (hparent : q.parent = none) (hnext : s.mem.nextpid ≤ s'.mem.nextpid) (hpc : s.Settled s') :
    s'.Tree := by
  have hother : ∀ {y}, y ≠ x → s'.mem.proc y = s.mem.proc y := fun hy => by
    rw [hproc, update_of_ne hy]
  have hself : s'.mem.proc x = q := by rw [hproc, update_self]
  have hne : ∀ {y}, (s.mem.proc y).state.live = true → y ≠ x := by
    rintro y hy rfl
    rw [hx] at hy
    cases hy
  have hold : ∀ {y}, (s'.mem.proc y).state ≠ .unused → y ≠ x := by
    rintro y hy rfl
    exact hy (by rw [hself, hq])
  have hforked : ∀ {r y}, (s.thread r).pc.forks = some y → y ≠ x := by
    rintro r y hr rfl
    exact hxused (hplaced.forked r y hr)
  refine ⟨fun y hy => ?_, fun y z hy hz hyz => ?_, ?_, fun r y hr => ?_, fun r y hr => ?_,
    fun y hy hyi => ?_, fun y r hr => ?_⟩
  · have hyx := hold hy
    rw [hother hyx] at hy ⊢
    exact ⟨(ht.pid y hy).1, (ht.pid y hy).2.trans_le hnext⟩
  · rw [hother (hold hy), hother (hold hz)] at hyz
    have hy' := hother (hold hy) ▸ hy
    have hz' := hother (hold hz) ▸ hz
    exact ht.distinct y z hy' hz' hyz
  · rw [hother (hne hl.initproc)]
    exact ht.root
  · have hr := hpc.forks r y hr
    rw [hother (hne (hl.forks r y hr).1), hother (hforked hr)]
    exact ht.forks r y hr
  · have hr := hpc.linked r y hr
    rw [hother (hforked (ThreadPc.forks_of_linked hr))]
    exact ht.linked r y hr
  · have hyx := hold (ProcState.not_unused_of_started hy)
    rw [hother hyx] at hy ⊢
    exact ht.parent y hy hyi
  · by_cases hyx : y = x
    · rw [hyx, hself, hparent] at hr
      cases hr
    · rw [hother hyx] at hr ⊢
      rw [hother (hne (hl.alive y r hr))]
      exact ht.order y r hr

/-- Every step keeps the tree. -/
theorem Tree.step (ht : s.Tree) (hl : s.Lineage h) (hplaced : s.Placed)
    (hs : s.step c a = some s') : s'.Tree := by
  cases step_linked hplaced hs with
  | keep htie hnext hpc => exact ht.keep htie hnext hpc
  | alloc p x q hx hlive hproc hq hpid hparent hnext hforks hlinked =>
    exact ht.alloc hl hplaced hx hlive hproc hq hpid hparent hnext hforks hlinked
  | link p x hp hproc hnext hforks hlinked =>
    refine ht.reparent ?_ (ht.forks p x hp) hproc hnext hforks hlinked
    rintro rfl
    have hi := hl.initproc
    rw [hplaced.forked p _ hp] at hi
    cases hi
  | start p x hp hpf hproc hnext hpc => exact ht.start hplaced hp hpf hproc hnext hpc
  | adopt p x hx hproc hnext hpc =>
    have hne : x ≠ initproc := by
      rintro rfl
      rw [ht.root.2] at hx
      cases hx
    refine ht.reparent hne ?_ hproc hnext hpc.forks fun r y hr => Or.inl (hpc.linked r y hr)
    rw [ht.root.1]
    exact ht.one_lt hl (hl.used hx) hne
  | free x q hx hused hproc hq hparent hnext hpc =>
    exact ht.free hl hplaced hx hused hproc hq hparent hnext hpc

theorem exists_lineage (hr : (kernelMachine n).Reachable s) : ∃ h, s.Lineage h := by
  obtain ⟨h, hx⟩ := hr.observed Family.start fun h s a => ((s.event a.1 a.2).map h.record).getD h
  exact ⟨h, lineage_of_reachable hx⟩

theorem tree_of_reachable (hr : (kernelMachine n).Reachable s) : s.Tree :=
  hr.invariant (I := Tree) (fun _ h0 => h0 ▸ boot_tree n) fun _ _ _ hr ht _ hs => by
    obtain ⟨h, hl⟩ := exists_lineage hr
    exact ht.step hl (placed_of_reachWhen hr) hs

/-- `r` is the parent of `x`. -/
def Parent (s : Kernel n) (x r : Slot) : Prop :=
  (s.mem.proc x).parent = some r

/-- The pid falls along the parent links. -/
theorem Tree.order_trans {x r : Slot} (ht : s.Tree) (h : Relation.TransGen s.Parent x r) :
    (s.mem.proc r).pid < (s.mem.proc x).pid := by
  induction h with
  | single h => exact ht.order _ _ h
  | tail _ h ih => exact (ht.order _ _ h).trans ih

/-- The parent links lead to init. -/
theorem Tree.to_init (ht : s.Tree) (hl : s.Lineage h) {x : Slot}
    (hx : (s.mem.proc x).state.started = true) (hne : x ≠ initproc) :
    Relation.TransGen s.Parent x initproc := by
  -- by induction on the pid, which is positive
  induction hk : (s.mem.proc x).pid.toNat using Nat.strong_induction_on generalizing x with
  | _ k ih =>
    obtain ⟨r, hr⟩ := Option.ne_none_iff_exists'.mp (ht.parent x hx hne)
    by_cases hri : r = initproc
    · exact .single (hri ▸ hr)
    · have hlive := hl.alive x r hr
      have hpos := (ht.pid r (ProcState.not_unused_of_live hlive)).1
      have hlt := ht.order x r hr
      have hstart : (s.mem.proc r).state.started = true := ProcState.started_of_live hlive
      exact .head hr (ih _ (by omega) hstart hri rfl)

end Kernel

/-- The pids of the processes in the table are positive and differ, and from every process that has
been started the parent links, which have no cycle, lead to init through processes that have not
exited. -/
theorem process_tree {n : ℕ} {s : Kernel n} (h : (kernelMachine n).Reachable s) :
    (∀ x, (s.mem.proc x).state ≠ .unused → 0 < (s.mem.proc x).pid) ∧
    (∀ x y, (s.mem.proc x).state ≠ .unused → (s.mem.proc y).state ≠ .unused →
      (s.mem.proc x).pid = (s.mem.proc y).pid → x = y) ∧
    (∀ x, (s.mem.proc x).state.started = true → x ≠ initproc →
      (∃ r, (s.mem.proc x).parent = some r ∧ (s.mem.proc r).state ≠ .unused ∧
        (s.mem.proc r).state ≠ .zombie) ∧ Relation.TransGen s.Parent x initproc) ∧
    ∀ x, ¬ Relation.TransGen s.Parent x x := by
  obtain ⟨f, hl⟩ := Kernel.exists_lineage h
  have ht := Kernel.tree_of_reachable h
  refine ⟨fun x hx => (ht.pid x hx).1, ht.distinct, fun x hx hne => ⟨?_, ht.to_init hl hx hne⟩,
    fun x hx => lt_irrefl _ (ht.order_trans hx)⟩
  obtain ⟨r, hr⟩ := Option.ne_none_iff_exists'.mp (ht.parent x hx hne)
  have hlive := hl.alive x r hr
  refine ⟨r, hr, ProcState.not_unused_of_live hlive, fun hz => ?_⟩
  rw [hz] at hlive
  cases hlive

/-- Init forks, and the child's parent links lead to it. -/
theorem process_tree_child : ∃ s : Kernel 1, (kernelMachine 1).Reachable s ∧
    (s.mem.proc 1).state.started = true ∧ Relation.TransGen s.Parent 1 initproc := by
  obtain ⟨s, hreach, hcalm, hruns, hproc, -⟩ := Kernel.boot_runs (n := 1) 0
  have hinit : (s.mem.proc initproc).state ≠ .unused := by
    rw [hproc]
    simp [Mem.dispatched]
  obtain ⟨s', hlead, -, -, hproc', -⟩ := Kernel.leads_fork (x := 1) hcalm hruns
    (by rw [hproc]; rfl) hinit fun y hy => by
      obtain rfl : y = initproc := Fin.ext (Nat.lt_one_iff.mp hy)
      exact hinit
  have hstart : (s'.mem.proc 1).state.started = true := by
    rw [hproc', Function.update_self]
    rfl
  have hreach' := hreach.leads hlead
  exact ⟨s', hreach', hstart, ((process_tree hreach').2.2.1 1 hstart (by decide)).2⟩

end Xv6
