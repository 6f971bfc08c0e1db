import Xv6.PipeExclusion

/-!
# The byte stream of a pipe

Whoever is between `peterson_enter` and `peterson_exit` owns the ring, the counters and the
two ends of the stream. `Frame.Asserts` says, for each point of the code, what the owner knows
there : what it loaded is still what the pipe holds, a cell is free, a byte is there, and
how far the counters are from the bytes stored and delivered in the two places where a
statement is half done. Outside the section the ring is in step with the stream
(`Sys.Idle`). One step of the owner keeps that (`Sys.run_leaves`, `Sys.step_leaves`), no
other process touches it (`Sys.step_outside`), and so it holds in every state of every run that
keeps the processes apart (`owned_of_soleEntry`), the one writer and one reader of `pair_stream`
among them.
-/

set_option linter.unusedSectionVars false

namespace Xv6

variable {P : Type}

namespace Sys

/-- The ring holds what was stored and not delivered, and the counters count both. -/
def Idle (s : Sys P) : Prop :=
  Ring.Holds s.pipe.data s.pipe.nread s.pipe.nwrite s.stored s.delivered.length

/-- A byte has been delivered that `nread` does not count yet. -/
def Ahead (s : Sys P) : Prop :=
  ∃ r, s.delivered.length = r + 1 ∧ r < s.stored.length ∧
    Ring.Holds s.pipe.data s.pipe.nread s.pipe.nwrite s.stored r

/-- A cell is free. -/
def Room (s : Sys P) : Prop :=
  s.stored.length < s.delivered.length + PIPESIZE

end Sys

/-- What a process in the section knows at each point. -/
def Frame.Asserts (f : Frame P) (s : Sys P) : Prop :=
  match f.pc with
  | .wNread => s.Idle ∧ f.x = s.pipe.nwrite
  | .wCopyin | .wLoad => s.Idle ∧ s.Room
  | .wStore => s.Idle ∧ s.Room ∧ f.x = s.pipe.nwrite
  | .wData => s.Room ∧ s.pipe.nwrite = f.x + 1 ∧
      Ring.Holds s.pipe.data s.pipe.nread f.x s.stored s.delivered.length
  | .rTestNwrite => s.Idle ∧ f.x = s.pipe.nread
  | .rIndex => s.Idle ∧ s.delivered.length < s.stored.length
  | .rData => s.Idle ∧ s.delivered.length < s.stored.length ∧ f.x = s.pipe.nread
  | .rCopyout => s.Idle ∧ s.stored[s.delivered.length]? = some f.ch
  | .rLoad => s.Ahead
  | .rStore => s.Ahead ∧ f.x = s.pipe.nread
  | _ => s.Idle

theorem pipesize_lt : PIPESIZE < 2 ^ 32 := by
  decide

theorem pipesize_dvd : PIPESIZE ∣ 2 ^ 32 := by
  decide

namespace Sys

/-- A writer that finds the counters not `PIPESIZE` apart has a cell. -/
theorem Idle.room {s : Sys P} (h : s.Idle)
    (hx : s.pipe.nwrite ≠ s.pipe.nread + BitVec.ofNat 32 PIPESIZE) : s.Room := by
  have hne : s.stored.length ≠ s.delivered.length + PIPESIZE :=
    fun heq => hx ((h.full_iff pipesize_lt).mpr heq)
  have hcap := h.cap
  unfold Room
  omega

/-- A reader that finds the counters different has a byte. -/
theorem Idle.byte {s : Sys P} (h : s.Idle) (hx : s.pipe.nread ≠ s.pipe.nwrite) :
    s.delivered.length < s.stored.length := by
  have hne : s.stored.length ≠ s.delivered.length :=
    fun heq => hx ((h.empty_iff pipesize_lt).mpr heq)
  have hle := h.le
  omega

/-- The undelivered bytes are in the ring, and the counters are at most `PIPESIZE` apart. -/
structure Kept (s : Sys P) : Prop where
  pre : s.delivered <+: s.stored
  count : (s.pipe.nwrite - s.pipe.nread).toNat ≤ PIPESIZE
  get : ∀ j (hj : j < s.stored.length), s.delivered.length ≤ j →
    s.pipe.data (Fin.ofNat PIPESIZE j) = s.stored[j]

theorem Idle.kept {s : Sys P} (h : s.Idle) (hpre : s.delivered <+: s.stored) : s.Kept := by
  refine ⟨hpre, ?_, h.get⟩
  have hcap := h.cap
  rw [h.count pipesize_lt]
  omega

theorem Ahead.kept {s : Sys P} (h : s.Ahead) (hpre : s.delivered <+: s.stored) : s.Kept := by
  obtain ⟨r, hlen, -, h⟩ := h
  refine ⟨hpre, ?_, fun j hj hle => h.get j hj (by omega)⟩
  have hcap := h.cap
  rw [h.count pipesize_lt]
  omega

end Sys

theorem Frame.Asserts.kept {f : Frame P} {s : Sys P} (h : f.Asserts s)
    (hpre : s.delivered <+: s.stored) : s.Kept := by
  unfold Frame.Asserts at h
  split at h
  case h_1 | h_2 | h_3 | h_4 | h_6 | h_7 | h_8 | h_9 => exact h.1.kept hpre
  case h_5 =>
    -- the byte is counted and not stored yet : count it in a ring that has it
    obtain ⟨hroom, hwr, h⟩ := h
    refine ⟨hpre, ?_, h.get⟩
    have hput := h.put_elem pipesize_dvd hroom f.ch
    have hcap := hput.cap
    rw [hwr, hput.count pipesize_lt]
    omega
  case h_10 => exact h.kept hpre
  case h_11 => exact h.1.kept hpre
  case h_12 => exact h.kept hpre

theorem Frame.asserts_body (c : Config P) (f : Frame P) (s : Sys P) :
    Frame.Asserts { f with pc := f.body c } s = s.Idle := by
  unfold Frame.body Frame.wHead
  split <;> try split_ifs
  all_goals rfl

theorem Frame.asserts_wHead (c : Config P) (f : Frame P) (s : Sys P) :
    Frame.Asserts { f with pc := f.wHead c } s = s.Idle := by
  unfold Frame.wHead
  split_ifs <;> rfl

theorem Frame.asserts_rHead (c : Config P) (f : Frame P) (s : Sys P) :
    Frame.Asserts { f with pc := f.rHead c } s = s.Idle := by
  unfold Frame.rHead
  split_ifs <;> rfl

theorem Frame.Asserts.resume {f : Frame P} {s : Sys P} (h : f.Asserts s) : f.resume.Asserts s := by
  unfold Frame.resume
  split
  case h_1 hpc | h_2 hpc =>
    simp only [Frame.Asserts, hpc] at h
    exact h
  case h_3 => exact h

theorem Frame.asserts_of_not_inside {f : Frame P} {s : Sys P} (h : f.loc ≠ .inside f.op.tid) :
    f.Asserts s = s.Idle := by
  unfold Frame.Asserts
  cases hpc : f.pc <;> simp_all [Frame.loc]

theorem prefix_concat_getElem {α : Type*} {l m : List α} {x : α} (h : l <+: m)
    (hx : m[l.length]? = some x) : l ++ [x] <+: m := by
  obtain ⟨t, rfl⟩ := h
  cases t with
  | nil => simp at hx
  | cons y t =>
    obtain rfl : y = x := by simpa using hx
    exact ⟨t, by simp⟩

namespace Sys

variable [DecidableEq P]

/-- What the owner leaves behind : the stream in step if it returned, and what it knows at
its next point if not. -/
def Leaves (s : Sys P) (p : P) : Prop :=
  s.delivered <+: s.stored ∧
    match s.frame p with
    | none => s.Idle
    | some f => f.Asserts s

theorem leaves_goto {s : Sys P} {p : P} {f : Frame P} {pc : Pc P}
    (hpre : s.delivered <+: s.stored) (h : Frame.Asserts { f with pc := pc } (s.goto p f pc)) :
    (s.goto p f pc).Leaves p := by
  refine ⟨hpre, ?_⟩
  rw [goto_frame_self]
  exact h

theorem leaves_leave {s : Sys P} {p : P} {r : Option Int} (hpre : s.delivered <+: s.stored)
    (h : s.Idle) : (s.leave p r).Leaves p := by
  refine ⟨hpre, ?_⟩
  simp only [leave, Function.update_self]
  exact h

theorem leaves_wakeupLoop {s : Sys P} {p : P} {f : Frame P} {chan : PipeChan} {todo : List P}
    {again : List P → Pc P} {pc : Pc P} (hpre : s.delivered <+: s.stored) (h : s.Idle)
    (hagain : ∀ todo s, Frame.Asserts { f with pc := again todo } s = s.Idle)
    (hpc : ∀ s, Frame.Asserts { f with pc := pc } s = s.Idle) :
    (s.wakeupLoop p f chan todo again pc).Leaves p := by
  cases todo with
  | nil =>
    refine leaves_goto hpre ?_
    rw [hpc]
    exact h
  | cons q todo =>
    rw [wakeupLoop, wake_eq]
    refine leaves_goto hpre ?_
    rw [hagain]
    exact h

theorem leaves_sleep {c : Config P} {s : Sys P} {p : P} {f : Frame P} {lk : Option Spinlock}
    {pc : Pc P} (hf : s.frame p = some f) (hpre : s.delivered <+: s.stored) (ha : f.Asserts s)
    (hpc : Frame.Asserts { f with pc := pc } s) : (s.sleep c p f lk pc).Leaves p := by
  unfold sleep
  split
  · exact leaves_goto hpre hpc
  · split
    · refine ⟨hpre, ?_⟩
      simp only [hf]
      exact ha
    · exact leaves_goto hpre hpc

/-- One step of the owner. -/
theorem run_leaves {c : Config P} {s s' : Sys P} {p : P} {f : Frame P} (hf : s.frame p = some f)
    (hin : f.loc = .inside f.op.tid) (hpre : s.delivered <+: s.stored) (ha : f.Asserts s)
    (h : s.run c p f = some s') : s'.Leaves p := by
  have ha' := ha
  cases hpc : f.pc <;> simp only [Frame.loc, hpc, reduceCtorEq] at hin <;>
    simp only [run, hpc, Option.some.injEq, reduceCtorEq] at h <;> subst h <;>
    simp only [Frame.Asserts, hpc] at ha
  case wNwrite => exact leaves_goto hpre ⟨ha, rfl⟩
  case wNread =>
    refine leaves_goto hpre ?_
    split_ifs with hx
    · exact ha.1
    · exact ⟨ha.1, ha.1.room (by rw [← ha.2]; exact hx)⟩
  case wLoad => exact leaves_goto hpre ⟨ha.1, ha.2, rfl⟩
  case wStore =>
    obtain ⟨hidle, hroom, hx⟩ := ha
    refine leaves_goto hpre ⟨hroom, rfl, ?_⟩
    rw [hx]
    exact hidle
  case wData =>
    obtain ⟨hroom, hwr, h⟩ := ha
    refine leaves_goto (hpre.trans (List.prefix_append _ _)) ?_
    rw [Frame.asserts_wHead]
    have hput := h.put_elem pipesize_dvd hroom f.ch
    rw [← hwr] at hput
    exact hput
  case rTestNread => exact leaves_goto hpre ⟨ha, rfl⟩
  case rTestNwrite =>
    refine leaves_goto hpre ?_
    split_ifs with hx
    · exact ha.1
    · exact ⟨ha.1, ha.1.byte (by rw [← ha.2]; exact hx)⟩
  case rIndex => exact leaves_goto hpre ⟨ha.1, ha.2, rfl⟩
  case rData =>
    obtain ⟨hidle, hlt, hx⟩ := ha
    refine leaves_goto hpre ⟨hidle, ?_⟩
    rw [hx]
    show s.stored[s.delivered.length]? = some (s.pipe.data (Ring.cell PIPESIZE s.pipe.nread))
    rw [Ring.Holds.head hidle pipesize_dvd hlt, List.getElem?_eq_getElem hlt]
  case rLoad => exact leaves_goto hpre ⟨ha, rfl⟩
  case rStore =>
    obtain ⟨⟨r, hlen, hr, h⟩, hx⟩ := ha
    refine leaves_goto hpre ?_
    rw [Frame.asserts_rHead]
    have htake := h.take hr
    rw [← hx, ← hlen] at htake
    exact htake
  case wWake | wLast | rLast | cWake =>
    exact leaves_wakeupLoop hpre ha (fun _ _ => rfl) fun _ => rfl
  case wSleep | rSleep => exact leaves_sleep hf hpre ha' ha
  case exit => exact leaves_leave hpre ha
  case cOpen => cases f.op.tid <;> exact leaves_goto hpre ha
  all_goals
    refine leaves_goto hpre ?_
    try split_ifs
    all_goals first | exact ha | (rw [Frame.asserts_rHead]; exact ha)

/-- One step of a process in the section, of whatever kind. -/
theorem step_leaves {c : Config P} {s s' : Sys P} {p : P} {f : Frame P} {a : PipeAct}
    (hf : s.frame p = some f) (hin : f.loc = .inside f.op.tid)
    (hpre : s.delivered <+: s.stored) (ha : f.Asserts s) (h : s.step c p a = some s') :
    s'.Leaves p := by
  cases a <;> simp only [step, hf, Option.ite_none_left_eq_some, reduceCtorEq, and_false] at h <;>
    obtain ⟨-, h⟩ := h
  case run => exact run_leaves (s := s.touch f.pc) hf hin hpre ha h
  case copyin ch =>
    obtain ⟨hpc, rfl⟩ := of_guard h
    simp only [Frame.Asserts, hpc] at ha
    cases ch with
    | none => exact leaves_goto hpre ha.1
    | some ch => exact leaves_goto hpre ha
  case copyout ok =>
    obtain ⟨hpc, rfl⟩ := of_guard h
    simp only [Frame.Asserts, hpc] at ha
    obtain ⟨hidle, hch⟩ := ha
    cases ok with
    | false => exact leaves_goto hpre hidle
    | true =>
      refine leaves_goto (prefix_concat_getElem hpre hch) ⟨s.delivered.length, ?_, ?_, hidle⟩
      · exact List.length_append
      · obtain ⟨hlt, -⟩ := List.getElem?_eq_some_iff.mp hch
        exact hlt
  case kill =>
    cases h
    refine ⟨hpre, ?_⟩
    simp only [Function.update_self, Option.map_some]
    exact ha.resume

/-- What the section guards. -/
def stream (s : Sys P) :
    (Fin PIPESIZE → UInt8) × BitVec 32 × BitVec 32 × List UInt8 × List UInt8 :=
  (s.pipe.data, s.pipe.nread, s.pipe.nwrite, s.stored, s.delivered)

theorem asserts_congr {s s' : Sys P} (h : s'.stream = s.stream) (f : Frame P) :
    f.Asserts s' ↔ f.Asserts s := by
  simp only [stream, Prod.mk.injEq] at h
  obtain ⟨h1, h2, h3, h4, h5⟩ := h
  unfold Frame.Asserts Idle Ahead Room
  rw [h1, h2, h3, h4, h5]

theorem idle_congr {s s' : Sys P} (h : s'.stream = s.stream) : s'.Idle ↔ s.Idle := by
  simp only [stream, Prod.mk.injEq] at h
  obtain ⟨h1, h2, h3, h4, h5⟩ := h
  unfold Idle
  rw [h1, h2, h3, h4, h5]

theorem inside_iff {s : Sys P} {p : P} :
    s.Inside p ↔ ∃ f, s.frame p = some f ∧ f.loc = .inside f.op.tid := by
  constructor
  · rintro ⟨side, h⟩
    cases hf : s.frame p with
    | none => simp [lock, hf] at h
    | some f =>
      simp only [lock, hf, locOf_some] at h
      have hside : f.loc.side = some side := by rw [h]; rfl
      exact ⟨f, rfl, by rw [h, Frame.side_loc hside]⟩
  · rintro ⟨f, hf, h⟩
    exact ⟨f.op.tid, by simp [lock, hf, h]⟩

/-- A process outside the section leaves the stream alone, and knows nothing of it when it
gets in. -/
theorem step_outside {c : Config P} {s s' : Sys P} {p : P} {a : PipeAct}
    (hout : ¬s.Inside p) (h : s.step c p a = some s') :
    s'.stream = s.stream ∧ ∀ f', s'.frame p = some f' → f'.Asserts s' = s'.Idle := by
  have hloc : ∀ f, s.frame p = some f → f.loc ≠ .inside f.op.tid :=
    fun f hf hl => hout (inside_iff.mpr ⟨f, hf, hl⟩)
  unfold step at h
  split_ifs at h
  split at h
  case h_1 op hf =>
    cases h
    refine ⟨rfl, fun f' hf' => ?_⟩
    simp only [Function.update_self, Option.some.injEq] at hf'
    rw [← hf']
    rfl
  case h_2 f hf =>
    have hl := hloc f hf
    cases hpc : f.pc <;> simp only [Frame.loc, hpc, ne_eq, not_true_eq_false] at hl <;>
      simp only [run, hpc, Option.some.injEq] at h <;> subst h <;>
      refine ⟨rfl, fun f' hf' => ?_⟩
    case cFree => simp [leave] at hf'
    all_goals
      rw [goto_frame_self] at hf'
      rw [← Option.some.inj hf']
      try split_ifs
      all_goals first | rfl | exact Frame.asserts_body c f _
  case h_3 ch f hf =>
    split_ifs at h with hpc
    exact absurd (by simp [Frame.loc, hpc]) (hloc f hf)
  case h_4 ok f hf =>
    split_ifs at h with hpc
    exact absurd (by simp [Frame.loc, hpc]) (hloc f hf)
  case h_5 =>
    cases h
    refine ⟨rfl, fun f' hf' => ?_⟩
    simp only [Function.update_self, Option.map_eq_some_iff] at hf'
    obtain ⟨f, hf, rfl⟩ := hf'
    refine Frame.asserts_of_not_inside ?_
    rw [Frame.loc_resume, Frame.op_resume]
    exact hloc f hf
  case h_6 => cases h

theorem step_inside_other {c : Config P} {s s' : Sys P} {p q : P} {a : PipeAct}
    (h : s.step c p a = some s') (hq : q ≠ p) : s'.Inside q ↔ s.Inside q := by
  unfold Inside
  simp only [lock]
  rcases step_others h q hq with heq | heq <;> rw [heq]
  cases s.frame q <;> simp

/-- The owner of the section knows the stream, and the stream is in step when there is
none. -/
structure Owned (s : Sys P) : Prop where
  pre : s.delivered <+: s.stored
  owner : ∀ p f, s.frame p = some f → f.loc = .inside f.op.tid → f.Asserts s
  idle : (∀ p, ¬s.Inside p) → s.Idle

theorem Owned.step {c : Config P} {s s' : Sys P} {p : P} {a : PipeAct} (h : s.Owned)
    (hex : ∀ p q, s.Inside p → s.Inside q → p = q)
    (hex' : ∀ p q, s'.Inside p → s'.Inside q → p = q) (hs : s.step c p a = some s') :
    s'.Owned := by
  by_cases hp : s.Inside p
  · obtain ⟨f, hf, hl⟩ := inside_iff.mp hp
    obtain ⟨hpre, hleaves⟩ := step_leaves hf hl h.pre (h.owner p f hf hl) hs
    refine ⟨hpre, fun q g hg hgl => ?_, fun hnone => ?_⟩
    · by_cases hq : q = p
      · subst hq
        simpa only [hg] using hleaves
      · have hin : s.Inside q := (step_inside_other hs hq).mp (inside_iff.mpr ⟨g, hg, hgl⟩)
        exact absurd (hex q p hin hp) hq
    · cases hf' : s'.frame p with
      | none => simpa only [hf'] using hleaves
      | some f' =>
        simp only [hf'] at hleaves
        rwa [Frame.asserts_of_not_inside fun hl' => hnone p (inside_iff.mpr ⟨f', hf', hl'⟩)]
          at hleaves
  · obtain ⟨hsame, hnew⟩ := step_outside hp hs
    refine ⟨?_, fun q g hg hgl => ?_, fun hnone => ?_⟩
    · simp only [stream, Prod.mk.injEq] at hsame
      rw [hsame.2.2.2.1, hsame.2.2.2.2]
      exact h.pre
    · by_cases hq : q = p
      · subst hq
        rw [hnew g hg, idle_congr hsame]
        refine h.idle fun r hr => ?_
        have hrq : r ≠ q := by
          rintro rfl
          exact hp hr
        exact hrq (hex' r q ((step_inside_other hs hrq).mpr hr) (inside_iff.mpr ⟨g, hg, hgl⟩))
      · rw [asserts_congr hsame]
        rcases step_others hs q hq with heq | heq <;> rw [hg] at heq
        · exact h.owner q g heq.symm hgl
        · obtain ⟨f, hf, rfl⟩ := Option.map_eq_some_iff.mp heq.symm
          rw [Frame.loc_resume, Frame.op_resume] at hgl
          exact (h.owner q f hf hgl).resume
    · rw [idle_congr hsame]
      refine h.idle fun r hr => ?_
      by_cases hrp : r = p
      · exact hp (hrp ▸ hr)
      · exact hnone r ((step_inside_other hs hrp).mpr hr)

theorem Owned.kept {s : Sys P} (h : s.Owned) : s.Kept := by
  by_cases hin : ∃ p, s.Inside p
  · obtain ⟨p, hp⟩ := hin
    obtain ⟨f, hf, hl⟩ := inside_iff.mp hp
    exact (h.owner p f hf hl).kept h.pre
  · exact (h.idle fun p hp => hin ⟨p, hp⟩).kept h.pre

end Sys

section Stream

variable [DecidableEq P] {c : Config P}

/-- The section is owned in every state of every run that keeps the processes apart. -/
theorem owned_of_soleEntry {s : Sys P} (h : (pipeMachine c).ReachWhen Sys.SoleEntry s) :
    s.Owned := by
  have hex : ∀ {s : Sys P}, (pipeMachine c).ReachWhen Sys.SoleEntry s →
      ∀ p q, s.Inside p → s.Inside q → p = q := by
    rintro s h p q ⟨side, hp⟩ ⟨side', hq⟩
    obtain ⟨hsole, hfair⟩ := lock_of_soleEntry h
    exact hfair.exclusive hsole trivial trivial hp hq
  refine h.invariant (I := Sys.Owned) ?_ ?_
  · intro s h
    refine ⟨by simp [h.delivered], fun p f hf => ?_, fun _ => ?_⟩
    · rw [h.frame p] at hf
      cases hf
    · obtain ⟨data, hdata⟩ := h.pipe
      unfold Sys.Idle
      rw [hdata, h.stored, h.delivered]
      exact Ring.Holds.empty data
  · intro s a s' hreach ih hC hs
    exact ih.step (hex hreach) (hex (hreach.step hC hs)) hs

end Stream

/-- For one writer and one reader, killed or not, with any sizes and any outcome of their
copies : what was delivered is a prefix of what was stored, the rest is in the ring, the
counters are at most `PIPESIZE` apart, and after a failed copyout the byte is where it was and
will be delivered next. -/
theorem pair_stream {c : Config Side} {kills : Bool} {s : Sys Side}
    (h : (pairMachine c kills).Reachable s) :
    s.delivered <+: s.stored ∧ (s.pipe.nwrite - s.pipe.nread).toNat ≤ PIPESIZE ∧
    (∀ j (hj : j < s.stored.length), s.delivered.length ≤ j →
      s.pipe.data (Fin.ofNat PIPESIZE j) = s.stored[j]) ∧
    ∀ e s', (pairMachine c kills).step s (e, .copyout false) = some s' →
      s'.pipe = s.pipe ∧ s'.delivered = s.delivered ∧ s'.stored = s.stored ∧
      ∃ f, s.frame e = some f ∧ s'.stored[s'.delivered.length]? = some f.ch ∧
        s'.pipe.data (Ring.cell PIPESIZE s'.pipe.nread) = f.ch ∧
        s'.pipe.nread ≠ s'.pipe.nwrite := by
  have howned := owned_of_soleEntry (pair_soleEntry h)
  obtain ⟨hpre, hcount, hget⟩ := howned.kept
  refine ⟨hpre, hcount, hget, fun e s' hs => ?_⟩
  obtain ⟨-, hs⟩ := pairMachine_step.mp hs
  cases hf : s.frame e with
  | none => simp [Sys.step, hf] at hs
  | some f =>
    simp only [Sys.step, hf, Option.ite_none_left_eq_some, Option.ite_none_right_eq_some,
      Option.some.injEq] at hs
    obtain ⟨-, hpc, rfl⟩ := hs
    have ha := howned.owner e f hf (by simp [Frame.loc, hpc])
    simp only [Frame.Asserts, hpc] at ha
    obtain ⟨hidle, hch⟩ := ha
    obtain ⟨hlt, hval⟩ := List.getElem?_eq_some_iff.mp hch
    refine ⟨rfl, rfl, rfl, f, rfl, hch, ?_, ?_⟩
    · exact (Ring.Holds.head hidle pipesize_dvd hlt).trans hval
    · intro heq
      have := (Ring.Holds.empty_iff hidle pipesize_lt).mp heq
      omega

/-- A byte is written and read back; the copyout of a second one fails. -/
theorem pair_stream_two_bytes :
    ∃ s, (pairMachine (pairProcs .source) true).Reachable s ∧ s.stored = [7, 8] ∧
      s.delivered = [7] ∧ s.delivered <+: s.stored := by
  obtain ⟨s, hs, hst, hdel⟩ := Machine.reachable_of_exec
    (M := pairMachine (pairProcs .source) true) (freshPipe_init Side)
    (List.flatten [[(.zero, .call (.pipewrite 2))], runs 7 .zero, [(.zero, .copyin (some 7))],
      runs 7 .zero, [(.zero, .copyin (some 8))], runs 7 .zero, [(.one, .call (.piperead 2))],
      runs 9 .one, [(.one, .copyout true)], runs 6 .one, [(.one, .copyout false)]])
    (fun s => s.stored = [7, 8] ∧ s.delivered = [7]) (by decide +kernel)
  exact ⟨s, hs, hst, hdel, (pair_stream hs).1⟩

end Xv6
