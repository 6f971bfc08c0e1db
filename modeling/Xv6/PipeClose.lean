import Xv6.PipeExclusion

/-!
# Closing and freeing a pipe

`pipeclose` of an end clears the end's open flag, and frees the page if it finds both
flags clear. The two closers are kept apart by the lock in the page, which any number of
readers and writers use as well, and break (`two_writers_inside`). It holds for the closers
as long as the calls are `Sys.Orderly` : no call is made on an end once its `pipeclose` has
started, and that is not called while another process is in a call on the end. A closer
is then alone on its side, which is all `Lock.Fair` asks.

`Closing` is the invariant : where each closer is, against the ends closed so far
(`Pc.CloseStage`). It is kept by every orderly step (`Closing.step`).
-/

set_option linter.unusedSectionVars false

namespace Xv6

/-- The call is a `pipeclose`. -/
def PipeOp.closes : PipeOp → Bool
  | pipeclose _ => true
  | _ => false

variable {P : Type}

/-- The step is one of `pipeclose` alone. -/
def Pc.closes : Pc P → Bool
  | cOpen | cWake _ | cReadopen | cWriteopen | cExit | cFree => true
  | _ => false

/-- Where the closer of `e` is when the ends `closed` are closed. -/
def Pc.CloseStage (e : Side) (closed : List Side) : Pc P → Prop
  | .setFlag | .setTurn | .loadFlag | .loadTurn | .cOpen => e ∉ closed
  | .cWake _ | .cReadopen => closed.getLast? = some e
  | .cWriteopen => closed.getLast? = some e ∧ .one ∈ closed
  | .cExit | .cFree => closed = [e.other, e]
  | .exit _ => closed = [e]
  | _ => False

/-- `readopen` and `writeopen`, by end. -/
def Pipe.isOpen (pi : Pipe) : Side → Bool
  | .zero => pi.writeopen
  | .one => pi.readopen

namespace Sys

variable [DecidableEq P]

/-- No call is made on an end that is closed or being closed, nor a `pipeclose` on an end in
use. -/
def Orderly (s : Sys P) (a : P × PipeAct) : Prop :=
  ∀ op, a.2 = .call op → op.tid ∉ s.closed ∧
    ∀ q f, s.frame q = some f → f.op.tid = op.tid → f.op.closes = false ∧ op.closes = false

/-- `p` is in a `pipeclose`. -/
def Closer (s : Sys P) (p : P) : Prop :=
  ∃ f, s.frame p = some f ∧ f.op.closes = true

/-- The state of a pipe on which every call so far was orderly. -/
structure Closing (s : Sys P) : Prop where
  /-- A closer is alone on its side. -/
  alone : ∀ p q f g, s.frame p = some f → s.frame q = some g → f.op.closes = true →
    g.op.tid = f.op.tid → q = p
  /-- The lock keeps the closers apart. -/
  fair : s.lock.Fair s.Closer
  /-- Readers and writers are on open ends, in their own code. -/
  users : ∀ p f, s.frame p = some f → f.op.closes = false →
    f.pc.closes = false ∧ f.op.tid ∉ s.closed
  /-- Closers are where `closed` says. -/
  stage : ∀ p f, s.frame p = some f → f.op.closes = true → f.pc.CloseStage f.op.tid s.closed
  /-- An end is closed once. -/
  shape : s.closed = [] ∨ ∃ a, s.closed = [a] ∨ s.closed = [a, a.other]
  /-- The open flags say which. -/
  opens : ∀ e, s.pipe.isOpen e = decide (e ∉ s.closed)
  /-- The first closer has left when the second clears its flag. -/
  first : ∀ a, s.closed = [a, a.other] → ∀ p f, s.frame p = some f → f.op.tid = a.other
  /-- The second closer frees the page, and leaves nobody behind. -/
  second : ∀ a, s.closed = [a, a.other] → (s.freed = [] ∧ ∃ p, s.Closer p) ∨
    (s.freed = [a.other] ∧ ∀ p, s.frame p = none)
  /-- Nothing is freed before. -/
  early : s.closed.length < 2 → s.freed = []
  untouched : s.touched = false

end Sys

/-- `s'` has the ends of `s` as they were. -/
def Sys.SameEnds (s s' : Sys P) : Prop :=
  s'.closed = s.closed ∧ s'.freed = s.freed ∧ s'.touched = s.touched ∧
    ∀ e, s'.pipe.isOpen e = s.pipe.isOpen e

/-- Ends stay closed, an end is closed by its closer, and a closer leaves with its end
closed. -/
structure Sys.ClosedStep (s : Sys P) (p : P) (s' : Sys P) : Prop where
  mono : ∀ e, e ∈ s.closed → e ∈ s'.closed
  only : ∀ e, e ∈ s'.closed → e ∈ s.closed ∨
    ∃ f, s.frame p = some f ∧ f.op.closes = true ∧ f.op.tid = e
  left : ∀ f, s.frame p = some f → f.op.closes = true → s'.frame p = none →
    f.op.tid ∈ s'.closed

theorem Frame.resume_of_closeStage {f : Frame P} {e : Side} {l : List Side}
    (h : f.pc.CloseStage e l) : f.resume = f := by
  unfold Frame.resume
  cases hpc : f.pc <;> simp_all [Pc.CloseStage]

theorem Frame.closes_resume (f : Frame P) : f.resume.pc.closes = f.pc.closes := by
  unfold Frame.resume
  cases hpc : f.pc <;> simp [hpc, Pc.closes]

namespace Sys

variable [DecidableEq P] {c : Config P}

namespace Closing

variable {s s' : Sys P} {p : P} {a : PipeAct}

theorem init (h : PipeInit s) : s.Closing := by
  have hf : ∀ {p f}, s.frame p ≠ some f := by
    intro p f hf
    rw [h.frame p] at hf
    cases hf
  obtain ⟨data, hdata⟩ := h.pipe
  refine ⟨fun _ _ _ _ hp => absurd hp hf, Lock.fair_of_out h.loc_out, fun _ _ hp => absurd hp hf,
    fun _ _ hp => absurd hp hf, Or.inl h.closed, fun e => ?_, fun _ _ _ _ hp => absurd hp hf,
    fun a ha => ?_, fun _ => h.freed, h.touched⟩
  · rw [hdata, h.closed]
    cases e <;> rfl
  · rw [h.closed] at ha
    cases ha

/-- While a process is in pipe code, the page is not freed. -/
theorem freed_nil (h : s.Closing) {f : Frame P} (hf : s.frame p = some f) : s.freed = [] := by
  rcases h.shape with hc | ⟨e, hc | hc⟩
  · exact h.early (by simp [hc])
  · exact h.early (by simp [hc])
  · rcases h.second e hc with hfr | ⟨-, hnone⟩
    · exact hfr.1
    · rw [hnone p] at hf
      cases hf

/-- Other processes stay in their calls, and closers where they are. -/
theorem other_frame (h : s.Closing) (hs : s.step c p a = some s') {q : P} (hq : q ≠ p)
    {g' : Frame P} (hg' : s'.frame q = some g') : ∃ g, s.frame q = some g ∧ g'.op = g.op ∧
      g'.pc.closes = g.pc.closes ∧ (g.op.closes = true → g' = g) := by
  rcases step_others hs q hq with heq | heq <;> rw [hg'] at heq
  · exact ⟨g', heq.symm, rfl, rfl, fun _ => rfl⟩
  · obtain ⟨g, hg, rfl⟩ := Option.map_eq_some_iff.mp heq.symm
    exact ⟨g, hg, g.op_resume, g.closes_resume,
      fun hcl => Frame.resume_of_closeStage (h.stage q g hg hcl)⟩

/-- A closer stays alone : the calls it meets are orderly. -/
theorem alone_step (h : s.Closing) (hC : s.Orderly (p, a)) (hs : s.step c p a = some s') :
    ∀ p q f g, s'.frame p = some f → s'.frame q = some g → f.op.closes = true →
      g.op.tid = f.op.tid → q = p := by
  intro x y f' g' hf' hg' hcl htid
  rcases step_op hs hf' with ⟨f, hf, hfop⟩ | ⟨rfl, hfa⟩ <;>
    rcases step_op hs hg' with ⟨g, hg, hgop⟩ | ⟨rfl, hga⟩
  · exact h.alone x y f g hf hg (by rw [hfop]; exact hcl) (by rw [hfop, hgop]; exact htid)
  · have := ((hC g'.op hga).2 x f hf (by rw [hfop]; exact htid.symm)).1
    rw [hfop, hcl] at this
    cases this
  · have := ((hC f'.op hfa).2 y g hg (by rw [hgop]; exact htid)).2
    rw [hcl] at this
    cases this
  · rfl

/-- The closers of the next state are closers now, or outside the lock. -/
theorem closer_step (hs : s.step c p a = some s') {q : P} (hq : s'.Closer q) :
    s.Closer q ∨ s.lock.loc q = .out := by
  obtain ⟨f', hf', hcl⟩ := hq
  rcases step_op hs hf' with ⟨f, hf, hop⟩ | ⟨rfl, ha⟩
  · exact Or.inl ⟨f, hf, by rw [hop]; exact hcl⟩
  · right
    cases hf : s.frame q with
    | none => simp [lock, hf]
    | some f => simp [step, hf, ha] at hs

theorem sole (h : s.Closing) {E : P → Prop} (hE : ∀ q, E q → s.Closer q ∨ s.lock.loc q = .out) :
    s.lock.Sole E := by
  intro x y side hx hxs hys
  rcases hE x hx with ⟨f, hf, hcl⟩ | hout
  · cases hg : s.frame y with
    | none => simp [lock, hg, Loc.side] at hys
    | some g =>
      simp only [lock, hf, hg, locOf_some] at hxs hys
      refine (h.alone x y f g hf hg hcl ?_).symm
      rw [← Frame.side_loc hxs, ← Frame.side_loc hys]
  · rw [hout] at hxs
    cases hxs

theorem fair_step (h : s.Closing) (hs : s.step c p a = some s') : s'.lock.Fair s'.Closer := by
  have hE : ∀ q, s'.Closer q → s.Closer q ∨ s.lock.loc q = .out := fun q => closer_step hs
  have hfair : s.lock.Fair s'.Closer := h.fair.extend hE
  rcases step_lock hs with heq | ⟨e, he, -⟩
  · rw [heq]
    exact hfair
  · exact he.fair (h.sole hE) hfair

/-- Two closers are not both inside. -/
theorem exclusive (h : s.Closing) {p q : P} {f g : Frame P} (hf : s.frame p = some f)
    (hg : s.frame q = some g) (hfc : f.op.closes = true) (hgc : g.op.closes = true)
    (hfl : f.loc = .inside f.op.tid) (hgl : g.loc = .inside g.op.tid) : p = q := by
  refine h.fair.exclusive (h.sole fun _ => Or.inl) ⟨f, hf, hfc⟩ ⟨g, hg, hgc⟩
    (s := f.op.tid) (t := g.op.tid) ?_ ?_
  · simp only [lock, hf, locOf_some, hfl]
  · simp only [lock, hg, locOf_some, hgl]

/-- Once both ends are closed no call is orderly. -/
theorem no_call (hC : s.Orderly (p, a)) {e : Side} (hc : s.closed = [e, e.other]) (op : PipeOp) :
    a ≠ .call op := by
  intro ha
  have hmem := (hC op ha).1
  rw [hc] at hmem
  cases e <;> cases htid : op.tid <;> simp_all [Side.other]

theorem closer_other (hs : s.step c p a = some s') {q : P} (hq : q ≠ p) (h : s.Closer q) :
    s'.Closer q := by
  obtain ⟨g, hg, hcl⟩ := h
  rcases step_others hs q hq with heq | heq
  · exact ⟨g, heq.trans hg, hcl⟩
  · exact ⟨g.resume, by rw [heq, hg]; rfl, by rw [g.op_resume]; exact hcl⟩

/-- A step that closes and frees nothing keeps the invariant if the process that takes it is
where it should be. -/
theorem of_same (h : s.Closing) (hC : s.Orderly (p, a)) (hs : s.step c p a = some s')
    (hsame : s.SameEnds s')
    (huser : ∀ f', s'.frame p = some f' → f'.op.closes = false →
      f'.pc.closes = false ∧ f'.op.tid ∉ s.closed)
    (hcloser : ∀ f', s'.frame p = some f' → f'.op.closes = true →
      f'.pc.CloseStage f'.op.tid s.closed)
    (hstays : s.Closer p → s.closed.length = 2 → s'.Closer p) : s'.Closing := by
  obtain ⟨hclosed, hfreed, htouched, hopen⟩ := hsame
  have hold : ∀ {e}, s.closed = [e, e.other] → ∀ {q f'}, s'.frame q = some f' →
      ∃ f, s.frame q = some f ∧ f.op = f'.op := by
    intro e he q f' hf'
    rcases step_op hs hf' with hf | ⟨-, ha⟩
    · exact hf
    · exact absurd ha (no_call hC he _)
  refine ⟨h.alone_step hC hs, h.fair_step hs, fun q f' hf' hcl => ?_, fun q f' hf' hcl => ?_, ?_,
    fun e => ?_, fun e he q f' hf' => ?_, fun e he => ?_, ?_, ?_⟩
  · rw [hclosed]
    by_cases hq : q = p
    · subst hq
      exact huser f' hf' hcl
    · obtain ⟨g, hg, hop, hpc, -⟩ := h.other_frame hs hq hf'
      rw [hop] at hcl ⊢
      rw [hpc]
      exact h.users q g hg hcl
  · rw [hclosed]
    by_cases hq : q = p
    · subst hq
      exact hcloser f' hf' hcl
    · obtain ⟨g, hg, hop, -, heq⟩ := h.other_frame hs hq hf'
      rw [hop] at hcl
      rw [heq hcl]
      exact h.stage q g hg hcl
  · rw [hclosed]
    exact h.shape
  · rw [hclosed, hopen]
    exact h.opens e
  · rw [hclosed] at he
    obtain ⟨f, hf, hop⟩ := hold he hf'
    rw [← hop]
    exact h.first e he q f hf
  · rw [hclosed] at he
    rw [hfreed]
    rcases h.second e he with ⟨hfr, q, hq⟩ | ⟨hfr, hnone⟩
    · left
      by_cases hqp : q = p
      · subst hqp
        exact ⟨hfr, q, hstays hq (by rw [he]; rfl)⟩
      · exact ⟨hfr, q, closer_other hs hqp hq⟩
    · refine Or.inr ⟨hfr, fun q => ?_⟩
      cases hf' : s'.frame q with
      | none => rfl
      | some f' =>
        obtain ⟨f, hf, -⟩ := hold he hf'
        rw [hnone q] at hf
        cases hf
  · rw [hclosed, hfreed]
    exact h.early
  · rw [htouched]
    exact h.untouched

theorem single_of_last (h : s.Closing) {e x : Side} (hl : s.closed.getLast? = some e)
    (hx : x ∉ s.closed) : s.closed = [e] := by
  rcases h.shape with hc | ⟨b, hc | hc⟩ <;> rw [hc] at hl hx ⊢
  · simp at hl
  · simpa using hl
  · cases b <;> cases x <;> simp [Side.other] at hx

theorem pair_of_last (h : s.Closing) {e : Side} (hl : s.closed.getLast? = some e)
    (h0 : .zero ∈ s.closed) (h1 : .one ∈ s.closed) : s.closed = [e.other, e] := by
  rcases h.shape with hc | ⟨b, hc | hc⟩ <;> rw [hc] at hl h0 h1 ⊢
  · simp at hl
  · cases b <;> simp at h0 h1
  · obtain rfl : b.other = e := by simpa using hl
    simp

/-- A step of a closer that neither clears its flag nor frees the page. -/
theorem run_closer (h : s.Closing) {f : Frame P} (hf : s.frame p = some f)
    (hcl : f.op.closes = true) (ho : f.pc ≠ .cOpen) (hfr : f.pc ≠ .cFree)
    (hs : s.run c p f = some s') : s.SameEnds s' ∧
      (∀ f', s'.frame p = some f' → f'.pc.CloseStage f.op.tid s.closed) ∧
      (s'.frame p = none → s.closed = [f.op.tid]) := by
  have hst := h.stage p f hf hcl
  have hgoto : ∀ {t : Sys P} {pc : Pc P}, pc.CloseStage f.op.tid s.closed →
      (∀ f', (t.goto p f pc).frame p = some f' → f'.pc.CloseStage f.op.tid s.closed) ∧
      ((t.goto p f pc).frame p = none → s.closed = [f.op.tid]) := by
    intro t pc hpc
    simp only [goto_frame_self, Option.some.injEq, forall_eq', reduceCtorEq, false_implies,
      and_true]
    exact hpc
  have hbody : f.body c = .cOpen := by
    cases hop : f.op <;> simp_all [Frame.body, PipeOp.closes]
  cases hpc : f.pc <;> simp only [hpc, Pc.CloseStage] at hst <;>
    simp only [run, hpc, Option.some.injEq] at hs <;> subst hs
  case setFlag | setTurn => exact ⟨⟨rfl, rfl, rfl, fun e => by cases e <;> rfl⟩, hgoto hst⟩
  case loadFlag | loadTurn =>
    refine ⟨⟨rfl, rfl, rfl, fun _ => rfl⟩, hgoto ?_⟩
    rw [hbody]
    split_ifs <;> exact hst
  case cOpen => exact absurd hpc ho
  case cWake todo =>
    cases todo with
    | nil => exact ⟨⟨rfl, rfl, rfl, fun _ => rfl⟩, hgoto hst⟩
    | cons q todo =>
      rw [wakeupLoop, wake_eq]
      exact ⟨⟨rfl, rfl, rfl, fun _ => rfl⟩, hgoto hst⟩
  case cReadopen =>
    refine ⟨⟨rfl, rfl, rfl, fun _ => rfl⟩, hgoto ?_⟩
    have hopen : s.pipe.readopen = decide (Side.one ∉ s.closed) := h.opens .one
    split_ifs with hr
    · exact h.single_of_last hst (of_decide_eq_true (hopen.symm.trans hr))
    · exact ⟨hst, by simpa [hopen] using hr⟩
  case cWriteopen =>
    refine ⟨⟨rfl, rfl, rfl, fun _ => rfl⟩, hgoto ?_⟩
    have hopen : s.pipe.writeopen = decide (Side.zero ∉ s.closed) := h.opens .zero
    split_ifs with hw
    · exact h.single_of_last hst.1 (of_decide_eq_true (hopen.symm.trans hw))
    · exact h.pair_of_last hst.1 (by simpa [hopen] using hw) hst.2
  case cExit => exact ⟨⟨rfl, rfl, rfl, fun e => by cases e <;> rfl⟩, hgoto hst⟩
  case cFree => exact absurd hpc hfr
  case exit r =>
    refine ⟨⟨rfl, rfl, rfl, fun e => by cases e <;> rfl⟩, fun f' hf' => ?_, fun _ => hst⟩
    simp [leave] at hf'

theorem closes_wHead (c : Config P) (f : Frame P) : (f.wHead c).closes = false := by
  unfold Frame.wHead
  split_ifs <;> rfl

theorem closes_rHead (c : Config P) (f : Frame P) : (f.rHead c).closes = false := by
  unfold Frame.rHead
  split_ifs <;> rfl

theorem closes_body (c : Config P) {f : Frame P} (hop : f.op.closes = false) :
    (f.body c).closes = false := by
  unfold Frame.body
  cases hfop : f.op with
  | pipewrite => exact closes_wHead c f
  | piperead => rfl
  | pipeclose => rw [hfop] at hop; cases hop

theorem closes_goto {t : Sys P} {g : Frame P} {pc : Pc P} (hpc : pc.closes = false) (f' : Frame P)
    (hf' : (t.goto p g pc).frame p = some f') : f'.pc.closes = false := by
  rw [goto_frame_self] at hf'
  rw [← Option.some.inj hf']
  exact hpc

theorem closes_wakeupLoop {f : Frame P} {chan : PipeChan} {todo : List P} {again : List P → Pc P}
    {pc : Pc P} (hagain : ∀ todo, (again todo).closes = false) (hpc : pc.closes = false) :
    s.SameEnds (s.wakeupLoop p f chan todo again pc) ∧
      ∀ f', (s.wakeupLoop p f chan todo again pc).frame p = some f' → f'.pc.closes = false := by
  cases todo with
  | nil => exact ⟨⟨rfl, rfl, rfl, fun _ => rfl⟩, closes_goto hpc⟩
  | cons q todo =>
    rw [wakeupLoop, wake_eq]
    exact ⟨⟨rfl, rfl, rfl, fun _ => rfl⟩, closes_goto (hagain todo)⟩

/-- A step of a reader or writer. -/
theorem run_user {f : Frame P} (hf : s.frame p = some f) (hop : f.op.closes = false)
    (hpc : f.pc.closes = false) (hs : s.run c p f = some s') :
    s.SameEnds s' ∧ ∀ f', s'.frame p = some f' → f'.pc.closes = false := by
  cases hfpc : f.pc <;> simp only [hfpc, Pc.closes, Bool.true_eq_false] at hpc <;>
    simp only [run, hfpc, Option.some.injEq, reduceCtorEq] at hs <;> subst hs
  case wWake | wLast | rLast => exact closes_wakeupLoop (fun _ => rfl) rfl
  case wSleep | rSleep =>
    unfold sleep
    split
    · exact ⟨⟨rfl, rfl, rfl, fun _ => rfl⟩, closes_goto rfl⟩
    · split
      · refine ⟨⟨rfl, rfl, rfl, fun _ => rfl⟩, fun f' hf' => ?_⟩
        rw [show f' = f from Option.some.inj (hf'.symm.trans hf), hfpc]
        rfl
      · exact ⟨⟨rfl, rfl, rfl, fun _ => rfl⟩, closes_goto rfl⟩
  case exit r =>
    exact ⟨⟨rfl, rfl, rfl, fun e => by cases e <;> rfl⟩, fun f' hf' => by simp [leave] at hf'⟩
  all_goals
    refine ⟨⟨rfl, rfl, rfl, fun e => by cases e <;> rfl⟩, closes_goto ?_⟩
    try split_ifs
    all_goals first | rfl | exact closes_body c hop | exact closes_wHead c _ | exact closes_rHead c _

/-- While one closer is inside, the other end is open or its closer is gone : nobody is on a
side that is closed. -/
theorem not_mem_closed (h : s.Closing) {f : Frame P} (hf : s.frame p = some f)
    (hcl : f.op.closes = true) (hpc : f.pc = .cOpen) {q : P} {g : Frame P}
    (hg : s.frame q = some g) : g.op.tid ∉ s.closed := by
  have hst := h.stage p f hf hcl
  simp only [hpc, Pc.CloseStage] at hst
  cases hgc : g.op.closes with
  | false => exact (h.users q g hg hgc).2
  | true =>
    have hgst := h.stage q g hg hgc
    have hin : g.loc = .inside g.op.tid → g.op.tid ∉ s.closed := by
      intro hgl
      have hpq := h.exclusive hf hg hcl hgc (by simp [Frame.loc, hpc]) hgl
      subst hpq
      obtain rfl := Option.some.inj (hf.symm.trans hg)
      exact hst
    cases hgpc : g.pc <;> simp only [hgpc, Pc.CloseStage] at hgst
    case setFlag | setTurn | loadFlag | loadTurn => exact hgst
    case cFree =>
      rw [hgst] at hst
      cases hft : f.op.tid <;> cases hgt : g.op.tid <;> simp [hft, hgt, Side.other] at hst
    all_goals exact hin (by simp [Frame.loc, hgpc])

/-- A closer that is about to clear its flag is the first one or the second one. -/
theorem closed_of_cOpen (h : s.Closing) {f : Frame P} (hf : s.frame p = some f)
    (hcl : f.op.closes = true) (hpc : f.pc = .cOpen) :
    s.closed = [] ∨ s.closed = [f.op.tid.other] := by
  have hst := h.stage p f hf hcl
  simp only [hpc, Pc.CloseStage] at hst
  rcases h.shape with hc | ⟨b, hc | hc⟩ <;> rw [hc] at hst ⊢
  · exact Or.inl rfl
  · right
    rw [Side.eq_other_of_ne (s := f.op.tid) (t := b) (by rintro rfl; simp at hst)]
  · cases b <;> cases hft : f.op.tid <;> simp [hft, Side.other] at hst

/-- The other processes are then on the other side, which is open. -/
theorem side_of_cOpen (h : s.Closing) {f : Frame P} (hf : s.frame p = some f)
    (hcl : f.op.closes = true) (hpc : f.pc = .cOpen) {q : P} (hq : q ≠ p) {g : Frame P}
    (hg : s.frame q = some g) :
    g.op.tid = f.op.tid.other ∧ g.op.tid ∉ s.closed ++ [f.op.tid] := by
  have hne : g.op.tid ≠ f.op.tid := fun ht => hq (h.alone p q f g hf hg hcl ht)
  refine ⟨Side.eq_other_of_ne hne, ?_⟩
  simpa using ⟨h.not_mem_closed hf hcl hpc hg, hne⟩

/-- The closer clears its open flag. -/
theorem cOpen_step (h : s.Closing) (hC : s.Orderly (p, .run)) {f : Frame P}
    (hf : s.frame p = some f) (hcl : f.op.closes = true) (hpc : f.pc = .cOpen)
    (hs : s.step c p .run = some s') (hrun : s.run c p f = some s') : s'.Closing := by
  have hfreed := h.freed_nil hf
  have hshape := h.closed_of_cOpen hf hcl hpc
  have hal := h.alone_step hC hs
  have hfair := h.fair_step hs
  simp only [run, hpc, Option.some.injEq] at hrun
  have hclosed : s'.closed = s.closed ++ [f.op.tid] := by rw [← hrun]; rfl
  have hfreed' : s'.freed = [] := by rw [← hrun]; exact hfreed
  have hframe : s'.frame p = some { f with pc := .cWake c.table } := by
    rw [← hrun, goto_frame_self]
  have htouched : s'.touched = false := by rw [← hrun]; exact h.untouched
  have hopens : ∀ e, s'.pipe.isOpen e = decide (e ∉ s'.closed) := by
    intro e
    have hpipe : s'.pipe.isOpen e = if e = f.op.tid then false else s.pipe.isOpen e := by
      rw [← hrun]
      cases f.op.tid <;> cases e <;> rfl
    rw [hpipe, hclosed, h.opens e]
    split_ifs with he <;> simp [he]
  refine ⟨hal, hfair, fun q g' hg' hgc => ?_, fun q g' hg' hgc => ?_, ?_, hopens,
    fun e he q g' hg' => ?_, fun e he => Or.inl ⟨hfreed', p, _, hframe, hcl⟩, fun _ => hfreed',
    htouched⟩
  · by_cases hq : q = p
    · subst hq
      rw [← Option.some.inj (hframe.symm.trans hg')] at hgc
      exact absurd hcl (by simp [hgc])
    · obtain ⟨g, hg, hop, hpc', -⟩ := h.other_frame hs hq hg'
      rw [hop] at hgc
      rw [hpc', hop, hclosed]
      exact ⟨(h.users q g hg hgc).1, (h.side_of_cOpen hf hcl hpc hq hg).2⟩
  · by_cases hq : q = p
    · subst hq
      rw [← Option.some.inj (hframe.symm.trans hg')]
      simp [Pc.CloseStage, hclosed]
    · obtain ⟨g, hg, hop, -, heq⟩ := h.other_frame hs hq hg'
      rw [hop] at hgc
      have hgst := h.stage q g hg hgc
      have hgm := h.not_mem_closed hf hcl hpc hg
      have hnot := (h.side_of_cOpen hf hcl hpc hq hg).2
      rw [← hclosed] at hnot
      rw [heq hgc]
      cases hgpc : g.pc <;> simp only [hgpc, Pc.CloseStage] at hgst ⊢
      case setFlag | setTurn | loadFlag | loadTurn | cOpen => exact hnot
      case cWake | cReadopen => exact absurd (List.mem_of_getLast? hgst) hgm
      case cWriteopen => exact absurd (List.mem_of_getLast? hgst.1) hgm
      all_goals
        rw [hgst] at hgm
        simp at hgm
  · right
    rcases hshape with hc | hc
    · exact ⟨f.op.tid, Or.inl (by rw [hclosed, hc]; rfl)⟩
    · exact ⟨f.op.tid.other, Or.inr (by rw [hclosed, hc, Side.other_other]; rfl)⟩
  · have he' : e.other = f.op.tid := by
      rw [hclosed] at he
      rcases hshape with hc | hc <;> rw [hc] at he
      · cases he
      · simpa using (List.cons.inj (List.cons.inj he).2).1.symm
    by_cases hq : q = p
    · subst hq
      rw [← Option.some.inj (hframe.symm.trans hg'), he']
    · obtain ⟨g, hg, hop, -⟩ := h.other_frame hs hq hg'
      obtain ⟨htid, hnot⟩ := h.side_of_cOpen hf hcl hpc hq hg
      rw [← hclosed, he, htid, ← he', Side.other_other] at hnot
      exact absurd List.mem_cons_self hnot

/-- The second closer frees the page. -/
theorem cFree_step (h : s.Closing) (hC : s.Orderly (p, .run)) {f : Frame P}
    (hf : s.frame p = some f) (hcl : f.op.closes = true) (hpc : f.pc = .cFree)
    (hs : s.step c p .run = some s') (hrun : s.run c p f = some s') : s'.Closing := by
  have hst := h.stage p f hf hcl
  simp only [hpc, Pc.CloseStage] at hst
  have hal := h.alone_step hC hs
  have hfair := h.fair_step hs
  have hnone : ∀ q, s'.frame q = none := by
    intro q
    simp only [run, hpc, Option.some.injEq] at hrun
    rw [← hrun]
    by_cases hq : q = p
    · subst hq
      simp [leave]
    · cases hg : s.frame q with
      | none => simp [leave, Function.update_of_ne hq, hg]
      | some g =>
        have htid := h.first f.op.tid.other (by rw [hst, Side.other_other]) q g hg
        rw [Side.other_other] at htid
        exact absurd (h.alone p q f g hf hg hcl htid) hq
  have hframe : ∀ {q g}, s'.frame q ≠ some g := by
    intro q g hg
    rw [hnone q] at hg
    cases hg
  simp only [run, hpc, Option.some.injEq] at hrun
  have hclosed : s'.closed = [f.op.tid.other, f.op.tid] := by rw [← hrun]; exact hst
  have hfreed : s'.freed = [f.op.tid] := by
    rw [← hrun]
    show s.freed ++ [f.op.tid] = [f.op.tid]
    rw [h.freed_nil hf]
    rfl
  refine ⟨hal, hfair, fun _ _ hg => absurd hg hframe, fun _ _ hg => absurd hg hframe,
    Or.inr ⟨f.op.tid.other, Or.inr (by rw [hclosed, Side.other_other])⟩, fun e => ?_,
    fun _ _ _ _ hg => absurd hg hframe, fun e he => ?_, fun hlt => ?_, ?_⟩
  · rw [hclosed, ← hst, ← h.opens e, ← hrun]
    rfl
  · rw [hclosed] at he
    refine Or.inr ⟨?_, hnone⟩
    rw [hfreed]
    exact (List.cons.inj he).2
  · rw [hclosed] at hlt
    simp at hlt
  · rw [← hrun]
    exact h.untouched

theorem touch_of_freed_nil (h : s.freed = []) (pc : Pc P) : s.touch pc = s := by
  cases s
  simp_all [touch]

/-- Any step of a reader or writer. -/
theorem step_user (h : s.Closing) {f : Frame P} (hf : s.frame p = some f)
    (hop : f.op.closes = false) (hs : s.step c p a = some s') :
    s.SameEnds s' ∧ ∀ f', s'.frame p = some f' → f'.pc.closes = false := by
  have hpc := (h.users p f hf hop).1
  cases a <;> simp only [Sys.step, hf, Option.ite_none_left_eq_some, Option.some.injEq,
    Option.ite_none_right_eq_some, reduceCtorEq, and_false] at hs <;> obtain ⟨-, hs⟩ := hs
  case run =>
    rw [touch_of_freed_nil (h.freed_nil hf)] at hs
    exact run_user hf hop hpc hs
  case copyin ch =>
    obtain ⟨-, rfl⟩ := hs
    cases ch <;> exact ⟨⟨rfl, rfl, rfl, fun _ => rfl⟩, closes_goto rfl⟩
  case copyout ok =>
    obtain ⟨-, rfl⟩ := hs
    cases ok <;> exact ⟨⟨rfl, rfl, rfl, fun _ => rfl⟩, closes_goto rfl⟩
  case kill =>
    subst hs
    refine ⟨⟨rfl, rfl, rfl, fun _ => rfl⟩, fun f' hf' => ?_⟩
    obtain rfl : f.resume = f' := by simpa using hf'
    rw [f.closes_resume]
    exact hpc

/-- An orderly step of a process that is in no call : it makes one, or is killed. -/
theorem step_none (h : s.Closing) (hC : s.Orderly (p, a)) (hf : s.frame p = none)
    (hs : s.step c p a = some s') : s'.Closing := by
  have hstays : s.Closer p → s.closed.length = 2 → s'.Closer p := by
    rintro ⟨f, hf', -⟩
    rw [hf] at hf'
    cases hf'
  have hs0 := hs
  cases a <;> simp only [Sys.step, hf, Option.ite_none_left_eq_some, Option.some.injEq,
    reduceCtorEq, and_false] at hs
  case call op =>
    obtain ⟨-, rfl⟩ := hs
    have hop := (hC op rfl).1
    refine h.of_same hC hs0 ⟨rfl, rfl, rfl, fun _ => rfl⟩ (fun f' hf' _ => ?_)
      (fun f' hf' _ => ?_) hstays
    · obtain rfl : _ = f' := by simpa using hf'
      exact ⟨rfl, hop⟩
    · obtain rfl : _ = f' := by simpa using hf'
      exact hop
  case kill =>
    obtain ⟨-, rfl⟩ := hs
    refine h.of_same hC hs0 ⟨rfl, rfl, rfl, fun _ => rfl⟩ (fun f' hf' _ => ?_)
      (fun f' hf' _ => ?_) hstays
    · simp at hf'
    · simp at hf'

/-- An orderly step of a closer. -/
theorem step_closer (h : s.Closing) (hC : s.Orderly (p, a)) {f : Frame P}
    (hf : s.frame p = some f) (hcl : f.op.closes = true) (hs : s.step c p a = some s') :
    s'.Closing := by
  have hst := h.stage p f hf hcl
  have hs0 := hs
  cases a <;> simp only [Sys.step, hf, Option.ite_none_left_eq_some, Option.some.injEq,
    Option.ite_none_right_eq_some, reduceCtorEq, and_false] at hs <;> obtain ⟨-, hs⟩ := hs
  case run =>
    rw [touch_of_freed_nil (h.freed_nil hf)] at hs
    by_cases ho : f.pc = .cOpen
    · exact h.cOpen_step hC hf hcl ho hs0 hs
    by_cases hfr : f.pc = .cFree
    · exact h.cFree_step hC hf hcl hfr hs0 hs
    obtain ⟨hsame, hstage, hgone⟩ := h.run_closer hf hcl ho hfr hs
    refine h.of_same hC hs0 hsame (fun f' hf' hop => ?_) (fun f' hf' _ => ?_) fun _ hlen => ?_
    · rw [run_op hf hs hf', hcl] at hop
      cases hop
    · rw [run_op hf hs hf']
      exact hstage f' hf'
    · cases hf' : s'.frame p with
      | none =>
        rw [hgone hf'] at hlen
        cases hlen
      | some f' => exact ⟨f', hf', by rw [run_op hf hs hf', hcl]⟩
  case copyin ch =>
    rw [hs.1] at hst
    exact hst.elim
  case copyout ok =>
    rw [hs.1] at hst
    exact hst.elim
  case kill =>
    subst hs
    have hframe : ∀ {f'}, Function.update s.frame p (Option.map (·.resume) (some f)) p = some f' →
        f' = f := by
      intro f' hf'
      rw [Function.update_self, Option.map_some, Frame.resume_of_closeStage hst] at hf'
      exact (Option.some.inj hf').symm
    refine h.of_same hC hs0 ⟨rfl, rfl, rfl, fun _ => rfl⟩ (fun f' hf' hop => ?_)
      (fun f' hf' _ => ?_) fun _ _ => ⟨f.resume, by simp, by rw [f.op_resume, hcl]⟩
    · rw [hframe hf', hcl] at hop
      cases hop
    · rw [hframe hf']
      exact hst

/-- An orderly step keeps the invariant. -/
theorem step (h : s.Closing) (hC : s.Orderly (p, a)) (hs : s.step c p a = some s') :
    s'.Closing := by
  cases hf : s.frame p with
  | none => exact h.step_none hC hf hs
  | some f =>
    cases hop : f.op.closes with
    | true => exact h.step_closer hC hf hop hs
    | false =>
      have hop' : ∀ {f'}, s'.frame p = some f' → f'.op = f.op := by
        intro f' hf'
        rcases step_op hs hf' with ⟨g, hg, hgop⟩ | ⟨-, rfl⟩
        · rw [← hgop, Option.some.inj (hg.symm.trans hf)]
        · simp [Sys.step, hf] at hs
      obtain ⟨hsame, hpc⟩ := h.step_user hf hop hs
      refine h.of_same hC hs hsame (fun f' hf' _ => ?_) (fun f' hf' hcl => ?_) fun hcl => ?_
      · rw [hop' hf']
        exact ⟨hpc f' hf', (h.users p f hf hop).2⟩
      · rw [hop' hf', hop] at hcl
        cases hcl
      · obtain ⟨g, hg, hcl⟩ := hcl
        rw [Option.some.inj (hg.symm.trans hf), hop] at hcl
        cases hcl

/-- A step that closes no end, and ends no call of a closer whose end is open. -/
theorem closedStep_of_eq (heq : s'.closed = s.closed)
    (h : ∀ f, s.frame p = some f → f.op.closes = true → s'.frame p = none →
      f.op.tid ∈ s.closed) : s.ClosedStep p s' :=
  ⟨fun _ he => heq ▸ he, fun _ he => Or.inl (heq ▸ he), fun f hf hcl hn => heq ▸ h f hf hcl hn⟩

theorem closed_step (h : s.Closing) (hs : s.step c p a = some s') : s.ClosedStep p s' := by
  cases hf : s.frame p with
  | none =>
    refine closedStep_of_eq ?_ fun f hf' => by rw [hf] at hf'; cases hf'
    cases a <;> simp only [Sys.step, hf, Option.ite_none_left_eq_some, Option.some.injEq,
      reduceCtorEq, and_false] at hs
    case call | kill =>
      obtain ⟨-, rfl⟩ := hs
      rfl
  | some f =>
    have hfeq : ∀ {g}, s.frame p = some g → g = f := fun hg => Option.some.inj (hg.symm.trans hf)
    cases hop : f.op.closes with
    | false =>
      refine closedStep_of_eq (h.step_user hf hop hs).1.1 fun g hg hcl => ?_
      rw [hfeq hg, hop] at hcl
      cases hcl
    | true =>
      have hst := h.stage p f hf hop
      cases a <;> simp only [Sys.step, hf, Option.ite_none_left_eq_some, Option.some.injEq,
        Option.ite_none_right_eq_some, reduceCtorEq, and_false] at hs <;> obtain ⟨-, hs⟩ := hs
      case run =>
        rw [touch_of_freed_nil (h.freed_nil hf)] at hs
        by_cases ho : f.pc = .cOpen
        · simp only [run, ho, Option.some.injEq] at hs
          subst hs
          refine ⟨fun e he => List.mem_append_left _ he, fun e he => ?_, fun g _ _ hn => ?_⟩
          · rcases List.mem_append.mp he with he | he
            · exact Or.inl he
            · exact Or.inr ⟨f, hf, hop, (List.mem_singleton.mp he).symm⟩
          · rw [goto_frame_self] at hn
            cases hn
        by_cases hfr : f.pc = .cFree
        · simp only [hfr, Pc.CloseStage] at hst
          simp only [run, hfr, Option.some.injEq] at hs
          subst hs
          refine closedStep_of_eq rfl fun g hg _ _ => ?_
          rw [hfeq hg, hst]
          simp
        obtain ⟨hsame, -, hgone⟩ := h.run_closer hf hop ho hfr hs
        refine closedStep_of_eq hsame.1 fun g hg _ hn => ?_
        rw [hfeq hg, hgone hn]
        simp
      case copyin | copyout =>
        rw [hs.1] at hst
        exact hst.elim
      case kill =>
        subst hs
        refine closedStep_of_eq rfl fun g _ _ hn => ?_
        simp at hn

end Closing

end Sys

end Xv6
