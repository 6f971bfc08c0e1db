import Mathlib.Algebra.BigOperators.Group.Finset.Piecewise
import Mathlib.Data.Fintype.Prod
import Xv6.PipeClose

/-!
# The file objects of a pipe

The two file objects `pipealloc` makes for a pipe, their reference counts, and the processes
that hold them : kernel/file.c, the system calls of kernel/sysfile.c that take or drop a
reference, and the loops over `ofile` of kfork and kexit. A file object is the end it stands
for; every other file is `File.other`.

`Files.step` takes each critical section of `ftable.lock` as one step. `p->ofile` is read and
written by its own process only, or by its parent's kfork before it runs, and what a system call
does to it goes with the section next to it. Reads, writes and closes go on as the calls of
pipe.c they make, one load or store at a time (`FileAct.pipe`).

A reference is held by a descriptor or by a local variable of sys_pipe, and the count of an
end is the number of those (`Files.Inv.balance`). A process in a read or write has its
descriptor, so the last reference is dropped when nobody is in a call on the end : the calls
are orderly (`Sys.Orderly`), and the page is freed once (`pipe_freed_once`).
-/

set_option linter.unusedSectionVars false

namespace Xv6

open Function (update_self update_of_ne)

/-- `NOFILE`. -/
abbrev NOFILE : ℕ := 16

/-- What a descriptor refers to. -/
inductive File
  /-- An end of the pipe. -/
  | pipe (e : Side)
  /-- Any other file. -/
  | other
  deriving DecidableEq, Repr

/-- What a process is doing outside pipe.c. -/
inductive Task (P : Type)
  /-- Nothing that concerns files : in user space, or in a call that is not modelled. -/
  | user
  /-- sys_pipe, back from `pipealloc`. -/
  | pipe
  /-- sys_pipe failed, with the file objects left to close. -/
  | drop (es : List Side)
  /-- kfork, at descriptor `i` of the loop that fills the child's table. -/
  | fork (np : P) (i : ℕ)
  /-- Made by `allocproc`, not yet RUNNABLE. -/
  | embryo
  /-- kexit, at descriptor `i` of the loop that closes the files. -/
  | exit (i : ℕ)
  | zombie
  | unused
  deriving DecidableEq, Repr

/-- The references in local variables. -/
def Task.held {P : Type} : Task P → List Side
  | pipe => [.one, .zero]
  | drop es => es
  | _ => []

/-- The task says nothing of the descriptors. -/
def Task.plain {P : Type} : Task P → Bool
  | user | pipe | drop _ => true
  | _ => false

/-- A `panic` of file.c. -/
inductive FilePanic
  | filedup
  | fileclose
  deriving DecidableEq, Repr

/-- The pipe, the descriptors, the reference counts of the two file objects, and what each
process is doing. -/
structure Files (P : Type) where
  sys : Sys P
  ofile : P × Fin NOFILE → Option File
  ref : Side → ℕ
  task : P → Task P
  panic : Option FilePanic

/-- What a process does next. -/
inductive FileAct (P : Type)
  /-- A step of the call of pipe.c it is in, or a `kkill` that reaches it. -/
  | pipe (a : PipeAct)
  /-- The rest of sys_pipe; `ok` says whether its copyouts succeed. -/
  | syspipe (ok : Bool)
  /-- A system call that opens another file. -/
  | sysopen
  | dup (fd : Fin NOFILE)
  | close (fd : Fin NOFILE)
  | read (fd : Fin NOFILE) (n : Int)
  | write (fd : Fin NOFILE) (n : Int)
  | fork (np : P)
  | exit
  /-- The next descriptor of a loop. -/
  | next
  /-- The parent's kwait frees the slot. -/
  | reap

namespace Files

variable {P : Type} [DecidableEq P]

/-- Store into a descriptor table. -/
def setFd (s : Files P) (p : P) (fd : Fin NOFILE) (f : Option File) : Files P :=
  { s with ofile := Function.update s.ofile (p, fd) f }

/-- Process `p` goes on with `t`. -/
def setTask (s : Files P) (p : P) (t : Task P) : Files P :=
  { s with task := Function.update s.task p t }

/-- The first free descriptor. -/
def fdalloc (s : Files P) (p : P) : Option (Fin NOFILE) :=
  (List.finRange NOFILE).find? fun fd => (s.ofile (p, fd)).isNone

def filedup (s : Files P) : File → Files P
  | .pipe e =>
    if s.ref e < 1 then { s with panic := some .filedup }
    else { s with ref := Function.update s.ref e (s.ref e + 1) }
  | .other => s

/-- Process `p` calls into pipe.c. -/
def call (c : Config P) (s : Files P) (p : P) (op : PipeOp) : Option (Files P) :=
  (s.sys.step c p (.call op)).map fun sys => { s with sys := sys }

/-- The section of `fileclose`, and the call of `pipeclose` when the last reference goes. -/
def fileclose (c : Config P) (s : Files P) (p : P) : File → Option (Files P)
  | .pipe e =>
    if s.ref e < 1 then some { s with panic := some .fileclose }
    else
      let s' := { s with ref := Function.update s.ref e (s.ref e - 1) }
      if s.ref e - 1 > 0 then some s' else s'.call c p (.pipeclose (e = .zero))
  | .other => some s

/-- The write end is not readable. -/
def fileread (c : Config P) (s : Files P) (p : P) (n : Int) : File → Option (Files P)
  | .pipe .one => s.call c p (.piperead n)
  | _ => some s

/-- The read end is not writable. -/
def filewrite (c : Config P) (s : Files P) (p : P) (n : Int) : File → Option (Files P)
  | .pipe .zero => s.call c p (.pipewrite n)
  | _ => some s

/-- sys_pipe from the return of `pipealloc` : the descriptors, and if there are not two or a
copyout fails, the way to the two `fileclose`. -/
def sysPipe (s : Files P) (p : P) (ok : Bool) : Files P :=
  match s.fdalloc p with
  | none => s.setTask p (.drop [.one, .zero])
  | some fd0 =>
    let s0 := s.setFd p fd0 (some (.pipe .one))
    match s0.fdalloc p with
    | none => (s0.setFd p fd0 none).setTask p (.drop [.one, .zero])
    | some fd1 =>
      let s1 := s0.setFd p fd1 (some (.pipe .zero))
      if ok then s1.setTask p .user
      else ((s1.setFd p fd0 none).setFd p fd1 none).setTask p (.drop [.one, .zero])

/-- sys_dup. -/
def sysDup (s : Files P) (p : P) (fd : Fin NOFILE) : Files P :=
  match s.ofile (p, fd) with
  | none => s
  | some f =>
    match s.fdalloc p with
    | none => s
    | some fd' => (s.setFd p fd' (some f)).filedup f

/-- One descriptor of kfork's loop, or the end of kfork. -/
def forkNext (s : Files P) (p np : P) (i : ℕ) : Files P :=
  if h : i < NOFILE then
    match s.ofile (p, ⟨i, h⟩) with
    | none => s.setTask p (.fork np (i + 1))
    | some f => ((s.setFd np ⟨i, h⟩ (some f)).setTask p (.fork np (i + 1))).filedup f
  else (s.setTask p .user).setTask np .user

/-- One descriptor of kexit's loop, or its end. -/
def exitNext (c : Config P) (s : Files P) (p : P) (i : ℕ) : Option (Files P) :=
  if h : i < NOFILE then
    match s.ofile (p, ⟨i, h⟩) with
    | none => some (s.setTask p (.exit (i + 1)))
    | some f => ((s.setFd p ⟨i, h⟩ none).setTask p (.exit (i + 1))).fileclose c p f
  else some (s.setTask p .zombie)

/-- One step of process `p` outside pipe.c. -/
def kernel (c : Config P) (s : Files P) (p : P) (a : FileAct P) : Option (Files P) :=
  match s.task p, a with
  | .pipe, .syspipe ok => some (s.sysPipe p ok)
  | .drop (e :: es), .next => (s.setTask p (.drop es)).fileclose c p (.pipe e)
  | .drop [], .next => some (s.setTask p .user)
  | .user, .sysopen => some (((s.fdalloc p).map fun fd => s.setFd p fd (some .other)).getD s)
  | .user, .dup fd => some (s.sysDup p fd)
  | .user, .close fd =>
    match s.ofile (p, fd) with
    | none => some s
    | some f => (s.setFd p fd none).fileclose c p f
  | .user, .read fd n =>
    match s.ofile (p, fd) with
    | none => some s
    | some f => s.fileread c p n f
  | .user, .write fd n =>
    match s.ofile (p, fd) with
    | none => some s
    | some f => s.filewrite c p n f
  | .user, .fork np =>
    if s.task np = .unused then some ((s.setTask p (.fork np 0)).setTask np .embryo) else none
  | .fork np i, .next => some (s.forkNext p np i)
  | .user, .exit => some (s.setTask p (.exit 0))
  | .exit i, .next => s.exitNext c p i
  | .zombie, .reap => some { s.setTask p .unused with
      sys := { s.sys with killed := Function.update s.sys.killed p false } }
  | _, _ => none

/-- One step of process `p`. No step is taken once the kernel has stopped. -/
def step (c : Config P) (s : Files P) (p : P) (a : FileAct P) : Option (Files P) :=
  if s.panic.isSome then none
  else
    match a with
    | .pipe (.call _) => none
    | .pipe a => (s.sys.step c p a).map fun sys => { s with sys := sys }
    | a => if (s.sys.frame p).isSome then none else s.kernel c p a

/-- The descriptor tables and the tasks fit together. -/
structure TaskWf (s : Files P) : Prop where
  fork : ∀ p np i, s.task p = .fork np i →
    s.task np = .embryo ∧ ∀ j : Fin NOFILE, i ≤ j.val → s.ofile (np, j) = none
  sole : ∀ p q np i j, s.task p = .fork np i → s.task q = .fork np j → p = q
  empty : ∀ p, s.task p = .unused ∨ s.task p = .zombie → ∀ fd, s.ofile (p, fd) = none
  exit : ∀ p i, s.task p = .exit i → ∀ j : Fin NOFILE, j.val < i → s.ofile (p, j) = none

/-- The state at the return of `pipealloc` to some process : the pipe is fresh, its two files
have the one reference each that sys_pipe holds, and the processes are wherever they are. -/
structure Init (s : Files P) : Prop where
  sys : PipeInit s.sys
  ref : ∀ e, s.ref e = 1
  ofile : ∀ x e, s.ofile x ≠ some (.pipe e)
  task : ∃ p, s.task p = .pipe ∧ ∀ q, q ≠ p → (s.task q).held = []
  panic : s.panic = none
  wf : s.TaskWf

end Files

/-- The processes of `P`, the descriptors of one pipe and the pipe. -/
def filesMachine {P : Type} [DecidableEq P] (c : Config P) :
    Machine (Files P) (P × FileAct P) where
  init := Files.Init
  step s a := s.step c a.1 a.2

theorem sum_update {ι β : Type*} [Fintype ι] [DecidableEq ι] (f : ι → β) (g : β → ℕ) (i : ι)
    (v : β) : ∑ x, g (Function.update f i v x) + g (f i) = ∑ x, g (f x) + g v := by
  have h : (fun x => g (Function.update f i v x)) = Function.update (fun x => g (f x)) i (g v) := by
    funext x
    by_cases hx : x = i
    · subst hx
      simp
    · simp [update_of_ne hx]
  have hsum := Finset.add_sum_erase Finset.univ (fun x => g (f x)) (Finset.mem_univ i)
  rw [h, Finset.sum_update_of_mem (Finset.mem_univ i), Finset.sdiff_singleton_eq_erase, ← hsum]
  omega

namespace Files

variable {P : Type} [DecidableEq P] [Fintype P] {c : Config P} {s s' : Files P} {p : P}

/-- The references of `e` that a descriptor is. -/
def weight (e : Side) (f : Option File) : ℕ :=
  if f = some (.pipe e) then 1 else 0

/-- The references of `e`, in descriptors and in local variables. -/
def held (s : Files P) (e : Side) : ℕ :=
  ∑ x, weight e (s.ofile x) + ∑ p, (s.task p).held.count e

theorem held_setFd (s : Files P) (p : P) (fd : Fin NOFILE) (f : Option File) (e : Side) :
    (s.setFd p fd f).held e + weight e (s.ofile (p, fd)) = s.held e + weight e f := by
  have := sum_update s.ofile (weight e) (p, fd) f
  simp only [held, setFd]
  omega

theorem held_setTask (s : Files P) (p : P) (t : Task P) (e : Side) :
    (s.setTask p t).held e + (s.task p).held.count e = s.held e + t.held.count e := by
  have := sum_update s.task (fun t => t.held.count e) p t
  simp only [held, setTask]
  omega

theorem weight_pos {e : Side} {f : Option File} (h : f = some (.pipe e)) : weight e f = 1 := by
  simp [weight, h]

theorem held_pos {x : P × Fin NOFILE} {e : Side} (h : s.ofile x = some (.pipe e)) :
    0 < s.held e := by
  have hsum := Finset.add_sum_erase Finset.univ (fun x => weight e (s.ofile x)) (Finset.mem_univ x)
  rw [weight_pos h] at hsum
  unfold held
  omega

/-- What holds of the processes and the pipe, whatever the counts. -/
structure Core (s : Files P) : Prop where
  /-- A reader or writer has a descriptor of its end. -/
  users : ∀ p f, s.sys.frame p = some f → f.op.closes = false →
    ∃ fd, s.ofile (p, fd) = some (.pipe f.op.tid)
  /-- A closer's end has no references. -/
  closers : ∀ p f, s.sys.frame p = some f → f.op.closes = true → s.ref f.op.tid = 0
  /-- Nor has a closed end. -/
  closed : ∀ e, e ∈ s.sys.closed → s.ref e = 0
  closing : s.sys.Closing
  panic : s.panic = none
  wf : s.TaskWf

/-- An end without references is closed, or is being closed. -/
def Started (s : Files P) : Prop :=
  ∀ e, s.ref e = 0 → e ∈ s.sys.closed ∨
    ∃ p f, s.sys.frame p = some f ∧ f.op.closes = true ∧ f.op.tid = e

/-- The invariant : every reference is counted besides. -/
structure Inv (s : Files P) : Prop extends Core s where
  started : s.Started
  balance : ∀ e, s.ref e = s.held e

/-- `Core` speaks of the counts only where they are zero. -/
theorem Core.of_sys (h : s.Core) (hsys : s'.sys = s.sys) (hzero : ∀ e, s.ref e = 0 → s'.ref e = 0)
    (hslots : ∀ q f fd e, s.sys.frame q = some f → s.ofile (q, fd) = some (.pipe e) →
      s'.ofile (q, fd) = some (.pipe e))
    (hpanic : s'.panic = none) (hwf : s'.TaskWf) : s'.Core := by
  refine ⟨fun q f hf hop => ?_, fun q f hf hop => ?_, fun e he => ?_, ?_, hpanic, hwf⟩
  · rw [hsys] at hf
    obtain ⟨fd, hfd⟩ := h.users q f hf hop
    exact ⟨fd, hslots q f fd _ hf hfd⟩
  · rw [hsys] at hf
    exact hzero _ (h.closers q f hf hop)
  · rw [hsys] at he
    exact hzero e (h.closed e he)
  · rw [hsys]
    exact h.closing

theorem Started.of_sys (h : s.Started) (hsys : s'.sys = s.sys)
    (hzero : ∀ e, s'.ref e = 0 → s.ref e = 0) : s'.Started := by
  intro e he
  rw [hsys]
  exact h e (hzero e he)

/-- The counts are no part of `TaskWf`. -/
theorem TaskWf.setRef (h : s.TaskWf) (r : Side → ℕ) : TaskWf { s with ref := r } :=
  ⟨h.fork, h.sole, h.empty, h.exit⟩

/-- `filedup` counts a reference that is there already. -/
theorem filedup_inv (h : s.Core) (hst : s.Started) {f : File}
    (hbal : ∀ e, s.ref e + weight e (some f) = s.held e)
    (hpos : ∀ e, f = .pipe e → 0 < s.ref e) : (s.filedup f).Inv := by
  cases f with
  | other => exact ⟨h, hst, fun e => by simpa [weight, filedup] using hbal e⟩
  | pipe e =>
    have he := hpos e rfl
    have hdup : s.filedup (.pipe e) = { s with ref := Function.update s.ref e (s.ref e + 1) } := by
      simp only [filedup]
      rw [if_neg (by omega)]
    have hzero : ∀ e', Function.update s.ref e (s.ref e + 1) e' = 0 ↔ s.ref e' = 0 := by
      intro e'
      by_cases hee : e' = e
      · rw [hee, update_self]
        omega
      · rw [update_of_ne hee]
    rw [hdup]
    refine ⟨h.of_sys rfl (fun e' => (hzero e').mpr) (fun _ _ _ _ _ hfd => hfd) h.panic
      (h.wf.setRef _), hst.of_sys rfl fun e' => (hzero e').mp, fun e' => ?_⟩
    have hb := hbal e'
    by_cases hee : e' = e
    · rw [hee, weight_pos rfl] at hb
      rw [hee]
      exact (update_self ..).trans hb
    · rw [weight, if_neg (by simpa using Ne.symm hee)] at hb
      exact (update_of_ne hee ..).trans hb

/-- A call of pipe.c that keeps order. -/
theorem call_core (h : s.Core) {op : PipeOp} (hp : s.sys.frame p = none)
    (hC : s.sys.Orderly (p, .call op))
    (huser : op.closes = false → ∃ fd, s.ofile (p, fd) = some (.pipe op.tid))
    (hcloser : op.closes = true → s.ref op.tid = 0) (hs : s.call c p op = some s') :
    s'.Core ∧ s' = { s with sys := { s.sys with
      frame := Function.update s.sys.frame p (some ⟨op, 0, 0, 0, .setFlag⟩) } } := by
  obtain ⟨sys, hstep, rfl⟩ := Option.map_eq_some_iff.mp hs
  have hclosing := h.closing.step hC hstep
  simp only [Sys.step, hp, Option.ite_none_left_eq_some, Option.some.injEq] at hstep
  obtain ⟨-, rfl⟩ := hstep
  have hframe : ∀ {q f}, Function.update s.sys.frame p (some ⟨op, 0, 0, 0, .setFlag⟩) q = some f →
      (q = p ∧ f.op = op) ∨ s.sys.frame q = some f := by
    intro q f hf
    by_cases hq : q = p
    · subst hq
      rw [update_self, Option.some.injEq] at hf
      exact Or.inl ⟨rfl, by rw [← hf]⟩
    · exact Or.inr (by rwa [update_of_ne hq] at hf)
  refine ⟨⟨fun q f hf hop => ?_, fun q f hf hop => ?_, h.closed, hclosing, h.panic,
    ⟨h.wf.fork, h.wf.sole, h.wf.empty, h.wf.exit⟩⟩, rfl⟩
  · rcases hframe hf with ⟨rfl, hfop⟩ | hf
    · rw [hfop] at hop ⊢
      exact huser hop
    · exact h.users q f hf hop
  · rcases hframe hf with ⟨rfl, hfop⟩ | hf
    · rw [hfop] at hop ⊢
      exact hcloser hop
    · exact h.closers q f hf hop

/-- Who was closing still is, after a call of another process. -/
theorem started_call {f₀ : Frame P} (hp : s.sys.frame p = none) {e : Side}
    (h : e ∈ s.sys.closed ∨ ∃ p f, s.sys.frame p = some f ∧ f.op.closes = true ∧ f.op.tid = e) :
    e ∈ s.sys.closed ∨ ∃ q f, Function.update s.sys.frame p (some f₀) q = some f ∧
      f.op.closes = true ∧ f.op.tid = e := by
  rcases h with hc | ⟨q, f, hf, hcl, htid⟩
  · exact Or.inl hc
  · refine Or.inr ⟨q, f, ?_, hcl, htid⟩
    have hq : q ≠ p := by
      rintro rfl
      rw [hp] at hf
      cases hf
    exact (update_of_ne hq ..).trans hf

/-- A read or write by a process that has a descriptor of the end. -/
theorem call_inv (h : s.Inv) {op : PipeOp} {fd : Fin NOFILE} (hp : s.sys.frame p = none)
    (hop : op.closes = false) (hfd : s.ofile (p, fd) = some (.pipe op.tid))
    (hs : s.call c p op = some s') : s'.Inv := by
  have hpos : s.ref op.tid ≠ 0 := by
    rw [h.balance]
    exact (held_pos hfd).ne'
  have hC : s.sys.Orderly (p, .call op) := by
    intro op' hop'
    obtain rfl := PipeAct.call.inj hop'
    refine ⟨fun hc => hpos (h.closed _ hc), fun q f hf htid => ⟨?_, hop⟩⟩
    by_contra hcl
    refine hpos ?_
    rw [← htid]
    exact h.closers q f hf (by simpa using hcl)
  obtain ⟨hcore, rfl⟩ := call_core h.toCore hp hC (fun _ => ⟨fd, hfd⟩)
    (fun hcl => by rw [hop] at hcl; cases hcl) hs
  exact ⟨hcore, fun e he => started_call hp (h.started e he), h.balance⟩

theorem tid_pipeclose (e : Side) : (PipeOp.pipeclose (e = .zero)).tid = e := by
  cases e <;> rfl

/-- `fileclose` drops a reference that is no longer held. -/
theorem fileclose_inv (h : s.Core) (hst : s.Started) {f : File} (hp : s.sys.frame p = none)
    (hbal : ∀ e, s.ref e = s.held e + weight e (some f)) (hs : s.fileclose c p f = some s') :
    s'.Inv := by
  cases f with
  | other =>
    obtain rfl : s = s' := by simpa [fileclose] using hs
    exact ⟨h, hst, fun e => by simpa [weight] using hbal e⟩
  | pipe e =>
    have he : s.ref e = s.held e + 1 := by rw [hbal e, weight_pos rfl]
    simp only [fileclose] at hs
    rw [if_neg (by omega)] at hs
    set t : Files P := { s with ref := Function.update s.ref e (s.ref e - 1) } with ht
    have hte : t.ref e = s.held e := by
      simp only [ht, update_self]
      omega
    have htother : ∀ e', e' ≠ e → t.ref e' = s.ref e' := fun e' hee => by
      simp only [ht, update_of_ne hee]
    have hbal' : ∀ e', t.ref e' = t.held e' := by
      intro e'
      by_cases hee : e' = e
      · rw [hee]
        exact hte
      · rw [htother e' hee, hbal e', weight, if_neg (by simpa using Ne.symm hee)]
        rfl
    have hcore : t.Core := by
      refine h.of_sys rfl (fun e' he' => ?_) (fun _ _ _ _ _ hfd => hfd) h.panic (h.wf.setRef _)
      have hee : e' ≠ e := by
        rintro rfl
        omega
      rw [htother e' hee, he']
    split_ifs at hs with hlast
    · obtain rfl := Option.some.inj hs
      refine ⟨hcore, hst.of_sys rfl fun e' he' => ?_, hbal'⟩
      have hee : e' ≠ e := by
        rintro rfl
        omega
      rw [← htother e' hee, he']
    · -- the last reference : nobody is on the side
      have hzero : t.ref e = 0 := by omega
      have hnone : ∀ q f, t.sys.frame q = some f → f.op.tid ≠ e := by
        rintro q f hf rfl
        cases hcl : f.op.closes with
        | true =>
          have := h.closers q f hf hcl
          omega
        | false =>
          obtain ⟨fd, hfd⟩ := h.users q f hf hcl
          have := held_pos hfd
          omega
      have hC : t.sys.Orderly (p, .call (.pipeclose (e = .zero))) := by
        intro op hop
        obtain rfl := PipeAct.call.inj hop
        rw [tid_pipeclose]
        refine ⟨fun hc => ?_, fun q f hf htid => absurd htid (hnone q f hf)⟩
        have := h.closed e hc
        omega
      obtain ⟨hcore', rfl⟩ := call_core hcore hp hC (fun hcl => by cases hcl)
        (fun _ => by rw [tid_pipeclose]; exact hzero) hs
      refine ⟨hcore', fun e' he' => ?_, hbal'⟩
      by_cases hee : e' = e
      · exact Or.inr ⟨p, _, update_self .., rfl, by rw [hee, tid_pipeclose]⟩
      · exact started_call hp (hst e' (by rw [← htother e' hee]; exact he'))

/-- A step of a call in progress. -/
theorem pipe_inv (h : s.Inv) {a : PipeAct} (ha : ∀ op, a ≠ .call op) {sys : Sys P}
    (hs : s.sys.step c p a = some sys) : Inv { s with sys := sys } := by
  have hC : s.sys.Orderly (p, a) := fun op hop => absurd hop (ha op)
  have hclosed := h.closing.closed_step hs
  have hframe : ∀ {q f'}, sys.frame q = some f' → ∃ f, s.sys.frame q = some f ∧ f.op = f'.op := by
    intro q f' hf'
    rcases Sys.step_op hs hf' with hf | ⟨-, hop⟩
    · exact hf
    · exact absurd hop (ha _)
  refine ⟨⟨fun q f' hf' hop => ?_, fun q f' hf' hop => ?_, fun e he => ?_, h.closing.step hC hs,
    h.panic, ⟨h.wf.fork, h.wf.sole, h.wf.empty, h.wf.exit⟩⟩, fun e he => ?_, h.balance⟩
  · obtain ⟨f, hf, hff⟩ := hframe hf'
    rw [← hff] at hop ⊢
    exact h.users q f hf hop
  · obtain ⟨f, hf, hff⟩ := hframe hf'
    rw [← hff] at hop ⊢
    exact h.closers q f hf hop
  · rcases hclosed.only e he with he | ⟨f, hf, hop, rfl⟩
    · exact h.closed e he
    · exact h.closers p f hf hop
  · rcases h.started e he with he | ⟨q, f, hf, hop, rfl⟩
    · exact Or.inl (hclosed.mono e he)
    · cases hf' : sys.frame q with
      | some f' =>
        obtain ⟨g, hg, hgop⟩ := hframe hf'
        rw [Option.some.inj (hg.symm.trans hf)] at hgop
        exact Or.inr ⟨q, f', hf', by rw [← hgop, hop], by rw [← hgop]⟩
      | none =>
        by_cases hq : q = p
        · subst hq
          exact Or.inl (hclosed.left f hf hop hf')
        · obtain ⟨g, hg, -⟩ := Sys.Closing.closer_other hs hq ⟨f, hf, hop⟩
          rw [hf'] at hg
          cases hg

/-- `s'` is `s` but for the descriptors of `p` and its task, now `t`. -/
structure Own (s : Files P) (p : P) (t : Task P) (s' : Files P) : Prop where
  sys : s'.sys = s.sys
  ref : s'.ref = s.ref
  panic : s'.panic = s.panic
  task : s'.task = Function.update s.task p t
  ofile : ∀ q fd, q ≠ p → s'.ofile (q, fd) = s.ofile (q, fd)

theorem Own.refl (s : Files P) (p : P) : s.Own p (s.task p) s :=
  ⟨rfl, rfl, rfl, (Function.update_eq_self ..).symm, fun _ _ _ => rfl⟩

theorem Own.setFd {t : Task P} (h : s.Own p t s') (fd : Fin NOFILE) (f : Option File) :
    s.Own p t (s'.setFd p fd f) := by
  refine ⟨h.sys, h.ref, h.panic, h.task, fun q fd' hq => ?_⟩
  rw [← h.ofile q fd' hq]
  simp [Files.setFd, update_of_ne, hq]

theorem Own.setTask {t : Task P} (h : s.Own p t s') (t' : Task P) :
    s.Own p t' (s'.setTask p t') := by
  refine ⟨h.sys, h.ref, h.panic, ?_, h.ofile⟩
  simp only [Files.setTask, h.task, Function.update_idem]

/-- `p` is no child of a kfork in progress and does not start one, and its descriptors fit its
new task. -/
theorem Own.wf {t : Task P} (ho : s.Own p t s') (h : s.TaskWf) (hp : s.task p ≠ .embryo)
    (hfork : ∀ np i, t ≠ .fork np i)
    (hempty : t = .unused ∨ t = .zombie → ∀ fd, s'.ofile (p, fd) = none)
    (hexit : ∀ i, t = .exit i → ∀ j : Fin NOFILE, j.val < i → s'.ofile (p, j) = none) :
    s'.TaskWf := by
  have hself : s'.task p = t := by rw [ho.task, update_self]
  have hother : ∀ {q}, q ≠ p → s'.task q = s.task q := fun hq => by
    rw [ho.task, update_of_ne hq]
  have hparent : ∀ {q np i}, s'.task q = .fork np i → s.task q = .fork np i := by
    intro q np i hq
    have hqp : q ≠ p := by
      rintro rfl
      exact hfork np i (hself.symm.trans hq)
    exact (hother hqp).symm.trans hq
  refine ⟨fun q np i hq => ?_, fun q r np i j hq hr => ?_, fun q hq fd => ?_,
    fun q i hq j hj => ?_⟩
  · obtain ⟨hnp, hslots⟩ := h.fork q np i (hparent hq)
    have hne : np ≠ p := by
      rintro rfl
      exact hp hnp
    refine ⟨(hother hne).trans hnp, fun j hj => ?_⟩
    rw [ho.ofile np j hne]
    exact hslots j hj
  · exact h.sole q r np i j (hparent hq) (hparent hr)
  · by_cases hqp : q = p
    · subst hqp
      rw [hself] at hq
      exact hempty hq fd
    · rw [hother hqp] at hq
      rw [ho.ofile q fd hqp]
      exact h.empty q hq fd
  · by_cases hqp : q = p
    · subst hqp
      rw [hself] at hq
      exact hexit i hq j hj
    · rw [hother hqp] at hq
      rw [ho.ofile q j hqp]
      exact h.exit q i hq j hj

theorem Own.wf_plain {t : Task P} (ho : s.Own p t s') (h : s.TaskWf) (hp : s.task p ≠ .embryo)
    (ht : t.plain = true) : s'.TaskWf := by
  refine ho.wf h hp ?_ ?_ ?_ <;> cases t <;> simp_all [Task.plain]

/-- The change keeps all but the balance. -/
theorem Own.core {t : Task P} (ho : s.Own p t s') (h : s.Inv) (hp : s.sys.frame p = none)
    (hwf : s'.TaskWf) : s'.Core ∧ s'.Started := by
  refine ⟨h.of_sys ho.sys (fun e he => by rw [ho.ref, he]) (fun q f fd e hf hfd => ?_)
    (ho.panic.trans h.panic) hwf, h.started.of_sys ho.sys fun e he => by rw [← ho.ref, he]⟩
  have hq : q ≠ p := by
    rintro rfl
    rw [hp] at hf
    cases hf
  rw [ho.ofile q fd hq, hfd]

theorem Own.inv {t : Task P} (ho : s.Own p t s') (h : s.Inv) (hp : s.sys.frame p = none)
    (hwf : s'.TaskWf) (hheld : ∀ e, s'.held e = s.held e) : s'.Inv := by
  obtain ⟨hcore, hst⟩ := ho.core h hp hwf
  exact ⟨hcore, hst, fun e => by rw [ho.ref, hheld]; exact h.balance e⟩

theorem fdalloc_free {fd : Fin NOFILE} (h : s.fdalloc p = some fd) : s.ofile (p, fd) = none := by
  simpa using List.find?_some h

@[simp] theorem setFd_self (s : Files P) (p : P) (fd : Fin NOFILE) (f : Option File) :
    (s.setFd p fd f).ofile (p, fd) = f := by
  simp [setFd]

theorem setFd_of_ne (s : Files P) {p : P} {fd fd' : Fin NOFILE} (h : fd' ≠ fd) (f : Option File) :
    (s.setFd p fd f).ofile (p, fd') = s.ofile (p, fd') := by
  simp [setFd, update_of_ne, h]

@[simp] theorem weight_none (e : Side) : weight e none = 0 := by
  simp [weight]

theorem count_ends (e : Side) :
    [Side.one, Side.zero].count e = weight e (some (.pipe .one)) + weight e (some (.pipe .zero)) := by
  cases e <;> decide

theorem sysPipe_inv (h : s.Inv) (hp : s.sys.frame p = none) (ht : s.task p = .pipe) (ok : Bool) :
    (s.sysPipe p ok).Inv := by
  have hemb : s.task p ≠ .embryo := by simp [ht]
  have hdrop : ∀ {s' : Files P}, s.Own p .pipe s' → (∀ e, s'.held e = s.held e) →
      (s'.setTask p (.drop [.one, .zero])).Inv := by
    intro s' ho hheld
    have ho' := ho.setTask (.drop [.one, .zero])
    refine ho'.inv h hp (ho'.wf_plain h.wf hemb rfl) fun e => ?_
    have hb := held_setTask s' p (.drop [.one, .zero]) e
    rw [ho.task, update_self] at hb
    simp only [Task.held, hheld] at hb
    omega
  have ho : s.Own p .pipe s := ht ▸ Own.refl s p
  unfold sysPipe
  cases h0 : s.fdalloc p with
  | none => exact hdrop ho fun _ => rfl
  | some fd0 =>
    have hfree0 := fdalloc_free h0
    dsimp only
    generalize hs0 : s.setFd p fd0 (some (.pipe .one)) = s0
    have ho0 : s.Own p .pipe s0 := hs0 ▸ ho.setFd _ _
    have hv0 : s0.ofile (p, fd0) = some (.pipe .one) := by rw [← hs0, setFd_self]
    have hb0 : ∀ e, s0.held e = s.held e + weight e (some (.pipe .one)) := fun e => by
      have := held_setFd s p fd0 (some (.pipe .one)) e
      rwa [hfree0, weight_none, hs0] at this
    cases h1 : s0.fdalloc p with
    | none =>
      refine hdrop (ho0.setFd _ _) fun e => ?_
      have := held_setFd s0 p fd0 none e
      rw [hv0, weight_none, hb0] at this
      omega
    | some fd1 =>
      have hfree1 := fdalloc_free h1
      have hne : fd0 ≠ fd1 := by
        rintro rfl
        rw [hv0] at hfree1
        cases hfree1
      dsimp only
      generalize hs1 : s0.setFd p fd1 (some (.pipe .zero)) = s1
      have ho1 : s.Own p .pipe s1 := hs1 ▸ ho0.setFd _ _
      have hb1 : ∀ e, s1.held e =
          s.held e + weight e (some (.pipe .one)) + weight e (some (.pipe .zero)) := fun e => by
        have := held_setFd s0 p fd1 (some (.pipe .zero)) e
        rwa [hfree1, weight_none, hb0, hs1] at this
      split_ifs
      · have hu := ho1.setTask .user
        refine hu.inv h hp (hu.wf_plain h.wf hemb rfl) fun e => ?_
        have hb := held_setTask s1 p .user e
        rw [ho1.task, update_self, hb1] at hb
        simp only [Task.held, count_ends, List.count_nil] at hb
        omega
      · refine hdrop ((ho1.setFd _ _).setFd _ _) fun e => ?_
        have hb2 := held_setFd s1 p fd0 none e
        have hb3 := held_setFd (s1.setFd p fd0 none) p fd1 none e
        have hv0' : s1.ofile (p, fd0) = some (.pipe .one) := by
          rw [← hs1, setFd_of_ne _ hne, hv0]
        have hv1' : (s1.setFd p fd0 none).ofile (p, fd1) = some (.pipe .zero) := by
          rw [setFd_of_ne _ hne.symm, ← hs1, setFd_self]
        rw [hv0', hb1, weight_none] at hb2
        rw [hv1', weight_none] at hb3
        omega

theorem held_setTask_nil {t : Task P} (hold : (s.task p).held = []) (hnew : t.held = [])
    (e : Side) : (s.setTask p t).held e = s.held e := by
  have := held_setTask s p t e
  rw [hold, hnew] at this
  exact this

/-- A process drops a reference and passes it to `fileclose`. -/
theorem Own.fileclose_inv {t : Task P} {t₀ : Files P} {f : File} (ho : s.Own p t t₀) (h : s.Inv)
    (hp : s.sys.frame p = none) (hwf : t₀.TaskWf)
    (hheld : ∀ e, t₀.held e + weight e (some f) = s.held e)
    (hs : t₀.fileclose c p f = some s') : s'.Inv := by
  obtain ⟨hcore, hst⟩ := ho.core h hp hwf
  refine Files.fileclose_inv hcore hst (by rw [ho.sys, hp]) (fun e => ?_) hs
  rw [ho.ref, h.balance e, hheld]

theorem sysDup_inv (h : s.Inv) (hp : s.sys.frame p = none) (ht : s.task p = .user)
    (fd : Fin NOFILE) : (s.sysDup p fd).Inv := by
  unfold sysDup
  cases hf : s.ofile (p, fd) with
  | none => exact h
  | some f =>
    dsimp only
    cases hfd : s.fdalloc p with
    | none => exact h
    | some fd' =>
      have ho : s.Own p .user (s.setFd p fd' (some f)) := (ht ▸ Own.refl s p).setFd _ _
      obtain ⟨hcore, hst⟩ := ho.core h hp (ho.wf_plain h.wf (by simp [ht]) rfl)
      refine filedup_inv hcore hst (fun e => ?_) fun e he => ?_
      · have := held_setFd s p fd' (some f) e
        rw [fdalloc_free hfd, weight_none, ← h.balance e] at this
        exact this.symm
      · show 0 < s.ref e
        rw [h.balance e]
        exact held_pos (x := (p, fd)) (by rw [hf, he])

theorem exitNext_inv (h : s.Inv) (hp : s.sys.frame p = none) {i : ℕ} (ht : s.task p = .exit i)
    (hs : s.exitNext c p i = some s') : s'.Inv := by
  have hemb : s.task p ≠ .embryo := by simp [ht]
  have hheld : (s.task p).held = [] := by rw [ht]; rfl
  have hempty := h.wf.exit p i ht
  -- the slots up to `i` are empty once slot `i` is
  have hslots : ∀ {t₀ : Files P}, s.Own p (.exit (i + 1)) t₀ →
      (∀ j : Fin NOFILE, j.val ≠ i → t₀.ofile (p, j) = s.ofile (p, j)) →
      (∀ j : Fin NOFILE, j.val = i → t₀.ofile (p, j) = none) → t₀.TaskWf := by
    intro t₀ ho hkeep hnone
    refine ho.wf h.wf hemb (by simp) (by simp) fun k hk j hj => ?_
    obtain rfl := Task.exit.inj hk
    by_cases hji : j.val = i
    · exact hnone j hji
    · rw [hkeep j hji]
      exact hempty j (by omega)
  unfold exitNext at hs
  split_ifs at hs with hi
  · cases hf : s.ofile (p, ⟨i, hi⟩) with
    | none =>
      simp only [hf] at hs
      cases hs
      have ho := (Own.refl s p).setTask (.exit (i + 1))
      refine ho.inv h hp (hslots ho (fun _ _ => rfl) fun j hj => ?_)
        fun e => held_setTask_nil hheld rfl e
      rw [← hf]
      exact congrArg s.ofile (Prod.ext rfl (Fin.ext hj))
    | some f =>
      simp only [hf] at hs
      have ho := ((Own.refl s p).setFd ⟨i, hi⟩ none).setTask (.exit (i + 1))
      refine ho.fileclose_inv h hp (hslots ho (fun j hj => ?_) fun j hj => ?_) (fun e => ?_) hs
      · exact setFd_of_ne s (fun heq => hj (congrArg Fin.val heq)) none
      · rw [show j = ⟨i, hi⟩ from Fin.ext hj]
        exact setFd_self s p _ none
      · rw [held_setTask_nil (s := s.setFd p ⟨i, hi⟩ none) hheld rfl]
        have := held_setFd s p ⟨i, hi⟩ none e
        rwa [hf, weight_none] at this
  · cases hs
    have ho := (Own.refl s p).setTask .zombie
    refine ho.inv h hp (ho.wf h.wf hemb (by simp) (fun _ fd => ?_) (by simp))
      fun e => held_setTask_nil hheld rfl e
    exact hempty fd (by omega)

/-- kfork takes a free slot. -/
theorem fork_inv (h : s.Inv) (hp : s.task p = .user) {np : P} (hnp : s.task np = .unused) :
    ((s.setTask p (.fork np 0)).setTask np .embryo).Inv := by
  have hne : np ≠ p := by
    rintro rfl
    rw [hp] at hnp
    cases hnp
  have hchild : ∀ {q np' i}, s.task q = .fork np' i → np' ≠ p ∧ np' ≠ np := by
    intro q np' i hq
    have hemb := (h.wf.fork q np' i hq).1
    constructor <;> rintro rfl
    · rw [hp] at hemb
      cases hemb
    · rw [hnp] at hemb
      cases hemb
  have htask : ∀ q, ((s.setTask p (.fork np 0)).setTask np .embryo).task q =
      if q = np then .embryo else if q = p then .fork np 0 else s.task q := by
    intro q
    simp [setTask, Function.update_apply]
  have hparent : ∀ {q np' i}, ((s.setTask p (.fork np 0)).setTask np .embryo).task q = .fork np' i →
      (q = p ∧ np' = np ∧ i = 0) ∨ s.task q = .fork np' i := by
    intro q np' i hq
    rw [htask] at hq
    split_ifs at hq with h1 h2
    · obtain ⟨rfl, rfl⟩ := Task.fork.inj hq
      exact Or.inl ⟨h2, rfl, rfl⟩
    · exact Or.inr hq
  refine ⟨h.of_sys rfl (fun _ he => he) (fun _ _ _ _ _ hfd => hfd) h.panic ⟨?_, ?_, ?_, ?_⟩,
    h.started.of_sys rfl fun _ he => he, fun e => ?_⟩
  · intro q np' i hq
    rcases hparent hq with ⟨rfl, rfl, rfl⟩ | hq
    · exact ⟨by simp [htask], fun j _ => h.wf.empty _ (Or.inl hnp) j⟩
    · obtain ⟨hemb, hslots⟩ := h.wf.fork q np' i hq
      obtain ⟨h1, h2⟩ := hchild hq
      exact ⟨by rw [htask, if_neg h2, if_neg h1, hemb], hslots⟩
  · intro q r np' i j hq hr
    rcases hparent hq with ⟨hqp, hqn, -⟩ | hq' <;> rcases hparent hr with ⟨hrp, hrn, -⟩ | hr'
    · rw [hqp, hrp]
    · exact absurd hqn (hchild hr').2
    · exact absurd hrn (hchild hq').2
    · exact h.wf.sole q r np' i j hq' hr'
  · intro q hq fd
    rw [htask] at hq
    split_ifs at hq with h1 h2
    · simp at hq
    · simp at hq
    · exact h.wf.empty q hq fd
  · intro q i hq j hj
    rw [htask] at hq
    split_ifs at hq with h1 h2
    exact h.wf.exit q i hq j hj
  · rw [held_setTask_nil (s := s.setTask p (.fork np 0)) (by
      simp [setTask, update_of_ne hne, hnp, Task.held]) rfl,
      held_setTask_nil (by rw [hp]; rfl) rfl]
    exact h.balance e

/-- kfork's loop fills at most descriptor `i` of the child. -/
theorem TaskWf.forkNext (h : s.TaskWf) {np : P} {i : ℕ} (hp : s.task p = .fork np i)
    (htask : s'.task = Function.update s.task p (.fork np (i + 1)))
    (hofile : ∀ q (j : Fin NOFILE), q ≠ np ∨ j.val ≠ i → s'.ofile (q, j) = s.ofile (q, j)) :
    s'.TaskWf := by
  obtain ⟨hemb, hslots⟩ := h.fork p np i hp
  have hne : np ≠ p := by
    rintro rfl
    rw [hp] at hemb
    cases hemb
  have hother : ∀ {q}, q ≠ p → s'.task q = s.task q := fun hq => by
    rw [htask, update_of_ne hq]
  have hself : s'.task p = .fork np (i + 1) := by rw [htask, update_self]
  refine ⟨fun q np' i' hq => ?_, fun q r np' i' j hq hr => ?_, fun q hq fd => ?_,
    fun q i' hq j hj => ?_⟩
  · by_cases hqp : q = p
    · subst hqp
      obtain ⟨rfl, rfl⟩ := Task.fork.inj (hself.symm.trans hq)
      refine ⟨(hother hne).trans hemb, fun j hj => ?_⟩
      rw [hofile _ j (Or.inr (by omega))]
      exact hslots j (by omega)
    · rw [hother hqp] at hq
      obtain ⟨hemb', hslots'⟩ := h.fork q np' i' hq
      have hnp' : np' ≠ np := by
        rintro rfl
        exact hqp (h.sole q p np' i' i hq hp)
      have hnp'' : np' ≠ p := by
        rintro rfl
        rw [hp] at hemb'
        cases hemb'
      refine ⟨(hother hnp'').trans hemb', fun j hj => ?_⟩
      rw [hofile np' j (Or.inl hnp')]
      exact hslots' j hj
  · have hold : ∀ {q i'}, s'.task q = .fork np' i' → ∃ k, s.task q = .fork np' k := by
      intro q i' hq
      by_cases hqp : q = p
      · subst hqp
        obtain ⟨rfl, -⟩ := Task.fork.inj (hself.symm.trans hq)
        exact ⟨i, hp⟩
      · exact ⟨i', (hother hqp).symm.trans hq⟩
    obtain ⟨k, hq⟩ := hold hq
    obtain ⟨l, hr⟩ := hold hr
    exact h.sole q r np' k l hq hr
  · have hqp : q ≠ p := by
      rintro rfl
      rw [hself] at hq
      simp at hq
    rw [hother hqp] at hq
    have hqn : q ≠ np := by
      rintro rfl
      rw [hemb] at hq
      simp at hq
    rw [hofile q fd (Or.inl hqn)]
    exact h.empty q hq fd
  · have hqp : q ≠ p := by
      rintro rfl
      rw [hself] at hq
      cases hq
    rw [hother hqp] at hq
    have hqn : q ≠ np := by
      rintro rfl
      rw [hemb] at hq
      cases hq
    rw [hofile q j (Or.inl hqn)]
    exact h.exit q i' hq j hj

/-- The child runs, and the parent returns. -/
theorem TaskWf.forkEnd (h : s.TaskWf) {np : P} {i : ℕ} (hp : s.task p = .fork np i) :
    ((s.setTask p .user).setTask np .user).TaskWf := by
  have htask : ∀ q, ((s.setTask p .user).setTask np .user).task q =
      if q = np then .user else if q = p then .user else s.task q := by
    intro q
    simp [setTask, Function.update_apply]
  have hold : ∀ {q t}, ((s.setTask p .user).setTask np .user).task q = t → t ≠ .user →
      q ≠ p ∧ s.task q = t := by
    intro q t hq ht
    rw [htask] at hq
    split_ifs at hq with h1 h2
    · exact absurd hq.symm ht
    · exact absurd hq.symm ht
    · exact ⟨h2, hq⟩
  refine ⟨fun q np' i' hq => ?_, fun q r np' i' j hq hr => ?_, fun q hq fd => ?_,
    fun q i' hq j hj => ?_⟩
  · obtain ⟨hqp, hq'⟩ := hold hq (by simp)
    obtain ⟨hemb, hslots⟩ := h.fork q np' i' hq'
    have hnp' : np' ≠ np := by
      rintro rfl
      exact hqp (h.sole q p np' i' i hq' hp)
    have hnp'' : np' ≠ p := by
      rintro rfl
      rw [hp] at hemb
      cases hemb
    exact ⟨by rw [htask, if_neg hnp', if_neg hnp'', hemb], hslots⟩
  · exact h.sole q r np' i' j (hold hq (by simp)).2 (hold hr (by simp)).2
  · refine h.empty q ?_ fd
    rcases hq with hq | hq
    · exact Or.inl (hold hq (by simp)).2
    · exact Or.inr (hold hq (by simp)).2
  · exact h.exit q i' (hold hq (by simp)).2 j hj

theorem forkNext_inv (h : s.Inv) {np : P} {i : ℕ} (ht : s.task p = .fork np i) :
    (s.forkNext p np i).Inv := by
  obtain ⟨hemb, hslots⟩ := h.wf.fork p np i ht
  have hheld : (s.task p).held = [] := by rw [ht]; rfl
  unfold forkNext
  split_ifs with hi
  · cases hf : s.ofile (p, ⟨i, hi⟩) with
    | none =>
      refine ⟨h.of_sys rfl (fun _ he => he) (fun _ _ _ _ _ hfd => hfd) h.panic
        (h.wf.forkNext ht rfl fun _ _ _ => rfl), h.started.of_sys rfl fun _ he => he, fun e => ?_⟩
      rw [held_setTask_nil hheld rfl]
      exact h.balance e
    | some f =>
      have hfree := hslots ⟨i, hi⟩ (le_refl i)
      have hkeep : ∀ q (j : Fin NOFILE), q ≠ np ∨ j.val ≠ i →
          (s.setFd np ⟨i, hi⟩ (some f)).ofile (q, j) = s.ofile (q, j) := by
        intro q j hqj
        refine update_of_ne (fun heq => ?_) ..
        obtain ⟨rfl, rfl⟩ := Prod.mk.inj heq
        simp at hqj
      have hcore : ((s.setFd np ⟨i, hi⟩ (some f)).setTask p (.fork np (i + 1))).Core := by
        refine h.of_sys rfl (fun _ he => he) (fun q g fd e _ hfd => ?_) h.panic
          (h.wf.forkNext ht rfl hkeep)
        rw [← hfd]
        refine hkeep q fd ?_
        by_contra hno
        push Not at hno
        obtain ⟨rfl, rfl⟩ := hno
        rw [hfree] at hfd
        cases hfd
      refine filedup_inv hcore (h.started.of_sys rfl fun _ he => he) (fun e => ?_) fun e he => ?_
      · have := held_setFd s np ⟨i, hi⟩ (some f) e
        rw [hfree, weight_none, ← h.balance e] at this
        rw [held_setTask_nil (s := s.setFd np ⟨i, hi⟩ (some f)) hheld rfl]
        exact this.symm
      · show 0 < s.ref e
        rw [h.balance e]
        exact held_pos (x := (p, ⟨i, hi⟩)) (by rw [hf, he])
  · refine ⟨h.of_sys rfl (fun _ he => he) (fun _ _ _ _ _ hfd => hfd) h.panic
      (h.wf.forkEnd ht), h.started.of_sys rfl fun _ he => he, fun e => ?_⟩
    have hne : np ≠ p := by
      rintro rfl
      rw [ht] at hemb
      cases hemb
    rw [held_setTask_nil (s := s.setTask p .user) (by
      simp [setTask, update_of_ne hne, hemb, Task.held]) rfl, held_setTask_nil hheld rfl]
    exact h.balance e

/-- A step outside pipe.c. -/
theorem kernel_inv (h : s.Inv) (hp : s.sys.frame p = none) {a : FileAct P}
    (hs : s.kernel c p a = some s') : s'.Inv := by
  unfold kernel at hs
  split at hs
  case h_1 ok ht =>
    cases hs
    exact sysPipe_inv h hp ht ok
  case h_2 e es ht =>
    have ho := (Own.refl s p).setTask (.drop es)
    refine ho.fileclose_inv h hp (ho.wf_plain h.wf (by simp [ht]) rfl) (fun e' => ?_) hs
    have := held_setTask s p (.drop es) e'
    rw [ht] at this
    simp only [Task.held, List.count_cons, beq_iff_eq] at this
    simp only [weight, Option.some.injEq, File.pipe.injEq]
    omega
  case h_3 ht =>
    cases hs
    have ho := (Own.refl s p).setTask .user
    exact ho.inv h hp (ho.wf_plain h.wf (by simp [ht]) rfl)
      fun e => held_setTask_nil (by rw [ht]; rfl) rfl e
  case h_4 ht =>
    cases hs
    cases hfd : s.fdalloc p with
    | none => exact h
    | some fd =>
      have ho : s.Own p .user (s.setFd p fd (some .other)) := (ht ▸ Own.refl s p).setFd _ _
      refine ho.inv h hp (ho.wf_plain h.wf (by simp [ht]) rfl) fun e => ?_
      have := held_setFd s p fd (some .other) e
      rw [fdalloc_free hfd] at this
      simpa [weight] using this
  case h_5 fd ht =>
    cases hs
    exact sysDup_inv h hp ht fd
  case h_6 fd ht =>
    split at hs
    case h_1 =>
      cases hs
      exact h
    case h_2 f hf =>
      have ho : s.Own p .user (s.setFd p fd none) := (ht ▸ Own.refl s p).setFd _ _
      refine ho.fileclose_inv h hp (ho.wf_plain h.wf (by simp [ht]) rfl) (fun e => ?_) hs
      have := held_setFd s p fd none e
      rwa [hf, weight_none] at this
  case h_7 fd n ht =>
    split at hs
    case h_1 =>
      cases hs
      exact h
    case h_2 f hf =>
      unfold fileread at hs
      split at hs
      · exact call_inv h hp rfl hf hs
      · cases hs
        exact h
  case h_8 fd n ht =>
    split at hs
    case h_1 =>
      cases hs
      exact h
    case h_2 f hf =>
      unfold filewrite at hs
      split at hs
      · exact call_inv h hp rfl hf hs
      · cases hs
        exact h
  case h_9 np ht =>
    split_ifs at hs with hnp
    cases hs
    exact fork_inv h ht hnp
  case h_10 np i ht =>
    cases hs
    exact forkNext_inv h ht
  case h_11 ht =>
    cases hs
    have ho := (Own.refl s p).setTask (.exit 0)
    refine ho.inv h hp (ho.wf h.wf (by simp [ht]) (by simp) (by simp) fun i hi j hj => ?_)
      fun e => held_setTask_nil (by rw [ht]; rfl) rfl e
    obtain rfl := Task.exit.inj hi
    exact absurd hj (Nat.not_lt_zero _)
  case h_12 i ht => exact exitNext_inv h hp ht hs
  case h_13 ht =>
    cases hs
    have ho := (Own.refl s p).setTask .unused
    have hinv := ho.inv h hp (ho.wf h.wf (by simp [ht]) (by simp)
      (fun _ fd => h.wf.empty p (Or.inr ht) fd) (by simp))
      fun e => held_setTask_nil (by rw [ht]; rfl) rfl e
    exact ⟨⟨hinv.users, hinv.closers, hinv.closed, ⟨hinv.closing.alone, hinv.closing.fair,
      hinv.closing.users, hinv.closing.stage, hinv.closing.shape, hinv.closing.opens,
      hinv.closing.first, hinv.closing.second, hinv.closing.early, hinv.closing.untouched⟩,
      hinv.panic, ⟨hinv.wf.fork, hinv.wf.sole, hinv.wf.empty, hinv.wf.exit⟩⟩, hinv.started,
      hinv.balance⟩
  case h_14 => cases hs

theorem step_inv (h : s.Inv) {a : FileAct P} (hs : s.step c p a = some s') : s'.Inv := by
  unfold step at hs
  rw [Option.ite_none_left_eq_some] at hs
  obtain ⟨-, hs⟩ := hs
  split at hs
  case h_1 => cases hs
  case h_2 a ha =>
    obtain ⟨sys, hsys, rfl⟩ := Option.map_eq_some_iff.mp hs
    exact pipe_inv h (fun op hop => ha op hop) hsys
  case h_3 =>
    split_ifs at hs with hf
    exact kernel_inv h (by simpa using hf) hs

theorem Init.inv (h : s.Init) : s.Inv := by
  have hf : ∀ {p f}, s.sys.frame p ≠ some f := by
    intro p f hf
    rw [h.sys.frame p] at hf
    cases hf
  refine ⟨⟨fun _ _ hp => absurd hp hf, fun _ _ hp => absurd hp hf, fun e he => ?_,
    Sys.Closing.init h.sys, h.panic, h.wf⟩, fun e he => ?_, fun e => ?_⟩
  · rw [h.sys.closed] at he
    cases he
  · rw [h.ref e] at he
    cases he
  · obtain ⟨p, hp, hother⟩ := h.task
    have hslots : ∑ x, weight e (s.ofile x) = 0 :=
      Finset.sum_eq_zero fun x _ => if_neg (h.ofile x e)
    have htasks : ∑ q, (s.task q).held.count e = 1 := by
      rw [Finset.sum_eq_single p (fun q _ hq => by rw [hother q hq]; rfl) (by simp), hp]
      cases e <;> rfl
    rw [h.ref e, held, hslots, htasks]

end Files

/-- In every run of the processes that share a pipe : the file objects are never used without
a reference, no field of the pipe is accessed after a kfree, the page is freed by no other
pipeclose than the one that closed the second end, and it is freed once the references of both
ends are gone and no pipeclose is in progress. -/
theorem pipe_freed_once {P : Type} [DecidableEq P] [Fintype P] {c : Config P} {s : Files P}
    (h : (filesMachine c).Reachable s) :
    s.panic = none ∧ s.sys.touched = false ∧
    (s.sys.freed = [] ∨ ∃ e : Side, s.sys.closed = [e, e.other] ∧ s.sys.freed = [e.other]) ∧
    ((∀ e, s.ref e = 0) → (∀ p, ¬s.sys.Closer p) →
      ∃ e : Side, s.sys.closed = [e, e.other] ∧ s.sys.freed = [e.other]) := by
  have hinv : s.Inv := h.invariant (I := Files.Inv) (fun _ => Files.Init.inv)
    fun _ _ _ _ ih _ hs => Files.step_inv ih hs
  refine ⟨hinv.panic, hinv.closing.untouched, ?_, fun href hnone => ?_⟩
  · rcases hinv.closing.shape with hc | ⟨e, hc | hc⟩
    · exact Or.inl (hinv.closing.early (by simp [hc]))
    · exact Or.inl (hinv.closing.early (by simp [hc]))
    · rcases hinv.closing.second e hc with ⟨hfr, -⟩ | ⟨hfr, -⟩
      · exact Or.inl hfr
      · exact Or.inr ⟨e, hc, hfr⟩
  · have hmem : ∀ e, e ∈ s.sys.closed := by
      intro e
      rcases hinv.started e (href e) with hc | ⟨p, f, hf, hcl, -⟩
      · exact hc
      · exact absurd ⟨f, hf, hcl⟩ (hnone p)
    rcases hinv.closing.shape with hc | ⟨e, hc | hc⟩
    · have := hmem .zero
      simp [hc] at this
    · have := hmem e.other
      rw [hc, List.mem_singleton] at this
      exact absurd this e.other_ne
    · rcases hinv.closing.second e hc with ⟨-, p, hp⟩ | ⟨hfr, -⟩
      · exact absurd hp (hnone p)
      · exact ⟨e, hc, hfr⟩

/-- Process 0 back from `pipealloc`, and a free slot. -/
def freshFiles : Files (Fin 2) where
  sys := freshPipe (Fin 2)
  ofile _ := none
  ref _ := 1
  task p := if p.val = 0 then .pipe else .unused
  panic := none

theorem freshFiles_init : freshFiles.Init := by
  refine ⟨freshPipe_init (Fin 2), fun _ => rfl, fun _ _ h => (by cases h),
    ⟨0, rfl, fun q hq => by simp [freshFiles, hq, Task.held]⟩, rfl,
    ⟨fun p np i h => ?_, fun p q np i j h => ?_, fun _ _ _ => rfl, fun _ _ _ _ _ => rfl⟩⟩
  · simp only [freshFiles] at h
    split_ifs at h
  · simp only [freshFiles] at h
    split_ifs at h

/-- A process forks, both ends are closed by the parent, and the exit of the child frees the
page. -/
theorem pipe_freed_by_child : ∃ s, (filesMachine (twoProcs .source)).Reachable s ∧
    s.sys.freed = [.zero] ∧
    ∃ e : Side, s.sys.closed = [e, e.other] ∧ s.sys.freed = [e.other] := by
  obtain ⟨s, hs, hfreed, href0, href1, hf0, hf1⟩ := Machine.reachable_of_exec
    (M := filesMachine (twoProcs .source)) freshFiles_init
    (List.flatten [[(0, .syspipe true), (0, .fork 1)], List.replicate 17 (0, .next),
      [(0, .close 0), (0, .close 1), (1, .exit), (1, .next)], List.replicate 10 (1, .pipe .run),
      [(1, .next)], List.replicate 11 (1, .pipe .run), List.replicate 15 (1, .next)])
    (fun s => s.sys.freed = [.zero] ∧ s.ref .zero = 0 ∧ s.ref .one = 0 ∧ s.sys.frame 0 = none ∧
      s.sys.frame 1 = none) (by decide +kernel)
  refine ⟨s, hs, hfreed, (pipe_freed_once hs).2.2.2 (fun e => ?_) fun p => ?_⟩
  · cases e
    · exact href0
    · exact href1
  · rintro ⟨f, hf, -⟩
    match p with
    | 0 => simp [hf0] at hf
    | 1 => simp [hf1] at hf

end Xv6
