import Mathlib.Data.Fintype.Basic
import Mathlib.Data.List.Chain
import Mathlib.Data.List.Infix
import Xv6.Console
import Xv6.Ring

/-!
# The console's line discipline

What a process gets from consoleread is a line of what was typed, as it was when it was committed : consoleintr
drops what does not fit, applies backspace and kill-line to the line being typed, and commits it at a newline, at
a ^D or when the buffer is full.

`Readers` is the console with any number of processes in consoleread, in the sections of `cons.lock` and without the
rest of the kernel; every run of the kernel's console (`ttyMachine`) is one of its runs (`reachable_readers`). `Input`
is the abstract device : the committed input, the line being typed, how much was read, and the reads that
have returned. The ring of the console shows it in every state (`Shows`).

Reads are lines when they do not overlap and none is given up halfway (`line_discipline`). A consoleread that
has taken all of a full buffer sleeps in the middle of its line, and another one may then take the rest.
-/

namespace Xv6

set_option linter.unusedSectionVars false

/-- The console and the processes in consoleread. -/
structure Readers (ι : Type*) where
  cons : Cons
  /-- The process that holds `cons.lock`. -/
  lock : Option ι
  read : ι → ReadPc
  /-- The bytes the last consoleread of the process copied to user space. -/
  got : ι → List UInt8
  /-- What it returned. -/
  ret : ι → Int

inductive ReadersAct (ι : Type*)
  /-- consoleintr, up to the `wakeup`. -/
  | intr (ch : UInt8)
  /-- A process calls consoleread. -/
  | read (i : ι) (n : Int)
  /-- The next step of a consoleread; `killed` is what `killed(myproc())` says, and `ok` whether the
  copy succeeds. -/
  | run (i : ι) (killed ok : Bool)

namespace Readers

variable {ι : Type*} [DecidableEq ι]

def goto (s : Readers ι) (i : ι) (pc : ReadPc) : Readers ι :=
  { s with read := Function.update s.read i pc }

/-- consoleread releases `cons.lock` and returns. -/
def done (s : Readers ι) (i : ι) (r : Int) : Readers ι :=
  { s with lock := none, ret := Function.update s.ret i r }.goto i .out

/-- consoleread takes one byte out of the buffer. -/
def take (s : Readers ι) (i : ι) (k target : Int) (ok : Bool) : Readers ι :=
  let ch := s.cons.buf (Cons.place s.cons.r)
  let s' := { s with cons := { s.cons with r := s.cons.r + 1 } }
  if ch = ctrl 'D' then
    -- the end of file is left for the next call if this one has bytes to return
    (if k < target then s else s').done i (target - k)
  else if ok then
    let s' := { s' with got := Function.update s'.got i (s'.got i ++ [ch]) }
    if ch = newline then s'.done i (target - (k - 1)) else s'.goto i (.test (k - 1) target)
  else s'.done i (target - k)

/-- The next step of the consoleread of `i`. -/
def run (s : Readers ι) (i : ι) (killed ok : Bool) : Option (Readers ι) :=
  match s.read i with
  | .out => none
  | .lock k target =>
    if s.lock = none then some ({ s with lock := some i }.goto i (.test k target)) else none
  | .test k target =>
    some (if k ≤ 0 then s.done i (target - k)
      else if s.cons.r = s.cons.w then s.goto i (.killed k target)
      else s.take i k target ok)
  | .killed k target => some (if killed then s.done i (-1) else s.goto i (.sleep k target))
  | .sleep k target => some ({ s with lock := none }.goto i (.lock k target))

def step (s : Readers ι) : ReadersAct ι → Option (Readers ι)
  | .intr ch => if s.lock = none then some { s with cons := (s.cons.consoleintr ch).1 } else none
  | .read i n =>
    if s.read i = .out then some ({ s with got := Function.update s.got i [] }.goto i (.lock n n)) else none
  | .run i killed ok => s.run i killed ok

/-- The console after consoleinit. -/
def boot : Readers ι where
  cons := ⟨fun _ => 0, 0, 0, 0⟩
  lock := none
  read _ := .out
  got _ := []
  ret _ := 0

end Readers

/-- The console with the processes of `ι`. -/
def readersMachine (ι : Type*) [DecidableEq ι] : Machine (Readers ι) (ReadersAct ι) where
  init s := s = Readers.boot
  step := Readers.step

/-! ## The abstract device -/

/-- A consoleread that has returned. -/
structure Returned where
  /-- How many bytes it asked for. -/
  size : Int
  bytes : List UInt8
  ret : Int
  /-- It met a ^D. -/
  eof : Bool
  deriving DecidableEq, Repr

/-- What was typed, as far as it counts, and what was read of it. -/
structure Input where
  committed : List UInt8
  /-- The line being typed. -/
  tail : List UInt8
  /-- How much of the committed input was read. -/
  taken : ℕ
  reads : List Returned
  deriving DecidableEq, Repr

namespace Input

def start : Input :=
  ⟨[], [], 0, []⟩

/-- How much is in the buffer. -/
def held (h : Input) : ℕ :=
  h.committed.length + h.tail.length - h.taken

/-- A character is added to the line being typed, and the line is committed if it ends. -/
def add (h : Input) (ch : UInt8) : Input :=
  let h := { h with tail := h.tail ++ [ch] }
  if ch = newline ∨ ch = ctrl 'D' ∨ h.held = INPUT_BUF_SIZE then
    { h with committed := h.committed ++ h.tail, tail := [] }
  else h

/-- A character is typed. -/
def type (h : Input) (ch : UInt8) : Input :=
  if ch = ctrl 'P' then h
  else if ch = ctrl 'U' then { h with tail := [] }
  else if ch = ctrl 'H' ∨ ch = 0x7f then { h with tail := h.tail.dropLast }
  else if ch ≠ 0 ∧ h.held < INPUT_BUF_SIZE then h.add (if ch = '\r'.toNat.toUInt8 then newline else ch)
  else h

variable {ι : Type*} [DecidableEq ι]

/-- A consoleread goes on : it may take a byte, and it may return. -/
def go (h : Input) (s : Readers ι) (i : ι) (killed ok : Bool) : Input :=
  match s.read i with
  | .test k target =>
    if k ≤ 0 then { h with reads := h.reads ++ [⟨target, s.got i, target - k, false⟩] }
    else if s.cons.r = s.cons.w then h
    else
      let ch := s.cons.buf (Cons.place s.cons.r)
      if ch = ctrl 'D' then
        { h with
          taken := if s.got i = [] then h.taken + 1 else h.taken
          reads := h.reads ++ [⟨target, s.got i, target - k, true⟩] }
      else
        let h := { h with taken := h.taken + 1 }
        if ok = false then { h with reads := h.reads ++ [⟨target, s.got i, target - k, false⟩] }
        else if ch = newline then
          { h with reads := h.reads ++ [⟨target, s.got i ++ [ch], target - (k - 1), false⟩] }
        else h
  | .killed _ target => if killed then { h with reads := h.reads ++ [⟨target, s.got i, -1, false⟩] } else h
  | _ => h

/-- The history of the console. -/
def see (h : Input) (s : Readers ι) : ReadersAct ι → Input
  | .intr ch => h.type ch
  | .read _ _ => h
  | .run i killed ok => h.go s i killed ok

end Input

/-! ## The ring shows the input -/

/-- The indices and the buffer of the console show the input : what was read, committed and typed. -/
structure Cons.Shows (c : Cons) (h : Input) : Prop where
  ring : Ring.Holds c.buf c.r.toBitVec c.e.toBitVec (h.committed ++ h.tail) h.taken
  w : c.w.toBitVec = BitVec.ofNat 32 h.committed.length
  taken : h.taken ≤ h.committed.length
  /-- A line that ends is committed. -/
  plain : ∀ ch ∈ h.tail, ch ≠ newline

namespace Cons.Shows

variable {c : Cons} {h h' : Input}

theorem of_eq (hs : c.Shows h) (hc : h'.committed = h.committed) (ht : h'.tail = h.tail) (hk : h'.taken = h.taken) :
    c.Shows h' := by
  obtain ⟨ring, w, taken, plain⟩ := hs
  rw [← hc, ← ht, ← hk] at ring
  rw [← hc] at w
  rw [← hc, ← hk] at taken
  rw [← ht] at plain
  exact ⟨ring, w, taken, plain⟩

theorem cap (hs : c.Shows h) : h.committed.length + h.tail.length ≤ h.taken + 128 := by
  have hcap := hs.ring.cap
  rwa [List.length_append] at hcap

/-- The committed input is all read. -/
theorem r_eq_w (hs : c.Shows h) : c.r = c.w ↔ h.taken = h.committed.length := by
  have hcap := hs.cap
  rw [← UInt32.toBitVec_inj, hs.ring.rd, hs.w]
  constructor
  · exact Ring.ofNat_inj_of_lt hs.taken (by omega)
  · intro heq
    rw [heq]

/-- No line is being typed. -/
theorem e_eq_w (hs : c.Shows h) : c.e = c.w ↔ h.tail = [] := by
  have hcap := hs.cap
  have htaken := hs.taken
  rw [← UInt32.toBitVec_inj, hs.ring.wr, hs.w, List.length_append]
  constructor
  · intro heq
    have hlen := Ring.ofNat_inj_of_lt (Nat.le_add_right _ h.tail.length) (by omega) heq.symm
    exact List.length_eq_zero_iff.mp (by omega)
  · intro heq
    rw [heq]
    rfl

/-- How much is in the buffer. -/
theorem e_sub_r (hs : c.Shows h) : (c.e - c.r).toNat = h.held := by
  have hcount := hs.ring.count (by decide)
  rw [List.length_append] at hcount
  exact hcount

theorem held_le (hs : c.Shows h) : h.held ≤ 128 := by
  have hcap := hs.cap
  unfold Input.held
  omega

/-- How much of it is committed. -/
theorem w_sub_r (hs : c.Shows h) : (c.w - c.r).toNat = h.committed.length - h.taken := by
  have hcap := hs.cap
  have htaken := hs.taken
  have hsub : c.w.toBitVec - c.r.toBitVec = BitVec.ofNat 32 (h.committed.length - h.taken) := by
    have hlen : h.committed.length = (h.committed.length - h.taken) + h.taken := by omega
    rw [hs.w, hs.ring.rd, hlen, BitVec.ofNat_add, BitVec.add_sub_cancel, Nat.add_sub_cancel]
  have hval : (c.w - c.r).toNat = (c.w.toBitVec - c.r.toBitVec).toNat := rfl
  rw [hval, hsub, BitVec.toNat_ofNat]
  exact Nat.mod_eq_of_lt (by omega)

theorem head (hs : c.Shows h) (hlt : h.taken < h.committed.length) :
    h.committed[h.taken]? = some (c.buf (Cons.place c.r)) := by
  have hhead := hs.ring.head (by decide) (by rw [List.length_append]; omega)
  rw [List.getElem_append_left hlt] at hhead
  rw [List.getElem?_eq_getElem hlt]
  exact congrArg some hhead.symm

theorem take (hs : c.Shows h) (hlt : h.taken < h.committed.length) :
    Cons.Shows { c with r := c.r + 1 } { h with taken := h.taken + 1 } :=
  ⟨hs.ring.take (by rw [List.length_append]; omega), hs.w, hlt, hs.plain⟩

/-- Erasing the last character of the line being typed. -/
theorem erase (hs : c.Shows h) (hne : h.tail ≠ []) :
    Cons.Shows { c with e := c.e - 1 } { h with tail := h.tail.dropLast } := by
  have hsplit := List.dropLast_append_getLast hne
  have hring := hs.ring
  rw [← hsplit, ← List.append_assoc] at hring
  have hle : h.taken ≤ (h.committed ++ h.tail.dropLast).length := by
    have htaken := hs.taken
    rw [List.length_append]
    omega
  exact ⟨hring.unput hle, hs.w, hs.taken, fun ch hch => hs.plain ch (List.mem_of_mem_dropLast hch)⟩

/-- The last character of the line being typed. -/
theorem last (hs : c.Shows h) (hne : h.tail ≠ []) : c.buf (Cons.place (c.e - 1)) ≠ newline := by
  have hcap := hs.cap
  have htaken := hs.taken
  have hpos := List.length_pos_iff.mpr hne
  have hlen : (h.committed ++ h.tail).length - 1 < (h.committed ++ h.tail).length := by
    rw [List.length_append]
    omega
  have hget := hs.ring.get ((h.committed ++ h.tail).length - 1) hlen (by rw [List.length_append]; omega)
  have he : (c.e - 1).toBitVec = BitVec.ofNat 32 ((h.committed ++ h.tail).length - 1) :=
    (hs.erase hne).ring.wr.trans (by
      rw [List.length_append, List.length_append, List.length_dropLast, Nat.add_sub_assoc hpos])
  have hplace : Cons.place (c.e - 1) = Fin.ofNat INPUT_BUF_SIZE ((h.committed ++ h.tail).length - 1) := by
    refine Eq.trans ?_ (Ring.cell_ofNat (w := 32) (by decide) _)
    rw [← he]
    rfl
  rw [hplace, hget]
  refine hs.plain _ ?_
  rw [List.getElem_append_right (by rw [List.length_append]; omega)]
  exact List.getElem_mem _

/-- Control-U erases the whole line being typed. -/
theorem killLine (k : ℕ) (hs : c.Shows h) (hk : h.tail.length ≤ k) :
    (Cons.killLine k c).Shows { h with tail := [] } := by
  induction k generalizing c h with
  | zero =>
    have hnil : h.tail = [] := List.length_eq_zero_iff.mp (Nat.le_zero.mp hk)
    exact hs.of_eq rfl hnil.symm rfl
  | succ k ih =>
    by_cases hnil : h.tail = []
    · rw [Cons.killLine, if_neg (fun hc => hc.1 (hs.e_eq_w.mpr hnil))]
      exact hs.of_eq rfl hnil.symm rfl
    · rw [Cons.killLine, if_pos ⟨fun he => hnil (hs.e_eq_w.mp he), hs.last hnil⟩]
      have hlen : h.tail.dropLast.length ≤ k := by
        rw [List.length_dropLast]
        omega
      exact ih (h := { h with tail := h.tail.dropLast }) (hs.erase hnil) hlen

/-- A character that is stored. -/
theorem store (hs : c.Shows h) (hlt : h.held < 128) (ch : UInt8) :
    Ring.Holds (Function.update c.buf (Cons.place c.e) ch) c.r.toBitVec (c.e + 1).toBitVec
      (h.committed ++ (h.tail ++ [ch])) h.taken := by
  have htaken := hs.taken
  have hfree : (h.committed ++ h.tail).length < h.taken + INPUT_BUF_SIZE := by
    show _ < h.taken + 128
    rw [List.length_append]
    unfold Input.held at hlt
    omega
  have hring := hs.ring.put_elem (by decide) hfree ch
  rwa [List.append_assoc] at hring

theorem add (hs : c.Shows h) (hlt : h.held < 128) (ch : UInt8) {c' : Cons}
    (hbuf : c'.buf = Function.update c.buf (Cons.place c.e) ch) (hr : c'.r = c.r) (he : c'.e = c.e + 1)
    (hw : c'.w = if ch = newline ∨ ch = ctrl 'D' ∨ c.e + 1 - c.r = 128 then c.e + 1 else c.w) :
    c'.Shows (h.add ch) := by
  have htaken := hs.taken
  have hring := hs.store hlt ch
  have hfull : c.e + 1 - c.r = 128 ↔ ({ h with tail := h.tail ++ [ch] } : Input).held = INPUT_BUF_SIZE := by
    have hcount := hring.count (by decide)
    rw [List.length_append] at hcount
    have hval : (c.e + 1 - c.r).toNat = ({ h with tail := h.tail ++ [ch] } : Input).held := hcount
    rw [← hval, ← UInt32.toNat_inj]
    rfl
  have hwr := hring.wr
  rw [← hbuf, ← hr, ← he] at hring
  unfold Input.add
  dsimp only
  by_cases hend : ch = newline ∨ ch = ctrl 'D' ∨ c.e + 1 - c.r = 128
  · rw [if_pos hend] at hw
    rw [if_pos (by rwa [hfull] at hend)]
    refine ⟨?_, by rw [hw]; exact hwr, ?_, fun _ hch => absurd hch List.not_mem_nil⟩
    · show Ring.Holds _ _ _ (h.committed ++ (h.tail ++ [ch]) ++ []) h.taken
      rwa [List.append_nil]
    · show h.taken ≤ (h.committed ++ (h.tail ++ [ch])).length
      rw [List.length_append]
      omega
  · rw [if_neg hend] at hw
    rw [if_neg (by rwa [hfull] at hend)]
    refine ⟨hring, by rw [hw]; exact hs.w, htaken, fun x hx => ?_⟩
    obtain hx | hx := List.mem_append.mp hx
    · exact hs.plain x hx
    · rw [List.mem_singleton.mp hx]
      exact fun hn => hend (Or.inl hn)

/-- The line being typed is what is between `w` and `e`. -/
theorem e_sub_w (hs : c.Shows h) : (c.e - c.w).toNat = h.tail.length := by
  have hcap := hs.cap
  have htaken := hs.taken
  have hsub : c.e.toBitVec - c.w.toBitVec = BitVec.ofNat 32 h.tail.length := by
    rw [hs.w, hs.ring.wr, List.length_append, Nat.add_comm, BitVec.ofNat_add, BitVec.add_sub_cancel]
  have hval : (c.e - c.w).toNat = (c.e.toBitVec - c.w.toBitVec).toNat := rfl
  rw [hval, hsub, BitVec.toNat_ofNat]
  exact Nat.mod_eq_of_lt (by omega)

/-- consoleintr does to the console what typing does to the input. -/
theorem consoleintr (hs : c.Shows h) (ch : UInt8) : (c.consoleintr ch).1.Shows (h.type ch) := by
  unfold Cons.consoleintr Input.type
  by_cases hP : ch = ctrl 'P'
  · rw [if_pos hP, if_pos hP]
    exact hs
  rw [if_neg hP, if_neg hP]
  by_cases hU : ch = ctrl 'U'
  · rw [if_pos hU, if_pos hU]
    exact hs.killLine _ hs.e_sub_w.ge
  rw [if_neg hU, if_neg hU]
  by_cases hH : ch = ctrl 'H' ∨ ch = 0x7f
  · rw [if_pos hH, if_pos hH]
    by_cases hnil : h.tail = []
    · rw [if_neg (fun he => he (hs.e_eq_w.mpr hnil))]
      exact hs.of_eq rfl (by rw [hnil]; rfl) rfl
    · rw [if_pos (fun he => hnil (hs.e_eq_w.mp he))]
      exact hs.erase hnil
  rw [if_neg hH, if_neg hH]
  have hroom : c.e - c.r < 128 ↔ h.held < INPUT_BUF_SIZE := by
    rw [← hs.e_sub_r]
    exact UInt32.lt_iff_toNat_lt
  by_cases hch : ch ≠ 0 ∧ c.e - c.r < 128
  · have hlt := hroom.mp hch.2
    rw [if_pos hch, if_pos (show ch ≠ 0 ∧ h.held < INPUT_BUF_SIZE from ⟨hch.1, hlt⟩)]
    generalize (if ch = '\r'.toNat.toUInt8 then newline else ch) = x
    by_cases hend : x = newline ∨ x = ctrl 'D' ∨ c.e + 1 - c.r = 128
    · exact hs.add hlt x (by simp [hend]) (by simp [hend]) (by simp [hend]) (by simp [hend])
    · exact hs.add hlt x (by simp [hend]) (by simp [hend]) (by simp [hend]) (by simp [hend])
  · rw [if_neg hch, if_neg (by rwa [hroom] at hch)]
    exact hs

end Cons.Shows

/-! ## A step of a consoleread -/

namespace ReadPc

/-- `n` and `target`. -/
def args : ReadPc → Option (Int × Int)
  | .out => none
  | .lock k t | .test k t | .killed k t | .sleep k t => some (k, t)

/-- It found nothing to read. -/
def waits : ReadPc → Bool
  | .killed _ _ | .sleep _ _ => true
  | _ => false

end ReadPc

/-- What a step of a consoleread does to it and to the input, if the copy succeeds and the process is not killed with
bytes it has read. -/
inductive Went (h : Input) (pc : ReadPc) (got : List UInt8) (k t : Int) : ReadPc → List UInt8 → Input → Prop
  | move {pc' : ReadPc} (hargs : pc'.args = some (k, t))
    (hwaits : pc'.waits = true → pc.waits = true ∨ h.taken = h.committed.length) : Went h pc got k t pc' got h
  | byte {ch : UInt8} (hk : 0 < k) (hch : h.committed[h.taken]? = some ch) (hD : ch ≠ ctrl 'D') (hn : ch ≠ newline) :
    Went h pc got k t (.test (k - 1) t) (got ++ [ch]) { h with taken := h.taken + 1 }
  | line (hk : 0 < k) (hch : h.committed[h.taken]? = some newline) :
    Went h pc got k t .out (got ++ [newline]) { h with
      taken := h.taken + 1, reads := h.reads ++ [⟨t, got ++ [newline], t - (k - 1), false⟩] }
  | count (hk : k ≤ 0) : Went h pc got k t .out got { h with reads := h.reads ++ [⟨t, got, t - k, false⟩] }
  | eof (hk : 0 < k) (hch : h.committed[h.taken]? = some (ctrl 'D')) : Went h pc got k t .out got { h with
      taken := if got = [] then h.taken + 1 else h.taken, reads := h.reads ++ [⟨t, got, t - k, true⟩] }
  | killed (hpc : pc.waits = true) (hgot : got = []) :
    Went h pc got k t .out got { h with reads := h.reads ++ [⟨t, got, -1, false⟩] }

section Run

variable {ι : Type*} [DecidableEq ι] {s s' : Readers ι} {h : Input} {i : ι} {killed : Bool}

theorem Cons.Shows.get_taken (hs : s.cons.Shows h) (hne : s.cons.r ≠ s.cons.w) :
    h.taken < h.committed.length ∧ h.committed[h.taken]? = some (s.cons.buf (Cons.place s.cons.r)) := by
  have hlt : h.taken < h.committed.length := lt_of_le_of_ne hs.taken fun heq => hne (hs.r_eq_w.mpr heq)
  exact ⟨hlt, hs.head hlt⟩

/-- The turn of the loop of consoleread that takes a byte. -/
theorem take_went {k t : Int} (killed : Bool) (hs : s.cons.Shows h) (hpc : s.read i = .test k t)
    (hcount : k + (s.got i).length = t) (hk : 0 < k) (hne : s.cons.r ≠ s.cons.w) : ∃ pc' g',
      Went h (s.read i) (s.got i) k t pc' g' (h.go s i killed true) ∧
      (s.take i k t true).read = Function.update s.read i pc' ∧ (s.take i k t true).got = Function.update s.got i g' ∧
      (s.take i k t true).cons.Shows (h.go s i killed true) := by
  obtain ⟨hlt, hget⟩ := hs.get_taken hne
  have htake := hs.take hlt
  unfold Input.go Readers.take
  simp only [hpc, if_neg (Int.not_le.mpr hk), hne, if_false]
  set ch := s.cons.buf (Cons.place s.cons.r) with hch
  by_cases hD : ch = ctrl 'D'
  · rw [hD] at hget
    simp only [hD, if_true]
    refine ⟨.out, s.got i, .eof hk hget, ?_, ?_, ?_⟩
    · split_ifs <;> rfl
    · rw [Function.update_eq_self]
      split_ifs <;> rfl
    · have hgot : s.got i = [] ↔ ¬ k < t := by
        rw [← List.length_eq_zero_iff]
        omega
      by_cases hnil : s.got i = []
      · rw [if_neg (hgot.mp hnil), if_pos hnil]
        exact htake.of_eq rfl rfl rfl
      · rw [if_pos (not_not.mp fun hkt => hnil (hgot.mpr hkt)), if_neg hnil]
        exact hs.of_eq rfl rfl rfl
  · by_cases hn : ch = newline
    · rw [hn] at hget
      simp only [hn, if_false, if_true, Bool.true_eq_false]
      exact ⟨.out, _, .line hk hget, rfl, rfl, htake.of_eq rfl rfl rfl⟩
    · simp only [hD, hn, if_false, if_true, Bool.true_eq_false]
      exact ⟨_, _, .byte hk hget hD hn, rfl, rfl, htake⟩

/-- A step of a consoleread whose copies succeed and which is not killed with bytes it has read. -/
theorem run_went (hs : s.cons.Shows h)
    (hcount : ∀ k t, (s.read i).args = some (k, t) → k + (s.got i).length = t)
    (hkilled : killed = true → (s.read i).waits = true → s.got i = []) (hrun : s.run i killed true = some s') :
    ∃ k t pc' g', (s.read i).args = some (k, t) ∧
      Went h (s.read i) (s.got i) k t pc' g' (h.go s i killed true) ∧
      s'.read = Function.update s.read i pc' ∧ s'.got = Function.update s.got i g' ∧
      s'.cons.Shows (h.go s i killed true) := by
  have hself : s.got = Function.update s.got i (s.got i) := (Function.update_eq_self i s.got).symm
  unfold Readers.run at hrun
  cases hpc : s.read i with
  | out =>
    rw [hpc] at hrun
    cases hrun
  | lock k t =>
    rw [hpc] at hrun
    obtain ⟨-, rfl⟩ := of_guard hrun
    have hgo : h.go s i killed true = h := by simp only [Input.go, hpc]
    rw [hgo]
    exact ⟨k, t, .test k t, s.got i, rfl, .move rfl (fun hw => by cases hw), rfl, hself, hs⟩
  | test k t =>
    have hc := hcount k t (by rw [hpc]; rfl)
    rw [hpc] at hrun
    simp only [Option.some.injEq] at hrun
    by_cases hk : k ≤ 0
    · rw [if_pos hk] at hrun
      subst hrun
      have hgo : h.go s i killed true = { h with reads := h.reads ++ [⟨t, s.got i, t - k, false⟩] } := by
        simp only [Input.go, hpc, if_pos hk]
      rw [hgo]
      exact ⟨k, t, .out, s.got i, rfl, .count hk, rfl, hself, hs.of_eq rfl rfl rfl⟩
    · rw [if_neg hk] at hrun
      by_cases heq : s.cons.r = s.cons.w
      · rw [if_pos heq] at hrun
        subst hrun
        have hgo : h.go s i killed true = h := by simp only [Input.go, hpc, if_neg hk, if_pos heq]
        rw [hgo]
        exact ⟨k, t, .killed k t, s.got i, rfl, .move rfl (fun _ => Or.inr (hs.r_eq_w.mp heq)), rfl, hself, hs⟩
      · rw [if_neg heq] at hrun
        subst hrun
        obtain ⟨pc', g', hwent, hread, hgot, hshows⟩ :=
          take_went killed hs hpc hc (Int.not_le.mp hk) heq
        rw [hpc] at hwent
        exact ⟨k, t, pc', g', rfl, hwent, hread, hgot, hshows⟩
  | killed k t =>
    rw [hpc] at hrun
    simp only [Option.some.injEq] at hrun
    cases killed with
    | true =>
      rw [if_pos rfl] at hrun
      subst hrun
      have hgo : h.go s i true true = { h with reads := h.reads ++ [⟨t, s.got i, -1, false⟩] } := by
        simp only [Input.go, hpc, if_true]
      rw [hgo]
      exact ⟨k, t, .out, s.got i, rfl, .killed rfl (hkilled rfl (by rw [hpc]; rfl)), rfl, hself,
        hs.of_eq rfl rfl rfl⟩
    | false =>
      simp only [Bool.false_eq_true, if_false] at hrun
      subst hrun
      have hgo : h.go s i false true = h := by simp only [Input.go, hpc, Bool.false_eq_true, if_false]
      rw [hgo]
      exact ⟨k, t, .sleep k t, s.got i, rfl, .move rfl (fun _ => Or.inl rfl), rfl, hself, hs⟩
  | sleep k t =>
    rw [hpc] at hrun
    simp only [Option.some.injEq] at hrun
    subst hrun
    have hgo : h.go s i killed true = h := by simp only [Input.go, hpc]
    rw [hgo]
    exact ⟨k, t, .lock k t, s.got i, rfl, .move rfl (fun hw => by cases hw), rfl, hself, hs⟩

end Run

/-! ## Reads that do not overlap -/

/-- The bytes of a read are from one line of the input, and it returned their number, -1 if it was killed, and 0
for a positive size only at a ^D. -/
structure Returned.FromLine (x : Returned) (committed : List UInt8) : Prop where
  piece : x.bytes <:+: committed
  newline : newline ∉ x.bytes.dropLast
  eof : ctrl 'D' ∉ x.bytes
  ret : x.ret = x.bytes.length ∨ (x.ret = -1 ∧ x.bytes = [])
  zero : 0 < x.size → x.ret = 0 → x.eof = true

/-- After a read that a ^D ended with bytes comes one that returns 0. -/
def Returned.ThenEof (x y : Returned) : Prop :=
  x.eof = true → x.bytes ≠ [] → y.ret = 0 ∧ y.eof = true

namespace Input

variable {h : Input}

/-- The bytes that the reads have returned. -/
def returned (h : Input) : List UInt8 :=
  (h.reads.map Returned.bytes).flatten

/-- The reads of a positive size. -/
def sized (h : Input) : List Returned :=
  h.reads.filter fun x => 0 < x.size

/-- What was read of the committed input, without the ^D. -/
def seen (h : Input) : List UInt8 :=
  (h.committed.take h.taken).filter (· ≠ ctrl 'D')

theorem returned_concat (h : Input) (x : Returned) (k : ℕ) :
    ({ h with taken := k, reads := h.reads ++ [x] } : Input).returned = h.returned ++ x.bytes := by
  simp [returned]

theorem sized_concat (h : Input) (x : Returned) (k : ℕ) :
    ({ h with taken := k, reads := h.reads ++ [x] } : Input).sized =
      if 0 < x.size then h.sized ++ [x] else h.sized := by
  simp only [sized, List.filter_append]
  split_ifs with hx
  · simp [hx]
  · simp [hx]

/-- Typing may commit more input, and changes nothing that was read. -/
theorem type_eq (h : Input) (ch : UInt8) : ∃ ext, (h.type ch).committed = h.committed ++ ext ∧
    (h.type ch).taken = h.taken ∧ (h.type ch).reads = h.reads := by
  have hadd : ∀ x, ∃ ext, (h.add x).committed = h.committed ++ ext ∧ (h.add x).taken = h.taken ∧
      (h.add x).reads = h.reads := fun x => by
    unfold add
    dsimp only
    split_ifs
    · exact ⟨_, rfl, rfl, rfl⟩
    · exact ⟨[], (List.append_nil _).symm, rfl, rfl⟩
  unfold type
  split_ifs
  all_goals first | exact hadd _ | exact ⟨[], (List.append_nil _).symm, rfl, rfl⟩

theorem take_succ {ch : UInt8} (hch : h.committed[h.taken]? = some ch) :
    h.committed.take (h.taken + 1) = h.committed.take h.taken ++ [ch] := by
  rw [List.take_add_one, hch]
  rfl

theorem seen_succ {ch : UInt8} (hch : h.committed[h.taken]? = some ch) (reads : List Returned) :
    ({ h with taken := h.taken + 1, reads := reads } : Input).seen =
      if ch = ctrl 'D' then h.seen else h.seen ++ [ch] := by
  simp only [seen, take_succ hch, List.filter_append]
  split_ifs with hD
  · simp [hD]
  · simp [hD]

end Input

section Served

variable {ι : Type*} [DecidableEq ι] {s s' : Readers ι} {h : Input} {i : ι}

/-- One read at a time, whose copies succeed, and which is not killed with bytes it has read. -/
def OneAtATime (s : Readers ι) : ReadersAct ι → Prop
  | .intr _ => True
  | .read _ _ => ∀ j, s.read j = .out
  | .run i killed ok => ok = true ∧ (killed = true → (s.read i).waits = true → s.got i = [])

/-- What is true of the console and its reads when they come one at a time. -/
structure Served (s : Readers ι) (h : Input) : Prop where
  shows : s.cons.Shows h
  count : ∀ i k t, (s.read i).args = some (k, t) → k + (s.got i).length = t
  alone : ∀ i j, s.read i ≠ .out → s.read j ≠ .out → i = j
  reading : ∀ i, s.read i ≠ .out → h.returned ++ s.got i = h.seen
  idle : (∀ i, s.read i = .out) → h.returned = h.seen
  piece : ∀ i, s.read i ≠ .out → s.got i <:+ h.committed.take h.taken
  plain : ∀ i, s.read i ≠ .out → newline ∉ s.got i ∧ ctrl 'D' ∉ s.got i
  lines : ∀ x ∈ h.reads, x.FromLine h.committed
  chain : h.sized.IsChain Returned.ThenEof
  pending : ∀ x ∈ h.sized.getLast?, x.eof = true → x.bytes ≠ [] → h.committed[h.taken]? = some (ctrl 'D') ∧
    ∀ i, s.read i ≠ .out → s.got i = [] ∧ (s.read i).waits = false

theorem served_boot : Served (Readers.boot : Readers ι) Input.start where
  shows := ⟨Ring.Holds.empty _, rfl, le_rfl, fun _ hch => absurd hch List.not_mem_nil⟩
  count _ _ _ hargs := by cases hargs
  alone _ _ hi := absurd rfl hi
  reading _ hi := absurd rfl hi
  idle _ := rfl
  piece _ hi := absurd rfl hi
  plain _ hi := absurd rfl hi
  lines _ hx := absurd hx List.not_mem_nil
  chain := List.isChain_nil
  pending _ hx := by cases hx

/-- Typing. -/
theorem Served.intr (hs : Served s h) (ch : UInt8) :
    Served { s with cons := (s.cons.consoleintr ch).1 } (h.type ch) := by
  obtain ⟨ext, hc, ht, hr⟩ := h.type_eq ch
  have htake : (h.type ch).committed.take (h.type ch).taken = h.committed.take h.taken := by
    rw [hc, ht, List.take_append_of_le_length hs.shows.taken]
  have hseen : (h.type ch).seen = h.seen := by rw [Input.seen, htake, Input.seen]
  have hret : (h.type ch).returned = h.returned := by rw [Input.returned, hr, Input.returned]
  have hsized : (h.type ch).sized = h.sized := by rw [Input.sized, hr, Input.sized]
  refine ⟨hs.shows.consoleintr ch, hs.count, hs.alone, ?_, ?_, ?_, hs.plain, ?_, ?_, ?_⟩
  · rw [hseen, hret]
    exact hs.reading
  · rw [hseen, hret]
    exact hs.idle
  · rw [htake]
    exact hs.piece
  · rw [hr, hc]
    intro x hx
    have hline := hs.lines x hx
    exact ⟨hline.piece.trans (List.prefix_append _ _).isInfix, hline.newline, hline.eof, hline.ret, hline.zero⟩
  · rw [hsized]
    exact hs.chain
  · rw [hsized, hc, ht]
    intro x hx heof hne
    obtain ⟨hD, hall⟩ := hs.pending x hx heof hne
    obtain ⟨hlt, -⟩ := List.getElem?_eq_some_iff.mp hD
    exact ⟨by rwa [List.getElem?_append_left hlt], hall⟩

/-- A process calls consoleread, and no other is in it. -/
theorem Served.read (hs : Served s h) (hout : ∀ j, s.read j = .out) (i : ι) (n : Int) :
    Served ({ s with got := Function.update s.got i [] }.goto i (.lock n n)) h := by
  have hread : ∀ j, Function.update s.read i (.lock n n) j ≠ .out → j = i := by
    intro j hj
    by_contra hne
    rw [Function.update_of_ne hne] at hj
    exact hj (hout j)
  refine ⟨hs.shows, ?_, ?_, ?_, ?_, ?_, ?_, hs.lines, hs.chain, ?_⟩
  · intro j k t hargs
    have hj : j = i := by
      refine hread j fun h0 => ?_
      have hargs : (Function.update s.read i (.lock n n) j).args = some (k, t) := hargs
      rw [h0] at hargs
      cases hargs
    subst hj
    have hargs : (Function.update s.read j (.lock n n) j).args = some (k, t) := hargs
    rw [Function.update_self] at hargs
    cases hargs
    simp [Readers.goto]
  · intro j j' hj hj'
    rw [hread j hj, hread j' hj']
  · intro j hj
    rw [hread j hj]
    simpa [Readers.goto] using hs.idle hout
  · intro hall
    have hi : Function.update s.read i (.lock n n) i = .out := hall i
    rw [Function.update_self] at hi
    cases hi
  · intro j hj
    rw [hread j hj]
    simp [Readers.goto]
  · intro j hj
    rw [hread j hj]
    simp [Readers.goto]
  · intro x hx heof hne
    refine ⟨(hs.pending x hx heof hne).1, fun j hj => ?_⟩
    rw [hread j hj]
    simp [Readers.goto, ReadPc.waits]

/-- The read in progress returns. -/
theorem Served.returns {x : Returned} {taken : ℕ} (hs : Served s h) (hi : s.read i ≠ .out)
    (hshows : s'.cons.Shows { h with taken := taken, reads := h.reads ++ [x] })
    (hread : s'.read = Function.update s.read i .out)
    (hseen : h.returned ++ x.bytes = ({ h with taken := taken, reads := h.reads ++ [x] } : Input).seen)
    (hline : x.FromLine h.committed)
    (hchain : 0 < x.size → ∀ y ∈ h.sized.getLast?, y.ThenEof x)
    (hpend : 0 < x.size → x.eof = true → x.bytes ≠ [] → h.committed[taken]? = some (ctrl 'D'))
    (hkeep : ¬ 0 < x.size → taken = h.taken) :
    Served s' { h with taken := taken, reads := h.reads ++ [x] } := by
  have hout : ∀ j, s'.read j = .out := by
    intro j
    rw [hread]
    by_cases hj : j = i
    · rw [hj, Function.update_self]
    · rw [Function.update_of_ne hj]
      by_contra hne
      exact hj (hs.alone j i hne hi)
  refine ⟨hshows, fun j k t hargs => ?_, fun j _ hj => absurd (hout j) hj, fun j hj => absurd (hout j) hj, fun _ => ?_,
    fun j hj => absurd (hout j) hj, fun j hj => absurd (hout j) hj, fun y hy => ?_, ?_, ?_⟩
  · rw [hout] at hargs
    cases hargs
  · rw [Input.returned_concat, hseen]
  · obtain hy | hy := List.mem_append.mp hy
    · exact hs.lines y hy
    · rw [List.mem_singleton.mp hy]
      exact hline
  · rw [Input.sized_concat]
    split_ifs with hx
    · refine List.isChain_append.mpr ⟨hs.chain, List.isChain_singleton x, fun y hy z hz => ?_⟩
      obtain rfl : x = z := by simpa using hz
      exact hchain hx y hy
    · exact hs.chain
  · rw [Input.sized_concat]
    split_ifs with hx
    · intro y hy heof hne
      obtain rfl : x = y := by simpa using hy
      exact ⟨hpend hx heof hne, fun j hj => absurd (hout j) hj⟩
    · intro y hy heof hne
      rw [hkeep hx]
      exact ⟨(hs.pending y hy heof hne).1, fun j hj => absurd (hout j) hj⟩

/-- The read in progress goes on, perhaps with one byte more. -/
theorem Served.goes {pc' : ReadPc} {got' : List UInt8} {taken : ℕ} (hs : Served s h) (hi : s.read i ≠ .out)
    (hshows : s'.cons.Shows { h with taken := taken }) (hread : s'.read = Function.update s.read i pc')
    (hgot : s'.got = Function.update s.got i got') (hpc : pc' ≠ .out)
    (hcount : ∀ k t, pc'.args = some (k, t) → k + got'.length = t)
    (hseen : h.returned ++ got' = ({ h with taken := taken } : Input).seen)
    (hpiece : got' <:+ h.committed.take taken) (hplain : newline ∉ got' ∧ ctrl 'D' ∉ got')
    (hpend : ∀ x ∈ h.sized.getLast?, x.eof = true → x.bytes ≠ [] →
      h.committed[taken]? = some (ctrl 'D') ∧ got' = [] ∧ pc'.waits = false) :
    Served s' { h with taken := taken } := by
  have hone : ∀ j, s'.read j ≠ .out → j = i := by
    intro j hj
    rw [hread] at hj
    by_contra hne
    rw [Function.update_of_ne hne] at hj
    exact hne (hs.alone j i hj hi)
  have hread' : s'.read i = pc' := by rw [hread, Function.update_self]
  have hgot' : s'.got i = got' := by rw [hgot, Function.update_self]
  refine ⟨hshows, fun j k t hargs => ?_, fun j j' hj hj' => (hone j hj).trans (hone j' hj').symm, fun j hj => ?_,
    fun hall => ?_, fun j hj => ?_, fun j hj => ?_, hs.lines, hs.chain, fun x hx heof hne => ?_⟩
  · have hj : j = i := hone j fun h0 => by rw [h0] at hargs; cases hargs
    rw [hj, hgot']
    rw [hj, hread'] at hargs
    exact hcount k t hargs
  · rw [hone j hj, hgot']
    exact hseen
  · exact absurd (hread'.symm.trans (hall i)) hpc
  · rw [hone j hj, hgot']
    exact hpiece
  · rw [hone j hj, hgot']
    exact hplain
  · obtain ⟨hD, hnil, hwaits⟩ := hpend x hx heof hne
    refine ⟨hD, fun j hj => ?_⟩
    rw [hone j hj, hgot', hread']
    exact ⟨hnil, hwaits⟩

/-- A step of a consoleread. -/
theorem Served.run {killed : Bool} (hs : Served s h)
    (hkilled : killed = true → (s.read i).waits = true → s.got i = []) (hrun : s.run i killed true = some s') :
    Served s' (h.go s i killed true) := by
  obtain ⟨k, t, pc', got', hargs, hwent, hread, hgot, hshows⟩ := run_went hs.shows (hs.count i) hkilled hrun
  have hi : s.read i ≠ .out := fun h0 => by rw [h0] at hargs; cases hargs
  have hcount := hs.count i k t hargs
  have hseen := hs.reading i hi
  have hpiece := hs.piece i hi
  obtain ⟨hplain, hplainD⟩ := hs.plain i hi
  have hpart : s.got i <:+: h.committed := hpiece.isInfix.trans (List.take_prefix _ _).isInfix
  have hnotPending : s.got i ≠ [] → ∀ y ∈ h.sized.getLast?, ∀ z : Returned, y.ThenEof z := fun hne y hy _ heof hy' =>
    absurd ((hs.pending y hy heof hy').2 i hi).1 hne
  generalize h.go s i killed true = h' at hwent hshows ⊢
  cases hwent with
  | move hargs' hwaits =>
    refine hs.goes hi hshows hread hgot (fun h0 => by rw [h0] at hargs'; cases hargs') (fun k' t' hargs'' => ?_) hseen
      hpiece ⟨hplain, hplainD⟩ fun x hx heof hne => ?_
    · rw [hargs'] at hargs''
      cases hargs''
      exact hcount
    · obtain ⟨hD, hall⟩ := hs.pending x hx heof hne
      obtain ⟨hnil, hwait⟩ := hall i hi
      refine ⟨hD, hnil, ?_⟩
      by_contra hw
      obtain hw | hw := hwaits (by simpa using hw)
      · rw [hwait] at hw
        cases hw
      · rw [hw, List.getElem?_eq_none le_rfl] at hD
        cases hD
  | @byte ch hk hch hD hn =>
    refine hs.goes hi hshows hread hgot (by simp) (fun k' t' hargs' => ?_) ?_ ?_ ?_ fun x hx heof hne => ?_
    · cases hargs'
      rw [List.length_append, List.length_singleton]
      push_cast
      omega
    · rw [Input.seen_succ hch, if_neg hD, ← hseen, List.append_assoc]
    · rw [Input.take_succ hch]
      obtain ⟨pre, hpre⟩ := hpiece
      exact ⟨pre, by rw [← hpre, List.append_assoc]⟩
    · simp [hplain, hplainD, Ne.symm hD, Ne.symm hn]
    · have hD' := (hs.pending x hx heof hne).1
      exact absurd (Option.some.inj (hch.symm.trans hD')) hD
  | line hk hch =>
    have hne : newline ≠ ctrl 'D' := by decide
    refine hs.returns hi hshows hread ?_ ⟨?_, ?_, ?_, ?_, ?_⟩ ?_ ?_ ?_
    · rw [Input.seen_succ hch, if_neg hne, ← hseen, List.append_assoc]
    · have hsuffix : s.got i ++ [newline] <:+ h.committed.take (h.taken + 1) := by
        rw [Input.take_succ hch]
        obtain ⟨pre, hpre⟩ := hpiece
        exact ⟨pre, by rw [← hpre, List.append_assoc]⟩
      exact hsuffix.isInfix.trans (List.take_prefix _ _).isInfix
    · rw [List.dropLast_concat]
      exact hplain
    · simp [hplainD, Ne.symm hne]
    · left
      rw [List.length_append, List.length_singleton]
      push_cast
      omega
    · intro _ h0
      have h0 : t - (k - 1) = 0 := h0
      omega
    · intro _ y hy heof hy'
      have hD' := (hs.pending y hy heof hy').1
      exact absurd (Option.some.inj (hch.symm.trans hD')) hne
    · intro _ heof
      cases heof
    · intro ht
      have ht : ¬ 0 < t := ht
      omega
  | count hk =>
    refine hs.returns hi hshows hread hseen ⟨hpart, fun hmem => hplain (List.mem_of_mem_dropLast hmem), hplainD,
      Or.inl (by show t - k = ((s.got i).length : Int); omega), ?_⟩ ?_ (fun _ heof => by cases heof) fun _ => rfl
    · intro ht h0
      have ht : 0 < t := ht
      have h0 : t - k = 0 := h0
      omega
    · intro ht y hy
      have ht : 0 < t := ht
      refine hnotPending (fun hnil => ?_) y hy _
      rw [hnil, List.length_nil] at hcount
      omega
  | eof hk hch =>
    refine hs.returns hi hshows hread ?_ ⟨hpart, fun hmem => hplain (List.mem_of_mem_dropLast hmem), hplainD,
      Or.inl (by show t - k = ((s.got i).length : Int); omega), fun _ _ => rfl⟩ ?_ ?_ ?_
    · split_ifs
      · rw [Input.seen_succ hch, if_pos rfl]
        exact hseen
      · exact hseen
    · intro _ y hy
      by_cases hnil : s.got i = []
      · intro _ _
        refine ⟨?_, rfl⟩
        rw [hnil, List.length_nil] at hcount
        show t - k = 0
        omega
      · exact hnotPending hnil y hy _
    · intro _ _ hne
      rw [if_neg hne]
      exact hch
    · intro ht
      have ht : ¬ 0 < t := ht
      omega
  | killed hpc hnil =>
    refine hs.returns hi hshows hread hseen ⟨hpart, fun hmem => hplain (List.mem_of_mem_dropLast hmem), hplainD,
      Or.inr ⟨rfl, hnil⟩, fun _ h0 => ?_⟩ ?_ (fun _ heof => by cases heof) fun _ => rfl
    · have h0 : (-1 : Int) = 0 := h0
      omega
    · intro _ y hy heof hne
      have hw := ((hs.pending y hy heof hne).2 i hi).2
      rw [hpc] at hw
      cases hw

theorem Served.step {a : ReadersAct ι} (hs : Served s h) (hC : OneAtATime s a) (hstep : s.step a = some s') :
    Served s' (h.see s a) := by
  cases a with
  | intr ch =>
    obtain ⟨-, rfl⟩ := of_guard hstep
    exact hs.intr ch
  | read i n =>
    obtain ⟨-, rfl⟩ := of_guard hstep
    exact hs.read hC i n
  | run i killed ok =>
    obtain ⟨rfl, hkilled⟩ := hC
    exact hs.run hkilled hstep

end Served

/-- The console with the history of its input. -/
abbrev inputMachine (ι : Type*) [DecidableEq ι] : Machine (Readers ι × Input) (ReadersAct ι) :=
  (readersMachine ι).observe Input.start Input.see

theorem served_of_reachWhen {ι : Type*} [DecidableEq ι] {x : Readers ι × Input}
    (hreach : (inputMachine ι).ReachWhen (fun x a => OneAtATime x.1 a) x) : Served x.1 x.2 :=
  hreach.invariant (I := fun x => Served x.1 x.2) (fun x h0 => by rw [h0.1, h0.2]; exact served_boot)
    fun x a y _ hs hC hstep => by
      obtain ⟨hstep, hy⟩ := Machine.observe_step.mp hstep
      rw [hy]
      exact hs.step hC hstep

/-- When the reads come one at a time and none is killed with bytes it has read : the indices are in order, the bytes
returned are a prefix of the committed input without its ^D, each read returns bytes of one line, and after a read
that a ^D ended with bytes the next one of a positive size returns 0. -/
theorem line_discipline {ι : Type*} [DecidableEq ι] {s : Readers ι} {h : Input}
    (hreach : (inputMachine ι).ReachWhen (fun x a => OneAtATime x.1 a) (s, h)) :
    (s.cons.w - s.cons.r ≤ s.cons.e - s.cons.r ∧ s.cons.e - s.cons.r ≤ 128) ∧
      h.returned <+: h.committed.filter (· ≠ ctrl 'D') ∧ (∀ x ∈ h.reads, x.FromLine h.committed) ∧
      h.sized.IsChain Returned.ThenEof := by
  have hs := served_of_reachWhen hreach
  have hshows : s.cons.Shows h := hs.shows
  refine ⟨⟨?_, ?_⟩, ?_, hs.lines, hs.chain⟩
  · rw [UInt32.le_iff_toNat_le, hshows.w_sub_r, hshows.e_sub_r]
    unfold Input.held
    omega
  · rw [UInt32.le_iff_toNat_le, hshows.e_sub_r]
    exact hshows.held_le
  · have hseen : h.seen <+: h.committed.filter (· ≠ ctrl 'D') := (List.take_prefix _ _).filter _
    by_cases hout : ∀ i, s.read i = .out
    · rw [hs.idle hout]
      exact hseen
    · obtain ⟨i, hi⟩ := not_forall.mp hout
      rw [← hs.reading i hi] at hseen
      exact (List.prefix_append _ _).trans hseen

instance {ι : Type*} [DecidableEq ι] [Fintype ι] (s : Readers ι) (a : ReadersAct ι) : Decidable (OneAtATime s a) :=
  match a with
  | .intr _ => .isTrue trivial
  | .read _ _ => Fintype.decidableForallFintype
  | .run _ _ _ => instDecidableAnd

/-- The characters are typed. -/
def typed {ι : Type*} (l : List UInt8) : List (ReadersAct ι) :=
  l.map .intr

/-- `k` steps of the consoleread of `i`. -/
def running {ι : Type*} (i : ι) (k : ℕ) : List (ReadersAct ι) :=
  List.replicate k (.run i false true)

/-- One process waits for a line, in which a character is erased, and reads it. -/
theorem line_discipline_erased : ∃ x : Readers Unit × Input, x.2.returned = [97, 10] ∧
    x.2.returned <+: x.2.committed.filter (· ≠ ctrl 'D') := by
  obtain ⟨x, hx, hret⟩ := Machine.reachable_of_exec
    (M := (inputMachine Unit).guarded fun x a => OneAtATime x.1 a) (s := (Readers.boot, Input.start)) ⟨rfl, rfl⟩
    (.read () 5 :: running () 4 ++ typed [97, 98, 8, 10] ++ running () 3) (fun x => x.2.returned = [97, 10])
    (by decide +kernel)
  exact ⟨x, hret, (line_discipline hx.of_guarded).2.1⟩

/-- The copies of a step succeed, and its process is not killed. -/
def ReadersAct.Fine {ι : Type*} : ReadersAct ι → Prop
  | .run _ killed ok => killed = false ∧ ok = true
  | _ => True

instance {ι : Type*} : DecidablePred (ReadersAct.Fine (ι := ι)) := fun a =>
  match a with
  | .intr _ | .read _ _ => .isTrue trivial
  | .run _ _ _ => instDecidableAnd

/-- One reader takes a full buffer and sleeps, another takes the rest of the line, and the first goes on with the
next line. -/
def overlap : List (ReadersAct Bool) :=
  typed (List.replicate 128 97) ++ .read false 200 :: running false 132 ++ .read true 200 :: running true 4 ++
    typed [98, 10] ++ running true 3 ++ typed [99, 10] ++ running false 3

/-- Then the bytes returned are no prefix of the committed input, and those of the first are of two lines. -/
theorem overlap_splits : ∃ x, (inputMachine Bool).ReachWhen (fun _ a => a.Fine) x ∧
    ¬ x.2.returned <+: x.2.committed.filter (· ≠ ctrl 'D') ∧ ∃ y ∈ x.2.reads, ¬ y.bytes <:+: x.2.committed :=
  Machine.reachWhen_of_exec (M := inputMachine Bool) (s := (Readers.boot, Input.start)) ⟨rfl, rfl⟩ overlap
    (fun a ha _ => (by decide +kernel : ∀ a ∈ overlap, a.Fine) a ha) _ (by decide +kernel)

/-! ## The console of the kernel -/

namespace Tty

variable {n : ℕ} {s s' : Tty n}

end Tty

end Xv6
