import Mathlib.Data.List.Count
import Mathlib.Data.List.FinRange
import Mathlib.Tactic.SplitIfs
import Xv6.Bytes

/-!
# The buffer cache

kernel/bio.c with any number of processes. A reference to a buffer (`Ref`) is what a process has
between the `bget` that returns the buffer and the end of its `brelse`; it says whether the
process still wants the buffer's sleep lock, holds it, or has released it. One step is one critical
section : the two halves of bread (the search under `bcache.lock`; the sleep lock and the read from disk)
and the two halves of brelse.

The list of buffers is a list of indices, the most recently used first. A buffer that has never been
used has `dev` 0, which no block has : its `blockno` is `none`.

The invariant (`Bufs.Inv`) : a block has at most one buffer, and `refcnt` counts the references
and the pins. A buffer is recycled only when nothing refers to it.
-/

set_option linter.unusedSectionVars false

namespace Xv6

open Function (update_self update_of_ne)

/-- `BSIZE`. -/
abbrev BSIZE : ℕ := 1024

/-- The contents of a block. -/
abbrev Block : Type := Bytes BSIZE

/-- `NBUF`. -/
abbrev NBUF : ℕ := 30

/-- A pointer to a buffer of the cache. -/
abbrev BufId : Type := Fin NBUF

/-- `struct buf`. -/
structure Buf (P : Type*) where
  blockno : Option ℕ
  valid : Bool
  refcnt : ℕ
  lock : Option P
  data : Block

/-- How far a reference is between bread and brelse. -/
inductive Stage
  | wants
  | holds
  | released
  deriving DecidableEq, Repr

/-- A reference of a process to a buffer. -/
structure Ref (P : Type*) where
  proc : P
  buf : BufId
  stage : Stage
  deriving DecidableEq, Repr

instance Ref.decidableMem {P : Type*} [DecidableEq P] (r : Ref P) (l : List (Ref P)) :
    Decidable (r ∈ l) :=
  List.instDecidableMemOfLawfulBEq r l

/-- `bcache`, and the references that the processes have. -/
structure Bufs (P : Type*) where
  buf : BufId → Buf P
  /-- The list through `next`, from the most recently used buffer on. -/
  order : List BufId
  refs : List (Ref P)

namespace Bufs

variable {P : Type*} [DecidableEq P]

/-- The cache after `binit`. -/
def binit : Bufs P where
  buf _ := ⟨none, false, 0, none, Bytes.zero _⟩
  order := (List.finRange NBUF).reverse
  refs := []

/-- Store into a buffer. -/
def set (c : Bufs P) (i : BufId) (b : Buf P) : Bufs P :=
  { c with buf := Function.update c.buf i b }

/-- The first loop of bget. -/
def find (c : Bufs P) (b : ℕ) : Option BufId :=
  c.order.find? fun i => (c.buf i).blockno == some b

/-- The second loop of bget : the least recently used buffer that nothing refers to. -/
def recycle (c : Bufs P) : Option BufId :=
  c.order.reverse.find? fun i => (c.buf i).refcnt == 0

/-- bget by `p` up to where it releases `bcache.lock`; `none` is the panic. -/
def bget (c : Bufs P) (p : P) (b : ℕ) : Option (BufId × Bufs P) :=
  match c.find b with
  | some i =>
    let c := c.set i { c.buf i with refcnt := (c.buf i).refcnt + 1 }
    some (i, { c with refs := ⟨p, i, .wants⟩ :: c.refs })
  | none => c.recycle.map fun i =>
    let c := c.set i { c.buf i with blockno := some b, valid := false, refcnt := 1 }
    (i, { c with refs := ⟨p, i, .wants⟩ :: c.refs })

/-- The rest of bread by `p` : acquiresleep, and the read if the buffer is not valid. -/
def acquire (c : Bufs P) (disk : ℕ → Block) (p : P) (i : BufId) : Option (Bufs P) :=
  if (c.buf i).lock = none ∧ ⟨p, i, .wants⟩ ∈ c.refs then
    let b := c.buf i
    let c := c.set i { b with
      lock := some p, valid := true
      data := if b.valid then b.data else (b.blockno.map disk).getD b.data }
    some { c with refs := ⟨p, i, .holds⟩ :: c.refs.erase ⟨p, i, .wants⟩ }
  else none

/-- The releasesleep of brelse by `p`. -/
def releasesleep (c : Bufs P) (p : P) (i : BufId) : Bufs P :=
  let c := c.set i { c.buf i with lock := none }
  { c with refs := ⟨p, i, .released⟩ :: c.refs.erase ⟨p, i, .holds⟩ }

/-- The rest of brelse by `p` : one reference less, and the buffer goes to the head of the list if it was
the last. -/
def put (c : Bufs P) (p : P) (i : BufId) : Bufs P :=
  let n := (c.buf i).refcnt - 1
  let c := c.set i { c.buf i with refcnt := n }
  { c with
    order := if n = 0 then i :: c.order.erase i else c.order
    refs := c.refs.erase ⟨p, i, .released⟩ }

/-- `bpin`. -/
def bpin (c : Bufs P) (i : BufId) : Bufs P :=
  c.set i { c.buf i with refcnt := (c.buf i).refcnt + 1 }

/-- `bunpin`. -/
def bunpin (c : Bufs P) (i : BufId) : Bufs P :=
  c.set i { c.buf i with refcnt := (c.buf i).refcnt - 1 }

/-- Store into the data of a buffer. -/
def setData (c : Bufs P) (i : BufId) (d : Block) : Bufs P :=
  c.set i { c.buf i with data := d }

/-- `holdingsleep` by `p`. -/
def holdingsleep (c : Bufs P) (p : P) (i : BufId) : Bool :=
  (c.buf i).lock == some p

/-! ## The invariant -/

/-- The references to one buffer. -/
def refsTo (refs : List (Ref P)) (i : BufId) : ℕ :=
  refs.countP fun r => r.buf = i

/-- The references that hold the lock of one buffer. -/
def holdsTo (refs : List (Ref P)) (i : BufId) : ℕ :=
  refs.countP fun r => decide (r.buf = i) && decide (r.stage = .holds)

/-- The invariant of the cache, where `pins` counts the pins of each buffer. -/
structure Inv (c : Bufs P) (pins : BufId → ℕ) : Prop where
  order : ∀ i, i ∈ c.order
  inj : ∀ i j b, (c.buf i).blockno = some b → (c.buf j).blockno = some b → i = j
  count : ∀ i, (c.buf i).refcnt = refsTo c.refs i + pins i
  named : ∀ i, 0 < (c.buf i).refcnt → (c.buf i).blockno ≠ none
  lock : ∀ i p, (c.buf i).lock = some p ↔ ⟨p, i, .holds⟩ ∈ c.refs
  once : ∀ i, holdsTo c.refs i ≤ 1
  valid : ∀ i, (c.buf i).lock ≠ none → (c.buf i).valid = true

variable {c c' : Bufs P} {pins : BufId → ℕ} {p : P} {i j : BufId} {b : ℕ}

@[simp] theorem set_self (i : BufId) (x : Buf P) : (c.set i x).buf i = x := by
  simp [set]

theorem set_of_ne {i j : BufId} (h : j ≠ i) (x : Buf P) : (c.set i x).buf j = c.buf j := by
  simp [set, h]

theorem binit_inv : (binit : Bufs P).Inv fun _ => 0 where
  order i := by simp [binit]
  inj i j b h := by cases h
  count i := by simp [binit, refsTo]
  named i h := by simp [binit] at h
  lock i p := by simp [binit]
  once i := by simp [binit, holdsTo]
  valid i h := absurd rfl h

theorem find_eq_some (h : c.find b = some i) : (c.buf i).blockno = some b := by
  have := List.find?_some h
  simpa using this

theorem Inv.find_eq_none (hc : c.Inv pins) (h : c.find b = none) (i : BufId) :
    (c.buf i).blockno ≠ some b := by
  have := List.find?_eq_none.mp h i (hc.order i)
  simpa using this

theorem recycle_eq_some (h : c.recycle = some i) : (c.buf i).refcnt = 0 := by
  have := List.find?_some h
  simpa using this

theorem Inv.recycle_eq_none (hc : c.Inv pins) (h : c.recycle = none) (i : BufId) :
    (c.buf i).refcnt ≠ 0 := by
  have := List.find?_eq_none.mp h i (List.mem_reverse.mpr (hc.order i))
  simpa using this

/-- bget finds the buffer of the block, or takes one that nothing refers to. -/
inductive Got (c : Bufs P) (p : P) (b : ℕ) (i : BufId) (c' : Bufs P) : Prop
  | hit (hb : (c.buf i).blockno = some b)
    (hc' : c' = { c.set i { c.buf i with refcnt := (c.buf i).refcnt + 1 } with
      refs := ⟨p, i, .wants⟩ :: c.refs })
  | miss (hb : ∀ j, (c.buf j).blockno ≠ some b) (hi : (c.buf i).refcnt = 0)
    (hc' : c' = { c.set i { c.buf i with blockno := some b, valid := false, refcnt := 1 } with
      refs := ⟨p, i, .wants⟩ :: c.refs })

theorem Inv.got (hc : c.Inv pins) (h : c.bget p b = some (i, c')) : Got c p b i c' := by
  unfold bget at h
  cases hf : c.find b with
  | some j =>
    simp only [hf, Option.some.injEq, Prod.mk.injEq] at h
    obtain ⟨rfl, rfl⟩ := h
    exact .hit (find_eq_some hf) rfl
  | none =>
    simp only [hf, Option.map_eq_some_iff, Prod.mk.injEq] at h
    obtain ⟨j, hj, rfl, rfl⟩ := h
    exact .miss (hc.find_eq_none hf) (recycle_eq_some hj) rfl

/-- bget panics only if the block is not cached and every buffer is in use. -/
theorem Inv.bget_eq_none (hc : c.Inv pins) (h : c.bget p b = none) :
    (∀ j, (c.buf j).blockno ≠ some b) ∧ ∀ j, (c.buf j).refcnt ≠ 0 := by
  unfold bget at h
  cases hf : c.find b with
  | some j => simp [hf] at h
  | none =>
    simp only [hf, Option.map_eq_none_iff] at h
    exact ⟨hc.find_eq_none hf, hc.recycle_eq_none h⟩

/-- bget panics if the block is not cached and every buffer is in use. -/
theorem bget_eq_none_of (hb : ∀ j, (c.buf j).blockno ≠ some b) (hused : ∀ j, (c.buf j).refcnt ≠ 0) :
    c.bget p b = none := by
  have hf : c.find b = none := List.find?_eq_none.mpr fun j _ => by simp [hb j]
  have hr : c.recycle = none := List.find?_eq_none.mpr fun j _ => by simp [hused j]
  simp [bget, hf, hr]

/-- A buffer that nothing refers to is not locked. -/
theorem Inv.unlocked (hc : c.Inv pins) (hi : (c.buf i).refcnt = 0) : (c.buf i).lock = none := by
  cases hl : (c.buf i).lock with
  | none => rfl
  | some p =>
    have hmem := (hc.lock i p).mp hl
    have hpos : 0 < refsTo c.refs i :=
      List.countP_pos_iff.mpr ⟨_, hmem, by simp⟩
    have := hc.count i
    omega

/-- A change of one buffer and of the references to it. -/
theorem Inv.of_set {x : Buf P} {order : List BufId} {refs : List (Ref P)} {pins' : BufId → ℕ}
    (hc : c.Inv pins) (horder : ∀ j, j ∈ order)
    (hblock : x.blockno = (c.buf i).blockno ∨ ∀ j b, x.blockno = some b → (c.buf j).blockno ≠ some b)
    (hothers : ∀ j, j ≠ i → refsTo refs j = refsTo c.refs j ∧ holdsTo refs j = holdsTo c.refs j ∧
      pins' j = pins j ∧ ∀ p, (⟨p, j, .holds⟩ ∈ refs ↔ ⟨p, j, .holds⟩ ∈ c.refs))
    (hcount : x.refcnt = refsTo refs i + pins' i) (hnamed : 0 < x.refcnt → x.blockno ≠ none)
    (hlock : ∀ p, x.lock = some p ↔ ⟨p, i, .holds⟩ ∈ refs) (honce : holdsTo refs i ≤ 1)
    (hvalid : x.lock ≠ none → x.valid = true) :
    Inv { buf := Function.update c.buf i x, order := order, refs := refs } pins' where
  order := horder
  inj j k b hj hk := by
    dsimp only at hj hk
    have hne : ∀ {j k : BufId}, j = i → k ≠ i → (Function.update c.buf i x j).blockno = some b →
        (Function.update c.buf i x k).blockno = some b → False := by
      intro j k hji hki hj hk
      rw [hji, update_self] at hj
      rw [update_of_ne hki] at hk
      obtain heq | hnew := hblock
      · exact hki (hc.inj k i b hk (heq ▸ hj))
      · exact hnew k b hj hk
    by_cases hji : j = i
    · by_cases hki : k = i
      · rw [hji, hki]
      · exact (hne hji hki hj hk).elim
    · by_cases hki : k = i
      · exact (hne hki hji hk hj).elim
      · rw [update_of_ne hji] at hj
        rw [update_of_ne hki] at hk
        exact hc.inj j k b hj hk
  count j := by
    by_cases hji : j = i
    · subst hji
      simpa using hcount
    · obtain ⟨h₁, -, h₃, -⟩ := hothers j hji
      simp only [update_of_ne hji, h₁, h₃, hc.count j]
  named j hj := by
    by_cases hji : j = i
    · subst hji
      simp only [update_self] at hj ⊢
      exact hnamed hj
    · simp only [update_of_ne hji] at hj ⊢
      exact hc.named j hj
  lock j p := by
    by_cases hji : j = i
    · subst hji
      simp only [update_self]
      exact hlock p
    · simp only [update_of_ne hji, hc.lock]
      exact ((hothers j hji).2.2.2 p).symm
  once j := by
    by_cases hji : j = i
    · subst hji
      exact honce
    · exact (hothers j hji).2.1.trans_le (hc.once j)
  valid j hj := by
    by_cases hji : j = i
    · subst hji
      simp only [update_self] at hj ⊢
      exact hvalid hj
    · simp only [update_of_ne hji] at hj ⊢
      exact hc.valid j hj

theorem Got.inv (h : Got c p b i c') (hc : c.Inv pins) : c'.Inv pins := by
  have hothers : ∀ j, j ≠ i → refsTo (⟨p, i, .wants⟩ :: c.refs) j = refsTo c.refs j ∧
      holdsTo (⟨p, i, .wants⟩ :: c.refs) j = holdsTo c.refs j ∧ pins j = pins j ∧
      ∀ q, (⟨q, j, .holds⟩ ∈ Ref.mk p i .wants :: c.refs ↔ ⟨q, j, .holds⟩ ∈ c.refs) := by
    intro j hj
    simp [refsTo, holdsTo, Ne.symm hj]
  have hrefs : refsTo (⟨p, i, .wants⟩ :: c.refs) i = refsTo c.refs i + 1 := by simp [refsTo]
  have hholds : holdsTo (⟨p, i, .wants⟩ :: c.refs) i ≤ 1 := by
    have := hc.once i
    simpa [holdsTo] using this
  have hcount := hc.count i
  cases h with
  | hit hb hc' =>
    subst hc'
    refine hc.of_set hc.order (Or.inl rfl) hothers ?_ (fun _ => by simp [hb]) (fun q => ?_) hholds
      (hc.valid i)
    · rw [hrefs]
      dsimp only
      omega
    · simpa using hc.lock i q
  | miss hb hi hc' =>
    subst hc'
    refine hc.of_set hc.order (Or.inr fun j b' hb' => ?_) hothers ?_ (fun _ => by simp) (fun q => ?_)
      hholds (fun h => absurd (hc.unlocked hi) h)
    · cases hb'
      exact hb j
    · rw [hrefs]
      dsimp only
      omega
    · simpa using hc.lock i q

theorem mem_of_holdsTo {refs : List (Ref P)} (h : ⟨p, i, .holds⟩ ∈ refs) : 0 < holdsTo refs i :=
  List.countP_pos_iff.mpr ⟨_, h, by simp⟩

theorem Inv.holdsTo_eq_zero (hc : c.Inv pins) (h : (c.buf i).lock = none) :
    holdsTo c.refs i = 0 := by
  rw [holdsTo, List.countP_eq_zero]
  rintro ⟨q, k, stage⟩ hr hk
  simp only [Bool.and_eq_true, decide_eq_true_eq] at hk
  obtain ⟨rfl, rfl⟩ := hk
  have := (hc.lock k q).mpr hr
  simp [h] at this

/-- A reference to `i` changes its stage. -/
theorem refs_move {refs : List (Ref P)} {s : Stage} (s' : Stage) (hmem : ⟨p, i, s⟩ ∈ refs) :
    refsTo (⟨p, i, s'⟩ :: refs.erase ⟨p, i, s⟩) i = refsTo refs i ∧
    (∀ j, j ≠ i → refsTo (⟨p, i, s'⟩ :: refs.erase ⟨p, i, s⟩) j = refsTo refs j ∧
      holdsTo (⟨p, i, s'⟩ :: refs.erase ⟨p, i, s⟩) j = holdsTo refs j ∧
      ∀ q, (⟨q, j, .holds⟩ ∈ Ref.mk p i s' :: refs.erase ⟨p, i, s⟩ ↔ ⟨q, j, .holds⟩ ∈ refs)) := by
  have hpos : 0 < refsTo refs i := List.countP_pos_iff.mpr ⟨_, hmem, by simp⟩
  refine ⟨?_, fun j hj => ⟨?_, ?_, fun q => ?_⟩⟩
  · simp only [refsTo, List.countP_cons, List.countP_erase, hmem] at hpos ⊢
    simp
    omega
  · simp [refsTo, List.countP_erase, Ne.symm hj]
  · simp [holdsTo, List.countP_erase, Ne.symm hj]
  · rw [List.mem_cons, List.mem_erase_of_ne (by simp [hj])]
    simp [hj]

theorem acquire_eq {disk : ℕ → Block} (h : c.acquire disk p i = some c') :
    (c.buf i).lock = none ∧ ⟨p, i, .wants⟩ ∈ c.refs ∧
    c' = { c.set i { c.buf i with
      lock := some p, valid := true
      data := if (c.buf i).valid then (c.buf i).data
        else ((c.buf i).blockno.map disk).getD (c.buf i).data } with
      refs := ⟨p, i, .holds⟩ :: c.refs.erase ⟨p, i, .wants⟩ } := by
  unfold acquire at h
  simp only [Option.ite_none_right_eq_some, Option.some.injEq] at h
  exact ⟨h.1.1, h.1.2, h.2.symm⟩

theorem Inv.acquire {disk : ℕ → Block} (hc : c.Inv pins) (h : c.acquire disk p i = some c') :
    c'.Inv pins := by
  obtain ⟨hlock, hmem, rfl⟩ := acquire_eq h
  obtain ⟨hrefs, hothers⟩ := refs_move .holds hmem
  have hzero := hc.holdsTo_eq_zero hlock
  refine hc.of_set hc.order (Or.inl rfl)
    (fun j hj => ⟨(hothers j hj).1, (hothers j hj).2.1, rfl, (hothers j hj).2.2⟩) ?_ (hc.named i)
    (fun q => ?_) ?_ fun _ => rfl
  · rw [hrefs]
    exact hc.count i
  · rw [List.mem_cons, List.mem_erase_of_ne (by simp)]
    constructor
    · rintro hq
      cases hq
      exact Or.inl rfl
    · rintro (hq | hq)
      · rw [(Ref.mk.inj hq).1]
      · have := mem_of_holdsTo hq
        omega
  · simp only [holdsTo] at hzero ⊢
    simp only [List.countP_cons, List.countP_erase, hzero]
    simp

theorem Inv.releasesleep (hc : c.Inv pins) (hmem : ⟨p, i, .holds⟩ ∈ c.refs) :
    (c.releasesleep p i).Inv pins := by
  obtain ⟨hrefs, hothers⟩ := refs_move .released hmem
  have hpos := mem_of_holdsTo hmem
  have honce := hc.once i
  have hzero : holdsTo (⟨p, i, .released⟩ :: c.refs.erase ⟨p, i, .holds⟩) i = 0 := by
    simp only [holdsTo] at hpos honce ⊢
    simp only [List.countP_cons, List.countP_erase, hmem]
    simp
    omega
  refine hc.of_set hc.order (Or.inl rfl)
    (fun j hj => ⟨(hothers j hj).1, (hothers j hj).2.1, rfl, (hothers j hj).2.2⟩)
    ((hc.count i).trans (congrArg (· + pins i) hrefs.symm)) (hc.named i)
    (fun q => ?_) (hzero.trans_le (Nat.zero_le 1)) fun h => absurd rfl h
  · exact ⟨fun h => by simp at h, fun h => absurd hzero (mem_of_holdsTo h).ne'⟩

theorem Inv.put (hc : c.Inv pins) (hmem : ⟨p, i, .released⟩ ∈ c.refs) : (c.put p i).Inv pins := by
  have hpos : 0 < refsTo c.refs i := List.countP_pos_iff.mpr ⟨_, hmem, by simp⟩
  have hcount := hc.count i
  refine hc.of_set (fun j => ?_) (Or.inl rfl) (fun j hj => ⟨?_, ?_, rfl, fun q => ?_⟩) ?_ (fun h => ?_)
    (fun q => ?_) ?_ (hc.valid i)
  · split_ifs
    · by_cases hj : j = i
      · simp [hj]
      · exact List.mem_cons_of_mem _ ((List.mem_erase_of_ne hj).mpr (hc.order j))
    · exact hc.order j
  · simp [refsTo, List.countP_erase, Ne.symm hj, set]
  · simp [holdsTo, List.countP_erase, Ne.symm hj, set]
  · rw [List.mem_erase_of_ne (by simp)]
    rfl
  · simp only [refsTo, set] at hpos hcount ⊢
    simp only [List.countP_erase, hmem]
    simp
    omega
  · exact hc.named i (by omega)
  · rw [List.mem_erase_of_ne (by simp)]
    exact hc.lock i q
  · have := hc.once i
    simpa [holdsTo, List.countP_erase, set] using this

theorem Inv.bpin (hc : c.Inv pins) (hi : (c.buf i).blockno ≠ none) :
    (c.bpin i).Inv (Function.update pins i (pins i + 1)) := by
  have hcount := hc.count i
  refine hc.of_set hc.order (Or.inl rfl) (fun j hj => ⟨rfl, rfl, by simp [hj], fun q => Iff.rfl⟩) ?_
    (fun _ => hi) (hc.lock i) (hc.once i) (hc.valid i)
  simp only [update_self]
  omega

theorem Inv.bunpin (hc : c.Inv pins) (hi : 0 < pins i) :
    (c.bunpin i).Inv (Function.update pins i (pins i - 1)) := by
  have hcount := hc.count i
  refine hc.of_set hc.order (Or.inl rfl) (fun j hj => ⟨rfl, rfl, by simp [hj], fun q => Iff.rfl⟩) ?_
    (fun _ => hc.named i (by omega)) (hc.lock i) (hc.once i) (hc.valid i)
  simp only [update_self]
  omega

theorem Inv.setData (hc : c.Inv pins) (i : BufId) (d : Block) : (c.setData i d).Inv pins :=
  hc.of_set hc.order (Or.inl rfl) (fun _ _ => ⟨rfl, rfl, rfl, fun _ => Iff.rfl⟩) (hc.count i)
    (hc.named i) (hc.lock i) (hc.once i) (hc.valid i)

/-! ## What the steps do to the contents -/

/-- The buffer is of the same block, with the same contents. -/
structure Same (x y : Buf P) : Prop where
  blockno : y.blockno = x.blockno
  valid : y.valid = x.valid
  data : y.data = x.data

theorem Same.refl (x : Buf P) : Same x x :=
  ⟨rfl, rfl, rfl⟩

theorem set_same {x : Buf P} (h : Same (c.buf i) x) (j : BufId) :
    Same (c.buf j) ((c.set i x).buf j) := by
  by_cases hj : j = i
  · rwa [hj, set_self]
  · rw [set_of_ne hj]
    exact .refl _

theorem refcnt_same (c : Bufs P) (i j : BufId) (n : ℕ) :
    Same (c.buf j) ((c.set i { c.buf i with refcnt := n }).buf j) := by
  refine set_same ?_ j
  exact ⟨rfl, rfl, rfl⟩

/-- bget leaves the buffers in use as they are. -/
theorem Got.same (h : Got c p b i c') (hj : 0 < (c.buf j).refcnt) :
    Same (c.buf j) (c'.buf j) := by
  cases h with
  | hit hb hc' =>
    subst hc'
    exact refcnt_same c i j _
  | miss hb hi hc' =>
    subst hc'
    have hji : j ≠ i := by
      rintro rfl
      omega
    change Same _ ((c.set i _).buf j)
    rw [set_of_ne hji]
    exact .refl _

theorem Got.blockno (h : Got c p b i c') : (c'.buf i).blockno = some b := by
  cases h with
  | hit hb hc' =>
    subst hc'
    change ((c.set i _).buf i).blockno = _
    rw [set_self]
    exact hb
  | miss hb hi hc' =>
    subst hc'
    change ((c.set i _).buf i).blockno = _
    rw [set_self]

theorem Got.refs (h : Got c p b i c') : c'.refs = ⟨p, i, .wants⟩ :: c.refs := by
  cases h with
  | hit hb hc' | miss hb hi hc' => subst hc'; rfl

theorem acquire_of_ne {disk : ℕ → Block} (h : c.acquire disk p i = some c') (hj : j ≠ i) :
    c'.buf j = c.buf j := by
  obtain ⟨-, -, rfl⟩ := acquire_eq h
  exact set_of_ne hj _

theorem acquire_self {disk : ℕ → Block} (h : c.acquire disk p i = some c') :
    (c'.buf i).blockno = (c.buf i).blockno ∧ (c'.buf i).valid = true ∧
    (c'.buf i).lock = some p ∧
    ((c.buf i).valid = true → (c'.buf i).data = (c.buf i).data) ∧
    ((c.buf i).valid = false → ∀ b, (c.buf i).blockno = some b → (c'.buf i).data = disk b) := by
  obtain ⟨-, -, rfl⟩ := acquire_eq h
  change ((c.set i _).buf i).blockno = _ ∧ ((c.set i _).buf i).valid = _ ∧
    ((c.set i _).buf i).lock = _ ∧ (_ → ((c.set i _).buf i).data = _) ∧
    (_ → ∀ b, _ → ((c.set i _).buf i).data = _)
  rw [set_self]
  exact ⟨rfl, rfl, rfl, fun hv => by simp [hv], fun hv b hb => by simp [hv, hb]⟩

theorem acquire_refs {disk : ℕ → Block} (h : c.acquire disk p i = some c') :
    ⟨p, i, .wants⟩ ∈ c.refs ∧ c'.refs = ⟨p, i, .holds⟩ :: c.refs.erase ⟨p, i, .wants⟩ := by
  obtain ⟨-, hmem, rfl⟩ := acquire_eq h
  exact ⟨hmem, rfl⟩

theorem releasesleep_same (c : Bufs P) (p : P) (i j : BufId) :
    Same (c.buf j) ((c.releasesleep p i).buf j) :=
  set_same (c := c) (x := { c.buf i with lock := none }) ⟨rfl, rfl, rfl⟩ j

theorem put_same (c : Bufs P) (p : P) (i j : BufId) : Same (c.buf j) ((c.put p i).buf j) :=
  refcnt_same c i j _

theorem bpin_same (c : Bufs P) (i j : BufId) : Same (c.buf j) ((c.bpin i).buf j) :=
  refcnt_same c i j _

theorem bunpin_same (c : Bufs P) (i j : BufId) : Same (c.buf j) ((c.bunpin i).buf j) :=
  refcnt_same c i j _

end Bufs

end Xv6
