import Xv6.UmallocRun
import Xv6.Vm

/-!
# The allocator and the break of the process

`malloc` and `morecore` of umalloc.c once more, down to the size `p->sz` of the process : the number of bytes
that `morecore` computes is an `unsigned long`, the argument of `sbrk` and of `growproc` an `int`, and a
`growproc` of a negative number is a call of `uvmdealloc`, which takes a size that has wrapped around for a
larger one and leaves everything as it is. `sbrk` returns the old size whatever happens to it.

`morecore` then stores a header at that address. If there is no page, the process is killed
(`Space.touch`); a page below `sz` that is not mapped yet is given by `vmfault`. The other headers are in
pages that were there before, and those are there still if the page of the new header is.

A block that `malloc` returns is below the break if it was in the free list, or if the number of bytes is an
`int`. If it is not, `sbrk` is asked for less than nothing, for nothing, or for 16 bytes, and the block is beyond
the break (`malloc_below`).
-/

namespace Xv6

namespace Umalloc

/-- The address space of a process : its size `p->sz`, and which of its pages are mapped. -/
structure Space where
  sz : ℕ
  mapped : ℕ → Bool

/-- A process, with its heap. -/
structure Process where
  heap : Heap
  space : Space

/-- What the kernel has memory for : to grow from one size to another, and for the page of an address. -/
structure Supply where
  uvmalloc : ℕ → ℕ → Bool
  vmfault : ℕ → Bool

/-- An `unsigned long` passed as an `int`. -/
def toInt (n : ℕ) : ℤ :=
  (BitVec.ofNat 32 n).toInt

/-- `sz + n`, of a `uint64` and an `int`. -/
def addInt (sz : ℕ) (n : ℤ) : ℕ :=
  ((sz + n) % 18446744073709551616).toNat

namespace Space

/-- `uvmdealloc`. -/
def uvmdealloc (newsz : ℕ) (u : Space) : Space :=
  if newsz ≥ u.sz then u
  else ⟨newsz, fun pg => u.mapped pg &&
    !(decide (PGROUNDUP newsz ≤ pg * PGSIZE) && decide (pg * PGSIZE < PGROUNDUP u.sz))⟩

/-- `growproc`. -/
def growproc (mem : Supply) (n : ℤ) (u : Space) : Option Space :=
  if n > 0 then
    if addInt u.sz n > TRAPFRAME then none
    else if mem.uvmalloc u.sz (addInt u.sz n) then
      some ⟨addInt u.sz n, fun pg => u.mapped pg ||
        (decide (PGROUNDUP u.sz ≤ pg * PGSIZE) && decide (pg * PGSIZE < addInt u.sz n))⟩
    else none
  else if n < 0 then some (u.uvmdealloc (addInt u.sz n))
  else some u

/-- `sbrk`, through `sys_sbrk` : the old size. -/
def sbrk (mem : Supply) (n : ℤ) (u : Space) : Option (ℕ × Space) :=
  (u.growproc mem n).map fun u' => (u.sz, u')

/-- A store at an address, which `vmfault` may give a page. -/
def touch (mem : Supply) (a : ℕ) (u : Space) : Option Space :=
  if u.mapped (a / PGSIZE) then some u
  else if a < u.sz && mem.vmfault a then some { u with mapped := Function.update u.mapped (a / PGSIZE) true }
  else none

/-- The store to the size in a header, the bytes 8 to 11 of it. -/
def touchSize (mem : Supply) (hp : ℕ) (u : Space) : Option Space := do
  let u ← u.touch mem (hp + 8)
  u.touch mem (hp + 11)

end Space

/-- How a call ends. -/
inductive Ended
  | killed
  | returned (ap : Option ℕ)
deriving DecidableEq, Repr

/-- `morecore`. -/
def morecoreIn (mem : Supply) (fuel nu : ℕ) (p : Process) : Option (Ended × Process) :=
  let nu := if nu < 4096 then 4096 else nu
  match p.space.sbrk mem (toInt (nu * HDR)) with
  | none => some (.returned none, p)
  | some (hp, u) =>
    match u.touchSize mem hp with
    | none => some (.killed, ⟨p.heap, u⟩)
    | some u => do
      let h ← free fuel (hp + HDR) { p.heap.setSize hp nu with regions := ⟨hp, nu⟩ :: p.heap.regions }
      return (.returned (some h.freep), ⟨h, u⟩)

/-- The loop of `malloc`. -/
def mallocFromIn (mem : Supply) (nunits : ℕ) : ℕ → ℕ → ℕ → Process → Option (Ended × Process)
  | 0, _, _, _ => none
  | n + 1, prevp, q, p =>
    if p.heap.size q ≥ nunits then
      if p.heap.size q = nunits then
        some (.returned (some (q + HDR)), ⟨{ p.heap.setPtr prevp (p.heap.ptr q) with freep := prevp }, p.space⟩)
      else
        let h := p.heap.setSize q (p.heap.size q - nunits)
        let q := q + 16 * h.size q
        some (.returned (some (q + HDR)), ⟨{ h.setSize q nunits with freep := prevp }, p.space⟩)
    else if q = p.heap.freep then do
      match ← morecoreIn mem n nunits p with
      | (.killed, p) => return (.killed, p)
      | (.returned none, p) => return (.returned none, p)
      | (.returned (some q), p) => mallocFromIn mem nunits n q (p.heap.ptr q) p
    else mallocFromIn mem nunits n q (p.heap.ptr q) p

/-- The first lines of `malloc`. -/
def ready (base : ℕ) (h : Heap) : Heap :=
  if h.freep = 0 then { (h.setPtr base base).setSize base 0 with freep := base } else h

/-- `malloc`. -/
def mallocIn (base : ℕ) (mem : Supply) (fuel nbytes : ℕ) (p : Process) : Option (Ended × Process) :=
  let h := ready base p.heap
  mallocFromIn mem (nunits nbytes) fuel h.freep (h.ptr h.freep) ⟨h, p.space⟩

/-! ## The loop -/

variable {base n nu : ℕ} {mem : Supply} {u u' : Space} {p : Process} {fs : List Block} {live : List Live}

theorem morecoreIn_mono {k k' : ℕ} {o : Ended × Process} (hk : k ≤ k') (h : morecoreIn mem k n p = some o) :
    morecoreIn mem k' n p = some o := by
  unfold morecoreIn at h ⊢
  dsimp only at h ⊢
  generalize p.space.sbrk mem _ = ans at h ⊢
  cases ans with
  | none => exact h
  | some ans =>
    dsimp only at h ⊢
    generalize ans.2.touchSize mem ans.1 = ans' at h ⊢
    cases ans' with
    | none => exact h
    | some p' =>
      obtain ⟨h', hfree, hrest⟩ := Option.bind_eq_some_iff.mp h
      exact Option.bind_eq_some_iff.mpr ⟨h', free_mono hk hfree, hrest⟩

theorem mallocFromIn_mono {k k' prevp q : ℕ} {o : Ended × Process} (hk : k ≤ k')
    (h : mallocFromIn mem n k prevp q p = some o) : mallocFromIn mem n k' prevp q p = some o := by
  induction k generalizing k' prevp q p with
  | zero => cases h
  | succ k ih =>
    obtain ⟨k', rfl⟩ := Nat.exists_eq_succ_of_ne_zero (show k' ≠ 0 by omega)
    have hk := Nat.le_of_succ_le_succ hk
    rw [mallocFromIn] at h ⊢
    split_ifs at h ⊢ with hfit hexact hend
    · exact h
    · exact h
    · obtain ⟨⟨ans, p'⟩, hmore, hrest⟩ := Option.bind_eq_some_iff.mp h
      refine Option.bind_eq_some_iff.mpr ⟨(ans, p'), morecoreIn_mono hk hmore, ?_⟩
      cases ans with
      | killed => exact hrest
      | returned ap =>
        cases ap with
        | none => exact hrest
        | some q => exact ih hk hrest
    · exact ih hk h

/-- Where a search that `sbrk` has no part in finds a block, the process has it. -/
theorem mallocFromIn_found {k prevp q ap : ℕ} {h' : Heap}
    (h : mallocFrom (fun _ _ => none) n k prevp q p.heap = some (some ap, h')) :
    mallocFromIn mem n k prevp q p = some (.returned (some ap), ⟨h', p.space⟩) := by
  induction k generalizing prevp q with
  | zero => cases h
  | succ k ih =>
    rw [mallocFrom] at h
    rw [mallocFromIn]
    split_ifs at h ⊢ with hfit hexact hend
    · cases h
      rfl
    · cases h
      rfl
    · cases h
    · exact ih h

variable (mem) in
/-- Where it finds none, it has come back to `freep`. -/
theorem mallocFromIn_round {k prevp q : ℕ} {h' : Heap}
    (h : mallocFrom (fun _ _ => none) n k prevp q p.heap = some (none, h')) :
    p.heap.size p.heap.freep < n ∧ ∃ j prev,
      ∀ fuel, mallocFromIn mem n (fuel + j) prevp q p = mallocFromIn mem n fuel prev p.heap.freep p := by
  induction k generalizing prevp q with
  | zero => cases h
  | succ k ih =>
    rw [mallocFrom] at h
    split_ifs at h with hfit hexact hend
    · cases h
    · cases h
    · exact ⟨hend ▸ Nat.not_le.mp hfit, 0, prevp, fun fuel => by rw [hend]; rfl⟩
    · obtain ⟨hsmall, j, prev, hround⟩ := ih h
      refine ⟨hsmall, j + 1, prev, fun fuel => ?_⟩
      rw [← hround fuel, ← Nat.add_assoc, mallocFromIn, if_neg hfit, if_neg hend]

variable (mem) in
/-- There is a block that is large enough. -/
theorem mallocFromIn_fit (hk : Kept base ⟨p.heap, live⟩ fs) (hn : 0 < n) (hfit : ∃ f ∈ fs, n ≤ f.size) :
    ∃ fuel h', ∃ b : Block, ∃ f ∈ fs, n ≤ f.size ∧ b.size = n ∧ b.fin = f.fin ∧
      mallocFromIn mem n fuel p.heap.freep (p.heap.ptr p.heap.freep) p =
        some (.returned (some (b.addr + HDR)), ⟨h', p.space⟩) := by
  obtain ⟨prev, k, f, hf, hsize, hprev, hlink, hwalk⟩ | ⟨hsmall, -⟩ := mallocFrom_search (fun _ _ => none) hk.list hn
  · have hbound : units fs < 4294967296 := by
      have := hk.total
      have := hk.bound
      omega
    obtain ⟨h', b, fs', hrun, hg⟩ := take_spec (fun _ _ => none) hk.list hf hprev hlink hn hsize hbound 0
    obtain ⟨f', hf', hle, hfin⟩ := hg.last
    exact ⟨0 + 1 + k, h', b, f', hf', hle, hg.units, hfin, mallocFromIn_found ((hwalk _).trans hrun)⟩
  · obtain ⟨f, hf, hsize⟩ := hfit
    exact absurd (hsmall f hf) (Nat.not_lt.mpr hsize)

variable (mem) in
/-- There is none, and `morecore` is called. -/
theorem mallocFromIn_more (hk : Kept base ⟨p.heap, live⟩ fs) (hn : 0 < n) (hsmall : ∀ f ∈ fs, f.size < n) :
    p.heap.size p.heap.freep < n ∧ ∃ j prev,
      ∀ fuel, mallocFromIn mem n (fuel + j) p.heap.freep (p.heap.ptr p.heap.freep) p =
        mallocFromIn mem n fuel prev p.heap.freep p := by
  obtain ⟨-, -, f, hf, hsize, -⟩ | ⟨-, prev, k, hwalk⟩ := mallocFrom_search (fun _ _ => none) hk.list hn
  · exact absurd (hsmall f hf) (Nat.not_lt.mpr hsize)
  · have hfreep : ¬ p.heap.size p.heap.freep ≥ n := fun hle => by
      obtain ⟨f, hf, -, hsize⟩ := hk.list.block_of_size hn hk.list.freep hle
      exact absurd (hsmall f hf) (Nat.not_lt.mpr hsize)
    have hrun : mallocFrom (fun _ _ => none) n (1 + k) p.heap.freep (p.heap.ptr p.heap.freep) p.heap =
        some (none, p.heap) := by
      refine (hwalk 1).trans ?_
      rw [mallocFrom, if_neg hfreep, if_pos rfl]
      rfl
    exact mallocFromIn_round mem hrun

/-! ## The numbers -/

theorem toInt_of_lt {k : ℕ} (h : k < 2147483648) : toInt k = k := by
  rw [toInt, BitVec.toInt_eq_toNat_cond, BitVec.toNat_ofNat]
  split_ifs <;> omega

/-- Of more bytes than an `int` can be, at most 16 are left. -/
theorem toInt_le {k : ℕ} (h : 2147483648 ≤ k) (hk : k ≤ 4294967312) : toInt k ≤ 16 := by
  rw [toInt, BitVec.toInt_eq_toNat_cond, BitVec.toNat_ofNat]
  split_ifs <;> omega

theorem addInt_of_le {sz : ℕ} {k : ℤ} (hsz : sz ≤ TRAPFRAME) (h0 : 0 < k) (hk : k < 4294967296) :
    addInt sz k = sz + k.toNat := by
  change sz ≤ 274877898752 at hsz
  unfold addInt
  omega

theorem growproc_pos {k : ℤ} (hsz : u.sz ≤ TRAPFRAME) (h0 : 0 < k) (hk : k < 4294967296)
    (h : u.growproc mem k = some u') : u'.sz = u.sz + k.toNat := by
  rw [Space.growproc, if_pos h0] at h
  split_ifs at h
  cases h
  exact addInt_of_le hsz h0 hk

theorem growproc_le {k : ℤ} (hsz : u.sz ≤ TRAPFRAME) (hk : k ≤ 16) (h : u.growproc mem k = some u') :
    u'.sz ≤ u.sz + 16 := by
  by_cases h0 : 0 < k
  · rw [growproc_pos hsz h0 (by omega) h]
    omega
  · rw [Space.growproc, if_neg h0] at h
    split_ifs at h
    · cases h
      unfold Space.uvmdealloc
      split_ifs
      · exact Nat.le_add_right _ _
      · dsimp only
        omega
    · cases h
      exact Nat.le_add_right _ _

theorem touch_sz {a : ℕ} (h : u.touch mem a = some u') : u'.sz = u.sz := by
  unfold Space.touch at h
  split_ifs at h <;> cases h <;> rfl

theorem touchSize_sz {hp : ℕ} (h : u.touchSize mem hp = some u') : u'.sz = u.sz := by
  obtain ⟨u₁, h₁, h₂⟩ := Option.bind_eq_some_iff.mp h
  exact (touch_sz h₂).trans (touch_sz h₁)

/-! ## Below the break -/

/-- The memory of the machine, in bytes. -/
abbrev MEMORY : ℕ := PHYSTOP - KERNBASE

/-- A heap in order, whose regions are below the break. They were given page by page, so they are not more than the
machine has. -/
structure Sound (base : ℕ) (p : Process) (live : List Live) (fs : List Block) : Prop where
  kept : Kept base ⟨ready base p.heap, live⟩ fs
  below : ∀ r ∈ p.heap.regions, r.fin ≤ p.space.sz
  static : base + HDR ≤ p.space.sz
  top : p.space.sz ≤ TRAPFRAME
  memory : 16 * units p.heap.regions ≤ MEMORY

theorem ready_regions (h : Heap) : (ready base h).regions = h.regions := by
  unfold ready
  split_ifs <;> rfl

/-- `morecore`, when `sbrk` gives an address and there is a page. -/
theorem morecoreIn_kept {u₁ u₂ : Space} (hk : Kept base ⟨p.heap, live⟩ fs)
    (hbelow : ∀ r ∈ p.heap.regions, r.fin ≤ p.space.sz) (hbase : base + HDR ≤ p.space.sz)
    (hnu : nu = if n < 4096 then 4096 else n) (hsum : units p.heap.regions + nu < 4294967296)
    (hgrow : p.space.growproc mem (toInt (nu * HDR)) = some u₁) (htouch : u₁.touchSize mem p.space.sz = some u₂) :
    ∃ fuel h' fs', morecoreIn mem fuel n p = some (.returned (some h'.freep), ⟨h', u₂⟩) ∧
      Kept base ⟨h', live⟩ fs' ∧ (∃ f ∈ fs', nu ≤ f.size) ∧ h'.regions = ⟨p.space.sz, nu⟩ :: p.heap.regions ∧
      ∀ f ∈ fs', f ∈ fs ∨ p.space.sz + 16 * nu ≤ f.fin := by
  have hpos : 0 < nu := by
    rw [hnu]
    split_ifs <;> omega
  -- the address as an answer of `sbrk`
  have hok : FreshBelow base fun rs k => if rs = p.heap.regions ∧ k = nu * HDR then some p.space.sz else none := by
    refine ⟨fun rs k q hq => ?_, fun rs k q hq => ?_⟩
    · dsimp only at hq
      split_ifs at hq with hrs
      rw [hrs.1, ← Option.some.inj hq]
      exact ⟨hbase, hbelow⟩
    · dsimp only at hq
      split_ifs at hq with hrs
      rw [hrs.1, hrs.2, Nat.mul_div_cancel _ (by decide)]
      exact hsum
  obtain ⟨fuel, h', fs', hfree, hkept, hfit, hregions, hothers⟩ := hk.extended hok (if_pos ⟨rfl, rfl⟩) hpos
  refine ⟨fuel, h', fs', ?_, hkept, hfit, hregions, hothers⟩
  unfold morecoreIn
  dsimp only
  rw [← hnu, Space.sbrk, hgrow, Option.map_some]
  dsimp only
  rw [htouch]
  dsimp only
  rw [hfree]
  rfl

/-- No harm is done by a number that is not an `int`, if `sbrk` fails or there is no page where the break was. -/
def Harmless (mem : Supply) (k : ℕ) (u : Space) : Prop :=
  ∀ u', u.growproc mem (toInt k) = some u' → u'.touchSize mem u.sz = none

theorem nunits_pos (nbytes : ℕ) : 0 < nunits nbytes :=
  Nat.succ_pos _

section Calls

variable {nbytes : ℕ} (hs : Sound base p live fs)
include hs

/-- A block of the free list is below the break. -/
theorem Sound.fit (mem : Supply) (hfit : ∃ f ∈ fs, nunits nbytes ≤ f.size) :
    ∃ fuel ap p', mallocIn base mem fuel nbytes p = some (.returned (some ap), p') ∧ ap + nbytes ≤ p'.space.sz := by
  have hk : Kept base ⟨(⟨ready base p.heap, p.space⟩ : Process).heap, live⟩ fs := hs.kept
  obtain ⟨fuel, h', b, f, hf, -, hunits, hfin, hrun⟩ := mallocFromIn_fit mem hk (nunits_pos nbytes) hfit
  refine ⟨fuel, _, _, hrun, ?_⟩
  have hle : f.fin ≤ p.space.sz := hs.kept.fin_le (by rw [ready_regions]; exact hs.below)
    (List.mem_append_left _ (List.mem_map_of_mem hf))
  have hbytes : nbytes + 16 ≤ 16 * nunits nbytes := nbytes_le nbytes
  rw [← hfin, Block.fin, hunits] at hle
  change b.addr + 16 + nbytes ≤ p.space.sz
  omega

variable (hsmall : ∀ f ∈ fs, f.size < nunits nbytes)
include hsmall

/-- Without such a block `morecore` decides. -/
theorem Sound.round (mem : Supply) : (ready base p.heap).size (ready base p.heap).freep < nunits nbytes ∧ ∃ j prev,
    ∀ fuel, mallocIn base mem (fuel + 1 + j) nbytes p =
      mallocFromIn mem (nunits nbytes) (fuel + 1) prev (ready base p.heap).freep ⟨ready base p.heap, p.space⟩ := by
  have hk : Kept base ⟨(⟨ready base p.heap, p.space⟩ : Process).heap, live⟩ fs := hs.kept
  obtain ⟨hlt, j, prev, hround⟩ := mallocFromIn_more mem hk (nunits_pos nbytes) hsmall
  exact ⟨hlt, j, prev, fun fuel => hround (fuel + 1)⟩

variable (hnu : nu = if nunits nbytes < 4096 then 4096 else nunits nbytes)
include hnu

/-- `sbrk` fails. -/
theorem Sound.full (hgrow : p.space.growproc mem (toInt (nu * HDR)) = none) :
    ∃ fuel p', mallocIn base mem fuel nbytes p = some (.returned none, p') := by
  obtain ⟨hlt, j, prev, hround⟩ := hs.round hsmall mem
  have hmore : morecoreIn mem 0 (nunits nbytes) ⟨ready base p.heap, p.space⟩ =
      some (.returned none, ⟨ready base p.heap, p.space⟩) := by
    unfold morecoreIn
    dsimp only
    rw [← hnu, Space.sbrk, hgrow]
    rfl
  refine ⟨_, ⟨ready base p.heap, p.space⟩, (hround 0).trans ?_⟩
  rw [mallocFromIn, if_neg (Nat.not_le.mpr hlt), if_pos rfl, hmore]
  rfl

/-- There is no page where the break was. -/
theorem Sound.killed (hgrow : p.space.growproc mem (toInt (nu * HDR)) = some u)
    (htouch : u.touchSize mem p.space.sz = none) :
    ∃ fuel p', mallocIn base mem fuel nbytes p = some (.killed, p') := by
  obtain ⟨hlt, j, prev, hround⟩ := hs.round hsmall mem
  have hmore : morecoreIn mem 0 (nunits nbytes) ⟨ready base p.heap, p.space⟩ =
      some (.killed, ⟨ready base p.heap, u⟩) := by
    unfold morecoreIn
    dsimp only
    rw [← hnu, Space.sbrk, hgrow, Option.map_some]
    dsimp only
    rw [htouch]
  refine ⟨_, ⟨ready base p.heap, u⟩, (hround 0).trans ?_⟩
  rw [mallocFromIn, if_neg (Nat.not_le.mpr hlt), if_pos rfl, hmore]
  rfl

/-- The block ends where the bytes end that should have been given. -/
theorem Sound.more {u₁ u₂ : Space} (hn : nbytes < 4294967296)
    (hgrow : p.space.growproc mem (toInt (nu * HDR)) = some u₁) (htouch : u₁.touchSize mem p.space.sz = some u₂) :
    ∃ fuel ap h', mallocIn base mem fuel nbytes p = some (.returned (some ap), ⟨h', u₂⟩) ∧
      ap + 16 * nunits nbytes = p.space.sz + 16 * nu + HDR := by
  have hbelow : ∀ r ∈ (ready base p.heap).regions, r.fin ≤ p.space.sz := by
    rw [ready_regions]
    exact hs.below
  have hle : nunits nbytes ≤ nu ∧ nu ≤ 268435457 := by
    have hunits : nunits nbytes ≤ 268435457 := by
      change (nbytes + 16 - 1) / 16 + 1 ≤ 268435457
      omega
    rw [hnu]
    split_ifs <;> omega
  have hsum : units (ready base p.heap).regions + nu < 4294967296 := by
    have hmem : 16 * units p.heap.regions ≤ 134217728 := hs.memory
    rw [ready_regions]
    omega
  obtain ⟨hlt, j, prev, hround⟩ := hs.round hsmall mem
  obtain ⟨fuel, h', fs', hmore, hkept, ⟨f₀, hf₀, hsize₀⟩, hregions, hothers⟩ :=
    @morecoreIn_kept base (nunits nbytes) nu mem ⟨ready base p.heap, p.space⟩ fs live _ _ hs.kept hbelow hs.static hnu
      hsum hgrow htouch
  have hk : Kept base ⟨(⟨h', u₂⟩ : Process).heap, live⟩ fs' := hkept
  obtain ⟨fuel', h'', b, f, hf, hsize, hunits, hfin, hrun⟩ := mallocFromIn_fit mem hk (nunits_pos nbytes)
    ⟨f₀, hf₀, Nat.le_trans hle.1 hsize₀⟩
  refine ⟨fuel + fuel' + 1 + j, b.addr + HDR, h'', (hround _).trans ?_, ?_⟩
  · rw [mallocFromIn, if_neg (Nat.not_le.mpr hlt), if_pos rfl, morecoreIn_mono (Nat.le_add_right _ _) hmore]
    exact mallocFromIn_mono (Nat.le_add_left _ _) hrun
  · -- no block but the new one is large enough
    have hge : p.space.sz + 16 * nu ≤ f.fin := (hothers f hf).resolve_left fun hold =>
      absurd (hsmall f hold) (Nat.not_lt.mpr hsize)
    have hend : f.fin ≤ p.space.sz + 16 * nu := hkept.fin_le (fun r hr => by
      rw [hregions] at hr
      obtain rfl | hr := List.mem_cons.mp hr
      · exact Nat.le_refl _
      · exact Nat.le_trans (hbelow r hr) (Nat.le_add_right _ _)) (List.mem_append_left _ (List.mem_map_of_mem hf))
    have heq : b.addr + 16 * nunits nbytes = p.space.sz + 16 * nu := by
      rw [← hunits]
      exact hfin.trans (Nat.le_antisymm hend hge)
    change b.addr + 16 + _ = _ + 16
    omega

end Calls

theorem mallocIn_unique {nbytes k k' : ℕ} {o o' : Ended × Process} (h : mallocIn base mem k nbytes p = some o)
    (h' : mallocIn base mem k' nbytes p = some o') : o = o' :=
  Option.some.inj ((mallocFromIn_mono (Nat.le_add_right k k') h).symm.trans
    (mallocFromIn_mono (Nat.le_add_left k' k) h'))

/-- A number of bytes that is an `int` reaches the break. -/
theorem Sound.below_of_int {nbytes : ℕ} (hs : Sound base p live fs) (hn : nbytes < 4294967296)
    (hsmall : ∀ f ∈ fs, f.size < nunits nbytes) (hint : nunits nbytes * HDR < 2147483648) :
    ∃ fuel o, mallocIn base mem fuel nbytes p = some o ∧ ∀ ap, o.1 = .returned (some ap) → ap + nbytes ≤ o.2.space.sz := by
  obtain ⟨nu, hnu⟩ : ∃ nu, nu = if nunits nbytes < 4096 then 4096 else nunits nbytes := ⟨_, rfl⟩
  have hlt : 0 < nu * 16 ∧ nu * 16 < 2147483648 := by
    change nunits nbytes * 16 < 2147483648 at hint
    rw [hnu]
    split_ifs <;> omega
  cases hgrow : p.space.growproc mem (toInt (nu * HDR)) with
  | none =>
    obtain ⟨fuel, p', hrun⟩ := hs.full hsmall hnu hgrow
    exact ⟨fuel, _, hrun, fun ap h => by cases h⟩
  | some u₁ =>
    cases htouch : u₁.touchSize mem p.space.sz with
    | none =>
      obtain ⟨fuel, p', hrun⟩ := hs.killed hsmall hnu hgrow htouch
      exact ⟨fuel, _, hrun, fun ap h => by cases h⟩
    | some u₂ =>
      obtain ⟨fuel, ap, h', hrun, hend⟩ := hs.more hsmall hnu hn hgrow htouch
      refine ⟨fuel, _, hrun, fun _ h => ?_⟩
      cases h
      have hsz : u₂.sz = p.space.sz + nu * 16 := by
        rw [toInt_of_lt hlt.2] at hgrow
        change p.space.growproc mem ((nu * 16 : ℕ) : ℤ) = some u₁ at hgrow
        rw [touchSize_sz htouch, growproc_pos hs.top (by omega) (by omega) hgrow, Int.toNat_natCast]
      have hbytes : nbytes + 16 ≤ 16 * nunits nbytes := nbytes_le nbytes
      change ap + 16 * nunits nbytes = p.space.sz + 16 * nu + 16 at hend
      change ap + nbytes ≤ u₂.sz
      omega

/-- What `malloc` returns is below the break, if and only if a free block is large enough, or the number of bytes is an
`int`, or no harm is done. -/
theorem malloc_below {nbytes : ℕ} (mem : Supply) (hs : Sound base p live fs) (hn : nbytes < 4294967296) :
    (∀ fuel ap p', mallocIn base mem fuel nbytes p = some (.returned (some ap), p') → ap + nbytes ≤ p'.space.sz) ↔
      (∃ f ∈ fs, nunits nbytes ≤ f.size) ∨ nunits nbytes * HDR < 2147483648 ∨
        Harmless mem (nunits nbytes * HDR) p.space := by
  have hlarge : ¬ nunits nbytes * HDR < 2147483648 →
      0 < nbytes ∧ 2147483648 ≤ nunits nbytes * 16 ∧ nunits nbytes * 16 ≤ 4294967312 ∧
        nunits nbytes = if nunits nbytes < 4096 then 4096 else nunits nbytes := fun hint => by
    change ¬ nunits nbytes * 16 < 2147483648 at hint
    have hunits : nunits nbytes = (nbytes + 16 - 1) / 16 + 1 := rfl
    rw [if_neg (by omega)]
    omega
  refine ⟨fun hbelow => ?_, fun hcond fuel ap p' hrun => ?_⟩
  · by_contra hcon
    push Not at hcon
    obtain ⟨hsmall, hint, hharm⟩ := hcon
    obtain ⟨hpos, hge, hle, hnu⟩ := hlarge (Nat.not_lt.mpr hint)
    unfold Harmless at hharm
    push Not at hharm
    obtain ⟨u₁, hgrow, htouch⟩ := hharm
    obtain ⟨u₂, htouch⟩ := Option.ne_none_iff_exists'.mp htouch
    obtain ⟨fuel, ap, h', hrun, hend⟩ := hs.more hsmall hnu hn hgrow htouch
    have hle := growproc_le hs.top (toInt_le hge hle) hgrow
    have hsz := touchSize_sz htouch
    have := hbelow _ _ _ hrun
    change ap + 16 * nunits nbytes = p.space.sz + 16 * nunits nbytes + 16 at hend
    change ap + nbytes ≤ u₂.sz at this
    omega
  · by_cases hfit : ∃ f ∈ fs, nunits nbytes ≤ f.size
    · obtain ⟨fuel', ap', q, hrun', hle⟩ := hs.fit mem hfit
      cases mallocIn_unique hrun hrun'
      exact hle
    push Not at hfit
    by_cases hint : nunits nbytes * HDR < 2147483648
    · obtain ⟨fuel', o, hrun', hle⟩ := hs.below_of_int hn hfit hint
      obtain rfl := mallocIn_unique hrun hrun'
      exact hle ap rfl
    · obtain ⟨-, -, -, hnu⟩ := hlarge hint
      have hharm : Harmless mem (nunits nbytes * HDR) p.space := by
        obtain ⟨f, hf, hle⟩ | hlt | hharm := hcond
        · exact absurd (hfit f hf) (Nat.not_lt.mpr hle)
        · exact absurd hlt hint
        · exact hharm
      cases hgrow : p.space.growproc mem (toInt (nunits nbytes * HDR)) with
      | none =>
        obtain ⟨fuel', q, hrun'⟩ := hs.full hfit hnu hgrow
        cases mallocIn_unique hrun hrun'
      | some u₁ =>
        obtain ⟨fuel', q, hrun'⟩ := hs.killed hfit hnu hgrow (hharm u₁ hgrow)
        cases mallocIn_unique hrun hrun'

/-- A program of three pages that has allocated nothing. -/
def Process.start : Process :=
  ⟨State.start.heap, ⟨12288, fun pg => pg < 3⟩⟩

theorem Process.start_sound : Sound 8192 Process.start [] [] where
  kept := State.Untouched.kept (s := State.start) ⟨rfl, rfl, rfl⟩
  below _ hr := by cases hr
  static := by decide
  top := by decide
  memory := by decide

/-- A kernel with memory for everything. -/
def Supply.plenty : Supply :=
  ⟨fun _ _ => true, fun _ => true⟩

/-- 100 bytes. -/
theorem malloc_below_start : nunits 100 = 8 ∧ ∀ fuel ap p',
    mallocIn 8192 .plenty fuel 100 Process.start = some (.returned (some ap), p') → ap + 100 ≤ p'.space.sz :=
  ⟨rfl, (malloc_below .plenty Process.start_sound (by decide)).mpr (.inr (.inl (by decide)))⟩

/-- `malloc(4294967295)` asks for 16 bytes, and returns the new break. -/
theorem malloc_beyond_break : ∃ p', mallocIn 8192 .plenty 4 4294967295 Process.start =
    some (.returned (some 12304), p') ∧ p'.space.sz = 12304 := by
  obtain ⟨⟨e, p'⟩, hrun, hview⟩ := Option.map_eq_some_iff.mp (show
    (mallocIn 8192 .plenty 4 4294967295 Process.start).map (fun o => (o.1, o.2.space.sz)) =
      some (.returned (some 12304), 12304) by decide +kernel)
  obtain ⟨rfl, hsz⟩ : e = _ ∧ p'.space.sz = _ := by simpa only [Prod.mk.injEq] using hview
  exact ⟨p', hrun, hsz⟩

end Umalloc

end Xv6
