import Mathlib.Algebra.BigOperators.Group.List.Basic
import Mathlib.Data.List.Pairwise
import Mathlib.Logic.Relation
import Xv6.UmallocSearch

/-!
# The heap in every run

`Ordered` is the invariant of the allocator : the free list is in order, and the free blocks and the blocks of the
program tile what `sbrk` has given. Every call keeps it and comes to an end, as long as `sbrk` gives fewer than `2 ^ 32`
headers in all (`heap_ordered`). The size of a block is a `uint`, so with more than that `free` can join blocks to one
whose size does not fit, and part of the heap is lost (`heap_lost`).
-/

namespace Xv6

namespace Umalloc

/-- The blocks of the program. -/
def State.blocks (s : State) : List Block :=
  s.live.map Live.block

/-- The addresses that `sbrk` has given. -/
def Heap.given (h : Heap) (x : ℕ) : Prop :=
  ∃ r ∈ h.regions, r.addr ≤ x ∧ x < r.fin

/-- The heap is in order, with the free blocks `fs`. -/
structure Ordered (base : ℕ) (s : State) (fs : List Block) : Prop where
  list : FreeList base s.heap fs
  tiles : Tiles (fs.map Block.interval ++ s.blocks.map Block.interval) s.heap.given
  large : ∀ b ∈ s.live, b.nbytes + HDR ≤ 16 * b.block.size

/-- What `Ordered` needs to be kept. -/
structure Kept (base : ℕ) (s : State) (fs : List Block) : Prop extends Ordered base s fs where
  header : ∀ b ∈ s.blocks, s.heap.size b.addr = b.size
  above : ∀ r ∈ s.heap.regions, base < r.addr
  total : units fs + units s.blocks = units s.heap.regions
  bound : units s.heap.regions < 4294967296

variable {base n : ℕ} {s : State} {h : Heap} {fs : List Block} {sbrk : List Block → ℕ → Option ℕ}

/-- `sbrk` keeps its promise, and gives fewer than `2 ^ 32` headers in all. -/
def FreshBelow (base : ℕ) (sbrk : List Block → ℕ → Option ℕ) : Prop :=
  Fresh base sbrk ∧ ∀ rs n p, sbrk rs n = some p → units rs + n / HDR < 4294967296

/-- The blocks of the program, of which one is set apart. -/
theorem blocks_perm {s : State} {b : Live} (hb : b ∈ s.live) :
    (b.block :: (s.live.erase b).map Live.block).Perm s.blocks :=
  (List.perm_cons_erase hb).symm.map Live.block

theorem FreeList.congr {h' : Heap} (hf : FreeList base h fs) (hfreep : h'.freep = h.freep)
    (hsame : ∀ y ∈ base :: fs.map Block.addr, h'.ptr y = h.ptr y ∧ h'.size y = h.size y) : FreeList base h' fs where
  cycle := hf.cycle.congr fun y hy => (hsame y hy).1
  zero := (hsame base List.mem_cons_self).2.trans hf.zero
  size f hmem := (hsame f.addr (List.mem_cons_of_mem _ (List.mem_map_of_mem hmem))).2.trans (hf.size f hmem)
  pos := hf.pos
  above := hf.above
  apart := hf.apart
  freep := hfreep ▸ hf.freep

namespace Kept

variable (hk : Kept base s fs)
include hk

theorem free_apart {f b : Block} (hf : f ∈ fs) (hb : b ∈ s.blocks) : Apart f.interval b.interval :=
  (List.pairwise_append.mp hk.tiles.apart).2.2 _ (List.mem_map_of_mem hf) _ (List.mem_map_of_mem hb)

theorem pos {b : Block} (hb : b ∈ s.blocks) : 0 < b.size := by
  have hlt : b.addr < b.fin := hk.tiles.nonempty _ (List.mem_append_right _ (List.mem_map_of_mem hb))
  rw [Block.fin] at hlt
  omega

theorem blocks_above {b : Block} (hb : b ∈ s.blocks) : base < b.addr := by
  obtain ⟨r, hr, hle, -⟩ := (hk.tiles.mem b.addr).mpr ⟨_, List.mem_append_right _ (List.mem_map_of_mem hb),
    Nat.le_refl _, Block.addr_lt_fin (hk.pos hb)⟩
  exact Nat.lt_of_lt_of_le (hk.above r hr) hle

/-- No node of the free list is in a block of the program. -/
theorem node_out {y : ℕ} (hy : y ∈ base :: fs.map Block.addr) {b : Block} (hb : b ∈ s.blocks) :
    ¬ (b.addr ≤ y ∧ y < b.fin) := by
  obtain rfl | hy := List.mem_cons.mp hy
  · have := hk.blocks_above hb
    omega
  · obtain ⟨f, hmem, rfl⟩ := List.mem_map.mp hy
    have hapart : f.fin ≤ b.addr ∨ b.fin ≤ f.addr := hk.free_apart hmem hb
    have := Block.addr_lt_fin (hk.list.pos f hmem)
    omega

/-- What `sbrk` gives next is beyond every block. -/
theorem fin_le {p : ℕ} (hp : ∀ r ∈ s.heap.regions, r.fin ≤ p) {t : ℕ × ℕ}
    (ht : t ∈ fs.map Block.interval ++ s.blocks.map Block.interval) : t.2 ≤ p := by
  have hlt := hk.tiles.nonempty t ht
  obtain ⟨r, hr, -, hfin⟩ := (hk.tiles.mem (t.2 - 1)).mpr
    ⟨t, ht, Nat.le_sub_one_of_lt hlt, Nat.sub_lt (Nat.zero_lt_of_lt hlt) Nat.one_pos⟩
  have := hp r hr
  omega

/-- A call that does not extend the heap. -/
theorem next {s' : State} {fs' : List Block} (hregions : s'.heap.regions = s.heap.regions)
    (hlist : FreeList base s'.heap fs')
    (htiles : Tiles (fs'.map Block.interval ++ s'.blocks.map Block.interval) s.heap.given)
    (hlarge : ∀ b ∈ s'.live, b.nbytes + HDR ≤ 16 * b.block.size)
    (hheader : ∀ b ∈ s'.blocks, s'.heap.size b.addr = b.size)
    (htotal : units fs' + units s'.blocks = units fs + units s.blocks) : Kept base s' fs' where
  list := hlist
  tiles := by
    unfold Heap.given at htiles ⊢
    rw [hregions]
    exact htiles
  large := hlarge
  header := hheader
  above := by
    rw [hregions]
    exact hk.above
  total := by
    rw [hregions, htotal]
    exact hk.total
  bound := by
    rw [hregions]
    exact hk.bound

/-- A block has been taken for the program. -/
theorem got {h' : Heap} {b : Block} {fs' : List Block} {nbytes : ℕ} (hg : Got base n fs s.heap h' b fs')
    (hn : nbytes + HDR ≤ 16 * n) : Kept base ⟨h', ⟨b, nbytes⟩ :: s.live⟩ fs' := by
  have htiles := hg.tiles _ _ hk.tiles
  have hapart := (List.pairwise_cons.mp htiles.apart).1
  have hpos : b.addr < b.fin := htiles.nonempty _ List.mem_cons_self
  refine hk.next hg.regions hg.list (htiles.perm List.perm_middle.symm) ?_ ?_ ?_
  · refine List.forall_mem_cons.mpr ⟨?_, hk.large⟩
    change nbytes + HDR ≤ 16 * b.size
    rw [hg.units]
    exact hn
  · refine List.forall_mem_cons.mpr ⟨hg.header.trans hg.units.symm, fun c hc => ?_⟩
    rw [← hk.header c hc]
    refine hg.frame _ (fun hmem => ?_) fun heq => ?_
    · exact hk.node_out (List.mem_cons_of_mem _ hmem) hc ⟨Nat.le_refl _, Block.addr_lt_fin (hk.pos hc)⟩
    · have hbc : b.fin ≤ c.addr ∨ c.fin ≤ b.addr := hapart _ (List.mem_append_right _ (List.mem_map_of_mem hc))
      have := Block.addr_lt_fin (hk.pos hc)
      omega
  · change _ + units (b :: s.blocks) = _
    have := hg.total
    have := hg.units
    rw [units_cons]
    omega

/-- A block of the program has been freed. -/
theorem freed {h' : Heap} {b : Live} {fs' : List Block} (hb : b ∈ s.live) (hg : Freed base b.block fs s.heap h' fs') :
    Kept base ⟨h', s.live.erase b⟩ fs' := by
  have hperm := blocks_perm hb
  generalize hrest : (s.live.erase b).map Live.block = bs at hperm
  have htiles : Tiles (b.block.interval :: fs.map Block.interval ++ bs.map Block.interval) s.heap.given :=
    hk.tiles.perm ((hperm.map Block.interval).symm.append_left _ |>.trans List.perm_middle)
  have hapart := (List.pairwise_cons.mp htiles.apart).1
  have htotal : units s.blocks = b.block.size + units bs := by
    rw [← units_cons]
    exact ((hperm.map Block.size).sum_eq).symm
  have hbs : (⟨h', s.live.erase b⟩ : State).blocks = bs := hrest
  refine hk.next hg.regions hg.list ?_ (fun c hc => hk.large c (List.mem_of_mem_erase hc)) ?_ ?_
  · rw [hbs]
    exact hg.tiles _ _ htiles
  · rw [hbs]
    intro c hc
    have hmem : c ∈ s.blocks := hperm.subset (List.mem_cons_of_mem _ hc)
    have hlt := Block.addr_lt_fin (hk.pos hmem)
    have hnode : c.addr ∉ base :: fs.map Block.addr := fun hy => hk.node_out hy hmem ⟨Nat.le_refl _, hlt⟩
    have hbc : b.block.fin ≤ c.addr ∨ c.fin ≤ b.block.addr := hapart _ (List.mem_append_right _ (List.mem_map_of_mem hc))
    have := Block.addr_lt_fin (hk.pos (List.mem_map_of_mem hb))
    refine ((hg.frame c.addr (fun h => hnode (h ▸ List.mem_cons_self)) (by omega) fun hy => ?_).2).trans (hk.header c hmem)
    exact hnode (List.mem_cons_of_mem _ hy)
  · have := hg.total
    rw [hbs]
    omega

/-- The program has written in its blocks. -/
theorem written {h' : Heap} (hfreep : h'.freep = s.heap.freep) (hregions : h'.regions = s.heap.regions)
    (hsame : ∀ a, (∀ b ∈ s.live, ¬ (b.block.addr < a ∧ a < b.block.fin)) →
      h'.ptr a = s.heap.ptr a ∧ h'.size a = s.heap.size a) : Kept base ⟨h', s.live⟩ fs := by
  refine hk.next hregions (hk.list.congr hfreep fun y hy => hsame y fun b hb hin => ?_) hk.tiles hk.large
    (fun c hc => ?_) rfl
  · exact hk.node_out hy (List.mem_map_of_mem hb) ⟨Nat.le_of_lt hin.1, hin.2⟩
  · refine (hsame c.addr fun b hb hin => ?_).2.trans (hk.header c hc)
    have hpair := (List.pairwise_append.mp hk.tiles.apart).2.1
    have hne : c ≠ b.block := by
      rintro rfl
      exact Nat.lt_irrefl _ hin.1
    have hsymm : Std.Symm fun a b : Block => Apart a.interval b.interval := ⟨fun _ _ h => Apart.symm h⟩
    have hcb : c.fin ≤ b.block.addr ∨ b.block.fin ≤ c.addr :=
      (List.pairwise_map.mp hpair).forall hc (List.mem_map_of_mem hb) hne
    have := Block.addr_lt_fin (hk.pos hc)
    omega

/-- `sbrk` has given a region. -/
theorem extended {p nu : ℕ} (hok : FreshBelow base sbrk) (hp : sbrk s.heap.regions (nu * HDR) = some p) (hpos : 0 < nu) :
    ∃ fuel h' fs', free fuel (p + HDR) { s.heap.setSize p nu with regions := ⟨p, nu⟩ :: s.heap.regions } = some h' ∧
      Kept base ⟨h', s.live⟩ fs' ∧ (∃ f ∈ fs', nu ≤ f.size) ∧ h'.regions = ⟨p, nu⟩ :: s.heap.regions ∧
      ∀ f ∈ fs', f ∈ fs ∨ p + 16 * nu ≤ f.fin := by
  obtain ⟨hbase, hfresh⟩ := hok.1 _ _ _ hp
  have hbound := hok.2 _ _ _ hp
  rw [Nat.mul_div_cancel _ (by decide)] at hbound
  have htotal := hk.total
  have hlt : base < p := by
    change base + 16 ≤ p at hbase
    omega
  have hout : ∀ t ∈ fs.map Block.interval ++ s.blocks.map Block.interval, t.1 ≠ p := fun t ht =>
    Nat.ne_of_lt (Nat.lt_of_lt_of_le (hk.tiles.nonempty t ht) (hk.fin_le hfresh ht))
  have hlist : FreeList base { s.heap.setSize p nu with regions := ⟨p, nu⟩ :: s.heap.regions } fs := by
    refine hk.list.congr rfl fun y hy => ⟨rfl, Function.update_of_ne ?_ _ _⟩
    obtain rfl | hy := List.mem_cons.mp hy
    · exact Nat.ne_of_lt hlt
    · obtain ⟨f, hmem, rfl⟩ := List.mem_map.mp hy
      exact hout _ (List.mem_append_left _ (List.mem_map_of_mem hmem))
  obtain ⟨h', fs', hfree, hg⟩ := free_spec (b := ⟨p, nu⟩) hlist
    ((Function.update_self _ _ _).trans (Nat.mod_eq_of_lt (by omega))) hpos hlt
    (fun f hmem => Or.inl (hk.fin_le hfresh (List.mem_append_left _ (List.mem_map_of_mem hmem))))
    (by dsimp only; omega) (Nat.lt_succ_self _)
  refine ⟨_, h', fs', hfree, ⟨⟨hg.list, ?_, hk.large⟩, fun c hc => ?_, ?_, ?_, ?_⟩, hg.big, hg.regions, hg.others⟩
  · have htiles := hk.tiles.cons (a := p) (b := p + 16 * nu) (fun x ⟨r, hr, hx⟩ => Nat.lt_of_lt_of_le hx.2 (hfresh r hr))
      (by omega)
    refine (hg.tiles _ _ htiles).of_iff fun x => ?_
    change _ ↔ ∃ r ∈ h'.regions, _
    rw [hg.regions, List.exists_mem_cons_iff]
    exact or_comm
  · refine ((hg.frame c.addr ?_ ?_ fun hy => ?_).2).trans ((Function.update_of_ne ?_ _ _).trans (hk.header c hc))
    · exact Nat.ne_of_gt (hk.blocks_above hc)
    · exact hout _ (List.mem_append_right _ (List.mem_map_of_mem hc))
    · exact hk.node_out (List.mem_cons_of_mem _ hy) hc ⟨Nat.le_refl _, Block.addr_lt_fin (hk.pos hc)⟩
    · exact hout _ (List.mem_append_right _ (List.mem_map_of_mem hc))
  · change ∀ r ∈ h'.regions, base < r.addr
    rw [hg.regions]
    exact List.forall_mem_cons.mpr ⟨hlt, hk.above⟩
  · change _ + units s.blocks = units h'.regions
    have := hg.total
    rw [hg.regions, units_cons]
    dsimp only at *
    omega
  · change units h'.regions < _
    rw [hg.regions, units_cons]
    dsimp only
    omega

theorem morecore_kept (hok : FreshBelow base sbrk) (n : ℕ) :
    ∃ fuel ans h', morecore sbrk fuel n s.heap = some (ans, h') ∧
      (ans = none ∧ h' = s.heap ∨ ans = some h'.freep ∧ ∃ fs', Kept base ⟨h', s.live⟩ fs' ∧ ∃ f ∈ fs', n ≤ f.size) := by
  unfold morecore
  dsimp only
  generalize hnu : (if n < 4096 then 4096 else n) = nu
  have hle : n ≤ nu ∧ 0 < nu := by
    rw [← hnu]
    split_ifs <;> omega
  cases hans : sbrk s.heap.regions (nu * HDR) with
  | none => exact ⟨0, none, s.heap, rfl, Or.inl ⟨rfl, rfl⟩⟩
  | some p =>
    obtain ⟨fuel, h', fs', hfree, hk', ⟨f, hf, hsize⟩, -, -⟩ := hk.extended hok hans hle.2
    refine ⟨fuel, some h'.freep, h', ?_, Or.inr ⟨rfl, fs', hk', f, hf, Nat.le_trans hle.1 hsize⟩⟩
    dsimp only
    rw [hfree]
    rfl

end Kept

/-! ## The calls -/

/-- What `malloc` may return. -/
def Returned (base nbytes : ℕ) (live : List Live) : Option ℕ × Heap → Prop
  | (none, h') => ∃ fs', Kept base ⟨h', live⟩ fs'
  | (some ap, h') => ∃ fs', Kept base ⟨h', ⟨⟨ap - HDR, h'.size (ap - HDR)⟩, nbytes⟩ :: live⟩ fs'

section Malloc

variable (sbrk) {nbytes : ℕ} (hn : 0 < n) (hbytes : nbytes + HDR ≤ 16 * n)
include hn hbytes

/-- There is a block that is large enough. -/
theorem mallocFrom_fit (hk : Kept base s fs) (hfit : ∃ f ∈ fs, n ≤ f.size) :
    ∃ fuel o, mallocFrom sbrk n fuel s.heap.freep (s.heap.ptr s.heap.freep) s.heap = some o ∧
      Returned base nbytes s.live o := by
  obtain ⟨prev, k, f, hf, hsize, hprev, hlink, hwalk⟩ | ⟨hsmall, -⟩ := mallocFrom_search sbrk hk.list hn
  · have hbound : units fs < 4294967296 := by
      have := hk.total
      have := hk.bound
      omega
    obtain ⟨h', b, fs', hrun, hg⟩ := take_spec sbrk hk.list hf hprev hlink hn hsize hbound 0
    refine ⟨0 + 1 + k, _, (hwalk _).trans hrun, fs', ?_⟩
    rw [Nat.add_sub_cancel, hg.header, ← hg.units]
    exact hk.got hg hbytes
  · obtain ⟨f, hf, hsize⟩ := hfit
    exact absurd (hsmall f hf) (Nat.not_lt.mpr hsize)

variable {sbrk} in
theorem mallocFrom_kept (hk : Kept base s fs) (hok : FreshBelow base sbrk) :
    ∃ fuel o, mallocFrom sbrk n fuel s.heap.freep (s.heap.ptr s.heap.freep) s.heap = some o ∧
      Returned base nbytes s.live o := by
  obtain ⟨-, -, f, hf, hsize, -⟩ | ⟨hsmall, prev, k, hwalk⟩ := mallocFrom_search sbrk hk.list hn
  · exact mallocFrom_fit sbrk hn hbytes hk ⟨f, hf, hsize⟩
  have hnot : ¬ s.heap.size s.heap.freep ≥ n := fun hle => by
    obtain ⟨f, hf, -, hsize⟩ := hk.list.block_of_size hn hk.list.freep hle
    exact absurd (hsmall f hf) (Nat.not_lt.mpr hsize)
  obtain ⟨fuel, ans, h', hmore, hans⟩ := hk.morecore_kept hok n
  obtain ⟨rfl, rfl⟩ | ⟨rfl, fs', hk', hfit⟩ := hans
  · refine ⟨fuel + 1 + k, (none, s.heap), (hwalk _).trans ?_, fs, hk⟩
    rw [mallocFrom, if_neg hnot, if_pos rfl, hmore]
    rfl
  · obtain ⟨fuel', o, hrun, hret⟩ := mallocFrom_fit sbrk hn hbytes hk' hfit
    refine ⟨fuel + fuel' + 1 + k, o, (hwalk _).trans ?_, hret⟩
    rw [mallocFrom, if_neg hnot, if_pos rfl, morecore_mono (Nat.le_add_right _ _) hmore]
    exact mallocFrom_mono (Nat.le_add_left _ _) hrun

end Malloc

/-- Nothing has been allocated yet. -/
def State.Untouched (s : State) : Prop :=
  s.heap.freep = 0 ∧ s.heap.regions = [] ∧ s.live = []

/-- The first call sets up the free list. -/
theorem State.Untouched.kept (hu : s.Untouched) :
    Kept base ⟨{ (s.heap.setPtr base base).setSize base 0 with freep := base }, s.live⟩ [] := by
  obtain ⟨-, hregions, hlive⟩ := hu
  have hblocks : s.blocks = [] := by
    rw [State.blocks, hlive]
    rfl
  have hnone : ∀ {P : Live → Prop}, ∀ b ∈ s.live, P b := fun b hb => by
    rw [hlive] at hb
    cases hb
  refine ⟨⟨⟨?_, ?_, nofun, nofun, nofun, .nil, List.mem_cons_self⟩, ?_, hnone⟩, ?_, ?_, ?_, ?_⟩
  · exact Function.update_self _ _ _
  · exact Function.update_self _ _ _
  · change Tiles (s.blocks.map Block.interval) fun x => ∃ r ∈ s.heap.regions, _
    rw [hblocks, hregions]
    exact Tiles.nil.of_iff fun x => ⟨False.elim, fun ⟨r, hr, _⟩ => by cases hr⟩
  · change ∀ b ∈ s.blocks, _
    rw [hblocks]
    nofun
  · change ∀ r ∈ s.heap.regions, _
    rw [hregions]
    nofun
  · change units [] + units s.blocks = units s.heap.regions
    rw [hblocks, hregions]
    rfl
  · change units s.heap.regions < _
    rw [hregions]
    decide

theorem nbytes_le (nbytes : ℕ) : nbytes + HDR ≤ 16 * nunits nbytes := by
  change nbytes + 16 ≤ 16 * ((nbytes + 16 - 1) / 16 + 1)
  omega

/-- The invariant of a run. -/
def Reached (base : ℕ) (s : State) : Prop :=
  s.Untouched ∨ ∃ fs, Kept base s fs

theorem malloc_returns (hbase : base ≠ 0) (hr : Reached base s) (hok : FreshBelow base sbrk) (nbytes : ℕ) :
    ∃ fuel o, malloc base sbrk fuel nbytes s.heap = some o ∧ Returned base nbytes s.live o := by
  have hpos : 0 < nunits nbytes := Nat.succ_pos _
  unfold malloc
  dsimp only
  obtain hu | ⟨fs, hk⟩ := hr
  · rw [if_pos hu.1]
    exact mallocFrom_kept hpos (nbytes_le nbytes) hu.kept hok
  · have hne : ¬ s.heap.freep = 0 := fun hzero => by
      obtain heq | hmem := List.mem_cons.mp hk.list.freep
      · omega
      · obtain ⟨f, hf, heq⟩ := List.mem_map.mp hmem
        have := hk.list.above f hf
        omega
    rw [if_neg hne]
    exact mallocFrom_kept hpos (nbytes_le nbytes) hk hok

theorem free_returns (hr : Reached base s) {b : Live} (hb : b ∈ s.live) :
    ∃ fuel h', free fuel (b.block.addr + HDR) s.heap = some h' ∧ Reached base ⟨h', s.live.erase b⟩ := by
  obtain ⟨-, -, hlive⟩ | ⟨fs, hk⟩ := hr
  · rw [hlive] at hb
    cases hb
  · have hmem : b.block ∈ s.blocks := List.mem_map_of_mem hb
    have htotal : b.block.size ≤ units s.blocks := size_le_units hmem
    obtain ⟨h', fs', hfree, hg⟩ := free_spec hk.list (hk.header _ hmem) (hk.pos hmem) (hk.blocks_above hmem)
      (fun f hf => hk.free_apart hf hmem) (by have := hk.total; have := hk.bound; omega) (Nat.lt_succ_self _)
    exact ⟨_, h', hfree, Or.inr ⟨fs', hk.freed hb hg⟩⟩

/-! ## The runs -/

theorem Reached.step {s s' : State} (hbase : base ≠ 0) (hr : Reached base s) (hstep : Step base (FreshBelow base) s s') :
    Reached base s' := by
  have hmalloc : ∀ {sbrk fuel nbytes o}, FreshBelow base sbrk → malloc base sbrk fuel nbytes s.heap = some o →
      Returned base nbytes s.live o := by
    intro sbrk fuel nbytes o hok hrun
    obtain ⟨fuel', o', hrun', hret⟩ := malloc_returns hbase hr hok nbytes
    have hsame := (malloc_mono (Nat.le_add_right fuel fuel') hrun).symm.trans (malloc_mono (Nat.le_add_left fuel' fuel) hrun')
    rw [Option.some.inj hsame]
    exact hret
  cases hstep with
  | malloc sbrk fuel nbytes hok _ hrun => exact Or.inr (hmalloc hok hrun)
  | full sbrk fuel nbytes hok _ hrun => exact Or.inr (hmalloc hok hrun)
  | free fuel b hb hrun =>
    obtain ⟨fuel', h', hrun', hr'⟩ := free_returns hr hb
    have hsame := (free_mono (Nat.le_add_right fuel fuel') hrun).symm.trans (free_mono (Nat.le_add_left fuel' fuel) hrun')
    rw [Option.some.inj hsame]
    exact hr'
  | write hfreep hregions hsame =>
    obtain ⟨h₁, h₂, h₃⟩ | ⟨fs, hk⟩ := hr
    · exact Or.inl ⟨hfreep.trans h₁, hregions.trans h₂, h₃⟩
    · exact Or.inr ⟨fs, hk.written hfreep hregions hsame⟩

theorem Reached.run {s₀ s : State} (hbase : base ≠ 0) (hstart : s₀.Untouched)
    (hrun : Relation.ReflTransGen (Step base (FreshBelow base)) s₀ s) : Reached base s := by
  induction hrun with
  | refl => exact Or.inl hstart
  | tail _ hstep ih => exact ih.step hbase hstep

/-- `sbrk` with all the memory that it is asked for. -/
def sbrkNext (base : ℕ) (rs : List Block) (_ : ℕ) : Option ℕ :=
  some (rs.foldr (fun r p => max r.fin p) (base + HDR))

theorem sbrkNext_fresh (base : ℕ) : Fresh base (sbrkNext base) := by
  intro rs n p hp
  obtain rfl := Option.some.inj hp
  induction rs with
  | nil => exact ⟨Nat.le_refl _, fun _ h => by cases h⟩
  | cons r rs ih =>
    obtain ⟨hbase, hall⟩ := ih rfl
    refine ⟨Nat.le_trans hbase (Nat.le_max_right _ _), List.forall_mem_cons.mpr ⟨Nat.le_max_left _ _, fun q hq => ?_⟩⟩
    exact Nat.le_trans (hall q hq) (Nat.le_max_right _ _)

/-- `sbrk` with less than 64 GiB. -/
def sbrkBelow (base : ℕ) (rs : List Block) (n : ℕ) : Option ℕ :=
  if units rs + n / HDR < 4294967296 then sbrkNext base rs n else none

theorem sbrkBelow_fresh (base : ℕ) : FreshBelow base (sbrkBelow base) := by
  refine ⟨fun rs n p hp => ?_, fun rs n p hp => ?_⟩
  · unfold sbrkBelow at hp
    split_ifs at hp
    exact sbrkNext_fresh base rs n p hp
  · unfold sbrkBelow at hp
    split_ifs at hp with hlt
    exact hlt

def State.start : State :=
  ⟨⟨fun _ => 0, fun _ => 0, 0, []⟩, []⟩

/-- In every run with fewer than `2 ^ 32` headers the heap is in order, and every call comes to an end. -/
theorem heap_ordered {s₀ s : State} (hbase : base ≠ 0) (hstart : s₀.Untouched)
    (hrun : Relation.ReflTransGen (Step base (FreshBelow base)) s₀ s) :
    (s.Untouched ∨ ∃ fs, Ordered base s fs) ∧
    (∀ sbrk nbytes, FreshBelow base sbrk → nbytes < 4294967296 →
      ∃ k, ∀ fuel ≥ k, (malloc base sbrk fuel nbytes s.heap).isSome = true) ∧
    ∀ b ∈ s.live, ∃ k, ∀ fuel ≥ k, (free fuel (b.block.addr + HDR) s.heap).isSome = true := by
  have hr := Reached.run hbase hstart hrun
  refine ⟨hr.imp_right fun ⟨fs, hk⟩ => ⟨fs, hk.toOrdered⟩, fun sbrk nbytes hok _ => ?_, fun b hb => ?_⟩
  · obtain ⟨k, o, hret, -⟩ := malloc_returns hbase hr hok nbytes
    exact ⟨k, fun fuel hk => Option.isSome_of_eq_some (malloc_mono hk hret)⟩
  · obtain ⟨k, h', hret, -⟩ := free_returns hr hb
    exact ⟨k, fun fuel hk => Option.isSome_of_eq_some (free_mono hk hret)⟩

/-- A program that has allocated 100 bytes. -/
theorem heap_ordered_allocated : ∃ s, Relation.ReflTransGen (Step 4096 (FreshBelow 4096)) State.start s ∧
    s.live = [⟨⟨4112 + 16 * 4088, 8⟩, 100⟩] ∧ ∃ fs, Ordered 4096 s fs := by
  obtain ⟨⟨ans, h⟩, hmalloc, hview⟩ := Option.map_eq_some_iff.mp (show
    (malloc 4096 (sbrkBelow 4096) 10 100 State.start.heap).map (fun o => (o.1, o.2.freep, o.2.size (4112 + 16 * 4088))) =
      some (some (4128 + 16 * 4088), 4096, 8) by decide +kernel)
  obtain ⟨rfl, hfreep, hsize⟩ : ans = _ ∧ h.freep = _ ∧ h.size _ = _ := by
    simpa only [Prod.mk.injEq] using hview
  have hrun := Relation.ReflTransGen.single (Step.malloc (s := State.start) _ 10 100 (sbrkBelow_fresh 4096) (by decide) hmalloc)
  refine ⟨_, hrun, ?_, ((heap_ordered (by decide) ⟨rfl, rfl, rfl⟩ hrun).1).resolve_left fun hu => ?_⟩
  · change [(⟨⟨_, h.size (4112 + 16 * 4088)⟩, 100⟩ : Live)] = _
    rw [hsize]
    rfl
  · exact absurd (hfreep.symm.trans hu.1) (by decide)

/-! ## More than `2 ^ 32` headers -/

/-- A call of `malloc` that succeeds. -/
def State.allocate (base fuel nbytes : ℕ) (s : State) : Option State :=
  match malloc base (sbrkNext base) fuel nbytes s.heap with
  | some (some ap, h) => some ⟨h, ⟨⟨ap - HDR, h.size (ap - HDR)⟩, nbytes⟩ :: s.live⟩
  | _ => none

/-- The last block is freed. -/
def State.release (fuel : ℕ) (s : State) : Option State :=
  match s.live with
  | [] => none
  | b :: bs => (Umalloc.free fuel (b.block.addr + HDR) s.heap).map fun h => ⟨h, bs⟩

def State.times (f : State → Option State) : ℕ → State → Option State
  | 0, s => some s
  | n + 1, s => (f s).bind (times f n)

theorem State.allocate_step {fuel nbytes : ℕ} (hn : nbytes < 4294967296) {s s' : State}
    (hrun : s.allocate base fuel nbytes = some s') : Step base (Fresh base) s s' := by
  unfold State.allocate at hrun
  split at hrun
  · cases hrun
    exact .malloc _ fuel nbytes (sbrkNext_fresh base) hn (by assumption)
  · cases hrun

theorem State.release_step {fuel : ℕ} {s s' : State} (hrun : s.release fuel = some s') :
    Step base (Fresh base) s s' := by
  obtain ⟨heap, live⟩ := s
  cases live with
  | nil => cases hrun
  | cons b bs =>
    obtain ⟨h, hfree, rfl⟩ := Option.map_eq_some_iff.mp hrun
    have hstep : Step base (Fresh base) ⟨heap, b :: bs⟩ ⟨h, (b :: bs).erase b⟩ := .free fuel b List.mem_cons_self hfree
    rw [List.erase_cons_head] at hstep
    exact hstep

theorem State.times_run {f : State → Option State} (hf : ∀ s s', f s = some s' → Step base (Fresh base) s s') {n : ℕ}
    {s s' : State} (hrun : State.times f n s = some s') : Relation.ReflTransGen (Step base (Fresh base)) s s' := by
  induction n generalizing s with
  | zero =>
    cases hrun
    exact .refl
  | succ n ih =>
    obtain ⟨s₁, hstep, hrest⟩ := Option.bind_eq_some_iff.mp hrun
    exact .head (hf _ _ hstep) (ih hrest)

/-- 33 blocks of almost 2 GiB are allocated and freed. -/
def State.coalesced : Option State :=
  (State.times (State.allocate 4096 10 2147483616) 33 .start).bind (State.times (State.release 10) 33)

theorem coalesced_view :
    State.coalesced.map (fun s => (s.live, s.heap.freep, s.heap.ptr 4096, s.heap.ptr 4112, s.heap.size 4112,
      s.heap.regions.any fun r => r.addr ≤ 4294967296 ∧ 4294967296 < r.fin)) =
      some ([], 4096, 4112, 4096, 134217695, true) := by
  decide +kernel

/-- The size of the one free block does not fit, and addresses that `sbrk` has given are in no block. -/
theorem heap_lost : State.start.Untouched ∧ ∃ s, Relation.ReflTransGen (Step 4096 (Fresh 4096)) State.start s ∧
    ¬ (s.Untouched ∨ ∃ fs, Ordered 4096 s fs) := by
  refine ⟨⟨rfl, rfl, rfl⟩, ?_⟩
  obtain ⟨s, hs, hview⟩ := Option.map_eq_some_iff.mp coalesced_view
  obtain ⟨s₁, halloc, hrelease⟩ := Option.bind_eq_some_iff.mp hs
  obtain ⟨hlive, hfreep, hfirst, hsecond, hsize, hgiven⟩ : _ ∧ _ ∧ _ ∧ _ ∧ _ ∧ _ := by
    simpa only [Prod.mk.injEq] using hview
  refine ⟨s, (State.times_run (fun _ _ => State.allocate_step (by decide)) halloc).trans
    (State.times_run (fun _ _ => State.release_step) hrelease), ?_⟩
  rintro (hu | ⟨fs, ho⟩)
  · rw [hu.1] at hfreep
    cases hfreep
  · obtain ⟨r, hr, hx⟩ := List.any_eq_true.mp hgiven
    have hblocks : s.blocks = [] := by
      rw [State.blocks, hlive]
      rfl
    have htiles := ho.tiles
    rw [hblocks] at htiles
    obtain ⟨t, ht, hle, hlt⟩ := (htiles.mem 4294967296).mp ⟨r, hr, of_decide_eq_true hx⟩
    obtain ⟨f, hf, rfl⟩ := List.mem_map.mp (List.append_nil _ ▸ ht)
    -- the list has one block, and its size is read from its header
    have haddr : f.addr = 4112 := by
      have hcycle := ho.list.cycle
      have habove := ho.list.above
      obtain _ | ⟨g, _ | ⟨g', gs⟩⟩ := fs
      · cases hf
      · obtain rfl := List.mem_singleton.mp hf
        exact hcycle.1.symm.trans hfirst
      · have h₁ : 4112 = g.addr := hfirst.symm.trans hcycle.1
        have h₂ : s.heap.ptr g.addr = g'.addr := hcycle.2.1
        have h₃ := habove g' (List.mem_cons_of_mem _ List.mem_cons_self)
        rw [← h₁, hsecond] at h₂
        omega
    have hsz := ho.list.size f hf
    rw [haddr, hsize] at hsz
    have hfin : f.interval.2 = 4112 + 16 * 134217695 := by
      change f.addr + 16 * f.size = _
      rw [haddr, ← hsz]
    omega

end Umalloc

end Xv6
