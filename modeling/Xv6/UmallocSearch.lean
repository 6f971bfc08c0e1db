import Xv6.UmallocFree

/-!
# The search of malloc

`malloc` goes around the free list from `freep` and takes the first block that is large enough, whole or from its end
(`take_spec`). If it comes back to `freep`, there is none (`mallocFrom_search`). A call that returns with some bound on
the number of steps returns the same with any larger one (`malloc_mono`, `free_mono`).
-/

set_option linter.unusedSectionVars false

namespace Xv6

open Function (update_self update_of_ne)

namespace Umalloc

variable {base n : ℕ} {h : Heap} {fs : List Block} {sbrk : List Block → ℕ → Option ℕ}

/-! ## The bound on the number of steps -/

theorem seek_mono {stop : ℕ → Bool} {next : ℕ → ℕ} {k k' a t : ℕ} (hk : k ≤ k') (hs : seek stop next k a = some t) :
    seek stop next k' a = some t := by
  induction k generalizing k' a with
  | zero => cases hs
  | succ k ih =>
    obtain ⟨k', rfl⟩ := Nat.exists_eq_succ_of_ne_zero (show k' ≠ 0 by omega)
    rw [seek] at hs ⊢
    split_ifs at hs ⊢ with hstop
    · exact hs
    · exact ih (Nat.le_of_succ_le_succ hk) hs

theorem free_mono {k k' ap : ℕ} {h' : Heap} (hk : k ≤ k') (hs : free k ap h = some h') : free k' ap h = some h' := by
  obtain ⟨p, hseek, hrest⟩ := Option.bind_eq_some_iff.mp hs
  exact Option.bind_eq_some_iff.mpr ⟨p, seek_mono hk hseek, hrest⟩

theorem morecore_mono {k k' nu : ℕ} {o : Option ℕ × Heap} (hk : k ≤ k') (hs : morecore sbrk k nu h = some o) :
    morecore sbrk k' nu h = some o := by
  unfold morecore at hs ⊢
  dsimp only at hs ⊢
  generalize hans : sbrk h.regions _ = ans at hs ⊢
  cases ans with
  | none => exact hs
  | some hp =>
    obtain ⟨h', hfree, hrest⟩ := Option.bind_eq_some_iff.mp hs
    exact Option.bind_eq_some_iff.mpr ⟨h', free_mono hk hfree, hrest⟩

theorem mallocFrom_mono {k k' prevp p : ℕ} {o : Option ℕ × Heap} (hk : k ≤ k')
    (hs : mallocFrom sbrk n k prevp p h = some o) : mallocFrom sbrk n k' prevp p h = some o := by
  induction k generalizing k' prevp p h with
  | zero => cases hs
  | succ k ih =>
    obtain ⟨k', rfl⟩ := Nat.exists_eq_succ_of_ne_zero (show k' ≠ 0 by omega)
    have hk := Nat.le_of_succ_le_succ hk
    rw [mallocFrom] at hs ⊢
    split_ifs at hs ⊢ with hfit hexact hend
    · exact hs
    · exact hs
    · obtain ⟨⟨ans, h'⟩, hmore, hrest⟩ := Option.bind_eq_some_iff.mp hs
      refine Option.bind_eq_some_iff.mpr ⟨(ans, h'), morecore_mono hk hmore, ?_⟩
      cases ans with
      | none => exact hrest
      | some p => exact ih hk hrest
    · exact ih hk hs

theorem malloc_mono {k k' nbytes : ℕ} {o : Option ℕ × Heap} (hk : k ≤ k') (hs : malloc base sbrk k nbytes h = some o) :
    malloc base sbrk k' nbytes h = some o :=
  mallocFrom_mono hk hs

/-! ## The search -/

variable (sbrk) in
/-- The nodes that are too small are passed. -/
theorem mallocFrom_walk {a p : ℕ} {l : List ℕ} (hpath : Path h.ptr a l p) (hl : ∀ y ∈ l, h.size y < n ∧ y ≠ h.freep)
    (k : ℕ) : mallocFrom sbrk n (k + l.length) a (h.ptr a) h = mallocFrom sbrk n k (lastNode a l) p h := by
  induction l generalizing a with
  | nil =>
    rw [show h.ptr a = p from hpath]
    rfl
  | cons y l ih =>
    obtain ⟨hsmall, hne⟩ := hl y List.mem_cons_self
    rw [hpath.1, List.length_cons, ← Nat.add_assoc, mallocFrom, if_neg (Nat.not_le.mpr hsmall), if_neg hne]
    exact ih hpath.2 fun z hz => hl z (List.mem_cons_of_mem y hz)

/-- The first element of a list with a property. -/
theorem exists_first {α : Type} {P : α → Prop} (l : List α) :
    (∀ y ∈ l, ¬ P y) ∨ ∃ l₁ y l₂, l = l₁ ++ y :: l₂ ∧ (∀ z ∈ l₁, ¬ P z) ∧ P y := by
  induction l with
  | nil => exact Or.inl fun _ h => by cases h
  | cons x l ih =>
    by_cases hx : P x
    · exact Or.inr ⟨[], x, l, rfl, fun _ h => (by cases h), hx⟩
    obtain hnone | ⟨l₁, y, l₂, rfl, hl, hy⟩ := ih
    · exact Or.inl (List.forall_mem_cons.mpr ⟨hx, hnone⟩)
    · exact Or.inr ⟨x :: l₁, y, l₂, rfl, List.forall_mem_cons.mpr ⟨hx, hl⟩, hy⟩

theorem FreeList.block_of_size (hf : FreeList base h fs) (hn : 0 < n) {y : ℕ} (hy : y ∈ base :: fs.map Block.addr)
    (hsize : n ≤ h.size y) : ∃ f ∈ fs, f.addr = y ∧ n ≤ f.size := by
  obtain rfl | hy := List.mem_cons.mp hy
  · have := hf.zero
    omega
  · obtain ⟨f, hmem, rfl⟩ := List.mem_map.mp hy
    rw [hf.size f hmem] at hsize
    exact ⟨f, hmem, rfl, hsize⟩

variable (sbrk) in
/-- The search comes to a block that is large enough, or back to `freep`. -/
theorem mallocFrom_search (hf : FreeList base h fs) (hn : 0 < n) :
    (∃ prev k, ∃ f ∈ fs, n ≤ f.size ∧ prev ∈ base :: fs.map Block.addr ∧ h.ptr prev = f.addr ∧
      ∀ fuel, mallocFrom sbrk n (fuel + k) h.freep (h.ptr h.freep) h = mallocFrom sbrk n fuel prev f.addr h) ∨
    (∀ f ∈ fs, f.size < n) ∧ ∃ prev k,
      ∀ fuel, mallocFrom sbrk n (fuel + k) h.freep (h.ptr h.freep) h = mallocFrom sbrk n fuel prev h.freep h := by
  obtain ⟨nodes, hcycle, hperm⟩ := hf.cycle.rotate hf.freep
  have hnd : (h.freep :: nodes).Nodup := hperm.nodup_iff.mpr hf.nodup
  have hne : ∀ y ∈ nodes, y ≠ h.freep := fun y hy heq => (List.nodup_cons.mp hnd).1 (heq ▸ hy)
  obtain hnone | ⟨l₁, y, l₂, rfl, hl, hy⟩ := exists_first (P := fun y => n ≤ h.size y) nodes
  · have hwalk := mallocFrom_walk (n := n) sbrk hcycle fun y hy => ⟨Nat.not_le.mp (hnone y hy), hne y hy⟩
    by_cases hfit : n ≤ h.size h.freep
    · obtain ⟨f, hmem, haddr, hsize⟩ := hf.block_of_size hn hf.freep hfit
      refine Or.inl ⟨_, nodes.length, f, hmem, hsize, hperm.mem_iff.mp (lastNode_mem _ _), ?_, fun fuel => ?_⟩
      · rw [hcycle.last, haddr]
      · rw [hwalk, haddr]
    · refine Or.inr ⟨fun f hmem => Nat.not_le.mp fun hsize => ?_, _, nodes.length, hwalk⟩
      rw [← hf.size f hmem] at hsize
      have hmem' := hperm.mem_iff.mpr (List.mem_cons_of_mem base (List.mem_map_of_mem hmem))
      obtain heq | hmem' := List.mem_cons.mp hmem'
      · exact hfit (heq ▸ hsize)
      · exact hnone _ hmem' hsize
  · have hpath := (Path.append.mp hcycle).1
    have hwalk := mallocFrom_walk (n := n) sbrk hpath fun z hz =>
      ⟨Nat.not_le.mp (hl z hz), hne z (List.mem_append_left _ hz)⟩
    obtain ⟨f, hmem, haddr, hsize⟩ := hf.block_of_size hn
      (hperm.mem_iff.mp (List.mem_cons_of_mem _ (List.mem_append_right _ List.mem_cons_self))) hy
    refine Or.inl ⟨lastNode h.freep l₁, l₁.length, f, hmem, hsize, hperm.mem_iff.mp ?_, ?_, fun fuel => ?_⟩
    · obtain heq | hmem := List.mem_cons.mp (lastNode_mem h.freep l₁)
      · rw [heq]
        exact List.mem_cons_self
      · exact List.mem_cons_of_mem _ (List.mem_append_left _ hmem)
    · rw [hpath.last, haddr]
    · rw [hwalk, haddr]

/-! ## Taking a block -/

/-- A block of `n` headers has been taken from the free list. -/
structure Got (base n : ℕ) (fs : List Block) (h h' : Heap) (b : Block) (fs' : List Block) : Prop where
  list : FreeList base h' fs'
  units : b.size = n
  last : ∃ f ∈ fs, n ≤ f.size ∧ b.fin = f.fin
  header : h'.size b.addr = n
  total : Umalloc.units fs = Umalloc.units fs' + n
  tiles : ∀ ts S, Tiles (fs.map Block.interval ++ ts) S → Tiles (b.interval :: (fs'.map Block.interval ++ ts)) S
  frame : ∀ a, a ∉ fs.map Block.addr → a ≠ b.addr → h'.size a = h.size a
  regions : h'.regions = h.regions

section Take

variable {l r : List Block} {f : Block} {prev : ℕ} (hf : FreeList base h (l ++ f :: r))
  (hprev : prev ∈ base :: (l ++ f :: r).map Block.addr) (hlink : h.ptr prev = f.addr)
include hf hprev hlink

theorem FreeList.prev_eq : prev = lastNode base (l.map Block.addr) := by
  have hcycle := hf.cycle
  have hnd := hf.nodup
  rw [List.map_append, List.map_cons] at hcycle hnd hprev
  have hlast : lastNode base (l.map Block.addr) ∈ base :: (l.map Block.addr ++ f.addr :: r.map Block.addr) := by
    rw [← List.cons_append]
    exact List.mem_append_left _ (lastNode_mem _ _)
  exact hcycle.inj hnd hprev hlast (hlink.trans (Path.append.mp hcycle).1.last.symm)

/-- The whole block is taken. -/
theorem got_exact : Got base f.size (l ++ f :: r) h { h.setPtr prev (h.ptr f.addr) with freep := prev } f (l ++ r) := by
  have hq := hf.prev_eq hprev hlink
  have hcycle := hf.cycle
  have hnd := hf.nodup
  rw [List.map_append, List.map_cons] at hcycle hnd
  have hsub : (l ++ r).Sublist (l ++ f :: r) := (List.sublist_cons_self f r).append_left l
  have hdisj : ∀ y ∈ r.map Block.addr, y ≠ prev := fun y hy heq => by
    rw [← List.cons_append, List.nodup_append] at hnd
    exact hnd.2.2 prev (hq ▸ lastNode_mem _ _) y (List.mem_cons_of_mem _ hy) heq.symm
  refine ⟨⟨?_, hf.zero, fun g hg => hf.size g (hsub.subset hg), fun g hg => hf.pos g (hsub.subset hg),
    fun g hg => hf.above g (hsub.subset hg), hf.apart.sublist hsub, ?_⟩, rfl,
    ⟨f, List.mem_append_right _ List.mem_cons_self, Nat.le_refl _, rfl⟩, ?_, ?_, fun ts S ht => ht.perm ?_,
    fun _ _ _ => rfl, rfl⟩
  · obtain ⟨hbefore, hafter⟩ := Path.append.mp hcycle
    have hndl : (base :: l.map Block.addr).Nodup := hnd.sublist (List.Sublist.cons_cons base (List.sublist_append_left _ _))
    have hfront : Path (Function.update h.ptr prev (h.ptr f.addr)) base (l.map Block.addr) _ :=
      hbefore.retarget hndl fun y _ hy => update_of_ne (hq ▸ hy) _ _
    rw [List.map_append]
    refine hfront.join (hafter.restart ?_ fun y hy => update_of_ne (hdisj y hy) _ _)
    rw [← hq]
    exact update_self _ _ _
  · change prev ∈ _
    rw [hq, List.map_append, ← List.cons_append]
    exact List.mem_append_left _ (lastNode_mem _ _)
  · exact hf.size f (List.mem_append_right _ List.mem_cons_self)
  · rw [units_append, units_cons, units_append]
    omega
  · rw [List.map_append, List.map_cons, List.map_append, List.append_assoc, List.append_assoc]
    exact List.perm_middle

/-- The end of the block is taken. -/
theorem got_split (hn : 0 < n) (hlt : n < f.size) (hbound : f.size < 4294967296) :
    Got base n (l ++ f :: r) h
      { (h.setSize f.addr (f.size - n)).setSize (f.addr + 16 * (f.size - n)) n with freep := prev }
      ⟨f.addr + 16 * (f.size - n), n⟩ (l ++ ⟨f.addr, f.size - n⟩ :: r) := by
  have happ := List.pairwise_append.mp hf.apart
  have hgap := List.pairwise_cons.mp happ.2.1
  have hfin : (⟨f.addr, f.size - n⟩ : Block).fin = f.addr + 16 * (f.size - n) := rfl
  have hend : f.addr + 16 * (f.size - n) < f.fin := by
    rw [Block.fin]
    omega
  have hmem : f ∈ l ++ f :: r := List.mem_append_right _ List.mem_cons_self
  have hbase := hf.above f hmem
  -- the headers of the other blocks
  have hother : ∀ y, y < f.addr ∨ f.fin < y →
      Function.update (Function.update h.size f.addr ((f.size - n) % 4294967296)) (f.addr + 16 * (f.size - n))
        (n % 4294967296) y = h.size y := fun y hy => by
    rw [update_of_ne (by omega), update_of_ne (by have := Block.addr_lt_fin (hf.pos f hmem); omega)]
  have hbelow : ∀ g ∈ l, g.addr < f.addr := fun g hg =>
    Nat.lt_trans (Block.addr_lt_fin (hf.pos g (List.mem_append_left _ hg))) (happ.2.2 g hg f List.mem_cons_self)
  refine ⟨⟨?_, (hother base (Or.inl hbase)).trans hf.zero, ?_, ?_, ?_, ?_, ?_⟩, rfl, ⟨f, hmem, Nat.le_of_lt hlt, ?_⟩,
    ?_, ?_, fun ts S ht => ?_, fun a ha hne => ?_, rfl⟩
  · have hcycle := hf.cycle
    rw [List.map_append, List.map_cons] at hcycle ⊢
    exact hcycle
  · refine List.forall_mem_append.mpr ⟨fun g hg => ?_, List.forall_mem_cons.mpr ⟨?_, fun g hg => ?_⟩⟩
    · exact (hother _ (Or.inl (hbelow g hg))).trans (hf.size g (List.mem_append_left _ hg))
    · exact (update_of_ne (by dsimp only; omega) _ _).trans
        ((update_self _ _ _).trans (Nat.mod_eq_of_lt (by omega)))
    · exact (hother _ (Or.inr (hgap.1 g hg))).trans
        (hf.size g (List.mem_append_right _ (List.mem_cons_of_mem _ hg)))
  · exact List.forall_mem_append.mpr ⟨fun g hg => hf.pos g (List.mem_append_left _ hg),
      List.forall_mem_cons.mpr ⟨Nat.sub_pos_of_lt hlt, fun g hg =>
        hf.pos g (List.mem_append_right _ (List.mem_cons_of_mem _ hg))⟩⟩
  · exact List.forall_mem_append.mpr ⟨fun g hg => hf.above g (List.mem_append_left _ hg),
      List.forall_mem_cons.mpr ⟨hbase, fun g hg =>
        hf.above g (List.mem_append_right _ (List.mem_cons_of_mem _ hg))⟩⟩
  · refine List.pairwise_append.mpr ⟨happ.1, List.pairwise_cons.mpr ⟨fun g hg => ?_, hgap.2⟩, fun g hg =>
      List.forall_mem_cons.mpr ⟨happ.2.2 g hg f List.mem_cons_self, fun g' hg' => ?_⟩⟩
    · exact Nat.lt_trans hend (hgap.1 g hg)
    · exact happ.2.2 g hg g' (List.mem_cons_of_mem _ hg')
  · rw [List.map_append, List.map_cons] at hprev ⊢
    exact hprev
  · rw [Block.fin, Block.fin]
    dsimp only
    omega
  · exact (update_self _ _ _).trans (Nat.mod_eq_of_lt (by omega))
  · rw [units_append, units_cons, units_append, units_cons]
    dsimp only
    omega
  · rw [List.map_append, List.map_cons, List.append_assoc] at ht ⊢
    have hcut := (ht.perm List.perm_middle).cut (show f.addr < f.addr + 16 * (f.size - n) by omega) hend
    have hlast : (⟨f.addr + 16 * (f.size - n), n⟩ : Block).interval = (f.addr + 16 * (f.size - n), f.fin) := by
      unfold Block.interval Block.fin
      dsimp only
      congr 1
      omega
    rw [hlast]
    exact hcut.perm ((List.Perm.swap _ _ _).trans (List.perm_middle.symm.cons _))
  · have hne' : a ≠ f.addr := fun heq => ha (heq ▸ List.mem_map_of_mem hmem)
    exact (update_of_ne hne _ _).trans (update_of_ne hne' _ _)

end Take

theorem size_le_units {f : Block} (hmem : f ∈ fs) : f.size ≤ units fs := by
  obtain ⟨l, r, rfl⟩ := List.append_of_mem hmem
  rw [units_append, units_cons]
  omega

variable (sbrk) in
/-- The branch of `malloc` for a block that is large enough. -/
theorem take_spec (hf : FreeList base h fs) {f : Block} (hmem : f ∈ fs) {prev : ℕ}
    (hprev : prev ∈ base :: fs.map Block.addr) (hlink : h.ptr prev = f.addr) (hn : 0 < n) (hle : n ≤ f.size)
    (hbound : units fs < 4294967296) (k : ℕ) :
    ∃ h' b fs', mallocFrom sbrk n (k + 1) prev f.addr h = some (some (b.addr + HDR), h') ∧ Got base n fs h h' b fs' := by
  have hsize := hf.size f hmem
  have hlt : f.size < 4294967296 := Nat.lt_of_le_of_lt (size_le_units hmem) hbound
  obtain ⟨l, r, rfl⟩ := List.append_of_mem hmem
  rw [mallocFrom, hsize, if_pos hle]
  obtain rfl | hlt' := Nat.eq_or_lt_of_le hle
  · rw [if_pos rfl]
    exact ⟨_, f, _, rfl, got_exact hf hprev hlink⟩
  · rw [if_neg (Nat.ne_of_gt hlt')]
    have hrest : (h.setSize f.addr (f.size - n)).size f.addr = f.size - n := by
      refine (update_self _ _ _).trans (Nat.mod_eq_of_lt (by omega))
    dsimp only
    rw [hrest]
    exact ⟨_, _, _, rfl, got_split hf hprev hlink hn hlt' hlt⟩

end Umalloc

end Xv6
