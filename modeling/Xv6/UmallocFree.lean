import Mathlib.Algebra.GroupWithZero.Nat
import Xv6.Umalloc

/-!
# The free list

`FreeList` says that the free list is in order : a cycle from `base` through the free blocks, with ascending addresses
and a gap between any two blocks. In such a list the search of `free` ends at the last block below the one to be freed,
wherever it begins, and the block is put in there and joined with the blocks that it touches (`free_spec`).
-/

set_option linter.unusedSectionVars false

namespace Xv6

open Function (update_self update_of_ne)

namespace Umalloc

/-- The addresses of a block. -/
def Block.interval (b : Block) : ℕ × ℕ :=
  (b.addr, b.fin)

/-- The number of headers in a list of blocks. -/
def units (bs : List Block) : ℕ :=
  (bs.map Block.size).sum

/-- The free list has the blocks `fs`. -/
structure FreeList (base : ℕ) (h : Heap) (fs : List Block) : Prop where
  cycle : Path h.ptr base (fs.map Block.addr) base
  zero : h.size base = 0
  size : ∀ f ∈ fs, h.size f.addr = f.size
  pos : ∀ f ∈ fs, 0 < f.size
  above : ∀ f ∈ fs, base < f.addr
  apart : fs.Pairwise fun f g => f.fin < g.addr
  freep : h.freep ∈ base :: fs.map Block.addr

variable {base : ℕ} {h : Heap} {fs l r : List Block} {b : Block}

theorem Block.addr_lt_fin (hpos : 0 < b.size) : b.addr < b.fin := by
  rw [Block.fin]
  omega

namespace FreeList

theorem ascending (hf : FreeList base h fs) : (base :: fs.map Block.addr).Pairwise (· < ·) := by
  refine List.pairwise_cons.mpr ⟨fun a ha => ?_, List.pairwise_map.mpr ?_⟩
  · obtain ⟨f, hmem, rfl⟩ := List.mem_map.mp ha
    exact hf.above f hmem
  · refine hf.apart.imp_of_mem fun hf' _ hlt => ?_
    exact Nat.lt_trans (Block.addr_lt_fin (hf.pos _ hf')) hlt

theorem nodup (hf : FreeList base h fs) : (base :: fs.map Block.addr).Nodup :=
  hf.ascending.imp Nat.ne_of_lt

/-- The free blocks below and above a block that touches none of them but at its ends. -/
theorem split (hf : FreeList base h fs) (hb : ∀ f ∈ fs, Apart f.interval b.interval) :
    ∃ l r, fs = l ++ r ∧ (∀ f ∈ l, f.fin ≤ b.addr) ∧ ∀ g ∈ r, b.fin ≤ g.addr := by
  have hsplit : ∀ fs : List Block, (fs.Pairwise fun f g => f.fin < g.addr) → (∀ f ∈ fs, 0 < f.size) →
      (∀ f ∈ fs, Apart f.interval b.interval) →
      ∃ l r, fs = l ++ r ∧ (∀ f ∈ l, f.fin ≤ b.addr) ∧ ∀ g ∈ r, b.fin ≤ g.addr := by
    intro fs
    induction fs with
    | nil => exact fun _ _ _ => ⟨[], [], rfl, fun _ h => (by cases h), fun _ h => by cases h⟩
    | cons f fs ih =>
      intro hlt hpos hb
      obtain ⟨hfirst, hrest⟩ := List.pairwise_cons.mp hlt
      obtain hle | hle := hb f List.mem_cons_self
      · obtain ⟨l, r, rfl, hl, hr⟩ := ih hrest (fun g hg => hpos g (List.mem_cons_of_mem f hg))
          fun g hg => hb g (List.mem_cons_of_mem f hg)
        refine ⟨f :: l, r, rfl, fun g hg => ?_, hr⟩
        obtain rfl | hg := List.mem_cons.mp hg
        · exact hle
        · exact hl g hg
      · refine ⟨[], f :: fs, rfl, fun _ h => (by cases h), fun g hg => ?_⟩
        obtain rfl | hg := List.mem_cons.mp hg
        · exact hle
        · have hfin := hfirst g hg
          have hlt := Block.addr_lt_fin (hpos f List.mem_cons_self)
          change b.fin ≤ f.addr at hle
          omega
  exact hsplit fs hf.apart hf.pos hb

section Search

variable (hf : FreeList base h (l ++ r)) (hl : ∀ f ∈ l, f.fin ≤ b.addr) (hr : ∀ g ∈ r, b.fin ≤ g.addr)
  (hpos : 0 < b.size) (hbase : base < b.addr)
include hf hl hr hpos hbase

/-- The last node below the block. -/
theorem lastNode_lt : lastNode base (l.map Block.addr) < b.addr := by
  obtain heq | hmem := List.mem_cons.mp (lastNode_mem base (l.map Block.addr))
  · rw [heq]
    exact hbase
  · obtain ⟨f, hmem, heq⟩ := List.mem_map.mp hmem
    rw [← heq]
    have := hl f hmem
    have := Block.addr_lt_fin (hf.pos f (List.mem_append_left _ hmem))
    omega

/-- The search of `free` ends there, and nowhere else. -/
theorem around_iff {y : ℕ} (hy : y ∈ base :: (l ++ r).map Block.addr) :
    around h b.addr y = true ↔ y = lastNode base (l.map Block.addr) := by
  have hcycle := hf.cycle
  have hlt := hf.ascending
  have hplt := lastNode_lt hf hl hr hpos hbase
  rw [List.map_append] at hcycle hlt hy
  have hbelow : ∀ x ∈ l.map Block.addr, x < b.addr := fun x hx => by
    obtain ⟨f, hmem, rfl⟩ := List.mem_map.mp hx
    have := hl f hmem
    have := Block.addr_lt_fin (hf.pos f (List.mem_append_left _ hmem))
    omega
  have habove : ∀ x ∈ r.map Block.addr, b.addr < x := fun x hx => by
    obtain ⟨g, hmem, rfl⟩ := List.mem_map.mp hx
    have := hr g hmem
    have := Block.addr_lt_fin hpos
    omega
  generalize l.map Block.addr = L at hcycle hlt hy hbelow hplt ⊢
  generalize r.map Block.addr = R at hcycle hlt hy habove
  rw [around, decide_eq_true_iff]
  constructor
  · intro hstop
    rw [← List.cons_append, List.mem_append] at hy
    obtain hy | hy := hy
    · refine (hcycle.before.next_cases (hlt.sublist ?_) hy).resolve_right fun hnext => ?_
      · exact List.Sublist.cons_cons base (List.sublist_append_left L R)
      · have := hbelow _ hnext.1
        omega
    · have hyb := habove y hy
      have hbase' : base < y := (List.pairwise_cons.mp hlt).1 y (List.mem_append_right _ hy)
      obtain ⟨R₁, R₂, rfl⟩ := List.append_of_mem hy
      have hpath := (Path.append.mp hcycle.after).2
      have hlt₂ : (y :: R₂).Pairwise (· < ·) := hlt.sublist (by
        refine List.Sublist.cons base (List.Sublist.trans ?_ (List.sublist_append_right L _))
        exact List.sublist_append_right R₁ _)
      obtain heq | hnext := hpath.next_cases hlt₂ List.mem_cons_self
      · have hlast := hpath.last
        rw [← heq] at hlast
        omega
      · omega
  · rintro rfl
    have hafter := hcycle.after
    cases R with
    | nil =>
      have hnext : h.ptr (lastNode base L) = base := hafter
      have hle : base ≤ lastNode base L := by
        obtain heq | hmem := List.mem_cons.mp (lastNode_mem base L)
        · exact Nat.le_of_eq heq.symm
        · exact Nat.le_of_lt ((List.pairwise_cons.mp hlt).1 _ (List.mem_append_left _ hmem))
      omega
    | cons x R =>
      have hnext : h.ptr (lastNode base L) = x := hafter.1
      have := habove x List.mem_cons_self
      omega

end Search

end FreeList

/-! ## Putting a block in -/

/-- What `free` does to the header of the block. -/
def joinNext (h : Heap) (bp q : ℕ) : Heap :=
  if bp + 16 * h.size bp = q then (h.setSize bp (h.size bp + h.size q)).setPtr bp (h.ptr q) else h.setPtr bp q

/-- What `free` does to the header of the block before. -/
def joinPrev (h : Heap) (p bp : ℕ) : Heap :=
  if p + 16 * h.size p = bp then (h.setSize p (h.size p + h.size bp)).setPtr p (h.ptr bp) else h.setPtr p bp

theorem free_eq {fuel p : ℕ} (hseek : seek (around h b.addr) h.ptr fuel h.freep = some p) :
    free fuel (b.addr + HDR) h = some { joinPrev (joinNext h b.addr (h.ptr p)) p b.addr with freep := p } := by
  rw [free, Nat.add_sub_cancel]
  dsimp only
  rw [hseek]
  rfl

/-- A block in place of another one, with the blocks after it. -/
structure Joined (base : ℕ) (b : Block) (r : List Block) (h h' : Heap) (c : Block) (r' : List Block) : Prop where
  addr : c.addr = b.addr
  le : b.size ≤ c.size
  sub : ∀ g ∈ r', g ∈ r
  sorted : r'.Pairwise fun f g => f.fin < g.addr
  gap : ∀ g ∈ r', c.fin < g.addr
  total : c.size + units r' = b.size + units r
  tiles : ∀ ts S, Tiles (b.interval :: r.map Block.interval ++ ts) S → Tiles (c.interval :: r'.map Block.interval ++ ts) S
  path : Path h'.ptr b.addr (r'.map Block.addr) base
  size : h'.size b.addr = c.size
  frame : ∀ a, a ≠ b.addr → h'.ptr a = h.ptr a ∧ h'.size a = h.size a
  rest : h'.freep = h.freep ∧ h'.regions = h.regions

theorem ne_of_above (hpos : 0 < b.size) (hr : ∀ g ∈ r, b.fin ≤ g.addr) {a : ℕ} (ha : a ∈ r.map Block.addr) :
    a ≠ b.addr := by
  obtain ⟨g, hg, rfl⟩ := List.mem_map.mp ha
  have := hr g hg
  have := Block.addr_lt_fin hpos
  omega

section Join

variable {p : ℕ} (hpath : Path h.ptr p (r.map Block.addr) base) (hsize : h.size b.addr = b.size) (hpos : 0 < b.size)
  (hr : ∀ g ∈ r, b.fin ≤ g.addr) (hsorted : r.Pairwise fun f g => f.fin < g.addr)
include hpath hsize hpos hr hsorted

theorem joined_setPtr (hne : ∀ g ∈ r, b.fin < g.addr) : Joined base b r h (h.setPtr b.addr (h.ptr p)) b r where
  addr := rfl
  le := Nat.le_refl _
  sub _ hg := hg
  sorted := hsorted
  gap := hne
  total := rfl
  tiles _ _ h := h
  path := hpath.restart (update_self b.addr _ h.ptr) fun _ ha =>
    update_of_ne (ne_of_above hpos hr ha) _ h.ptr
  size := hsize
  frame _ ha := ⟨update_of_ne ha _ h.ptr, rfl⟩
  rest := ⟨rfl, rfl⟩

theorem joinNext_joined (hbase : base < b.addr) (hsz : ∀ g ∈ r, h.size g.addr = g.size) (hposr : ∀ g ∈ r, 0 < g.size)
    (hsum : b.size + units r < 4294967296) :
    ∃ c r', Joined base b r h (joinNext h b.addr (h.ptr p)) c r' := by
  cases r with
  | nil =>
    have hq : h.ptr p = base := hpath
    have hne : ¬ b.addr + 16 * h.size b.addr = h.ptr p := by omega
    refine ⟨b, [], ?_⟩
    rw [joinNext, if_neg hne]
    exact joined_setPtr hpath hsize hpos hr hsorted fun g hg => (by cases hg)
  | cons g r =>
    have hq : h.ptr p = g.addr := hpath.1
    have hpath' := hpath.2
    have hgr := List.pairwise_cons.mp hsorted
    rw [hq]
    by_cases heq : b.fin = g.addr
    · refine ⟨⟨b.addr, b.size + g.size⟩, r, ?_⟩
      rw [joinNext, if_pos (by rw [hsize]; exact heq)]
      have hunits : units (g :: r) = g.size + units r := by rw [units, List.map_cons, List.sum_cons, units]
      have hfin : (⟨b.addr, b.size + g.size⟩ : Block).fin = g.fin := by
        unfold Block.fin at heq ⊢
        dsimp only
        omega
      have hnot : ∀ a ∈ r.map Block.addr, a ≠ b.addr := fun a ha =>
        ne_of_above hpos hr (List.mem_cons_of_mem _ ha)
      exact {
        addr := rfl
        le := Nat.le_add_right _ _
        sub := fun f hf => List.mem_cons_of_mem g hf
        sorted := hgr.2
        gap := fun f hf => hfin ▸ hgr.1 f hf
        total := by rw [hunits, Nat.add_assoc]
        tiles := fun ts S ht => by
          rw [Block.interval, hfin]
          rw [List.map_cons, Block.interval, Block.interval, heq] at ht
          exact ht.paste
        path := hpath'.restart (update_self b.addr _ h.ptr) fun a ha =>
          update_of_ne (hnot a ha) _ h.ptr
        size := by
          change Function.update h.size b.addr _ b.addr = _
          rw [update_self, hsize, hsz g List.mem_cons_self, Nat.mod_eq_of_lt (by omega)]
        frame := fun _ ha => ⟨update_of_ne ha _ h.ptr, update_of_ne ha _ h.size⟩
        rest := ⟨rfl, rfl⟩ }
    · refine ⟨b, g :: r, ?_⟩
      rw [joinNext, if_neg (by rw [hsize]; exact heq), ← hq]
      refine joined_setPtr hpath hsize hpos hr hsorted fun f hf => ?_
      have hle := hr g List.mem_cons_self
      obtain rfl | hf := List.mem_cons.mp hf
      · omega
      · have := hgr.1 f hf
        have := Block.addr_lt_fin (hposr g List.mem_cons_self)
        omega

end Join

/-- The block `b` has been freed. -/
structure Freed (base : ℕ) (b : Block) (fs : List Block) (h h' : Heap) (fs' : List Block) : Prop where
  list : FreeList base h' fs'
  total : units fs' = units fs + b.size
  tiles : ∀ ts S, Tiles (b.interval :: fs.map Block.interval ++ ts) S → Tiles (fs'.map Block.interval ++ ts) S
  big : ∃ f ∈ fs', b.size ≤ f.size
  others : ∀ f ∈ fs', f ∈ fs ∨ b.fin ≤ f.fin
  frame : ∀ a, a ≠ base → a ≠ b.addr → a ∉ fs.map Block.addr → h'.ptr a = h.ptr a ∧ h'.size a = h.size a
  regions : h'.regions = h.regions

theorem units_append (l r : List Block) : units (l ++ r) = units l + units r := by
  rw [units, List.map_append, List.sum_append, units, units]

theorem units_cons (b : Block) (l : List Block) : units (b :: l) = b.size + units l := by
  rw [units, List.map_cons, List.sum_cons, units]

theorem perm_middle {β : Type} (x l t : List β) : (x ++ (l ++ t)).Perm (l ++ x ++ t) := by
  rw [← List.append_assoc]
  exact List.perm_append_comm.append_right t

section Free

variable {h₁ : Heap} {c : Block} {r' : List Block}

theorem below (hf : FreeList base h (l ++ r)) (hl : ∀ f ∈ l, f.fin ≤ b.addr) (hbase : base < b.addr) {y : ℕ}
    (hy : y ∈ base :: l.map Block.addr) : y < b.addr := by
  obtain rfl | hy := List.mem_cons.mp hy
  · exact hbase
  · obtain ⟨f, hmem, rfl⟩ := List.mem_map.mp hy
    have := hl f hmem
    have := Block.addr_lt_fin (hf.pos f (List.mem_append_left _ hmem))
    omega

theorem above (hr : ∀ g ∈ r, b.fin ≤ g.addr) (hpos : 0 < b.size) (hj : Joined base b r h h₁ c r') {y : ℕ}
    (hy : y ∈ r'.map Block.addr) : b.addr < y := by
  obtain ⟨g, hmem, rfl⟩ := List.mem_map.mp hy
  have := hr g (hj.sub g hmem)
  have := Block.addr_lt_fin hpos
  omega

theorem size_below (hf : FreeList base h (l ++ r)) (hl : ∀ f ∈ l, f.fin ≤ b.addr) (hbase : base < b.addr)
    (hj : Joined base b r h h₁ c r') {f : Block} (hmem : f ∈ l) : h₁.size f.addr = f.size := by
  have hlt := below hf hl hbase (List.mem_cons_of_mem _ (List.mem_map_of_mem hmem))
  rw [(hj.frame _ (Nat.ne_of_lt hlt)).2, hf.size f (List.mem_append_left _ hmem)]

theorem size_above (hf : FreeList base h (l ++ r)) (hr : ∀ g ∈ r, b.fin ≤ g.addr) (hpos : 0 < b.size)
    (hj : Joined base b r h h₁ c r') {g : Block} (hmem : g ∈ r') : h₁.size g.addr = g.size := by
  have hlt := above hr hpos hj (List.mem_map_of_mem hmem)
  rw [(hj.frame _ (Nat.ne_of_gt hlt)).2, hf.size g (List.mem_append_right _ (hj.sub g hmem))]

theorem Joined.fin_le (hj : Joined base b r h h₁ c r') : b.fin ≤ c.fin := by
  have := hj.le
  rw [Block.fin, Block.fin, hj.addr]
  omega

theorem tiles_front (hj : Joined base b r h h₁ c r') {ts : List (ℕ × ℕ)} {S : ℕ → Prop}
    (ht : Tiles (b.interval :: (l ++ r).map Block.interval ++ ts) S) :
    Tiles (c.interval :: r'.map Block.interval ++ (l.map Block.interval ++ ts)) S := by
  refine hj.tiles _ S (ht.perm ?_)
  rw [List.map_append]
  exact ((perm_middle _ _ _).cons b.interval).symm

variable (hf : FreeList base h (l ++ r)) (hl : ∀ f ∈ l, f.fin ≤ b.addr)
  (hr : ∀ g ∈ r, b.fin ≤ g.addr) (hpos : 0 < b.size) (hbase : base < b.addr) (hj : Joined base b r h h₁ c r')
include hf hl hr hpos hbase hj

/-- The path up to the block, when the last link of it is changed. -/
theorem path_to {ptr : ℕ → ℕ} (hptr : ∀ y, y ≠ lastNode base (l.map Block.addr) → ptr y = h₁.ptr y) :
    Path ptr base (l.map Block.addr) (ptr (lastNode base (l.map Block.addr))) := by
  have hcycle := hf.cycle
  have hnodup := hf.nodup
  rw [List.map_append] at hcycle hnodup
  refine hcycle.before.retarget (hnodup.sublist ?_) fun y hy hne => ?_
  · exact List.Sublist.cons_cons base (List.sublist_append_left _ _)
  · rw [hptr y hne, (hj.frame y (Nat.ne_of_lt (below hf hl hbase hy))).1]

/-- The block before is not touched. -/
theorem freed_apart (hne : ∀ f ∈ l, f.fin < b.addr) :
    Freed base b (l ++ r) h { h₁.setPtr (lastNode base (l.map Block.addr)) b.addr with
      freep := lastNode base (l.map Block.addr) } (l ++ c :: r') := by
  have hplt := hf.lastNode_lt hl hr hpos hbase
  have hmem := lastNode_mem base (l.map Block.addr)
  have hpath : Path (Function.update h₁.ptr (lastNode base (l.map Block.addr)) b.addr) base (l.map Block.addr) _ :=
    path_to hf hl hr hpos hbase hj fun y hy => update_of_ne hy _ _
  rw [update_self] at hpath
  have happ := List.pairwise_append.mp hf.apart
  generalize lastNode base (l.map Block.addr) = p at hplt hmem hpath ⊢
  refine ⟨⟨?_, ?_, ?_, ?_, ?_, ?_, ?_⟩, ?_, fun ts S ht => ?_, ?_, ?_, fun a ha hab hnot => ?_, hj.rest.2⟩
  · rw [List.map_append, List.map_cons, hj.addr]
    refine Path.append.mpr ⟨hpath, hj.path.congr fun y hy => update_of_ne ?_ _ _⟩
    obtain rfl | hy := List.mem_cons.mp hy
    · exact Nat.ne_of_gt hplt
    · exact Nat.ne_of_gt (Nat.lt_trans hplt (above hr hpos hj hy))
  · exact (hj.frame base (Nat.ne_of_lt hbase)).2.trans hf.zero
  · exact List.forall_mem_append.mpr ⟨fun f hmem => size_below hf hl hbase hj hmem,
      List.forall_mem_cons.mpr ⟨by rw [hj.addr]; exact hj.size, fun g hmem => size_above hf hr hpos hj hmem⟩⟩
  · exact List.forall_mem_append.mpr ⟨fun f hmem => hf.pos f (List.mem_append_left _ hmem),
      List.forall_mem_cons.mpr ⟨Nat.lt_of_lt_of_le hpos hj.le, fun g hmem =>
        hf.pos g (List.mem_append_right _ (hj.sub g hmem))⟩⟩
  · exact List.forall_mem_append.mpr ⟨fun f hmem => hf.above f (List.mem_append_left _ hmem),
      List.forall_mem_cons.mpr ⟨by rw [hj.addr]; exact hbase, fun g hmem =>
        hf.above g (List.mem_append_right _ (hj.sub g hmem))⟩⟩
  · refine List.pairwise_append.mpr ⟨happ.1, List.pairwise_cons.mpr ⟨hj.gap, hj.sorted⟩, fun f hmem g hg => ?_⟩
    obtain rfl | hg := List.mem_cons.mp hg
    · rw [hj.addr]
      exact hne f hmem
    · exact happ.2.2 f hmem g (hj.sub g hg)
  · rw [List.map_append, ← List.cons_append]
    exact List.mem_append_left _ hmem
  · have := hj.total
    rw [units_append, units_append, units_cons]
    omega
  · refine (tiles_front hj ht).perm ?_
    rw [List.map_append, List.map_cons]
    exact perm_middle (c.interval :: r'.map Block.interval) _ _
  · exact ⟨c, List.mem_append_right _ List.mem_cons_self, hj.le⟩
  · exact List.forall_mem_append.mpr ⟨fun f hmem => .inl (List.mem_append_left _ hmem),
      List.forall_mem_cons.mpr ⟨.inr (hj.fin_le), fun g hmem => .inl (List.mem_append_right _ (hj.sub g hmem))⟩⟩
  · have hap : a ≠ p := by
      rintro rfl
      obtain heq | hmem := List.mem_cons.mp hmem
      · exact ha heq
      · rw [List.map_append] at hnot
        exact hnot (List.mem_append_left _ hmem)
    refine ⟨(update_of_ne hap _ _).trans (hj.frame a hab).1, (hj.frame a hab).2⟩

/-- The block before is joined with it. -/
theorem freed_joined {l₀ : List Block} {a : Block} (hl₀ : l = l₀ ++ [a]) (heq : a.fin = b.addr)
    (hsum : units (l ++ r) + b.size < 4294967296) :
    Freed base b (l ++ r) h { (h₁.setSize a.addr (h₁.size a.addr + h₁.size b.addr)).setPtr a.addr (h₁.ptr b.addr) with
      freep := a.addr } (l₀ ++ ⟨a.addr, a.size + c.size⟩ :: r') := by
  have hlast : lastNode base (l.map Block.addr) = a.addr := by
    rw [hl₀, List.map_append]
    exact lastNode_concat _ _ _
  have hplt := hf.lastNode_lt hl hr hpos hbase
  have hpath : Path (Function.update h₁.ptr (lastNode base (l.map Block.addr)) (h₁.ptr b.addr)) base (l.map Block.addr) _ :=
    path_to hf hl hr hpos hbase hj fun y hy => update_of_ne hy _ _
  have hmem : a ∈ l := hl₀ ▸ List.mem_append_right _ List.mem_cons_self
  have hsize := size_below hf hl hbase hj hmem
  have hfin : (⟨a.addr, a.size + c.size⟩ : Block).fin = c.fin := by
    have := hj.addr
    unfold Block.fin at heq ⊢
    dsimp only
    omega
  have htotal := hj.total
  have hsplit : units l = units l₀ + a.size := by
    rw [hl₀, units_append, units_cons]
    rfl
  have happ := List.pairwise_append.mp hf.apart
  have hl' : (l₀ ++ [a]).Pairwise fun f g => f.fin < g.addr := hl₀ ▸ happ.1
  have hapl := List.pairwise_append.mp hl'
  have hsub : ∀ f ∈ l₀, f ∈ l := fun f hmem => hl₀ ▸ List.mem_append_left _ hmem
  rw [hlast] at hplt
  -- no other node is at that address
  have hne₀ : ∀ f ∈ l₀, f.addr ≠ a.addr := fun f hmem => by
    have := hapl.2.2 f hmem a List.mem_cons_self
    have := Block.addr_lt_fin (hf.pos f (List.mem_append_left _ (hsub f hmem)))
    omega
  have hner : ∀ y ∈ r'.map Block.addr, y ≠ a.addr := fun y hy =>
    Nat.ne_of_gt (Nat.lt_trans hplt (above hr hpos hj hy))
  refine ⟨⟨?_, ?_, ?_, ?_, ?_, ?_, ?_⟩, ?_, fun ts S ht => ?_, ?_, ?_, fun x hx hxb hnot => ?_, hj.rest.2⟩
  · have haddr : (l₀ ++ ⟨a.addr, a.size + c.size⟩ :: r').map Block.addr = l.map Block.addr ++ r'.map Block.addr := by
      rw [hl₀, List.map_append, List.map_append, List.map_cons, List.append_assoc]
      rfl
    rw [haddr, ← hlast]
    refine hpath.join (hj.path.restart (update_self _ _ _) fun y hy => update_of_ne ?_ _ _)
    rw [hlast]
    exact hner y hy
  · have hne : base ≠ a.addr := Nat.ne_of_lt (hf.above a (List.mem_append_left _ hmem))
    exact (update_of_ne hne _ _).trans ((hj.frame base (Nat.ne_of_lt hbase)).2.trans hf.zero)
  · refine List.forall_mem_append.mpr ⟨fun f hmem => ?_, List.forall_mem_cons.mpr ⟨?_, fun g hmem => ?_⟩⟩
    · exact (update_of_ne (hne₀ f hmem) _ _).trans (size_below hf hl hbase hj (hsub f hmem))
    · change Function.update h₁.size a.addr _ a.addr = _
      rw [units_append] at hsum
      rw [update_self, hsize, hj.size, Nat.mod_eq_of_lt (by omega)]
    · exact (update_of_ne (hner _ (List.mem_map_of_mem hmem)) _ _).trans (size_above hf hr hpos hj hmem)
  · exact List.forall_mem_append.mpr ⟨fun f hmem => hf.pos f (List.mem_append_left _ (hsub f hmem)),
      List.forall_mem_cons.mpr ⟨Nat.lt_of_lt_of_le (Nat.lt_of_lt_of_le hpos hj.le) (Nat.le_add_left _ _), fun g hmem =>
        hf.pos g (List.mem_append_right _ (hj.sub g hmem))⟩⟩
  · exact List.forall_mem_append.mpr ⟨fun f hmem => hf.above f (List.mem_append_left _ (hsub f hmem)),
      List.forall_mem_cons.mpr ⟨hf.above a (List.mem_append_left _ hmem), fun g hmem =>
        hf.above g (List.mem_append_right _ (hj.sub g hmem))⟩⟩
  · refine List.pairwise_append.mpr ⟨hapl.1, List.pairwise_cons.mpr ⟨fun g hg => hfin ▸ hj.gap g hg, hj.sorted⟩,
      fun f hmem => List.forall_mem_cons.mpr ⟨hapl.2.2 f hmem a List.mem_cons_self, fun g hg => ?_⟩⟩
    exact happ.2.2 f (hsub f hmem) g (hj.sub g hg)
  · rw [List.map_append, List.map_cons]
    exact List.mem_cons_of_mem _ (List.mem_append_right _ List.mem_cons_self)
  · rw [units_append, units_cons, units_append]
    dsimp only
    omega
  · have hjoin : Tiles (a.interval :: c.interval :: (r'.map Block.interval ++ (l₀.map Block.interval ++ ts))) S := by
      refine (tiles_front hj ht).perm ?_
      rw [hl₀, List.map_append, List.append_assoc, ← List.append_assoc]
      refine List.perm_middle.trans (.of_eq ?_)
      rw [List.append_assoc]
      rfl
    rw [Block.interval, Block.interval, heq, hj.addr, ← hfin] at hjoin
    rw [List.map_append, List.map_cons]
    exact hjoin.paste.perm (perm_middle (_ :: _) _ _)
  · exact ⟨_, List.mem_append_right _ List.mem_cons_self, Nat.le_trans hj.le (Nat.le_add_left _ _)⟩
  · refine List.forall_mem_append.mpr ⟨fun f hmem => .inl (List.mem_append_left _ (hsub f hmem)),
      List.forall_mem_cons.mpr ⟨.inr ?_, fun g hmem => .inl (List.mem_append_right _ (hj.sub g hmem))⟩⟩
    rw [hfin]
    exact hj.fin_le
  · have hxa : x ≠ a.addr := by
      rintro rfl
      rw [List.map_append] at hnot
      exact hnot (List.mem_append_left _ (List.mem_map_of_mem hmem))
    exact ⟨(update_of_ne hxa _ _).trans (hj.frame x hxb).1,
      (update_of_ne hxa _ _).trans (hj.frame x hxb).2⟩

end Free

/-- `free` of a block that is not in the free list, and does not overlap with it. -/
theorem free_spec (hf : FreeList base h fs) (hsize : h.size b.addr = b.size) (hpos : 0 < b.size) (hbase : base < b.addr)
    (hb : ∀ f ∈ fs, Apart f.interval b.interval) (hsum : units fs + b.size < 4294967296) {fuel : ℕ}
    (hfuel : fs.length + 1 < fuel) :
    ∃ h' fs', free fuel (b.addr + HDR) h = some h' ∧ Freed base b fs h h' fs' := by
  obtain ⟨l, r, rfl, hl, hr⟩ := hf.split hb
  -- the search
  have hp : lastNode base (l.map Block.addr) ∈ base :: (l ++ r).map Block.addr := by
    rw [List.map_append, ← List.cons_append]
    exact List.mem_append_left _ (lastNode_mem _ _)
  obtain ⟨nodes, hcycle, hperm⟩ := hf.cycle.rotate hf.freep
  have hlen : nodes.length = (l ++ r).length := by
    have := hperm.length_eq
    rw [List.length_cons, List.length_cons, List.length_map] at this
    exact Nat.succ.inj this
  have hseek := seek_cycle hcycle (hperm.mem_iff.mpr hp)
    (fun y hy => hf.around_iff hl hr hpos hbase (hperm.mem_iff.mp hy)) (show nodes.length + 1 < fuel by omega)
  have hrun := free_eq hseek
  -- the joins
  have hcycle' := hf.cycle
  rw [List.map_append] at hcycle'
  rw [units_append] at hsum
  obtain ⟨c, r', hj⟩ := joinNext_joined hcycle'.after hsize hpos hr (List.pairwise_append.mp hf.apart).2.1 hbase
    (fun g hg => hf.size g (List.mem_append_right _ hg)) (fun g hg => hf.pos g (List.mem_append_right _ hg)) (by omega)
  generalize joinNext h b.addr (h.ptr (lastNode base (l.map Block.addr))) = h₁ at hrun hj
  have hplt := hf.lastNode_lt hl hr hpos hbase
  have hsize₁ := (hj.frame _ (Nat.ne_of_lt hplt)).2
  obtain rfl | ⟨l₀, a, rfl⟩ := List.eq_nil_or_concat l
  · rw [joinPrev, if_neg (by rw [hsize₁]; change ¬ base + 16 * h.size base = _; rw [hf.zero]; omega)] at hrun
    exact ⟨_, _, hrun, freed_apart hf hl hr hpos hbase hj fun f hf => by cases hf⟩
  · rw [List.concat_eq_append] at *
    have hlast : lastNode base ((l₀ ++ [a]).map Block.addr) = a.addr := by
      rw [List.map_append]
      exact lastNode_concat _ _ _
    have hmem : a ∈ l₀ ++ [a] := List.mem_append_right _ List.mem_cons_self
    rw [hlast, hf.size a (List.mem_append_left _ hmem)] at hsize₁
    by_cases heq : a.fin = b.addr
    · rw [joinPrev, hlast, if_pos (by rw [hsize₁]; exact heq)] at hrun
      rw [← units_append] at hsum
      exact ⟨_, _, hrun, freed_joined hf hl hr hpos hbase hj rfl heq hsum⟩
    · rw [joinPrev, if_neg (by rw [hlast, hsize₁]; exact heq)] at hrun
      refine ⟨_, _, hrun, freed_apart hf hl hr hpos hbase hj fun f hmemf => ?_⟩
      obtain hmemf | hmemf := List.mem_append.mp hmemf
      · have hlt := (List.pairwise_append.mp (List.pairwise_append.mp hf.apart).1).2.2 f hmemf a List.mem_cons_self
        have := Block.addr_lt_fin (hf.pos a (List.mem_append_left _ hmem))
        have := hl a hmem
        omega
      · obtain rfl := List.mem_singleton.mp hmemf
        exact Nat.lt_of_le_of_ne (hl f hmem) heq

end Umalloc

end Xv6
