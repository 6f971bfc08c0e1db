import Xv6.Ends
import Xv6.Radix
import Xv6.Vm

/-!
# Page tables as maps

A page table of the RISC-V is a radix tree whose pages are physical pages. Read as a map, it takes a page of virtual
memory to a physical page and flags (`Phys.leaf`); what it takes up is the pages of the tree
(`Phys.nodes`). `walk` finds the slot of an address, and with `alloc` set it may take pages from the free list into
the tree, which changes the map nowhere (`walkFrom_grows`).
-/

set_option linter.unusedSectionVars false

namespace Xv6

/-! ## Entries -/

/-- The page and the flags of an entry, if it is valid. -/
def decode (x : ℕ) : Option (ℕ × ℕ) :=
  if x &&& PTE_V = 0 then none else some (PTE2PA x, PTE_FLAGS x)

section Entry

variable {p f b : ℕ}

theorem encode_eq (hf : f < 1024) : PA2PTE p ||| f = p * 1024 + f := by
  rw [PA2PTE, ← Nat.shiftLeft_add_eq_or_of_lt (i := 10) (by simpa using hf), Nat.shiftLeft_eq]

theorem encode_lt (hp : p < 17592186044416) (hf : f < 1024) : PA2PTE p ||| f < 18446744073709551616 := by
  rw [encode_eq hf]
  omega

theorem and_encode (hb : b < 1024) : (PA2PTE p ||| f) &&& b = f &&& b := by
  refine Nat.eq_of_testBit_eq fun i => ?_
  simp only [PA2PTE, Nat.testBit_and, Nat.testBit_or, Nat.testBit_shiftLeft]
  by_cases hi : 10 ≤ i
  · have hbi : b.testBit i = false :=
      Nat.testBit_lt_two_pow (Nat.lt_of_lt_of_le hb (Nat.pow_le_pow_right (n := 2) (by decide) hi))
    simp [hbi]
  · simp [hi]

theorem decode_encode (hf : f < 1024) (hv : f &&& PTE_V ≠ 0) : decode (PA2PTE p ||| f) = some (p, f) := by
  have hpage : PTE2PA (PA2PTE p ||| f) = p := by
    rw [encode_eq hf, PTE2PA, Nat.shiftRight_eq_div_pow]
    omega
  have hflags : PTE_FLAGS (PA2PTE p ||| f) = f := by
    rw [PTE_FLAGS, and_encode (by decide), show 0x3ff = 2 ^ 10 - 1 from rfl, Nat.and_two_pow_sub_one_eq_mod]
    omega
  rw [decode, and_encode (by decide), if_neg hv, hpage, hflags]

theorem decode_zero : decode 0 = none := by
  simp [decode]

end Entry

/-! ## Slots -/

section PX

variable {v v' : ℕ}

theorem PX_page (level v : ℕ) : (PX level (v * PGSIZE)).val = v / 512 ^ level % 512 := by
  rw [PX]
  dsimp only
  congr 1
  rw [Nat.shiftRight_eq_div_pow, Nat.pow_add, Nat.pow_mul, ← Nat.div_div_eq_div_mul]
  congr 1
  exact Nat.mul_div_cancel _ (by decide)

theorem eq_of_PX (hv : v < 134217728) (hv' : v' < 134217728)
    (h : ∀ level, level ≤ 2 → PX level (v * PGSIZE) = PX level (v' * PGSIZE)) : v = v' := by
  have hmod : ∀ level, level ≤ 2 → v / 512 ^ level % 512 = v' / 512 ^ level % 512 := by
    intro level hl
    have := congrArg Fin.val (h level hl)
    rwa [PX_page, PX_page] at this
  have h0 := hmod 0 (by omega)
  have h1 := hmod 1 (by omega)
  have h2 := hmod 2 (by omega)
  norm_num at h0 h1 h2
  omega

end PX

namespace Phys

variable {m m' : Phys} {t u l p x : ℕ} {i j : Fin 512}

@[simp] theorem setPage_page_self (b : Bytes PGSIZE) : (m.setPage p b).page p = b :=
  Function.update_self ..

theorem setPage_page_of_ne (b : Bytes PGSIZE) (h : u ≠ p) : (m.setPage p b).page u = m.page u :=
  Function.update_of_ne h ..

@[simp] theorem setPage_freelist (b : Bytes PGSIZE) : (m.setPage p b).freelist = m.freelist := rfl

@[simp] theorem setPage_layout (b : Bytes PGSIZE) : (m.setPage p b).layout = m.layout := rfl

@[simp] theorem setPage_refused (b : Bytes PGSIZE) : (m.setPage p b).refused = m.refused := rfl

@[simp] theorem setPte_freelist : (m.setPte t i x).freelist = m.freelist := rfl

@[simp] theorem setPte_layout : (m.setPte t i x).layout = m.layout := rfl

@[simp] theorem setPte_refused : (m.setPte t i x).refused = m.refused := rfl

theorem setPte_page_of_ne (h : u ≠ t) : (m.setPte t i x).page u = m.page u :=
  setPage_page_of_ne _ h

theorem pte_congr (h : m'.page t = m.page t) : m'.pte t i = m.pte t i := by
  rw [pte, pte, h]

theorem pte_setPte_self (hx : x < 18446744073709551616) : (m.setPte t i x).pte t i = x := by
  have hoff : 8 * (i : ℕ) + 8 ≤ 4096 := by omega
  rw [pte, setPte, setPage_page_self, Bytes.getLE_setLE _ _ hoff]
  exact Nat.mod_eq_of_lt hx

theorem pte_setPte_of_ne (h : j ≠ i) : (m.setPte t i x).pte t j = m.pte t j := by
  have hne : (j : ℕ) ≠ i := fun heq => h (Fin.ext heq)
  rw [pte, setPte, setPage_page_self, Bytes.getLE_setLE_of_disjoint _ _ (by omega), pte]

theorem pte_of_zero (h : m.page t = filled 0) : m.pte t i = 0 := by
  rw [pte, h]
  exact Bytes.getLE_zero _ _

/-! ## Trees -/

/-- The page that a valid entry leads to. -/
def child (m : Phys) (t : ℕ) (i : Fin 512) : Option ℕ :=
  (decode (m.pte t i)).map Prod.fst

/-- The pages of the page table of `l` levels below `t`. -/
def nodes (m : Phys) (l t : ℕ) : Multiset ℕ :=
  Radix.nodes m.child l t

/-- The page and the flags that the page table has for `va`. -/
def leaf (m : Phys) (l t va : ℕ) : Option (ℕ × ℕ) :=
  (Radix.table m.child PX l t va).bind fun u => decode (m.pte u (PX 0 va))

theorem child_congr (h : m'.page t = m.page t) : m'.child t = m.child t := by
  funext i
  rw [child, child, pte_congr h]

theorem nodes_congr (h : ∀ u ∈ m.nodes l t, m'.page u = m.page u) : m'.nodes l t = m.nodes l t :=
  Radix.nodes_congr fun u hu => child_congr (h u (Radix.mem_nodes.mpr (Or.inl hu)))

theorem leaf_congr (h : ∀ u ∈ m.nodes l t, m'.page u = m.page u) (va : ℕ) : m'.leaf l t va = m.leaf l t va := by
  have htable : Radix.table m'.child PX l t va = Radix.table m.child PX l t va :=
    Radix.table_congr fun u hu => child_congr (h u (Radix.mem_nodes.mpr (Or.inl hu)))
  rw [leaf, leaf, htable]
  refine Option.bind_congr fun u hu => ?_
  rw [pte_congr (h u (Radix.mem_nodes.mpr (Or.inr (Radix.table_mem hu))))]

theorem leaf_succ (l t va : ℕ) :
    m.leaf (l + 1) t va = (m.child t (PX (l + 1) va)).bind fun c => m.leaf l c va := by
  rw [leaf, Radix.table]
  cases m.child t (PX (l + 1) va) <;> rfl

/-- A page of zeros is a tree of its own, with an empty map. -/
theorem nodes_of_zero (h : m.page t = filled 0) (l : ℕ) : m.nodes l t = {t} := by
  cases l with
  | zero => exact Radix.nodes_zero t
  | succ l =>
    have hnone : ∀ i, m.child t i = none := fun i => by rw [child, pte_of_zero h, decode_zero]; rfl
    simp [nodes, Radix.nodes_succ, hnone]

theorem leaf_of_zero (h : m.page t = filled 0) (l va : ℕ) : m.leaf l t va = none := by
  cases l with
  | zero =>
    rw [leaf, Radix.table, Option.bind_some, pte_of_zero h, decode_zero]
  | succ l =>
    rw [leaf_succ, child, pte_of_zero h, decode_zero]
    rfl

/-- The entries of interior pages have no flags but `PTE_V`. -/
def Plain (m : Phys) (l t : ℕ) : Prop :=
  ∀ u ∈ Radix.inner m.child l t, ∀ i e, decode (m.pte u i) = some e → e.2 = PTE_V

/-- A page table and the free list have no page in common, and none twice. -/
structure Tree (m : Phys) (l t : ℕ) : Prop where
  nodup : (m.nodes l t + m.freelist).Nodup
  range : ∀ p ∈ m.nodes l t + m.freelist, m.layout.endPage ≤ p ∧ p < PHYSTOP / PGSIZE
  plain : m.Plain l t

/-- Pages of the free list have come into the tree; the map is the same. -/
structure Grown (l t : ℕ) (m m' : Phys) : Prop where
  total : m'.nodes l t + m'.freelist = m.nodes l t + m.freelist
  frame : ∀ p, p ∉ m.nodes l t + m.freelist → m'.page p = m.page p
  leaf : ∀ va, m'.leaf l t va = m.leaf l t va
  plain : m'.Plain l t
  layout : m'.layout = m.layout
  refused : m.refused = true → m'.refused = true

namespace Tree

theorem lt (ht : m.Tree l t) (hp : p ∈ m.nodes l t + m.freelist) : p < 557056 := by
  have h := (ht.range p hp).2
  exact h

theorem grown (ht : m.Tree l t) (hg : Grown l t m m') : m'.Tree l t := by
  refine ⟨?_, ?_, hg.plain⟩
  · rw [hg.total]
    exact ht.nodup
  · rw [hg.total, hg.layout]
    exact ht.range

end Tree

theorem Grown.refl (hp : m.Plain l t) : Grown l t m m :=
  ⟨rfl, fun _ _ => rfl, fun _ => rfl, hp, rfl, id⟩

theorem Plain.congr (hp : m.Plain l t) (h : ∀ u ∈ m.nodes l t, m'.page u = m.page u) : m'.Plain l t := by
  have hinner : Radix.inner m'.child l t = Radix.inner m.child l t :=
    (Radix.inner_outer_congr fun w hw => child_congr (h w (Radix.mem_nodes.mpr (Or.inl hw)))).1
  intro u hu i e he
  rw [hinner] at hu
  rw [pte_congr (h u (Radix.mem_nodes.mpr (Or.inl hu)))] at he
  exact hp u hu i e he

theorem Grown.of_eq (hp : m.Plain l t) (hfree : m'.freelist = m.freelist) (hpage : m'.page = m.page)
    (hlayout : m'.layout = m.layout) (hrefused : m.refused = true → m'.refused = true) : Grown l t m m' where
  total := by rw [hfree, nodes_congr fun u _ => congrFun hpage u]
  frame p _ := congrFun hpage p
  leaf := leaf_congr fun u _ => congrFun hpage u
  plain := hp.congr fun u _ => congrFun hpage u
  layout := hlayout
  refused := hrefused

theorem Grown.trans {m₁ m₂ : Phys} (h₁ : Grown l t m m₁) (h₂ : Grown l t m₁ m₂) : Grown l t m m₂ where
  total := h₂.total.trans h₁.total
  frame p hp := by
    rw [h₂.frame p (by rwa [h₁.total]), h₁.frame p hp]
  leaf va := (h₂.leaf va).trans (h₁.leaf va)
  plain := h₂.plain
  layout := h₂.layout.trans h₁.layout
  refused h := h₂.refused (h₁.refused h)

section Descend

variable {c d : ℕ} (ht : m.Tree (l + 1) t) (hc : m.child t i = some c)
include ht hc

theorem Tree.sub_le : m.nodes l c + m.freelist ≤ m.nodes (l + 1) t + m.freelist :=
  Multiset.add_le_add_right (Radix.nodes_le hc)

/-- A subtree is a tree. -/
theorem Tree.sub : m.Tree l c where
  nodup := Multiset.nodup_of_le (ht.sub_le hc) ht.nodup
  range p hp := ht.range p (Multiset.mem_of_le (ht.sub_le hc) hp)
  plain u hu := ht.plain u (Multiset.mem_of_le (Radix.inner_le hc) hu)

theorem Tree.root_not_mem : t ∉ m.nodes l c + m.freelist := by
  obtain ⟨hnodes, -, hdisj⟩ := Multiset.nodup_add.mp ht.nodup
  rw [Multiset.mem_add, not_or]
  exact ⟨Radix.root_not_mem hnodes hc, Multiset.disjoint_left.mp hdisj (Radix.root_mem _ _)⟩

/-- Another subtree has no page in common with this one and the free list. -/
theorem Tree.other_not_mem (hji : j ≠ i) (hd : m.child t j = some d) (hu : u ∈ m.nodes l d) :
    u ∉ m.nodes l c + m.freelist := by
  obtain ⟨hnodes, -, hdisj⟩ := Multiset.nodup_add.mp ht.nodup
  rw [Multiset.mem_add, not_or]
  refine ⟨Multiset.disjoint_left.mp (Radix.disjoint_of_ne hnodes hji hd hc) hu, ?_⟩
  exact Multiset.disjoint_left.mp hdisj (Multiset.mem_of_le (Radix.nodes_le hd) hu)

/-- What is done in a subtree is done in the tree. -/
theorem Grown.up (hg : Grown l c m m') : Grown (l + 1) t m m' := by
  have hroot : m'.child t = m.child t := child_congr (hg.frame t (ht.root_not_mem hc))
  have hother : ∀ j d, j ≠ i → m.child t j = some d → ∀ u ∈ m.nodes l d, m'.page u = m.page u :=
    fun j d hji hd u hu => hg.frame u (ht.other_not_mem hc hji hd hu)
  refine ⟨?_, fun p hp => ?_, fun va => ?_, ?_, hg.layout, hg.refused⟩
  · have hupd : m'.nodes (l + 1) t + m.nodes l c = m.nodes (l + 1) t + m'.nodes l c := by
      have hupd := Radix.nodes_update (i := i) (fun j _ => congrFun hroot j)
        fun j d hji hd => nodes_congr (hother j d hji hd)
      rwa [hroot, hc] at hupd
    refine add_left_cancel (a := m.nodes l c) ?_
    calc m.nodes l c + (m'.nodes (l + 1) t + m'.freelist)
        = m'.nodes (l + 1) t + m.nodes l c + m'.freelist := by abel
      _ = m.nodes (l + 1) t + m'.nodes l c + m'.freelist := congrArg (· + _) hupd
      _ = m.nodes (l + 1) t + (m'.nodes l c + m'.freelist) := add_assoc ..
      _ = m.nodes (l + 1) t + (m.nodes l c + m.freelist) := by rw [hg.total]
      _ = m.nodes l c + (m.nodes (l + 1) t + m.freelist) := by abel
  · exact hg.frame p fun hmem => hp (Multiset.mem_of_le (ht.sub_le hc) hmem)
  · rw [leaf_succ, leaf_succ, hroot]
    refine Option.bind_congr fun d hd => ?_
    by_cases hva : PX (l + 1) va = i
    · rw [hva, hc] at hd
      cases hd
      exact hg.leaf va
    · exact leaf_congr (hother _ d hva hd) va
  · intro u hu j e he
    rw [Radix.mem_inner_succ, hroot] at hu
    obtain rfl | ⟨k, d, hd, hu⟩ := hu
    · rw [pte_congr (hg.frame u (ht.root_not_mem hc))] at he
      exact ht.plain u (Radix.root_mem_inner l u) j e he
    · by_cases hki : k = i
      · rw [hki, hc] at hd
        cases hd
        exact hg.plain u hu j e he
      · exact (ht.sub hd).plain.congr (hother k d hki hd) u hu j e he

end Descend

/-- A page of zeros from the free list is linked to an entry of the root that was not valid. -/
theorem Tree.link {rest : List ℕ} (ht : m.Tree (l + 1) t) (hc : m.child t i = none) (hfree : m.freelist = p :: rest)
    (hfree' : m'.freelist = rest) (hpage : m'.page p = filled 0)
    (hpte : ∀ j, m'.pte t j = if j = i then PA2PTE p ||| PTE_V else m.pte t j)
    (hframe : ∀ u, u ≠ p → u ≠ t → m'.page u = m.page u) (hlayout : m'.layout = m.layout)
    (hrefused : m'.refused = m.refused) : Grown (l + 1) t m m' ∧ m'.child t i = some p := by
  obtain ⟨hnodes, -, hdisj⟩ := Multiset.nodup_add.mp ht.nodup
  have hp : p ∉ m.nodes (l + 1) t := fun hmem =>
    Multiset.disjoint_left.mp hdisj hmem (by rw [hfree]; exact List.mem_cons_self)
  have hself : decode (m'.pte t i) = some (p, PTE_V) := by
    rw [hpte, if_pos rfl]
    exact decode_encode (by decide) (by decide)
  have hnew : m'.child t i = some p := by
    rw [child, hself]
    rfl
  have hrest : ∀ j, j ≠ i → m'.child t j = m.child t j := fun j hj => by
    rw [child, child, hpte, if_neg hj]
  have hother : ∀ j d, j ≠ i → m.child t j = some d → ∀ u ∈ m.nodes l d, m'.page u = m.page u := by
    intro j d _ hd u hu
    refine hframe u ?_ ?_
    · rintro rfl
      exact hp (Multiset.mem_of_le (Radix.nodes_le hd) hu)
    · rintro rfl
      exact Radix.root_not_mem hnodes hd hu
  refine ⟨⟨?_, fun u hu => ?_, fun va => ?_, ?_, hlayout, fun h => hrefused.trans h⟩, hnew⟩
  · have hupd := Radix.nodes_update (i := i) hrest fun j d hji hd => nodes_congr (hother j d hji hd)
    rw [hc, hnew, Option.elim_none, Option.elim_some, add_zero] at hupd
    change m'.nodes (l + 1) t = m.nodes (l + 1) t + m'.nodes l p at hupd
    rw [hupd, nodes_of_zero hpage, hfree, hfree', add_assoc]
    rfl
  · rw [Multiset.mem_add, not_or] at hu
    refine hframe u ?_ ?_
    · rintro rfl
      exact hu.2 (by rw [hfree]; exact List.mem_cons_self)
    · rintro rfl
      exact hu.1 (Radix.root_mem _ _)
  · rw [leaf_succ, leaf_succ]
    by_cases hva : PX (l + 1) va = i
    · rw [hva, hc, hnew, Option.bind_some, leaf_of_zero hpage]
      rfl
    · rw [hrest _ hva]
      exact Option.bind_congr fun d hd => leaf_congr (hother _ d hva hd) va
  · intro u hu j e he
    obtain rfl | ⟨k, d, hd, hu⟩ := Radix.mem_inner_succ.mp hu
    · by_cases hj : j = i
      · rw [hj, hself] at he
        rw [← Option.some.inj he]
      · rw [hpte, if_neg hj] at he
        exact ht.plain u (Radix.root_mem_inner l u) j e he
    · by_cases hk : k = i
      · rw [hk, hnew] at hd
        cases hd
        have hu : u ∈ m'.nodes l p := Radix.mem_nodes.mpr (Or.inl hu)
        rw [nodes_of_zero hpage, Multiset.mem_singleton] at hu
        rw [hu, pte_of_zero hpage, decode_zero] at he
        cases he
      · rw [hrest k hk] at hd
        exact (ht.sub hd).plain.congr (hother k d hk hd) u hu j e he

/-- A bottom page is no interior page. -/
theorem Tree.ne_table (ht : m.Tree l t) {va : ℕ} (hu : Radix.table m.child PX l t va = some u) :
    ∀ w ∈ Radix.inner m.child l t, w ≠ u := by
  have hnodes := (Multiset.nodup_add.mp ht.nodup).1
  rw [nodes, Radix.nodes_eq] at hnodes
  rintro w hw rfl
  exact Multiset.disjoint_left.mp (Multiset.nodup_add.mp hnodes).2.2 hw (Radix.table_mem hu)

/-- An entry of a bottom page is set : the pages are the same, and the map changes at that slot only. -/
theorem Tree.setLeaf (ht : m.Tree l t) {va : ℕ} (hu : Radix.table m.child PX l t va = some u)
    (hx : x < 18446744073709551616) :
    (m.setPte u (PX 0 va) x).nodes l t = m.nodes l t ∧ (m.setPte u (PX 0 va) x).Plain l t ∧
      ∀ va', (m.setPte u (PX 0 va) x).leaf l t va' =
        if ∀ j, j ≤ l → PX j va' = PX j va then decode x else m.leaf l t va' := by
  have hinner := ht.ne_table hu
  have hchild : ∀ w ∈ Radix.inner m.child l t, (m.setPte u (PX 0 va) x).child w = m.child w :=
    fun w hw => child_congr (setPte_page_of_ne (hinner w hw))
  refine ⟨Radix.nodes_congr hchild, ?_, fun va' => ?_⟩
  · intro w hw i e he
    rw [(Radix.inner_outer_congr hchild).1] at hw
    rw [pte_congr (setPte_page_of_ne (hinner w hw))] at he
    exact ht.plain w hw i e he
  · rw [leaf, leaf, Radix.table_congr hchild]
    split_ifs with hpx
    · rw [Radix.table_eq_of_digit fun j _ hj => hpx j hj, hu, Option.bind_some, hpx 0 (Nat.zero_le l),
        pte_setPte_self hx]
    · refine Option.bind_congr fun w hw => congrArg decode ?_
      by_cases hwu : w = u
      · rw [hwu] at hw ⊢
        refine pte_setPte_of_ne fun h0 => hpx fun j hj => ?_
        obtain rfl | hpos := Nat.eq_zero_or_pos j
        · exact h0
        · exact Radix.digit_eq_of_table (Multiset.nodup_add.mp ht.nodup).1 hw hu j hpos hj
      · exact pte_congr (setPte_page_of_ne hwu)

theorem child_eq (m : Phys) (t : ℕ) (i : Fin 512) :
    m.child t i = if m.pte t i &&& PTE_V = 0 then none else some (PTE2PA (m.pte t i)) := by
  rw [child, decode]
  split_ifs <;> rfl

end Phys

/-! ## walk -/

open Phys

variable {m m' : Phys} {l t : ℕ}

/-- Without `alloc`, `walk` finds the slot of an address, if there is one. -/
theorem walkFrom_find (va : ℕ) (m : Phys) : ∀ l t,
    walkFrom va false l t m = .ok ((Radix.table m.child PX l t va).map fun u => (u, PX 0 va), m)
  | 0, t => rfl
  | l + 1, t => by
    rw [walkFrom, Radix.table, child_eq]
    by_cases hv : m.pte t (PX (l + 1) va) &&& PTE_V = 0
    · rw [if_pos hv]
      change (if _ then _ else _ : VmM _) m = _
      rw [if_neg (by simpa using hv)]
      rfl
    · rw [if_neg hv]
      change (if _ then _ else _ : VmM _) m = _
      rw [if_pos hv]
      exact walkFrom_find va m l _

/-- What `kalloc` does. -/
theorem kalloc_ends (m : Phys) : Ends kalloc m fun r m' => m'.layout = m.layout ∧ match r with
    | none => m'.freelist = m.freelist ∧ m'.page = m.page ∧ m'.refused = true
    | some p => m.freelist = p :: m'.freelist ∧ m'.page = Function.update m.page p (filled 5) ∧
      m'.refused = m.refused := by
  unfold Ends kalloc Phys.grant
  cases m.refusals.headD false with
  | true => exact ⟨none, _, rfl, rfl, rfl, rfl, rfl⟩
  | false =>
    cases hfree : m.freelist with
    | nil => exact ⟨none, _, rfl, rfl, rfl, rfl, rfl⟩
    | cons p rest => exact ⟨some p, _, rfl, rfl, rfl, rfl, rfl⟩

/-- With `alloc`, `walk` finds the slot or runs out of memory; the map stays as it is. -/
theorem walkFrom_grows (va : ℕ) : ∀ l t m, m.Tree l t → Ends (walkFrom va true l t) m fun r m' =>
    Grown l t m m' ∧ match r with
      | none => m'.refused = true
      | some s => ∃ u, Radix.table m'.child PX l t va = some u ∧ s = (u, PX 0 va)
  | 0, t, m, ht => .pure ⟨.refl ht.plain, t, rfl, rfl⟩
  | l + 1, t, m, ht => by
    have hdown : ∀ m₁ : Phys, ∀ c, m₁.Tree (l + 1) t → m₁.child t (PX (l + 1) va) = some c →
        Ends (walkFrom va true l c) m₁ fun r m' => Grown (l + 1) t m₁ m' ∧ match r with
          | none => m'.refused = true
          | some s => ∃ u, Radix.table m'.child PX (l + 1) t va = some u ∧ s = (u, PX 0 va) := by
      intro m₁ c ht hc
      refine (walkFrom_grows va l c m₁ (ht.sub hc)).mono fun r m' h => ?_
      obtain ⟨hg, hr⟩ := h
      have hroot := congrFun (child_congr (hg.frame t (ht.root_not_mem hc))) (PX (l + 1) va)
      refine ⟨hg.up ht hc, ?_⟩
      cases r with
      | none => exact hr
      | some s =>
        obtain ⟨u, hu, hs⟩ := hr
        refine ⟨u, ?_, hs⟩
        rw [Radix.table, hroot, hc]
        exact hu
    rw [walkFrom]
    refine .get_bind ?_
    by_cases hv : m.pte t (PX (l + 1) va) &&& PTE_V = 0
    · rw [if_neg (by simpa using hv), if_neg (by decide)]
      refine .bind (kalloc_ends m) fun r m₁ h => ?_
      obtain ⟨hlayout, h⟩ := h
      cases r with
      | none =>
        obtain ⟨hfree, hpage, hrefused⟩ := h
        exact .pure ⟨.of_eq ht.plain hfree hpage hlayout fun _ => hrefused, hrefused⟩
      | some p =>
        obtain ⟨hfree, hpage, hrefused⟩ := h
        refine .bind (.write (Q := fun _ m₂ => m₂ = m₁.setPage p (filled 0)) rfl) fun _ m₂ h => ?_
        obtain rfl := h
        refine .bind (.write (Q := fun _ m₃ => m₃ = (m₁.setPage p (filled 0)).setPte t (PX (l + 1) va)
          (PA2PTE p ||| PTE_V)) rfl) fun _ m₃ h => ?_
        have hpt : t ≠ p := by
          rintro rfl
          have hdisj := (Multiset.nodup_add.mp ht.nodup).2.2
          exact Multiset.disjoint_left.mp hdisj (Radix.root_mem _ _) (by rw [hfree]; exact List.mem_cons_self)
        have hlt : p < 557056 :=
          ht.lt (Multiset.mem_add.mpr (Or.inr (by rw [hfree]; exact List.mem_cons_self)))
        have hold : ∀ u, u ≠ p → (m₁.setPage p (filled 0)).page u = m.page u := fun u hu => by
          rw [setPage_page_of_ne _ hu, hpage, Function.update_of_ne hu]
        have hpte : ∀ j, m₃.pte t j = if j = PX (l + 1) va then PA2PTE p ||| PTE_V else m.pte t j := by
          intro j
          rw [h]
          split_ifs with hj
          · rw [hj, pte_setPte_self (encode_lt (Nat.lt_trans hlt (by decide)) (by decide))]
          · rw [pte_setPte_of_ne hj, pte_congr (hold t hpt)]
        obtain ⟨hg, hnew⟩ := ht.link (by rw [child_eq, if_pos hv]) hfree (by rw [h]; rfl)
          (by rw [h, setPte_page_of_ne hpt.symm, setPage_page_self]) hpte
          (fun u hup hut => by rw [h, setPte_page_of_ne hut, hold u hup]) (by rw [h]; exact hlayout)
          (by rw [h]; exact hrefused)
        exact (hdown m₃ p (ht.grown hg) hnew).mono fun r m₄ h => ⟨hg.trans h.1, h.2⟩
    · rw [if_pos hv]
      exact hdown m _ ht (by rw [child_eq, if_neg hv])

/-! ## The map of a page table of the kernel -/

namespace Phys

/-- The page and the flags that the page table `t` has for page `v` of virtual memory. -/
def entry (m : Phys) (t v : ℕ) : Option (ℕ × ℕ) :=
  m.leaf 2 t (v * PGSIZE)

/-- Pages of the free list may have come into the page table `t`, and its map is `f`. -/
structure Mapped (t : ℕ) (f : ℕ → Option (ℕ × ℕ)) (m m' : Phys) : Prop where
  total : m'.nodes 2 t + m'.freelist = m.nodes 2 t + m.freelist
  frame : ∀ p, p ∉ m.nodes 2 t + m.freelist → m'.page p = m.page p
  entry : ∀ v, v < 67108864 → m'.entry t v = f v
  plain : m'.Plain 2 t
  layout : m'.layout = m.layout
  refused : m.refused = true → m'.refused = true

theorem Grown.mapped (h : Grown 2 t m m') : Mapped t (m.entry t) m m' :=
  ⟨h.total, h.frame, fun _ _ => h.leaf _, h.plain, h.layout, h.refused⟩

theorem entry_congr (h : ∀ u ∈ m.nodes 2 t, m'.page u = m.page u) (v : ℕ) : m'.entry t v = m.entry t v :=
  leaf_congr h _

end Phys

theorem walk_find {va : ℕ} (hva : va < MAXVA) (t : ℕ) (m : Phys) : Ends (walk t va false) m fun r m' =>
    m' = m ∧ r = (Radix.table m.child PX 2 t va).map fun u => (u, PX 0 va) := by
  rw [walk, if_neg (Nat.not_le.mpr hva)]
  exact ⟨_, _, walkFrom_find va m 2 t, rfl, rfl⟩

theorem walk_grows {va : ℕ} (hva : va < MAXVA) (ht : m.Tree 2 t) : Ends (walk t va true) m fun r m' =>
    Grown 2 t m m' ∧ match r with
      | none => m'.refused = true
      | some s => ∃ u, Radix.table m'.child PX 2 t va = some u ∧ s = (u, PX 0 va) := by
  rw [walk, if_neg (Nat.not_le.mpr hva)]
  exact walkFrom_grows va 2 t m ht

namespace Phys

variable {f g : ℕ → Option (ℕ × ℕ)} {m₁ : Phys} {u v q perm : ℕ}

theorem Mapped.congr (h : Mapped t f m m') (hfg : ∀ v, v < 67108864 → f v = g v) : Mapped t g m m' :=
  ⟨h.total, h.frame, fun v hv => (h.entry v hv).trans (hfg v hv), h.plain, h.layout, h.refused⟩

theorem Mapped.trans (h₁ : Mapped t f m m₁) (h₂ : Mapped t g m₁ m') : Mapped t g m m' where
  total := h₂.total.trans h₁.total
  frame p hp := by
    rw [h₂.frame p (by rwa [h₁.total]), h₁.frame p hp]
  entry := h₂.entry
  plain := h₂.plain
  layout := h₂.layout.trans h₁.layout
  refused h := h₂.refused (h₁.refused h)

theorem Tree.mapped (ht : m.Tree 2 t) (h : Mapped t f m m') : m'.Tree 2 t := by
  refine ⟨?_, ?_, h.plain⟩
  · rw [h.total]
    exact ht.nodup
  · rw [h.total, h.layout]
    exact ht.range

/-- The slot of a page is set, once `walk` has found it. -/
theorem Tree.map_page (ht : m.Tree 2 t) (hg : Grown 2 t m m₁) (hu : Radix.table m₁.child PX 2 t (v * PGSIZE) = some u)
    (hv : v < 67108864) (hq : q < 17592186044416) (hperm : perm ||| PTE_V < 1024) :
    Mapped t (fun w => if w = v then some (q, perm ||| PTE_V) else m.entry t w) m
      (m₁.setPte u (PX 0 (v * PGSIZE)) (PA2PTE q ||| (perm ||| PTE_V))) := by
  obtain ⟨hnodes, hplain, hleaf⟩ := (ht.grown hg).setLeaf hu (encode_lt hq hperm)
  have hmem : u ∈ m₁.nodes 2 t := Radix.mem_nodes.mpr (Or.inr (Radix.table_mem hu))
  refine ⟨?_, fun p hp => ?_, fun w hw => ?_, hplain, hg.layout, hg.refused⟩
  · rw [hnodes]
    exact hg.total
  · rw [← hg.total] at hp
    have hpu : p ≠ u := fun heq => hp (Multiset.mem_add.mpr (Or.inl (heq ▸ hmem)))
    rw [setPte_page_of_ne hpu, hg.frame p (by rwa [← hg.total])]
  · rw [entry, hleaf]
    by_cases hwv : w = v
    · have hall : ∀ j, j ≤ 2 → PX j (w * PGSIZE) = PX j (v * PGSIZE) := fun j _ => by rw [hwv]
      rw [if_pos hall, if_pos hwv]
      exact decode_encode hperm (by simp [PTE_V])
    · have hne : ¬ ∀ j, j ≤ 2 → PX j (w * PGSIZE) = PX j (v * PGSIZE) := fun hall =>
        hwv (eq_of_PX (by omega) (by omega) hall)
      rw [if_neg hne, if_neg hwv]
      exact hg.leaf _

/-- A map, with `n` pages from `v` on mapped to the physical pages from `q` on. -/
def mapRange (f : ℕ → Option (ℕ × ℕ)) (v n q perm : ℕ) (w : ℕ) : Option (ℕ × ℕ) :=
  if v ≤ w ∧ w < v + n then some (q + (w - v), perm ||| PTE_V) else f w

end Phys

/-- The loop of `mappages` goes as far as there is memory for the page table. -/
theorem mappagesFrom_ends {perm : ℕ} (hperm : perm ||| PTE_V < 1024) (n : ℕ) : ∀ {m : Phys} {v q : ℕ}, m.Tree 2 t →
    v + n ≤ 67108864 → q + n ≤ 17592186044416 → (∀ w, v ≤ w → w < v + n → m.entry t w = none) →
    Ends (mappagesFrom t perm n (v * PGSIZE) q) m fun ok m' =>
      if ok then Mapped t (mapRange (m.entry t) v n q perm) m m'
      else m'.refused = true ∧ ∃ k, k < n ∧ Mapped t (mapRange (m.entry t) v k q perm) m m' := by
  induction n with
  | zero =>
    intro m v q ht _ _ _
    exact .pure ((Grown.refl ht.plain).mapped.congr fun w _ => (if_neg (by omega)).symm)
  | succ n ih =>
    intro m v q ht hv hq hnone
    rw [mappagesFrom]
    have hva : v * PGSIZE < MAXVA := by
      change v * 4096 < 274877906944
      omega
    refine .bind (walk_grows hva ht) fun r m₁ h => ?_
    obtain ⟨hg, hr⟩ := h
    cases r with
    | none => exact .pure ⟨hr, 0, Nat.succ_pos n, hg.mapped.congr fun w _ => (if_neg (by omega)).symm⟩
    | some s =>
      obtain ⟨u, hu, rfl⟩ := hr
      have hpte : m₁.pte u (PX 0 (v * PGSIZE)) &&& PTE_V = 0 := by
        have hleaf : m₁.leaf 2 t (v * PGSIZE) = none := (hg.leaf _).trans (hnone v le_rfl (by omega))
        rw [leaf, hu, Option.bind_some, decode] at hleaf
        by_contra hne
        rw [if_neg hne] at hleaf
        cases hleaf
      refine .get_bind ?_
      dsimp only
      rw [if_neg (not_not.mpr hpte)]
      refine .modify_bind ?_
      rw [Nat.or_assoc, ← Nat.succ_mul]
      have hstep := ht.map_page hg hu (show v < 67108864 by omega) (show q < 17592186044416 by omega) hperm
      generalize m₁.setPte u (PX 0 (v * PGSIZE)) (PA2PTE q ||| (perm ||| PTE_V)) = m₂ at hstep
      have hrange : ∀ k w, w < 67108864 → mapRange (m₂.entry t) (v + 1) k (q + 1) perm w =
          mapRange (m.entry t) v (k + 1) q perm w := by
        intro k w hw
        unfold mapRange
        rw [hstep.entry w hw]
        by_cases hwv : w = v
        · rw [if_neg (by omega), if_pos hwv, if_pos (by omega), hwv, Nat.sub_self, Nat.add_zero]
        · rw [if_neg hwv]
          by_cases hin : v + 1 ≤ w ∧ w < v + 1 + k
          · rw [if_pos hin, if_pos (by omega), show q + 1 + (w - (v + 1)) = q + (w - v) by omega]
          · rw [if_neg hin, if_neg (by omega)]
      refine (ih (ht.mapped hstep) (by omega) (by omega) fun w hlo hhi => ?_).mono fun ok m' h => ?_
      · rw [hstep.entry w (by omega), if_neg (by omega), hnone w (by omega) (by omega)]
      · cases ok with
        | true => exact (hstep.trans h).congr (hrange n)
        | false =>
          obtain ⟨hrefused, k, hk, h⟩ := h
          exact ⟨hrefused, k + 1, Nat.succ_lt_succ hk, (hstep.trans h).congr (hrange k)⟩

theorem mappages_eq {n : ℕ} (hn : n ≠ 0) (t v q perm : ℕ) :
    mappages t (v * PGSIZE) (n * PGSIZE) q perm = mappagesFrom t perm n (v * PGSIZE) q := by
  have hsize : n * PGSIZE ≠ 0 := by
    change n * 4096 ≠ 0
    omega
  rw [mappages, if_neg (by rw [Nat.mul_mod_left]; simp), if_neg (by rw [Nat.mul_mod_left]; simp), if_neg hsize,
    Nat.mul_div_cancel n (by decide)]

theorem mappages_range_ends {v n q perm : ℕ} (ht : m.Tree 2 t) (hn : n ≠ 0) (hv : v + n ≤ 67108864)
    (hq : q + n ≤ 17592186044416) (hperm : perm ||| PTE_V < 1024) (hnone : ∀ w, v ≤ w → w < v + n → m.entry t w = none) :
    Ends (mappages t (v * PGSIZE) (n * PGSIZE) q perm) m fun ok m' =>
      if ok then Mapped t (mapRange (m.entry t) v n q perm) m m'
      else m'.refused = true ∧ ∃ k, k < n ∧ Mapped t (mapRange (m.entry t) v k q perm) m m' := by
  rw [mappages_eq hn]
  exact mappagesFrom_ends hperm n ht hv hq hnone

/-- `mappages` of one page. -/
theorem mappages_ends {v q perm : ℕ} (ht : m.Tree 2 t) (hv : v < 67108864) (hnone : m.entry t v = none)
    (hq : q < 557056) (hperm : perm ||| PTE_V < 1024) :
    Ends (mappages t (v * PGSIZE) PGSIZE q perm) m fun ok m' =>
      if ok then Mapped t (fun w => if w = v then some (q, perm ||| PTE_V) else m.entry t w) m m'
      else Mapped t (m.entry t) m m' ∧ m'.refused = true := by
  have hone := mappages_range_ends (n := 1) ht Nat.one_ne_zero hv (Nat.lt_trans hq (by decide)) hperm fun w hlo hhi => by
    rw [show w = v by omega, hnone]
  rw [Nat.one_mul] at hone
  refine hone.mono fun ok m' h => ?_
  cases ok with
  | true =>
    refine Mapped.congr h fun w _ => ?_
    unfold mapRange
    by_cases hwv : w = v
    · rw [if_pos (by omega), if_pos hwv, hwv, Nat.sub_self, Nat.add_zero]
    · rw [if_neg (by omega), if_neg hwv]
  | false =>
    obtain ⟨hrefused, k, hk, h⟩ := h
    exact ⟨h.congr fun w _ => if_neg (by omega), hrefused⟩

end Xv6
