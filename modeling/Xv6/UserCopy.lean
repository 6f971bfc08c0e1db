import Xv6.Reads
import Xv6.UserSpace

/-!
# Copies from user memory

`copyin` and `copyinstr` go page by page. Byte by byte, `copyin` fetches from what the kernel sees of user memory
(`copyin_ends`), while `copyinstr`, which does not call `vmfault`, scans only the pages that are mapped
(`copyinstr_ends`). So they agree on all strings, unless a string runs into a promised page (`copyinstr_copyin`).
-/

namespace Xv6

/-! ## Bytes of pages -/

/-- The byte at an address, of memory that is given by its pages. -/
def peek (S : ℕ → Option (Bytes PGSIZE)) (a : ℕ) : Option UInt8 :=
  (S (a / PGSIZE)).map fun b => b.byte (a % PGSIZE)

section Peek

variable {S : ℕ → Option (Bytes PGSIZE)} {b : Bytes PGSIZE} {v off k a : ℕ}

theorem peek_page (hS : S v = some b) (hoff : off < 4096) : peek S (v * PGSIZE + off) = some (b.byte off) := by
  have hdiv : (v * 4096 + off) / 4096 = v := by omega
  have hmod : (v * 4096 + off) % 4096 = off := by omega
  change (S ((v * 4096 + off) / 4096)).map (fun b => b.byte ((v * 4096 + off) % 4096)) = _
  rw [hdiv, hmod, hS]
  rfl

theorem peek_none (hS : S (a / PGSIZE) = none) : peek S a = none := by
  rw [peek, hS]
  rfl

theorem reads_getBytes (hS : S v = some b) (h : off + k ≤ 4096) :
    Reads (peek S) (v * PGSIZE + off) (b.getBytes off k) := by
  induction k generalizing off with
  | zero => trivial
  | succ k ih =>
    rw [Bytes.getBytes_succ, Reads, Nat.add_assoc]
    exact ⟨peek_page hS (by omega), ih (by omega)⟩

theorem copystrFrom_eq (hS : S v = some b) (h : off + k ≤ 4096) :
    copystrFrom b k off = scanTo (peek S) 0 k (v * PGSIZE + off) := by
  induction k generalizing off with
  | zero => rfl
  | succ k ih =>
    have hpeek := peek_page hS (show off < 4096 by omega)
    rw [copystrFrom]
    split_ifs with hz
    · rw [hz] at hpeek
      rw [scanTo_end hpeek]
    · rw [scanTo_some hpeek hz, ih (by omega), Nat.add_assoc]

end Peek

/-- The part of a range of addresses that is in the first page. -/
theorem first_page (a : ℕ) {len : ℕ} (hlen : len ≠ 0) :
    let off := a - PGROUNDDOWN a
    let k := min (PGSIZE - off) len
    a / PGSIZE * PGSIZE + off = a ∧ off + k ≤ 4096 ∧ 0 < k ∧ k + (len - k) = len ∧
      (len - k = 0 ∨ PGROUNDDOWN a + PGSIZE = a + k) := by
  change a / 4096 * 4096 + (a - a / 4096 * 4096) = a ∧
    a - a / 4096 * 4096 + min (4096 - (a - a / 4096 * 4096)) len ≤ 4096 ∧
    0 < min (4096 - (a - a / 4096 * 4096)) len ∧
    min (4096 - (a - a / 4096 * 4096)) len + (len - min (4096 - (a - a / 4096 * 4096)) len) = len ∧
    (len - min (4096 - (a - a / 4096 * 4096)) len = 0 ∨
      a / 4096 * 4096 + 4096 = a + min (4096 - (a - a / 4096 * 4096)) len)
  omega

/-! ## copyin -/

open Phys

variable {m : Phys} {p : UserProc}

/-- The pages of user memory that are mapped. -/
def Phys.present (m : Phys) (p : UserProc) (v : ℕ) : Option (Bytes PGSIZE) :=
  (m.userPage p.pagetable v).map m.page

namespace Phys

theorem present_of_userPage {v q : ℕ} (h : m.userPage p.pagetable v = some q) :
    m.present p v = some (m.page q) := by
  rw [present, h]
  rfl

theorem peek_present {a : ℕ} {b : UInt8} (h : peek (m.present p) a = some b) : peek (m.seen p) a = some b := by
  rw [peek, present] at h
  rw [peek]
  cases hq : m.userPage p.pagetable (a / PGSIZE) with
  | none =>
    rw [hq] at h
    cases h
  | some q =>
    rw [hq] at h
    rw [seen_of_userPage hq]
    exact h

/-- What is mapped stays as it is when more pages are. -/
theorem Faulted.peek_present {m' : Phys} (hu : m.UserSpace p) (hf : Faulted p.sz p.pagetable m m') {a : ℕ} {b : UInt8}
    (h : peek (m.present p) a = some b) : peek (m'.present p) a = some b := by
  rw [peek] at h ⊢
  cases hq : m.userPage p.pagetable (a / PGSIZE) with
  | none =>
    rw [present, hq] at h
    cases h
  | some q =>
    obtain ⟨hq', hpage⟩ := hf.keeps_page hu hq
    rw [present_of_userPage hq] at h
    rw [present_of_userPage hq', hpage]
    exact h

end Phys

theorem copyinFrom_ends (n : ℕ) : ∀ {m : Phys} (_ : m.UserSpace p) (srcva len : ℕ), len ≤ n →
    Ends (copyinFrom p p.pagetable n srcva len) m fun r m' => Faulted p.sz p.pagetable m m' ∧
      (Reads (peek (m'.present p)) srcva r.2 ∧ r.2.length ≤ len) ∧ (r.1 = true → r.2.length = len) ∧
      (m'.refused = true ∨ r = fetch (peek (m.seen p)) len srcva) := by
  induction n with
  | zero =>
    intro m hu srcva len hlen
    obtain rfl := Nat.le_zero.mp hlen
    exact .pure ⟨.refl hu.space, ⟨trivial, le_rfl⟩, fun _ => rfl, Or.inr rfl⟩
  | succ n ih =>
    intro m hu srcva len hlen
    rw [copyinFrom]
    split_ifs with h0
    · subst h0
      exact .pure ⟨.refl hu.space, ⟨trivial, le_rfl⟩, fun _ => rfl, Or.inr rfl⟩
    obtain ⟨hadd, hoff, hpos, hlen', hnext⟩ := first_page srcva h0
    refine .bind (useraddr_ends hu (srcva / PGSIZE)) fun r m₁ h => ?_
    obtain ⟨hf, hr⟩ := h
    cases r with
    | none =>
      refine .pure ⟨hf, ⟨trivial, Nat.zero_le _⟩, fun h => absurd h Bool.false_ne_true, hr.symm.imp_right fun hnone => ?_⟩
      obtain ⟨len, rfl⟩ := Nat.exists_eq_succ_of_ne_zero h0
      rw [fetch_none (peek_none hnone)]
    | some q =>
      refine .get_bind ?_
      dsimp only at hadd hoff hpos hlen' hnext ⊢
      set off := srcva - PGROUNDDOWN srcva
      set k := min (PGSIZE - off) len
      refine .bind (ih (hu.faulted hf) (PGROUNDDOWN srcva + PGSIZE) (len - k) (by omega))
        fun r m₂ h => ?_
      obtain ⟨hf₂, ⟨hreads₂, hle₂⟩, hall₂, hr₂⟩ := h
      rw [hf.seen hu] at hr₂
      have hpresent := (reads_getBytes (present_of_userPage hr) hoff).mono fun _ _ => hf₂.peek_present (hu.faulted hf)
      rw [hadd] at hpresent
      have hseen : m.seen p (srcva / PGSIZE) = some (m₁.page q) := by
        rw [← hf.seen hu, seen_of_userPage hr]
      have hreads := reads_getBytes hseen hoff
      rw [hadd] at hreads
      have hsame : fetch (peek (m.seen p)) (len - k) (PGROUNDDOWN srcva + PGSIZE) =
          fetch (peek (m.seen p)) (len - k) (srcva + k) := by
        obtain hz | hnext := hnext
        · rw [hz]
          rfl
        · rw [hnext]
      have hfetch := fetch_append hreads (len - k)
      rw [Bytes.getBytes_length, hlen'] at hfetch
      refine .pure ⟨hf.trans hu.space hu.sz_le hf₂, ⟨reads_append.mpr ⟨hpresent, ?_⟩, ?_⟩, fun hok => ?_,
        hr₂.imp_right fun hr₂ => ?_⟩
      · rw [Bytes.getBytes_length]
        obtain hz | hnext := hnext
        · have hnil : r.2 = [] := List.eq_nil_of_length_eq_zero (by omega)
          rw [hnil]
          trivial
        · rw [← hnext]
          exact hreads₂
      · dsimp only
        rw [List.length_append, Bytes.getBytes_length]
        omega
      · dsimp only
        rw [List.length_append, Bytes.getBytes_length, hall₂ hok]
        omega
      · rw [hfetch, hr₂, hsame]

/-- `copyin` fetches from what the kernel sees of user memory. -/
theorem copyin_ends (hu : m.UserSpace p) (srcva len : ℕ) :
    Ends (copyin p p.pagetable srcva len) m fun r m' => Faulted p.sz p.pagetable m m' ∧
      (Reads (peek (m'.present p)) srcva r.2 ∧ r.2.length ≤ len) ∧ (r.1 = true → r.2.length = len) ∧
      (m'.refused = true ∨ r = fetch (peek (m.seen p)) len srcva) :=
  copyinFrom_ends len hu srcva len le_rfl

/-! ## copyinstr -/

theorem copyinstrFrom_ends (m : Phys) (p : UserProc) (n : ℕ) : ∀ srcva max : ℕ, max ≤ n →
    Ends (copyinstrFrom p.pagetable n srcva max) m fun r m' =>
      m' = m ∧ r = scanTo (peek (m.present p)) 0 max srcva := by
  induction n with
  | zero =>
    intro srcva max hmax
    obtain rfl := Nat.le_zero.mp hmax
    exact .pure ⟨rfl, rfl⟩
  | succ n ih =>
    intro srcva max hmax
    rw [copyinstrFrom]
    split_ifs with h0
    · subst h0
      exact .pure ⟨rfl, rfl⟩
    obtain ⟨hadd, hoff, hpos, hlen, hnext⟩ := first_page srcva h0
    refine .bind (walkaddr_ends m p.pagetable (srcva / PGSIZE)) fun r m' h => ?_
    obtain ⟨rfl, rfl⟩ := h
    cases hq : m'.userPage p.pagetable (srcva / PGSIZE) with
    | none =>
      refine .pure ⟨rfl, ?_⟩
      obtain ⟨max, rfl⟩ := Nat.exists_eq_succ_of_ne_zero h0
      rw [scanTo_none (peek_none (by rw [Phys.present, hq]; rfl))]
    | some q =>
      refine .get_bind ?_
      dsimp only at hadd hoff hpos hlen hnext ⊢
      set off := srcva - PGROUNDDOWN srcva
      set k := min (PGSIZE - off) max
      have hpage := present_of_userPage hq
      have hreads := reads_getBytes hpage hoff
      rw [hadd] at hreads
      have hscan := scanTo_append (z := 0) hreads (max - k)
      rw [Bytes.getBytes_length, hlen] at hscan
      rw [copystrFrom_eq hpage hoff, hadd]
      generalize scanTo (peek (m'.present p)) 0 k srcva = found at hscan ⊢
      obtain ⟨gotNull, bytes⟩ := found
      cases gotNull with
      | true => exact .pure ⟨rfl, by rw [hscan, if_pos rfl]⟩
      | false =>
        refine .bind (ih (PGROUNDDOWN srcva + PGSIZE) (max - k) (by omega))
          fun r m₁ h => .pure ⟨h.1, ?_⟩
        rw [hscan, if_neg Bool.false_ne_true, h.2]
        obtain hz | hnext := hnext
        · rw [hz]
          rfl
        · rw [hnext]

/-- `copyinstr` scans the pages that are mapped. -/
theorem copyinstr_ends (m : Phys) (p : UserProc) (srcva max : ℕ) :
    Ends (copyinstr p.pagetable srcva max) m fun r m' =>
      m' = m ∧ r = scanTo (peek (m.present p)) 0 max srcva :=
  copyinstrFrom_ends m p max srcva max le_rfl

/-! ## The two together -/

/-- The program ends without an exception and returns `r`. -/
def Returns {α : Type} (x : VmM α) (m : Phys) (r : α) : Prop :=
  ∃ m', x m = .ok (r, m')

namespace Phys

/-- An address in a page that is promised and not mapped. -/
def Promised (m : Phys) (p : UserProc) (a : ℕ) : Prop :=
  PGROUNDDOWN a < p.sz ∧ m.entry p.pagetable (a / PGSIZE) = none

/-- `kalloc` does not fail in the program. -/
def Enough {α : Type} (m : Phys) (x : VmM α) : Prop :=
  ∀ r m', x m = .ok (r, m') → m'.refused = false

/-- The bytes of a promised page are seen as zeros, and there is nothing else to see where no page is mapped. -/
theorem peek_seen {a : ℕ} {b : UInt8} (h : peek (m.present p) a = none) :
    peek (m.seen p) a = some b ↔ b = 0 ∧ m.Promised p a := by
  cases hq : m.userPage p.pagetable (a / PGSIZE) with
  | none =>
    rw [peek, seen_of_none hq, Promised, PGROUNDDOWN]
    split_ifs with hc
    · rw [and_iff_left hc, Option.map_some, Option.some.injEq, eq_comm]
      rw [show (filled 0).byte (a % PGSIZE) = 0 from Bytes.byte_zero _]
    · exact ⟨fun h => (by cases h), fun h => absurd h.2 hc⟩
  | some q =>
    rw [peek, present, hq] at h
    cases h

theorem promised_iff {a : ℕ} : m.Promised p a ↔ peek (m.present p) a = none ∧ peek (m.seen p) a = some 0 := by
  refine ⟨fun h => ?_, fun h => ((peek_seen h.1).mp h.2).2⟩
  have hnone : peek (m.present p) a = none := by
    refine peek_none ?_
    rw [present, userPage, h.2]
    split_ifs <;> rfl
  exact ⟨hnone, (peek_seen hnone).mpr ⟨rfl, h⟩⟩

end Phys

theorem copyin_returns (hu : m.UserSpace p) {srcva len : ℕ} (hmem : m.Enough (copyin p p.pagetable srcva len))
    {l : List UInt8} : Returns (copyin p p.pagetable srcva len) m (true, l) ↔
      l.length = len ∧ Reads (peek (m.seen p)) srcva l := by
  rw [← fetch_eq_true]
  obtain ⟨r, m', hrun, -, -, -, h⟩ := copyin_ends hu srcva len
  have hr : r = fetch (peek (m.seen p)) len srcva := h.resolve_left (by rw [hmem r m' hrun]; exact Bool.false_ne_true)
  rw [← hr]
  constructor
  · rintro ⟨m'', hrun'⟩
    rw [hrun] at hrun'
    cases hrun'
    rfl
  · rintro rfl
    exact ⟨m', hrun⟩

theorem copyinstr_returns (m : Phys) (p : UserProc) (srcva max : ℕ) {r : Bool × List UInt8} :
    Returns (copyinstr p.pagetable srcva max) m r ↔ r = scanTo (peek (m.present p)) 0 max srcva := by
  obtain ⟨r', m', hrun, rfl, rfl⟩ := copyinstr_ends m p srcva max
  constructor
  · rintro ⟨m'', hrun'⟩
    rw [hrun] at hrun'
    cases hrun'
    rfl
  · rintro rfl
    exact ⟨m', hrun⟩

/-- `copyinstr` and `copyin` agree on the string at an address if and only if it does not run into a promised page. -/
theorem copyinstr_copyin (hu : m.UserSpace p) (va max : ℕ)
    (hmem : ∀ len, len ≤ max → m.Enough (copyin p p.pagetable va len)) :
    ((∀ l : List UInt8, Returns (copyinstr p.pagetable va max) m (true, l ++ [0]) ∧ 0 ∉ l ↔
        l.length < max ∧ 0 ∉ l ∧ Returns (copyin p p.pagetable va (l.length + 1)) m (true, l ++ [0])) ∧
      ((¬ ∃ l : List UInt8, l.length < max ∧ 0 ∉ l ∧
          Returns (copyin p p.pagetable va (l.length + 1)) m (true, l ++ [0])) →
        ∃ bytes, Returns (copyinstr p.pagetable va max) m (false, bytes))) ↔
      ¬ ∃ l : List UInt8, l.length < max ∧ 0 ∉ l ∧ Reads (peek (m.present p)) va l ∧ m.Promised p (va + l.length) := by
  have hstr : ∀ l : List UInt8, Returns (copyinstr p.pagetable va max) m (true, l ++ [0]) ∧ 0 ∉ l ↔
      l.length < max ∧ 0 ∉ l ∧ Reads (peek (m.present p)) va (l ++ [0]) := by
    intro l
    rw [copyinstr_returns, eq_comm, scanTo_eq_true]
    constructor
    · rintro ⟨⟨l', hl', hlen, hz, hreads⟩, -⟩
      obtain rfl := List.append_cancel_right hl'
      exact ⟨hlen, hz, hreads⟩
    · rintro ⟨hlen, hz, hreads⟩
      exact ⟨⟨l, rfl, hlen, hz, hreads⟩, hz⟩
  have hin : ∀ l : List UInt8, l.length < max →
      (Returns (copyin p p.pagetable va (l.length + 1)) m (true, l ++ [0]) ↔ Reads (peek (m.seen p)) va (l ++ [0])) := by
    intro l hlen
    rw [copyin_returns hu (hmem _ hlen), List.length_append, List.length_singleton, and_iff_right rfl]
  have hsame := same_strings_iff (f := peek (m.present p)) (g := peek (m.seen p)) (z := 0) (fun _ _ => peek_present)
    (fun _ _ hnone hb => ((peek_seen hnone).mp hb).1) max va
  simp only [← promised_iff] at hsame
  rw [← hsame]
  constructor
  · intro h l hlen hz
    rw [← hin l hlen]
    refine ⟨fun hreads => ((h.1 l).mp ((hstr l).mpr ⟨hlen, hz, hreads⟩)).2.2, fun hcopy => ?_⟩
    exact ((hstr l).mp ((h.1 l).mpr ⟨hlen, hz, hcopy⟩)).2.2
  · intro h
    have hiff : ∀ l : List UInt8, Returns (copyinstr p.pagetable va max) m (true, l ++ [0]) ∧ 0 ∉ l ↔
        l.length < max ∧ 0 ∉ l ∧ Returns (copyin p p.pagetable va (l.length + 1)) m (true, l ++ [0]) := by
      intro l
      rw [hstr]
      exact and_congr_right fun hlen => and_congr_right fun hz => (h l hlen hz).trans (hin l hlen).symm
    refine ⟨hiff, fun hno => ?_⟩
    obtain ⟨⟨ok, bytes⟩, hscan⟩ : ∃ r, scanTo (peek (m.present p)) 0 max va = r := ⟨_, rfl⟩
    cases ok with
    | true =>
      obtain ⟨l, rfl, -, hz, -⟩ := scanTo_eq_true.mp hscan
      exact absurd ⟨l, (hiff l).mp ⟨(copyinstr_returns m p va max).mpr hscan.symm, hz⟩⟩ hno
    | false => exact ⟨bytes, (copyinstr_returns m p va max).mpr hscan.symm⟩

/-- Where `sbrk` has promised a page, the empty string is there for `copyin` and not for `copyinstr`. -/
theorem copyinstr_promised : emptySpace.UserSpace ⟨1, 4096⟩ ∧ emptySpace.Enough (copyin ⟨1, 4096⟩ 1 0 1) ∧
    Returns (copyin ⟨1, 4096⟩ 1 0 1) emptySpace (true, [0]) ∧ Returns (copyinstr 1 0 1) emptySpace (false, []) := by
  refine ⟨emptySpace_userSpace, fun r m' h => ?_, ⟨_, rfl⟩, ⟨_, rfl⟩⟩
  cases h
  rfl

/-- Once that `copyin` has mapped the page, it is there for both. -/
theorem copyinstr_copyin_again : ∃ m, (copyin ⟨1, 4096⟩ 1 0 1) emptySpace = .ok ((true, [0]), m) ∧
    Returns (copyinstr 1 0 1) m (true, [0]) := by
  obtain ⟨r, m, hrun, hf, -⟩ := copyin_ends emptySpace_userSpace 0 1
  have hmapped : m.entry 1 0 ≠ none ∧ Returns (copyin ⟨1, 4096⟩ 1 0 1) m (true, [0]) ∧ r = (true, [0]) ∧
      ∀ len, len ≤ 1 → m.Enough (copyin ⟨1, 4096⟩ 1 0 len) := by
    cases hrun
    refine ⟨Option.some_ne_none _, ⟨_, rfl⟩, rfl, fun len hlen r m' h => ?_⟩
    obtain rfl | rfl := Nat.le_one_iff_eq_zero_or_eq_one.mp hlen <;> cases h <;> rfl
  obtain ⟨hentry, hcopyin, rfl, hmem⟩ := hmapped
  refine ⟨m, hrun, ?_⟩
  refine (((copyinstr_copyin (emptySpace_userSpace.faulted hf) 0 1 hmem).mpr ?_).1 []).mpr
    ⟨Nat.one_pos, List.not_mem_nil, hcopyin⟩ |>.1
  rintro ⟨l, hlen, -, -, hpromised⟩
  obtain rfl : l = [] := List.eq_nil_of_length_eq_zero (Nat.lt_one_iff.mp hlen)
  exact hentry hpromised.2

end Xv6
