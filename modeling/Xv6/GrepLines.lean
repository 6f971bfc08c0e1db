import Xv6.GrepMatch
import Xv6.Memmove

/-!
# The lines of `grep`

The loop of `grep` of user/grep.c over the array `buf[1024]` : what a `read` returns is put behind the `m`
bytes that are left over, every complete line in the array is matched and perhaps written, and what is left
of the last line is moved to the front by the library's `memmove`. How many bytes a `read` returns is up to the
kernel, from one to as many as there are and are asked for; it returns none at the end of the file, and none if
none are asked for.

A line is complete in the array only if it is shorter than 1023 bytes. When the array is full without a
newline, the next `read` asks for no bytes and the loop ends (`grep_eq`) : everything from the first longer
line on is left out, whatever the kernel returns (`grep_output`).
-/

namespace Xv6

namespace Grep

/-- The character that ends a line. -/
abbrev NEWLINE : UInt8 := 10

/-- `sizeof(buf)`. -/
abbrev BUFSIZE : ℕ := 1024

/-- `strchr`, as an offset. -/
def strchr (c : UInt8) : List UInt8 → Option ℕ
  | [] => none
  | x :: s => if x = 0 then none else if x = c then some 0 else (strchr c s).map (· + 1)

theorem strchr_lt {c : UInt8} {s : List UInt8} {k : ℕ} (h : strchr c s = some k) : k < s.length := by
  induction s generalizing k with
  | nil => cases h
  | cons x s ih =>
    rw [strchr] at h
    split_ifs at h
    · rw [← Option.some.inj h]
      exact Nat.succ_pos _
    · obtain ⟨j, hj, rfl⟩ := Option.map_eq_some_iff.mp h
      exact Nat.succ_lt_succ (ih hj)

/-- The string at a pointer. -/
def stringAt (s : List UInt8) : List UInt8 :=
  s.takeWhile (· ≠ 0)

/-- The loop over the lines from `p` on : the array and `p` after it, and what is written. -/
def grepLines (pattern : List UInt8) (buf : List UInt8) (p : ℕ) : List UInt8 × ℕ × List UInt8 :=
  match h : strchr NEWLINE (buf.drop p) with
  | none => (buf, p, [])
  | some k =>
    let q := p + k
    let cut := buf.set q 0
    if matchRe pattern (stringAt (cut.drop p)) then
      let whole := cut.set q NEWLINE
      let (buf, p', out) := grepLines pattern whole (q + 1)
      (buf, p', (whole.drop p).take (q + 1 - p) ++ out)
    else grepLines pattern cut (q + 1)
termination_by buf.length - p
decreasing_by
  all_goals
    have hlt := strchr_lt h
    rw [List.length_drop] at hlt
    simp only [List.length_set]
    omega

/-- `memmove(buf, p, m)`, the array being at `addr`. -/
def compact (addr : BitVec 64) (buf : List UInt8) (p m : ℕ) : List UInt8 :=
  let mem : Memory := fun a => buf.getD (a - addr).toNat 0
  let mem := (Ulib.memmove addr (addr + BitVec.ofNat 64 p) (BitVec.ofNat 32 m) mem).2
  (List.range buf.length).map fun i => mem (addr + BitVec.ofNat 64 i)

/-- How many bytes `read` returns of `avail` if `k` are asked for and the kernel would return `choice`. -/
def readCount (choice k avail : ℕ) : ℕ :=
  min (max choice 1) (min k avail)

/-- `grep` on the file `input`, with `m` bytes left over in the array. What the kernel would return is `split`
of the number of bytes still unread, which is another one at each `read`. -/
def grep (pattern : List UInt8) (addr : BitVec 64) (split : ℕ → ℕ) (buf : List UInt8) (m : ℕ)
    (input : List UInt8) : List UInt8 :=
  let n := readCount (split input.length) (BUFSIZE - m - 1) input.length
  if n = 0 then []
  else
    let buf := buf.take m ++ input.take n ++ buf.drop (m + n)
    let m := m + n
    let buf := buf.set m 0
    let (buf, p, out) := grepLines pattern buf 0
    let rest := if 0 < m then grep pattern addr split (compact addr buf p (m - p)) (m - p) (input.drop n)
      else grep pattern addr split buf m (input.drop n)
    out ++ rest
termination_by input.length
decreasing_by
  all_goals
    have hn : n ≤ input.length := (Nat.min_le_right _ _).trans (Nat.min_le_right _ _)
    simp only [List.length_drop]
    omega

/-! ## What should be written -/

/-- The text of some lines. -/
def unlines (ls : List (List UInt8)) : List UInt8 :=
  ls.flatMap (· ++ [NEWLINE])

/-- The lines that match. -/
def matching (pattern : List UInt8) (ls : List (List UInt8)) : List UInt8 :=
  unlines (ls.filter (matchRe pattern))

/-- A line without its newline. -/
def IsLine (l : List UInt8) : Prop :=
  NEWLINE ∉ l ∧ 0 ∉ l

variable {pattern buf input a b l s : List UInt8} {ls : List (List UInt8)} {p m k : ℕ} {x y : UInt8}

theorem unlines_cons : unlines (l :: ls) = l ++ NEWLINE :: unlines ls := by
  rw [unlines, List.flatMap_cons, List.append_assoc, List.singleton_append, unlines]

theorem matching_cons : matching pattern (l :: ls) =
    (if matchRe pattern l then l ++ [NEWLINE] else []) ++ matching pattern ls := by
  rw [matching, List.filter_cons]
  split_ifs
  · rw [unlines_cons, List.append_assoc, List.singleton_append, matching]
  · rfl

theorem matching_append (ls₁ ls₂ : List (List UInt8)) :
    matching pattern (ls₁ ++ ls₂) = matching pattern ls₁ ++ matching pattern ls₂ := by
  rw [matching, List.filter_append, unlines, List.flatMap_append, matching, matching, unlines, unlines]

/-- Part of the text is some complete lines and part of the next one. -/
theorem unlines_split (hls : ∀ l ∈ ls, NEWLINE ∉ l) (h : a ++ b = unlines ls) :
    ∃ ls₁ ls₂ rest, ls = ls₁ ++ ls₂ ∧ a = unlines ls₁ ++ rest ∧ NEWLINE ∉ rest ∧ rest ++ b = unlines ls₂ := by
  induction ls generalizing a with
  | nil =>
    obtain ⟨rfl, rfl⟩ := List.append_eq_nil_iff.mp h
    exact ⟨[], [], [], rfl, rfl, List.not_mem_nil, rfl⟩
  | cons l ls ih =>
    have hl : NEWLINE ∉ l := hls l List.mem_cons_self
    have hrest : ∀ l ∈ ls, NEWLINE ∉ l := fun l hl => hls l (List.mem_cons_of_mem _ hl)
    rw [unlines_cons] at h
    obtain ⟨c, rfl, hc⟩ | ⟨c, rfl, hc⟩ := List.append_eq_append_iff.mp h
    · -- the part ends inside the first line
      refine ⟨[], (a ++ c) :: ls, a, rfl, rfl, fun hmem => hl (List.mem_append_left _ hmem), ?_⟩
      rw [h, unlines_cons]
    · cases c with
      | nil =>
        refine ⟨[], l :: ls, l, rfl, ?_, hl, ?_⟩
        · rw [List.append_nil]
          rfl
        · rw [List.append_nil] at h
          rw [h, unlines_cons]
      | cons d c =>
        obtain ⟨rfl, htail⟩ := List.cons.inj (hc.trans (List.cons_append ..))
        obtain ⟨ls₁, ls₂, rest, rfl, rfl, hmem, heq⟩ := ih hrest htail.symm
        exact ⟨l :: ls₁, ls₂, rest, rfl, by rw [unlines_cons, List.append_assoc, List.cons_append], hmem, heq⟩

/-! ## Lines in the array -/

theorem strchr_newline (h : IsLine l) : strchr NEWLINE (l ++ NEWLINE :: s) = some l.length := by
  induction l with
  | nil => rfl
  | cons x l ih =>
    have hx : x ≠ 0 := fun hx => h.2 (hx ▸ List.mem_cons_self)
    have hne : x ≠ NEWLINE := fun hx => h.1 (hx ▸ List.mem_cons_self)
    have hl : IsLine l := ⟨fun hmem => h.1 (List.mem_cons_of_mem _ hmem), fun hmem => h.2 (List.mem_cons_of_mem _ hmem)⟩
    rw [List.cons_append, strchr, if_neg hx, if_neg hne, ih hl]
    rfl

theorem strchr_none (h : NEWLINE ∉ l) : strchr NEWLINE (l ++ 0 :: s) = none := by
  induction l with
  | nil => rfl
  | cons x l ih =>
    have hne : x ≠ NEWLINE := fun hx => h (hx ▸ List.mem_cons_self)
    rw [List.cons_append, strchr, if_neg hne, ih fun hmem => h (List.mem_cons_of_mem _ hmem)]
    exact ite_self none

theorem stringAt_append (h : 0 ∉ l) : stringAt (l ++ 0 :: s) = l := by
  have hpos : ∀ x ∈ l, decide (x ≠ 0) = true := fun x hx => decide_eq_true fun h0 => h (h0 ▸ hx)
  rw [stringAt, List.takeWhile_append_of_pos hpos, List.takeWhile_cons_of_neg (by decide), List.append_nil]

theorem drop_set_append (h : buf.drop p = l ++ x :: s) : (buf.set (p + l.length) y).drop p = l ++ y :: s := by
  rw [List.drop_set, if_neg (by omega), h, Nat.add_sub_cancel_left, List.set_append_right _ _ (Nat.le_refl _),
    Nat.sub_self, List.set_cons_zero]

theorem drop_succ_append (h : buf.drop p = l ++ x :: s) : buf.drop (p + l.length + 1) = s := by
  rw [Nat.add_assoc, ← List.drop_drop, h, List.drop_append, List.drop_of_length_le (by omega),
    Nat.add_sub_cancel_left, List.nil_append, List.drop_one, List.tail_cons]

theorem grepLines_of_none (h : strchr NEWLINE (buf.drop p) = none) : grepLines pattern buf p = (buf, p, []) := by
  rw [grepLines]
  split
  · rfl
  · rw [h] at *
    contradiction

/-- One turn of the loop over the lines. -/
theorem grepLines_of_line (hl : IsLine l) (h : buf.drop p = l ++ NEWLINE :: s) :
    ∃ buf', grepLines pattern buf p =
        ((grepLines pattern buf' (p + l.length + 1)).1, (grepLines pattern buf' (p + l.length + 1)).2.1,
          (if matchRe pattern l then l ++ [NEWLINE] else []) ++ (grepLines pattern buf' (p + l.length + 1)).2.2) ∧
      buf'.length = buf.length ∧ buf'.drop (p + l.length + 1) = s := by
  have hcut : (buf.set (p + l.length) 0).drop p = l ++ 0 :: s := drop_set_append h
  have hwhole : ((buf.set (p + l.length) 0).set (p + l.length) NEWLINE).drop p = l ++ NEWLINE :: s :=
    drop_set_append hcut
  rw [grepLines]
  split
  next hnone =>
    rw [h, strchr_newline hl] at hnone
    cases hnone
  next k hk =>
    obtain rfl : l.length = k := by
      rw [h, strchr_newline hl] at hk
      exact Option.some.inj hk
    simp only [hcut, stringAt_append hl.2]
    split_ifs with hmatch
    · have hline : (l ++ NEWLINE :: s).take (p + l.length + 1 - p) = l ++ [NEWLINE] := by
        rw [show p + l.length + 1 - p = l.length + 1 by omega, List.take_append, List.take_of_length_le (by omega),
          Nat.add_sub_cancel_left, List.take_succ_cons, List.take_zero]
      refine ⟨_, ?_, by rw [List.length_set, List.length_set], drop_succ_append hwhole⟩
      rw [hwhole, hline]
    · exact ⟨_, rfl, List.length_set, drop_succ_append hcut⟩

/-- The loop over the lines stops behind the last complete one. -/
theorem grepLines_eq {rest junk : List UInt8} (hls : ∀ l ∈ ls, IsLine l) (hrest : NEWLINE ∉ rest)
    (h : buf.drop p = unlines ls ++ (rest ++ 0 :: junk)) :
    ∃ buf', grepLines pattern buf p = (buf', p + (unlines ls).length, matching pattern ls) ∧
      buf'.length = buf.length ∧ buf'.drop (p + (unlines ls).length) = rest ++ 0 :: junk := by
  induction ls generalizing buf p with
  | nil =>
    refine ⟨buf, grepLines_of_none ?_, rfl, h⟩
    rw [h]
    exact strchr_none hrest
  | cons l ls ih =>
    have hl : IsLine l := hls l List.mem_cons_self
    rw [unlines_cons, List.append_assoc, List.cons_append] at h
    obtain ⟨buf', heq, hlen, hdrop⟩ := @grepLines_of_line pattern _ _ _ _ hl h
    obtain ⟨buf'', heq', hlen', hdrop'⟩ := ih (fun l hl => hls l (List.mem_cons_of_mem _ hl)) hdrop
    have hadd : p + l.length + 1 + (unlines ls).length = p + (unlines (l :: ls)).length := by
      rw [unlines_cons, List.length_append, List.length_cons]
      omega
    rw [hadd] at heq' hdrop'
    refine ⟨buf'', ?_, hlen'.trans hlen, hdrop'⟩
    rw [heq, heq', matching_cons]

/-! ## The loop over the file -/

variable {addr : BitVec 64} {split : ℕ → ℕ}

theorem length_compact : (compact addr buf p m).length = buf.length := by
  rw [compact, List.length_map, List.length_range]

/-- What is left over is at the front. -/
theorem take_compact (hlen : buf.length = BUFSIZE) (haddr : addr.toNat + BUFSIZE ≤ 2 ^ 64) (hpm : p + m ≤ BUFSIZE) :
    (compact addr buf p m).take m = (buf.drop p).take m := by
  change buf.length = 1024 at hlen
  change addr.toNat + 1024 ≤ 2 ^ 64 at haddr
  change p + m ≤ 1024 at hpm
  have hm : (BitVec.ofNat 32 m).toInt.toNat = m := by
    rw [BitVec.toInt_eq_toNat_of_lt (by rw [BitVec.toNat_ofNat]; omega), Int.toNat_natCast, BitVec.toNat_ofNat,
      Nat.mod_eq_of_lt (by omega)]
  have hsrc : (addr + BitVec.ofNat 64 p).toNat + m ≤ 2 ^ 64 := by
    have hle : (addr + BitVec.ofNat 64 p).toNat ≤ addr.toNat + p := by
      rw [BitVec.toNat_add, BitVec.toNat_ofNat]
      exact (Nat.mod_le _ _).trans (Nat.add_le_add_left (Nat.mod_le _ _) _)
    omega
  have hmoved := @Ulib.memmove_moved addr (addr + BitVec.ofNat 64 p) (fun a => buf.getD (a - addr).toNat 0)
    (BitVec.ofNat 32 m) (by rw [hm]; exact ⟨by omega, hsrc⟩)
  rw [hm] at hmoved
  refine List.ext_getElem? fun i => ?_
  rw [List.getElem?_take, List.getElem?_take]
  split_ifs with hi
  · rw [compact, List.getElem?_map, List.getElem?_range (by omega), Option.map_some, hmoved.moved i hi,
      List.getElem?_drop, BitVec.add_assoc, ← BitVec.ofNat_add, BitVec.add_comm, BitVec.add_sub_cancel, BitVec.toNat_ofNat,
      Nat.mod_eq_of_lt (by omega), List.getD_eq_getElem?_getD, List.getElem?_eq_getElem (by omega), Option.getD_some]
  · rfl

theorem readCount_eq_zero {choice avail : ℕ} (h : readCount choice k avail = 0) : k = 0 ∨ avail = 0 := by
  rw [readCount] at h
  omega

/-- The array after a `read` and the NUL behind it. -/
theorem filled_eq {n : ℕ} (hlen : buf.length = BUFSIZE) (hm : m + n < BUFSIZE) (hn : n ≤ input.length) :
    (buf.take m ++ input.take n ++ buf.drop (m + n)).set (m + n) 0 =
      (buf.take m ++ input.take n) ++ 0 :: buf.drop (m + n + 1) := by
  have hfront : (buf.take m ++ input.take n).length = m + n := by
    rw [List.length_append, List.length_take, List.length_take]
    omega
  rw [List.set_append_right _ _ (by omega), hfront, Nat.sub_self, List.drop_eq_getElem_cons (by omega),
    List.set_cons_zero]

theorem length_lt_of_mem (h : l ∈ ls) : l.length < (unlines ls).length := by
  obtain ⟨ls₁, ls₂, rfl⟩ := List.append_of_mem h
  rw [unlines, List.flatMap_append, List.flatMap_cons, List.length_append, List.length_append, List.length_append,
    List.length_singleton]
  omega

/-- A full array without a newline begins with a line that is too long for it. -/
theorem takeWhile_of_full {left : List UInt8} (hleft : NEWLINE ∉ left) (hlen : left.length = BUFSIZE - 1)
    (h : left ++ input = unlines ls) : ls.takeWhile (·.length < BUFSIZE - 1) = [] := by
  cases ls with
  | nil => rfl
  | cons l ls =>
    refine List.takeWhile_cons_of_neg fun hlt => hleft ?_
    have hlt : l.length < left.length := hlen ▸ of_decide_eq_true hlt
    have hget := congrArg (·[l.length]?) h
    rw [unlines_cons] at hget
    simp only [List.getElem?_append_left hlt, List.getElem?_append_right (Nat.le_refl _), Nat.sub_self,
      List.getElem?_cons_zero] at hget
    exact List.mem_of_getElem? hget

/-- The lines before the first one that the array has no room for are all that is searched. -/
theorem grep_eq (hlen : buf.length = BUFSIZE) (haddr : addr.toNat + BUFSIZE ≤ 2 ^ 64) (hm : m < BUFSIZE)
    (hls : ∀ l ∈ ls, IsLine l) (hleft : NEWLINE ∉ buf.take m) (h : buf.take m ++ input = unlines ls) :
    grep pattern addr split buf m input = matching pattern (ls.takeWhile (·.length < BUFSIZE - 1)) := by
  induction hk : input.length using Nat.strongRecOn generalizing buf m input ls with
  | ind k ih =>
    obtain ⟨n, hn⟩ : ∃ n, readCount (split input.length) (BUFSIZE - m - 1) input.length = n := ⟨_, rfl⟩
    have htake : (buf.take m).length = m := by
      rw [List.length_take]
      omega
    rw [grep]
    simp only [hn]
    by_cases hzero : n = 0
    · -- the array is full, or the file is at its end
      rw [if_pos hzero]
      rw [hzero] at hn
      obtain hfull | hend := readCount_eq_zero hn
      · rw [takeWhile_of_full hleft (by omega) h]
        rfl
      · rw [List.length_eq_zero_iff.mp hend, List.append_nil] at h
        cases ls with
        | nil => rfl
        | cons l ls =>
          rw [h, unlines_cons] at hleft
          exact absurd (List.mem_append_right _ List.mem_cons_self) hleft
    · have hle : n ≤ input.length ∧ n ≤ BUFSIZE - m - 1 := by
        rw [← hn, readCount]
        omega
      rw [← List.take_append_drop n input, ← List.append_assoc] at h
      obtain ⟨ls₁, ls₂, rest, rfl, hfront, hrest, hback⟩ := unlines_split (fun l hl => (hls l hl).1) h
      have hlen₁ : (unlines ls₁).length + rest.length = m + n := by
        have := congrArg List.length hfront
        rw [List.length_append, List.length_append, htake, List.length_take] at this
        omega
      rw [if_neg hzero, if_pos (by omega), filled_eq hlen (by omega) hle.1, hfront, List.append_assoc]
      obtain ⟨buf', heq, hlen', hdrop⟩ := @grepLines_eq pattern (unlines ls₁ ++ (rest ++ 0 :: buf.drop (m + n + 1)))
        ls₁ 0 rest _ (fun l hl => hls l (List.mem_append_left _ hl)) hrest rfl
      rw [Nat.zero_add] at heq hdrop
      have hbuf : buf'.length = BUFSIZE := by
        rw [hlen', List.length_append, List.length_append, List.length_cons, List.length_drop, hlen]
        omega
      have hcompact : (compact addr buf' (unlines ls₁).length rest.length).take rest.length = rest := by
        rw [take_compact hbuf haddr (by omega), hdrop, List.take_left]
      have hshort : ∀ l ∈ ls₁, decide (l.length < BUFSIZE - 1) = true := fun l hl => by
        have := length_lt_of_mem hl
        exact decide_eq_true (by omega)
      simp only [heq]
      rw [show m + n - (unlines ls₁).length = rest.length by omega, List.takeWhile_append_of_pos hshort, matching_append]
      congr 1
      refine ih (input.drop n).length ?_ (by rw [length_compact, hbuf]) (by omega)
        (fun l hl => hls l (List.mem_append_right _ hl)) (by rwa [hcompact]) (by rw [hcompact, hback]) rfl
      rw [List.length_drop]
      omega

theorem matching_eq_nil : matching pattern ls = [] ↔ ∀ l ∈ ls, matchRe pattern l = false := by
  induction ls with
  | nil => simp [matching, unlines]
  | cons l ls ih =>
    rw [matching_cons, List.append_eq_nil_iff, ih, List.forall_mem_cons]
    refine and_congr_left fun _ => ?_
    cases matchRe pattern l with
    | false => simp
    | true => simp

/-- What is written is right, if and only if no line from the first one that is too long for the array on
matches. -/
theorem grep_output (split : ℕ → ℕ) (hlen : buf.length = BUFSIZE) (haddr : addr.toNat + BUFSIZE ≤ 2 ^ 64)
    (hls : ∀ l ∈ ls, IsLine l) : grep pattern addr split buf 0 (unlines ls) = matching pattern ls ↔
      ∀ l ∈ ls.dropWhile (·.length < BUFSIZE - 1), matchRe pattern l = false := by
  have hsplit : matching pattern ls = matching pattern (ls.takeWhile (·.length < BUFSIZE - 1)) ++
      matching pattern (ls.dropWhile (·.length < BUFSIZE - 1)) := by
    rw [← matching_append, List.takeWhile_append_dropWhile]
  rw [grep_eq hlen haddr (by decide) hls (by rw [List.take_zero]; exact List.not_mem_nil) rfl, hsplit,
    List.self_eq_append_right, matching_eq_nil]

/-- One line, of any kernel's reads. -/
theorem grep_output_short : (List.replicate 1024 (0 : UInt8)).length = BUFSIZE ∧
    grep [97] 0 (fun _ => 1) (List.replicate 1024 0) 0 (unlines [[97]]) = matching [97] [[97]] :=
  ⟨List.length_replicate, (grep_output (fun _ => 1) List.length_replicate (by decide)
    fun l hl => by rw [List.mem_singleton.mp hl]; exact ⟨by decide, by decide⟩).mpr fun l hl => by cases hl⟩

theorem isLine_replicate : IsLine (List.replicate k 97) :=
  ⟨fun h => absurd (List.eq_of_mem_replicate h) (by decide), fun h => absurd (List.eq_of_mem_replicate h) (by decide)⟩

/-- A line of 1023 characters is not found. -/
theorem grep_loses_line : matching [97] [List.replicate 1023 97] = List.replicate 1023 97 ++ [NEWLINE] ∧
    ∀ split, grep [97] 0 split (List.replicate 1024 0) 0 (unlines [List.replicate 1023 97]) = [] := by
  have hmatch : matchRe [97] (List.replicate 1023 97) = true := by
    have hhere : matchhere [97] (97 :: List.replicate 1022 97) = true := by
      have h0 : (0 : UInt8) ∉ 97 :: List.replicate 1022 97 := isLine_replicate (k := 1023) |>.2
      refine (@matchhere_cons 97 [] _ (by decide) (by decide) (by decide) h0).mpr ⟨97, _, rfl, .inr rfl, ?_⟩
      rw [matchhere]
      rfl
    rw [matchRe, if_neg (by decide), matchFrom]
    exact if_pos hhere
  refine ⟨?_, fun split => ?_⟩
  · rw [matching_cons, if_pos hmatch]
    exact List.append_nil _
  · have hline : ∀ l ∈ [List.replicate 1023 97], IsLine l := fun l hl => List.mem_singleton.mp hl ▸ isLine_replicate
    rw [grep_eq List.length_replicate (by decide) (by decide) hline
      (by rw [List.take_zero]; exact List.not_mem_nil) rfl, List.takeWhile_cons_of_neg (by rw [List.length_replicate]; decide)]
    rfl

end Grep

end Xv6
