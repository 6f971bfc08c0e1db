import Mathlib.Data.Nat.Digits.Lemmas
import Xv6.Printf

/-!
# The buffer of `printint`

`printint` of kernel/printf.c and `printint` of user/printf.c with the array `buf[20]` both write the digits
to. A store outside it is `none`, and the array comes with whatever the stack had there. The two functions
keep the sign in different ways and have different tables of digits.

The digits fill the array from the last one on (`fillDigits_eq`), and there are never more than the array can
take (`printDigits_eq`) : 20 without a sign, 19 with one. What is printed is the numeral of the value
(`signedNumeral`), from which the value can be read again (`readNumeral_signedNumeral`).
-/

namespace Xv6

/-- `buf[i] = c`. -/
def storeChar (buf : List Char) (i : ℕ) (c : Char) : Option (List Char) :=
  if i < buf.length then some (buf.set i c) else none

/-- `do { buf[i++] = digits[x % base]; } while((x /= base) != 0);` -/
def fillDigits (digits : List Char) (base : ℕ) (buf : List Char) (i x : ℕ) : Option (List Char × ℕ) := do
  let buf ← storeChar buf i (digits.getD (x % base) '\x00')
  if x / base ≠ 0 ∧ 1 < base then fillDigits digits base buf (i + 1) (x / base)
  else return (buf, i + 1)
termination_by x
decreasing_by exact Nat.div_lt_self (Nat.pos_of_ne_zero fun hx => by simp_all) (by simp_all)

/-- `while(--i >= 0) putc(buf[i]);` -/
def emitDown (buf : List Char) : ℕ → List Char
  | 0 => []
  | i + 1 => buf.getD i '\x00' :: emitDown buf i

/-- What both functions do with the magnitude `x` once they know whether to print a sign. -/
def printDigits (digits : List Char) (base : ℕ) (buf : List Char) (x : BitVec 64) (neg : Bool) :
    Option (List Char) := do
  let (buf, i) ← fillDigits digits base buf 0 x.toNat
  if neg then
    let buf ← storeChar buf i '-'
    return emitDown buf (i + 1)
  return emitDown buf i

/-- `printint` of the kernel; the flag is assigned in the test that reads it. -/
def Kernel.printint (buf : List Char) (xx : BitVec 64) (base : ℕ) (sign : Bool) : Option (List Char) :=
  let sign := sign && decide (xx.toInt < 0)
  let x := if sign then -xx else xx
  printDigits digitChars base buf x sign

/-- The table `digits` of the user library. -/
def Ulib.digitChars : List Char :=
  "0123456789ABCDEF".toList

/-- `printint` of the user library. -/
def Ulib.printint (buf : List Char) (xx : BitVec 64) (base : ℕ) (sgn : Bool) : Option (List Char) :=
  if sgn && decide (xx.toInt < 0) then printDigits Ulib.digitChars base buf (-xx) true
  else printDigits Ulib.digitChars base buf xx false

/-! ## Numerals with a sign -/

/-- The digits of `n`, the last one first; 0 has one digit. -/
def lowDigits (base n : ℕ) : List ℕ :=
  if n = 0 then [0] else Nat.digits base n

/-- The numeral of a number. -/
def numeralOf (digits : List Char) (base n : ℕ) : List Char :=
  (lowDigits base n).reverse.map (digits.getD · '\x00')

/-- The numeral of an integer. -/
def signedNumeral (digits : List Char) (base : ℕ) (v : ℤ) : List Char :=
  if v < 0 then '-' :: numeralOf digits base v.natAbs else numeralOf digits base v.natAbs

/-- Read the digits of a numeral. -/
def readDigits (digits : List Char) (base : ℕ) (w : List Char) : ℕ :=
  w.foldl (fun a c => digits.idxOf c + base * a) 0

/-- Read a numeral. -/
def readNumeral (digits : List Char) (base : ℕ) : List Char → ℤ
  | [] => 0
  | c :: w => if c = '-' then -readDigits digits base w else readDigits digits base (c :: w)

variable {digits buf w : List Char} {base n i x k : ℕ} {v : ℤ}

theorem lowDigits_of_div_eq_zero (hbase : 1 < base) (h : x / base = 0) : lowDigits base x = [x % base] := by
  have hlt : x < base := by
    by_contra hcon
    exact absurd (Nat.div_pos (Nat.not_lt.mp hcon) (by omega)) (by omega)
  rw [Nat.mod_eq_of_lt hlt, lowDigits]
  split_ifs with hx
  · rw [hx]
  · exact Nat.digits_of_lt base x hx hlt

theorem lowDigits_of_div_ne_zero (hbase : 1 < base) (h : x / base ≠ 0) :
    lowDigits base x = x % base :: lowDigits base (x / base) := by
  have hx : x ≠ 0 := fun hx => h (by rw [hx, Nat.zero_div])
  rw [lowDigits, if_neg hx, lowDigits, if_neg h, Nat.digits_def' hbase (Nat.pos_of_ne_zero hx)]

theorem lt_base_of_mem_lowDigits (hbase : 1 < base) {d : ℕ} (h : d ∈ lowDigits base n) : d < base := by
  rw [lowDigits] at h
  split_ifs at h
  · rw [List.mem_singleton.mp h]
    omega
  · exact Nat.digits_lt_base hbase h

theorem length_lowDigits_le (hbase : 1 < base) (hk : 0 < k) (h : n < base ^ k) : (lowDigits base n).length ≤ k := by
  rw [lowDigits]
  split_ifs
  · exact hk
  · exact (Nat.digits_length_le_iff hbase n).mpr h

/-- The numeral of a number other than 0 begins with a digit other than 0. -/
theorem head_numeralOf (hbase : 1 < base) (hdigits : ∀ d < base, digits.idxOf (digits.getD d '\x00') = d)
    (hn : n ≠ 0) : (numeralOf digits base n).head? ≠ some (digits.getD 0 '\x00') := by
  have hne : Nat.digits base n ≠ [] := Nat.digits_ne_nil_iff_ne_zero.mpr hn
  have hlast := Nat.getLast_digit_ne_zero base hn
  have hlt := Nat.digits_lt_base hbase (List.getLast_mem hne)
  rw [numeralOf, lowDigits, if_neg hn, List.head?_map, List.head?_reverse, List.getLast?_eq_some_getLast hne,
    Option.map_some]
  intro h
  have hidx := congrArg digits.idxOf (Option.some.inj h)
  rw [hdigits _ hlt, hdigits 0 (by omega)] at hidx
  exact hlast hidx

theorem readDigits_numeralOf (hbase : 1 < base) (hdigits : ∀ d < base, digits.idxOf (digits.getD d '\x00') = d)
    (n : ℕ) : readDigits digits base (numeralOf digits base n) = n := by
  have hvalue : ∀ l : List ℕ, (∀ d ∈ l, d < base) →
      readDigits digits base (l.reverse.map (digits.getD · '\x00')) = Nat.ofDigits base l := fun l hl => by
    induction l with
    | nil => rfl
    | cons d l ih =>
      have hrest := ih fun d hd => hl d (List.mem_cons_of_mem _ hd)
      rw [readDigits] at hrest
      rw [readDigits, List.reverse_cons, List.map_append, List.foldl_append, hrest, List.map_singleton,
        List.foldl_cons, List.foldl_nil, hdigits d (hl d List.mem_cons_self), Nat.ofDigits_cons]
  rw [numeralOf, hvalue _ fun d => lt_base_of_mem_lowDigits hbase, lowDigits]
  split_ifs with hn
  · rw [hn]
    rfl
  · exact Nat.ofDigits_digits base n

/-- A numeral is read as its value. -/
theorem readNumeral_signedNumeral (hbase : 1 < base)
    (hdigits : ∀ d < base, digits.idxOf (digits.getD d '\x00') = d)
    (hsign : ∀ d < base, digits.getD d '\x00' ≠ '-') (v : ℤ) :
    readNumeral digits base (signedNumeral digits base v) = v := by
  have hread := readDigits_numeralOf hbase hdigits v.natAbs
  rw [signedNumeral]
  split_ifs with hneg
  · rw [readNumeral, if_pos rfl, hread]
    omega
  · obtain ⟨d, l, hl⟩ : ∃ d l, (lowDigits base v.natAbs).reverse = d :: l := by
      refine List.exists_cons_of_ne_nil fun h => ?_
      rw [List.reverse_eq_nil_iff, lowDigits] at h
      split_ifs at h with hv
      exact Nat.digits_ne_nil_iff_ne_zero.mpr hv h
    have hd : d < base := lt_base_of_mem_lowDigits hbase (List.mem_reverse.mp (hl ▸ List.mem_cons_self))
    have hcons : numeralOf digits base v.natAbs =
        digits.getD d '\x00' :: l.map (digits.getD · '\x00') := by
      rw [numeralOf, hl, List.map_cons]
    rw [hcons, readNumeral, if_neg (hsign d hd), ← hcons, hread]
    omega

/-! ## Digits in the buffer -/

theorem emitDown_eq (h : i ≤ buf.length) : emitDown buf i = (buf.take i).reverse := by
  induction i with
  | zero => rfl
  | succ i ih =>
    have hget : buf[i]? = some (buf.getD i '\x00') := by
      rw [List.getD_eq_getElem?_getD, List.getElem?_eq_getElem h, Option.getD_some]
    rw [emitDown, ih (by omega), List.take_add_one, hget, Option.toList_some, List.reverse_concat]

theorem take_set_succ {c : Char} (h : i < buf.length) : (buf.set i c).take (i + 1) = buf.take i ++ [c] := by
  rw [List.take_add_one, List.take_set_of_le (Nat.le_refl i), List.getElem?_set_self h, Option.toList_some]

/-- The digits stand in the buffer from `i` on. -/
theorem fillDigits_eq (hbase : 1 < base) (hlen : i + (lowDigits base x).length ≤ buf.length) :
    ∃ buf', fillDigits digits base buf i x = some (buf', i + (lowDigits base x).length) ∧
      buf'.length = buf.length ∧
      buf'.take (i + (lowDigits base x).length) = buf.take i ++ (lowDigits base x).map (digits.getD · '\x00') := by
  induction x using Nat.strongRecOn generalizing buf i with
  | ind x ih =>
    rw [fillDigits, storeChar]
    by_cases hdiv : x / base = 0
    · rw [lowDigits_of_div_eq_zero hbase hdiv, List.length_singleton] at hlen ⊢
      refine ⟨buf.set i (digits.getD (x % base) '\x00'), ?_, List.length_set, take_set_succ hlen⟩
      rw [if_pos (show i < buf.length from hlen), Option.bind_eq_bind, Option.bind_some, if_neg fun h => h.1 hdiv]
      rfl
    · rw [lowDigits_of_div_ne_zero hbase hdiv, List.length_cons] at hlen ⊢
      have hi : i < buf.length := by omega
      have hx : 0 < x := Nat.pos_of_ne_zero fun hx => hdiv (by rw [hx, Nat.zero_div])
      obtain ⟨buf', heq, hlen', htake⟩ := @ih (x / base) (Nat.div_lt_self hx hbase)
        (buf.set i (digits.getD (x % base) '\x00')) (i + 1) (by rw [List.length_set]; omega)
      rw [List.length_set] at hlen'
      rw [take_set_succ hi, Nat.add_right_comm, Nat.add_assoc, List.append_assoc] at htake
      rw [Nat.add_right_comm, Nat.add_assoc] at heq
      refine ⟨buf', ?_, hlen', htake⟩
      rw [if_pos hi, Option.bind_eq_bind, Option.bind_some, if_pos ⟨hdiv, hbase⟩]
      exact heq

/-- The magnitude and its sign, if the buffer has room for both. -/
theorem printDigits_eq {x : BitVec 64} {neg : Bool} (hbase : 1 < base)
    (hlen : (lowDigits base x.toNat).length + neg.toNat ≤ buf.length) :
    printDigits digits base buf x neg =
      some (if neg then '-' :: numeralOf digits base x.toNat else numeralOf digits base x.toNat) := by
  obtain ⟨buf', heq, hlen', htake⟩ := @fillDigits_eq digits buf base 0 x.toNat hbase (by omega)
  rw [Nat.zero_add] at heq htake
  rw [List.take_zero, List.nil_append] at htake
  have hrev : ((lowDigits base x.toNat).map (digits.getD · '\x00')).reverse = numeralOf digits base x.toNat := by
    rw [numeralOf, List.map_reverse]
  rw [printDigits, heq, Option.bind_eq_bind, Option.bind_some]
  cases neg with
  | false =>
    change some (emitDown buf' (lowDigits base x.toNat).length) = some (numeralOf digits base x.toNat)
    rw [emitDown_eq (by omega), htake, hrev]
  | true =>
    have hroom : (lowDigits base x.toNat).length < buf'.length := by
      rw [Bool.toNat_true] at hlen
      omega
    change ((storeChar buf' (lowDigits base x.toNat).length '-').bind fun buf => some (emitDown buf _)) =
      some ('-' :: numeralOf digits base x.toNat)
    rw [storeChar, if_pos hroom, Option.bind_some, emitDown_eq (by rw [List.length_set]; omega),
      take_set_succ hroom, htake, List.reverse_concat, hrev]

/-! ## The two functions -/

/-- The value that is printed. -/
def printedValue (xx : BitVec 64) (sign : Bool) : ℤ :=
  if sign then xx.toInt else xx.toNat

/-- Negation gives the magnitude, of the least value too. -/
theorem toNat_neg_of_neg {xx : BitVec 64} (h : xx.toInt < 0) :
    (-xx).toNat = xx.toInt.natAbs ∧ xx.toInt.natAbs ≤ 9223372036854775808 := by
  rw [BitVec.toInt_eq_toNat_cond] at h ⊢
  rw [BitVec.toNat_neg]
  split_ifs at h ⊢ <;> omega

theorem lt_pow_of_base (hbase : base = 10 ∨ base = 16) :
    18446744073709551616 ≤ base ^ 20 ∧ 9223372036854775808 < base ^ 19 := by
  obtain rfl | rfl := hbase
  · decide
  · decide

theorem printDigits_neg {xx : BitVec 64} (hbase : base = 10 ∨ base = 16) (hbuf : buf.length = 20)
    (h : xx.toInt < 0) : printDigits digits base buf (-xx) true = some (signedNumeral digits base xx.toInt) := by
  obtain ⟨habs, hle⟩ := toNat_neg_of_neg h
  have hpow := (lt_pow_of_base hbase).2
  have hlen : (lowDigits base xx.toInt.natAbs).length ≤ 19 :=
    length_lowDigits_le (by omega) (by decide) (by omega)
  rw [← habs] at hlen
  rw [printDigits_eq (by omega) (by rw [Bool.toNat_true]; omega), if_pos rfl, signedNumeral, if_pos h, habs]

theorem printDigits_pos {xx : BitVec 64} (hbase : base = 10 ∨ base = 16) (hbuf : buf.length = 20) :
    printDigits digits base buf xx false = some (signedNumeral digits base xx.toNat) := by
  have hlt : xx.toNat < 18446744073709551616 := xx.isLt
  have hpow := (lt_pow_of_base hbase).1
  have hlen : (lowDigits base xx.toNat).length ≤ 20 := length_lowDigits_le (by omega) (by decide) (by omega)
  rw [printDigits_eq (by omega) (by rw [Bool.toNat_false]; omega), if_neg Bool.false_ne_true, signedNumeral,
    if_neg (by omega), Int.natAbs_natCast]

theorem printedValue_of_nonneg {xx : BitVec 64} {sign : Bool} (h : ¬ (sign && decide (xx.toInt < 0)) = true) :
    printedValue xx sign = xx.toNat := by
  cases sign with
  | false => rfl
  | true =>
    have hnonneg : ¬ xx.toInt < 0 := by simpa using h
    rw [printedValue, if_pos rfl]
    rw [BitVec.toInt_eq_toNat_cond] at hnonneg ⊢
    split_ifs at hnonneg ⊢ <;> omega

theorem printedValue_of_neg {xx : BitVec 64} {sign : Bool} (h : (sign && decide (xx.toInt < 0)) = true) :
    xx.toInt < 0 ∧ printedValue xx sign = xx.toInt := by
  rw [Bool.and_eq_true, decide_eq_true_iff] at h
  exact ⟨h.2, if_pos h.1⟩

theorem Kernel.printint_eq (hbase : base = 10 ∨ base = 16) (hbuf : buf.length = 20) (xx : BitVec 64)
    (sign : Bool) : Kernel.printint buf xx base sign =
      some (signedNumeral Xv6.digitChars base (printedValue xx sign)) := by
  unfold Kernel.printint
  by_cases h : (sign && decide (xx.toInt < 0)) = true
  · obtain ⟨hneg, hvalue⟩ := printedValue_of_neg h
    rw [hvalue, h]
    exact printDigits_neg hbase hbuf hneg
  · rw [printedValue_of_nonneg h, Bool.not_eq_true _ |>.mp h]
    exact printDigits_pos hbase hbuf

theorem Ulib.printint_eq (hbase : base = 10 ∨ base = 16) (hbuf : buf.length = 20) (xx : BitVec 64)
    (sgn : Bool) : Ulib.printint buf xx base sgn =
      some (signedNumeral Ulib.digitChars base (printedValue xx sgn)) := by
  unfold Ulib.printint
  split_ifs with h
  · obtain ⟨hneg, hvalue⟩ := printedValue_of_neg h
    rw [hvalue]
    exact printDigits_neg hbase hbuf hneg
  · rw [printedValue_of_nonneg h]
    exact printDigits_pos hbase hbuf

theorem digitsOf_eq (hbase : 1 < base) (hle : base ≤ 16) :
    digitsOf base x = (lowDigits base x).map (digitChars.getD · '\x00') := by
  have hchar : ∀ d < 16, digitChars.getD d '0' = digitChars.getD d '\x00' := by decide
  induction x using Nat.strongRecOn with
  | ind x ih =>
    have hmod : x % base < base := Nat.mod_lt x (by omega)
    rw [digitsOf, hchar _ (by omega)]
    by_cases hdiv : x / base = 0
    · rw [dif_neg fun h => h.1 hdiv, lowDigits_of_div_eq_zero hbase hdiv, List.map_singleton]
    · have hx : 0 < x := Nat.pos_of_ne_zero fun hx => hdiv (by rw [hx, Nat.zero_div])
      rw [dif_pos ⟨hdiv, hbase⟩, lowDigits_of_div_ne_zero hbase hdiv, List.map_cons,
        ih _ (Nat.div_lt_self hx hbase)]

/-- `printf` can leave the buffer out. -/
theorem Kernel.printint_eq_printint (hbase : base = 10 ∨ base = 16) (hbuf : buf.length = 20) (xx : BitVec 64)
    (sign : Bool) : Kernel.printint buf xx base sign = some (Xv6.printint xx base sign) := by
  have hrev : ∀ n, numeralOf Xv6.digitChars base n = (digitsOf base n).reverse := fun n => by
    rw [digitsOf_eq (by omega) (by omega), numeralOf, List.map_reverse]
  rw [Kernel.printint_eq hbase hbuf, Xv6.printint, BitVec.msb_eq_toInt, signedNumeral]
  by_cases h : (sign && decide (xx.toInt < 0)) = true
  · obtain ⟨hneg, hvalue⟩ := printedValue_of_neg h
    rw [hvalue, if_pos hneg, hrev]
    simp only [h, if_true, List.reverse_append, List.reverse_singleton, (toNat_neg_of_neg hneg).1]
    rfl
  · rw [printedValue_of_nonneg h, if_neg (by omega), Int.natAbs_natCast, hrev]
    simp only [Bool.not_eq_true _ |>.mp h, Bool.false_eq_true, if_false, List.append_nil]

theorem Kernel.printint_eq_printint_neg :
    Kernel.printint (List.replicate 20 '\x00') (-7) 10 true = some (Xv6.printint (-7) 10 true) :=
  Kernel.printint_eq_printint (.inl rfl) rfl _ _

/-- The two tables of digits. -/
theorem digitChars_table {table : List Char} (h : table ∈ [digitChars, Ulib.digitChars]) :
    ∀ d < 16, table.idxOf (table.getD d '\x00') = d ∧ table.getD d '\x00' ≠ '-' := by
  rw [List.mem_cons, List.mem_singleton] at h
  obtain rfl | rfl := h
  · decide
  · decide

/-- Both functions stay inside their buffer and print the numeral of the value : it has no leading zeros and is
read as the value. -/
theorem printint_numeral (hbase : base = 10 ∨ base = 16) (hbuf : buf.length = 20) (xx : BitVec 64) (sign : Bool) :
    Kernel.printint buf xx base sign = some (signedNumeral digitChars base (printedValue xx sign)) ∧
      Ulib.printint buf xx base sign = some (signedNumeral Ulib.digitChars base (printedValue xx sign)) ∧
      ∀ table ∈ [digitChars, Ulib.digitChars],
        readNumeral table base (signedNumeral table base (printedValue xx sign)) = printedValue xx sign ∧
        (printedValue xx sign ≠ 0 →
          (numeralOf table base (printedValue xx sign).natAbs).head? ≠ some (table.getD 0 '\x00')) := by
  refine ⟨Kernel.printint_eq hbase hbuf xx sign, Ulib.printint_eq hbase hbuf xx sign, fun table htable => ?_⟩
  have hdigits := digitChars_table htable
  have hread : ∀ d < base, table.idxOf (table.getD d '\x00') = d := fun d hd => (hdigits d (by omega)).1
  exact ⟨readNumeral_signedNumeral (by omega) hread (fun d hd => (hdigits d (by omega)).2) _,
    fun hne => head_numeralOf (by omega) hread (Int.natAbs_ne_zero.mpr hne)⟩

/-- The least value, which fills the buffer. -/
theorem printint_numeral_min : (List.replicate 20 'x').length = 20 ∧
    Kernel.printint (List.replicate 20 'x') (BitVec.intMin 64) 10 true = some "-9223372036854775808".toList := by
  refine ⟨rfl, ?_⟩
  have h := (printint_numeral (.inl rfl) (List.length_replicate (n := 20) (a := 'x')) (BitVec.intMin 64) true).1
  rw [h]
  decide

end Xv6
