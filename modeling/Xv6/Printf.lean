import Mathlib.Tactic.SplitIfs
import Xv6.Thermal

/-!
# The kernel's `printf`

`printf` of kernel/printf.c, as the characters it sends to the console : the loop over the format with its
conversions, and `printint` with its buffer of digits, which it fills from the last digit on and then
prints backwards. A variadic argument is the 64-bit register it is passed in, or a string.

A number that is not negative is printed as its decimal numeral (`printint_ofInt`), from which it can be
read again (`numeral_value`).
-/

namespace Xv6

/-- A variadic argument. -/
inductive Arg
  | num (x : BitVec 64)
  | str (s : Option (List Char))

/-- An `int` as an argument. -/
def Arg.int (x : Int) : Arg :=
  .num (BitVec.ofInt 64 x)

/-- The table `digits`. -/
def digitChars : List Char :=
  "0123456789abcdef".toList

/-- The digits of `x`, the last one first. -/
def digitsOf (base x : ℕ) : List Char :=
  if h : x / base ≠ 0 ∧ 1 < base then
    digitChars.getD (x % base) '0' :: digitsOf base (x / base)
  else [digitChars.getD (x % base) '0']
termination_by x
decreasing_by exact Nat.div_lt_self (Nat.pos_of_ne_zero fun hx => h.1 (by rw [hx, Nat.zero_div])) h.2

/-- `printint`. -/
def printint (xx : BitVec 64) (base : ℕ) (sign : Bool) : List Char :=
  let sign := sign && xx.msb
  let x := if sign then (-xx).toNat else xx.toNat
  (digitsOf base x ++ if sign then ['-'] else []).reverse

/-- `printptr`. -/
def printptr (x : BitVec 64) : List Char :=
  '0' :: 'x' :: (List.range 16).map fun i =>
    digitChars.getD ((x <<< (4 * i)) >>> 60).toNat '0'

/-- What a `%` sequence of a format asks for. -/
inductive Conversion
  | signed32
  | signed64
  | unsigned32 (base : ℕ)
  | unsigned64 (base : ℕ)
  | pointer
  | char
  | string
  | percent
  | stop
  | unknown

/-- The conversion that begins with `c0`, and how many of the two characters after it belong to it. -/
def conversion (c0 c1 c2 : Char) : Conversion × ℕ :=
  if c0 = 'd' then (.signed32, 0)
  else if c0 = 'l' ∧ c1 = 'd' then (.signed64, 1)
  else if c0 = 'l' ∧ c1 = 'l' ∧ c2 = 'd' then (.signed64, 2)
  else if c0 = 'u' then (.unsigned32 10, 0)
  else if c0 = 'l' ∧ c1 = 'u' then (.unsigned64 10, 1)
  else if c0 = 'l' ∧ c1 = 'l' ∧ c2 = 'u' then (.unsigned64 10, 2)
  else if c0 = 'x' then (.unsigned32 16, 0)
  else if c0 = 'l' ∧ c1 = 'x' then (.unsigned64 16, 1)
  else if c0 = 'l' ∧ c1 = 'l' ∧ c2 = 'x' then (.unsigned64 16, 2)
  else if c0 = 'p' then (.pointer, 0)
  else if c0 = 'c' then (.char, 0)
  else if c0 = 's' then (.string, 0)
  else if c0 = '%' then (.percent, 0)
  else if c0 = '\x00' then (.stop, 0)
  else (.unknown, 0)

/-- `va_arg` of a number. -/
def vaNum : List Arg → BitVec 64
  | .num x :: _ => x
  | _ => 0

/-- `va_arg` of a string; NULL is printed as `(null)`. -/
def vaStr : List Arg → List Char
  | .str (some s) :: _ => s
  | _ => "(null)".toList

/-- `printf`, where the next `skip` characters of the format are done with. -/
def printfFrom : List Char → ℕ → List Arg → List Char
  | [], _, _ => []
  | _ :: fmt, skip + 1, args => printfFrom fmt skip args
  | cx :: fmt, 0, args =>
    if cx ≠ '%' then cx :: printfFrom fmt 0 args
    else
      let c0 := fmt.getD 0 '\x00'
      match conversion c0 (fmt.getD 1 '\x00') (fmt.getD 2 '\x00') with
      | (.signed32, i) => printint (((vaNum args).setWidth 32).signExtend 64) 10 true ++
        printfFrom fmt (i + 1) args.tail
      | (.signed64, i) => printint (vaNum args) 10 true ++ printfFrom fmt (i + 1) args.tail
      | (.unsigned32 base, i) => printint (((vaNum args).setWidth 32).setWidth 64) base false ++
        printfFrom fmt (i + 1) args.tail
      | (.unsigned64 base, i) => printint (vaNum args) base false ++ printfFrom fmt (i + 1) args.tail
      | (.pointer, i) => printptr (vaNum args) ++ printfFrom fmt (i + 1) args.tail
      | (.char, i) => Char.ofNat ((vaNum args).setWidth 8).toNat :: printfFrom fmt (i + 1) args.tail
      | (.string, i) => vaStr args ++ printfFrom fmt (i + 1) args.tail
      | (.percent, i) => '%' :: printfFrom fmt (i + 1) args
      | (.stop, _) => []
      | (.unknown, i) => '%' :: c0 :: printfFrom fmt (i + 1) args

def printf (fmt : String) (args : List Arg) : List Char :=
  printfFrom fmt.toList 0 args

/-! ## Formats, piece by piece -/

theorem printfFrom_nil (args : List Arg) : printfFrom [] 0 args = [] := rfl

theorem printfFrom_append {w : List Char} (hw : ∀ c ∈ w, c ≠ '%') (fmt : List Char) (args : List Arg) :
    printfFrom (w ++ fmt) 0 args = w ++ printfFrom fmt 0 args := by
  induction w with
  | nil => rfl
  | cons c w ih =>
    rw [List.cons_append, printfFrom, if_pos (hw c List.mem_cons_self),
      ih fun c hc => hw c (List.mem_cons_of_mem _ hc), List.cons_append]

theorem printfFrom_d (fmt : List Char) (x : BitVec 64) (args : List Arg) :
    printfFrom ('%' :: 'd' :: fmt) 0 (.num x :: args) =
      printint ((x.setWidth 32).signExtend 64) 10 true ++ printfFrom fmt 0 args := rfl

theorem printfFrom_s (fmt s : List Char) (args : List Arg) :
    printfFrom ('%' :: 's' :: fmt) 0 (.str (some s) :: args) = s ++ printfFrom fmt 0 args := rfl

/-! ## Numerals -/

/-- The decimal numeral of a number. -/
def numeral (n : ℕ) : List Char :=
  (digitsOf 10 n).reverse

theorem printint_ofInt {x : Int} (h0 : 0 ≤ x) (hx : x < 2147483648) :
    printint (((BitVec.ofInt 64 x).setWidth 32).signExtend 64) 10 true = numeral x.toNat := by
  obtain ⟨n, rfl⟩ := Int.eq_ofNat_of_zero_le h0
  have hn : n < 2147483648 := by omega
  have hmsb : ((BitVec.ofInt 64 (n : Int)).setWidth 32).msb = false := by
    rw [BitVec.msb_eq_decide]
    simp
    omega
  have hnat : (((BitVec.ofInt 64 (n : Int)).setWidth 32).signExtend 64).toNat = n := by
    rw [BitVec.signExtend_eq_setWidth_of_msb_false hmsb]
    simp
    omega
  have hpos : (((BitVec.ofInt 64 (n : Int)).setWidth 32).signExtend 64).msb = false := by
    rw [BitVec.msb_eq_decide, hnat]
    simp
    omega
  simp only [printint, hpos, hnat, numeral, Bool.and_false, Bool.false_eq_true, if_false,
    List.append_nil, Int.toNat_natCast]

theorem numeral_of_lt {n : ℕ} (h : n < 10) : numeral n = [digitChars.getD n '0'] := by
  rw [numeral, digitsOf, dif_neg (by omega), Nat.mod_eq_of_lt h]
  rfl

theorem numeral_of_le {n : ℕ} (h : 10 ≤ n) :
    numeral n = numeral (n / 10) ++ [digitChars.getD (n % 10) '0'] := by
  rw [numeral, digitsOf, dif_pos (by omega), List.reverse_cons, numeral]

theorem digitChars_digit : ∀ d < 10, (digitChars.getD d '0').isDigit = true ∧
    (digitChars.getD d '0').toNat = 48 + d := by
  decide

theorem numeral_ne_nil (n : ℕ) : numeral n ≠ [] := by
  by_cases h : n < 10
  · simp [numeral_of_lt h]
  · simp [numeral_of_le (Nat.le_of_not_lt h)]

theorem isDigit_of_mem_numeral {n : ℕ} {c : Char} (h : c ∈ numeral n) : c.isDigit = true := by
  induction n using Nat.strongRecOn with
  | ind n ih =>
    by_cases hn : n < 10
    · rw [numeral_of_lt hn, List.mem_singleton] at h
      exact h ▸ (digitChars_digit n hn).1
    · rw [numeral_of_le (Nat.le_of_not_lt hn), List.mem_append, List.mem_singleton] at h
      obtain h | rfl := h
      · exact ih (n / 10) (by omega) h
      · exact (digitChars_digit _ (Nat.mod_lt n (by decide))).1

/-- A numeral is read as the number, by any reader that knows the digits. -/
theorem numeral_value {v : Char → ℕ} (hv : ∀ c : Char, c.isDigit = true → v c = c.toNat - 48) (n : ℕ) :
    (numeral n).foldl (fun a c => 10 * a + v c) 0 = n := by
  induction n using Nat.strongRecOn with
  | ind n ih =>
    have hd := digitChars_digit _ (Nat.mod_lt n (show 0 < 10 by decide))
    by_cases hn : n < 10
    · rw [Nat.mod_eq_of_lt hn] at hd
      rw [numeral_of_lt hn, List.foldl_cons, List.foldl_nil, hv _ hd.1, hd.2]
      omega
    · rw [numeral_of_le (Nat.le_of_not_lt hn), List.foldl_append, ih (n / 10) (by omega), List.foldl_cons,
        List.foldl_nil, hv _ hd.1, hd.2]
      omega

end Xv6
