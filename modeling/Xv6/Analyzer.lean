import Mathlib.Data.List.DropRight
import Xv6.Overlay
import Xv6.Printf
import Xv6.Regex

/-!
# The scheduler's log and its analyser

The lines that `scheduler()` prints, and `parse_schedtest_output` of analyze_schedtest.py, which reads
them again. The kernel pads the label of the hot zone to four characters, and the analyser's
pattern for a zone has no place for a blank : a line is read as it was printed if and only if the
CPU is not in its hot zone (`thermal_line_parsed_iff`).

Python's tables of characters outside ASCII are a parameter, `CharTable`.
-/

namespace Xv6

-- a property of the characters of a text is decided by going over the text, not over all characters
local instance (priority := high) decidableForallChars (l : List Char) (p : Char → Prop) [DecidablePred p] :
    Decidable (∀ c ∈ l, p c) :=
  List.decidableBAll p l

local instance (priority := high) decidableForallChar (o : Option Char) (p : Char → Prop) [DecidablePred p] :
    Decidable (∀ c ∈ o, p c) :=
  Option.decidableForallMem o

/-! ## The log -/

/-- The label of a zone in the log. -/
def Zone.label : Zone → List Char
  | cool => "COOL".toList
  | warm => "WARM".toList
  | hot => "HOT ".toList

/-- The text of a [THERMAL] line. -/
def thermalText (temp : Int) (zone : Zone) (pid heat : Int) (name : List Char) (skipped : Int) :
    List Char :=
  printf "  [THERMAL] Temp: %d [%s] | PID: %d | Heat: %d | %s"
    [.int temp, .str (some zone.label), .int pid, .int heat, .str (some name)] ++
  (if skipped > 0 then printf " | %d skipped" [.int skipped] else []) ++
  printf "\n" []

/-- The text of a [COOLING] line. -/
def coolingText (temp : Int) : List Char :=
  printf "  [COOLING] Temp: %d/%d  | Throttling -- idle cycle to cool down\n" [.int temp, .int THROTTLE_TEMP]

/-! ## The analyser -/

/-- The code points that Python takes for white space, from the first to the last of a range. -/
def spaceRanges : List (ℕ × ℕ) :=
  [(0x09, 0x0d), (0x1c, 0x20), (0x85, 0x85), (0xa0, 0xa0), (0x1680, 0x1680), (0x2000, 0x200a),
    (0x2028, 0x2029), (0x202f, 0x202f), (0x205f, 0x205f), (0x3000, 0x3000)]

/-- The class `\s`. -/
def isSpace (c : Char) : Bool :=
  spaceRanges.any fun r => r.1 ≤ c.toNat && c.toNat ≤ r.2

/-- Python's tables of decimal digits, with their values, and of letters and digits. -/
structure CharTable where
  decimal : Char → Option ℕ
  alnum : Char → Bool
  decimal_ascii : ∀ c : Char, c.toNat < 128 →
    decimal c = if c.isDigit then some (c.toNat - 48) else none
  alnum_ascii : ∀ c : Char, c.toNat < 128 → alnum c = c.isAlphanum
  decimal_space : ∀ c : Char, isSpace c = true → decimal c = none

/-- The groups of the patterns. -/
inductive LogField
  | temp
  | zone
  | pid
  | heat
  | name
  | skipped
  | childId
  | rounds
  deriving DecidableEq

namespace CharTable

variable (tab : CharTable)

/-- The class `\d`. -/
def digit (c : Char) : Bool :=
  (tab.decimal c).isSome

/-- The class `\w`. -/
def word (c : Char) : Bool :=
  tab.alnum c || c == '_'

/-- `int` of a text of digits. -/
def int (s : List Char) : ℕ :=
  s.foldl (fun a c => 10 * a + (tab.decimal c).getD 0) 0

end CharTable

/-- `str.strip`. -/
def strip (s : List Char) : List Char :=
  (s.dropWhile isSpace).rdropWhile isSpace

open Pattern in
/-- THERMAL_RE. -/
def THERMAL_RE (tab : CharTable) : Pattern LogField :=
  all [lit "[THERMAL]".toList, plus isSpace, lit "Temp:".toList, many isSpace, group .temp (plus tab.digit),
    plus isSpace, lit "[".toList, group .zone (plus tab.word), lit "]".toList, many isSpace, lit "|".toList,
    many isSpace, lit "PID:".toList, many isSpace, group .pid (plus tab.digit), many isSpace, lit "|".toList,
    many isSpace, lit "Heat:".toList, many isSpace, group .heat (plus tab.digit), many isSpace,
    lit "|".toList, many isSpace, group .name (plus fun c => !isSpace c),
    opt (all [many isSpace, lit "|".toList, many isSpace, group .skipped (plus tab.digit), plus isSpace,
      lit "skipped".toList])]

open Pattern in
/-- COOLING_RE. -/
def COOLING_RE (tab : CharTable) : Pattern LogField :=
  all [lit "[COOLING]".toList, plus isSpace, lit "Temp:".toList, many isSpace, group .temp (plus tab.digit)]

open Pattern in
/-- MATRIX_CHILD_RE. -/
def MATRIX_CHILD_RE (tab : CharTable) : Pattern LogField :=
  all [opt (lit "matrix: ".toList), lit "Child".toList, plus isSpace, group .childId (plus tab.digit),
    plus isSpace, lit "(PID".toList, plus isSpace, group .pid (plus tab.digit), lit "):".toList, many isSpace,
    group .rounds (plus tab.digit), plus isSpace, lit "rounds,".toList]

open Pattern in
/-- FORK_RE. -/
def FORK_RE (tab : CharTable) : Pattern LogField :=
  all [lit "Parent: Forked child".toList, plus isSpace, group .childId (plus tab.digit), plus isSpace,
    lit "with PID".toList, plus isSpace, group .pid (plus tab.digit)]

/-- The types of records. -/
inductive RecordType
  | run
  | cooling
  deriving DecidableEq, Repr

/-- A record of the analyser. -/
structure LogRecord where
  type : RecordType
  temp : ℕ
  pid : ℕ
  heat : ℕ
  name : List Char
  zone : List Char
  skipped : ℕ
  deriving DecidableEq, Repr

/-- What `parse_schedtest_output` returns; the dictionaries as lists, in the order of their keys. -/
structure Parsed where
  records : List LogRecord
  pidToChild : List (ℕ × ℕ)
  pidToName : List (ℕ × List Char)

namespace CharTable

variable (tab : CharTable)

/-- `int(m.group(i))`. -/
def intGroup (m : LogField → Option (List Char)) (i : LogField) : ℕ :=
  tab.int ((m i).getD [])

/-- The record of a match of THERMAL_RE. -/
def runRecord (m : LogField → Option (List Char)) : LogRecord where
  type := .run
  temp := tab.intGroup m .temp
  pid := tab.intGroup m .pid
  heat := tab.intGroup m .heat
  name := (m .name).getD []
  zone := (m .zone).getD []
  skipped := if (m .skipped).getD [] ≠ [] then tab.intGroup m .skipped else 0

/-- The record of a match of COOLING_RE. -/
def coolingRecord (m : LogField → Option (List Char)) : LogRecord where
  type := .cooling
  temp := tab.intGroup m .temp
  pid := 0
  heat := 0
  name := "idle".toList
  zone := "COOL".toList
  skipped := 0

/-- One turn of the loop of `parse_schedtest_output`. -/
def parseLine (out : Parsed) (line : List Char) : Parsed :=
  let line := strip line
  if line = [] then out
  else match (THERMAL_RE tab).search line with
  | some m =>
    { out with
      records := out.records ++ [tab.runRecord m]
      pidToName := record out.pidToName (tab.intGroup m .pid) ((m .name).getD []) }
  | none => match (COOLING_RE tab).search line with
  | some m => { out with records := out.records ++ [tab.coolingRecord m] }
  | none => match (MATRIX_CHILD_RE tab).search line with
  | some m => { out with pidToChild := record out.pidToChild (tab.intGroup m .pid) (tab.intGroup m .childId) }
  | none => match (FORK_RE tab).search line with
  | some m => { out with pidToChild := record out.pidToChild (tab.intGroup m .pid) (tab.intGroup m .childId) }
  | none => out

/-- `parse_schedtest_output`. -/
def parseSchedtestOutput (lines : List (List Char)) : Parsed :=
  lines.foldl tab.parseLine ⟨[], [], []⟩

end CharTable

/-! ## The text of a line -/

theorem printfFrom_int (fmt : List Char) {x : Int} (args : List Arg) (h0 : 0 ≤ x) (hx : x < 2147483648) :
    printfFrom ('%' :: 'd' :: fmt) 0 (.int x :: args) = numeral x.toNat ++ printfFrom fmt 0 args := by
  rw [Arg.int, printfFrom_d, printint_ofInt h0 hx]

/-- The end of a [THERMAL] line. -/
def skippedSuffix (skipped : Int) : List Char :=
  if skipped > 0 then
    " ".toList ++ ("|".toList ++ (" ".toList ++ (numeral skipped.toNat ++ (" ".toList ++ "skipped".toList))))
  else []

/-- A [THERMAL] line from its zone on. -/
def zoneLine (label : List Char) (pid heat : Int) (name rest : List Char) : List Char :=
  "[".toList ++ (label ++ ("]".toList ++ (" ".toList ++ ("|".toList ++ (" ".toList ++ ("PID:".toList ++
    (" ".toList ++ (numeral pid.toNat ++ (" ".toList ++ ("|".toList ++ (" ".toList ++ ("Heat:".toList ++
      (" ".toList ++ (numeral heat.toNat ++ (" ".toList ++ ("|".toList ++ (" ".toList ++
        (name ++ rest))))))))))))))))))

/-- A [THERMAL] line, in the pieces of its pattern. -/
def thermalLine (temp : Int) (rest : List Char) : List Char :=
  "[THERMAL]".toList ++ (" ".toList ++ ("Temp:".toList ++ (" ".toList ++ (numeral temp.toNat ++
    (" ".toList ++ rest)))))

theorem thermalText_eq {temp pid heat skipped : Int} {z : Zone} {name : List Char}
    (htemp : 0 ≤ temp) (htemp' : temp < 2147483648) (hpid : 0 ≤ pid) (hpid' : pid < 2147483648)
    (hheat : 0 ≤ heat) (hheat' : heat < 2147483648) (hskipped : skipped < 2147483648) :
    thermalText temp z pid heat name skipped = "  ".toList ++
      (thermalLine temp (zoneLine z.label pid heat name (skippedSuffix skipped)) ++ "\n".toList) := by
  have hfmt : "  [THERMAL] Temp: %d [%s] | PID: %d | Heat: %d | %s".toList =
      "  ".toList ++ ("[THERMAL]".toList ++ (" ".toList ++ ("Temp:".toList ++ (" ".toList ++ '%' :: 'd' ::
      (" ".toList ++ ("[".toList ++ '%' :: 's' :: ("]".toList ++ (" ".toList ++ ("|".toList ++ (" ".toList ++
      ("PID:".toList ++ (" ".toList ++ '%' :: 'd' :: (" ".toList ++ ("|".toList ++ (" ".toList ++
      ("Heat:".toList ++ (" ".toList ++ '%' :: 'd' :: (" ".toList ++ ("|".toList ++ (" ".toList ++
      '%' :: 's' :: [])))))))))))))))))))) := by
    simp
  have hskip : (if skipped > 0 then printf " | %d skipped" [.int skipped] else []) =
      skippedSuffix skipped := by
    unfold skippedSuffix
    split_ifs with h
    · have hfmt : " | %d skipped".toList = " ".toList ++ ("|".toList ++ (" ".toList ++ '%' :: 'd' ::
          (" ".toList ++ ("skipped".toList ++ [])))) := by
        simp
      have hpos : 0 ≤ skipped := by omega
      rw [printf, hfmt]
      simp (disch := first | assumption | decide) only [printfFrom_append, printfFrom_int, printfFrom_nil]
      rw [List.append_nil]
    · rfl
  have hnewline : printf "\n" [] = "\n".toList := by simp [printf, printfFrom]
  rw [thermalText, hskip, hnewline, printf, hfmt]
  simp (disch := first | assumption | decide) only [printfFrom_append, printfFrom_int, printfFrom_s,
    printfFrom_nil, List.append_nil]
  unfold thermalLine zoneLine
  simp only [List.append_assoc]

/-! ## Classes of characters -/

theorem isDigit_bounds {c : Char} (h : c.isDigit = true) : 48 ≤ c.toNat ∧ c.toNat ≤ 57 := by
  simp only [Char.isDigit, ge_iff_le, Bool.and_eq_true, decide_eq_true_eq, UInt32.le_iff_toNat_le] at h
  exact h

theorem isSpace_of_isDigit {c : Char} (h : c.isDigit = true) : isSpace c = false := by
  have hcode : ∀ v < 58, 48 ≤ v → (spaceRanges.any fun r => r.1 ≤ v && v ≤ r.2) = false := by decide
  obtain ⟨h48, h57⟩ := isDigit_bounds h
  exact hcode _ (by omega) h48

namespace CharTable

variable {tab : CharTable}

theorem decimal_of_isDigit {c : Char} (h : c.isDigit = true) : tab.decimal c = some (c.toNat - 48) := by
  obtain ⟨h48, h57⟩ := isDigit_bounds h
  rw [tab.decimal_ascii c (by omega), if_pos h]

theorem digit_of_isDigit {c : Char} (h : c.isDigit = true) : tab.digit c = true := by
  rw [digit, decimal_of_isDigit h]
  rfl

theorem digit_of_ascii {c : Char} (hc : c.toNat < 128) (h : c.isDigit = false) : tab.digit c = false := by
  rw [digit, tab.decimal_ascii c hc, h]
  rfl

theorem digit_of_isSpace {c : Char} (h : isSpace c = true) : tab.digit c = false := by
  rw [digit, tab.decimal_space c h]
  rfl

theorem isSpace_of_digit {c : Char} (h : tab.digit c = true) : isSpace c = false := by
  by_contra hc
  rw [digit_of_isSpace (Bool.not_eq_false _ ▸ hc)] at h
  cases h

theorem word_of_ascii {c : Char} (hc : c.toNat < 128) : tab.word c = (c.isAlphanum || c == '_') := by
  rw [word, tab.alnum_ascii c hc]

/-- A numeral is read as the number it was printed from. -/
theorem int_numeral (n : ℕ) : tab.int (numeral n) = n :=
  numeral_value (fun c hc => by rw [decimal_of_isDigit hc]; rfl) n

end CharTable

theorem head_append {p : Char → Bool} {w : List Char} (hne : w ≠ []) (hw : ∀ c ∈ w.head?, p c = false)
    (s : List Char) : ∀ c ∈ (w ++ s).head?, p c = false := by
  rwa [List.head?_append_of_ne_nil _ hne]

/-- The first character of a numeral, and of what begins with one, is a digit. -/
theorem head_numeral {p : Char → Bool} (hp : ∀ c : Char, c.isDigit = true → p c = false) (n : ℕ)
    (s : List Char) : ∀ c ∈ (numeral n ++ s).head?, p c = false := by
  exact head_append (numeral_ne_nil n)
    (fun c hc => hp c (isDigit_of_mem_numeral (List.mem_of_mem_head? hc))) s

/-! ## Lines that are read -/

theorem strip_eq {u v w : List Char} (hu : ∀ c ∈ u, isSpace c = true) (hv : ∀ c ∈ v, isSpace c = true)
    (hhead : ∀ c ∈ w.head?, isSpace c = false) (hlast : ∀ c ∈ w.getLast?, isSpace c = false)
    (hw : w ≠ []) : strip (u ++ (w ++ v)) = w := by
  have hleft : (u ++ (w ++ v)).dropWhile isSpace = w ++ v := by
    rw [List.dropWhile_append_of_pos hu]
    obtain ⟨c, w, rfl⟩ := List.exists_cons_of_ne_nil hw
    rw [List.cons_append, List.dropWhile_cons_of_neg]
    simp [hhead c rfl]
  obtain ⟨c, t, hrev⟩ := List.exists_cons_of_ne_nil (mt List.reverse_eq_nil_iff.mp hw)
  have hc : isSpace c = false := hlast c (by rw [← List.head?_reverse, hrev]; rfl)
  rw [strip, hleft, List.rdropWhile, List.reverse_append,
    List.dropWhile_append_of_pos fun c hc => hv c (List.mem_reverse.mp hc), hrev,
    List.dropWhile_cons_of_neg (by simp [hc]), ← hrev, List.reverse_reverse]

variable {tab : CharTable}

/-- The groups of a [THERMAL] line. -/
def thermalGroups (temp : Int) (label : List Char) (pid heat : Int) (name : List Char) (skipped : Int) :
    LogField → Option (List Char)
  | .temp => some (numeral temp.toNat)
  | .zone => some label
  | .pid => some (numeral pid.toNat)
  | .heat => some (numeral heat.toNat)
  | .name => some name
  | .skipped => if skipped > 0 then some (numeral skipped.toNat) else none
  | _ => none

open Pattern in
variable (tab) in
/-- A line whose label is a word is read. -/
theorem thermal_matchAt (temp pid heat skipped : Int) {label name : List Char} (hlabel : label ≠ [])
    (hword : ∀ c ∈ label, tab.word c = true) (hname : name ≠ [])
    (hspace : ∀ c ∈ name, isSpace c = false) :
    (THERMAL_RE tab).matchAt (thermalLine temp (zoneLine label pid heat name (skippedSuffix skipped))) =
      some (thermalGroups temp label pid heat name skipped) := by
  have hblanks : ∀ c ∈ " ".toList, isSpace c = true := by decide
  have hdigits : ∀ n, ∀ c ∈ numeral n, tab.digit c = true := fun n c hc =>
    CharTable.digit_of_isDigit (isDigit_of_mem_numeral hc)
  have hblank : ∀ c ∈ " ".toList.head?, tab.digit c = false := by
    rintro c ⟨⟩
    exact CharTable.digit_of_ascii (by decide) (by decide)
  have hbracket : ∀ c ∈ "]".toList.head?, tab.word c = false := by
    rintro c ⟨⟩
    exact CharTable.word_of_ascii (by decide)
  have hnum := head_numeral (p := isSpace) fun c hc => isSpace_of_isDigit hc
  have hhead : ∀ rest, ∀ c ∈ (name ++ rest).head?, isSpace c = false := by
    intro rest c hc
    rw [List.head?_append_of_ne_nil _ hname] at hc
    exact hspace c (List.mem_of_mem_head? hc)
  unfold THERMAL_RE matchAt thermalLine zoneLine
  simp only [exec_all_cons, exec_lit_append]
  refine exec_plus_append (by decide) hblanks (head_append (by decide) (by decide) _) ?_
  simp only [exec_lit_append]
  refine exec_many_append hblanks (hnum _ _) ?_
  refine exec_group_append (numeral_ne_nil _) (hdigits _) (head_append (by decide) hblank _) ?_
  refine exec_plus_append (by decide) hblanks (head_append (by decide) (by decide) _) ?_
  simp only [exec_lit_append]
  refine exec_group_append hlabel hword (head_append (by decide) hbracket _) ?_
  simp only [exec_lit_append]
  refine exec_many_append hblanks (head_append (by decide) (by decide) _) ?_
  simp only [exec_lit_append]
  refine exec_many_append hblanks (head_append (by decide) (by decide) _) ?_
  simp only [exec_lit_append]
  refine exec_many_append hblanks (hnum _ _) ?_
  refine exec_group_append (numeral_ne_nil _) (hdigits _) (head_append (by decide) hblank _) ?_
  refine exec_many_append hblanks (head_append (by decide) (by decide) _) ?_
  simp only [exec_lit_append]
  refine exec_many_append hblanks (head_append (by decide) (by decide) _) ?_
  simp only [exec_lit_append]
  refine exec_many_append hblanks (hnum _ _) ?_
  refine exec_group_append (numeral_ne_nil _) (hdigits _) (head_append (by decide) hblank _) ?_
  refine exec_many_append hblanks (head_append (by decide) (by decide) _) ?_
  simp only [exec_lit_append]
  refine exec_many_append hblanks (hhead _) ?_
  refine exec_group_append hname (fun c hc => by rw [hspace c hc]; rfl) ?_ ?_
  · unfold skippedSuffix
    split_ifs
    · exact head_append (by decide) (by decide) _
    · rintro c ⟨⟩
  unfold skippedSuffix
  split_ifs with h
  · refine exec_opt_of_some ?_
    simp only [exec_all_cons]
    refine exec_many_append hblanks (head_append (by decide) (by decide) _) ?_
    simp only [exec_lit_append]
    refine exec_many_append hblanks (hnum _ _) ?_
    refine exec_group_append (numeral_ne_nil _) (hdigits _) (head_append (by decide) hblank _) ?_
    refine exec_plus_append (by decide) hblanks (by decide) ?_
    rw [exec_lit_self, exec_all_nil, exec_all_nil, Option.some.injEq]
    funext i
    cases i
    all_goals simp [thermalGroups, h]
  · rw [exec_opt_of_none rfl, exec_all_nil, Option.some.injEq]
    funext i
    cases i
    all_goals simp [thermalGroups, h]

/-! ## Lines that are not read -/

section Tag

variable {tag s w : List Char} {as : List (Pattern LogField)}

/-- The text begins as THERMAL_RE and COOLING_RE ask for, each with its own tag. -/
def Headed (tag s : List Char) : Prop :=
  ∃ w t, w ≠ [] ∧ (∀ c ∈ w, isSpace c = true) ∧ s = tag ++ (w ++ ("Temp:".toList ++ t))

/-- THERMAL_RE and COOLING_RE up to the temperature. -/
def headedRe (tag : List Char) (as : List (Pattern LogField)) : Pattern LogField :=
  .all (.lit tag :: .plus isSpace :: .lit "Temp:".toList :: as)

theorem matchAt_of_not_headed (h : ¬ Headed tag s) : (headedRe tag as).matchAt s = none := by
  refine Pattern.matchAt_eq_none fun u t hs hu => h ?_
  obtain ⟨u₁, v₁, rfl, h₁, hu⟩ := Pattern.matches_all_cons hu
  obtain ⟨u₂, v₂, rfl, h₂, hu⟩ := Pattern.matches_all_cons hu
  obtain ⟨u₃, v₃, rfl, h₃, -⟩ := Pattern.matches_all_cons hu
  obtain rfl := Pattern.matches_lit h₁
  obtain rfl := Pattern.matches_lit h₃
  obtain ⟨hne, hspace⟩ := Pattern.matches_plus h₂
  exact ⟨u₂, v₃ ++ t, hne, hspace, by rw [hs]; simp only [List.append_assoc]⟩

/-- Two tags that differ in their second characters. -/
theorem not_headed_of_second (htag : 1 < tag.length) (hw : 1 < w.length) (h : w[1]? ≠ tag[1]?) :
    ¬ Headed tag (w ++ s) := by
  rintro ⟨x, t, -, -, heq⟩
  have hsecond := congrArg (fun s => s[1]?) heq
  rw [List.getElem?_append_left hw, List.getElem?_append_left htag] at hsecond
  exact h hsecond

/-- The search passes over a text without the first character of the tag. -/
theorem search_skip {c : Char} (htag : tag.head? = some c) (hw : ∀ d ∈ w, d ≠ c) :
    (headedRe tag as).search (w ++ s) = (headedRe tag as).search s := by
  obtain ⟨t, rfl⟩ := List.head?_eq_some_iff.mp htag
  refine Pattern.search_append fun u v hv hne => matchAt_of_not_headed ?_
  rintro ⟨x, y, -, -, h⟩
  obtain ⟨d, v, rfl⟩ := List.exists_cons_of_ne_nil hne
  rw [List.cons_append, List.cons_append, List.cons.injEq] at h
  exact hw d (by simp [hv]) h.1

theorem search_nil (htag : tag ≠ []) : (headedRe tag as).search [] = none := by
  refine matchAt_of_not_headed ?_
  rintro ⟨x, y, -, -, h⟩
  exact htag (List.append_eq_nil_iff.mp h.symm).1

variable {name : List Char}

theorem not_headed_name (htag : ∀ c ∈ tag, isSpace c = false) (hname : ∀ c ∈ name, isSpace c = false)
    (skipped : Int) : ¬ Headed tag (name ++ skippedSuffix skipped) := by
  rintro ⟨w, t, hne, hw, h⟩
  have hrest : ∀ c ∈ (skippedSuffix skipped).head?, (!isSpace c) = false := by
    unfold skippedSuffix
    split_ifs
    · exact head_append (by decide) (by decide) _
    · rintro c ⟨⟩
  have hgap : ∀ c ∈ (w ++ ("Temp:".toList ++ t)).head?, (!isSpace c) = false := by
    intro c hc
    rw [List.head?_append_of_ne_nil _ hne] at hc
    rw [hw c (List.mem_of_mem_head? hc)]
    rfl
  obtain ⟨-, h⟩ := append_inj_of_class (p := fun c => !isSpace c) h (fun c hc => by rw [hname c hc]; rfl)
    (fun c hc => by rw [htag c hc]; rfl) hrest hgap
  unfold skippedSuffix at h
  split_ifs at h
  · obtain ⟨-, h⟩ := append_inj_of_class (p := isSpace) h (by decide) hw
      (head_append (by decide) (by decide) _) (head_append (by decide) (by decide) _)
    cases h
  · exact hne (List.append_eq_nil_iff.mp h.symm).1

/-- No match begins in the name of a process, or after it. -/
theorem search_name (hhead : tag.head? = some '[') (htag : ∀ c ∈ tag, isSpace c = false)
    (hname : ∀ c ∈ name, isSpace c = false) (skipped : Int) :
    (headedRe tag as).search (name ++ skippedSuffix skipped) = none := by
  have hnum : ∀ n, ∀ c ∈ numeral n, c ≠ '[' := by
    rintro n c hc rfl
    exact absurd (isDigit_of_mem_numeral hc) (by decide)
  have hrest : (headedRe tag as).search (skippedSuffix skipped ++ []) = none := by
    rw [search_skip hhead, search_nil (by rintro rfl; cases hhead)]
    unfold skippedSuffix
    split_ifs
    · simp only [List.mem_append]
      rintro c (hc | hc | hc | hc | hc | hc)
      all_goals first | exact hnum _ c hc | exact (by decide : ∀ c ∈ _, c ≠ '[') c hc
    · rintro c ⟨⟩
  rw [List.append_nil] at hrest
  rw [Pattern.search_append, hrest]
  intro u v hv _
  exact matchAt_of_not_headed (not_headed_name htag (fun c hc => hname c (by simp [hv, hc])) skipped)

end Tag

section Line

variable {line : List Char} {m : LogField → Option (List Char)} (hline : strip line ≠ [])
include hline

theorem records_of_thermal (h : (THERMAL_RE tab).search (strip line) = some m) :
    (tab.parseSchedtestOutput [line]).records = [tab.runRecord m] := by
  simp only [CharTable.parseSchedtestOutput, List.foldl_cons, List.foldl_nil, CharTable.parseLine,
    if_neg hline, h, List.nil_append]

theorem records_of_cooling (h : (THERMAL_RE tab).search (strip line) = none)
    (hc : (COOLING_RE tab).search (strip line) = some m) :
    (tab.parseSchedtestOutput [line]).records = [tab.coolingRecord m] := by
  simp only [CharTable.parseSchedtestOutput, List.foldl_cons, List.foldl_nil, CharTable.parseLine,
    if_neg hline, h, hc, List.nil_append]

theorem records_of_none (h : (THERMAL_RE tab).search (strip line) = none)
    (hc : (COOLING_RE tab).search (strip line) = none) :
    (tab.parseSchedtestOutput [line]).records = [] := by
  simp only [CharTable.parseSchedtestOutput, List.foldl_cons, List.foldl_nil, CharTable.parseLine,
    if_neg hline, h, hc]
  split
  · rfl
  · split
    · rfl
    · rfl

end Line

variable {temp pid heat skipped : Int} {name : List Char}

theorem numeral_not_bracket (n : ℕ) : ∀ c ∈ numeral n, c ≠ '[' := by
  rintro c hc rfl
  exact absurd (isDigit_of_mem_numeral hc) (by decide)

/-- The pattern of the zone has no place for the blank in the label of the hot zone. -/
theorem hot_matchAt (temp pid heat : Int) (name rest : List Char) :
    (THERMAL_RE tab).matchAt (thermalLine temp (zoneLine "HOT ".toList pid heat name rest)) = none := by
  refine Pattern.matchAt_eq_none fun u t hs hu => ?_
  obtain ⟨u₁, v, rfl, h₁, hu⟩ := Pattern.matches_all_cons hu
  obtain ⟨u₂, v, rfl, h₂, hu⟩ := Pattern.matches_all_cons hu
  obtain ⟨u₃, v, rfl, h₃, hu⟩ := Pattern.matches_all_cons hu
  obtain ⟨u₄, v, rfl, h₄, hu⟩ := Pattern.matches_all_cons hu
  obtain ⟨u₅, v, rfl, h₅, hu⟩ := Pattern.matches_all_cons hu
  obtain ⟨u₆, v, rfl, h₆, hu⟩ := Pattern.matches_all_cons hu
  obtain ⟨u₇, v, rfl, h₇, hu⟩ := Pattern.matches_all_cons hu
  obtain ⟨u₈, v, rfl, h₈, hu⟩ := Pattern.matches_all_cons hu
  obtain ⟨u₉, v, rfl, h₉, -⟩ := Pattern.matches_all_cons hu
  obtain rfl := Pattern.matches_lit h₁
  obtain rfl := Pattern.matches_lit h₃
  obtain rfl := Pattern.matches_lit h₇
  obtain rfl := Pattern.matches_lit h₉
  have h₂ := (Pattern.matches_plus h₂).2
  have h₄ := Pattern.matches_many h₄
  obtain ⟨hd, h₅⟩ := Pattern.matches_plus (Pattern.matches_group h₅)
  obtain ⟨hb, h₆⟩ := Pattern.matches_plus h₆
  have h₈ := (Pattern.matches_plus (Pattern.matches_group h₈)).2
  unfold thermalLine zoneLine at hs
  simp only [List.append_assoc] at hs
  have hblanks : ∀ c ∈ " ".toList, isSpace c = true := by decide
  have hlabel : "HOT ".toList = "HOT".toList ++ " ".toList := by simp
  have hs := List.append_cancel_left hs
  obtain ⟨-, hs⟩ := append_inj_of_class hs hblanks h₂ (head_append (by decide) (by decide) _)
    (head_append (by decide) (by decide) _)
  have hs := List.append_cancel_left hs
  obtain ⟨-, hs⟩ := append_inj_of_class hs hblanks h₄ (head_numeral (fun c hc => isSpace_of_isDigit hc) _ _)
    (head_append hd (fun c hc => CharTable.isSpace_of_digit (h₅ c (List.mem_of_mem_head? hc))) _)
  obtain ⟨-, hs⟩ := append_inj_of_class hs
    (fun c hc => CharTable.digit_of_isDigit (isDigit_of_mem_numeral hc)) h₅
    (head_append (by decide) (fun c hc => CharTable.digit_of_isSpace (hblanks c (List.mem_of_mem_head? hc))) _)
    (head_append hb (fun c hc => CharTable.digit_of_isSpace (h₆ c (List.mem_of_mem_head? hc))) _)
  obtain ⟨-, hs⟩ := append_inj_of_class hs hblanks h₆ (head_append (by decide) (by decide) _)
    (head_append (by decide) (by decide) _)
  have hs := List.append_cancel_left hs
  rw [hlabel, List.append_assoc] at hs
  have hword : ∀ c ∈ "HOT".toList, tab.word c = true := by
    intro c hc
    rw [CharTable.word_of_ascii ((by decide : ∀ c ∈ "HOT".toList, c.toNat < 128) c hc)]
    exact (by decide : ∀ c ∈ "HOT".toList, (c.isAlphanum || c == '_') = true) c hc
  obtain ⟨-, hs⟩ := append_inj_of_class hs hword h₈ (head_append (by decide) (by
    rintro c ⟨⟩
    exact CharTable.word_of_ascii (by decide)) _) (head_append (by decide) (by
    rintro c ⟨⟩
    exact CharTable.word_of_ascii (by decide)) _)
  cases hs

/-- In a line of the hot zone no match begins after the first place. -/
theorem search_hot (tag : List Char) {t : List Char} {c : Char} {as : List (Pattern LogField)}
    (htag : tag = '[' :: c :: t) (hc : c ≠ 'H') (hspace : ∀ c ∈ tag, isSpace c = false)
    (hname : ∀ c ∈ name, isSpace c = false)
    (hfirst : (headedRe tag as).matchAt
      (thermalLine temp (zoneLine "HOT ".toList pid heat name (skippedSuffix skipped))) = none) :
    (headedRe tag as).search
      (thermalLine temp (zoneLine "HOT ".toList pid heat name (skippedSuffix skipped))) = none := by
  have hhead : tag.head? = some '[' := by rw [htag]; rfl
  have hskip : ∀ w s, (∀ d ∈ w, d ≠ '[') → (headedRe tag as).search (w ++ s) = (headedRe tag as).search s :=
    fun w s => search_skip hhead
  have hstart : "[THERMAL]".toList = '[' :: "THERMAL]".toList := by simp
  have hopen : "[".toList = ['['] := by simp
  have hlabel : "HOT ".toList = 'H' :: "OT ".toList := by simp
  have hzone : ∀ rest, ¬ Headed tag ('[' :: ("HOT ".toList ++ rest)) := by
    rintro rest ⟨w, u, -, -, h⟩
    rw [htag, hlabel] at h
    simp only [List.cons_append, List.cons.injEq, true_and] at h
    exact hc h.1.symm
  unfold thermalLine at hfirst ⊢
  rw [hstart, List.cons_append] at hfirst ⊢
  rw [Pattern.search, hfirst, Option.none_or]
  simp (disch := first | exact numeral_not_bracket _ | decide) only [hskip]
  unfold zoneLine
  rw [hopen, List.singleton_append, Pattern.search, matchAt_of_not_headed (hzone _), Option.none_or]
  simp (disch := first | exact numeral_not_bracket _ | decide) only [hskip]
  exact search_name hhead hspace hname skipped

theorem last_of_suffix {p : Char → Bool} {s t : List Char} (hst : s <:+ t) (hne : s ≠ [])
    (hlast : ∀ c ∈ s.getLast?, p c = false) : ∀ c ∈ t.getLast?, p c = false := by
  obtain ⟨front, rfl⟩ := hst
  rwa [List.getLast?_append_of_ne_nil _ hne]

/-- The last character of a line is the last of the name or of `skipped`. -/
theorem last_thermalLine (temp pid heat skipped : Int) (label : List Char) (hname : name ≠ [])
    (hspace : ∀ c ∈ name, isSpace c = false) : ∀ c ∈
      (thermalLine temp (zoneLine label pid heat name (skippedSuffix skipped))).getLast?,
        isSpace c = false := by
  have hend : ∀ c ∈ (name ++ skippedSuffix skipped).getLast?, isSpace c = false := by
    unfold skippedSuffix
    split_ifs
    · have hword : "skipped".toList.getLast? = some 'd' := by simp
      simp only [List.getLast?_append, hword, Option.some_or]
      rintro c ⟨⟩
      decide
    · rw [List.append_nil]
      exact fun c hc => hspace c (List.mem_of_getLast? hc)
  have hsuffix : name ++ skippedSuffix skipped <:+
      thermalLine temp (zoneLine label pid heat name (skippedSuffix skipped)) := by
    unfold thermalLine zoneLine
    repeat first | exact List.suffix_rfl | refine List.IsSuffix.trans ?_ (List.suffix_append _ _)
  exact last_of_suffix hsuffix (by simp [hname]) hend

theorem strip_thermalText (htemp : 0 ≤ temp) (htemp' : temp < 2147483648) (hpid : 0 ≤ pid)
    (hpid' : pid < 2147483648) (hheat : 0 ≤ heat) (hheat' : heat < 2147483648)
    (hskipped : skipped < 2147483648) (hname : name ≠ []) (hspace : ∀ c ∈ name, isSpace c = false)
    (z : Zone) : strip (thermalText temp z pid heat name skipped) =
      thermalLine temp (zoneLine z.label pid heat name (skippedSuffix skipped)) := by
  rw [thermalText_eq htemp htemp' hpid hpid' hheat hheat' hskipped]
  refine strip_eq (by decide) (by decide) (head_append (by decide) (by decide) _)
    (last_thermalLine temp pid heat skipped _ hname hspace) ?_
  unfold thermalLine
  exact List.append_ne_nil_of_left_ne_nil (by decide) _

/-! ## The lines of cooling cycles -/

/-- A [COOLING] line, in the pieces of its pattern. -/
def coolingLine (temp : Int) : List Char :=
  "[COOLING]".toList ++ (" ".toList ++ ("Temp:".toList ++ (" ".toList ++ (numeral temp.toNat ++ ("/".toList ++
    (numeral THROTTLE_TEMP.toNat ++ "  | Throttling -- idle cycle to cool down".toList))))))

theorem coolingText_eq (htemp : 0 ≤ temp) (htemp' : temp < 2147483648) :
    coolingText temp = "  ".toList ++ (coolingLine temp ++ "\n".toList) := by
  have hfmt : "  [COOLING] Temp: %d/%d  | Throttling -- idle cycle to cool down\n".toList =
      "  ".toList ++ ("[COOLING]".toList ++ (" ".toList ++ ("Temp:".toList ++ (" ".toList ++ '%' :: 'd' ::
      ("/".toList ++ '%' :: 'd' :: ("  | Throttling -- idle cycle to cool down".toList ++
      ("\n".toList ++ []))))))) := by
    simp
  have hthrottle : 0 ≤ THROTTLE_TEMP := by decide
  rw [coolingText, printf, hfmt]
  simp (disch := first | assumption | decide) only [printfFrom_append, printfFrom_int, printfFrom_nil]
  unfold coolingLine
  simp only [List.append_assoc, List.append_nil]

theorem strip_coolingText (htemp : 0 ≤ temp) (htemp' : temp < 2147483648) :
    strip (coolingText temp) = coolingLine temp := by
  rw [coolingText_eq htemp htemp']
  refine strip_eq (by decide) (by decide) (head_append (by decide) (by decide) _) ?_
    (List.append_ne_nil_of_left_ne_nil (by decide) _)
  refine last_of_suffix (s := "  | Throttling -- idle cycle to cool down".toList) ?_ (by decide) (by decide)
  unfold coolingLine
  repeat first | exact List.suffix_rfl | refine List.IsSuffix.trans ?_ (List.suffix_append _ _)

theorem thermal_search_cooling (tab : CharTable) (temp : Int) :
    (THERMAL_RE tab).search (coolingLine temp) = none := by
  have hskip : ∀ w s, (∀ d ∈ w, d ≠ '[') → (THERMAL_RE tab).search (w ++ s) = (THERMAL_RE tab).search s :=
    fun w s => search_skip (by decide : "[THERMAL]".toList.head? = some '[')
  have hfirst : (THERMAL_RE tab).matchAt (coolingLine temp) = none :=
    matchAt_of_not_headed (not_headed_of_second (by decide) (by decide) (by decide))
  have hstart : "[COOLING]".toList = '[' :: "COOLING]".toList := by simp
  unfold coolingLine at hfirst ⊢
  rw [hstart, List.cons_append] at hfirst ⊢
  rw [Pattern.search, hfirst, Option.none_or,
    ← List.append_nil "  | Throttling -- idle cycle to cool down".toList]
  simp (disch := first | exact numeral_not_bracket _ | decide) only [hskip]
  exact search_nil (by decide)

open Pattern in
theorem cooling_search (tab : CharTable) (temp : Int) : (COOLING_RE tab).search (coolingLine temp) =
    some (Function.update (fun _ => none) .temp (some (numeral temp.toNat))) := by
  have hblanks : ∀ c ∈ " ".toList, isSpace c = true := by decide
  refine search_of_matchAt ?_
  unfold COOLING_RE matchAt coolingLine
  simp only [exec_all_cons, exec_lit_append]
  refine exec_plus_append (by decide) hblanks (head_append (by decide) (by decide) _) ?_
  simp only [exec_lit_append]
  refine exec_many_append hblanks (head_numeral (fun c hc => isSpace_of_isDigit hc) _ _) ?_
  refine exec_group_append (numeral_ne_nil _)
    (fun c hc => CharTable.digit_of_isDigit (isDigit_of_mem_numeral hc)) (head_append (by decide) ?_ _) rfl
  rintro c ⟨⟩
  exact CharTable.digit_of_ascii (by decide) (by decide)

/-- A cooling cycle that is logged is read as one, with its temperature. -/
theorem cooling_line_parsed (htemp : 0 ≤ temp) (htemp' : temp < 2147483648) :
    (tab.parseSchedtestOutput [coolingText temp]).records =
      [{ type := .cooling, temp := temp.toNat, pid := 0, heat := 0, name := "idle".toList,
         zone := "COOL".toList, skipped := 0 }] := by
  have hline : coolingLine temp ≠ [] := List.append_ne_nil_of_left_ne_nil (by decide) _
  have hthermal := thermal_search_cooling tab temp
  have hcooling := cooling_search tab temp
  rw [← strip_coolingText htemp htemp'] at hline hthermal hcooling
  rw [records_of_cooling hline hthermal hcooling]
  simp only [CharTable.coolingRecord, CharTable.intGroup, Function.update_self, Option.getD_some,
    CharTable.int_numeral]

/-! ## The scheduler and the analyser -/

/-- What the log says at a dispatch. -/
def dispatchRecord (temp pid heat : Int) (name : List Char) (skipped : Int) : LogRecord where
  type := .run
  temp := temp.toNat
  pid := pid.toNat
  heat := heat.toNat
  name := name
  zone := strip (zone temp).label
  skipped := skipped.toNat

theorem runRecord_thermalGroups (temp pid heat : Int) (label name : List Char) (hskipped : 0 ≤ skipped) :
    tab.runRecord (thermalGroups temp label pid heat name skipped) =
      { type := .run, temp := temp.toNat, pid := pid.toNat, heat := heat.toNat, name := name, zone := label,
        skipped := skipped.toNat } := by
  have hcount : (if ((thermalGroups temp label pid heat name skipped) .skipped).getD [] ≠ [] then
      tab.intGroup (thermalGroups temp label pid heat name skipped) .skipped else 0) = skipped.toNat := by
    by_cases hpos : skipped > 0
    · simp [thermalGroups, hpos, numeral_ne_nil, CharTable.intGroup, CharTable.int_numeral]
    · have hzero : skipped = 0 := by omega
      simp [thermalGroups, hzero]
  simp only [CharTable.runRecord, hcount]
  simp only [CharTable.intGroup, thermalGroups, Option.getD_some, CharTable.int_numeral]

section Dispatch

variable (htemp : 20 ≤ temp ∧ temp ≤ 100) (hpid : 1 ≤ pid ∧ pid < 2147483648)
  (hheat : 0 ≤ heat ∧ heat ≤ 100) (hskipped : 0 ≤ skipped ∧ skipped < 2147483648)
  (hname : name ≠ []) (hspace : ∀ c ∈ name, isSpace c = false)
include htemp hpid hheat hskipped hname hspace

theorem strip_dispatch : strip (thermalText temp (zone temp) pid heat name skipped) =
    thermalLine temp (zoneLine (zone temp).label pid heat name (skippedSuffix skipped)) :=
  strip_thermalText (by omega) (by omega) (by omega) hpid.2 hheat.1 (by omega) hskipped.2 hname hspace _

theorem records_of_cool (h : temp < HOT_TEMP) :
    (tab.parseSchedtestOutput [thermalText temp (zone temp) pid heat name skipped]).records =
      [dispatchRecord temp pid heat name skipped] := by
  have hlabel : (zone temp).label = "COOL".toList ∨ (zone temp).label = "WARM".toList := by
    unfold zone
    split_ifs
    · omega
    · exact Or.inr rfl
    · exact Or.inl rfl
  have hne : (zone temp).label ≠ [] := by
    obtain h | h := hlabel <;> rw [h] <;> decide
  have hword : ∀ c ∈ (zone temp).label, tab.word c = true := by
    intro c hc
    have hascii : c.toNat < 128 ∧ c.isAlphanum = true := by
      obtain h | h := hlabel
      · exact (by decide : ∀ c ∈ "COOL".toList, c.toNat < 128 ∧ c.isAlphanum = true) c (h ▸ hc)
      · exact (by decide : ∀ c ∈ "WARM".toList, c.toNat < 128 ∧ c.isAlphanum = true) c (h ▸ hc)
    rw [CharTable.word_of_ascii hascii.1, hascii.2, Bool.true_or]
  have hstrip : strip (zone temp).label = (zone temp).label := by
    obtain h | h := hlabel <;> rw [h] <;> decide
  have hline : thermalLine temp (zoneLine (zone temp).label pid heat name (skippedSuffix skipped)) ≠ [] :=
    List.append_ne_nil_of_left_ne_nil (by decide) _
  have hsearch := Pattern.search_of_matchAt
    (thermal_matchAt tab temp pid heat skipped hne hword hname hspace)
  rw [← strip_dispatch htemp hpid hheat hskipped hname hspace] at hline hsearch
  rw [records_of_thermal hline hsearch, runRecord_thermalGroups temp pid heat _ name hskipped.1,
    dispatchRecord, hstrip]

variable (tab) in
theorem records_of_hot (h : HOT_TEMP ≤ temp) :
    (tab.parseSchedtestOutput [thermalText temp (zone temp) pid heat name skipped]).records = [] := by
  have hline : thermalLine temp (zoneLine (zone temp).label pid heat name (skippedSuffix skipped)) ≠ [] :=
    List.append_ne_nil_of_left_ne_nil (by decide) _
  have hlabel : (zone temp).label = "HOT ".toList := by
    simp only [zone, if_pos h, Zone.label]
  have hthermal : (THERMAL_RE tab).search
      (thermalLine temp (zoneLine "HOT ".toList pid heat name (skippedSuffix skipped))) = none :=
    search_hot "[THERMAL]".toList (c := 'T') (t := "HERMAL]".toList) (by simp) (by decide) (by decide)
      hspace (hot_matchAt temp pid heat name _)
  have hcooling : (COOLING_RE tab).search
      (thermalLine temp (zoneLine "HOT ".toList pid heat name (skippedSuffix skipped))) = none := by
    exact search_hot "[COOLING]".toList (c := 'C') (t := "OOLING]".toList) (by simp) (by decide)
      (by decide) hspace (matchAt_of_not_headed (not_headed_of_second (by decide) (by decide) (by decide)))
  rw [← hlabel, ← strip_dispatch htemp hpid hheat hskipped hname hspace] at hthermal hcooling
  rw [← strip_dispatch htemp hpid hheat hskipped hname hspace] at hline
  exact records_of_none hline hthermal hcooling

end Dispatch

variable (tab) in
/-- A [THERMAL] line is read as it was printed if and only if the CPU is not in its hot zone; in the hot
zone the line is dropped. -/
theorem thermal_line_parsed_iff (htemp : 20 ≤ temp ∧ temp ≤ 100) (hpid : 1 ≤ pid ∧ pid < 2147483648)
    (hheat : 0 ≤ heat ∧ heat ≤ 100) (hskipped : 0 ≤ skipped ∧ skipped < 2147483648) (hname : name ≠ [])
    (hspace : ∀ c ∈ name, isSpace c = false) :
    ((tab.parseSchedtestOutput [thermalText temp (zone temp) pid heat name skipped]).records =
      [dispatchRecord temp pid heat name skipped] ↔ temp < HOT_TEMP) ∧
    (HOT_TEMP ≤ temp →
      (tab.parseSchedtestOutput [thermalText temp (zone temp) pid heat name skipped]).records = []) := by
  have hhot := records_of_hot tab htemp hpid hheat hskipped hname hspace
  refine ⟨⟨fun h => ?_, records_of_cool htemp hpid hheat hskipped hname hspace⟩, hhot⟩
  by_contra hge
  rw [hhot (by omega)] at h
  cases h

/-- The characters of ASCII. -/
def asciiTable : CharTable where
  decimal c := if c.isDigit then some (c.toNat - 48) else none
  alnum c := c.isAlphanum
  decimal_ascii _ _ := rfl
  alnum_ascii _ _ := rfl
  decimal_space c hc := if_neg fun h => by rw [isSpace_of_isDigit h] at hc; cases hc

/-- A line of a test in the warm zone. -/
theorem thermal_line_parsed_warm :
    (asciiTable.parseSchedtestOutput [thermalText 66 (zone 66) 6 42 "schedtest".toList 0]).records =
      [dispatchRecord 66 6 42 "schedtest".toList 0] :=
  (thermal_line_parsed_iff asciiTable (by decide) (by decide) (by decide) (by decide) (by decide)
    (by decide)).1.mpr (by decide)

/-- A line of the hot zone is not read. -/
theorem hot_line_dropped :
    (asciiTable.parseSchedtestOutput [thermalText 89 (zone 89) 9 8 "schedtest".toList 2]).records = [] :=
  records_of_hot _ (by decide) (by decide) (by decide) (by decide) (by decide) (by decide) (by decide)

theorem cooling_line_parsed_ninety : (asciiTable.parseSchedtestOutput [coolingText 90]).records =
    [⟨.cooling, 90, 0, 0, "idle".toList, "COOL".toList, 0⟩] :=
  cooling_line_parsed (by decide) (by decide)

end Xv6
