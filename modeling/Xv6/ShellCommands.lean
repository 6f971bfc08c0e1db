import Xv6.ShellParse

/-!
# Commands of the shell

`nulterminate` overwrites no character of a word, since a word ends where no character of a word is; so the strings of
the tree are the words of the command, and `parsecmd` takes exactly the commands of the grammar (`parsecmd_accepts`).

Each redirection is put around the tree so far, and `runcmd` goes from the outside in : the redirections take effect in
the opposite order (`redirections_in_order_iff`).
-/

namespace Xv6

namespace Sh

open Tok

variable {α β : Type}

/-! ## The strings of a command -/

namespace Cmd

def strings : Cmd α → List α
  | exec argv => argv
  | redir cmd file _ _ => cmd.strings ++ [file]
  | pipe left right => left.strings ++ right.strings
  | list left right => left.strings ++ right.strings
  | back cmd => cmd.strings

theorem map_congr {f g : α → β} {c : Cmd α} (h : ∀ a ∈ c.strings, f a = g a) : c.map f = c.map g := by
  induction c with
  | exec argv => exact congrArg exec (List.map_congr_left h)
  | redir cmd file mode fd ih =>
    rw [strings, List.forall_mem_append] at h
    rw [map, map, ih h.1, h.2 file List.mem_cons_self]
  | pipe left right ihl ihr =>
    rw [strings, List.forall_mem_append] at h
    rw [map, map, ihl h.1, ihr h.2]
  | list left right ihl ihr =>
    rw [strings, List.forall_mem_append] at h
    rw [map, map, ihl h.1, ihr h.2]
  | back cmd ih => exact congrArg back (ih h)

end Cmd

/-- A 0 is put at the end of each of the strings. -/
def terminate (ws : List Span) (buf : Text) : Text :=
  ws.foldl (fun buf w => buf.set w.eq '\x00') buf

theorem nulterminate_eq (c : Cmd Span) : ∀ buf, nulterminate c buf = terminate c.strings buf := by
  induction c with
  | exec argv => exact fun _ => rfl
  | redir cmd file mode fd ih =>
    intro buf
    rw [nulterminate, ih, Cmd.strings, terminate, terminate, List.foldl_append]
    rfl
  | pipe left right ihl ihr =>
    intro buf
    rw [nulterminate, ihr, ihl, Cmd.strings, terminate, terminate, terminate, List.foldl_append]
  | list left right ihl ihr =>
    intro buf
    rw [nulterminate, ihr, ihl, Cmd.strings, terminate, terminate, terminate, List.foldl_append]
  | back cmd ih => exact ih

theorem getElem?_terminate (ws : List Span) {i : ℕ} : ∀ {buf : Text}, i < buf.length →
    (terminate ws buf)[i]? = if ∃ w ∈ ws, w.eq = i then some '\x00' else buf[i]? := by
  induction ws with
  | nil =>
    intro buf _
    rw [if_neg (by simp)]
    rfl
  | cons w ws ih =>
    intro buf hi
    have hset : i < (buf.set w.eq '\x00').length := by rwa [List.length_set]
    rw [terminate, List.foldl_cons, ← terminate, ih hset, List.getElem?_set]
    by_cases hw : w.eq = i
    · simp [hi, hw]
    · simp [hw]

/-! ## Words -/

/-- A longest sequence of characters of words in `s`. -/
def WordAt (s : Text) (w : Span) : Prop :=
  ∃ before chars after, s = before ++ (chars ++ after) ∧ w = ⟨before.length, before.length + chars.length⟩ ∧
    (∀ c ∈ chars, isWord c = true) ∧ ∀ c, after.head? = some c → isWord c = false

/-- The characters of a word. -/
def slice (s : Text) (w : Span) : Text :=
  (s.drop w.q).take (w.eq - w.q)

theorem WordAt.of_mem_lex {s : Text} (t : Text) : ∀ before : Text, s = before ++ t → ∀ {w : Span},
    Tok.word w ∈ lex s.length t → WordAt s w := by
  fun_induction lex s.length t with
  | case1 =>
    intro before _ w hw
    cases hw
  | case2 c t _ ih =>
    intro before hs w hw
    exact ih _ (hs.trans (List.append_cons before c t)) hw
  | case3 c t hwhite hsym ih =>
    intro before hs w hw
    have hsplit : c :: t = c :: t.takeWhile isWord ++ t.dropWhile isWord := by
      rw [List.cons_append, List.takeWhile_append_dropWhile]
    have hs' : s = before ++ (c :: t.takeWhile isWord ++ t.dropWhile isWord) := hsplit ▸ hs
    obtain hw | hw := List.mem_cons.mp hw
    · refine ⟨before, c :: t.takeWhile isWord, t.dropWhile isWord, hs', ?_, fun d hd => ?_, fun d hd => ?_⟩
      · have hlen := congrArg List.length (List.takeWhile_append_dropWhile (p := isWord) (l := t))
        have hslen := congrArg List.length hs
        rw [List.length_append] at hlen
        rw [List.length_append, List.length_cons] at hslen
        cases hw
        rw [Span.mk.injEq, List.length_cons]
        omega
      · obtain rfl | hd := List.mem_cons.mp hd
        · rw [isWord, symbol_eq_none.mp hsym, Bool.eq_false_iff.mpr hwhite]
          rfl
        · exact List.mem_takeWhile_imp hd
      · have hhead := List.head?_dropWhile_not isWord t
        rw [hd] at hhead
        simpa using hhead
    · exact ih _ (hs'.trans (List.append_assoc _ _ _).symm) hw
  | case4 c t _ _ hhead ih =>
    intro before hs w hw
    obtain hw | hw := List.mem_cons.mp hw
    · cases hw
    · cases t with
      | nil => cases hhead
      | cons d t => exact ih (before ++ [c, d]) (by rw [hs, List.append_assoc]; rfl) hw
  | case5 c t _ _ _ ih =>
    intro before hs w hw
    obtain hw | hw := List.mem_cons.mp hw
    · cases hw
    · exact ih _ (hs.trans (List.append_cons before c t)) hw
  | case6 c t _ tok _ htok ih =>
    intro before hs w hw
    obtain hw | hw := List.mem_cons.mp hw
    · subst hw
      cases (first_of_symbol htok).1
    · exact ih _ (hs.trans (List.append_cons before c t)) hw

theorem takeWhile_eq_of_getElem? {p : Char → Bool} {z : Char} (hz : p z = false) (chars : List Char) :
    ∀ {l : List Char}, (∀ j, j < chars.length → l[j]? = chars[j]?) → l[chars.length]? = some z →
    (∀ c ∈ chars, p c = true) → l.takeWhile p = chars := by
  induction chars with
  | nil =>
    intro l _ hend _
    cases l with
    | nil => cases hend
    | cons c l =>
      obtain rfl : c = z := Option.some.inj hend
      rw [List.takeWhile_cons, hz]
      rfl
  | cons c chars ih =>
    intro l hsame hend hp
    cases l with
    | nil => cases hend
    | cons c' l =>
      obtain rfl : c' = c := Option.some.inj (hsame 0 (Nat.succ_pos _))
      rw [List.takeWhile_cons, if_pos (hp c' List.mem_cons_self)]
      refine congrArg (c' :: ·) (ih (fun j hj => hsame (j + 1) (Nat.succ_lt_succ hj)) hend fun d hd => ?_)
      exact hp d (List.mem_cons_of_mem _ hd)

/-- Where a word ends there is no character of a word. -/
theorem WordAt.end_not_word {s : Text} {w : Span} (h : WordAt s w) {c : Char} (hc : s[w.eq]? = some c) :
    isWord c = false := by
  obtain ⟨before, chars, after, rfl, rfl, -, hafter⟩ := h
  refine hafter c ?_
  rw [← List.append_assoc, ← List.length_append, List.getElem?_append_right (Nat.le_refl _), Nat.sub_self] at hc
  rw [List.head?_eq_getElem?]
  exact hc

/-- The string that begins at a word is the word. -/
theorem string_terminate {s : Text} (hnul : '\x00' ∉ s) {ws : List Span} (hws : ∀ w ∈ ws, WordAt s w) {w : Span}
    (hw : w ∈ ws) : string (terminate ws (s ++ ['\x00'])) w = slice s w := by
  obtain ⟨before, chars, after, rfl, rfl, hchars, -⟩ := hws w hw
  have hslice : slice (before ++ (chars ++ after)) ⟨before.length, before.length + chars.length⟩ = chars := by
    rw [slice, List.drop_left, Nat.add_sub_cancel_left, List.take_left]
  rw [hslice, string]
  dsimp only
  refine takeWhile_eq_of_getElem? (z := '\x00') (by decide) chars (fun j hj => ?_) ?_ fun c hc => ?_
  · -- the ends of words are not inside of words
    have hget : (before ++ (chars ++ after))[before.length + j]? = chars[j]? := by
      rw [List.getElem?_append_right (Nat.le_add_right _ _), Nat.add_sub_cancel_left, List.getElem?_append_left hj]
    have hlt : before.length + j < (before ++ (chars ++ after)).length := by
      rw [List.length_append, List.length_append]
      omega
    have hno : ¬ ∃ v ∈ ws, v.eq = before.length + j := by
      rintro ⟨v, hv, heq⟩
      have hnot := (hws v hv).end_not_word (c := chars[j]) (by rw [heq, hget, List.getElem?_eq_getElem hj])
      rw [hchars _ (List.getElem_mem hj)] at hnot
      cases hnot
    rw [List.getElem?_drop, getElem?_terminate ws (by rw [List.length_append]; omega), if_neg hno,
      List.getElem?_append_left hlt, hget]
  · rw [List.getElem?_drop, getElem?_terminate ws, if_pos ⟨_, hw, rfl⟩]
    rw [List.length_append, List.length_append, List.length_append, List.length_singleton]
    omega
  · refine decide_eq_true fun hc0 => hnul ?_
    rw [← hc0]
    exact List.mem_append_right _ (List.mem_append_left _ hc)

/-! ## The strings come from the words -/

theorem strings_wrap (c : Cmd α) (rs : List (Redir α)) : (wrap c rs).strings = c.strings ++ rs.map Redir.file := by
  induction rs generalizing c with
  | nil => exact (List.append_nil _).symm
  | cons r rs ih =>
    refine (ih _).trans ?_
    rw [Cmd.strings, List.append_assoc]
    rfl

theorem strings_back (c : Cmd α) (k : ℕ) : (Cmd.back^[k] c).strings = c.strings := by
  induction k generalizing c with
  | zero => rfl
  | succ k ih => exact ih (.back c)

theorem word_mem_redirToks {rs : List (Redir α)} {a : α} (h : a ∈ rs.map Redir.file) : Tok.word a ∈ redirToks rs := by
  obtain ⟨r, hr, rfl⟩ := List.mem_map.mp h
  exact List.mem_flatMap.mpr ⟨r, hr, List.mem_cons_of_mem _ List.mem_cons_self⟩

mutual

theorem Line.word_mem {ts : List (Tok α)} {c : Cmd α} : Line ts c → ∀ a ∈ c.strings, Tok.word a ∈ ts
  | .last k h => fun a ha => by
    rw [strings_back] at ha
    exact List.mem_append_left _ (h.word_mem a ha)
  | .semi k h h' => fun a ha => by
    rw [Cmd.strings, strings_back] at ha
    obtain ha | ha := List.mem_append.mp ha
    · exact List.mem_append_left _ (List.mem_append_left _ (h.word_mem a ha))
    · exact List.mem_append_right _ (List.mem_cons_of_mem _ (h'.word_mem a ha))

theorem Pipe.word_mem {ts : List (Tok α)} {c : Cmd α} : Pipe ts c → ∀ a ∈ c.strings, Tok.word a ∈ ts
  | .last h => h.word_mem
  | .bar h h' => fun a ha => by
    obtain ha | ha := List.mem_append.mp ha
    · exact List.mem_append_left _ (h.word_mem a ha)
    · exact List.mem_append_right _ (List.mem_cons_of_mem _ (h'.word_mem a ha))

theorem Exec.word_mem {ts : List (Tok α)} {rs : List (Redir α)} {c : Cmd α} : Exec ts rs c →
    ∀ a ∈ (wrap c rs).strings, Tok.word a ∈ ts
  | .block rs h => fun a ha => by
    rw [strings_wrap] at ha
    obtain ha | ha := List.mem_append.mp ha
    · exact List.mem_append_left _ (List.mem_cons_of_mem _ (h.word_mem a ha))
    · exact List.mem_append_right _ (List.mem_cons_of_mem _ (word_mem_redirToks ha))
  | .simple rs ws _ => fun a ha => by
    rw [strings_wrap, List.map_append, ← List.append_assoc, List.mem_append, List.mem_append] at ha
    obtain (ha | ha) | ha := ha
    · obtain ⟨w, hw, rfl⟩ := List.mem_map.mp ha
      exact List.mem_append_right _ (List.mem_flatMap.mpr ⟨w, hw, List.mem_cons_self⟩)
    · exact List.mem_append_left _ (word_mem_redirToks ha)
    · obtain ⟨r, hr, rfl⟩ := List.mem_map.mp ha
      obtain ⟨w, hw, hr⟩ := List.mem_flatMap.mp hr
      refine List.mem_append_right _ (List.mem_flatMap.mpr ⟨w, hw, List.mem_cons_of_mem _ ?_⟩)
      exact word_mem_redirToks (List.mem_map.mpr ⟨r, hr, rfl⟩)

end

/-! ## parsecmd -/

theorem ahead_lex {s : Text} (hnul : '\x00' ∉ s) : Ahead s.length s (lex s.length s) :=
  ⟨hnul, Nat.le_refl _, rfl⟩

theorem fuel_le (s : Text) : 4 * (lex s.length s).length + 4 ≤ 4 * s.length + 4 :=
  Nat.add_le_add_right (Nat.mul_le_mul_left 4 (lex_length_le s.length s)) 4

/-- `parsecmd`, when it is known what `parseline` does. -/
theorem parsecmd_of_ok {s rest : Text} {c : Cmd Span}
    (h : parseline s.length (4 * s.length + 4) s = .ok (c, rest)) :
    parsecmd s = if skip rest ≠ [] then .error (.leftovers (skip rest))
      else .ok (c, nulterminate c (s ++ ['\x00'])) := by
  rw [parsecmd]
  dsimp only
  rw [h]
  change (if skip rest ≠ [] then _ else _) = _
  split_ifs
  · rfl
  · rfl

theorem parsecmd_of_error {s : Text} {e : Panic} (h : parseline s.length (4 * s.length + 4) s = .error e) :
    parsecmd s = .error e := by
  rw [parsecmd]
  dsimp only
  rw [h]
  rfl

theorem parsecmd_eq_ok {s : Text} (hnul : '\x00' ∉ s) {c : Cmd Span} {buf : Text} :
    parsecmd s = .ok (c, buf) ↔ Line (lex s.length s) c ∧ buf = nulterminate c (s ++ ['\x00']) := by
  constructor
  · intro hrun
    cases h : parseline s.length (4 * s.length + 4) s with
    | error e =>
      rw [parsecmd_of_error h] at hrun
      cases hrun
    | ok r =>
      obtain ⟨c', rest⟩ := r
      obtain ⟨ts₁, ts₂, hlex, hline, hrest⟩ := ((parse_derives _ _).1 (ahead_lex hnul) (fuel_le s)).ok h
      rw [parsecmd_of_ok h] at hrun
      split_ifs at hrun with hskip
      cases hrun
      obtain ⟨-, rfl⟩ | ⟨d, t, hd, -⟩ := hrest.skip_cases
      · rw [List.append_nil] at hlex
        rw [hlex]
        exact ⟨hline, rfl⟩
      · rw [hd] at hskip
        exact absurd (List.cons_ne_nil d t) hskip
  · rintro ⟨hline, rfl⟩
    have hahead := ahead_lex hnul
    rw [← List.append_nil (lex s.length s)] at hahead
    have hfuel := fuel_le s
    rw [← List.append_nil (lex s.length s)] at hfuel
    obtain ⟨_, rest, hrun, rfl, hrest⟩ := hline.parses hahead trivial hfuel
    rw [parsecmd_of_ok hrun]
    obtain ⟨hnil, -⟩ | ⟨d, t, -, hwhite, hd0, hlex⟩ := hrest.skip_cases
    · rw [if_neg (not_not.mpr hnil)]
    · obtain ⟨tok, htok, -⟩ := lex_token s.length t hwhite hd0
      rw [htok] at hlex
      cases hlex

theorem parsecmd_ne_outOfFuel {s : Text} (hnul : '\x00' ∉ s) : parsecmd s ≠ .error .outOfFuel := by
  have hout := (parse_derives s.length (4 * s.length + 4)).1 (ahead_lex hnul) (fuel_le s)
  cases h : parseline s.length (4 * s.length + 4) s with
  | error e =>
    rw [parsecmd_of_error h]
    exact fun heq => hout.error h (Except.error.inj heq)
  | ok r =>
    obtain ⟨c, rest⟩ := r
    rw [parsecmd_of_ok h]
    split_ifs
    · exact fun heq => by cases heq
    · exact fun heq => by cases heq

theorem strings_of_line {s : Text} (hnul : '\x00' ∉ s) {c : Cmd Span} (h : Line (lex s.length s) c) :
    ∀ w ∈ c.strings, string (nulterminate c (s ++ ['\x00'])) w = slice s w := by
  intro w hw
  rw [nulterminate_eq]
  exact string_terminate hnul (fun v hv => .of_mem_lex s [] rfl (h.word_mem v hv)) hw

/-- `parsecmd` returns the trees of the grammar, with the words of the command as their strings; on any other command it
panics. -/
theorem parsecmd_accepts (s : Text) (hnul : '\x00' ∉ s) : parsecmd s ≠ .error .outOfFuel ∧
    (∀ c, (∃ buf, parsecmd s = .ok (c, buf)) ↔ Line (lex s.length s) c) ∧
    ∀ c buf, parsecmd s = .ok (c, buf) → c.map (string buf) = c.map (slice s) := by
  refine ⟨parsecmd_ne_outOfFuel hnul, fun c => ⟨?_, fun h => ?_⟩, fun c buf hrun => ?_⟩
  · rintro ⟨buf, hrun⟩
    exact ((parsecmd_eq_ok hnul).mp hrun).1
  · exact ⟨_, (parsecmd_eq_ok hnul).mpr ⟨h, rfl⟩⟩
  · obtain ⟨hline, rfl⟩ := (parsecmd_eq_ok hnul).mp hrun
    exact Cmd.map_congr (strings_of_line hnul hline)

/-- A command of two words. -/
theorem parsecmd_accepts_ls : '\x00' ∉ ['l', 's', ' ', 'a'] ∧
    Line (lex 4 ['l', 's', ' ', 'a']) (.exec [⟨0, 2⟩, ⟨3, 4⟩]) :=
  ⟨by decide, ((parsecmd_accepts ['l', 's', ' ', 'a'] (by decide)).2.1 _).mp ⟨['l', 's', '\x00', 'a', '\x00'], rfl⟩⟩

/-! ## Redirections -/

/-- The redirections one after the other, and then the command. -/
def redirected (rs : List (Redir Text)) (cmd : Prog) : Prog :=
  rs.foldr (fun r next => .close (.num r.op.fd) (.open_ r.file r.op.mode
    (.message ("open ".toList ++ r.file ++ " failed\n".toList) (.exit 1)) next)) cmd

def Redir.map (f : α → β) (r : Redir α) : Redir β :=
  ⟨r.op, f r.file⟩

theorem map_wrap (f : α → β) (c : Cmd α) (rs : List (Redir α)) :
    (wrap c rs).map f = wrap (c.map f) (rs.map (Redir.map f)) := by
  induction rs generalizing c with
  | nil => rfl
  | cons r rs ih => exact ih _

/-- `runcmd` comes to the redirections that have been put around the command last first. -/
theorem runcmd_wrap (c : Cmd Text) (rs : List (Redir Text)) : runcmd (wrap c rs) = redirected rs.reverse (runcmd c) := by
  induction rs generalizing c with
  | nil => rfl
  | cons r rs ih =>
    rw [List.reverse_cons, redirected, List.foldr_append]
    exact ih _

theorem RedirOp.eq_of_mode {op op' : RedirOp} (h : op.mode = op'.mode) : op = op' := by
  cases op <;> cases op' <;> first | rfl | exact absurd h (by decide)

theorem redirected_inj {cmd : Prog} (rs : List (Redir Text)) : ∀ {rs' : List (Redir Text)}, rs.length = rs'.length →
    redirected rs cmd = redirected rs' cmd → rs = rs' := by
  induction rs with
  | nil =>
    intro rs' hlen _
    exact (List.eq_nil_of_length_eq_zero hlen.symm).symm
  | cons r rs ih =>
    intro rs' hlen h
    cases rs' with
    | nil => cases hlen
    | cons r' rs' =>
      obtain ⟨-, hopen⟩ := Prog.close.inj h
      obtain ⟨hfile, hmode, -, hnext⟩ := Prog.open_.inj hopen
      obtain ⟨op, file⟩ := r
      obtain ⟨op', file'⟩ := r'
      obtain rfl : op = op' := RedirOp.eq_of_mode hmode
      obtain rfl : file = file' := hfile
      rw [ih (Nat.succ.inj hlen) hnext]

/-- A simple command or a block is a line. -/
theorem Exec.line {ts : List (Tok α)} {rs : List (Redir α)} {c : Cmd α} (h : Exec ts rs c) : Line ts (wrap c rs) := by
  have hline := Line.last 0 (.last h)
  rwa [List.replicate_zero, List.append_nil] at hline

/-- The redirections of a simple command or a block take effect in the order in which they are written if and only if
the list of them reads the same backwards. -/
theorem redirections_in_order_iff (s : Text) (hnul : '\x00' ∉ s) {rs : List (Redir Span)} {body : Cmd Span}
    (h : Exec (lex s.length s) rs body) :
    (∃ c buf, parsecmd s = .ok (c, buf) ∧ runcmd (c.map (string buf)) =
      redirected (rs.map (Redir.map (string buf))) (runcmd (body.map (string buf)))) ↔
    (rs.map (Redir.map (slice s))).reverse = rs.map (Redir.map (slice s)) := by
  have hfiles : rs.map (Redir.map (string (nulterminate (wrap body rs) (s ++ ['\x00'])))) = rs.map (Redir.map (slice s)) :=
    List.map_congr_left fun r hr => congrArg (Redir.mk r.op) <| strings_of_line hnul h.line r.file <| by
      rw [strings_wrap]
      exact List.mem_append_right _ (List.mem_map.mpr ⟨r, hr, rfl⟩)
  constructor
  · rintro ⟨c, buf, hrun, hsame⟩
    obtain ⟨hline, rfl⟩ := (parsecmd_eq_ok hnul).mp hrun
    obtain rfl : c = wrap body rs := by
      have hrun' := (parsecmd_eq_ok hnul).mpr ⟨h.line, rfl⟩
      rw [hrun] at hrun'
      cases hrun'
      rfl
    rw [map_wrap, runcmd_wrap, hfiles] at hsame
    exact redirected_inj _ (List.length_reverse) hsame
  · intro hrev
    refine ⟨_, _, (parsecmd_eq_ok hnul).mpr ⟨h.line, rfl⟩, ?_⟩
    rw [map_wrap, runcmd_wrap, hfiles, hrev]

theorem lex_out_out : lex 4 ['>', 'x', '>', 'y'] = [gt, Tok.word ⟨1, 2⟩, gt, Tok.word ⟨3, 4⟩] := by
  rw [lex_gt, if_neg (by decide), lex_word (by decide) (by decide)]
  rw [show List.dropWhile isWord ['>', 'y'] = ['>', 'y'] from rfl, lex_gt, if_neg (by decide),
    lex_word (by decide) (by decide)]
  rw [show List.dropWhile isWord [] = [] from rfl, lex_nil]
  rfl

theorem exec_out_out :
    Exec (lex 4 ['>', 'x', '>', 'y']) [⟨.output, ⟨1, 2⟩⟩, ⟨.output, ⟨3, 4⟩⟩] (.exec []) := by
  rw [lex_out_out]
  exact Exec.simple (α := Span) [⟨.output, ⟨1, 2⟩⟩, ⟨.output, ⟨3, 4⟩⟩] [] (by decide)

/-- `>x>y` opens `y` first, and then `x`, which is where the output goes. -/
theorem redirections_reversed_out_out :
    Exec (lex 4 ['>', 'x', '>', 'y']) [⟨.output, ⟨1, 2⟩⟩, ⟨.output, ⟨3, 4⟩⟩] (.exec []) ∧
    ∃ c buf, parsecmd ['>', 'x', '>', 'y'] = .ok (c, buf) ∧
      runcmd (c.map (string buf)) = redirected [⟨.output, ['y']⟩, ⟨.output, ['x']⟩] (.exit 1) ∧
      runcmd (c.map (string buf)) ≠ redirected [⟨.output, ['x']⟩, ⟨.output, ['y']⟩] (.exit 1) := by
  refine ⟨exec_out_out, .redir (.redir (.exec []) ⟨1, 2⟩ 1537 1) ⟨3, 4⟩ 1537 1, ['>', 'x', '\x00', 'y', '\x00'], rfl, rfl,
    fun h => ?_⟩
  have hsame : ([⟨.output, ['y']⟩, ⟨.output, ['x']⟩] : List (Redir Text)) = [⟨.output, ['x']⟩, ⟨.output, ['y']⟩] :=
    redirected_inj _ rfl h
  exact absurd hsame (by decide)

/-- One redirection is in order. -/
theorem redirections_in_order_iff_one : Exec (lex 2 ['<', 'x']) [⟨.input, ⟨1, 2⟩⟩] (.exec []) ∧
    ∃ c buf, parsecmd ['<', 'x'] = .ok (c, buf) ∧ runcmd (c.map (string buf)) =
      redirected ([⟨.input, ⟨1, 2⟩⟩].map (Redir.map (string buf))) (runcmd (.exec [])) := by
  have hlex : lex 2 ['<', 'x'] = [lt, Tok.word ⟨1, 2⟩] := by
    rw [lex_symbol (show symbol '<' = some lt from rfl) (by decide), lex_word (by decide) (by decide)]
    rw [show List.dropWhile isWord [] = [] from rfl, lex_nil]
    rfl
  have hexec : Exec (lex 2 ['<', 'x']) [⟨.input, ⟨1, 2⟩⟩] (.exec []) := by
    rw [hlex]
    exact Exec.simple (α := Span) [⟨.input, ⟨1, 2⟩⟩] [] (by decide)
  exact ⟨hexec, (redirections_in_order_iff ['<', 'x'] (by decide) hexec).mpr rfl⟩

end Sh

end Xv6
