import Mathlib.Logic.Function.Iterate
import Xv6.Shell

/-!
# The grammar of the shell

A command is a sequence of tokens (`lex`), and the grammar says which sequences are commands and which tree each of them
is (`Line`, `Pipe`, `Exec`). The parser never looks at a character but through `peek` and `gettoken`, and these two
look at the first token of what is ahead, whatever white space there is (`peek_ends`, `gettoken_ends`).
-/

namespace Xv6

namespace Sh

/-! ## Tokens -/

inductive Tok (α : Type)
  | bar | lpar | rpar | semi | amp | lt | gt | gtgt
  | word (a : α)
deriving DecidableEq, Repr

namespace Tok

variable {α : Type}

/-- What `gettoken` returns for the token. -/
def code : Tok α → Char
  | bar => '|'
  | lpar => '('
  | rpar => ')'
  | semi => ';'
  | amp => '&'
  | lt => '<'
  | gt => '>'
  | gtgt => '+'
  | word _ => 'a'

theorem code_word (a : α) : (word a).code = 'a' :=
  rfl

/-- The character that a symbol begins with. -/
def first : Tok α → Option Char
  | gtgt => some '>'
  | word _ => none
  | tok => some tok.code

/-- The symbol that is one character, or begins with it. -/
def symbol (c : Char) : Option (Tok α) :=
  if c = '|' then some bar
  else if c = '(' then some lpar
  else if c = ')' then some rpar
  else if c = ';' then some semi
  else if c = '&' then some amp
  else if c = '<' then some lt
  else if c = '>' then some gt
  else none

end Tok

open Tok

/-- The tokens of a text that ends at position `es`. A word is a longest sequence of characters of words, and `>>` is
one token. -/
def lex (es : ℕ) (s : Text) : List (Tok Span) :=
  match s with
  | [] => []
  | c :: s =>
    if strchr whitespace c then lex es s
    else match symbol c with
      | none => Tok.word ⟨es - (s.length + 1), es - (s.dropWhile isWord).length⟩ :: lex es (s.dropWhile isWord)
      | some .gt => if s.head? = some '>' then gtgt :: lex es s.tail else gt :: lex es s
      | some tok => tok :: lex es s
termination_by s.length
decreasing_by
  all_goals simp only [List.length_cons, List.length_tail]
  all_goals first | omega | exact Nat.lt_succ_of_le (List.length_dropWhile_le _ _)

/-! ## The grammar -/

/-- What redirects : `<`, `>` or `>>`. -/
inductive RedirOp
  | input | output | append
deriving DecidableEq, Repr

namespace RedirOp

variable {α : Type}

def tok : RedirOp → Tok α
  | input => lt
  | output => gt
  | append => gtgt

def mode : RedirOp → ℕ
  | input => O_RDONLY
  | output => O_WRONLY ||| O_CREATE ||| O_TRUNC
  | append => O_WRONLY ||| O_CREATE

def fd : RedirOp → ℕ
  | input => 0
  | output => 1
  | append => 1

end RedirOp

/-- A redirection. -/
structure Redir (α : Type) where
  op : RedirOp
  file : α
deriving DecidableEq, Repr

variable {α : Type}

def Redir.toks (r : Redir α) : List (Tok α) :=
  [r.op.tok, Tok.word r.file]

/-- The tokens of `redir*`. -/
def redirToks (rs : List (Redir α)) : List (Tok α) :=
  rs.flatMap Redir.toks

/-- The tokens of `(word redir*)*`. -/
def argToks (ws : List (α × List (Redir α))) : List (Tok α) :=
  ws.flatMap fun w => Tok.word w.1 :: redirToks w.2

theorem redirToks_length (rs : List (Redir α)) : (redirToks rs).length = 2 * rs.length := by
  induction rs with
  | nil => rfl
  | cons r rs ih =>
    rw [redirToks, List.flatMap_cons, List.length_append, ← redirToks, ih, List.length_cons]
    exact Nat.add_comm 2 _

theorem argToks_cons (w : α × List (Redir α)) (ws : List (α × List (Redir α))) :
    argToks (w :: ws) = Tok.word w.1 :: (redirToks w.2 ++ argToks ws) :=
  rfl

theorem le_argToks_length (ws : List (α × List (Redir α))) : ws.length ≤ (argToks ws).length := by
  induction ws with
  | nil => exact Nat.le_refl 0
  | cons w ws ih =>
    rw [argToks_cons, List.length_cons, List.length_cons, List.length_append]
    omega

/-- Each redirection is put around what is there already. -/
def wrap (cmd : Cmd α) (rs : List (Redir α)) : Cmd α :=
  rs.foldl (fun cmd r => .redir cmd r.file r.op.mode r.op.fd) cmd

mutual

/-- `line ::= pipe '&'* [';' line]` -/
inductive Line : List (Tok α) → Cmd α → Prop
  | last {ts : List (Tok α)} {c : Cmd α} (k : ℕ) : Pipe ts c → Line (ts ++ List.replicate k amp) (Cmd.back^[k] c)
  | semi {ts ts' : List (Tok α)} {c c' : Cmd α} (k : ℕ) : Pipe ts c → Line ts' c' →
      Line (ts ++ List.replicate k amp ++ semi :: ts') (.list (Cmd.back^[k] c) c')

/-- `pipe ::= exec ['|' pipe]` -/
inductive Pipe : List (Tok α) → Cmd α → Prop
  | last {ts : List (Tok α)} {rs : List (Redir α)} {c : Cmd α} : Exec ts rs c → Pipe ts (wrap c rs)
  | bar {ts ts' : List (Tok α)} {rs : List (Redir α)} {c c' : Cmd α} : Exec ts rs c → Pipe ts' c' →
      Pipe (ts ++ bar :: ts') (.pipe (wrap c rs) c')

/-- `exec ::= '(' line ')' redir* | redir* (word redir*)*`, with its redirections in the order in which they are written
and the command that they are for. -/
inductive Exec : List (Tok α) → List (Redir α) → Cmd α → Prop
  | block {ts : List (Tok α)} {c : Cmd α} (rs : List (Redir α)) : Line ts c →
      Exec (lpar :: ts ++ rpar :: redirToks rs) rs c
  | simple (rs : List (Redir α)) (ws : List (α × List (Redir α))) : ws.length < MAXARGS →
      Exec (redirToks rs ++ argToks ws) (rs ++ ws.flatMap Prod.snd) (.exec (ws.map Prod.fst))

end

/-! ## What is ahead -/

section Lex

variable {es : ℕ} {c : Char} {s t : Text}

@[simp]
theorem lex_nil (es : ℕ) : lex es [] = [] := by
  rw [lex]

theorem lex_white (h : strchr whitespace c = true) : lex es (c :: s) = lex es s := by
  rw [lex, if_pos h]

theorem lex_skip (es : ℕ) (s : Text) : lex es (skip s) = lex es s := by
  induction s with
  | nil => rfl
  | cons c s ih =>
    rw [skip, List.dropWhile_cons]
    split_ifs with h
    · rw [lex_white h]
      exact ih
    · rfl

/-- A character that is no symbol and no white space begins a word. -/
theorem symbol_eq_none : (symbol c : Option (Tok α)) = none ↔ strchr symbols c = false := by
  unfold symbol strchr symbols
  split_ifs with h₁ h₂ h₃ h₄ h₅ h₆ h₇ <;> simp [*]

theorem first_of_symbol {tok : Tok α} (h : symbol c = some tok) : tok.first = some c ∧ tok.code = c := by
  unfold symbol at h
  split_ifs at h with h₁ h₂ h₃ h₄ h₅ h₆ h₇ <;> cases h <;> simp [first, code, *]

theorem token_symbol {tok : Tok α} (h : symbol c = some tok) (hne : c ≠ '>') : token (c :: s) = (c, s) := by
  unfold symbol at h
  split_ifs at h with h₁ h₂ h₃ h₄ h₅ h₆ <;> simp [token, *]

theorem white_of_symbol {tok : Tok α} (h : symbol c = some tok) : strchr whitespace c = false := by
  unfold symbol at h
  split_ifs at h with h₁ h₂ h₃ h₄ h₅ h₆ h₇ <;> subst c <;> rfl

theorem lex_symbol {tok : Tok Span} (h : symbol c = some tok) (hne : c ≠ '>') : lex es (c :: s) = tok :: lex es s := by
  have hgt : tok ≠ gt := by
    rintro rfl
    exact hne (first_of_symbol h).2.symm
  rw [lex, if_neg (by rw [white_of_symbol h]; exact Bool.false_ne_true), h]
  cases tok <;> first | rfl | exact absurd rfl hgt

theorem lex_gt (es : ℕ) (s : Text) :
    lex es ('>' :: s) = if s.head? = some '>' then gtgt :: lex es s.tail else gt :: lex es s := by
  rw [lex, if_neg (by decide)]
  rfl

theorem token_gt (s : Text) :
    token ('>' :: s) = if s.head? = some '>' then ('+', s.tail) else ('>', s) := by
  simp [token]

theorem lex_word (hwhite : strchr whitespace c = false) (hsym : strchr symbols c = false) : lex es (c :: s) =
    Tok.word ⟨es - (s.length + 1), es - (s.dropWhile isWord).length⟩ :: lex es (s.dropWhile isWord) := by
  rw [lex, if_neg (by rw [hwhite]; exact Bool.false_ne_true), symbol_eq_none.mpr hsym]

theorem token_word (hwhite : strchr whitespace c = false) (hsym : strchr symbols c = false) (hnul : c ≠ '\x00') :
    token (c :: s) = ('a', s.dropWhile isWord) := by
  have hword : isWord c = true := by
    rw [isWord, hwhite, hsym]
    rfl
  have hne : c ≠ '|' ∧ c ≠ '(' ∧ c ≠ ')' ∧ c ≠ ';' ∧ c ≠ '&' ∧ c ≠ '<' ∧ c ≠ '>' := by
    refine ⟨?_, ?_, ?_, ?_, ?_, ?_, ?_⟩ <;> rintro rfl <;> cases hsym
  simp [token, hnul, hne, hword]

/-- The next token of a text that does not begin with white space is what `token` finds. -/
theorem lex_token (es : ℕ) (s : Text) (hwhite : strchr whitespace c = false) (hnul : c ≠ '\x00') : ∃ tok : Tok Span,
    lex es (c :: s) = tok :: lex es (token (c :: s)).2 ∧ (token (c :: s)).1 = tok.code ∧
      (∀ w, tok = Tok.word w → w = ⟨es - (c :: s).length, es - (token (c :: s)).2.length⟩) ∧
      (∀ toks, toks ⊆ symbols → tok.first.any (strchr toks) = strchr toks c) := by
  cases hsym : (symbol c : Option (Tok Span)) with
  | none =>
    rw [symbol_eq_none] at hsym
    rw [lex_word hwhite hsym, token_word hwhite hsym hnul]
    refine ⟨_, rfl, rfl, fun w hw => (by cases hw; rfl), fun toks htoks => ?_⟩
    have hmem : c ∉ toks := fun hc => by
      have := htoks hc
      rw [strchr, List.contains_eq_mem, decide_eq_false_iff_not] at hsym
      exact hsym this
    rw [strchr, List.contains_eq_mem, decide_eq_false hmem]
    rfl
  | some tok =>
    by_cases hgt : c = '>'
    · subst hgt
      rw [lex_gt, token_gt]
      split_ifs
      · exact ⟨gtgt, rfl, rfl, fun w hw => (by cases hw), fun _ _ => rfl⟩
      · exact ⟨gt, rfl, rfl, fun w hw => (by cases hw), fun _ _ => rfl⟩
    · obtain ⟨hfirst, hcode⟩ := first_of_symbol hsym
      rw [lex_symbol hsym hgt, token_symbol hsym hgt]
      refine ⟨tok, rfl, hcode.symm, fun w hw => ?_, fun toks _ => ?_⟩
      · subst hw
        cases hfirst
      · rw [hfirst]
        rfl

theorem token_suffix (s : Text) : (token s).2 <:+ s := by
  cases s with
  | nil => exact List.suffix_rfl
  | cons c s =>
    rw [token]
    split_ifs
    · exact List.suffix_rfl
    · exact List.suffix_cons c s
    · exact (List.tail_suffix s).trans (List.suffix_cons c s)
    · exact List.suffix_cons c s
    · exact List.dropWhile_suffix _

theorem lex_length_le (es : ℕ) (s : Text) : (lex es s).length ≤ s.length := by
  fun_induction lex es s with
  | case1 => exact Nat.le_refl 0
  | case2 c s _ ih => exact Nat.le_succ_of_le ih
  | case3 c s _ _ ih =>
    have hle := List.length_dropWhile_le isWord s
    rw [List.length_cons, List.length_cons]
    omega
  | case4 c s _ _ hhead ih =>
    rw [List.length_tail] at ih
    rw [List.length_cons, List.length_cons]
    omega
  | case5 c s _ _ _ ih => exact Nat.succ_le_succ ih
  | case6 c s _ tok _ _ ih => exact Nat.succ_le_succ ih

end Lex

/-- The tokens of the text that is ahead of the parser. -/
structure Ahead (es : ℕ) (s : Text) (ts : List (Tok Span)) : Prop where
  nul : '\x00' ∉ s
  length_le : s.length ≤ es
  lex : lex es s = ts

namespace Ahead

variable {es : ℕ} {s s' : Text} {ts : List (Tok Span)} {tok : Tok Span}

theorem suffix (h : Ahead es s ts) (hs : s' <:+ s) : Ahead es s' (Sh.lex es s') :=
  ⟨fun hmem => h.nul (hs.mem hmem), hs.length_le.trans h.length_le, rfl⟩

theorem skip (h : Ahead es s ts) : Ahead es (Sh.skip s) ts := by
  have hskip := h.suffix (List.dropWhile_suffix (strchr whitespace))
  rwa [← Sh.skip, lex_skip, h.lex] at hskip

theorem tokens_le (h : Ahead es s ts) : ts.length ≤ es := by
  rw [← h.lex]
  exact (lex_length_le es s).trans h.length_le

/-- Either nothing is ahead but white space, or a token. -/
theorem skip_cases (h : Ahead es s ts) : Sh.skip s = [] ∧ ts = [] ∨ ∃ c s', Sh.skip s = c :: s' ∧
    strchr whitespace c = false ∧ c ≠ '\x00' ∧ Sh.lex es (c :: s') = ts := by
  have hskip := h.skip
  cases hs : Sh.skip s with
  | nil =>
    rw [hs] at hskip
    exact Or.inl ⟨rfl, hskip.lex.symm.trans (lex_nil es)⟩
  | cons c s' =>
    rw [hs] at hskip
    refine Or.inr ⟨c, s', rfl, ?_, fun hc => hskip.nul (hc ▸ List.mem_cons_self), hskip.lex⟩
    have hhead := List.head?_dropWhile_not (strchr whitespace) s
    rw [← Sh.skip, hs] at hhead
    simpa using hhead

end Ahead

/-- The next token begins with one of the characters. -/
def headIs (toks : List Char) : List (Tok α) → Bool
  | [] => false
  | tok :: _ => tok.first.any (strchr toks)

section Ends

variable {es : ℕ} {s : Text} {ts : List (Tok Span)} {tok : Tok Span}

theorem peek_ends {toks : List Char} (htoks : toks ⊆ symbols) (h : Ahead es s ts) :
    Ends (peek toks) s fun b s' => b = headIs toks ts ∧ Ahead es s' ts := by
  refine ⟨_, _, rfl, ?_, h.skip⟩
  obtain ⟨hs, rfl⟩ | ⟨c, s', hs, hwhite, hnul, hlex⟩ := h.skip_cases
  · rw [hs]
    rfl
  · obtain ⟨tok, htok, -, -, hfirst⟩ := lex_token es s' hwhite hnul
    rw [hs, ← hlex, htok, headIs, hfirst toks htoks]
    rfl

theorem gettoken_ends (h : Ahead es s (tok :: ts)) : Ends (gettoken es) s fun r s' =>
    r.1 = tok.code ∧ (∀ w, tok = Tok.word w → r.2 = w) ∧ Ahead es s' ts := by
  refine ⟨_, _, rfl, ?_⟩
  obtain ⟨-, hnil⟩ | ⟨c, s', hs, hwhite, hnul, hlex⟩ := h.skip_cases
  · cases hnil
  · obtain ⟨tok', htok, hcode, hword, -⟩ := lex_token es s' hwhite hnul
    rw [hlex] at htok
    cases htok
    have hahead := h.skip.suffix (token_suffix (Sh.skip s))
    rw [hs] at hahead ⊢
    exact ⟨hcode, fun w hw => (hword w hw).symm, hahead.skip⟩

theorem gettoken_end (h : Ahead es s []) : Ends (gettoken es) s fun r s' => r.1 = '\x00' ∧ Ahead es s' [] := by
  refine ⟨_, _, rfl, ?_⟩
  obtain ⟨hs, -⟩ | ⟨c, s', hs, hwhite, hnul, hlex⟩ := h.skip_cases
  · have hahead := h.skip.skip
    rw [hs] at hahead ⊢
    exact ⟨rfl, hahead⟩
  · obtain ⟨tok, htok, -⟩ := lex_token es s' hwhite hnul
    rw [hlex] at htok
    cases htok

end Ends

end Sh

end Xv6
