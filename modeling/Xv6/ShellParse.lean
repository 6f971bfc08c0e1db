import Xv6.ShellGrammar

/-!
# The parser of the shell

The functions of the parser find what the grammar says. That they take every command of the grammar (`Line.parses`) is by
induction on the derivation, with what may come after each part; that they take nothing else, and always come to an end
(`parse_derives`), by induction on the calls, of which there are no more than four for a token.
-/

namespace Xv6

namespace Sh

open Tok

variable {es : ℕ} {s : Text} {ts : List (Tok Span)}

/-! ## What may come next -/

/-- The next token, if there is one, is one of those. -/
def Stops (codes : List Char) : List (Tok Span) → Prop
  | [] => True
  | tok :: _ => tok.code ∈ codes

theorem Stops.mono {codes codes' : List Char} (hsub : codes ⊆ codes') (h : Stops codes ts) : Stops codes' ts := by
  cases ts with
  | nil => trivial
  | cons tok ts => exact hsub h

theorem first_of_code {tok : Tok Span} (h : tok.code ∈ symbols) : tok.first = some tok.code := by
  cases tok with
  | gtgt => exact absurd h (by decide)
  | word w => exact absurd (show 'a' ∈ symbols from h) (by decide)
  | _ => rfl

theorem Stops.headIs_eq_false {codes toks : List Char} (hcodes : codes ⊆ symbols.filter (· ∉ toks))
    (h : Stops codes ts) : headIs toks ts = false := by
  cases ts with
  | nil => rfl
  | cons tok ts =>
    obtain ⟨hsym, hnot⟩ := List.mem_filter.mp (hcodes h)
    rw [headIs, first_of_code hsym, Option.any_some, strchr, List.contains_eq_mem,
      decide_eq_false (of_decide_eq_true hnot)]

/-! ## Commands of the grammar are taken -/

theorem redircmd_op (op : RedirOp) (c : Cmd Span) (file : Span) :
    redircmd (op.tok : Tok Span).code c file = .redir c file op.mode op.fd := by
  cases op <;> rfl

theorem headIs_op (op : RedirOp) (ts : List (Tok Span)) : headIs ['<', '>'] (op.tok :: ts) = true := by
  cases op <;> rfl

theorem parseredirs_ends (rs : List (Redir Span)) : ∀ {n : ℕ} {s : Text} {c : Cmd Span},
    Ahead es s (redirToks rs ++ ts) → headIs ['<', '>'] ts = false → rs.length < n →
    Ends (parseredirs es n c) s fun c' s' => c' = wrap c rs ∧ Ahead es s' ts := by
  induction rs with
  | nil =>
    intro n s c h hhead hn
    obtain ⟨n, rfl⟩ := Nat.exists_eq_succ_of_ne_zero (Nat.ne_of_gt hn)
    rw [show redirToks [] ++ ts = ts from rfl] at h
    rw [parseredirs]
    refine .bind (peek_ends (by decide) h) fun b s' hb => ?_
    obtain ⟨rfl, h⟩ := hb
    rw [hhead]
    exact .pure ⟨rfl, h⟩
  | cons r rs ih =>
    intro n s c h hhead hn
    obtain ⟨n, rfl⟩ := Nat.exists_eq_succ_of_ne_zero (Nat.ne_of_gt (Nat.zero_lt_of_lt hn))
    rw [show redirToks (r :: rs) ++ ts = r.op.tok :: Tok.word r.file :: (redirToks rs ++ ts) from rfl] at h
    rw [parseredirs]
    refine .bind (peek_ends (by decide) h) fun b s' hb => ?_
    obtain ⟨rfl, h⟩ := hb
    rw [headIs_op, if_pos rfl]
    refine .bind (gettoken_ends h) fun x s' hx => ?_
    obtain ⟨hcode, -, h⟩ := hx
    refine .bind (gettoken_ends h) fun y s' hy => ?_
    obtain ⟨hret, hfile, h⟩ := hy
    obtain ⟨tok, _⟩ := x
    obtain ⟨ret, file⟩ := y
    obtain rfl : file = r.file := hfile r.file rfl
    dsimp only at hcode hret ⊢
    rw [hret, code_word, if_neg (not_not.mpr rfl), hcode, redircmd_op]
    exact ih h hhead (Nat.lt_of_succ_lt_succ hn)

theorem parseback_ends (k : ℕ) : ∀ {n : ℕ} {s : Text} {c : Cmd Span},
    Ahead es s (List.replicate k amp ++ ts) → headIs ['&'] ts = false → k < n →
    Ends (parseback es n c) s fun c' s' => c' = Cmd.back^[k] c ∧ Ahead es s' ts := by
  induction k with
  | zero =>
    intro n s c h hhead hn
    obtain ⟨n, rfl⟩ := Nat.exists_eq_succ_of_ne_zero (Nat.ne_of_gt hn)
    rw [show List.replicate 0 amp ++ ts = ts from rfl] at h
    rw [parseback]
    refine .bind (peek_ends (by decide) h) fun b s' hb => ?_
    obtain ⟨rfl, h⟩ := hb
    rw [hhead]
    exact .pure ⟨rfl, h⟩
  | succ k ih =>
    intro n s c h hhead hn
    obtain ⟨n, rfl⟩ := Nat.exists_eq_succ_of_ne_zero (Nat.ne_of_gt (Nat.zero_lt_of_lt hn))
    rw [show List.replicate (k + 1) amp ++ ts = amp :: (List.replicate k amp ++ ts) from rfl] at h
    rw [parseback]
    refine .bind (peek_ends (by decide) h) fun b s' hb => ?_
    obtain ⟨rfl, h⟩ := hb
    rw [show headIs ['&'] (amp :: (List.replicate k amp ++ ts)) = true from rfl, if_pos rfl]
    refine .bind (gettoken_ends h) fun x s' hx => ?_
    rw [Function.iterate_succ_apply]
    exact ih hx.2.2 hhead (Nat.lt_of_succ_lt_succ hn)

/-- What the loop of `parseexec` does to the command. -/
def addArgs (c : Cmd Span) (ws : List (Span × List (Redir Span))) : Cmd Span :=
  ws.foldl (fun c w => wrap (c.addArg w.1) w.2) c

theorem parseargs_ends (ws : List (Span × List (Redir Span))) : ∀ {n argc : ℕ} {s : Text} {c : Cmd Span},
    Ahead es s (argToks ws ++ ts) → Stops ['|', ')', '&', ';'] ts → argc + ws.length < MAXARGS → ws.length < n →
    Ends (parseargs es n argc c) s fun c' s' => c' = addArgs c ws ∧ Ahead es s' ts := by
  induction ws with
  | nil =>
    intro n argc s c h hstop _ hn
    obtain ⟨n, rfl⟩ := Nat.exists_eq_succ_of_ne_zero (Nat.ne_of_gt hn)
    rw [show argToks [] ++ ts = ts from rfl] at h
    rw [parseargs]
    refine .bind (peek_ends (by decide) h) fun b s' hb => ?_
    obtain ⟨rfl, h⟩ := hb
    cases ts with
    | nil =>
      rw [show headIs ['|', ')', '&', ';'] ([] : List (Tok Span)) = false from rfl]
      refine .bind (gettoken_end h) fun x s' hx => ?_
      obtain ⟨tok, arg⟩ := x
      obtain ⟨rfl, h⟩ := hx
      exact .pure ⟨rfl, h⟩
    | cons tok ts =>
      have hhead : headIs ['|', ')', '&', ';'] (tok :: ts) = true := by
        have hsym : tok.code ∈ symbols := (show ['|', ')', '&', ';'] ⊆ symbols by decide) hstop
        rw [headIs, first_of_code hsym, Option.any_some, strchr, List.contains_eq_mem]
        exact decide_eq_true hstop
      rw [hhead, if_pos rfl]
      exact .pure ⟨rfl, h⟩
  | cons w ws ih =>
    intro n argc s c h hstop hargc hn
    obtain ⟨n, rfl⟩ := Nat.exists_eq_succ_of_ne_zero (Nat.ne_of_gt (Nat.zero_lt_of_lt hn))
    rw [List.length_cons] at hargc hn
    rw [argToks_cons, List.cons_append, List.append_assoc] at h
    rw [parseargs]
    refine .bind (peek_ends (by decide) h) fun b s' hb => ?_
    obtain ⟨rfl, h⟩ := hb
    rw [show headIs ['|', ')', '&', ';'] (Tok.word w.1 :: (redirToks w.2 ++ (argToks ws ++ ts))) = false from rfl]
    refine .bind (gettoken_ends h) fun x s' hx => ?_
    obtain ⟨tok, arg⟩ := x
    obtain ⟨rfl, harg, h⟩ := hx
    obtain rfl : arg = w.1 := harg w.1 rfl
    have hnext : headIs ['<', '>'] (argToks ws ++ ts) = false := by
      cases ws with
      | nil => exact hstop.headIs_eq_false (by decide)
      | cons w' ws => rfl
    have hfuel : w.2.length < es + 1 := by
      have := h.tokens_le
      rw [List.length_append, redirToks_length] at this
      omega
    rw [code_word]
    dsimp only
    rw [if_neg (by decide), if_neg (not_not.mpr rfl), if_neg (by omega)]
    refine .bind (parseredirs_ends w.2 h hnext hfuel) fun c' s' hc => ?_
    obtain ⟨rfl, h⟩ := hc
    exact ih h hstop (by omega) (by omega)

theorem addArg_wrap (c : Cmd Span) (rs : List (Redir Span)) (a : Span) :
    (wrap c rs).addArg a = wrap (c.addArg a) rs := by
  induction rs generalizing c with
  | nil => rfl
  | cons r rs ih => exact ih _

theorem addArgs_wrap (ws : List (Span × List (Redir Span))) : ∀ (argv : List Span) (rs : List (Redir Span)),
    addArgs (wrap (.exec argv) rs) ws = wrap (.exec (argv ++ ws.map Prod.fst)) (rs ++ ws.flatMap Prod.snd) := by
  induction ws with
  | nil =>
    intro argv rs
    rw [List.map_nil, List.flatMap_nil, List.append_nil, List.append_nil]
    rfl
  | cons w ws ih =>
    intro argv rs
    have hstep : wrap ((wrap (.exec argv) rs).addArg w.1) w.2 = wrap (.exec (argv ++ [w.1])) (rs ++ w.2) := by
      rw [addArg_wrap, wrap, wrap, wrap, List.foldl_append]
      rfl
    rw [addArgs, List.foldl_cons, hstep, ← addArgs, ih, List.map_cons, List.flatMap_cons, List.append_assoc,
      List.append_assoc, List.singleton_append]

theorem stops_amps (k : ℕ) (h : Stops [')', ';'] ts) : Stops [')', '&', ';'] (List.replicate k amp ++ ts) := by
  cases k with
  | zero => exact h.mono (by decide)
  | succ k => exact List.mem_cons_of_mem _ List.mem_cons_self

theorem headIs_args (rs : List (Redir Span)) (ws : List (Span × List (Redir Span))) (h : Stops [')', '&', ';', '|'] ts) :
    headIs ['('] (redirToks rs ++ (argToks ws ++ ts)) = false ∧ headIs ['<', '>'] (argToks ws ++ ts) = false := by
  cases ws with
  | nil =>
    refine ⟨?_, h.headIs_eq_false (by decide)⟩
    cases rs with
    | nil => exact h.headIs_eq_false (by decide)
    | cons r rs => cases hop : r.op <;> simp [redirToks, Redir.toks, hop, headIs, RedirOp.tok, first, code, strchr]
  | cons w ws =>
    refine ⟨?_, rfl⟩
    cases rs with
    | nil => rfl
    | cons r rs => cases hop : r.op <;> simp [redirToks, Redir.toks, hop, headIs, RedirOp.tok, first, code, strchr]

mutual

theorem Line.parses {ts₁ : List (Tok Span)} {c : Cmd Span} : Line ts₁ c → ∀ {n : ℕ} {s : Text} {ts : List (Tok Span)},
    Ahead es s (ts₁ ++ ts) → Stops [')'] ts → 4 * (ts₁ ++ ts).length + 4 ≤ n →
    Ends (parseline es n) s fun c' s' => c' = c ∧ Ahead es s' ts
  | .last k h, n, s, ts, hs, hstop, hn => by
    obtain ⟨n, rfl⟩ := Nat.exists_eq_succ_of_ne_zero (Nat.ne_of_gt (Nat.lt_of_lt_of_le (Nat.succ_pos _) hn))
    rw [List.append_assoc] at hs hn
    rw [parseline]
    refine .bind (h.parses hs (stops_amps k (hstop.mono (by decide))) (by omega)) fun c' s' hc => ?_
    obtain ⟨rfl, hs⟩ := hc
    have hle := hs.tokens_le
    rw [List.length_append, List.length_replicate] at hle
    refine .bind (parseback_ends k hs (hstop.headIs_eq_false (by decide)) (by omega)) fun c' s' hc => ?_
    obtain ⟨rfl, hs⟩ := hc
    refine .bind (peek_ends (by decide) hs) fun b s' hb => ?_
    obtain ⟨rfl, hs⟩ := hb
    rw [hstop.headIs_eq_false (by decide)]
    exact .pure ⟨rfl, hs⟩
  | @Line.semi _ _ ts' _ _ k h h', n, s, ts, hs, hstop, hn => by
    obtain ⟨n, rfl⟩ := Nat.exists_eq_succ_of_ne_zero (Nat.ne_of_gt (Nat.lt_of_lt_of_le (Nat.succ_pos _) hn))
    rw [List.append_assoc, List.append_assoc, List.cons_append] at hs hn
    have hsemi : Stops [')', ';'] (semi :: (ts' ++ ts)) := List.mem_cons_of_mem _ List.mem_cons_self
    rw [parseline]
    refine .bind (h.parses hs (stops_amps k hsemi) (by omega)) fun c' s' hc => ?_
    obtain ⟨rfl, hs⟩ := hc
    have hle := hs.tokens_le
    rw [List.length_append, List.length_replicate] at hle
    refine .bind (parseback_ends k hs (hsemi.headIs_eq_false (by decide)) (by omega)) fun c' s' hc => ?_
    obtain ⟨rfl, hs⟩ := hc
    refine .bind (peek_ends (by decide) hs) fun b s' hb => ?_
    obtain ⟨rfl, hs⟩ := hb
    rw [show headIs [';'] (semi :: (ts' ++ ts)) = true from rfl, if_pos rfl]
    refine .bind (gettoken_ends hs) fun x s' hx => ?_
    rw [List.length_append, List.length_append, List.length_cons] at hn
    refine .bind (h'.parses hx.2.2 hstop (by omega)) fun c' s' hc => ?_
    obtain ⟨rfl, hs⟩ := hc
    exact .pure ⟨rfl, hs⟩

theorem Pipe.parses {ts₁ : List (Tok Span)} {c : Cmd Span} : Pipe ts₁ c → ∀ {n : ℕ} {s : Text} {ts : List (Tok Span)},
    Ahead es s (ts₁ ++ ts) → Stops [')', '&', ';'] ts → 4 * (ts₁ ++ ts).length + 3 ≤ n →
    Ends (parsepipe es n) s fun c' s' => c' = c ∧ Ahead es s' ts
  | .last h, n, s, ts, hs, hstop, hn => by
    obtain ⟨n, rfl⟩ := Nat.exists_eq_succ_of_ne_zero (Nat.ne_of_gt (Nat.lt_of_lt_of_le (Nat.succ_pos _) hn))
    rw [parsepipe]
    refine .bind (h.parses hs (hstop.mono (by decide)) (by omega)) fun c' s' hc => ?_
    obtain ⟨rfl, hs⟩ := hc
    refine .bind (peek_ends (by decide) hs) fun b s' hb => ?_
    obtain ⟨rfl, hs⟩ := hb
    rw [hstop.headIs_eq_false (by decide)]
    exact .pure ⟨rfl, hs⟩
  | @Pipe.bar _ _ ts' _ _ _ h h', n, s, ts, hs, hstop, hn => by
    obtain ⟨n, rfl⟩ := Nat.exists_eq_succ_of_ne_zero (Nat.ne_of_gt (Nat.lt_of_lt_of_le (Nat.succ_pos _) hn))
    rw [List.append_assoc, List.cons_append] at hs hn
    have hbar : Stops [')', '&', ';', '|'] (bar :: (ts' ++ ts)) := show '|' ∈ [')', '&', ';', '|'] by decide
    rw [parsepipe]
    refine .bind (h.parses hs hbar (by omega)) fun c' s' hc => ?_
    obtain ⟨rfl, hs⟩ := hc
    refine .bind (peek_ends (by decide) hs) fun b s' hb => ?_
    obtain ⟨rfl, hs⟩ := hb
    rw [show headIs ['|'] (bar :: (ts' ++ ts)) = true from rfl, if_pos rfl]
    refine .bind (gettoken_ends hs) fun x s' hx => ?_
    rw [List.length_append, List.length_cons] at hn
    refine .bind (h'.parses hx.2.2 hstop (by omega)) fun c' s' hc => ?_
    obtain ⟨rfl, hs⟩ := hc
    exact .pure ⟨rfl, hs⟩

theorem Exec.parses {ts₁ : List (Tok Span)} {rs : List (Redir Span)} {c : Cmd Span} : Exec ts₁ rs c →
    ∀ {n : ℕ} {s : Text} {ts : List (Tok Span)}, Ahead es s (ts₁ ++ ts) → Stops [')', '&', ';', '|'] ts →
    4 * (ts₁ ++ ts).length + 2 ≤ n → Ends (parseexec es n) s fun c' s' => c' = wrap c rs ∧ Ahead es s' ts
  | @Exec.block _ ts₁ _ rs h, n, s, ts, hs, hstop, hn => by
    rw [List.append_assoc, List.cons_append, List.cons_append] at hs hn
    rw [List.length_cons] at hn
    obtain ⟨n, rfl⟩ := Nat.exists_eq_add_of_le (show 2 ≤ n by omega)
    rw [Nat.add_comm, parseexec]
    refine .bind (peek_ends (by decide) hs) fun b s' hb => ?_
    obtain ⟨rfl, hs⟩ := hb
    rw [show headIs ['('] (lpar :: (ts₁ ++ rpar :: (redirToks rs ++ ts))) = true from rfl, if_pos rfl, parseblock]
    refine .bind (peek_ends (by decide) hs) fun b s' hb => ?_
    obtain ⟨rfl, hs⟩ := hb
    rw [show headIs ['('] (lpar :: (ts₁ ++ rpar :: (redirToks rs ++ ts))) = true from rfl]
    refine .bind (gettoken_ends hs) fun x s' hx => ?_
    refine .bind (h.parses hx.2.2 (show ')' ∈ [')'] by decide) (by omega)) fun c' s' hc => ?_
    obtain ⟨rfl, hs⟩ := hc
    refine .bind (peek_ends (by decide) hs) fun b s' hb => ?_
    obtain ⟨rfl, hs⟩ := hb
    rw [show headIs [')'] (rpar :: (redirToks rs ++ ts)) = true from rfl]
    refine .bind (gettoken_ends hs) fun x s' hx => ?_
    have hle := hx.2.2.tokens_le
    rw [List.length_append, redirToks_length] at hle
    exact parseredirs_ends rs hx.2.2 (hstop.headIs_eq_false (by decide)) (by omega)
  | .simple rs ws hws, n, s, ts, hs, hstop, hn => by
    obtain ⟨n, rfl⟩ := Nat.exists_eq_succ_of_ne_zero (Nat.ne_of_gt (Nat.lt_of_lt_of_le (Nat.succ_pos _) hn))
    rw [List.append_assoc] at hs
    obtain ⟨hparen, hredir⟩ := headIs_args rs ws hstop
    rw [parseexec]
    refine .bind (peek_ends (by decide) hs) fun b s' hb => ?_
    obtain ⟨rfl, hs⟩ := hb
    rw [hparen]
    have hle := hs.tokens_le
    rw [List.length_append, List.length_append, redirToks_length] at hle
    have hlen := le_argToks_length ws
    refine .bind (parseredirs_ends rs hs hredir (by omega)) fun c' s' hc => ?_
    obtain ⟨rfl, hs⟩ := hc
    refine (parseargs_ends ws hs (hstop.mono (by decide)) (by omega) (by omega)).mono fun c' s' hc => ?_
    obtain ⟨rfl, hs⟩ := hc
    exact ⟨addArgs_wrap ws [] rs, hs⟩

end

/-! ## Nothing else is taken -/

/-- A part of what is ahead has been parsed. -/
def Derives (P : List (Tok Span) → Cmd Span → Prop) (es : ℕ) (ts : List (Tok Span)) (c : Cmd Span) (s : Text) : Prop :=
  ∃ ts₁ ts₂, ts = ts₁ ++ ts₂ ∧ P ts₁ c ∧ Ahead es s ts₂

/-- An exception that is a panic of the shell. -/
abbrev Real (e : Panic) : Prop :=
  e ≠ .outOfFuel

theorem eq_word_of_code {tok : Tok Span} (h : tok.code = 'a') : ∃ w, tok = Tok.word w := by
  cases tok with
  | word w => exact ⟨w, rfl⟩
  | _ => exact absurd h (by decide)

theorem eq_op_of_headIs {tok : Tok Span} (h : headIs ['<', '>'] (tok :: ts) = true) : ∃ op : RedirOp, tok = op.tok := by
  cases tok with
  | lt => exact ⟨.input, rfl⟩
  | gt => exact ⟨.output, rfl⟩
  | gtgt => exact ⟨.append, rfl⟩
  | word w => exact absurd h Bool.false_ne_true
  | _ => exact absurd h (by simp [headIs, first, code, strchr])

/-- What the next token is, when it begins with a character that only one symbol begins with. -/
theorem eq_of_headIs {c : Char} {tok : Tok Span} (hc : c ≠ '>') (hsym : symbol c = some tok)
    (h : headIs [c] ts = true) : ∃ ts', ts = tok :: ts' := by
  cases ts with
  | nil => exact absurd h Bool.false_ne_true
  | cons tok' ts =>
    have hfirst : tok'.first = some c := by
      rw [headIs] at h
      cases hf : tok'.first with
      | none =>
        rw [hf] at h
        cases h
      | some d =>
        rw [hf] at h
        simpa [strchr] using h
    have hsym' : symbol c = some tok' := by
      cases tok' <;> cases hfirst <;> first | rfl | exact absurd rfl hc
    obtain rfl : tok' = tok := Option.some.inj (hsym'.symm.trans hsym)
    exact ⟨ts, rfl⟩

theorem parseredirs_derives (n : ℕ) : ∀ {s : Text} {ts : List (Tok Span)} {c : Cmd Span}, Ahead es s ts → ts.length < n →
    Outcome (parseredirs es n c) s (Derives (fun ts₁ c' => ∃ rs, ts₁ = redirToks rs ∧ c' = wrap c rs) es ts) Real := by
  induction n with
  | zero =>
    intro s ts c _ hn
    exact absurd hn (Nat.not_lt_zero _)
  | succ n ih =>
    intro s ts c h hn
    rw [parseredirs]
    refine .bind_ends (peek_ends (by decide) h) fun b s' hb => ?_
    obtain ⟨rfl, h⟩ := hb
    cases hhead : headIs ['<', '>'] ts with
    | false => exact .pure ⟨[], ts, rfl, ⟨[], rfl, rfl⟩, h⟩
    | true =>
      rw [if_pos rfl]
      cases ts with
      | nil => cases hhead
      | cons tok ts =>
        obtain ⟨op, rfl⟩ := eq_op_of_headIs hhead
        refine .bind_ends (gettoken_ends h) fun x s' hx => ?_
        obtain ⟨tok, _⟩ := x
        obtain ⟨rfl, -, h⟩ := hx
        cases ts with
        | nil =>
          refine .bind_ends (gettoken_end h) fun y s' hy => ?_
          obtain ⟨ret, file⟩ := y
          obtain ⟨rfl, -⟩ := hy
          exact .throw_bind (by decide)
        | cons tok ts =>
          refine .bind_ends (gettoken_ends h) fun y s' hy => ?_
          obtain ⟨ret, file⟩ := y
          obtain ⟨rfl, hfile, h'⟩ := hy
          dsimp only
          split_ifs with hret
          · exact .throw_bind (by decide)
          · obtain ⟨w, rfl⟩ := eq_word_of_code (not_not.mp hret)
            obtain rfl : file = w := hfile w rfl
            rw [List.length_cons, List.length_cons] at hn
            rw [redircmd_op]
            refine (ih h' (by omega)).mono fun c' s' hc => ?_
            obtain ⟨ts₁, ts₂, rfl, ⟨rs, rfl, rfl⟩, h''⟩ := hc
            exact ⟨redirToks (⟨op, file⟩ :: rs), ts₂, rfl, ⟨⟨op, file⟩ :: rs, rfl, rfl⟩, h''⟩

theorem parseback_derives (n : ℕ) : ∀ {s : Text} {ts : List (Tok Span)} {c : Cmd Span}, Ahead es s ts → ts.length < n →
    Outcome (parseback es n c) s (Derives (fun ts₁ c' => ∃ k, ts₁ = List.replicate k amp ∧ c' = Cmd.back^[k] c) es ts)
      Real := by
  induction n with
  | zero =>
    intro s ts c _ hn
    exact absurd hn (Nat.not_lt_zero _)
  | succ n ih =>
    intro s ts c h hn
    rw [parseback]
    refine .bind_ends (peek_ends (by decide) h) fun b s' hb => ?_
    obtain ⟨rfl, h⟩ := hb
    cases hhead : headIs ['&'] ts with
    | false => exact .pure ⟨[], ts, rfl, ⟨0, rfl, rfl⟩, h⟩
    | true =>
      rw [if_pos rfl]
      obtain ⟨ts, rfl⟩ := eq_of_headIs (by decide) (show symbol '&' = some amp from rfl) hhead
      refine .bind_ends (gettoken_ends h) fun x s' hx => ?_
      rw [List.length_cons] at hn
      refine (ih hx.2.2 (by omega)).mono fun c' s' hc => ?_
      obtain ⟨ts₁, ts₂, rfl, ⟨k, rfl, rfl⟩, h'⟩ := hc
      exact ⟨List.replicate (k + 1) amp, ts₂, rfl, ⟨k + 1, rfl, (Function.iterate_succ_apply _ _ _).symm⟩, h'⟩

theorem parseargs_derives (n : ℕ) : ∀ {argc : ℕ} {s : Text} {ts : List (Tok Span)} {c : Cmd Span}, Ahead es s ts →
    ts.length < n → argc < MAXARGS → Outcome (parseargs es n argc c) s
      (Derives (fun ts₁ c' => ∃ ws, ts₁ = argToks ws ∧ argc + ws.length < MAXARGS ∧ c' = addArgs c ws) es ts) Real := by
  induction n with
  | zero =>
    intro argc s ts c _ hn
    exact absurd hn (Nat.not_lt_zero _)
  | succ n ih =>
    intro argc s ts c h hn hargc
    have hstop : ∀ s', Ahead es s' ts →
        Derives (fun ts₁ c' => ∃ ws, ts₁ = argToks ws ∧ argc + ws.length < MAXARGS ∧ c' = addArgs c ws) es ts c s' :=
      fun s' h => ⟨[], ts, rfl, ⟨[], rfl, hargc, rfl⟩, h⟩
    rw [parseargs]
    refine .bind_ends (peek_ends (by decide) h) fun b s' hb => ?_
    obtain ⟨rfl, h⟩ := hb
    cases hhead : headIs ['|', ')', '&', ';'] ts with
    | true => exact .pure (hstop _ h)
    | false =>
      rw [if_neg Bool.false_ne_true]
      cases ts with
      | nil =>
        refine .bind_ends (gettoken_end h) fun x s' hx => ?_
        obtain ⟨tok, arg⟩ := x
        obtain ⟨rfl, h⟩ := hx
        exact .pure (hstop _ h)
      | cons tok ts =>
        refine .bind_ends (gettoken_ends h) fun x s' hx => ?_
        obtain ⟨ret, arg⟩ := x
        obtain ⟨rfl, harg, h'⟩ := hx
        have hnul : tok.code ≠ '\x00' := by
          cases tok with
          | word w => exact show 'a' ≠ '\x00' by decide
          | _ => decide
        dsimp only
        rw [if_neg hnul]
        by_cases hcode : tok.code = 'a'
        · obtain ⟨w, rfl⟩ := eq_word_of_code hcode
          obtain rfl : arg = w := harg w rfl
          rw [if_neg (not_not.mpr hcode)]
          split_ifs with hmax
          · exact .throw_bind (by decide)
          refine .bind (parseredirs_derives (es + 1) h' (Nat.lt_succ_of_le h'.tokens_le)) fun c' s' hc => ?_
          obtain ⟨ts₁, ts₂, rfl, ⟨rs, rfl, rfl⟩, h₂⟩ := hc
          rw [List.length_cons, List.length_append] at hn
          refine (ih h₂ (by omega) (by omega)).mono fun c' s' hc => ?_
          obtain ⟨ts₁, ts₃, rfl, ⟨ws, rfl, hws, rfl⟩, h₃⟩ := hc
          refine ⟨argToks ((arg, rs) :: ws), ts₃, ?_, ⟨(arg, rs) :: ws, rfl, ?_, rfl⟩, h₃⟩
          · rw [argToks_cons, List.cons_append, List.append_assoc]
          · rw [List.length_cons]
            omega
        · rw [if_pos hcode]
          exact .throw_bind (by decide)

/-- The tokens are an `exec`, and `c` is its tree. -/
def ExecTree (ts : List (Tok Span)) (c : Cmd Span) : Prop :=
  ∃ rs body, Exec ts rs body ∧ c = wrap body rs

theorem parseline_derives {n : ℕ}
    (hpipe : ∀ {s ts}, Ahead es s ts → 4 * ts.length + 3 ≤ n → Outcome (parsepipe es n) s (Derives Pipe es ts) Real)
    (hline : ∀ {s ts}, Ahead es s ts → 4 * ts.length + 4 ≤ n → Outcome (parseline es n) s (Derives Line es ts) Real)
    (h : Ahead es s ts) (hn : 4 * ts.length + 4 ≤ n + 1) :
    Outcome (parseline es (n + 1)) s (Derives Line es ts) Real := by
  rw [parseline]
  refine .bind (hpipe h (by omega)) fun c s' hc => ?_
  obtain ⟨ts₁, ts₂, rfl, hpipe, h₂⟩ := hc
  refine .bind (parseback_derives (es + 1) h₂ (Nat.lt_succ_of_le h₂.tokens_le)) fun c' s' hc => ?_
  obtain ⟨_, ts₃, rfl, ⟨k, rfl, rfl⟩, h₃⟩ := hc
  refine .bind_ends (peek_ends (by decide) h₃) fun b s' hb => ?_
  obtain ⟨rfl, h⟩ := hb
  cases hhead : headIs [';'] ts₃ with
  | false => exact .pure ⟨_, ts₃, (List.append_assoc _ _ _).symm, .last k hpipe, h⟩
  | true =>
    rw [if_pos rfl]
    obtain ⟨ts₄, rfl⟩ := eq_of_headIs (by decide) (show symbol ';' = some Tok.semi from rfl) hhead
    refine .bind_ends (gettoken_ends h) fun x s' hx => ?_
    rw [List.length_append, List.length_append, List.length_cons] at hn
    refine .bind (hline hx.2.2 (by omega)) fun c' s' hc => ?_
    obtain ⟨ts₅, ts₆, rfl, hline, h⟩ := hc
    refine .pure ⟨ts₁ ++ List.replicate k amp ++ .semi :: ts₅, ts₆, ?_, .semi k hpipe hline, h⟩
    rw [List.append_assoc, List.append_assoc, List.cons_append]

theorem parsepipe_derives {n : ℕ}
    (hexec : ∀ {s ts}, Ahead es s ts → 4 * ts.length + 2 ≤ n → Outcome (parseexec es n) s (Derives ExecTree es ts) Real)
    (hpipe : ∀ {s ts}, Ahead es s ts → 4 * ts.length + 3 ≤ n → Outcome (parsepipe es n) s (Derives Pipe es ts) Real)
    (h : Ahead es s ts) (hn : 4 * ts.length + 3 ≤ n + 1) :
    Outcome (parsepipe es (n + 1)) s (Derives Pipe es ts) Real := by
  rw [parsepipe]
  refine .bind (hexec h (by omega)) fun c s' hc => ?_
  obtain ⟨ts₁, ts₂, rfl, ⟨rs, body, hexec, rfl⟩, h⟩ := hc
  refine .bind_ends (peek_ends (by decide) h) fun b s' hb => ?_
  obtain ⟨rfl, h⟩ := hb
  cases hhead : headIs ['|'] ts₂ with
  | false => exact .pure ⟨ts₁, ts₂, rfl, .last hexec, h⟩
  | true =>
    rw [if_pos rfl]
    obtain ⟨ts₃, rfl⟩ := eq_of_headIs (by decide) (show symbol '|' = some Tok.bar from rfl) hhead
    refine .bind_ends (gettoken_ends h) fun x s' hx => ?_
    rw [List.length_append, List.length_cons] at hn
    refine .bind (hpipe hx.2.2 (by omega)) fun c' s' hc => ?_
    obtain ⟨ts₄, ts₅, rfl, hpipe, h⟩ := hc
    refine .pure ⟨ts₁ ++ .bar :: ts₄, ts₅, ?_, .bar hexec hpipe, h⟩
    rw [List.append_assoc, List.cons_append]

theorem parseblock_derives {n : ℕ}
    (hline : ∀ {s ts}, Ahead es s ts → 4 * ts.length + 4 ≤ n → Outcome (parseline es n) s (Derives Line es ts) Real)
    (h : Ahead es s (lpar :: ts)) (hn : 4 * ts.length + 5 ≤ n + 1) :
    Outcome (parseblock es (n + 1)) s (Derives ExecTree es (lpar :: ts)) Real := by
  rw [parseblock]
  refine .bind_ends (peek_ends (by decide) h) fun b s' hb => ?_
  obtain ⟨rfl, h⟩ := hb
  rw [show headIs ['('] (lpar :: ts) = true from rfl]
  refine .bind_ends (gettoken_ends h) fun x s' hx => ?_
  refine .bind (hline hx.2.2 (by omega)) fun c s' hc => ?_
  obtain ⟨ts₁, ts₂, rfl, hline, h⟩ := hc
  refine .bind_ends (peek_ends (by decide) h) fun b s' hb => ?_
  obtain ⟨rfl, h⟩ := hb
  cases hhead : headIs [')'] ts₂ with
  | false => exact .throw_bind (by decide)
  | true =>
    obtain ⟨ts₃, rfl⟩ := eq_of_headIs (by decide) (show symbol ')' = some Tok.rpar from rfl) hhead
    refine .bind_ends (gettoken_ends h) fun x s' hx => ?_
    refine (parseredirs_derives (es + 1) hx.2.2 (Nat.lt_succ_of_le hx.2.2.tokens_le)).mono fun c' s' hc => ?_
    obtain ⟨_, ts₄, rfl, ⟨rs, rfl, rfl⟩, h₄⟩ := hc
    refine ⟨lpar :: ts₁ ++ rpar :: redirToks rs, ts₄, ?_, ⟨rs, c, .block rs hline, rfl⟩, h₄⟩
    rw [List.append_assoc, List.cons_append, List.cons_append]

theorem parseexec_derives {n : ℕ}
    (hblock : ∀ {s ts}, Ahead es s (lpar :: ts) → 4 * ts.length + 5 ≤ n →
      Outcome (parseblock es n) s (Derives ExecTree es (lpar :: ts)) Real)
    (h : Ahead es s ts) (hn : 4 * ts.length + 2 ≤ n + 1) :
    Outcome (parseexec es (n + 1)) s (Derives ExecTree es ts) Real := by
  rw [parseexec]
  refine .bind_ends (peek_ends (by decide) h) fun b s' hb => ?_
  obtain ⟨rfl, h⟩ := hb
  cases hhead : headIs ['('] ts with
  | true =>
    rw [if_pos rfl]
    obtain ⟨ts₁, rfl⟩ := eq_of_headIs (by decide) (show symbol '(' = some Tok.lpar from rfl) hhead
    rw [List.length_cons] at hn
    exact hblock h (by omega)
  | false =>
    refine .bind (parseredirs_derives (es + 1) h (Nat.lt_succ_of_le h.tokens_le)) fun c s' hc => ?_
    obtain ⟨_, ts₁, rfl, ⟨rs, rfl, rfl⟩, h₁⟩ := hc
    refine (parseargs_derives (es + 1) h₁ (Nat.lt_succ_of_le h₁.tokens_le) (show 0 < MAXARGS by decide)).mono
      fun c' s' hc => ?_
    obtain ⟨_, ts₂, rfl, ⟨ws, rfl, hws, rfl⟩, h₂⟩ := hc
    rw [Nat.zero_add] at hws
    exact ⟨redirToks rs ++ argToks ws, ts₂, (List.append_assoc _ _ _).symm,
      ⟨_, _, .simple rs ws hws, addArgs_wrap ws [] rs⟩, h₂⟩

/-- Whatever is ahead, the parser comes to an end : it has found a part of it that is of the grammar, or it panics. -/
theorem parse_derives (es n : ℕ) :
    (∀ {s ts}, Ahead es s ts → 4 * ts.length + 4 ≤ n → Outcome (parseline es n) s (Derives Line es ts) Real) ∧
    (∀ {s ts}, Ahead es s ts → 4 * ts.length + 3 ≤ n → Outcome (parsepipe es n) s (Derives Pipe es ts) Real) ∧
    (∀ {s ts}, Ahead es s ts → 4 * ts.length + 2 ≤ n → Outcome (parseexec es n) s (Derives ExecTree es ts) Real) ∧
    (∀ {s ts}, Ahead es s (lpar :: ts) → 4 * ts.length + 5 ≤ n →
      Outcome (parseblock es n) s (Derives ExecTree es (lpar :: ts)) Real) := by
  induction n with
  | zero => exact ⟨fun _ hn => by omega, fun _ hn => by omega, fun _ hn => by omega, fun _ hn => by omega⟩
  | succ n ih =>
    obtain ⟨hline, hpipe, hexec, hblock⟩ := ih
    exact ⟨parseline_derives hpipe hline, parsepipe_derives hexec hpipe, parseexec_derives hblock,
      parseblock_derives hline⟩

end Sh

end Xv6
