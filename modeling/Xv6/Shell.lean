import Mathlib.Data.List.TakeWhile
import Xv6.Ends

/-!
# The shell

`sh.c` parses a command in place and runs the tree that it has built. A pointer into the buffer, while the command is
parsed, is kept as the text from there to `es`, so that `*s` is its first character, or 0 if there is none; `q` and `eq`
of a token are positions. The nodes of the tree hold such positions until `nulterminate` has put an end to every string.

The calls of `runcmd` are a tree again (`Prog`), which branches where the program does : at the result of `open`, `pipe`
and `fork`, and into child and parent.
-/

namespace Xv6

namespace Sh

abbrev MAXARGS : ℕ := 10

abbrev O_RDONLY : ℕ := 0x000
abbrev O_WRONLY : ℕ := 0x001
abbrev O_CREATE : ℕ := 0x200
abbrev O_TRUNC : ℕ := 0x400

/-- The characters of a command, without the terminating 0. -/
abbrev Text : Type :=
  List Char

/-- Where a string begins and ends : `q` and `eq`. -/
structure Span where
  q : ℕ
  eq : ℕ
deriving DecidableEq, Repr

/-- The commands, with strings of a type. -/
inductive Cmd (α : Type)
  | exec (argv : List α)
  | redir (cmd : Cmd α) (file : α) (mode fd : ℕ)
  | pipe (left right : Cmd α)
  | list (left right : Cmd α)
  | back (cmd : Cmd α)
deriving DecidableEq, Repr

namespace Cmd

variable {α β : Type}

def map (f : α → β) : Cmd α → Cmd β
  | exec argv => exec (argv.map f)
  | redir cmd file mode fd => redir (cmd.map f) (f file) mode fd
  | pipe left right => pipe (left.map f) (right.map f)
  | list left right => list (left.map f) (right.map f)
  | back cmd => back (cmd.map f)

/-- `cmd->argv[argc++] = q`, for the `execcmd` that the redirections are around. -/
def addArg (a : α) : Cmd α → Cmd α
  | exec argv => exec (argv ++ [a])
  | redir cmd file mode fd => redir (cmd.addArg a) file mode fd
  | cmd => cmd

end Cmd

/-- The panics of the parser; `leftovers` prints what is left first. -/
inductive Panic
  | missingFile | parseblock | missingParen | tooManyArgs | unexpected | leftovers (s : Text)
  /-- The bound on the number of calls is used up, which never happens. -/
  | outOfFuel
deriving DecidableEq, Repr

abbrev ParseM : Type → Type :=
  StateT Text (Except Panic)

/-! ## gettoken and peek -/

def whitespace : List Char :=
  [' ', '\t', '\r', '\n', '\x0b']

def symbols : List Char :=
  ['<', '|', '>', '&', ';', '(', ')']

def strchr (s : List Char) (c : Char) : Bool :=
  s.contains c

/-- `while(s < es && strchr(whitespace, *s)) s++` -/
def skip (s : Text) : Text :=
  s.dropWhile (strchr whitespace)

/-- A character of a word. -/
def isWord (c : Char) : Bool :=
  !strchr whitespace c && !strchr symbols c

/-- The `switch` of `gettoken` : `ret`, and where `s` is after it. -/
def token : Text → Char × Text
  | [] => ('\x00', [])
  | c :: s =>
    if c = '\x00' then ('\x00', c :: s)
    else if c = '|' ∨ c = '(' ∨ c = ')' ∨ c = ';' ∨ c = '&' ∨ c = '<' then (c, s)
    else if c = '>' then if s.head? = some '>' then ('+', s.tail) else ('>', s)
    else ('a', (c :: s).dropWhile isWord)

def gettoken (es : ℕ) : ParseM (Char × Span) := do
  let s := skip (← get)
  set (skip (token s).2)
  return ((token s).1, ⟨es - s.length, es - (token s).2.length⟩)

def peek (toks : List Char) : ParseM Bool := do
  let s := skip (← get)
  set s
  return (s.head?.any (strchr toks))

/-! ## The parser -/

/-- The `switch` of `parseredirs`. -/
def redircmd (tok : Char) (cmd : Cmd Span) (file : Span) : Cmd Span :=
  if tok = '<' then .redir cmd file O_RDONLY 0
  else if tok = '>' then .redir cmd file (O_WRONLY ||| O_CREATE ||| O_TRUNC) 1
  else if tok = '+' then .redir cmd file (O_WRONLY ||| O_CREATE) 1
  else cmd

/-- The loop of `parseredirs`. -/
def parseredirs (es : ℕ) : ℕ → Cmd Span → ParseM (Cmd Span)
  | 0, _ => throw .outOfFuel
  | n + 1, cmd => do
    if ← peek ['<', '>'] then
      let (tok, _) ← gettoken es
      let (ret, file) ← gettoken es
      if ret ≠ 'a' then throw .missingFile
      parseredirs es n (redircmd tok cmd file)
    else return cmd

/-- The loop of `parseline` over `&`. -/
def parseback (es : ℕ) : ℕ → Cmd Span → ParseM (Cmd Span)
  | 0, _ => throw .outOfFuel
  | n + 1, cmd => do
    if ← peek ['&'] then
      let _ ← gettoken es
      parseback es n (.back cmd)
    else return cmd

/-- The loop of `parseexec`. -/
def parseargs (es : ℕ) : ℕ → ℕ → Cmd Span → ParseM (Cmd Span)
  | 0, _, _ => throw .outOfFuel
  | n + 1, argc, ret => do
    if ← peek ['|', ')', '&', ';'] then return ret
    else
      let (tok, arg) ← gettoken es
      if tok = '\x00' then return ret
      if tok ≠ 'a' then throw .unexpected
      let ret := ret.addArg arg
      if argc + 1 ≥ MAXARGS then throw .tooManyArgs
      let ret ← parseredirs es (es + 1) ret
      parseargs es n (argc + 1) ret

mutual

def parseline (es : ℕ) : ℕ → ParseM (Cmd Span)
  | 0 => throw .outOfFuel
  | n + 1 => do
    let cmd ← parsepipe es n
    let cmd ← parseback es (es + 1) cmd
    if ← peek [';'] then
      let _ ← gettoken es
      let right ← parseline es n
      return .list cmd right
    else return cmd

def parsepipe (es : ℕ) : ℕ → ParseM (Cmd Span)
  | 0 => throw .outOfFuel
  | n + 1 => do
    let cmd ← parseexec es n
    if ← peek ['|'] then
      let _ ← gettoken es
      let right ← parsepipe es n
      return .pipe cmd right
    else return cmd

def parseexec (es : ℕ) : ℕ → ParseM (Cmd Span)
  | 0 => throw .outOfFuel
  | n + 1 => do
    if ← peek ['('] then parseblock es n
    else
      let ret ← parseredirs es (es + 1) (.exec [])
      parseargs es (es + 1) 0 ret

def parseblock (es : ℕ) : ℕ → ParseM (Cmd Span)
  | 0 => throw .outOfFuel
  | n + 1 => do
    if !(← peek ['(']) then throw .parseblock
    let _ ← gettoken es
    let cmd ← parseline es n
    if !(← peek [')']) then throw .missingParen
    let _ ← gettoken es
    parseredirs es (es + 1) cmd

end

/-- `nulterminate` puts a 0 at the end of every string. -/
def nulterminate : Cmd Span → Text → Text
  | .exec argv, buf => argv.foldl (fun buf arg => buf.set arg.eq '\x00') buf
  | .redir cmd file _ _, buf => (nulterminate cmd buf).set file.eq '\x00'
  | .pipe left right, buf => nulterminate right (nulterminate left buf)
  | .list left right, buf => nulterminate right (nulterminate left buf)
  | .back cmd, buf => nulterminate cmd buf

/-- `parsecmd` of the string `s`; returns the tree and the buffer. -/
def parsecmd (s : Text) : Except Panic (Cmd Span × Text) := do
  let es := s.length
  let (cmd, rest) ← parseline es (4 * es + 4) s
  let (_, rest) ← peek [] rest
  if rest ≠ [] then throw (.leftovers rest)
  return (cmd, nulterminate cmd (s ++ ['\x00']))

/-- The string that a pointer into the buffer is. -/
def string (buf : Text) (s : Span) : Text :=
  (buf.drop s.q).takeWhile (· ≠ '\x00')

/-! ## runcmd -/

/-- A descriptor : a number, or an end of the pipe that the process has made last. -/
inductive Fd
  | num (n : ℕ)
  | p0
  | p1
deriving DecidableEq, Repr

/-- The calls of a process, and what it does for each of their results. -/
inductive Prog
  | exit (status : ℕ)
  /-- `exec` comes back when it fails. -/
  | exec (path : Text) (argv : List Text) (failed : Prog)
  /-- `fprintf(2, ...)` -/
  | message (text : List Char) (next : Prog)
  | close (fd : Fd) (next : Prog)
  | dup (fd : Fd) (next : Prog)
  | open_ (file : Text) (mode : ℕ) (failed next : Prog)
  | pipe (failed next : Prog)
  | fork (failed child parent : Prog)
  | wait (next : Prog)

def panic (s : String) : Prog :=
  .message (s.toList ++ ['\n']) (.exit 1)

def fork1 (child parent : Prog) : Prog :=
  .fork (panic "fork") child parent

def runcmd : Cmd Text → Prog
  | .exec [] => .exit 1
  | .exec (path :: argv) =>
    .exec path (path :: argv) (.message ("exec ".toList ++ path ++ " failed\n".toList) (.exit 0))
  | .redir cmd file mode fd =>
    .close (.num fd) (.open_ file mode (.message ("open ".toList ++ file ++ " failed\n".toList) (.exit 1)) (runcmd cmd))
  | .list left right => fork1 (runcmd left) (.wait (runcmd right))
  | .pipe left right =>
    .pipe (panic "pipe") <|
      fork1 (.close (.num 1) <| .dup .p1 <| .close .p0 <| .close .p1 <| runcmd left) <|
      fork1 (.close (.num 0) <| .dup .p0 <| .close .p0 <| .close .p1 <| runcmd right) <|
      .close .p0 <| .close .p1 <| .wait <| .wait <| .exit 0
  | .back cmd => fork1 (runcmd cmd) (.exit 0)

end Sh

end Xv6
