import Mathlib.Data.List.Basic
import Mathlib.Data.Nat.Notation

/-!
The command parser of `user/sh.c`. A pointer into the line is its offset; the functions that
move `*ps` return the offset they leave there. The loops and the recursion are bounded by a
fuel that only the parser's own theorems mention.
-/
namespace Xv6.Sh

/-- A command line: the bytes before the terminating NUL. -/
structure Line where
  bytes : List UInt8
  nonzero : 0 ∉ bytes

abbrev maxargs : ℕ := 10

def byte (c : Char) : UInt8 := UInt8.ofNat c.toNat

def whitespace : List UInt8 := [' ', '\t', '\r', '\n', '\x0b'].map byte

def symbols : List UInt8 := ['<', '|', '>', '&', ';', '(', ')'].map byte

abbrev oRdonly : ℕ := 0x000
abbrev oWronly : ℕ := 0x001
abbrev oCreate : ℕ := 0x200
abbrev oTrunc : ℕ := 0x400

/-- `struct cmd`; `α` is what stands for a word. -/
inductive Cmd (α : Type) where
  | exec (argv : List α)
  | redir (cmd : Cmd α) (file : α) (mode fd : ℕ)
  | pipe (left right : Cmd α)
  | list (left right : Cmd α)
  | back (cmd : Cmd α)
  deriving DecidableEq, Repr

def Cmd.map {α β : Type} (f : α → β) : Cmd α → Cmd β
  | .exec argv => .exec (argv.map f)
  | .redir cmd file mode fd => .redir (cmd.map f) (f file) mode fd
  | .pipe left right => .pipe (left.map f) (right.map f)
  | .list left right => .list (left.map f) (right.map f)
  | .back cmd => .back (cmd.map f)

/-- The words of a command, in order. -/
def Cmd.words {α : Type} : Cmd α → List α
  | .exec argv => argv
  | .redir cmd file _ _ => cmd.words ++ [file]
  | .pipe left right => left.words ++ right.words
  | .list left right => left.words ++ right.words
  | .back cmd => cmd.words

/-- `cmd->argv[argc] = q; cmd->eargv[argc] = eq;` through the pointer `parseexec` keeps to the
`execcmd` inside the redirections around it. -/
def Cmd.addArg {α : Type} (w : α) : Cmd α → Cmd α
  | .exec argv => .exec (argv ++ [w])
  | .redir cmd file mode fd => .redir (cmd.addArg w) file mode fd
  | cmd => cmd

/-- Where the parser gives up. -/
inductive ParseError where
  | leftovers
  | missingFile
  | notBlock
  | missingParen
  | unexpected
  | tooManyArgs
  deriving DecidableEq, Repr

/-- The argument of `panic`. -/
def ParseError.text : ParseError → String
  | .leftovers => "syntax"
  | .missingFile => "missing file for redirection"
  | .notBlock => "parseblock"
  | .missingParen => "syntax - missing )"
  | .unexpected => "syntax"
  | .tooManyArgs => "too many args"

inductive Stop where
  | outOfFuel
  | panic (e : ParseError)
  deriving DecidableEq, Repr

/-- A word by its `q` and `eq`. -/
abbrev Span := ℕ × ℕ

/-- What `gettoken` returns and stores. -/
structure Token where
  ret : UInt8
  q : ℕ
  eq : ℕ
  ps : ℕ

namespace Line
variable (line : Line)

/-- `es`, where the NUL stands. -/
def es : ℕ := line.bytes.length

/-- `*s` -/
def deref (s : ℕ) : UInt8 := line.bytes.getD s 0

/-- At most `k` turns of a loop that advances over the bytes that satisfy `p`. -/
def scan (p : UInt8 → Bool) : ℕ → ℕ → ℕ
  | 0, s => s
  | k + 1, s => if p (line.deref s) then scan p k (s + 1) else s

/-- `while(s < es && p(*s)) s++;` -/
def skip (p : UInt8 → Bool) (s : ℕ) : ℕ := line.scan p (line.es - s) s

def isSpace (c : UInt8) : Bool := c ∈ whitespace

/-- Neither whitespace nor a symbol. -/
def isWord (c : UInt8) : Bool := c ∉ whitespace ∧ c ∉ symbols

/-- The `switch` of `gettoken`, on the byte at `q`: the token and its end. -/
def lex (q : ℕ) : UInt8 × ℕ :=
  let c := line.deref q
  if c = 0 then (0, q)
  else if c ∈ ['|', '(', ')', ';', '&', '<'].map byte then (c, q + 1)
  else if c = byte '>' then
    if line.deref (q + 1) = byte '>' then (byte '+', q + 2) else (c, q + 1)
  else (byte 'a', line.skip isWord q)

def gettoken (ps : ℕ) : Token :=
  let q := line.skip isSpace ps
  let t := line.lex q
  ⟨t.1, q, t.2, line.skip isSpace t.2⟩

/-- `peek`: whether the next byte is among `toks`, and the new `*ps`. -/
def peek (ps : ℕ) (toks : List Char) : Bool × ℕ :=
  let s := line.skip isSpace ps
  (line.deref s ≠ 0 ∧ line.deref s ∈ toks.map byte, s)

/-- The `switch` of `parseredirs`. -/
def redircmd (cmd : Cmd Span) (tok : UInt8) (file : Span) : Cmd Span :=
  if tok = byte '<' then .redir cmd file oRdonly 0
  else if tok = byte '>' then .redir cmd file (oWronly ||| oCreate ||| oTrunc) 1
  else if tok = byte '+' then .redir cmd file (oWronly ||| oCreate) 1
  else cmd

def parseredirs : ℕ → Cmd Span → ℕ → Except Stop (Cmd Span × ℕ)
  | 0, _, _ => .error .outOfFuel
  | k + 1, cmd, ps =>
    let next := line.peek ps ['<', '>']
    if next.1 then
      let tok := line.gettoken next.2
      let file := line.gettoken tok.ps
      if file.ret ≠ byte 'a' then .error (.panic .missingFile)
      else parseredirs k (redircmd cmd tok.ret (file.q, file.eq)) file.ps
    else .ok (cmd, next.2)

/-- The loop of `parseexec`, with `argc` words so far. -/
def parseargs : ℕ → Cmd Span → ℕ → ℕ → Except Stop (Cmd Span × ℕ)
  | 0, _, _, _ => .error .outOfFuel
  | k + 1, ret, argc, ps =>
    let next := line.peek ps ['|', ')', '&', ';']
    if next.1 then .ok (ret, next.2)
    else
      let tok := line.gettoken next.2
      if tok.ret = 0 then .ok (ret, tok.ps)
      else if tok.ret ≠ byte 'a' then .error (.panic .unexpected)
      else if argc + 1 ≥ maxargs then .error (.panic .tooManyArgs)
      else do
        let (ret, ps) ← line.parseredirs k (ret.addArg (tok.q, tok.eq)) tok.ps
        parseargs k ret (argc + 1) ps

/-- The `&` loop of `parseline`. -/
def parsebacks : ℕ → Cmd Span → ℕ → Except Stop (Cmd Span × ℕ)
  | 0, _, _ => .error .outOfFuel
  | k + 1, cmd, ps =>
    let next := line.peek ps ['&']
    if next.1 then parsebacks k (.back cmd) (line.gettoken next.2).ps
    else .ok (cmd, next.2)

mutual

def parseline : ℕ → ℕ → Except Stop (Cmd Span × ℕ)
  | 0, _ => .error .outOfFuel
  | k + 1, ps => do
    let (cmd, ps) ← parsepipe k ps
    let (cmd, ps) ← line.parsebacks k cmd ps
    let next := line.peek ps [';']
    if next.1 then
      let (right, ps) ← parseline k (line.gettoken next.2).ps
      return (.list cmd right, ps)
    else return (cmd, next.2)

def parsepipe : ℕ → ℕ → Except Stop (Cmd Span × ℕ)
  | 0, _ => .error .outOfFuel
  | k + 1, ps => do
    let (cmd, ps) ← parseexec k ps
    let next := line.peek ps ['|']
    if next.1 then
      let (right, ps) ← parsepipe k (line.gettoken next.2).ps
      return (.pipe cmd right, ps)
    else return (cmd, next.2)

def parseexec : ℕ → ℕ → Except Stop (Cmd Span × ℕ)
  | 0, _ => .error .outOfFuel
  | k + 1, ps =>
    let next := line.peek ps ['(']
    if next.1 then parseblock k next.2
    else do
      let (ret, ps) ← line.parseredirs k (.exec []) next.2
      line.parseargs k ret 0 ps

def parseblock : ℕ → ℕ → Except Stop (Cmd Span × ℕ)
  | 0, _ => .error .outOfFuel
  | k + 1, ps =>
    let next := line.peek ps ['(']
    if !next.1 then .error (.panic .notBlock)
    else do
      let (cmd, ps) ← parseline k (line.gettoken next.2).ps
      let next := line.peek ps [')']
      if !next.1 then .error (.panic .missingParen)
      else line.parseredirs k cmd (line.gettoken next.2).ps

end

/-- `nulterminate`: a NUL at the end of every word. -/
def nulterminate : Cmd Span → (ℕ → UInt8) → ℕ → UInt8
  | .exec argv, buf => argv.foldl (fun buf w => Function.update buf w.2 0) buf
  | .redir cmd file _ _, buf => Function.update (nulterminate cmd buf) file.2 0
  | .pipe left right, buf => nulterminate right (nulterminate left buf)
  | .list left right, buf => nulterminate right (nulterminate left buf)
  | .back cmd, buf => nulterminate cmd buf

/-- `parsecmd`: the command, and the buffer as `nulterminate` leaves it. -/
def parsecmd (k : ℕ) : Except Stop (Cmd Span × (ℕ → UInt8)) := do
  let (cmd, ps) ← line.parseline k 0
  if (line.peek ps []).2 ≠ line.es then .error (.panic .leftovers)
  else return (cmd, nulterminate cmd line.deref)

end Line

/-- The C string at `q`, of at most `k` bytes. -/
def cstring (buf : ℕ → UInt8) : ℕ → ℕ → List UInt8
  | 0, _ => []
  | k + 1, q => if buf q = 0 then [] else buf q :: cstring buf k (q + 1)

end Xv6.Sh
