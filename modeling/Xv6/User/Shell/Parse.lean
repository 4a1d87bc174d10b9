import Xv6.User.Shell.Token

/-!
# The parser of the shell

The functions of the parser, each with a number of rounds or calls it may still make; `parsecmd`
gives them more than they need. The pointer to an `exec` node under its redirections, through which
`parseexec` stores arguments, is `Cmd.addArg`.
-/

namespace Xv6.Sh

open Lib

abbrev MAXARGS : Nat := 10
abbrev O_RDONLY : Nat := 0x000
abbrev O_WRONLY : Nat := 0x001
abbrev O_CREATE : Nat := 0x200

inductive Cmd where
  /-- `argv` and `eargv`, up to the null pointer. -/
  | exec (args : List (Nat × Nat))
  | redir (cmd : Cmd) (file efile mode fd : Nat)
  | pipe (left right : Cmd)
  | list (left right : Cmd)
  | back (cmd : Cmd)
  deriving DecidableEq, Repr

/-- The next argument of the `exec` node under some redirections. -/
def Cmd.addArg (q eq : Nat) : Cmd → Cmd
  | .exec args => .exec (args ++ [(q, eq)])
  | .redir cmd file efile mode fd => .redir (cmd.addArg q eq) file efile mode fd
  | cmd => cmd

/-- More rounds were needed than there are. -/
def outOfFuel : String := "fuel"

/-- The switch of `parseredirs`. -/
def redircmd (tok : BitVec 8) (cmd : Cmd) (q eq : Nat) : Cmd :=
  if tok = lt then .redir cmd q eq O_RDONLY 0
  else if tok = gt then .redir cmd q eq (O_WRONLY ||| O_CREATE) 1
  else if tok = plus then .redir cmd q eq (O_WRONLY ||| O_CREATE) 1
  else cmd

section

variable (l : Line)

def parseredirs : Nat → Cmd → P Cmd
  | 0, _ => throw outOfFuel
  | k + 1, cmd => do
    if ← peek l [lt, gt] then
      let (tok, _, _) ← gettoken l
      let (tok', q, eq) ← gettoken l
      if tok' ≠ word then throw "missing file for redirection"
      else parseredirs k (redircmd tok cmd q eq)
    else return cmd

/-- The loop of `parseexec`. -/
def argLoop : Nat → Nat → Cmd → P Cmd
  | 0, _, _ => throw outOfFuel
  | k + 1, argc, ret => do
    if ← peek l [bar, rpar, amp, semi] then return ret
    else
      let (tok, q, eq) ← gettoken l
      if tok = 0 then return ret
      else if tok ≠ word then throw "syntax"
      else
        let ret := ret.addArg q eq
        let argc := argc + 1
        if MAXARGS ≤ argc then throw "too many args"
        else
          let ret ← parseredirs l (l.es + 1) ret
          argLoop k argc ret

/-- The loop of `parseline`. -/
def backLoop : Nat → Cmd → P Cmd
  | 0, _ => throw outOfFuel
  | k + 1, cmd => do
    if ← peek l [amp] then
      let _ ← gettoken l
      backLoop k (.back cmd)
    else return cmd

mutual

def parseline : Nat → P Cmd
  | 0 => throw outOfFuel
  | f + 1 => do
    let cmd ← parsepipe f
    let cmd ← backLoop l (l.es + 1) cmd
    if ← peek l [semi] then
      let _ ← gettoken l
      let right ← parseline f
      return .list cmd right
    else return cmd

def parsepipe : Nat → P Cmd
  | 0 => throw outOfFuel
  | f + 1 => do
    let cmd ← parseexec f
    if ← peek l [bar] then
      let _ ← gettoken l
      let right ← parsepipe f
      return .pipe cmd right
    else return cmd

def parseexec : Nat → P Cmd
  | 0 => throw outOfFuel
  | f + 1 => do
    if ← peek l [lpar] then parseblock f
    else
      let ret ← parseredirs l (l.es + 1) (.exec [])
      argLoop l (l.es + 1) 0 ret

def parseblock : Nat → P Cmd
  | 0 => throw outOfFuel
  | f + 1 => do
    if ← peek l [lpar] then
      let _ ← gettoken l
      let cmd ← parseline f
      if ← peek l [rpar] then
        let _ ← gettoken l
        parseredirs l (l.es + 1) cmd
      else throw "syntax - missing )"
    else throw "parseblock"

end

/-- `parsecmd` up to the call of `nulterminate`. -/
def parseAll : P Cmd := do
  let cmd ← parseline l (4 * l.es + 3)
  let _ ← peek l []
  let s ← get
  if s ≠ l.es then throw "syntax" else return cmd

end

/-- Writes a NUL after every argument and every file name. -/
def nulterminate : Cmd → (Nat → BitVec 8) → Nat → BitVec 8
  | .exec args, m => args.foldl (fun m arg => Function.update m arg.2 0) m
  | .redir cmd _ efile _ _, m => Function.update (nulterminate cmd m) efile 0
  | .pipe left right, m => nulterminate right (nulterminate left m)
  | .list left right, m => nulterminate right (nulterminate left m)
  | .back cmd, m => nulterminate cmd m

/-- The command, and the memory `m` with the line in it afterwards. -/
def parsecmd (l : Line) (m : Nat → BitVec 8) : Except String (Cmd × (Nat → BitVec 8)) := do
  let (cmd, _) ← parseAll l 0
  return (cmd, nulterminate cmd m)

end Xv6.Sh
