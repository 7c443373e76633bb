import Xv6.Lib.Outcome

namespace Xv6.User

open Lib

abbrev Byte := BitVec 8

def whitespace : List Byte := [32, 9, 13, 10, 11]

/-- The characters < | > & ; ( and ). -/
def symbols : List Byte := [60, 124, 62, 38, 59, 40, 41]

/-- A character of a word. -/
def plain (b : Byte) : Bool := !whitespace.contains b && !symbols.contains b

/-- A word of the input: where it begins, and where it ends. -/
structure Word where
  q : Nat
  eq : Nat
deriving DecidableEq, Repr

structure Redir where
  file : Word
  mode : Nat
  fd : Nat
deriving DecidableEq, Repr

inductive Cmd where
  | exec (argv : List Word)
  | redir (cmd : Cmd) (r : Redir)
  | pipe (left right : Cmd)
  | list (left right : Cmd)
  | back (cmd : Cmd)
deriving DecidableEq, Repr

def MAXARGS : Nat := 10

/-- The calls of panic(). -/
inductive ShPanic where
  | leftovers
  | missingFile
  | parseblock
  | missingParen
  | badToken
  | tooManyArgs
deriving DecidableEq, Repr

/-- How the parser ends without a command: in panic(), with a store outside of an array, or, in
the model only, when it has run for too long. -/
inductive Halt where
  | panic (p : ShPanic)
  | bounds
  | hang
deriving DecidableEq, Repr

/-- A position in the input and the characters from there to its end, which stands for *ps. -/
structure Cursor where
  pos : Nat
  rest : List Byte

abbrev Sh := Prog Cursor Halt

def Cursor.skip (c : Cursor) : Cursor :=
  ⟨c.pos + (c.rest.takeWhile whitespace.contains).length, c.rest.dropWhile whitespace.contains⟩

/-- The switch of gettoken(): what it returns, and the end of the token. -/
def token (c : Cursor) : Byte × Cursor :=
  match c.rest with
  | [] => (0, c)
  | b :: rest =>
    if b = 0 then (0, c)
    else if b = 124 ∨ b = 40 ∨ b = 41 ∨ b = 59 ∨ b = 38 ∨ b = 60 then (b, ⟨c.pos + 1, rest⟩)
    else if b = 62 then
      if rest.head? = some 62 then (43, ⟨c.pos + 2, rest.tail⟩) else (62, ⟨c.pos + 1, rest⟩)
    else (97, ⟨c.pos + ((b :: rest).takeWhile plain).length, (b :: rest).dropWhile plain⟩)

def gettoken : Sh (Byte × Word) := do
  let c ← get
  let s := c.skip
  let (ret, e) := token s
  set e.skip
  return (ret, ⟨s.pos, e.pos⟩)

def peek (toks : List Byte) : Sh Bool := do
  let c ← get
  set c.skip
  match c.skip.rest with
  | [] => return false
  | b :: _ => return b != 0 && toks.contains b

/-- The switch of parseredirs(). -/
def redircmd (tok : Byte) (file : Word) : Option Redir :=
  if tok = 60 then some ⟨file, 0x000, 0⟩
  else if tok = 62 then some ⟨file, 0x601, 1⟩
  else if tok = 43 then some ⟨file, 0x201, 1⟩
  else none

/-- The redirections that parseredirs() puts around its command, the innermost first. -/
def parseredirs : Nat → Sh (List Redir)
  | 0 => throw .hang
  | fuel + 1 => do
    let more ← peek [60, 62]
    if more then do
      let (tok, _) ← gettoken
      let (a, w) ← gettoken
      if a = 97 then do
        let rs ← parseredirs fuel
        return (redircmd tok w).toList ++ rs
      else throw (.panic .missingFile)
    else return []

def wrap (cmd : Cmd) (rs : List Redir) : Cmd := rs.foldl .redir cmd

/-- argv[argc] = w, where argv has room for MAXARGS words. -/
def store (argv : List Word) (w : List Word) : Sh (List Word) :=
  if argv.length < MAXARGS then return argv ++ w else throw .bounds

/-- The loop of parseexec(), with the redirections it puts around the command. -/
def parseargs : Nat → List Word → Sh (List Word × List Redir)
  | 0, _ => throw .hang
  | fuel + 1, argv => do
    let stop ← peek [124, 41, 38, 59]
    if stop then do
      let argv ← store argv []
      return (argv, [])
    else do
      let (tok, w) ← gettoken
      if tok = 0 then do
        let argv ← store argv []
        return (argv, [])
      else if tok = 97 then do
        let argv ← store argv [w]
        if argv.length ≥ MAXARGS then throw (.panic .tooManyArgs)
        else do
          let rs ← parseredirs fuel
          let (argv, rs') ← parseargs fuel argv
          return (argv, rs ++ rs')
      else throw (.panic .badToken)

/-- The loop of parseline() over &. -/
def parseback : Nat → Cmd → Sh Cmd
  | 0, _ => throw .hang
  | fuel + 1, cmd => do
    let more ← peek [38]
    if more then do
      let _ ← gettoken
      parseback fuel (.back cmd)
    else return cmd

mutual

def parseline : Nat → Sh Cmd
  | 0 => throw .hang
  | fuel + 1 => do
    let cmd ← parsepipe fuel
    let cmd ← parseback fuel cmd
    let more ← peek [59]
    if more then do
      let _ ← gettoken
      let right ← parseline fuel
      return .list cmd right
    else return cmd

def parsepipe : Nat → Sh Cmd
  | 0 => throw .hang
  | fuel + 1 => do
    let cmd ← parseexec fuel
    let more ← peek [124]
    if more then do
      let _ ← gettoken
      let right ← parsepipe fuel
      return .pipe cmd right
    else return cmd

def parseblock : Nat → Sh Cmd
  | 0 => throw .hang
  | fuel + 1 => do
    let opens ← peek [40]
    if opens then do
      let _ ← gettoken
      let cmd ← parseline fuel
      let closes ← peek [41]
      if closes then do
        let _ ← gettoken
        let rs ← parseredirs fuel
        return wrap cmd rs
      else throw (.panic .missingParen)
    else throw (.panic .parseblock)

def parseexec : Nat → Sh Cmd
  | 0 => throw .hang
  | fuel + 1 => do
    let block ← peek [40]
    if block then parseblock fuel
    else do
      let rs ← parseredirs fuel
      let (argv, rs') ← parseargs fuel []
      return wrap (.exec argv) (rs ++ rs')

end

/-- The bytes of the input after nulterminate(). -/
def nulterminate : Cmd → List Byte → List Byte
  | .exec argv, s => argv.foldl (fun s w => s.set w.eq 0) s
  | .redir cmd r, s => (nulterminate cmd s).set r.file.eq 0
  | .pipe left right, s => nulterminate right (nulterminate left s)
  | .list left right, s => nulterminate right (nulterminate left s)
  | .back cmd, s => nulterminate cmd s

/-- The part of parsecmd() before nulterminate(). -/
def parsetree (fuel : Nat) : Sh Cmd := do
  let cmd ← parseline fuel
  let _ ← peek []
  let c ← get
  if c.rest.isEmpty then return cmd else throw (.panic .leftovers)

/-- parsecmd() on a string: the command, and the string with the NUL behind it afterwards. -/
def parsecmd (s : List Byte) : Except Halt (Cmd × List Byte) :=
  match (parsetree (4 * s.length + 8)).run ⟨0, s⟩ with
  | .ok (cmd, _) => .ok (cmd, nulterminate cmd (s ++ [0]))
  | .error e => .error e

end Xv6.User
