import Xv6.Lib.Run
import Xv6.Log.Redo

namespace Xv6.Log

/-- panic("too big a transaction") and panic("log_write outside of trans") in log_write(),
panic("log.committing") in end_op(). -/
inductive Panic where
  | tooBig
  | outsideTrans
  | committing
  deriving DecidableEq, Repr

/-- The fields of struct log that system calls share. The list holds the first lh.n
entries of lh.block. -/
structure LogState where
  size : Nat
  outstanding : Int
  committing : Bool
  block : List Word

/-- The second test of begin_op: one more operation might exhaust the log. -/
def LogState.Tight (l : LogState) : Prop :=
  (l.block.length : Int) + (l.outstanding + 1) * MAXOPBLOCKS > LOGSIZE

instance (l : LogState) : Decidable l.Tight := inferInstanceAs (Decidable (_ > _))

/-- One turn of the loop of begin_op; none means that the caller sleeps. -/
def beginOp (l : LogState) : Option LogState :=
  if l.committing then none
  else if l.Tight then none
  else some { l with outstanding := l.outstanding + 1 }

def logWrite (l : LogState) (b : Word) : Except Panic LogState :=
  if l.block.length ≥ LOGSIZE ∨ (l.block.length : Int) ≥ (l.size : Int) - 1 then
    .error .tooBig
  else if l.outstanding < 1 then .error .outsideTrans
  else .ok { l with block := absorb l.block b }

/-- The first locked section of end_op, with do_commit. -/
def endOp (l : LogState) : Except Panic (LogState × Bool) :=
  let l := { l with outstanding := l.outstanding - 1 }
  if l.committing then .error .committing
  else if l.outstanding = 0 then .ok ({ l with committing := true }, true)
  else .ok (l, false)

/-- Where a process stands. Inside an operation it remembers how many commits had run
when it began and which blocks it has logged; the code keeps neither. -/
inductive Pc where
  | idle
  | asleep
  | woken
  | inOp (began : Nat) (blocks : List Word)
  | committing
  | committed
  deriving DecidableEq

/-- The system. The last three fields are history: the blocks each commit wrote, the
operations that ended, and the arguments of log_write since the last commit. -/
structure Sys where
  log : LogState
  pc : Nat → Pc
  panic : Option Panic
  commits : List (List Word)
  finished : List (Nat × List Word)
  logged : List Word

def init (size : Nat) : Sys where
  log := ⟨size, 0, false, []⟩
  pc := fun _ => .idle
  panic := none
  commits := []
  finished := []
  logged := []

inductive Act where
  | beginOp (p : Nat)
  | logWrite (p : Nat) (b : Word)
  | endOp (p : Nat)
  | commit (p : Nat)
  | endCommit (p : Nat)
  | kill (p : Nat)
  deriving DecidableEq

/-- wakeup(&log). -/
def wakeup (pc : Nat → Pc) : Nat → Pc := fun q => if pc q = .asleep then .woken else pc q

def Sys.goto (s : Sys) (p : Nat) (c : Pc) : Sys := { s with pc := Function.update s.pc p c }

def stepBeginOp (s : Sys) (p : Nat) : Option Sys :=
  match s.pc p with
  | .idle | .woken =>
    match beginOp s.log with
    | some l => some ({ s with log := l }.goto p (.inOp s.commits.length []))
    | none => some (s.goto p .asleep)
  | _ => none

def stepLogWrite (s : Sys) (p : Nat) (b : Word) : Option Sys :=
  match s.pc p with
  | .inOp e bs =>
    match logWrite s.log b with
    | .ok l => some ({ s with log := l, logged := s.logged ++ [b] }.goto p (.inOp e (bs ++ [b])))
    | .error w => some { s with panic := some w }
  | _ => none

def stepEndOp (s : Sys) (p : Nat) : Option Sys :=
  match s.pc p with
  | .inOp e bs =>
    match endOp s.log with
    | .ok (l, true) =>
      some ({ s with log := l, finished := s.finished ++ [(e, bs)] }.goto p .committing)
    | .ok (l, false) =>
      let s := { s with log := l, finished := s.finished ++ [(e, bs)] }.goto p .idle
      some { s with pc := wakeup s.pc }
    | .error w => some { s with panic := some w }
  | _ => none

/-- commit() runs without the lock: it writes the blocks of lh and sets lh.n to 0. -/
def stepCommit (s : Sys) (p : Nat) : Option Sys :=
  match s.pc p with
  | .committing =>
    some ({ s with
      log := { s.log with block := [] }
      commits := s.commits ++ [s.log.block]
      logged := [] }.goto p .committed)
  | _ => none

/-- The second locked section of end_op. -/
def stepEndCommit (s : Sys) (p : Nat) : Option Sys :=
  match s.pc p with
  | .committed =>
    let s := { s with log := { s.log with committing := false } }.goto p .idle
    some { s with pc := wakeup s.pc }
  | _ => none

/-- A kill takes a sleeper out of begin_op's sleep without any wakeup of the log. -/
def stepKill (s : Sys) (p : Nat) : Option Sys :=
  match s.pc p with
  | .asleep => some (s.goto p .woken)
  | _ => none

def step (s : Sys) (a : Act) : Option Sys :=
  if s.panic.isSome then none else
  match a with
  | .beginOp p => stepBeginOp s p
  | .logWrite p b => stepLogWrite s p b
  | .endOp p => stepEndOp s p
  | .commit p => stepCommit s p
  | .endCommit p => stepEndCommit s p
  | .kill p => stepKill s p

/-- Everything one step can do. -/
inductive Moves (s : Sys) : Act → Sys → Prop where
  | began (p : Nat) (hpc : s.pc p = .idle ∨ s.pc p = .woken)
      (hfree : s.log.committing = false) (hroom : ¬ s.log.Tight) :
      Moves s (.beginOp p)
        ({ s with log := { s.log with outstanding := s.log.outstanding + 1 } }.goto p
          (.inOp s.commits.length []))
  | slept (p : Nat) (hpc : s.pc p = .idle ∨ s.pc p = .woken)
      (hwait : s.log.committing = true ∨ s.log.Tight) :
      Moves s (.beginOp p) (s.goto p .asleep)
  | logged (p : Nat) (b : Word) (e : Nat) (bs : List Word) (hpc : s.pc p = .inOp e bs)
      (hcap : s.log.block.length < LOGSIZE ∧ (s.log.block.length : Int) < (s.log.size : Int) - 1) :
      Moves s (.logWrite p b)
        ({ s with
            log := { s.log with block := absorb s.log.block b }
            logged := s.logged ++ [b] }.goto p (.inOp e (bs ++ [b])))
  | tooBig (p : Nat) (b : Word) (e : Nat) (bs : List Word) (hpc : s.pc p = .inOp e bs)
      (hcap : s.log.block.length ≥ LOGSIZE ∨ (s.log.block.length : Int) ≥ (s.log.size : Int) - 1) :
      Moves s (.logWrite p b) { s with panic := some .tooBig }
  | outside (p : Nat) (b : Word) (e : Nat) (bs : List Word) (hpc : s.pc p = .inOp e bs)
      (hcap : s.log.block.length < LOGSIZE ∧ (s.log.block.length : Int) < (s.log.size : Int) - 1)
      (hout : s.log.outstanding < 1) :
      Moves s (.logWrite p b) { s with panic := some .outsideTrans }
  | last (p : Nat) (e : Nat) (bs : List Word) (hpc : s.pc p = .inOp e bs)
      (hfree : s.log.committing = false) (hone : s.log.outstanding = 1) :
      Moves s (.endOp p)
        ({ s with
            log := { s.log with outstanding := 0, committing := true }
            finished := s.finished ++ [(e, bs)] }.goto p .committing)
  | ended (p : Nat) (e : Nat) (bs : List Word) (hpc : s.pc p = .inOp e bs)
      (hfree : s.log.committing = false) (hmore : s.log.outstanding ≠ 1) :
      Moves s (.endOp p)
        { s with
          log := { s.log with outstanding := s.log.outstanding - 1 }
          finished := s.finished ++ [(e, bs)]
          pc := wakeup (Function.update s.pc p .idle) }
  | busy (p : Nat) (e : Nat) (bs : List Word) (hpc : s.pc p = .inOp e bs)
      (hbusy : s.log.committing = true) :
      Moves s (.endOp p) { s with panic := some .committing }
  | committed (p : Nat) (hpc : s.pc p = .committing) :
      Moves s (.commit p)
        ({ s with
            log := { s.log with block := [] }
            commits := s.commits ++ [s.log.block]
            logged := [] }.goto p .committed)
  | reopened (p : Nat) (hpc : s.pc p = .committed) :
      Moves s (.endCommit p)
        { s with
          log := { s.log with committing := false }
          pc := wakeup (Function.update s.pc p .idle) }
  | killed (p : Nat) (hpc : s.pc p = .asleep) : Moves s (.kill p) (s.goto p .woken)

theorem stepBeginOp_moves (h : stepBeginOp s p = some t) : Moves s (.beginOp p) t := by
  have hbegin : ∀ (hpc : s.pc p = .idle ∨ s.pc p = .woken),
      (match beginOp s.log with
        | some l => some ({ s with log := l }.goto p (.inOp s.commits.length []))
        | none => some (s.goto p .asleep)) = some t → Moves s (.beginOp p) t := by
    intro hpc hb
    unfold beginOp at hb
    split_ifs at hb with hc ht
    · cases hb
      exact .slept p hpc (Or.inl hc)
    · cases hb
      exact .slept p hpc (Or.inr ht)
    · cases hb
      exact .began p hpc (by simpa using hc) ht
  unfold stepBeginOp at h
  cases hpc : s.pc p with
  | idle => exact hbegin (Or.inl hpc) (by simpa [hpc] using h)
  | woken => exact hbegin (Or.inr hpc) (by simpa [hpc] using h)
  | asleep => simp [hpc] at h
  | inOp e bs => simp [hpc] at h
  | committing => simp [hpc] at h
  | committed => simp [hpc] at h

theorem stepLogWrite_moves (h : stepLogWrite s p b = some t) : Moves s (.logWrite p b) t := by
  unfold stepLogWrite at h
  split at h
  · rename_i e bs hpc
    unfold logWrite at h
    split_ifs at h with hcap hout
    · cases h
      exact .tooBig p b e bs hpc hcap
    · cases h
      exact .outside p b e bs hpc (by omega) hout
    · cases h
      exact .logged p b e bs hpc (by omega)
  · simp at h

theorem stepEndOp_moves (h : stepEndOp s p = some t) : Moves s (.endOp p) t := by
  unfold stepEndOp at h
  split at h
  · rename_i e bs hpc
    simp only [endOp] at h
    split_ifs at h with hbusy hzero
    · cases h
      exact .busy p e bs hpc hbusy
    · cases h
      rw [hzero]
      exact .last p e bs hpc (by simpa using hbusy) (by omega)
    · cases h
      exact .ended p e bs hpc (by simpa using hbusy) (by omega)
  · simp at h

theorem step_moves (h : step s a = some t) : s.panic = none ∧ Moves s a t := by
  unfold step at h
  split_ifs at h with hp
  refine ⟨by simpa using hp, ?_⟩
  cases a with
  | beginOp p => exact stepBeginOp_moves h
  | logWrite p b => exact stepLogWrite_moves h
  | endOp p => exact stepEndOp_moves h
  | commit p =>
    simp only [stepCommit] at h
    split at h
    · rename_i hpc
      cases h
      exact .committed p hpc
    · simp at h
  | endCommit p =>
    simp only [stepEndCommit] at h
    split at h
    · rename_i hpc
      cases h
      exact .reopened p hpc
    · simp at h
  | kill p =>
    simp only [stepKill] at h
    split at h
    · rename_i hpc
      cases h
      exact .killed p hpc
    · simp at h

end Xv6.Log
