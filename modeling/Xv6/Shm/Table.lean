import Mathlib.Data.BitVec
import Mathlib.Data.List.FinRange
import Xv6.Lib.Holders
import Xv6.Lib.Holes
import Xv6.Lib.Run

namespace Xv6.Shm
open Function Lib

abbrev MAX_SHM_SEGMENTS : Nat := 10
def MAX_PROCESSES_PER_SEGMENT : Nat := 10

/-- A zero entry of pids is free, so the pid of a process is never zero. -/
structure Pid where
  val : BitVec 32
  ne_zero : val ≠ 0

/-- The struct shmseg. A slot is in use when its key is not zero. -/
structure Seg where
  key : BitVec 32
  size : BitVec 32
  addr : BitVec 64
  shmflag : BitVec 32
  refcount : BitVec 32
  id : BitVec 32
  pids : List (BitVec 32)
  len : pids.length = MAX_PROCESSES_PER_SEGMENT
  deriving DecidableEq

abbrev Slot := Fin MAX_SHM_SEGMENTS

abbrev Table := Slot → Seg

/-- The array before any code has run. -/
def zeroed : Table := fun _ => ⟨0, 0, 0, 0, 0, 0, List.replicate 10 0, rfl⟩

def shmInit (t : Table) : Table := fun i => { t i with key := 0, addr := 0 }

/-- The first slot that passes the test of a loop. -/
def Table.first (t : Table) (p : Seg → Bool) : Option Slot :=
  (List.finRange MAX_SHM_SEGMENTS).find? (fun i => p (t i))

def slotId (i : Slot) : BitVec 32 := BitVec.ofNat 32 (i.val + 1)

/-- What shmget() does to a slot with the key it looks for: the pid goes into the first zero entry,
if there is one. -/
def Seg.join (g : Seg) (p : Pid) : Seg :=
  { g with
    refcount := g.refcount + 1
    pids := fill p.val g.pids
    len := (length_fill ..).trans g.len }

/-- What shmget() does to an unused slot. The other entries of pids stay. -/
def Seg.create (g : Seg) (i : Slot) (p : Pid) (key size shmflag : BitVec 32) : Seg :=
  { key, size, shmflag
    addr := 0
    refcount := 1
    id := slotId i
    pids := g.pids.set 0 p.val
    len := List.length_set.trans g.len }

/-- The result is the id, or -1. -/
def shmget (t : Table) (p : Pid) (key size shmflag : BitVec 32) : Table × Int :=
  match t.first (·.key = key) with
  | some i => (update t i ((t i).join p), (t i).id.toInt)
  | none =>
    match t.first (·.key = 0) with
    | some i => (update t i ((t i).create i p key size shmflag), (slotId i).toInt)
    | none => (t, -1)

/-- The slot of a valid shared memory ID. -/
def Table.slot (t : Table) (shmid : BitVec 32) : Option Slot :=
  if h : shmid.toInt < 1 ∨ (MAX_SHM_SEGMENTS : Int) < shmid.toInt then none
  else
    let i : Slot := ⟨(shmid.toInt - 1).toNat, by omega⟩
    if (t i).key = 0 then none else some i

/-- The returns of shmat(): all but the last are -1. -/
inductive Attach where
  | badId
  | noAccess
  | noMemory
  | at (addr : BitVec 64)
  deriving DecidableEq

def Attach.ret : Attach → BitVec 64
  | .at a => a
  | _ => -1

/-- Here `page` is what kalloc() returns if it is called, zero when it fails. Every path returns
before the code that calls mappages(). -/
def shmat (t : Table) (p : Pid) (shmid : BitVec 32) (userAddr page : BitVec 64) :
    Table × Attach :=
  match t.slot shmid with
  | none => (t, .badId)
  | some i =>
    if p.val ∉ (t i).pids then (t, .noAccess)
    else if (t i).addr ≠ 0 then (t, .at (t i).addr)
    else if userAddr ≠ 0 then
      (update t i { t i with addr := userAddr }, .at userAddr)
    else if page = 0 then (t, .noMemory)
    else (update t i { t i with addr := page }, .at page)

theorem length_shift_punch {l m : List (BitVec 32)} (h : punch x l = some m) :
    (shift m).length = l.length := by
  rw [length_shift, length_punch h]

/-- What shmdt() does to the slot it finds: the first entry with the pid is zeroed and the rest
moves up in one pass. None when the pid is not there. -/
def Seg.leave (g : Seg) (p : Pid) : Option Seg :=
  match h : punch p.val g.pids with
  | none => none
  | some m =>
    some { g with
      refcount := g.refcount - 1
      pids := shift m
      len := (length_shift_punch h).trans g.len }

def shmdt (t : Table) (p : Pid) (shmid : BitVec 32) : Table × Int :=
  match t.first (·.id = shmid) with
  | none => (t, -1)
  | some i =>
    match (t i).leave p with
    | none => (t, -1)
    | some g => (update t i g, 0)

def IPC_RMID : BitVec 32 := 1
def IPC_SET : BitVec 32 := 2

def shmctl (t : Table) (shmid cmd buf : BitVec 32) : Table × Int :=
  match t.slot shmid with
  | none => (t, -1)
  | some i =>
    if cmd = IPC_RMID then (update t i { t i with key := 0 }, 0)
    else if cmd = IPC_SET then (update t i { t i with shmflag := buf }, 0)
    else (t, -1)

inductive Call where
  | get (key size shmflag : BitVec 32)
  | attach (shmid : BitVec 32) (userAddr page : BitVec 64)
  | detach (shmid : BitVec 32)
  | ctl (shmid cmd buf : BitVec 32)

/-- The table after a call by p. -/
def exec (t : Table) (p : Pid) : Call → Table
  | .get key size shmflag => (shmget t p key size shmflag).1
  | .attach shmid userAddr page => (shmat t p shmid userAddr page).1
  | .detach shmid => (shmdt t p shmid).1
  | .ctl shmid cmd buf => (shmctl t shmid cmd buf).1

def step (t : Table) (a : Pid × Call) : Option Table := some (exec t a.1 a.2)

theorem first_some {t : Table} (h : t.first p = some i) : p (t i) = true := by
  have := List.find?_some h
  simpa using this

theorem first_none {t : Table} (h : t.first p = none) (i : Slot) : p (t i) = false := by
  have := List.find?_eq_none.mp h i (List.mem_finRange i)
  simpa using this

theorem slotId_toInt (i : Slot) : (slotId i).toInt = i.val + 1 := by
  revert i
  decide

theorem slotId_injective (h : slotId i = slotId j) : i = j := by
  have hi := slotId_toInt i
  rw [h, slotId_toInt j] at hi
  exact Fin.ext (by omega)

theorem slot_eq_some {t : Table} :
    t.slot shmid = some i ↔ shmid = slotId i ∧ (t i).key ≠ 0 := by
  rw [Table.slot]
  split
  · rename_i h
    simp only [reduceCtorEq, false_iff, not_and]
    intro he
    rw [he, slotId_toInt] at h
    omega
  rename_i h
  have hs : shmid = slotId ⟨(shmid.toInt - 1).toNat, by omega⟩ := by
    apply BitVec.eq_of_toInt_eq
    rw [slotId_toInt]
    simp only
    omega
  constructor
  · intro he
    dsimp only at he
    split at he
    · cases he
    · cases he
      exact ⟨hs, ‹_›⟩
  · intro he
    have hj := slotId_injective (hs.symm.trans he.1)
    dsimp only
    rw [hj, if_neg he.2]

theorem shmget_found {t : Table} (found : t.first (·.key = key) = some i) :
    shmget t p key size shmflag = (update t i ((t i).join p), (t i).id.toInt) := by
  rw [shmget, found]

theorem shmget_create {t : Table} (fresh : t.first (·.key = key) = none)
    (free : t.first (·.key = 0) = some i) :
    shmget t p key size shmflag =
      (update t i ((t i).create i p key size shmflag), (slotId i).toInt) := by
  rw [shmget, fresh, free]

theorem shmget_full {t : Table} (fresh : t.first (·.key = key) = none)
    (full : t.first (·.key = 0) = none) : shmget t p key size shmflag = (t, -1) := by
  rw [shmget, fresh, full]

theorem leave_some {g : Seg} (hl : g.leave p = some g') :
    ∃ m, punch p.val g.pids = some m ∧ g'.pids = shift m ∧ g'.refcount = g.refcount - 1 ∧
      g'.key = g.key ∧ g'.size = g.size ∧ g'.addr = g.addr ∧ g'.shmflag = g.shmflag ∧
      g'.id = g.id := by
  rw [Seg.leave] at hl
  split at hl
  · cases hl
  · rename_i m hm
    cases hl
    exact ⟨m, hm, rfl, rfl, rfl, rfl, rfl, rfl, rfl⟩

/-- Everything a call by p can do to the table, with what it found there. -/
inductive Moves (p : Pid) (t : Table) : Call → Table → Prop where
  | same (c : Call) : Moves p t c t
  | join (found : t.first (·.key = key) = some i) :
      Moves p t (.get key size shmflag) (update t i ((t i).join p))
  | create (fresh : t.first (·.key = key) = none) (free : t.first (·.key = 0) = some i) :
      Moves p t (.get key size shmflag)
        (update t i ((t i).create i p key size shmflag))
  | locate (found : t.slot shmid = some i) (access : p.val ∈ (t i).pids)
      (unset : (t i).addr = 0) (addr : BitVec 64) :
      Moves p t (.attach shmid userAddr page) (update t i { t i with addr := addr })
  | leave (found : t.first (·.id = shmid) = some i) (left : (t i).leave p = some g) :
      Moves p t (.detach shmid) (update t i g)
  | remove (found : t.slot shmid = some i) :
      Moves p t (.ctl shmid IPC_RMID buf) (update t i { t i with key := 0 })
  | setFlag (found : t.slot shmid = some i) :
      Moves p t (.ctl shmid IPC_SET buf) (update t i { t i with shmflag := buf })

theorem shmget_moves (t : Table) (p : Pid) (key size shmflag : BitVec 32) :
    Moves p t (.get key size shmflag) (shmget t p key size shmflag).1 := by
  rw [shmget]
  split
  · rename_i i found
    exact .join found
  · rename_i fresh
    split
    · rename_i i free
      exact .create fresh free
    · exact .same _

theorem shmat_moves (t : Table) (p : Pid) (shmid : BitVec 32) (userAddr page : BitVec 64) :
    Moves p t (.attach shmid userAddr page) (shmat t p shmid userAddr page).1 := by
  rw [shmat]
  split
  · exact .same _
  rename_i i found
  split
  · exact .same _
  rename_i access
  rw [not_not] at access
  split
  · exact .same _
  · rename_i unset
    rw [not_not] at unset
    split
    · exact .locate found access unset userAddr
    · split
      · exact .same _
      · exact .locate found access unset page

theorem shmdt_moves (t : Table) (p : Pid) (shmid : BitVec 32) :
    Moves p t (.detach shmid) (shmdt t p shmid).1 := by
  rw [shmdt]
  split
  · exact .same _
  · rename_i i found
    split
    · exact .same _
    · rename_i g left
      exact .leave found left

theorem shmctl_moves (t : Table) (p : Pid) (shmid cmd buf : BitVec 32) :
    Moves p t (.ctl shmid cmd buf) (shmctl t shmid cmd buf).1 := by
  rw [shmctl]
  split
  · exact .same _
  rename_i i found
  split
  · rename_i hcmd
    subst hcmd
    exact .remove found
  · split
    · rename_i hcmd
      subst hcmd
      exact .setFlag found
    · exact .same _

theorem exec_moves (t : Table) (p : Pid) (c : Call) : Moves p t c (exec t p c) := by
  cases c with
  | get key size shmflag => exact shmget_moves t p key size shmflag
  | attach shmid userAddr page => exact shmat_moves t p shmid userAddr page
  | detach shmid => exact shmdt_moves t p shmid
  | ctl shmid cmd buf => exact shmctl_moves t p shmid cmd buf

/-- What a slot holds on its own. -/
structure Seg.Sound (i : Slot) (g : Seg) : Prop where
  id : g.id = 0 ∨ g.id = slotId i
  inUse : g.key ≠ 0 → g.id = slotId i
  packed : Packed g.pids

/-- The key a slot is in use for. -/
def Seg.inUseFor (g : Seg) : Option (BitVec 32) := if g.key = 0 then none else some g.key

theorem inUseFor_eq {g : Seg} (hk : g.key = key) (h0 : key ≠ 0) : g.inUseFor = some key := by
  rw [Seg.inUseFor, hk, if_neg h0]

/-- The representation of the table. -/
structure Sound (t : Table) : Prop where
  slots : ∀ i, (t i).Sound i
  keys : Exclusive (Seg.inUseFor ∘ t)

theorem Seg.Sound.join {g : Seg} (h : g.Sound i) (p : Pid) : (g.join p).Sound i :=
  ⟨h.id, h.inUse, h.packed.fill p.ne_zero⟩

/-- The stale entries of a slot that is used again stay packed behind the new first one. -/
theorem Seg.Sound.create {g : Seg} (h : g.Sound i) (p : Pid) (key size shmflag : BitVec 32) :
    (g.create i p key size shmflag).Sound i := by
  refine ⟨.inr rfl, fun _ => rfl, ?_⟩
  change Packed (g.pids.set 0 p.val)
  have hp := h.packed
  cases hg : g.pids with
  | nil => exact List.Pairwise.nil
  | cons x l =>
    rw [hg] at hp
    exact packed_cons.mpr ⟨fun he => absurd he p.ne_zero, (packed_cons.mp hp).2⟩

theorem Seg.Sound.leave {g : Seg} (h : g.Sound i) (hl : g.leave p = some g') : g'.Sound i := by
  obtain ⟨m, hm, hp, -, hk, -, -, -, hi⟩ := leave_some hl
  refine ⟨hi ▸ h.id, hk ▸ hi ▸ h.inUse, ?_⟩
  rw [hp, shift_punch h.packed hm]
  exact h.packed.erase p.val

theorem Sound.put {t : Table} (h : Sound t) (hg : g.Sound i)
    (hk : Exclusive (update (Seg.inUseFor ∘ t) i g.inUseFor)) :
    Sound (update t i g) := by
  refine ⟨fun j => ?_, ?_⟩
  · rcases eq_or_ne j i with rfl | hj
    · simpa using hg
    · simpa [hj] using h.slots j
  · rw [comp_update]
    exact hk

theorem Sound.replace {t : Table} (h : Sound t) (hg : g.Sound i) (hk : g.key = (t i).key) :
    Sound (update t i g) := by
  have hsame : g.inUseFor = (Seg.inUseFor ∘ t) i := by simp [Seg.inUseFor, hk]
  refine h.put hg ?_
  rw [hsame, update_eq_self]
  exact h.keys

/-- A slot is created for a key that no slot has, so the key is not zero either. -/
theorem create_key_ne_zero {t : Table} (fresh : t.first (·.key = key) = none)
    (free : t.first (·.key = 0) = some i) : key ≠ 0 := by
  have hf := first_some free
  have hk := first_none fresh i
  simp only [decide_eq_true_eq, decide_eq_false_iff_not] at hf hk
  rw [← hf]
  exact Ne.symm hk

theorem Sound.moves (h : Sound t) (hm : Moves p t c t') : Sound t' := by
  cases hm with
  | same => exact h
  | join found => exact h.replace ((h.slots _).join p) rfl
  | @create key i size shmflag fresh free =>
    refine h.put ((h.slots i).create p key size shmflag) ?_
    have hkey : ((t i).create i p key size shmflag).key = key := rfl
    rw [inUseFor_eq hkey (create_key_ne_zero fresh free)]
    refine h.keys.take (fun j hj => ?_) i
    simp only [comp_apply, Seg.inUseFor] at hj
    split at hj
    · cases hj
    · have := first_none fresh j
      simp [Option.some.inj hj] at this
  | @locate shmid i userAddr page found access unset addr =>
    have hi := h.slots i
    exact h.replace ⟨hi.id, hi.inUse, hi.packed⟩ rfl
  | leave found left =>
    obtain ⟨-, -, -, -, hk, -⟩ := leave_some left
    exact h.replace ((h.slots _).leave left) hk
  | @remove shmid i buf found =>
    have hi := h.slots i
    refine h.put ⟨hi.id, fun he => absurd rfl he, hi.packed⟩ ?_
    exact h.keys.drop i
  | @setFlag shmid i buf found =>
    have hi := h.slots i
    exact h.replace ⟨hi.id, hi.inUse, hi.packed⟩ rfl

def start : Table := shmInit zeroed

theorem sound_start : Sound start := by
  refine ⟨fun i => ⟨.inl rfl, fun h => absurd rfl h, ?_⟩, ?_⟩
  · exact packed_of_all_zero (fun y hy => List.eq_of_mem_replicate hy)
  · intro i j x hi
    cases hi

theorem sound_of_run (hr : run step start as = some t) : Sound t := by
  refine run_invariant ?_ sound_start hr
  intro s a t hs ht
  cases ht
  exact hs.moves (exec_moves s a.1 a.2)

/-- The slot found by its id loses one entry of the caller, and nothing else moves. -/
def Detached (t : Table) (p : Pid) (shmid : BitVec 32) (t' : Table) : Prop :=
  ∃ i, (t i).id = shmid ∧ p.val ∈ (t i).pids ∧ (∀ j, j ≠ i → t' j = t j) ∧
    (t' i).pids = (t i).pids.erase p.val ++ [0] ∧ (t' i).key = (t i).key ∧ (t' i).id = (t i).id

theorem detached_of_shmdt (h : Sound t) (hd : (shmdt t p shmid).2 = 0) :
    Detached t p shmid (shmdt t p shmid).1 := by
  cases hf : t.first (·.id = shmid) with
  | none => simp [shmdt, hf] at hd
  | some i =>
    cases hl : (t i).leave p with
    | none => simp [shmdt, hf, hl] at hd
    | some g =>
      obtain ⟨m, hm, hp, -, hk, -, -, -, hi⟩ := leave_some hl
      have ht : (shmdt t p shmid).1 = update t i g := by simp [shmdt, hf, hl]
      rw [ht]
      refine ⟨i, by simpa using first_some hf, mem_of_punch hm, ?_, ?_, ?_, ?_⟩
      · intro j hj
        simp [hj]
      · rw [update_self, hp, shift_punch (h.slots i).packed hm]
      · rw [update_self, hk]
      · rw [update_self, hi]

/-- Every reachable table is well formed: unique keys, ids that name their slot, packed pids; and
shmdt() takes out one entry of the caller. -/
theorem table_representation (hr : run step start as = some t) :
    Sound t ∧ ∀ p shmid, (shmdt t p shmid).2 = 0 → Detached t p shmid (shmdt t p shmid).1 := by
  have h := sound_of_run hr
  exact ⟨h, fun p shmid hd => detached_of_shmdt h hd⟩

def pid5 : Pid := ⟨5, by decide⟩
def pid6 : Pid := ⟨6, by decide⟩

/-- One segment that two processes have got. -/
def twoUsers : Table := exec (exec start pid5 (.get 7 4096 0)) pid6 (.get 7 4096 0)

theorem table_representation_two_users :
    Sound twoUsers ∧ Detached twoUsers pid5 1 (shmdt twoUsers pid5 1).1 ∧
      ((shmdt twoUsers pid5 1).1 0).pids = 6 :: List.replicate 9 0 := by
  have hr : run step start [(pid5, .get 7 4096 0), (pid6, .get 7 4096 0)] = some twoUsers := rfl
  obtain ⟨hs, hd⟩ := table_representation hr
  exact ⟨hs, hd pid5 1 (by decide), by decide⟩

end Xv6.Shm
