import Xv6.Mem.Copy
import Xv6.Param

namespace Xv6.Mem
open BitVec Function Lib.Radix Lib

/-- An inode as readi() shows it, which may read less than it is asked for. -/
structure File where
  read : BitVec 32 → BitVec 32 → List Byte
  length_le : ∀ off n, (read off n).length ≤ n.toNat

def ELF_MAGIC : BitVec 32 := 0x464C457F
def ELF_PROG_LOAD : BitVec 32 := 1

/-- The n bytes of a struct from an offset on. -/
def field (w : Nat) (bs : List Byte) (off : Nat) : BitVec w :=
  BitVec.ofNat w (ofBytes ((bs.drop off).take (w / 8)))

/-- The struct elfhdr, as far as exec() reads it. -/
structure Elfhdr where
  magic : BitVec 32
  entry : Word
  phoff : Word
  phnum : BitVec 16

def Elfhdr.ofBytes (bs : List Byte) : Elfhdr :=
  ⟨field 32 bs 0, field 64 bs 24, field 64 bs 32, field 16 bs 56⟩

/-- The struct proghdr without paddr and align. -/
structure Proghdr where
  type : BitVec 32
  flags : BitVec 32
  off : Word
  vaddr : Addr
  filesz : Word
  memsz : Word

def Proghdr.ofBytes (bs : List Byte) : Proghdr :=
  ⟨field 32 bs 0, field 32 bs 4, field 64 bs 8, field 64 bs 16, field 64 bs 32, field 64 bs 40⟩

def flags2perm (flags : BitVec 32) : Word :=
  let perm := if flags &&& 1 ≠ 0 then PTE_X else 0
  if flags &&& 2 ≠ 0 then perm ||| PTE_W else perm

/-- The loop of loadseg(). -/
def loadsegLoop (pagetable va : Addr) (ip : File) (offset sz : BitVec 32) :
    Nat → BitVec 32 → Km Int
  | 0, _ => panic .endless
  | fuel + 1, i =>
    if i < sz then do
      let pa ← walkaddr pagetable (va + i.setWidth 64)
      if pa = 0 then panic .loadseg
      else do
        let n := if sz - i < 4096 then sz - i else 4096
        let p ← getPage pa
        setPage pa (setBytes p 0 (ip.read (offset + i) n))
        if (ip.read (offset + i) n).length ≠ n.toNat then pure (-1)
        else loadsegLoop pagetable va ip offset sz fuel (i + 4096)
    else pure 0

def loadseg (pagetable va : Addr) (ip : File) (offset sz : BitVec 32) : Km Int :=
  loadsegLoop pagetable va ip offset sz LOOPS 0

/-- The loop of exec() over the argument strings. None is the jump to `bad`. -/
def pushArgs (pagetable stackbase : Addr) :
    List (List Byte) → Nat → Addr → List Word → Km (Option (Addr × List Word))
  | [], _, sp, ustack => pure (some (sp, ustack))
  | s :: argv, argc, sp, ustack =>
    if MAXARG ≤ argc then pure none
    else
      let sp := sp - BitVec.ofNat 64 (s.length + 1)
      let sp := sp - sp % 16
      if sp < stackbase then pure none
      else do
        let r ← copyout pagetable sp (s ++ [0])
        if r < 0 then pure none
        else pushArgs pagetable stackbase argv (argc + 1) sp (ustack ++ [sp])

section Layout
variable [Image]

/-- The loop of exec() over the program headers, with the size reached. False is the jump to
`bad`. -/
def loadProgs (pagetable : Addr) (ip : File) : Nat → BitVec 32 → Addr → Km (Bool × Addr)
  | 0, _, sz => pure (true, sz)
  | n + 1, off, sz =>
    let ph := Proghdr.ofBytes (ip.read off 56)
    if (ip.read off 56).length ≠ 56 then pure (false, sz)
    else if ph.type ≠ ELF_PROG_LOAD then loadProgs pagetable ip n (off + 56) sz
    else if ph.memsz < ph.filesz then pure (false, sz)
    else if ph.vaddr + ph.memsz < ph.vaddr then pure (false, sz)
    else if ph.vaddr % PGSIZE ≠ 0 then pure (false, sz)
    else do
      let sz1 ← uvmalloc pagetable sz (ph.vaddr + ph.memsz) (flags2perm ph.flags)
      if sz1 = 0 then pure (false, sz)
      else do
        let r ← loadseg pagetable ph.vaddr ip (ph.off.setWidth 32) (ph.filesz.setWidth 32)
        if r < 0 then pure (false, sz1)
        else loadProgs pagetable ip n (off + 56) sz1

/-- What exec() returns and leaves in struct proc when it succeeds. -/
structure Program where
  pagetable : Addr
  sz : Addr
  argc : Nat

/-- The code at `bad`. -/
def execBad (pagetable sz : Addr) : Km (Option Program) := do
  procFreepagetable pagetable sz
  pure none

/-- The word of a trapframe with the program counter of the user. -/
def tfEpc : Fin 512 := ⟨3, by decide⟩

def tfSp : Fin 512 := ⟨6, by decide⟩

def tfA0 : Fin 512 := ⟨14, by decide⟩

def tfA1 : Fin 512 := ⟨15, by decide⟩

/-- From the argument strings on. -/
def execCommit (trapframe oldpagetable oldsz pagetable sz entry : Addr)
    (argv : List (List Byte)) : Km (Option Program) := do
  let stackbase := sz - BitVec.ofNat 64 (USERSTACK * 4096)
  match ← pushArgs pagetable stackbase argv 0 sz [] with
  | none => execBad pagetable sz
  | some (sp, ustack) => do
    let sp := sp - BitVec.ofNat 64 ((argv.length + 1) * 8)
    let sp := sp - sp % 16
    if sp < stackbase then execBad pagetable sz
    else do
      let r ← copyout pagetable sp ((ustack ++ [0]).flatMap toBytes)
      if r < 0 then execBad pagetable sz
      else do
        store trapframe tfA1 sp
        store trapframe tfEpc entry
        store trapframe tfSp sp
        procFreepagetable oldpagetable oldsz
        pure (some ⟨pagetable, sz, argv.length⟩)

/-- Here `ip` is what namei() finds for the path, and the first three arguments are fields of the
process. None is the result -1. -/
def exec (trapframe oldpagetable oldsz : Addr) (ip : Option File) (argv : List (List Byte)) :
    Km (Option Program) :=
  match ip with
  | none => pure none
  | some ip =>
    let elf := Elfhdr.ofBytes (ip.read 0 64)
    if (ip.read 0 64).length ≠ 64 then pure none
    else if elf.magic ≠ ELF_MAGIC then pure none
    else do
      match ← procPagetable trapframe with
      | none => pure none
      | some pagetable => do
        let (ok, sz) ← loadProgs pagetable ip elf.phnum.toNat (elf.phoff.setWidth 32) 0
        if ok = false then execBad pagetable sz
        else do
          let sz := pgroundup sz
          let sz1 ← uvmalloc pagetable sz (sz + BitVec.ofNat 64 ((USERSTACK + 1) * 4096)) PTE_W
          if sz1 = 0 then execBad pagetable sz
          else do
            uvmclear pagetable (sz1 - BitVec.ofNat 64 ((USERSTACK + 1) * 4096))
            execCommit trapframe oldpagetable oldsz pagetable sz1 elf.entry argv

/-- How far exec() has got: it jumps to `bad` with the page table it may have, or goes on. -/
inductive Built where
  | bad (pagetable : Option Addr) (sz : Addr)
  | ready (pagetable sz : Addr)

/-- The part of exec() that holds the inode. -/
def execLoad (trapframe : Addr) (ip : File) : Km Built :=
  let elf := Elfhdr.ofBytes (ip.read 0 64)
  if (ip.read 0 64).length ≠ 64 then pure (.bad none 0)
  else if elf.magic ≠ ELF_MAGIC then pure (.bad none 0)
  else do
    match ← procPagetable trapframe with
    | none => pure (.bad none 0)
    | some pagetable => do
      let (ok, sz) ← loadProgs pagetable ip elf.phnum.toNat (elf.phoff.setWidth 32) 0
      if ok = false then pure (.bad (some pagetable) sz) else pure (.ready pagetable sz)

/-- The part of exec() that makes the guard page and the stack. -/
def execStack (pagetable sz : Addr) : Km Built := do
  let sz := pgroundup sz
  let sz1 ← uvmalloc pagetable sz (sz + BitVec.ofNat 64 ((USERSTACK + 1) * 4096)) PTE_W
  if sz1 = 0 then pure (.bad (some pagetable) sz)
  else do
    uvmclear pagetable (sz1 - BitVec.ofNat 64 ((USERSTACK + 1) * 4096))
    pure (.ready pagetable sz1)

/-- The test of the page table at `bad`. -/
def execUndo : Option Addr → Addr → Km (Option Program)
  | none, _ => pure none
  | some pagetable, sz => execBad pagetable sz

theorem exec_eq (trapframe oldpagetable oldsz : Addr) (ip : File) (argv : List (List Byte)) :
    exec trapframe oldpagetable oldsz (some ip) argv = (do
      match ← execLoad trapframe ip with
      | .bad pagetable sz => execUndo pagetable sz
      | .ready pagetable sz => do
        match ← execStack pagetable sz with
        | .bad pagetable sz => execUndo pagetable sz
        | .ready pagetable sz =>
          execCommit trapframe oldpagetable oldsz pagetable sz
            (Elfhdr.ofBytes (ip.read 0 64)).entry argv) := by
  rw [exec, execLoad]
  simp only
  split
  · rw [pure_bind]
    rfl
  split
  · rw [pure_bind]
    rfl
  rw [bind_assoc]
  congr 1
  funext r
  cases r with
  | none =>
    rw [pure_bind]
    rfl
  | some pt =>
    simp only [bind_assoc]
    congr 1
    funext a
    obtain ⟨ok, sz⟩ := a
    cases ok with
    | false =>
      simp only [if_pos, pure_bind]
      rfl
    | true =>
      simp only [Bool.true_eq_false, if_false, pure_bind, execStack, bind_assoc]
      congr 1
      funext sz1
      split
      · rw [pure_bind]
        rfl
      · simp only [bind_assoc, pure_bind]

/-- The loop of sys_exec() over argv[]: the pages it got and their strings, and false for the jump
to `bad`. -/
def fetchArgs (pagetable sz uargv : Addr) :
    Nat → Nat → List (Addr × List Byte) → Km (Bool × List (Addr × List Byte))
  | 0, _, argv => pure (false, argv)
  | n + 1, i, argv => do
    match ← fetchaddr pagetable sz (uargv + BitVec.ofNat 64 (8 * i)) with
    | none => pure (false, argv)
    | some uarg =>
      if uarg = 0 then pure (true, argv)
      else do
        match ← kalloc with
        | none => pure (false, argv)
        | some x => do
          match ← fetchstr pagetable uarg 4096 with
          | none => pure (false, argv ++ [(x, [])])
          | some s => do
            let p ← getPage x
            setPage x (setBytes p 0 (s ++ [0]))
            fetchArgs pagetable sz uargv n (i + 1) (argv ++ [(x, s)])

/-- The file system is given by what namei() finds. -/
def sysExec (namei : List Byte → Option File) (trapframe pagetable sz upath uargv : Addr) :
    Km (Option Program) := do
  match ← fetchstr pagetable upath MAXPATH with
  | none => pure none
  | some path => do
    let (ok, argv) ← fetchArgs pagetable sz uargv MAXARG 0 []
    if ok then do
      let ret ← exec trapframe pagetable sz (namei path) (argv.map (·.2))
      argv.forM (fun a => kfree a.1)
      pure ret
    else do
      argv.forM (fun a => kfree a.1)
      pure none

/-- All user pages can be reached by the user, as long as exec() has made no guard page. -/
def AllUser (n : Nat) (f : Nat → Option Word) : Prop := ∀ i < n, ∃ w, f i = some w ∧ Has w PTE_U

theorem Space.translate_user (h : Space R root tf n f k) (hu : AllUser n f)
    (hva : va.toNat < 4096 * n) :
    ∃ x ∈ pagesOf f 0 n, translate f va = x ∧ x ≠ 0 := by
  have hn := h.small
  obtain ⟨w, hw, huser⟩ := hu (va.toNat / 4096) (by omega)
  have hmem := mem_pagesOf hw (show va.toNat / 4096 < n by omega)
  refine ⟨pte2pa w, hmem, ?_, ?_⟩
  · rw [translate, if_pos (by omega), hw]
    exact if_pos huser
  · refine page_ne_zero (h.table.owned.mem_pages ?_)
    exact Multiset.mem_add.mpr (.inr (Multiset.mem_add.mpr (.inl hmem)))

theorem Space.loadsegLoop (h : Space R root tf n f k) (hu : AllUser n f)
    (hb : va.toNat + sz.toNat ≤ 4096 * n) (hi : i.toNat = 4096 * j) (hj : j ≤ 32768)
    (hf : 32768 < j + fuel) :
    Ends (loadsegLoop root va ip offset sz fuel i) k (fun _ k' =>
      Keeps R k k' ∧ Space R root tf n f k') := by
  induction fuel generalizing i j k with
  | zero => omega
  | succ fuel ih =>
    have hn := h.small
    rw [Mem.loadsegLoop, ends_ite]
    by_cases hlt : i < sz
    · rw [lt_def] at hlt
      have hva : (va + i.setWidth 64).toNat < 4096 * n := by
        rw [toNat_add, toNat_setWidth]
        omega
      obtain ⟨x, hx, ht, hne⟩ := h.translate_user hu hva
      rw [if_pos (lt_def.mpr hlt), ends_bind, walkaddr_ends, h.table.map, ht, if_neg hne,
        ends_bind, ends_getPage, ends_bind, ends_setPage]
      generalize (if sz - i < 4096 then sz - i else 4096) = m
      obtain ⟨hk, hs⟩ := h.putUser hx (setBytes (k.mem x) 0 (ip.read (offset + i) m))
      rw [ends_ite]
      split
      · exact ends_pure.mpr ⟨hk, hs⟩
      · have hi' : (i + 4096).toNat = 4096 * (j + 1) := by
          rw [toNat_add]
          simp
          omega
        refine (ih hs hi' (by omega) (by omega)).mono (fun _ k' hk' => ?_)
        exact ⟨hk.trans hk'.1, hk'.2⟩
    · rw [if_neg hlt]
      exact ends_pure.mpr ⟨fun _ _ => rfl, h⟩

theorem Space.loadseg (h : Space R root tf n f k) (hu : AllUser n f)
    (hb : va.toNat + sz.toNat ≤ 4096 * n) :
    Ends (loadseg root va ip offset sz) k (fun _ k' => Keeps R k k' ∧ Space R root tf n f k') := by
  refine h.loadsegLoop (j := 0) hu hb rfl (by omega) ?_
  rw [LOOPS]
  omega

omit [Image] in
theorem flags2perm_lt (flags : BitVec 32) : (flags2perm flags).toNat < 1024 := by
  rw [flags2perm]
  split <;> split <;> decide

omit [Image] in
theorem AllUser.added (h : AllUser n f) (ha : Added f g n m (PTE_R ||| PTE_U ||| xperm)) :
    AllUser m g := by
  intro i hi
  rcases Nat.lt_or_ge i n with hin | hin
  · rw [ha.same i (by omega)]
    exact h i hin
  · obtain ⟨x, hx⟩ := ha.new i hin hi
    have hu : Has (PTE_R ||| PTE_U ||| xperm) PTE_U := has_or.mpr (.inl (by decide))
    exact ⟨_, hx, (has_mkPte (by decide)).mpr (.inl hu)⟩

omit [Image] in
theorem le_pagesUp (sz : Addr) : sz.toNat ≤ 4096 * pagesUp sz := by
  rw [pagesUp]
  omega

omit [Image] in
/-- When uvmalloc() returns zero as the size, there was none. -/
theorem pagesUp_of_zero {r sz newsz : Addr} (hr : r = 0)
    (h : r = if newsz < sz then sz else newsz) : pagesUp r = pagesUp sz := by
  split at h
  · rw [h]
  · rename_i hlt
    rw [← h, hr, lt_def] at hlt
    have hsz : sz.toNat = 0 := by simpa using hlt
    rw [hr, pagesUp, pagesUp, hsz]
    rfl

omit [Image] in
/-- A segment that passes exec()'s checks lies below the size uvmalloc() returns for it. -/
theorem segment_le {vaddr memsz filesz sz : Addr} (hmem : ¬ memsz < filesz)
    (hwrap : ¬ vaddr + memsz < vaddr)
    (hr : r = if vaddr + memsz < sz then sz else vaddr + memsz) :
    vaddr.toNat + (filesz.setWidth 32).toNat ≤ 4096 * pagesUp r := by
  have hle : (vaddr + memsz).toNat ≤ r.toNat := by
    rw [hr]
    split
    · rename_i hlt
      rw [lt_def] at hlt
      omega
    · exact Nat.le_refl _
  have hfit := le_pagesUp r
  rw [lt_def] at hmem hwrap
  rw [toNat_add] at hle hwrap
  rw [toNat_setWidth]
  have := vaddr.isLt
  have := memsz.isLt
  have := Nat.mod_le filesz.toNat (2 ^ 32)
  omega

/-- What the loop over the program headers leaves, whether it fails or not. -/
def Loaded (R : Multiset Addr) (root tf sz : Addr) (k : Kmem) : Prop :=
  ∃ f, Space R root tf (pagesUp sz) f k ∧ AllUser (pagesUp sz) f

theorem Loaded.stay (h : Loaded R root tf sz k) (ok : Bool) :
    Ends (pure (ok, sz) : Km (Bool × Addr)) k (fun r k' =>
      Keeps R k k' ∧ Loaded R root tf r.2 k') :=
  ends_pure.mpr ⟨fun _ _ => rfl, h⟩

theorem Loaded.loadProgs (h : Loaded R root tf sz k) :
    Ends (loadProgs root ip n off sz) k (fun r k' => Keeps R k k' ∧ Loaded R root tf r.2 k') := by
  induction n generalizing off sz k with
  | zero => exact h.stay _
  | succ n ih =>
    rw [Mem.loadProgs]
    refine .ite (fun _ => h.stay _) (fun _ => ?_)
    refine .ite (fun _ => ih h) (fun _ => ?_)
    refine .ite (fun _ => h.stay _) (fun hmem => ?_)
    refine .ite (fun _ => h.stay _) (fun hwrap => ?_)
    refine .ite (fun _ => h.stay _) (fun _ => ?_)
    obtain ⟨f, hs, hu⟩ := h
    refine (hs.uvmalloc _ (flags2perm_lt _)).bind (fun r k1 h1 => ?_)
    obtain ⟨hk1, h1⟩ := h1
    have hk1 := hk1.mono (Multiset.le_add_left R _)
    by_cases hr : r = 0
    · rw [if_pos hr]
      refine ends_pure.mpr ⟨hk1, ?_⟩
      rcases h1 with ⟨-, h1⟩ | ⟨hr', g, h1, ha, -⟩
      · exact ⟨f, h1, hu⟩
      · have hzero := pagesUp_of_zero hr hr'
        rw [hzero] at h1 ha
        exact ⟨g, h1, hu.added ha⟩
    · rw [if_neg hr]
      obtain ⟨hr', g, h1, ha, -⟩ := h1.resolve_left (fun h => hr h.1)
      have hu' := hu.added ha
      refine (h1.loadseg hu' (segment_le hmem hwrap hr')).bind (fun q k2 h2 => ?_)
      rw [ends_ite]
      split
      · exact ends_pure.mpr ⟨hk1.trans h2.1, g, h2.2, hu'⟩
      · refine (ih ⟨g, h2.2, hu'⟩).mono (fun _ k3 h3 => ?_)
        exact ⟨(hk1.trans h2.1).trans h3.1, h3.2⟩

theorem Space.pushArgs (h : Space R root tf n f k) :
    Ends (pushArgs root stackbase argv argc sp ustack) k (fun _ k' =>
      Keeps R k k' ∧ Space R root tf n f k') := by
  induction argv generalizing argc sp ustack k with
  | nil => exact ends_pure.mpr ⟨fun _ _ => rfl, h⟩
  | cons s argv ih =>
    rw [Mem.pushArgs]
    refine .ite (fun _ => ends_pure.mpr ⟨fun _ _ => rfl, h⟩) (fun _ => ?_)
    refine .ite (fun _ => ends_pure.mpr ⟨fun _ _ => rfl, h⟩) (fun _ => ?_)
    refine (h.copyout _ _).bind (fun r k1 h1 => ?_)
    rw [ends_ite]
    split
    · exact ends_pure.mpr h1
    · exact (ih h1.2).mono (fun _ k2 h2 => ⟨h1.1.trans h2.1, h2.2⟩)

/-- The pages of an address space together with R. -/
abbrev withSpace (m : Addr → Page) (root : Addr) (f : Nat → Option Word) (n : Nat)
    (R : Multiset Addr) : Multiset Addr := ptPages m root + (pagesOf f 0 n + R)

omit [Image] in
theorem withSpace_cons : withSpace m root f n (x ::ₘ R) = x ::ₘ withSpace m root f n R := by
  rw [withSpace, withSpace, Multiset.add_cons, Multiset.add_cons]

/-- Pages that stay as they were still hold their address space. -/
theorem Space.back (h : Space R root tf n f k) (ho : Owned (withSpace k.mem root f n S) k')
    (hk : Keeps (ptPages k.mem root) k k') : Space S root tf n f k' :=
  ⟨h.table.congr hk ho, h.exact⟩

/-- Seen from the first of two address spaces the second is among the other pages in use. -/
theorem Space.swap (h0 : Space S' root tf n f k0)
    (h : Space (withSpace k0.mem root f n S) pt tf' m g k)
    (hk : Keeps (ptPages k0.mem root) k0 k) : Space (withSpace k.mem pt g m S) root tf n f k := by
  refine h0.back ?_ hk
  have ho := h.table.owned
  have hswap : withSpace k.mem pt g m (withSpace k0.mem root f n S) =
      withSpace k0.mem root f n (withSpace k.mem pt g m S) := by
    rw [withSpace, withSpace, withSpace, withSpace]
    ac_rfl
  exact hswap ▸ ho

/-- What exec() leaves of an address space: the old one, or a new one. The trapframe is written
only in the second case. -/
def ExecDone (S : Multiset Addr) (root tf : Addr) (n : Nat) (f : Nat → Option Word) (k : Kmem)
    (r : Option Program) (k' : Kmem) : Prop :=
  match r with
  | none => Keeps (pagesOf f 0 n + (tf ::ₘ S)) k k' ∧ Space (tf ::ₘ S) root tf n f k'
  | some p => Keeps S k k' ∧ ∃ g, Space (tf ::ₘ S) p.pagetable tf (pagesUp p.sz) g k'

/-- What exec() leaves of the memory: all pages as they were and the new ones given back, or a new
address space. -/
def ExecEnds (S : Multiset Addr) (root tf : Addr) (n : Nat) (f : Nat → Option Word) (k : Kmem)
    (r : Option Program) (k' : Kmem) : Prop :=
  match r with
  | none => Owned (withSpace k.mem root f n (tf ::ₘ S)) k' ∧
    Keeps (withSpace k.mem root f n (tf ::ₘ S)) k k'
  | some p => Keeps S k k' ∧ ∃ g, Space (tf ::ₘ S) p.pagetable tf (pagesUp p.sz) g k'

theorem Space.execDone (h0 : Space (tf ::ₘ S) root tf n f k0)
    (h : ExecEnds S root tf n f k0 r k) : ExecDone S root tf n f k0 r k := by
  cases r with
  | none => exact ⟨h.2.mono (Multiset.le_add_left _ _),
      h0.back h.1 (h.2.mono (Multiset.le_add_right _ _))⟩
  | some p => exact h

theorem Space.execBad (h : Space (withSpace k0.mem root f n (tf ::ₘ S)) pt tf (pagesUp sz) g k)
    (hk : Keeps (withSpace k0.mem root f n (tf ::ₘ S)) k0 k) :
    Ends (execBad pt sz) k (ExecEnds S root tf n f k0) := by
  rw [Mem.execBad]
  refine h.procFreepagetable.bind (fun _ k' hk' => ?_)
  rw [ends_pure]
  exact ⟨hk'.1, hk.trans hk'.2⟩

/-- The end of exec(): the trapframe is set and the old address space given back. -/
theorem Space.install (h0 : Space (tf ::ₘ S) root tf (pagesUp oldsz) f k0)
    (h : Space (withSpace k0.mem root f (pagesUp oldsz) (tf ::ₘ S)) pt tf n g k)
    (hk : Keeps (withSpace k0.mem root f (pagesUp oldsz) (tf ::ₘ S)) k0 k) (a : α) :
    Ends (do
      store tf tfA1 sp
      store tf tfEpc epc
      store tf tfSp sp
      Mem.procFreepagetable root oldsz
      pure a) k (fun r k' => r = a ∧ Keeps S k0 k' ∧ Keeps (pagesOf g 0 n) k k' ∧
        Space (tf ::ₘ S) pt tf n g k' ∧ k'.mem tf = update (update
          (update (k.mem tf) tfA1 sp) tfEpc epc) tfSp sp) := by
  have h2 := h
  rw [withSpace_cons] at h2
  refine (h2.storeOther _ _).bind (fun _ k3 h3 => ?_)
  refine (h3.2.1.storeOther _ _).bind (fun _ k4 h4 => ?_)
  refine (h4.2.1.storeOther _ _).bind (fun _ k5 h5 => ?_)
  have hstores := (h3.1.trans h4.1).trans h5.1
  have hk5 : Keeps (withSpace k0.mem root f (pagesUp oldsz) S) k0 k5 := by
    refine (hk.mono ?_).trans (hstores.mono (Multiset.le_add_left _ _))
    rw [withSpace_cons]
    exact Multiset.le_cons_self _ _
  have hnew := h5.2.1
  rw [← withSpace_cons] at hnew
  have hold := h0.swap hnew (hk5.mono (Multiset.le_add_right _ _))
  refine hold.procFreepagetable.bind (fun _ k6 h6 => ?_)
  rw [ends_pure]
  have hS : S ≤ pagesOf g 0 n + (tf ::ₘ S) :=
    (Multiset.le_cons_self S tf).trans (Multiset.le_add_left _ _)
  refine ⟨rfl, (hk5.mono ?_).trans (h6.2.mono (hS.trans (Multiset.le_add_left _ _))), ?_,
    hnew.back h6.1 (h6.2.mono (Multiset.le_add_right _ _)), ?_⟩
  · exact (Multiset.le_add_left _ _).trans (Multiset.le_add_left _ _)
  · refine (hstores.mono (Multiset.le_add_right _ _)).trans (h6.2.mono ?_)
    exact (Multiset.le_add_right _ _).trans (Multiset.le_add_left _ _)
  · have hmem : tf ∈ withSpace k5.mem pt g n (tf ::ₘ S) := by
      rw [withSpace_cons]
      exact Multiset.mem_cons_self _ _
    rw [h6.2 tf hmem, h5.2.2, h4.2.2, h3.2.2]

theorem Space.execCommit (h0 : Space (tf ::ₘ S) root tf (pagesUp oldsz) f k0)
    (h : Space (withSpace k0.mem root f (pagesUp oldsz) (tf ::ₘ S)) pt tf (pagesUp sz) g k)
    (hk : Keeps (withSpace k0.mem root f (pagesUp oldsz) (tf ::ₘ S)) k0 k) :
    Ends (execCommit tf root oldsz pt sz epc argv) k
      (ExecEnds S root tf (pagesUp oldsz) f k0) := by
  rw [Mem.execCommit]
  refine h.pushArgs.bind (fun r k1 h1 => ?_)
  have hk1 := hk.trans h1.1
  cases r with
  | none => exact h1.2.execBad hk1
  | some a =>
    obtain ⟨sp, ustack⟩ := a
    simp only
    refine .ite (fun _ => h1.2.execBad hk1) (fun _ => ?_)
    refine (h1.2.copyout _ _).bind (fun r k2 h2 => ?_)
    have hk2 := hk1.trans h2.1
    refine .ite (fun _ => h2.2.execBad hk2) (fun _ => ?_)
    refine (h0.install h2.2 hk2 _).mono (fun r k3 h3 => ?_)
    obtain ⟨rfl, hkeep, -, hnew, -⟩ := h3
    exact ⟨hkeep, g, hnew⟩

omit [Image] in
theorem pg_add_two (m : Nat) : pg m + BitVec.ofNat 64 ((USERSTACK + 1) * 4096) = pg (m + 2) := by
  rw [← pg_succ, ← pg_succ, add_assoc]
  rfl

omit [Image] in
theorem pg_sub_two (m : Nat) : pg (m + 2) - BitVec.ofNat 64 ((USERSTACK + 1) * 4096) = pg m := by
  rw [← pg_add_two, add_sub_cancel]

/-- The address space with its stack: the user may write to page m + 1 and may not use the page
below it. -/
structure Stacked (R : Multiset Addr) (pt tf sz : Addr) (m : Nat) (g : Nat → Option Word)
    (k : Kmem) : Prop where
  top : sz = pg (m + 2)
  space : Space R pt tf (m + 2) g k
  page : ∃ x, g (m + 1) = some (mkPte x (PTE_R ||| PTE_U ||| PTE_W))
  guard : ∃ y, g m = some (mkPte y (PTE_R ||| PTE_U ||| PTE_W) &&& ~~~PTE_U)

/-- What a part of exec() leaves: something to be freed at `bad`, or what G says. -/
def BuiltOk (R : Multiset Addr) (tf : Addr) (k : Kmem) (G : Addr → Addr → Kmem → Prop)
    (r : Built) (k' : Kmem) : Prop :=
  Keeps R k k' ∧
  match r with
  | .bad none _ => Owned R k'
  | .bad (some pt) sz => ∃ g, Space R pt tf (pagesUp sz) g k'
  | .ready pt sz => G pt sz k'

theorem execLoad_ends (ho : Owned R k) (tf : Addr) (ip : File) :
    Ends (execLoad tf ip) k (BuiltOk R tf k (fun pt sz k' => Loaded R pt tf sz k')) := by
  have hstop : BuiltOk R tf k (fun pt sz k' => Loaded R pt tf sz k') (.bad none 0) k :=
    ⟨fun _ _ => rfl, ho⟩
  rw [execLoad]
  simp only
  refine .ite (fun _ => ends_pure.mpr hstop) (fun _ => ?_)
  refine .ite (fun _ => ends_pure.mpr hstop) (fun _ => ?_)
  refine (procPagetable_ends ho tf).bind (fun r k1 h1 => ?_)
  obtain ⟨hk1, h1⟩ := h1
  cases r with
  | none => exact ends_pure.mpr ⟨hk1, h1⟩
  | some pt =>
    have hl : Loaded R pt tf 0 k1 := ⟨_, h1, fun i hi => absurd hi (Nat.not_lt_zero i)⟩
    refine hl.loadProgs.bind (fun r k2 h2 => ?_)
    obtain ⟨ok, sz⟩ := r
    have hk2 := hk1.trans h2.1
    simp only
    refine .ite (fun _ => ?_) (fun _ => ends_pure.mpr ⟨hk2, h2.2⟩)
    obtain ⟨g, hg, -⟩ := h2.2
    exact ends_pure.mpr ⟨hk2, g, hg⟩

theorem Loaded.execStack (h : Loaded R pt tf sz k) :
    Ends (execStack pt sz) k
      (BuiltOk R tf k (fun q sz k' => q = pt ∧ ∃ m g, Stacked R pt tf sz m g k')) := by
  obtain ⟨f, hs, -⟩ := h
  have hm := hs.small
  have hsz := lt_of_pagesUp hm
  generalize hpages : pagesUp sz = m at hs hm
  have hpg : pgroundup sz = pg m := by
    rw [← hpages]
    exact pgroundup_pg (by omega)
  have hup : pagesUp (pg m) = m := pagesUp_pg (by omega)
  have hs' : Space R pt tf (pagesUp (pg m)) f k := by
    rw [hup]
    exact hs
  have hnot : ¬ pg (m + 2) < pg m := by
    rw [lt_def, pg_toNat (by omega), pg_toNat (by omega)]
    omega
  have hne : pg (m + 2) ≠ 0 := by
    intro he
    have := congrArg BitVec.toNat he
    rw [pg_toNat (by omega)] at this
    simp at this
  simp only [Mem.execStack]
  rw [ends_bind, hpg, pg_add_two]
  refine (hs'.uvmalloc (pg (m + 2)) (by decide)).mono (fun r k1 h1 => ?_)
  obtain ⟨hk1, h1⟩ := h1
  have hk1 := hk1.mono (Multiset.le_add_left R _)
  rw [if_neg hnot, hup] at h1
  rcases h1 with ⟨rfl, h1⟩ | ⟨rfl, g, h1, ha, -⟩
  · rw [if_pos rfl]
    refine ends_pure.mpr ⟨hk1, f, ?_⟩
    rw [hup]
    exact h1
  rw [pagesUp_pg (by omega)] at h1 ha
  obtain ⟨y, hy⟩ := ha.new m (Nat.le_refl m) (by omega)
  obtain ⟨x, hx⟩ := ha.new (m + 1) (by omega) (by omega)
  rw [if_neg hne, ends_bind, pg_sub_two]
  refine (h1.uvmclear (by omega) hy).mono (fun _ k2 h2 => ?_)
  refine ends_pure.mpr ⟨hk1.trans (h2.1.mono (Multiset.le_add_left R _)), rfl, m, _, rfl, h2.2,
    ⟨x, ?_⟩, y, update_self ..⟩
  rw [update_of_ne (by omega)]
  exact hx

theorem Stacked.commit (h : Stacked R pt tf sz m g k) : Space R pt tf (pagesUp sz) g k := by
  have hs := h.space
  have hm := hs.small
  rw [h.top, pagesUp_pg (by omega)]
  exact hs

/-- At `bad` exec() gives back what it has built. -/
theorem BuiltOk.execUndo
    (h : BuiltOk (withSpace k0.mem root f n (tf ::ₘ S)) tf k G (.bad pt sz) k')
    (hk : Keeps (withSpace k0.mem root f n (tf ::ₘ S)) k0 k) :
    Ends (execUndo pt sz) k' (ExecEnds S root tf n f k0) := by
  cases pt with
  | none => exact ends_pure.mpr ⟨h.2, hk.trans h.1⟩
  | some pt =>
    obtain ⟨g, hg⟩ := h.2
    exact hg.execBad (hk.trans h.1)

theorem Space.exec_ends (h0 : Space (tf ::ₘ S) root tf (pagesUp oldsz) f k) :
    Ends (Mem.exec tf root oldsz ip argv) k (ExecEnds S root tf (pagesUp oldsz) f k) := by
  cases ip with
  | none => exact ends_pure.mpr ⟨h0.table.owned, fun _ _ => rfl⟩
  | some ip =>
    rw [exec_eq]
    refine (execLoad_ends h0.table.owned tf ip).bind (fun r k1 h1 => ?_)
    cases r with
    | bad pt sz => exact h1.execUndo (fun _ _ => rfl)
    | ready pt sz =>
      refine h1.2.execStack.bind (fun r k2 h2 => ?_)
      cases r with
      | bad q sz => exact h2.execUndo h1.1
      | ready q sz =>
        obtain ⟨hk2, rfl, m, g, hg⟩ := h2
        exact h0.execCommit hg.commit (h1.1.trans hk2)

/-- exec() replaces the address space or leaves it alone, whatever the file holds. -/
theorem Space.exec (h0 : Space (tf ::ₘ S) root tf (pagesUp oldsz) f k) :
    Ends (exec tf root oldsz ip argv) k (ExecDone S root tf (pagesUp oldsz) f k) :=
  h0.exec_ends.mono (fun _ _ h => h0.execDone h)

/-- The pages of the argument strings. -/
def argPages (argv : List (Addr × List Byte)) : Multiset Addr := (argv.map (·.1) : List Addr)

omit [Image] in
theorem argPages_cons (a : Addr × List Byte) (argv : List (Addr × List Byte)) :
    argPages (a :: argv) + R = a.1 ::ₘ (argPages argv + R) := by
  rw [← Multiset.cons_add]
  rfl

omit [Image] in
theorem argPages_snoc : argPages (argv ++ [(x, s)]) + R = x ::ₘ (argPages argv + R) := by
  rw [argPages, List.map_append, ← Multiset.coe_add, ← argPages, List.map_singleton,
    Multiset.add_comm (argPages argv), Multiset.coe_singleton, Multiset.singleton_add,
    Multiset.cons_add]

theorem Space.fetchArgs (h : Space (argPages argv + R) root tf n f k) :
    Ends (fetchArgs root sz uargv c i argv) k (fun r k' =>
      Keeps (pagesOf f 0 n + R) k k' ∧ Space (argPages r.2 + R) root tf n f k') := by
  induction c generalizing i argv k with
  | zero => exact ends_pure.mpr ⟨fun _ _ => rfl, h⟩
  | succ c ih =>
    rw [Mem.fetchArgs, ends_bind]
    refine fetchaddr_read (fun r => ?_)
    cases r with
    | none => exact ends_pure.mpr ⟨fun _ _ => rfl, h⟩
    | some uarg =>
      simp only
      refine .ite (fun _ => ends_pure.mpr ⟨fun _ _ => rfl, h⟩) (fun _ => ?_)
      have hle : pagesOf f 0 n + R ≤ pagesOf f 0 n + (argPages argv + R) :=
        Multiset.add_le_add_left (Multiset.le_add_left _ _)
      refine h.kalloc.bind (fun r k1 h1 => ?_)
      obtain ⟨hk1, h1⟩ := h1
      have hk1 := hk1.mono hle
      cases r with
      | none => exact ends_pure.mpr ⟨hk1, h1⟩
      | some x =>
        rw [ends_bind]
        refine fetchstr_read (fun r => ?_)
        cases r with
        | none =>
          refine ends_pure.mpr ⟨hk1, ?_⟩
          rw [argPages_snoc]
          exact h1
        | some s =>
          rw [ends_bind, ends_getPage, ends_bind, ends_setPage]
          obtain ⟨hk2, h2⟩ := h1.putOther (setBytes (k1.mem x) 0 (s ++ [0]))
          rw [← argPages_snoc (s := s)] at h2
          refine (ih h2).mono (fun _ k3 h3 => ?_)
          exact ⟨(hk1.trans (hk2.mono hle)).trans h3.1, h3.2⟩

theorem Space.freeArgs (h : Space (argPages argv + R) root tf n f k) :
    Ends (argv.forM (fun a => Mem.kfree a.1)) k (fun _ k' =>
      Keeps (pagesOf f 0 n + R) k k' ∧ Space R root tf n f k') := by
  refine (Ends.forM (fun argv k' => Keeps (pagesOf f 0 n + R) k k' ∧
    Space (argPages argv + R) root tf n f k') (fun a argv k1 h1 => ?_) ⟨fun _ _ => rfl, h⟩).mono ?_
  · obtain ⟨hk1, h1⟩ := h1
    rw [argPages_cons] at h1
    refine h1.kfree.mono (fun _ k2 h2 => ⟨hk1.trans (h2.1.mono ?_), h2.2⟩)
    exact Multiset.add_le_add_left (Multiset.le_add_left _ _)
  · intro _ k' hk
    have hs := hk.2
    rw [argPages, List.map_nil, Multiset.coe_nil, Multiset.zero_add] at hs
    exact ⟨hk.1, hs⟩

theorem Space.sysExec (h : Space (tf ::ₘ S) root tf (pagesUp sz) f k) :
    Ends (sysExec namei tf root sz upath uargv) k (ExecDone S root tf (pagesUp sz) f k) := by
  have hstay : ExecDone S root tf (pagesUp sz) f k none k := ⟨fun _ _ => rfl, h⟩
  rw [Mem.sysExec, ends_bind]
  refine fetchstr_read (fun r => ?_)
  cases r with
  | none => exact ends_pure.mpr hstay
  | some path =>
    have h0 : Space (argPages [] + (tf ::ₘ S)) root tf (pagesUp sz) f k := by
      rw [argPages, List.map_nil, Multiset.coe_nil, Multiset.zero_add]
      exact h
    refine h0.fetchArgs.bind (fun r k1 h1 => ?_)
    obtain ⟨ok, argv⟩ := r
    obtain ⟨hk1, h1⟩ := h1
    simp only
    rw [ends_ite]
    split
    · rw [Multiset.add_cons] at h1
      refine h1.exec.bind (fun r k2 h2 => ?_)
      rw [ends_bind]
      cases r with
      | none =>
        obtain ⟨hk2, h2⟩ := h2
        rw [← Multiset.add_cons] at h2 hk2
        refine h2.freeArgs.mono (fun _ k3 h3 => ?_)
        have hle := Multiset.add_le_add_left (s := pagesOf f 0 (pagesUp sz))
          (Multiset.le_add_left (tf ::ₘ S) (argPages argv))
        rw [ends_pure]
        exact ⟨(hk1.trans (hk2.mono hle)).trans h3.1, h3.2⟩
      | some p =>
        obtain ⟨hk2, g, h2⟩ := h2
        rw [← Multiset.add_cons] at h2
        refine h2.freeArgs.mono (fun _ k3 h3 => ?_)
        have hle : S ≤ tf ::ₘ S := Multiset.le_cons_self S tf
        rw [ends_pure]
        refine ⟨?_, g, h3.2⟩
        refine ((hk1.mono ?_).trans (hk2.mono ?_)).trans (h3.1.mono ?_)
        · exact hle.trans (Multiset.le_add_left _ _)
        · exact Multiset.le_add_left _ _
        · exact hle.trans (Multiset.le_add_left _ _)
    · refine h1.freeArgs.bind (fun _ k2 h2 => ?_)
      rw [ends_pure]
      exact ⟨hk1.trans h2.1, h2.2⟩

end Layout

end Xv6.Mem
