import Xv6.Mem.Bytes
import Xv6.Proc.Loops

namespace Xv6.Sysinfo
open Function Lib
open Loops (UserMem)
open Mem (Addr Word Byte Kmem Chain LOOPS PHYSTOP memfree memfree_eq ofBytes toBytes
  ofBytes_toBytes length_toBytes length_flatMap_toBytes bytes_of_word)

/-- The entries of pids in struct sysinfo. -/
def PIDS : Nat := 64

/-- struct sysinfo. It has no padding. -/
structure Info where
  uptime : Word
  freemem : Word
  totalmem : Word
  procs : Word
  pids : Nat → Word

def Info.words (x : Info) : List Word :=
  [x.uptime, x.freemem, x.totalmem, x.procs] ++ (List.range PIDS).map x.pids

def Info.bytes (x : Info) : List Byte := x.words.flatMap toBytes

/-- One turn of the loop over the process table: procs and pids[] so far. -/
def scan (t : Table) (x : Nat × (Nat → Word)) (i : Nat) : Nat × (Nat → Word) :=
  if (t i).state ≠ .unused then
    (x.1 + 1, update x.2 x.1 (BitVec.ofInt 64 (t i).pid))
  else x

/-- What sysinfo() finds on its stack before it writes to it: info and pids[]. -/
structure Stack where
  info : Info
  pids : Nat → Word

/-- info as it is when copyout() is called. -/
def fill (t : Table) (k : Kmem) (kend : Addr) (ticks : BitVec 32) (old : Stack) : Info :=
  let x := (List.range NPROC).foldl (scan t) (0, old.pids)
  { uptime := ticks.setWidth 64 / 10
    freemem := memfree k
    totalmem := PHYSTOP - kend
    procs := BitVec.ofNat 64 x.1
    pids := fun i => if i < x.1 then x.2 i else old.info.pids i }

/-- copyout() of a list of bytes, as far as it gets. -/
def copyout (m : UserMem) (addr : Nat) (bs : List Byte) : UserMem :=
  { m with byte := fun a =>
      if addr ≤ a ∧ a < addr + bs.length ∧ m.takes (a - addr + 1) addr = true then
        bs.getD (a - addr) 0
      else m.byte a }

def sysinfo (t : Table) (k : Kmem) (kend : Addr) (ticks : BitVec 32) (old : Stack) (m : UserMem)
    (kinfo : Nat) : Int × UserMem :=
  let bs := (fill t k kend ticks old).bytes
  (if m.takes bs.length kinfo then 0 else -1, copyout m kinfo bs)

/-- A word of user memory, and the struct at an address. -/
def wordAt (m : UserMem) (a : Nat) : Word :=
  BitVec.ofNat 64 (ofBytes ((List.range 8).map fun i => m.byte (a + i)))

def infoAt (m : UserMem) (a : Nat) : Info where
  uptime := wordAt m a
  freemem := wordAt m (a + 8)
  totalmem := wordAt m (a + 16)
  procs := wordAt m (a + 24)
  pids := fun i => wordAt m (a + 32 + 8 * i)

/-- The slots that hold a process, in table order. -/
def used (t : Table) : List Nat := (List.range NPROC).filter fun i => (t i).state ≠ .unused

/-- The struct says how many processes there are and which, and how much memory is free. -/
structure Reports (t : Table) (free : List Addr) (x : Info) : Prop where
  procs : x.procs.toNat = (used t).length
  pids : ∀ n i, (used t)[n]? = some i → x.pids n = BitVec.ofInt 64 (t i).pid
  rest : ∀ n, (used t).length ≤ n → n < PIDS → x.pids n = -1
  freemem : x.freemem.toNat = 4096 * free.length

theorem takes_of_le {m : UserMem} (h : m.takes n a = true) (hk : k ≤ n) : m.takes k a = true := by
  unfold UserMem.takes at h ⊢
  rw [List.all_eq_true] at h ⊢
  intro i hi
  apply h
  rw [List.mem_range] at hi ⊢
  omega

theorem wordAt_copyout {ws : List Word} (hm : m.takes (ws.flatMap toBytes).length a = true)
    (h : ws[j]? = some w) : wordAt (copyout m a (ws.flatMap toBytes)) (a + 8 * j) = w := by
  have hj : j < ws.length := (List.getElem?_eq_some_iff.mp h).1
  have hlen := length_flatMap_toBytes ws
  have hbytes : (List.range 8).map (fun i => (copyout m a (ws.flatMap toBytes)).byte
      (a + 8 * j + i)) = toBytes w := by
    rw [← bytes_of_word h]
    apply List.map_congr_left
    intro i hi
    rw [List.mem_range] at hi
    unfold copyout
    dsimp only
    rw [if_pos ⟨by omega, by omega, takes_of_le hm (by omega)⟩]
    congr 1
    omega
  rw [wordAt, hbytes, ofBytes_toBytes, BitVec.ofNat_toNat, BitVec.setWidth_eq]

theorem scan_fold (t : Table) (l : List Nat) (x : Nat × (Nat → Word)) :
    (l.foldl (scan t) x).1 = x.1 + (l.filter fun i => (t i).state ≠ .unused).length ∧
    (∀ n, n < x.1 → (l.foldl (scan t) x).2 n = x.2 n) ∧
    ∀ n i, (l.filter fun i => (t i).state ≠ .unused)[n]? = some i →
      (l.foldl (scan t) x).2 (x.1 + n) = BitVec.ofInt 64 (t i).pid := by
  induction l generalizing x with
  | nil => simp
  | cons a l ih =>
    obtain ⟨h1, h2, h3⟩ := ih (scan t x a)
    rw [List.foldl_cons]
    by_cases hu : (t a).state ≠ .unused
    · have hs : scan t x a = (x.1 + 1, update x.2 x.1 (BitVec.ofInt 64 (t a).pid)) :=
        if_pos hu
      rw [hs] at h1 h2 h3 ⊢
      dsimp only at h1 h2 h3
      rw [List.filter_cons_of_pos (by simpa using hu)]
      refine ⟨?_, ?_, ?_⟩
      · rw [h1, List.length_cons]
        omega
      · intro n hn
        rw [h2 n (by omega), update_of_ne (by omega)]
      · intro n i hi
        cases n with
        | zero =>
          cases hi
          exact (h2 x.1 (by omega)).trans (update_self ..)
        | succ n =>
          rw [← h3 n i hi, Nat.add_assoc, Nat.add_comm 1 n]
    · have hs : scan t x a = x := if_neg hu
      rw [hs] at h1 h2 h3 ⊢
      rw [List.filter_cons_of_neg (by simpa using hu)]
      exact ⟨h1, h2, h3⟩

theorem Info.getElem_words (x : Info) (h : n < PIDS) : x.words[4 + n]? = some (x.pids n) := by
  unfold Info.words
  rw [List.getElem?_append_right (Nat.le_add_right 4 n)]
  simp [h]

theorem Info.length_bytes (x : Info) : x.bytes.length = 544 := by
  rw [Info.bytes, length_flatMap_toBytes]
  rfl

/-- The call returns 0 when the whole struct fits at kinfo, whatever is in it. -/
theorem sysinfo_returns (t : Table) (k : Kmem) (kend : Addr) (ticks : BitVec 32) (old : Stack)
    (m : UserMem) (kinfo : Nat) :
    (sysinfo t k kend ticks old m kinfo).1 = 0 ↔ m.takes 544 kinfo = true := by
  unfold sysinfo
  dsimp only
  rw [Info.length_bytes]
  by_cases hm : m.takes 544 kinfo = true <;> simp [hm]

/-- What the program finds at kinfo is what was on the kernel's stack. -/
structure Copied (x y : Info) : Prop where
  freemem : x.freemem = y.freemem
  procs : x.procs = y.procs
  pids : ∀ n, n < PIDS → x.pids n = y.pids n

theorem sysinfo_copied {m : UserMem} (hm : m.takes 544 kinfo = true) :
    Copied (infoAt (sysinfo t k kend ticks old m kinfo).2 kinfo) (fill t k kend ticks old) := by
  have hm' := (fill t k kend ticks old).length_bytes ▸ hm
  constructor
  · exact wordAt_copyout (j := 1) hm' rfl
  · exact wordAt_copyout (j := 3) hm' rfl
  · intro n hn
    have := wordAt_copyout hm' ((fill t k kend ticks old).getElem_words hn)
    rwa [Nat.mul_add, ← Nat.add_assoc] at this

theorem length_used (t : Table) : (used t).length ≤ NPROC :=
  (List.length_filter_le _ _).trans (List.length_range ..).le

theorem used_lt (h : (used t)[n]? = some i) : n < (used t).length :=
  (List.getElem?_eq_some_iff.mp h).1

theorem fill_procs (t : Table) (k : Kmem) (kend : Addr) (ticks : BitVec 32) (old : Stack) :
    (fill t k kend ticks old).procs = BitVec.ofNat 64 (used t).length := by
  have hscan := (scan_fold t (List.range NPROC) (0, old.pids)).1
  rw [Nat.zero_add] at hscan
  exact congrArg (BitVec.ofNat 64) hscan

theorem fill_pids (h : (used t)[n]? = some i) :
    (fill t k kend ticks old).pids n = BitVec.ofInt 64 (t i).pid := by
  obtain ⟨h1, -, h3⟩ := scan_fold t (List.range NPROC) (0, old.pids)
  have hlt : n < ((List.range NPROC).foldl (scan t) (0, old.pids)).1 := by
    rw [h1, Nat.zero_add]
    exact used_lt h
  have := h3 n i h
  rw [Nat.zero_add] at this
  exact (if_pos hlt).trans this

theorem fill_rest (h : (used t).length ≤ n) :
    (fill t k kend ticks old).pids n = old.info.pids n := by
  have h1 := (scan_fold t (List.range NPROC) (0, old.pids)).1
  apply if_neg
  rw [h1, Nat.zero_add]
  exact Nat.not_lt.mpr h

theorem length_used_eq (t : Table) :
    (used t).length = NPROC ↔ ∀ i, i < NPROC → (t i).state ≠ .unused := by
  have h : NPROC = (List.range NPROC).length := (List.length_range ..).symm
  unfold used
  nth_rewrite 2 [h]
  rw [List.length_filter_eq_length_iff]
  simp

/-- With a process in every slot the stack leaves no trace. -/
theorem fill_full (h : (used t).length = NPROC) (old old' : Stack) :
    (fill t k kend ticks old).bytes = (fill t k kend ticks old').bytes := by
  have hpids : (List.range PIDS).map (fill t k kend ticks old).pids =
      (List.range PIDS).map (fill t k kend ticks old').pids := by
    apply List.map_congr_left
    intro n hn
    have hlt : n < (used t).length := by
      rw [h]
      exact List.mem_range.mp hn
    have hi := List.getElem?_eq_getElem hlt
    rw [fill_pids hi, fill_pids hi]
  unfold Info.bytes Info.words
  rw [hpids, fill_procs, fill_procs]
  rfl

theorem reports_iff {m : UserMem} (hc : Chain k.mem k.freelist free)
    (ha : ∀ x ∈ free, x.toNat % 4096 = 0) (hm : m.takes 544 kinfo = true) :
    Reports t free (infoAt (sysinfo t k kend ticks old m kinfo).2 kinfo) ↔
      ∀ n, (used t).length ≤ n → n < PIDS → old.info.pids n = -1 := by
  have hx : Copied (infoAt (sysinfo t k kend ticks old m kinfo).2 kinfo)
      (fill t k kend ticks old) := sysinfo_copied hm
  constructor
  · intro h n hle hlt
    have hpid := hx.pids n hlt
    rw [fill_rest hle, h.rest n hle hlt] at hpid
    exact hpid.symm
  · intro h
    have hlen := length_used t
    constructor
    · rw [hx.procs, fill_procs, BitVec.toNat_ofNat]
      apply Nat.mod_eq_of_lt
      exact hlen.trans_lt (by decide)
    · intro n i hi
      rw [hx.pids n ((used_lt hi).trans_le hlen), fill_pids hi]
    · intro n hle hlt
      rw [hx.pids n hlt, fill_rest hle, h n hle hlt]
    · have hfree := hc.length_lt ha
      rw [hx.freemem, show (fill t k kend ticks old).freemem = memfree k from rfl,
        memfree_eq hc ha, BitVec.toNat_ofNat]
      rw [LOOPS] at hfree
      omega

/-- The struct is right when the words of the stack under the rest of pids[] happened to be -1.
    It does not depend on the stack when every slot is in use, and only then. -/
theorem sysinfo_reports {t : Table} {k : Kmem} {kend : Addr} {ticks : BitVec 32} {old : Stack}
    {m : UserMem} {kinfo : Nat} {free : List Addr} (hc : Chain k.mem k.freelist free)
    (ha : ∀ x ∈ free, x.toNat % 4096 = 0)
    (h : (sysinfo t k kend ticks old m kinfo).1 = 0) :
    (Reports t free (infoAt (sysinfo t k kend ticks old m kinfo).2 kinfo) ↔
      ∀ n, (used t).length ≤ n → n < PIDS → old.info.pids n = -1) ∧
    ((∀ s s', sysinfo t k kend ticks s m kinfo = sysinfo t k kend ticks s' m kinfo) ↔
      ∀ i, i < NPROC → (t i).state ≠ .unused) := by
  have hm := (sysinfo_returns ..).mp h
  refine ⟨reports_iff hc ha hm, ?_⟩
  rw [← length_used_eq]
  constructor
  · intro heq
    by_contra hne
    have hlt : (used t).length < PIDS := lt_of_le_of_ne (length_used t) hne
    -- two stacks that differ in the first word after the pids
    let zero : Info := ⟨0, 0, 0, 0, fun _ => 0⟩
    let ones : Info := ⟨0, 0, 0, 0, fun _ => -1⟩
    have hpid : ∀ s : Stack, (infoAt (sysinfo t k kend ticks s m kinfo).2 kinfo).pids
        (used t).length = s.info.pids (used t).length := by
      intro s
      rw [(sysinfo_copied hm).pids _ hlt, fill_rest (Nat.le_refl _)]
    have h0 := hpid ⟨zero, fun _ => 0⟩
    rw [heq _ ⟨ones, fun _ => 0⟩, hpid] at h0
    have hne : (-1 : Word) ≠ 0 := by decide
    exact hne h0
  · intro hfull s s'
    unfold sysinfo
    rw [fill_full hfull s s']

/-- init alone, in slot 0. -/
def initOnly : Table := fun i => if i = 0 then { state := .running, pid := 1 } else {}

/-- Two free pages. -/
def twoPages : Kmem where
  mem x := fun _ => if x = 0x80011000 then 0x80010000 else 0
  freelist := 0x80011000
  luck _ := true

theorem twoPages_chain : Chain twoPages.mem twoPages.freelist [0x80011000, 0x80010000] := by
  refine .cons _ _ (by decide) (.cons _ _ (by decide) ?_)
  exact .nil

theorem twoPages_aligned :
    ∀ x ∈ ([0x80011000, 0x80010000] : List Addr), x.toNat % 4096 = 0 := by simp

/-- User memory that takes every byte. -/
def writable : UserMem where
  byte _ := 0
  readable _ := true
  writable _ := true

/-- A stack on which an earlier call left one word everywhere. -/
def stale (w : Word) : Stack where
  info := ⟨w, w, w, w, fun _ => w⟩
  pids _ := w

theorem sysinfo_reports_ones :
    Reports initOnly [0x80011000, 0x80010000]
      (infoAt (sysinfo initOnly twoPages 0x80009000 7 (stale (-1)) writable 0x1000).2 0x1000) :=
  (sysinfo_reports twoPages_chain twoPages_aligned
    ((sysinfo_returns ..).mpr (by decide +kernel))).1.mpr fun _ _ _ => rfl

/-- An old return address of the kernel is copied out as the second pid. -/
theorem sysinfo_leaks_stack :
    (sysinfo initOnly twoPages 0x80009000 7 (stale 0x80002a4c) writable 0x1000).1 = 0 ∧
    (infoAt (sysinfo initOnly twoPages 0x80009000 7 (stale 0x80002a4c) writable 0x1000).2
      0x1000).pids 1 = 0x80002a4c ∧
    ¬ Reports initOnly [0x80011000, 0x80010000]
      (infoAt (sysinfo initOnly twoPages 0x80009000 7 (stale 0x80002a4c) writable 0x1000).2
        0x1000) := by
  have hm : writable.takes 544 0x1000 = true := by decide +kernel
  have hlen : (used initOnly).length = 1 := by decide +kernel
  refine ⟨(sysinfo_returns ..).mpr hm, ?_, ?_⟩
  · rw [(sysinfo_copied hm).pids 1 (by decide), fill_rest (by rw [hlen])]
    rfl
  · rw [reports_iff twoPages_chain twoPages_aligned hm]
    intro h
    have h1 := h 1 (by rw [hlen]) (by decide)
    have hne : (0x80002a4c : Word) ≠ -1 := by decide
    exact hne h1

end Xv6.Sysinfo
