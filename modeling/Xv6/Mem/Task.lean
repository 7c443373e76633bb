import Xv6.Mem.Exec
import Xv6.Proc.Table

namespace Xv6.Mem
open Lib.Radix Multiset Lib

/-- struct proc with its memory. -/
structure Task extends Proc where
  trapframe : Addr := 0
  pagetable : Addr := 0
  sz : Addr := 0

/-- The test `if(p)` before a pointer is used. -/
def unlessNull (p : Addr) (x : Km Unit) : Km Unit := if p = 0 then pure () else x

section Layout
variable [Image]

/-- The result is what is left of the slot. -/
def freeproc (p : Task) : Km Task := do
  unlessNull p.trapframe (kfree p.trapframe)
  unlessNull p.pagetable (procFreepagetable p.pagetable p.sz)
  pure {}

/-- On the slot that the scan has found UNUSED. False is the return of 0. -/
def allocproc (p : Task) (pid : Int) : Km (Bool × Task) := do
  match ← kalloc with
  | none => do
    let p ← freeproc { p with pid := pid, state := .used, trapframe := 0 }
    pure (false, p)
  | some tf => do
    match ← procPagetable tf with
    | none => do
      let p ← freeproc { p with pid := pid, state := .used, trapframe := tf, pagetable := 0 }
      pure (false, p)
    | some pt =>
      pure (true, { p with pid := pid, state := .used, trapframe := tf, pagetable := pt })

/-- The 36 words of a trapframe are copied. -/
def copyTrapframe (src dst : Addr) : Km Unit := do
  let t ← getPage src
  let t' ← getPage dst
  setPage dst (fun i => if i = tfA0 then 0 else if i.val < 36 then t i else t' i)

/-- fork() by the process p in slot self, on the UNUSED slot np. -/
def fork (self : Nat) (p np : Task) (pid : Int) : Km (Task × Int) := do
  match ← allocproc np pid with
  | (false, np) => pure (np, -1)
  | (true, np) => do
    let r ← uvmcopy p.pagetable np.pagetable p.sz
    if r < 0 then do
      let np ← freeproc np
      pure (np, -1)
    else do
      copyTrapframe p.trapframe np.trapframe
      pure ({ np with sz := p.sz, parent := some self, state := .runnable }, pid)

def growproc (p : Task) (n : BitVec 32) : Km (Task × Int) :=
  if 0 < n.toInt then do
    let sz ← uvmalloc p.pagetable p.sz (p.sz + n.signExtend 64) PTE_W
    if sz = 0 then pure (p, -1) else pure ({ p with sz := sz }, 0)
  else if n.toInt < 0 then do
    let sz ← uvmdealloc p.pagetable p.sz (p.sz + n.signExtend 64)
    pure ({ p with sz := sz }, 0)
  else pure (p, 0)

/-- exec() by p, with the system call around it. -/
def execTask (namei : List Byte → Option File) (p : Task) (upath uargv : Addr) :
    Km (Task × Int) := do
  match ← sysExec namei p.trapframe p.pagetable p.sz upath uargv with
  | none => pure (p, -1)
  | some prog => pure ({ p with pagetable := prog.pagetable, sz := prog.sz }, prog.argc)

/-- What wait() does before it frees the child: false when the status cannot be delivered. -/
def deliver (p : Task) (addr : Addr) (xstate : Int) : Km Bool :=
  if addr = 0 then pure true
  else do
    let r ← copyout p.pagetable addr ((toBytes (BitVec.ofInt 64 xstate)).take 4)
    pure (decide (0 ≤ r))

/-- Without memory the source goes on with a null pointer, and it ignores the result of
mappages(). None and false stand for these. -/
def uvmfirst (pagetable : Addr) (src : List Byte) : Km (Option Bool) :=
  if 4096 ≤ src.length then panic .first
  else do
    match ← kalloc with
    | none => pure none
    | some mem => do
      setPage mem 0
      let r ← mappages pagetable 0 PGSIZE mem (PTE_W ||| PTE_R ||| PTE_X ||| PTE_U)
      setPage mem (setBytes 0 0 src)
      pure (some (decide (r = 0)))

def initcode : List Byte :=
  [0x17, 0x05, 0x00, 0x00, 0x13, 0x05, 0x45, 0x02, 0x97, 0x05, 0x00, 0x00, 0x93, 0x85, 0x35, 0x02,
    0x93, 0x08, 0x70, 0x00, 0x73, 0x00, 0x00, 0x00, 0x93, 0x08, 0x20, 0x00, 0x73, 0x00, 0x00, 0x00,
    0xef, 0xf0, 0x9f, 0xff, 0x2f, 0x69, 0x6e, 0x69, 0x74, 0x00, 0x00, 0x24, 0x00, 0x00, 0x00, 0x00,
    0x00, 0x00, 0x00, 0x00]

/-- userinit() on the first slot. None when it does not succeed. -/
def userinit : Km (Option Task) := do
  match ← allocproc {} 1 with
  | (false, _) => pure none
  | (true, p) => do
    match ← uvmfirst p.pagetable initcode with
    | some true => do
      store p.trapframe tfEpc 0
      store p.trapframe tfSp PGSIZE
      pure (some { p with sz := PGSIZE, state := .runnable })
    | _ => pure none

end Layout

/-- The pages that belong to a process. -/
def Task.pages (m : Addr → Page) (t : Task) : Multiset Addr :=
  if t.state = .unused then 0
  else withSpace m t.pagetable (lookup m t.pagetable) (pagesUp t.sz) {t.trapframe}

section Layout
variable [Image]

/-- The address space of a process, as it lies in memory. -/
structure Mapped (m : Addr → Page) (t : Task) : Prop where
  pointers : PointersOk m 2 t.pagetable
  exact : Exact t.trapframe (pagesUp t.sz) (lookup m t.pagetable)
  low : ∀ n, USERPAGES ≤ n → lookup m t.pagetable n = none

/-- A slot of the process table: a free one has no memory, the others have an address space. -/
structure Task.Good (m : Addr → Page) (t : Task) : Prop where
  free : t.state = .unused → t.trapframe = 0 ∧ t.pagetable = 0 ∧ t.sz = 0
  live : t.state ≠ .unused → Mapped m t

/-- A slot and its pages, with R the other pages in use. -/
structure Holds (R : Multiset Addr) (t : Task) (k : Kmem) : Prop where
  owned : Owned (t.pages k.mem + R) k
  good : t.Good k.mem

omit [Image] in
theorem Task.pages_live (m : Addr → Page) {t : Task} (hl : t.state ≠ .unused)
    (R : Multiset Addr) : t.pages m + R =
      withSpace m t.pagetable (lookup m t.pagetable) (pagesUp t.sz) (t.trapframe ::ₘ R) := by
  rw [Task.pages, if_neg hl, withSpace, withSpace, add_assoc, add_assoc,
    singleton_add]

omit [Image] in
theorem Task.pages_free (m : Addr → Page) {t : Task} (hl : t.state = .unused) : t.pages m = 0 :=
  if_pos hl

theorem Holds.space (h : Holds R t k) (hl : t.state ≠ .unused) :
    Space (t.trapframe ::ₘ R) t.pagetable t.trapframe (pagesUp t.sz)
      (lookup k.mem t.pagetable) k := by
  have hm := h.good.live hl
  have ho := h.owned
  rw [t.pages_live k.mem hl R] at ho
  exact ⟨⟨ho, hm.pointers, rfl, hm.low⟩, hm.exact⟩

theorem Space.holds (h : Space (t.trapframe ::ₘ R) t.pagetable t.trapframe (pagesUp t.sz) f k)
    (hl : t.state ≠ .unused) : Holds R t k := by
  have hf := h.table.map
  subst hf
  refine ⟨?_, fun he => absurd he hl, fun _ => ⟨h.table.pointers, h.exact, h.table.low⟩⟩
  rw [t.pages_live k.mem hl R]
  exact h.table.owned

theorem holds_free (ho : Owned R k) : Holds R {} k := by
  refine ⟨?_, fun _ => ⟨rfl, rfl, rfl⟩, fun h => absurd rfl h⟩
  rw [Task.pages_free k.mem rfl, zero_add]
  exact ho

theorem Holds.freeproc (h : Holds R t k) (hl : t.state ≠ .unused) :
    Ends (freeproc t) k (fun t' k' => t' = {} ∧ Keeps R k k' ∧ Owned R k') := by
  have hs := h.space hl
  have htf : t.trapframe ≠ 0 := by
    refine page_ne_zero (hs.table.owned.mem_pages ?_)
    exact mem_add.mpr (.inr (mem_add.mpr (.inr (mem_cons_self _ _))))
  have hpt : t.pagetable ≠ 0 :=
    page_ne_zero (hs.table.owned.mem_pages (mem_add.mpr (.inl root_mem)))
  rw [Mem.freeproc, unlessNull, if_neg htf, unlessNull, if_neg hpt]
  refine hs.kfree.bind (fun _ k1 h1 => ?_)
  refine h1.2.procFreepagetable.bind (fun _ k2 h2 => ?_)
  rw [ends_pure]
  exact ⟨rfl, (h1.1.mono (le_add_left R _)).trans h2.2, h2.1⟩

theorem freeproc_null (h0 : t.trapframe = 0) (h1 : t.pagetable = 0) :
    Ends (freeproc t) k Q ↔ Q {} k := by
  rw [freeproc, unlessNull, if_pos h0, unlessNull, if_pos h1, ends_bind, ends_pure, ends_bind,
    ends_pure, ends_pure]

theorem freeproc_trapframe (ho : Owned (t.trapframe ::ₘ R) k) (h1 : t.pagetable = 0) :
    Ends (freeproc t) k (fun t' k' => t' = {} ∧ Keeps R k k' ∧ Owned R k') := by
  have htf := page_ne_zero (ho.mem_pages (mem_cons_self _ R))
  rw [freeproc, unlessNull, if_neg htf, unlessNull, if_pos h1]
  refine (kfree_keeps ho).bind (fun _ k' hk => ?_)
  rw [ends_bind, ends_pure, ends_pure]
  exact ⟨rfl, hk⟩

/-- allocproc() on a free slot makes an empty address space, or gives everything back. -/
theorem allocproc_ends (ho : Owned R k) (hz : t.trapframe = 0 ∧ t.pagetable = 0 ∧ t.sz = 0) :
    Ends (allocproc t pid) k (fun r k' => Keeps R k k' ∧
      (r = (false, {}) ∧ Owned R k' ∨
        r.1 = true ∧ r.2.state = .used ∧ r.2.pid = pid ∧ r.2.sz = 0 ∧
          Space (r.2.trapframe ::ₘ R) r.2.pagetable r.2.trapframe 0
            (emptySpace r.2.trapframe) k')) := by
  rw [allocproc]
  refine (kalloc_keeps ho).bind (fun r k1 h1 => ?_)
  obtain ⟨hk1, h1⟩ := h1
  cases r with
  | none =>
    rw [ends_bind]
    refine (freeproc_null ?_ ?_).mpr ?_
    · rfl
    · exact hz.2.1
    · exact ends_pure.mpr ⟨hk1, .inl ⟨rfl, h1⟩⟩
  | some tf =>
    refine (procPagetable_ends h1 tf).bind (fun r k2 h2 => ?_)
    have hk2 := hk1.trans (h2.1.mono (le_cons_self R tf))
    cases r with
    | none =>
      refine Ends.bind (freeproc_trapframe h2.2 rfl) (fun t' k3 h3 => ?_)
      obtain ⟨rfl, hk3, h3⟩ := h3
      exact ends_pure.mpr ⟨hk2.trans hk3, .inl ⟨rfl, h3⟩⟩
    | some pt => exact ends_pure.mpr ⟨hk2, .inr ⟨rfl, rfl, rfl, hz.2.2, h2.2⟩⟩

omit [Image] in
theorem Lies.mono (h : Lies R root f k) (hs : R ≤ S) : Lies S root f k :=
  ⟨fun x hx => mem_of_le hs (h.inside x hx), h.map⟩

/-- The child np of p that fork() leaves, from memory k to k'. -/
structure Forked (parent : Nat) (p np : Task) (pid : Int) (k k' : Kmem) : Prop where
  pid : np.pid = pid
  parent : np.parent = some parent
  state : np.state = .runnable
  sz : np.sz = p.sz
  pages : Copied (lookup k'.mem p.pagetable) (lookup k'.mem np.pagetable) (pagesUp p.sz) k'
  regs : ∀ i : Fin 512, i.val < 36 →
    k'.mem np.trapframe i = if i = tfA0 then 0 else k.mem p.trapframe i

/-- fork() fills the free slot with a copy of its parent, or gives back all it has taken. -/
theorem fork_ends (ho : Owned R k) (hz : np.trapframe = 0 ∧ np.pagetable = 0 ∧ np.sz = 0)
    (hp : Lies R p.pagetable f k) (hu : ∀ i < pagesUp p.sz, ∃ w, f i = some w ∧ Has w PTE_R)
    (hR : ∀ i < pagesUp p.sz, ∀ w, f i = some w → pte2pa w ∈ R) (htf : p.trapframe ∈ R) :
    Ends (fork self p np pid) k (fun r k' => Keeps R k k' ∧
      (r = ({}, -1) ∧ Owned R k' ∨
        r.2 = pid ∧ Holds R r.1 k' ∧ Forked self p r.1 pid k k')) := by
  rw [fork]
  refine (allocproc_ends ho hz).bind (fun r k1 h1 => ?_)
  obtain ⟨hk1, ⟨rfl, h1⟩ | ⟨hok, hst, hpid, hsz, h1⟩⟩ := h1
  · exact ends_pure.mpr ⟨hk1, .inl ⟨rfl, h1⟩⟩
  obtain ⟨ok, np⟩ := r
  obtain rfl : ok = true := hok
  have hle := le_cons_self R np.trapframe
  have hR' : ∀ i < pagesUp p.sz, ∀ w, f i = some w → pte2pa w ∈ np.trapframe ::ₘ R :=
    fun i hi w hw => mem_of_le hle (hR i hi w hw)
  simp only at hst hpid hsz h1 ⊢
  refine (h1.uvmcopy ((hp.keeps hk1).mono hle) hu hR').bind (fun r k2 h2 => ?_)
  have hk2 := hk1.trans (h2.1.mono hle)
  obtain ⟨-, ⟨rfl, g, h2, hc⟩ | ⟨rfl, g, h2⟩⟩ := h2
  · rw [if_neg (by decide), copyTrapframe]
    simp only [ends_bind, ends_getPage, ends_setPage, ends_pure]
    obtain ⟨hk3, h3⟩ := h2.putOther (fun i => if i = tfA0 then 0 else
      if i.val < 36 then k2.mem p.trapframe i else k2.mem np.trapframe i)
    have hkeep := hk2.trans (hk3.mono (le_add_left R _))
    refine ⟨hkeep, .inr ⟨trivial, ?_, hpid, rfl, rfl, rfl, ?_, ?_⟩⟩
    · exact Space.holds (t := { np with sz := p.sz, parent := some self, state := .runnable }) h3
        (by simp)
    · simp only
      rw [(hp.keeps hkeep).map, h3.table.map]
      exact hc.keeps hR hk3
    · intro i hi
      simp only
      rw [put_self, if_pos hi, hk2 _ htf]
  · have hused : np.state ≠ .unused := by simp [hst]
    have hs : Holds R np k2 := by
      refine Space.holds (f := g) ?_ hused
      rw [hsz]
      exact h2
    rw [if_pos (by decide)]
    refine (hs.freeproc hused).bind (fun t' k3 h3 => ?_)
    obtain ⟨rfl, hk3, h3⟩ := h3
    exact ends_pure.mpr ⟨hk2.trans hk3, .inl ⟨rfl, h3⟩⟩

theorem Holds.growproc (h : Holds R t k) (hl : t.state ≠ .unused) (n : BitVec 32) :
    Ends (growproc t n) k (fun r k' => Keeps R k k' ∧ Holds R r.1 k' ∧ r.1.toProc = t.toProc) := by
  have hs := h.space hl
  have hle : ∀ S : Multiset Addr, R ≤ S + (t.trapframe ::ₘ R) := fun S =>
    (le_cons_self R _).trans (le_add_left _ _)
  rw [Mem.growproc, ends_ite]
  split
  · refine (hs.uvmalloc (t.sz + n.signExtend 64) (by decide)).bind (fun r k1 h1 => ?_)
    obtain ⟨hk1, h1⟩ := h1
    have hk1 := hk1.mono (hle _)
    by_cases hr : r = 0
    · rw [if_pos hr]
      rcases h1 with ⟨-, h1⟩ | ⟨hr', g, h1, ha⟩
      · exact ends_pure.mpr ⟨hk1, h1.holds hl, rfl⟩
      · have hzero := pagesUp_of_zero hr hr'
        rw [hzero] at h1
        exact ends_pure.mpr ⟨hk1, h1.holds hl, rfl⟩
    · rw [if_neg hr]
      obtain ⟨-, g, h1, -⟩ := h1.resolve_left (fun h => hr h.1)
      exact ends_pure.mpr ⟨hk1, Space.holds (t := { t with sz := r }) h1 hl, rfl⟩
  · rw [ends_ite]
    split
    · refine (hs.uvmdealloc (t.sz + n.signExtend 64)).bind (fun r k1 h1 => ?_)
      exact ends_pure.mpr
        ⟨h1.2.1.mono (hle _), Space.holds (t := { t with sz := r }) h1.2.2 hl, rfl⟩
    · exact ends_pure.mpr ⟨fun _ _ => rfl, h, rfl⟩

theorem Holds.execTask (h : Holds R t k) (hl : t.state ≠ .unused) (upath uargv : Addr) :
    Ends (execTask namei t upath uargv) k (fun r k' =>
      Keeps R k k' ∧ Holds R r.1 k' ∧ r.1.toProc = t.toProc) := by
  rw [Mem.execTask]
  refine (h.space hl).sysExec.bind (fun r k1 h1 => ?_)
  cases r with
  | none =>
    have hle : R ≤ pagesOf (lookup k.mem t.pagetable) 0 (pagesUp t.sz) + (t.trapframe ::ₘ R) :=
      (le_cons_self R _).trans (le_add_left _ _)
    exact ends_pure.mpr ⟨h1.1.mono hle, h1.2.holds hl, rfl⟩
  | some prog =>
    obtain ⟨hk1, g, h1⟩ := h1
    exact ends_pure.mpr ⟨hk1,
      Space.holds (t := { t with pagetable := prog.pagetable, sz := prog.sz }) h1 hl, rfl⟩

theorem Holds.copyout (h : Holds R t k) (hl : t.state ≠ .unused) (dstva : Addr) (src : List Byte) :
    Ends (copyout t.pagetable dstva src) k (fun _ k' => Keeps R k k' ∧ Holds R t k') :=
  ((h.space hl).copyout dstva src).mono (fun _ _ hk =>
    ⟨hk.1.mono (le_cons_self R _), hk.2.holds hl⟩)

theorem Holds.deliver (h : Holds R t k) (hl : t.state ≠ .unused) (addr : Addr) (xstate : Int) :
    Ends (deliver t addr xstate) k (fun _ k' => Keeps R k k' ∧ Holds R t k') := by
  rw [Mem.deliver, ends_ite]
  split
  · exact ends_pure.mpr ⟨fun _ _ => rfl, h⟩
  · exact (h.copyout hl _ _).bind (fun _ _ hk => ends_pure.mpr hk)

omit [Image] in
theorem pg_zero : (0 : Addr) = pg 0 := rfl

/-- A userinit() that succeeds makes the first process. -/
theorem userinit_ends (ho : Owned R k) :
    Ends userinit k (fun r k' => ∀ t, r = some t → t.state = .runnable ∧ Holds R t k') := by
  rw [userinit]
  refine (allocproc_ends ho ⟨rfl, rfl, rfl⟩).bind (fun r k1 h1 => ?_)
  obtain ⟨-, ⟨rfl, h1⟩ | ⟨hok, hst, -, hsz, h1⟩⟩ := h1
  · refine ends_pure.mpr (fun t ht => ?_)
    cases ht
  obtain ⟨ok, p⟩ := r
  obtain rfl : ok = true := hok
  simp only
  rw [ends_bind, uvmfirst, if_neg (by decide)]
  refine h1.kalloc.bind (fun r k2 h2 => ?_)
  cases r with
  | none =>
    refine ends_pure.mpr (ends_pure.mpr (fun t ht => ?_))
    cases ht
  | some x =>
    obtain ⟨-, h2⟩ := h2
    rw [ends_bind, ends_setPage, ends_bind, pg_zero]
    refine ((h2.putOther 0).2.mapPage (by decide) (by decide)).mono (fun r k3 h3 => ?_)
    rw [ends_bind, ends_setPage, ends_pure]
    obtain ⟨-, ⟨rfl, h3⟩ | ⟨rfl, h3⟩⟩ := h3
    · have hx : x ∈ pages := h2.table.owned.mem_pages
        (mem_add.mpr (.inr (mem_add.mpr (.inr (mem_cons_self x _)))))
      have hpa : pte2pa (mkPte x (PTE_W ||| PTE_R ||| PTE_X ||| PTE_U)) = x :=
        pte2pa_mkPte (page_aligned hx) (by decide)
      have hmem : x ∈ pagesOf (Function.update (emptySpace p.trapframe) 0
          (some (mkPte x (PTE_W ||| PTE_R ||| PTE_X ||| PTE_U)))) 0 (0 + 1) := by
        rw [pagesOf_snoc, Function.update_self, Option.elim_some, hpa]
        exact mem_cons_self x _
      have h4 := h3.put (mem_add.mpr (.inl hmem)) (setBytes 0 0 initcode)
      rw [decide_eq_true rfl]
      refine (h4.storeOther tfEpc 0).bind (fun _ k5 h5 => ?_)
      refine (h5.2.1.storeOther tfSp PGSIZE).bind (fun _ k6 h6 => ?_)
      refine ends_pure.mpr (fun t ht => ?_)
      cases ht
      have hone : 0 + 1 = pagesUp PGSIZE := by decide
      have h7 := h6.2.1
      rw [hone] at h7
      exact ⟨rfl, Space.holds (t := { p with sz := PGSIZE, state := .runnable }) h7 (by simp)⟩
    · refine ends_pure.mpr (fun t ht => ?_)
      cases ht

end Layout

end Xv6.Mem
