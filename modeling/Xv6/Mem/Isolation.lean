import Xv6.Mem.Bytes
import Xv6.Mem.Owners

namespace Xv6.Mem
open Lib.Radix Multiset Lib

/-- The entry of a page table that walk() finds for a virtual address. -/
def Task.pte (m : Addr → Page) (t : Task) (va : Addr) : Option Word :=
  lookup m t.pagetable (va.toNat / 4096)

def Task.HasLeaf (m : Addr → Page) (t : Task) (va : Addr) : Prop :=
  ∃ w, t.pte m va = some w ∧ pteFlags w ≠ PTE_V

section Layout
variable [Image]

/-- The user pages of a process are the ones up to its size, and it has the two leaves above them
and no others. -/
structure Task.Exact (m : Addr → Page) (t : Task) : Prop where
  user : ∀ va, va.toNat % 4096 = 0 → va < TRAPFRAME → (t.HasLeaf m va ↔ va < pgroundup t.sz)
  trapframe : t.pte m TRAPFRAME = some (mkPte t.trapframe (PTE_R ||| PTE_W))
  trampoline : t.pte m TRAMPOLINE = some (mkPte Image.trampoline (PTE_R ||| PTE_X))
  high : ∀ va, MAXVA ≤ va → t.pte m va = none

theorem Inv.space (h : Inv s) (hp : (s.procs p).state ≠ .unused) :
    Space ((s.procs p).trapframe ::ₘ s.others p) (s.procs p).pagetable (s.procs p).trapframe
      (pagesUp (s.procs p).sz) (lookup s.k.mem (s.procs p).pagetable) s.k :=
  (h.holds p).space hp

omit [Image] in
theorem lt_pgroundup (hva : va.toNat % 4096 = 0) (hsz : pagesUp sz ≤ 32768) :
    va < pgroundup sz ↔ va.toNat / 4096 < pagesUp sz := by
  have hle := lt_of_pagesUp hsz
  rw [pgroundup_pg (by omega), BitVec.lt_def, pg_toNat (by omega)]
  omega

theorem Inv.exact (h : Inv s) (hp : (s.procs p).state ≠ .unused) :
    (s.procs p).Exact s.k.mem := by
  have hs := h.space hp
  have he := hs.exact
  refine ⟨fun va hva hlt => ?_, ?_, ?_, fun va hva => ?_⟩
  · have hn : va.toNat / 4096 < TRAPPAGE := by
      rw [trapframe_eq, BitVec.lt_def, pg_toNat (by decide)] at hlt
      omega
    rw [lt_pgroundup hva hs.small]
    constructor
    · rintro ⟨w, hw, -⟩
      by_contra hge
      rw [Task.pte, he.rest _ (Nat.le_of_not_lt hge) hn] at hw
      cases hw
    · exact he.leaf
  · exact he.trapframe
  · exact he.trampoline
  · rw [maxva_le] at hva
    exact hs.table.low _ (by rw [USERPAGES]; omega)

/-- Whatever calls are made, and whenever kalloc() fails, the address spaces stay exact. The only
panic that is ever reached is the one of the first process when it exits. -/
theorem spaces_exact (h : Reachable s) :
    (∀ p, (s.procs p).state ≠ .unused → (s.procs p).Exact s.k.mem) ∧
    ∀ c e, s.Enabled c → perform s c = .error e →
      ∃ status, c = .exit init status ∧ e = .initExiting := by
  refine ⟨fun p hp => h.inv.exact hp, fun c e hc he => ?_⟩
  rcases h.inv.perform hc with ⟨t, ht, -⟩ | ⟨status, hexit, hi⟩
  · cases he.symm.trans ht
  · exact ⟨status, hexit, Except.error.inj (he.symm.trans hi)⟩

end Layout

/-- A child that grows to a size in the middle of a page, and its parent that writes to it and
shrinks. -/
def forkAndGrow : List Call :=
  [.fork init, .sbrk child 5000, .store init 16 [1, 2, 3], .sbrk init (-100)]

theorem forkAndGrow_runs :
    ∃ s, trace forkAndGrow = some s ∧ (s.procs child).state ≠ .unused := by
  have hrun : (trace forkAndGrow).map (fun s => decide ((s.procs child).state ≠ .unused)) =
      some true := by decide +kernel
  obtain ⟨s, hs, hlive⟩ := Option.map_eq_some_iff.mp hrun
  exact ⟨s, hs, of_decide_eq_true hlive⟩

theorem spaces_exact_small : ∃ s, trace forkAndGrow = some s ∧ (s.procs child).state ≠ .unused ∧
    @Task.Exact small s.k.mem (s.procs child) ∧
    ∀ c e, s.Enabled c → @perform small s c = .error e →
      ∃ status, c = .exit init status ∧ e = .initExiting := by
  obtain ⟨s, hs, hlive⟩ := forkAndGrow_runs
  have h := @spaces_exact small s (reachable_trace hs)
  exact ⟨s, hs, hlive, h.1 child hlive, h.2⟩

/-- What a process has a page for. -/
inductive Use where
  | leaf (n : Nat)
  | table
  | trapframe

/-- The leaves of a process are those that the user can reach and those below TRAPFRAME, which
include the guard page. -/
def Task.Uses (m : Addr → Page) (t : Task) : Use → Addr → Prop
  | .leaf n, x =>
    ∃ w, lookup m t.pagetable n = some w ∧ (Has w PTE_U ∨ n < TRAPPAGE) ∧ pte2pa w = x
  | .table, x => x ∈ ptPages m t.pagetable
  | .trapframe, x => x = t.trapframe

/-- What can have a page: an entry of the free list, a process, an entry of the pages taken at
boot, an open pipe, a segment, or one that has been removed. -/
inductive Owner where
  | free (i : Nat)
  | task (p : Fin NPROC) (u : Use)
  | kernel (i : Nat)
  | pipe (i : Nat)
  | segment (i : Shm.Slot)
  | removed (i : Nat)

/-- Here l is the free list. -/
def Sys.Owns (s : Sys) (l : List Addr) : Owner → Addr → Prop
  | .free i, x => l[i]? = some x
  | .task p u, x => (s.procs p).state ≠ .unused ∧ (s.procs p).Uses s.k.mem u x
  | .kernel i, x => s.boot[i]? = some x
  | .pipe i, x => (s.pipes.map (·.page))[i]? = some x
  | .segment i, x => s.shared i = some x
  | .removed i, x => s.lost[i]? = some x

/-- The three kinds of pages of a process. -/
inductive TaskPart where
  | tables
  | user
  | trapframe
  deriving DecidableEq

instance : Fintype TaskPart := ⟨{.tables, .user, .trapframe}, fun p => by cases p <;> decide⟩

/-- The kinds of owners. -/
inductive Part where
  | free
  | tasks
  | kernel
  | pipes
  | segments
  | removed
  deriving DecidableEq

instance : Fintype Part :=
  ⟨{.free, .tasks, .kernel, .pipes, .segments, .removed}, fun p => by cases p <;> decide⟩

def Use.part : Use → TaskPart
  | .leaf _ => .user
  | .table => .tables
  | .trapframe => .trapframe

def Owner.part : Owner → Part
  | .free _ => .free
  | .task _ _ => .tasks
  | .kernel _ => .kernel
  | .pipe _ => .pipes
  | .segment _ => .segments
  | .removed _ => .removed

def Task.parts (m : Addr → Page) (t : Task) : TaskPart → Multiset Addr
  | .tables => ptPages m t.pagetable
  | .user => pagesOf (lookup m t.pagetable) 0 (pagesUp t.sz)
  | .trapframe => {t.trapframe}

def Sys.parts (s : Sys) (l : List Addr) : Part → Multiset Addr
  | .free => l
  | .tasks => total s.taskPages
  | .kernel => s.boot
  | .pipes => s.pipePages
  | .segments => total (fun i => segPage (s.shared i))
  | .removed => s.lost

theorem Task.total_parts {t : Task} (hl : t.state ≠ .unused) :
    total (t.parts m) = t.pages m := by
  rw [total_list (t.parts m) (l := [.tables, .user, .trapframe]) (by decide)
    (fun p => by cases p <;> decide), Task.pages, if_neg hl]
  rfl

theorem Sys.total_parts (s : Sys) (l : List Addr) :
    total (s.parts l) = l + (total s.taskPages + s.extras) := by
  rw [total_list (s.parts l) (l := [.free, .tasks, .kernel, .pipes, .segments, .removed])
    (by decide) (fun p => by cases p <;> decide)]
  simp only [List.map_cons, List.map_nil, List.sum_cons, List.sum_nil, add_zero]
  rfl

theorem eq_of_getElem? {l : List α} {i j : Nat} (hl : l.Nodup) (hi : l[i]? = some x)
    (hj : l[j]? = some x) : i = j := by
  obtain ⟨hi, hix⟩ := List.getElem?_eq_some_iff.mp hi
  obtain ⟨hj, hjx⟩ := List.getElem?_eq_some_iff.mp hj
  exact (hl.getElem_inj_iff).mp (hix.trans hjx.symm)

/-- Without repetition every user page has its own physical page. -/
theorem eq_of_pagesOf (hn : (pagesOf f 0 n).Nodup) (hi : f i = some w) (hj : f j = some v)
    (hin : i < n) (hjn : j < n) (he : pte2pa w = pte2pa v) : i = j := by
  refine List.inj_on_of_nodup_map (coe_nodup.mp hn)
    (List.mem_range'_1.mpr ⟨Nat.zero_le i, by omega⟩)
    (List.mem_range'_1.mpr ⟨Nat.zero_le j, by omega⟩) ?_
  rw [hi, hj]
  exact he

section Layout
variable [Image]

theorem Mapped.lt_of_leaf (h : Mapped m t) (hw : lookup m t.pagetable n = some w)
    (hn : Has w PTE_U ∨ n < TRAPPAGE) : n < pagesUp t.sz := by
  rcases hn with hu | hlt
  · exact h.exact.lt_of_user h.low hw hu
  · by_contra hge
    rw [h.exact.rest n (Nat.le_of_not_lt hge) hlt] at hw
    cases hw

theorem Mapped.mem_part (h : Mapped m t) (hu : t.Uses m u x) : x ∈ t.parts m u.part := by
  cases u with
  | leaf n =>
    obtain ⟨w, hw, hn, rfl⟩ := hu
    exact mem_pagesOf hw (h.lt_of_leaf hw hn)
  | table => exact hu
  | trapframe =>
    cases hu
    exact mem_singleton_self _

theorem Mapped.use_unique (h : Mapped m t) (hn : (total (t.parts m)).Nodup)
    (hu : t.Uses m u x) (hv : t.Uses m v x) : u = v := by
  have hpart := part_unique hn (h.mem_part hu) (h.mem_part hv)
  cases u with
  | leaf i =>
    cases v with
    | leaf j =>
      obtain ⟨w, hw, hi, rfl⟩ := hu
      obtain ⟨w', hw', hj, he⟩ := hv
      rw [eq_of_pagesOf (part_nodup hn .user) hw hw' (h.lt_of_leaf hw hi) (h.lt_of_leaf hw' hj)
        he.symm]
    | _ => cases hpart
  | table =>
    cases v with
    | table => rfl
    | _ => cases hpart
  | trapframe =>
    cases v with
    | trapframe => rfl
    | _ => cases hpart

theorem Inv.mem_task (h : Inv s) (ho : s.Owns l (.task p u) x) : x ∈ s.taskPages p := by
  rw [Sys.taskPages, ← Task.total_parts ho.1]
  exact mem_total.mpr ⟨u.part, ((h.good p).live ho.1).mem_part ho.2⟩

theorem Inv.mem_part (h : Inv s) (ho : s.Owns l o x) : x ∈ s.parts l o.part := by
  cases o with
  | free i => exact List.mem_of_getElem? ho
  | task p u => exact mem_total.mpr ⟨p, h.mem_task ho⟩
  | kernel i => exact List.mem_of_getElem? ho
  | pipe i => exact List.mem_of_getElem? ho
  | segment i =>
    refine mem_total.mpr ⟨i, ?_⟩
    rw [show s.shared i = some x from ho]
    exact mem_singleton_self x
  | removed i => exact List.mem_of_getElem? ho

/-- The free list and the other parts make up the pages of the allocator. -/
theorem Inv.chain (h : Inv s) :
    ∃ l, Chain s.k.mem s.k.freelist l ∧ total (s.parts l) = pages := by
  obtain ⟨l, hc, he⟩ := h.owned
  exact ⟨l, hc, (s.total_parts l).trans he⟩

theorem Inv.owner_unique (h : Inv s) (hl : total (s.parts l) = pages)
    (ho : s.Owns l o x) (ho' : s.Owns l o' x) : o = o' := by
  have hn : (total (s.parts l)).Nodup := hl ▸ nodup_pages
  have hpart := part_unique hn (h.mem_part ho) (h.mem_part ho')
  cases o with
  | free i =>
    cases o' with
    | free j => rw [eq_of_getElem? (part_nodup hn .free) ho ho']
    | _ => cases hpart
  | task p u =>
    cases o' with
    | task q v =>
      have htasks : (total s.taskPages).Nodup := part_nodup hn .tasks
      cases part_unique htasks (h.mem_task ho) (h.mem_task ho')
      have hp : (total ((s.procs p).parts s.k.mem)).Nodup := by
        rw [Task.total_parts ho.1]
        exact part_nodup htasks p
      rw [((h.good p).live ho.1).use_unique hp ho.2 ho'.2]
    | _ => cases hpart
  | kernel i =>
    cases o' with
    | kernel j => rw [eq_of_getElem? (part_nodup hn .kernel) ho ho']
    | _ => cases hpart
  | pipe i =>
    cases o' with
    | pipe j => rw [eq_of_getElem? (part_nodup hn .pipes) ho ho']
    | _ => cases hpart
  | segment i =>
    cases o' with
    | segment j =>
      have hsegs : (total (fun i => segPage (s.shared i))).Nodup := part_nodup hn .segments
      have hi : x ∈ segPage (s.shared i) := (show s.shared i = some x from ho) ▸
        mem_singleton_self x
      have hj : x ∈ segPage (s.shared j) := (show s.shared j = some x from ho') ▸
        mem_singleton_self x
      rw [part_unique hsegs hi hj]
    | _ => cases hpart
  | removed i =>
    cases o' with
    | removed j => rw [eq_of_getElem? (part_nodup hn .removed) ho ho']
    | _ => cases hpart

theorem Inv.tables_nodup (h : Inv s) (hp : (s.procs p).state ≠ .unused) :
    (ptPages s.k.mem (s.procs p).pagetable).Nodup :=
  (nodup_add.mp (h.space hp).table.owned.nodup).1

/-- No page has two owners, none is in one page-table tree twice, and all of them are pages between
the end of the kernel and PHYSTOP. -/
theorem pages_isolated (h : Reachable s) : ∃ l, Chain s.k.mem s.k.freelist l ∧
    (∀ x o o', s.Owns l o x → s.Owns l o' x → o = o') ∧
    (∀ p, (s.procs p).state ≠ .unused → (ptPages s.k.mem (s.procs p).pagetable).Nodup) ∧
    ∀ x o, s.Owns l o x → x ∈ pages := by
  obtain ⟨l, hc, hl⟩ := h.inv.chain
  refine ⟨l, hc, fun x o o' ho ho' => h.inv.owner_unique hl ho ho', fun p => h.inv.tables_nodup,
    fun x o ho => ?_⟩
  rw [← hl]
  exact mem_total.mpr ⟨o.part, h.inv.mem_part ho⟩

end Layout

theorem pages_isolated_small : ∃ s, trace forkAndGrow = some s ∧
    ∃ l, Chain s.k.mem s.k.freelist l ∧ (∀ x o o', s.Owns l o x → s.Owns l o' x → o = o') ∧
      ∀ x o, s.Owns l o x → x ∈ @pages small := by
  obtain ⟨s, hs, -⟩ := forkAndGrow_runs
  obtain ⟨l, hc, hone, -, hin⟩ := @pages_isolated small s (reachable_trace hs)
  exact ⟨s, hs, l, hc, hone, hin⟩

/-- The byte at va, if the process can read it. -/
def Task.readable (m : Addr → Page) (t : Task) (va : Addr) : Option Byte :=
  userByte m t.pagetable va

/-- Stores to user memory by p. -/
def stores (p : Fin NPROC) (ws : List (Addr × List Byte)) : List Call :=
  ws.map (fun w => .store p w.1 w.2)

section Layout
variable [Image]

omit [Image] in
theorem Sys.pte_same {s : Sys} (hp : (s.procs p).state ≠ .unused)
    (hm : ∀ x ∈ s.taskPages p, m x = s.k.mem x) (va : Addr) :
    (s.procs p).pte m va = (s.procs p).pte s.k.mem va := by
  rw [Task.pte, Task.pte, lookup_congr (fun x hx => hm x ?_)]
  rw [Sys.taskPages, Task.pages, if_neg hp]
  exact mem_add.mpr (.inl hx)

/-- Memory that keeps the pages of a process keeps all that it can read. -/
theorem Inv.readable_same (h : Inv s) (hp : (s.procs p).state ≠ .unused)
    (hm : ∀ x ∈ s.taskPages p, m x = s.k.mem x) (va : Addr) :
    (s.procs p).readable m va = (s.procs p).readable s.k.mem va := by
  have hpte := Sys.pte_same hp hm va
  rw [Task.pte, Task.pte] at hpte
  rw [Task.readable, Task.readable, userByte, userByte, hpte]
  cases hw : lookup s.k.mem (s.procs p).pagetable (va.toNat / 4096) with
  | none => rfl
  | some w =>
    simp only [Option.bind_some]
    by_cases hu : Has w PTE_U
    · have hlt := ((h.good p).live hp).lt_of_leaf hw (.inl hu)
      rw [if_pos hu, if_pos hu, hm]
      rw [Sys.taskPages, Task.pages, if_neg hp]
      exact mem_add.mpr (.inr (mem_add.mpr (.inl (mem_pagesOf hw hlt))))
    · rw [if_neg hu, if_neg hu]

/-- A store by one process changes nothing that another one can read. -/
theorem Inv.store_apart (h : Inv s) (hs : Mem.step s (.store p va bs) = some t) (hne : q ≠ p)
    (hq : (s.procs q).state ≠ .unused) : t.procs = s.procs ∧
      ∀ a, (t.procs q).readable t.k.mem a = (s.procs q).readable s.k.mem a := by
  obtain ⟨hp, hs⟩ := step_eq_some.mp hs
  obtain ⟨r, k', hr, hk, -⟩ := (h.holds p).copyout hp.1 va bs
  rw [Mem.perform, after, hr] at hs
  cases hs
  exact ⟨rfl, h.readable_same hq (fun x hx => hk x (Sys.mem_others hne hx))⟩

theorem Inv.stores_apart (h : Inv s) (hr : run Mem.step s (stores p ws) = some t) (hne : q ≠ p)
    (hq : (s.procs q).state ≠ .unused) (a : Addr) :
    (t.procs q).readable t.k.mem a = (s.procs q).readable s.k.mem a := by
  induction ws generalizing s with
  | nil =>
    cases hr
    rfl
  | cons w ws ih =>
    obtain ⟨u, hu, ht⟩ := run_cons.mp hr
    obtain ⟨hprocs, hread⟩ := h.store_apart hu hne hq
    rw [ih (h.step hu) ht (hprocs ▸ hq), hread]

end Layout

end Xv6.Mem
