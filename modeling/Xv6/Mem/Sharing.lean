import Xv6.Mem.Isolation

namespace Xv6.Mem
open Function Lib Lib.Radix

/-- The physical byte that an address of p stands for, if the user can reach it. -/
def Sys.userByte (s : Sys) (p : Fin NPROC) (va : Addr) : Option Addr :=
  match (s.procs p).pte s.k.mem va with
  | none => none
  | some w => if Has w PTE_U then some (pte2pa w + va % PGSIZE) else none

/-- A call of shmat() by p that does not return -1. -/
def Sys.attach (s : Sys) (p : Fin NPROC) (shmid : BitVec 32) (userAddr : Addr) :
    Option (Sys × Addr) :=
  if s.Runs p then
    match (s.procs p).shmPid with
    | none => none
    | some q =>
      match shmat s q shmid userAddr with
      | .ok (t, .at va) => if va = -1 then none else some (t, va)
      | _ => none
  else none

/-- The bytes of a segment. The size is an int. -/
def Sys.segSize (s : Sys) (i : Shm.Slot) : Nat := (s.shm i).size.toInt.toNat

/-- The address that shmat() returns when it does not ask for a page. -/
def Sys.shmAddr (s : Sys) (i : Shm.Slot) (userAddr : Addr) : Addr :=
  if (s.shm i).addr ≠ 0 then (s.shm i).addr else userAddr

/-- A process that has called shmat() with success, and what the call returned. -/
abbrev Attached := Fin NPROC × Addr

/-- What one more call makes of the successful calls on segment i. Those of a process that exits
do not count any more, nor those on a segment that is removed. -/
def Sys.record (s : Sys) (i : Shm.Slot) (l : List Attached) : Call → List Attached
  | .shmat p shmid a =>
    if shmid = Shm.slotId i then ((s.attach p shmid a).map fun r => (p, r.2)).toList ++ l else l
  | .exit p _ => l.filter (·.1 ≠ p)
  | .shmctl _ shmid cmd _ => if shmid = Shm.slotId i ∧ cmd = Shm.IPC_RMID then [] else l
  | _ => l

/-- The successful calls on segment i in a run from s. -/
def attached [Image] (i : Shm.Slot) : Sys → List Attached → List Call → List Attached
  | _, l, [] => l
  | s, l, c :: cs =>
    match step s c with
    | none => l
    | some t => attached i t (s.record i l c) cs

/-- What shmat() is for, after a call by p that has returned va: p can reach every byte, and any
two processes with successful calls reach the same bytes. -/
structure Sys.Shares (s : Sys) (l : List Attached) (p : Fin NPROC) (i : Shm.Slot) (va : Addr) :
    Prop where
  mapped : ∀ n < s.segSize i, s.userByte p (va + BitVec.ofNat 64 n) ≠ none
  same : ∀ x ∈ (p, va) :: l, ∀ y ∈ (p, va) :: l, x.1 ≠ y.1 → s.Runs x.1 → s.Runs y.1 →
    ∀ n < s.segSize i,
      s.userByte x.1 (x.2 + BitVec.ofNat 64 n) = s.userByte y.1 (y.2 + BitVec.ofNat 64 n)

theorem attach_eq_some {s : Sys} (h : s.attach p shmid a = some (t, va)) :
    s.Runs p ∧ va ≠ -1 ∧
    ∃ q, (s.procs p).shmPid = some q ∧ shmat s q shmid a = .ok (t, .at va) := by
  rw [Sys.attach] at h
  repeat' split at h
  all_goals cases h
  exact ⟨‹_›, ‹_›, _, ‹_›, ‹_›⟩

theorem shm_shmat_at {t : Shm.Table} (hs : t.slot shmid = some i)
    (h : Shm.shmat t q shmid a page = (t', .at va)) :
    va ≠ 0 ∧ (t' i).size = (t i).size ∧
      (va = (if (t i).addr ≠ 0 then (t i).addr else a) ∨
        (if (t i).addr ≠ 0 then (t i).addr else a) = 0 ∧ va = page) := by
  rw [Shm.shmat, hs] at h
  change (if q.val ∉ (t i).pids then _ else _) = _ at h
  repeat' split at h
  all_goals cases h
  all_goals simp_all

theorem slot_of_at (h : shmat s q (Shm.slotId i) a = .ok (t, .at va)) :
    s.shm.slot (Shm.slotId i) = some i := by
  cases hs : s.shm.slot (Shm.slotId i) with
  | none => simp [shmat, Shm.shmat, hs] at h
  | some j => rw [Shm.slotId_injective (Shm.slot_eq_some.mp hs).1]

section Layout
variable [Image]

/-- shmat() changes the table of segments and no address space. Without an address it returns a
page of the allocator. -/
theorem Inv.shmat_at (h : Inv s) (hs : s.shm.slot shmid = some i)
    (hr : Mem.shmat s q shmid a = .ok (t, .at va)) :
    va ≠ 0 ∧ (va = s.shmAddr i a ∨ s.shmAddr i a = 0 ∧ va ∈ pages) ∧
    t.segSize i = s.segSize i ∧ t.procs = s.procs ∧
    Keeps (total s.taskPages + s.extras) s.k t.k := by
  rw [Mem.shmat] at hr
  split at hr
  · rename_i j _ _
    obtain ⟨r, k', he, hk⟩ := after_ok (kalloc_keeps h.owned) (fun r k =>
      ({ s with
          k := k
          shm := (Shm.shmat s.shm q shmid a (r.getD 0)).1
          shared := update s.shared j r }, (Shm.shmat s.shm q shmid a (r.getD 0)).2))
    obtain ⟨ht, ha⟩ := Prod.mk.inj (Except.ok.inj (he.symm.trans hr))
    subst ht
    obtain ⟨hva, hsize, hat⟩ := shm_shmat_at hs (Prod.ext rfl ha)
    refine ⟨hva, ?_, congrArg (·.toInt.toNat) hsize, rfl, hk.1⟩
    rcases hat with hat | ⟨h0, hat⟩
    · exact .inl hat
    cases r with
    | none => exact absurd hat hva
    | some x => exact .inr ⟨h0, hat ▸ hk.2.mem_pages (Multiset.mem_cons_self x _)⟩
  · obtain ⟨ht, ha⟩ := Prod.mk.inj (Except.ok.inj hr)
    subst ht
    obtain ⟨hva, hsize, hat⟩ := shm_shmat_at hs (Prod.ext rfl ha)
    exact ⟨hva, .inl (hat.resolve_right fun h0 => hva h0.2),
      congrArg (·.toInt.toNat) hsize, rfl, fun _ _ => rfl⟩

omit [Image] in
theorem userByte_congr {s t : Sys} (hp : (s.procs p).state ≠ .unused) (hprocs : t.procs = s.procs)
    (hk : Keeps (total s.taskPages + s.extras) s.k t.k) : t.userByte p va = s.userByte p va := by
  have hm : ∀ x ∈ ptPages s.k.mem (s.procs p).pagetable, t.k.mem x = s.k.mem x := by
    intro x hx
    refine hk x (Multiset.mem_add.mpr (.inl (mem_total.mpr ⟨p, ?_⟩)))
    rw [Sys.taskPages, Task.pages, if_neg hp]
    exact Multiset.mem_add.mpr (.inl hx)
  rw [Sys.userByte, Sys.userByte, Task.pte, Task.pte, hprocs, lookup_congr hm]

omit [Image] in
theorem userByte_eq_some {s : Sys} (h : s.userByte p va = some b) :
    ∃ w, lookup s.k.mem (s.procs p).pagetable (va.toNat / 4096) = some w ∧ Has w PTE_U ∧
      (pte2pa w).toNat = b.toNat / 4096 * 4096 := by
  rw [Sys.userByte] at h
  split at h
  · cases h
  rename_i w hw
  split at h
  · rename_i hu
    cases h
    refine ⟨w, hw, hu, ?_⟩
    have hsize : PGSIZE.toNat = 4096 := rfl
    rw [BitVec.toNat_add, BitVec.toNat_umod, pte2pa_toNat, hsize]
    omega
  · cases h

/-- Two processes never reach the same byte. -/
theorem Inv.userByte_unique (h : Inv s) (hp : (s.procs p).state ≠ .unused)
    (hq : (s.procs q).state ≠ .unused) (hpb : s.userByte p va = some b)
    (hqb : s.userByte q va' = some b) : p = q := by
  obtain ⟨l, -, hl⟩ := h.chain
  obtain ⟨w, hw, hu, hx⟩ := userByte_eq_some hpb
  obtain ⟨v, hv, hu', hy⟩ := userByte_eq_some hqb
  have howns : s.Owns l (.task p (.leaf (va.toNat / 4096))) (pte2pa w) :=
    ⟨hp, w, hw, .inl hu, rfl⟩
  have howns' : s.Owns l (.task q (.leaf (va'.toNat / 4096))) (pte2pa w) :=
    ⟨hq, v, hv, .inl hu', BitVec.eq_of_toNat_eq (hy.trans hx.symm)⟩
  exact (Owner.task.inj (h.owner_unique hl howns howns')).1

/-- The pages of the allocator are above everything that a user can reach. -/
theorem Inv.userByte_page (h : Inv s) (hp : (s.procs p).state ≠ .unused) (hva : va ∈ pages) :
    s.userByte p va = none := by
  by_contra hne
  obtain ⟨b, hb⟩ := Option.ne_none_iff_exists'.mp hne
  obtain ⟨w, hw, hu, -⟩ := userByte_eq_some hb
  have hlt := ((h.good p).live hp).lt_of_leaf hw (.inl hu)
  have hsmall := (h.space hp).small
  have hlow := (mem_pages.mp hva).2.1
  have hbase := Image.kend_ge
  rw [show KERNBASE.toNat = 2147483648 by decide] at hbase
  omega

/-- A call that returns an address is a step of the system. -/
theorem attach_step (h : s.attach p shmid a = some (t, va)) :
    step s (.shmat p shmid a) = some t := by
  obtain ⟨hp, -, q, hq, hr⟩ := attach_eq_some h
  refine step_eq_some.mpr ⟨⟨hp, by simp [hq]⟩, ?_⟩
  rw [perform, Sys.withPid, hq]
  change (shmat s q shmid a).map (·.1) = _
  rw [hr]
  rfl

/-- shmat() maps nothing: it shares a segment only if there is nothing to share, or if the address
is one in the memory of the process itself, which is alone with the segment. -/
theorem shmat_shares_iff (hk : k.freelist = 0) (hm : main n k = some s0)
    (hrun : run step s0 cs = some s) (ha : s.attach p (Shm.slotId i) a = some (t, va)) :
    t.Shares (attached i s0 [] cs) p i va ↔ s.segSize i = 0 ∨
      (s.shmAddr i a ≠ 0 ∧
        (∀ n < s.segSize i, s.userByte p (s.shmAddr i a + BitVec.ofNat 64 n) ≠ none) ∧
        ∀ x ∈ attached i s0 [] cs, s.Runs x.1 → x.1 = p) := by
  have hinv : Inv s := Reachable.inv ⟨n, k, s0, cs, hk, hm, hrun⟩
  have hit := hinv.step (attach_step ha)
  obtain ⟨hp, -, q, hq, hr⟩ := attach_eq_some ha
  obtain ⟨hva, haddr, hsize, hprocs, hkeeps⟩ := hinv.shmat_at (slot_of_at hr) hr
  have hbyte : ∀ x, t.userByte p x = s.userByte p x := fun x => userByte_congr hp.1 hprocs hkeeps
  have hruns : ∀ r, t.Runs r ↔ s.Runs r := fun r => by rw [Sys.Runs, Sys.Runs, hprocs]
  have hlive := (hruns p).mpr hp
  constructor
  · intro hsh
    rcases Nat.eq_zero_or_pos (s.segSize i) with hz | hpos
    · exact .inl hz
    obtain ⟨b, hb⟩ := Option.ne_none_iff_exists'.mp (hsh.mapped 0 (by omega))
    rcases haddr with rfl | ⟨-, hpage⟩
    · refine .inr ⟨hva, fun n hn => hbyte _ ▸ hsh.mapped n (by omega), fun x hx hxrun => ?_⟩
      by_contra hne
      have hrun' := (hruns x.1).mpr hxrun
      have hsame := hsh.same x (List.mem_cons_of_mem _ hx) _ List.mem_cons_self hne hrun' hlive 0
        (by omega)
      exact hne (hit.userByte_unique hrun'.1 hlive.1 (hsame.trans hb) hb)
    · rw [BitVec.add_zero, hit.userByte_page hlive.1 hpage] at hb
      cases hb
  · rintro (hz | ⟨h0, hmap, halone⟩)
    · exact ⟨fun n hn => by omega, fun x _ y _ _ _ _ n hn => by omega⟩
    · obtain rfl := haddr.resolve_right fun h => h0 h.1
      have hself : ∀ x ∈ (p, s.shmAddr i a) :: attached i s0 [] cs, t.Runs x.1 → x.1 = p := by
        intro x hx hxrun
        rcases List.mem_cons.mp hx with rfl | hx
        · rfl
        · exact halone x hx ((hruns x.1).mp hxrun)
      refine ⟨fun n hn => (hbyte _).symm ▸ hmap n (by omega), fun x hx y hy hne hxr hyr => ?_⟩
      exact absurd ((hself x hx hxr).trans (hself y hy hyr).symm) hne

end Layout

theorem shmat_shares_alone : ∃ s0 s t, @main small 1 cold = some s0 ∧
    run (@step small) s0 [.shmget init 7 16 0] = some s ∧
    s.attach init (Shm.slotId 0) 64 = some (t, 64) ∧ s.segSize 0 = 16 ∧
    t.Shares (@attached small 0 s0 [] [.shmget init 7 16 0]) init 0 64 := by
  obtain ⟨s0, hm, s, hs, ⟨t, va⟩, ha, hva, hsize, haddr, hmap, hl⟩ : ∃ s0,
      @main small 1 cold = some s0 ∧ ∃ s, run (@step small) s0 [.shmget init 7 16 0] = some s ∧
      ∃ r, s.attach init (Shm.slotId 0) 64 = some r ∧ r.2 = 64 ∧ s.segSize 0 = 16 ∧
        s.shmAddr 0 64 = 64 ∧ (∀ n < 16, s.userByte init (64 + BitVec.ofNat 64 n) ≠ none) ∧
        @attached small 0 s0 [] [.shmget init 7 16 0] = [] := by decide +kernel
  cases hva
  refine ⟨s0, s, t, hm, hs, ha, hsize, ?_⟩
  refine (@shmat_shares_iff small _ _ _ _ _ _ _ _ _ _ rfl hm hs ha).mpr (.inr ?_)
  rw [haddr, hsize, hl]
  exact ⟨by decide, hmap, by simp⟩

/-- Parent and child ask for the same segment, and the parent attaches it. -/
def bothGet : List Call :=
  [.fork init, .shmget init 7 16 0, .shmget child 7 16 0, .shmat init (Shm.slotId 0) 64]

/-- With a null address shmat() returns a page of the kernel that is not mapped. With an address
in the memory of both processes each of them reaches its own byte. -/
theorem shmat_does_not_share :
    (∃ s t va, trace [.shmget init 7 4096 0] = some s ∧
      s.attach init (Shm.slotId 0) 0 = some (t, va) ∧ t.userByte init va = none ∧
      ∀ l, ¬ t.Shares l init 0 va) ∧
    ∃ s0 s t, @main small 1 cold = some s0 ∧ run (@step small) s0 bothGet = some s ∧
      s.attach child (Shm.slotId 0) 0 = some (t, 64) ∧
      t.userByte init 64 = some (PHYSTOP - 6 * PGSIZE + 64) ∧
      t.userByte child 64 = some (PHYSTOP - 13 * PGSIZE + 64) ∧
      ¬ t.Shares (@attached small 0 s0 [] bothGet) child 0 64 := by
  constructor
  · obtain ⟨s, hs, ⟨t, va⟩, ha, hsize, hbyte⟩ : ∃ s, trace [.shmget init 7 4096 0] = some s ∧
        ∃ r, s.attach init (Shm.slotId 0) 0 = some r ∧ r.1.segSize 0 = 4096 ∧
          r.1.userByte init r.2 = none := by decide +kernel
    refine ⟨s, t, va, hs, ha, hbyte, fun l hsh => ?_⟩
    have hmap := hsh.mapped 0 (by rw [hsize]; decide)
    rw [BitVec.add_zero] at hmap
    exact hmap hbyte
  · obtain ⟨s0, hm, s, hs, ⟨t, va⟩, ha, hva, hsize, hl, hrun, hrun', hinit, hchild⟩ : ∃ s0,
        @main small 1 cold = some s0 ∧ ∃ s, run (@step small) s0 bothGet = some s ∧
        ∃ r, s.attach child (Shm.slotId 0) 0 = some r ∧ r.2 = 64 ∧ r.1.segSize 0 = 16 ∧
          (init, 64) ∈ @attached small 0 s0 [] bothGet ∧ r.1.Runs init ∧ r.1.Runs child ∧
          r.1.userByte init 64 = some (PHYSTOP - 6 * PGSIZE + 64) ∧
          r.1.userByte child 64 = some (PHYSTOP - 13 * PGSIZE + 64) := by decide +kernel
    cases hva
    refine ⟨s0, s, t, hm, hs, ha, hinit, hchild, fun hsh => ?_⟩
    have hsame := hsh.same _ (List.mem_cons_of_mem _ hl) _ List.mem_cons_self (by decide) hrun hrun'
      0 (by rw [hsize]; decide)
    rw [BitVec.add_zero, hinit, hchild] at hsame
    exact absurd hsame (by decide)

end Xv6.Mem
