import Xv6.Mem.Files

namespace Xv6.Mem
open Function Lib Lib.Radix

/-- The page of a shared segment, if it has one. -/
def segPage (x : Option Addr) : Multiset Addr := x.elim 0 singleton

def Sys.taskPages (s : Sys) (p : Fin NPROC) : Multiset Addr := (s.procs p).pages s.k.mem

def Sys.pipePages (s : Sys) : Multiset Addr := (s.pipes.map (·.page) : List Addr)

/-- The pages in use that belong to no process. -/
def Sys.extras (s : Sys) : Multiset Addr :=
  s.boot + (s.pipePages + (total (fun i => segPage (s.shared i)) + s.lost))

/-- The pages in use that p does not have. -/
def Sys.others (s : Sys) (p : Fin NPROC) : Multiset Addr := rest s.taskPages p + s.extras

section Layout
variable [Image]

/-- The free list and the owners share out the pages of the allocator, and every process has an
exact address space. -/
structure Inv (s : Sys) : Prop where
  owned : Owned (total s.taskPages + s.extras) s.k
  good : ∀ p, (s.procs p).Good s.k.mem
  pipes : PipesOk s.files s.pipes
  shared : ∀ i x, s.shared i = some x → (s.shm i).key ≠ 0 ∧ (s.shm i).addr = x

omit [Image] in
theorem Task.pages_congr {t : Task} (h : ∀ x ∈ t.pages m, m' x = m x) :
    t.pages m' = t.pages m := by
  by_cases hl : t.state = .unused
  · rw [t.pages_free m hl, t.pages_free m' hl]
  · rw [Task.pages, if_neg hl] at h
    have hm : ∀ x ∈ ptPages m t.pagetable, m' x = m x := fun x hx =>
      h x (Multiset.mem_add.mpr (.inl hx))
    rw [Task.pages, Task.pages, if_neg hl, if_neg hl, withSpace, withSpace, ptPages,
      tables_congr hm, lookup_congr hm]

theorem Task.Good.congr (hg : Task.Good m t) (h : ∀ x ∈ t.pages m, m' x = m x) :
    Task.Good m' t := by
  refine ⟨hg.free, fun hl => ?_⟩
  rw [Task.pages, if_neg hl] at h
  have hm : ∀ x ∈ ptPages m t.pagetable, m' x = m x := fun x hx =>
    h x (Multiset.mem_add.mpr (.inl hx))
  obtain ⟨hp, he, hlow⟩ := hg.live hl
  have hs := lookup_congr hm
  exact ⟨pointers_congr hm hp, hs ▸ he, hs ▸ hlow⟩

theorem Inv.holds (h : Inv s) (p : Fin NPROC) : Holds (s.others p) (s.procs p) s.k := by
  refine ⟨?_, h.good p⟩
  have ho := h.owned
  rw [total_eq s.taskPages p, Multiset.add_assoc] at ho
  exact ho

omit [Image] in
theorem Sys.mem_others {s : Sys} (hq : q ≠ p) (hx : x ∈ s.taskPages q) : x ∈ s.others p :=
  Multiset.mem_add.mpr (.inl (mem_rest hq hx))

theorem Inv.setTask (h : Inv s) (hk : Keeps (s.others p) s.k k') (ht : Holds (s.others p) t k') :
    Inv (s.setTask p t k') := by
  have hsame : ∀ q, q ≠ p → ∀ x ∈ (s.procs q).pages s.k.mem, k'.mem x = s.k.mem x :=
    fun q hq x hx => hk x (Sys.mem_others hq hx)
  have hother : ∀ q, q ≠ p → (s.setTask p t k').taskPages q = s.taskPages q := by
    intro q hq
    change (update s.procs p t q).pages k'.mem = _
    rw [update_of_ne hq]
    exact Task.pages_congr (hsame q hq)
  have hself : (s.setTask p t k').taskPages p = t.pages k'.mem := by
    change (update s.procs p t p).pages k'.mem = _
    rw [update_self]
  refine ⟨?_, fun q => ?_, h.pipes, h.shared⟩
  · rw [total_eq _ p, hself, rest_congr hother, Multiset.add_assoc]
    exact ht.owned
  · change (update s.procs p t q).Good k'.mem
    rcases eq_or_ne q p with rfl | hq
    · rw [update_self]
      exact ht.good
    · rw [update_of_ne hq]
      exact (h.good q).congr (hsame q hq)

theorem Inv.setExtras (h : Inv s) (hp : s'.procs = s.procs)
    (hk : Keeps (total s.taskPages) s.k s'.k)
    (ho : Owned (total s.taskPages + s'.extras) s'.k) (hpipes : PipesOk s'.files s'.pipes)
    (hshared : ∀ i x, s'.shared i = some x → (s'.shm i).key ≠ 0 ∧ (s'.shm i).addr = x) :
    Inv s' := by
  have hsame : ∀ q, ∀ x ∈ (s.procs q).pages s.k.mem, s'.k.mem x = s.k.mem x :=
    fun q x hx => hk x (mem_total.mpr ⟨q, hx⟩)
  have htasks : s'.taskPages = s.taskPages := by
    funext q
    rw [Sys.taskPages, hp]
    exact Task.pages_congr (hsame q)
  refine ⟨htasks ▸ ho, fun q => ?_, hpipes, hshared⟩
  rw [hp]
  exact (h.good q).congr (hsame q)

omit [Image] in
theorem after_ok {x : Km α} (h : Ends x k Q) (f : α → Kmem → β) :
    ∃ a k', after x k f = .ok (f a k') ∧ Q a k' := by
  obtain ⟨a, k', hr, hq⟩ := h
  refine ⟨a, k', ?_, hq⟩
  rw [after, hr]

/-- The call returns to a state with the invariant. -/
def Returns (r : Except Panic Sys) : Prop := ∃ t, r = .ok t ∧ Inv t

theorem Inv.returns (h : Inv s) : Returns (.ok s) := ⟨s, rfl, h⟩

theorem returns_after {x : Km α} (h : Ends x k Q) (hf : ∀ a k', Q a k' → Inv (f a k')) :
    Returns (after x k f) := by
  obtain ⟨a, k', hr, hq⟩ := after_ok h f
  exact ⟨_, hr, hf a k' hq⟩

theorem Inv.setMem (h : Inv s) (hk : Keeps (s.others p) s.k k')
    (ht : Holds (s.others p) (s.procs p) k') : Inv { s with k := k' } := by
  have hi := h.setTask hk ht
  rw [Sys.setTask, update_eq_self] at hi
  exact hi

theorem Inv.fork_ends (h : Inv s) (hp : s.Runs p) (hi : (s.procs i).state = .unused) :
    Ends (fork p.val (s.procs p) (s.procs i) s.nextpid) s.k (fun r k' =>
      Keeps (s.others i) s.k k' ∧
      (r = ({}, -1) ∧ Owned (s.others i) k' ∨ r.2 = s.nextpid ∧ Holds (s.others i) r.1 k' ∧
        Forked p.val (s.procs p) r.1 s.nextpid s.k k')) := by
  have hne : p ≠ i := fun he => hp.1 (he ▸ hi)
  have ho := (h.holds i).owned
  rw [Task.pages_free _ hi, Multiset.zero_add] at ho
  have hm := (h.good p).live hp.1
  have hpages : (s.procs p).pages s.k.mem = withSpace s.k.mem (s.procs p).pagetable
      (lookup s.k.mem (s.procs p).pagetable) (pagesUp (s.procs p).sz)
      {(s.procs p).trapframe} := if_neg hp.1
  have hin : ∀ x ∈ withSpace s.k.mem (s.procs p).pagetable
      (lookup s.k.mem (s.procs p).pagetable) (pagesUp (s.procs p).sz)
      {(s.procs p).trapframe}, x ∈ s.others i := by
    intro x hx
    rw [← hpages] at hx
    exact Sys.mem_others hne hx
  refine Mem.fork_ends ho ((h.good i).free hi) ⟨fun x hx => ?_, rfl⟩ hm.exact.user
    (fun j hj w hw => ?_) ?_
  · exact hin x (Multiset.mem_add.mpr (.inl hx))
  · exact hin _ (Multiset.mem_add.mpr (.inr (Multiset.mem_add.mpr (.inl (mem_pagesOf hw hj)))))
  · refine hin _ (Multiset.mem_add.mpr (.inr (Multiset.mem_add.mpr (.inr ?_))))
    exact Multiset.mem_singleton_self _

theorem Inv.fork (h : Inv s) (hp : s.Runs p) (hi : (s.procs i).state = .unused) (n : Int) :
    Returns (after (fork p.val (s.procs p) (s.procs i) s.nextpid) s.k (fun r k =>
      { s.setTask i r.1 k with nextpid := n })) := by
  refine returns_after (h.fork_ends hp hi) (fun r k' hk => ?_)
  have ht : Holds (s.others i) r.1 k' := by
    rcases hk.2 with ⟨rfl, ho⟩ | ⟨-, ht, -⟩
    · exact holds_free ho
    · exact ht
  obtain ⟨ho', hg, hpipes, hsh⟩ := h.setTask hk.1 ht
  exact ⟨ho', hg, hpipes, hsh⟩

omit [Image] in
theorem Task.pages_same {t t' : Task} (h1 : t'.trapframe = t.trapframe)
    (h2 : t'.pagetable = t.pagetable) (h3 : t'.sz = t.sz)
    (h4 : t'.state = .unused ↔ t.state = .unused) : t'.pages m = t.pages m := by
  rw [Task.pages, Task.pages, h1, h2, h3]
  simp only [h4]

theorem Task.Good.same {t t' : Task} (hg : Task.Good m t) (h1 : t'.trapframe = t.trapframe)
    (h2 : t'.pagetable = t.pagetable) (h3 : t'.sz = t.sz)
    (h4 : t'.state = .unused ↔ t.state = .unused) : Task.Good m t' := by
  refine ⟨fun hu => ?_, fun hl => ?_⟩
  · rw [h1, h2, h3]
    exact hg.free (h4.mp hu)
  · obtain ⟨hp, he, hlow⟩ := hg.live (fun hu => hl (h4.mpr hu))
    refine ⟨?_, ?_, ?_⟩
    · rw [h2]
      exact hp
    · rw [h1, h2, h3]
      exact he
    · rw [h2]
      exact hlow

theorem Inv.exit (h : Inv s) (hp : s.Runs p) (status : Int) : Inv (exit s p status) := by
  have hsame : ∀ q, ((Mem.exit s p status).procs q).trapframe = (s.procs q).trapframe ∧
      ((Mem.exit s p status).procs q).pagetable = (s.procs q).pagetable ∧
      ((Mem.exit s p status).procs q).sz = (s.procs q).sz ∧
      (((Mem.exit s p status).procs q).state = .unused ↔ (s.procs q).state = .unused) := by
    intro q
    rcases eq_or_ne q p with rfl | hq
    · have := hp.1
      simp only [Mem.exit, update_self]
      split <;> simp [this]
    · simp only [Mem.exit, update_of_ne hq]
      split <;> simp
  have htasks : (Mem.exit s p status).taskPages = s.taskPages := by
    funext q
    obtain ⟨h1, h2, h3, h4⟩ := hsame q
    exact Task.pages_same h1 h2 h3 h4
  refine ⟨?_, fun q => ?_, h.pipes, h.shared⟩
  · rw [htasks]
    exact h.owned
  · obtain ⟨h1, h2, h3, h4⟩ := hsame q
    exact (h.good q).same h1 h2 h3 h4

theorem Inv.reap (h : Inv s) (hp : s.Runs p) (hi : (s.procs i).state = .zombie) (addr : Addr) :
    Returns (reap s p i addr) := by
  have hlive : (s.procs i).state ≠ .unused := by
    rw [hi]
    decide
  obtain ⟨ok, k1, hr, hk1, h1⟩ := (h.holds p).deliver hp.1 addr (s.procs i).xstate
  have hs1 := h.setMem hk1 h1
  rw [Mem.reap, hr]
  change Returns (if ok = true then _ else _)
  split
  · refine returns_after ((hs1.holds i).freeproc hlive) (fun t k2 h2 => ?_)
    obtain ⟨rfl, hk2, h2⟩ := h2
    exact hs1.setTask hk2 (holds_free h2)
  · exact hs1.returns

theorem Inv.setFile (h : Inv s) (hp : PipesOk (update s.files f o) s.pipes) :
    Inv (s.setFile f o) := ⟨h.owned, h.good, hp, h.shared⟩

omit [Image] in
theorem freeFile_ref {files : Fin NFILE → OpenFile} (h : freeFile files = some f) :
    (files f).ref = 0 := by
  have := List.find?_some h
  simpa using this

omit [Image] in
theorem closed_ok {files : Fin NFILE → OpenFile} (h : PipesOk files pipes)
    (hf : ∀ pi w, (files f).type ≠ .pipe pi w) : PipesOk (update files f {}) pipes :=
  h.setOther hf (fun _ _ => FileType.noConfusion) (fun _ => rfl)

theorem Inv.pipealloc (h : Inv s) : Returns (pipealloc s) := by
  rw [Mem.pipealloc]
  split
  · exact h.returns
  rename_i f0 hf0
  have h0 := freeFile_ref hf0
  have hfree0 := closed_ok h.pipes (type_of_ref h.pipes h0)
  split
  · exact (h.setFile hfree0).returns
  rename_i f1 hf1
  have h1 := freeFile_ref hf1
  have hne : f1 ≠ f0 := by
    intro he
    rw [he, update_self] at h1
    cases h1
  rw [update_of_ne hne] at h1
  refine returns_after (kalloc_keeps h.owned) (fun r k' hk => ?_)
  obtain ⟨hk, ho⟩ := hk
  have hk := hk.mono (Multiset.le_add_right _ _)
  cases r with
  | none =>
    have hfree1 : PipesOk (update (update s.files f0 {}) f1 {}) s.pipes := by
      refine closed_ok hfree0 (fun pi w => ?_)
      rw [update_of_ne hne]
      exact type_of_ref h.pipes h1 pi w
    exact h.setExtras rfl hk ho hfree1 h.shared
  | some pi =>
    have hpi := (Multiset.nodup_cons.mp ho.nodup).1
    have hnew : ∀ q ∈ s.pipes, q.page ≠ pi := by
      intro q hq he
      have hmem : q.page ∈ s.pipePages := Multiset.mem_coe.mpr (List.mem_map.mpr ⟨q, hq, rfl⟩)
      refine hpi (he ▸ Multiset.mem_add.mpr (.inr (Multiset.mem_add.mpr (.inr ?_))))
      exact Multiset.mem_add.mpr (.inl hmem)
    refine h.setExtras rfl hk ?_ (h.pipes.add hne h0 h1 hnew) h.shared
    change Owned (total s.taskPages + (s.boot + ((pi ::ₘ s.pipePages) + (_ + _)))) k'
    rw [Multiset.cons_add, Multiset.add_cons, Multiset.add_cons]
    exact ho

omit [Image] in
theorem pipePages_erase {pipes : List Pipe} (hq : q ∈ pipes) :
    ((pipes.map (·.page) : List Addr) : Multiset Addr) =
      q.page ::ₘ ((pipes.erase q).map (·.page) : List Addr) := by
  have := (List.perm_cons_erase hq).map (·.page)
  exact Multiset.coe_eq_coe.mpr this

theorem Inv.pipe_nodup (h : Inv s) : (s.pipes.map (·.page)).Nodup := by
  have hn := (Multiset.nodup_add.mp h.owned.nodup).2.1
  exact (Multiset.nodup_add.mp (Multiset.nodup_add.mp hn).2.1).1

/-- The last fileclose() of an end of a pipe. -/
theorem Inv.pipeclose (h : Inv s) (hf : (s.files f).type = .pipe pi w) :
    Returns (pipeclose (s.setFile f {}) pi w) := by
  have hn := h.pipe_nodup
  obtain ⟨q, hq, rfl, -⟩ := h.pipes.opens f pi w hf
  have hfind : (s.setFile f {}).pipes.find? (·.page = q.page) = some q := by
    change s.pipes.find? (·.page = q.page) = some q
    cases hr : s.pipes.find? (·.page = q.page) with
    | none => simpa using List.find?_eq_none.mp hr q hq
    | some r =>
      have hpage : r.page = q.page := by simpa using List.find?_some hr
      rw [eq_of_page hn hq (List.mem_of_find?_eq_some hr) hpage]
  rw [Mem.pipeclose, hfind]
  have herase := pipePages_erase hq
  have hextras : s.extras = q.page ::ₘ (s.boot + (((s.pipes.erase q).map (·.page) : List Addr) +
      (total (fun i => segPage (s.shared i)) + s.lost))) := by
    rw [Sys.extras, Sys.pipePages, herase, Multiset.cons_add, Multiset.add_cons]
  have ho := h.owned
  rw [hextras] at ho
  simp only
  split
  · rename_i hclosed
    have hall := ((q.close w).closed_iff).mp hclosed
    rw [Multiset.add_cons] at ho
    refine returns_after (kfree_keeps ho) (fun _ k' hk => ?_)
    refine h.setExtras rfl (hk.1.mono (Multiset.le_add_right _ _)) hk.2
      (h.pipes.closeEnd hn hq hf (fun r => ?_)) h.shared
    change r ∈ s.pipes.erase q ↔ _
    simp [hall]
  · rename_i hopen
    rw [(q.close w).closed_iff, not_forall] at hopen
    obtain ⟨w', hw'⟩ := hopen
    rw [Bool.not_eq_false] at hw'
    refine Inv.returns (h.setExtras rfl (fun _ _ => rfl) ?_
      (h.pipes.closeEnd hn hq hf (fun r => ?_)) h.shared)
    · change Owned (total s.taskPages + (s.boot + (((q.close w).page ::ₘ
        ((s.pipes.erase q).map (·.page) : List Addr)) + (_ + _)))) s.k
      rw [Pipe.close_page, Multiset.cons_add, Multiset.add_cons]
      exact ho
    · rw [List.mem_cons, or_comm]
      exact or_congr Iff.rfl ⟨fun he => ⟨he, w', hw'⟩, fun he => he.1⟩

theorem Inv.fileclose (h : Inv s) : Returns (fileclose s f) := by
  rw [Mem.fileclose]
  split
  · exact (h.setFile (h.pipes.setRef (by omega))).returns
  · split
    · rename_i pi w hf
      exact h.pipeclose hf
    · rename_i hf
      exact (h.setFile (closed_ok h.pipes hf)).returns

omit [Image] in
/-- A segment in use keeps its key and its address, unless it is removed. -/
theorem moves_keep (h : Shm.Moves q t c t') (hk : (t i).key ≠ 0) (ha : (t i).addr ≠ 0)
    (hc : ∀ shmid buf, c = .ctl shmid Shm.IPC_RMID buf → t.slot shmid ≠ some i) :
    (t' i).key ≠ 0 ∧ (t' i).addr = (t i).addr := by
  have hother : ∀ {j g}, j ≠ i → (update t j g i).key ≠ 0 ∧
      (update t j g i).addr = (t i).addr := by
    intro j g hj
    rw [update_of_ne hj.symm]
    exact ⟨hk, rfl⟩
  cases h with
  | same c => exact ⟨hk, rfl⟩
  | @join key j size shmflag found =>
    rcases eq_or_ne j i with rfl | hj
    · rw [update_self]
      exact ⟨hk, rfl⟩
    · exact hother hj
  | @create key j size shmflag fresh free =>
    refine hother (fun hj => hk ?_)
    have := Shm.first_some free
    rw [hj] at this
    simpa using this
  | @locate shmid j userAddr page found access unset addr =>
    exact hother (fun hj => ha (hj ▸ unset))
  | @leave shmid j g found left =>
    rcases eq_or_ne j i with rfl | hj
    · obtain ⟨m, -, -, -, hkey, -, haddr, -⟩ := Shm.leave_some left
      rw [update_self, hkey, haddr]
      exact ⟨hk, rfl⟩
    · exact hother hj
  | @remove shmid j buf found => exact hother (fun hj => hc shmid buf rfl (hj ▸ found))
  | @setFlag shmid j buf found =>
    rcases eq_or_ne j i with rfl | hj
    · rw [update_self]
      exact ⟨hk, rfl⟩
    · exact hother hj

theorem Inv.seg_ne_zero (h : Inv s) (hi : s.shared i = some x) : x ≠ 0 := by
  refine page_ne_zero (h.owned.mem_pages ?_)
  refine Multiset.mem_add.mpr (.inr (Multiset.mem_add.mpr (.inr (Multiset.mem_add.mpr (.inr ?_)))))
  refine Multiset.mem_add.mpr (.inl (mem_total.mpr ⟨i, ?_⟩))
  rw [hi]
  exact Multiset.mem_singleton_self x

/-- Only the table of segments changes, and no segment is removed. -/
theorem Inv.setShm (h : Inv s) (hm : Shm.Moves q s.shm c t)
    (hc : ∀ shmid buf, c ≠ .ctl shmid Shm.IPC_RMID buf) : Inv { s with shm := t } := by
  refine ⟨h.owned, h.good, h.pipes, fun i x hi => ?_⟩
  obtain ⟨hk, ha⟩ := h.shared i x hi
  have hne : (s.shm i).addr ≠ 0 := ha ▸ h.seg_ne_zero hi
  obtain ⟨hk', ha'⟩ := moves_keep hm hk hne (fun shmid buf he => absurd he (hc shmid buf))
  exact ⟨hk', ha'.trans ha⟩

omit [Image] in
/-- shmat() calls kalloc() for a segment that has no address. -/
theorem shmat_noMemory {t : Shm.Table} (hr : (Shm.shmat t q shmid a 0).2 = .noMemory)
    (hs : t.slot shmid = some i) : (t i).addr = 0 ∧ ∀ page, (Shm.shmat t q shmid a page).1 =
      if page = 0 then t else update t i { t i with addr := page } := by
  have hcases : ∀ page, Shm.shmat t q shmid a page =
      if q.val ∉ (t i).pids then (t, .noAccess)
      else if (t i).addr ≠ 0 then (t, .at (t i).addr)
      else if a ≠ 0 then (update t i { t i with addr := a }, .at a)
      else if page = 0 then (t, .noMemory)
      else (update t i { t i with addr := page }, .at page) := by
    intro page
    rw [Shm.shmat, hs]
  rw [hcases] at hr
  split at hr
  · cases hr
  rename_i haccess
  split at hr
  · cases hr
  rename_i haddr
  split at hr
  · cases hr
  rename_i ha
  refine ⟨not_not.mp haddr, fun page => ?_⟩
  rw [hcases, if_neg haccess, if_neg haddr, if_neg ha]
  split <;> rfl

omit [Image] in
theorem total_segs_update (shared : Shm.Slot → Option Addr) (i : Shm.Slot) (y : Option Addr) :
    total (fun j => segPage (update shared i y j)) =
      segPage y + rest (fun j => segPage (shared j)) i := by
  rw [total_eq _ i, update_self, rest_congr (G := fun j => segPage (shared j))]
  intro j hj
  rw [update_of_ne hj]

/-- The page of a segment that shmat() has just got. -/
theorem Inv.setShared (h : Inv s) (hr : (Shm.shmat s.shm q shmid a 0).2 = .noMemory)
    (hs : s.shm.slot shmid = some i) :
    Ends kalloc s.k (fun r k' => Inv { s with
      k := k'
      shm := (Shm.shmat s.shm q shmid a (r.getD 0)).1
      shared := update s.shared i r }) := by
  obtain ⟨haddr, hpage⟩ := shmat_noMemory hr hs
  have hnone : s.shared i = none := by
    cases hi : s.shared i with
    | none => rfl
    | some x => exact absurd ((h.shared i x hi).2.symm.trans haddr) (h.seg_ne_zero hi)
  refine (kalloc_keeps h.owned).mono (fun r k' hk => ?_)
  obtain ⟨hk, ho⟩ := hk
  have hk := hk.mono (Multiset.le_add_right _ _)
  cases r with
  | none =>
    have hsame : update s.shared i none = s.shared := by
      rw [← hnone, update_eq_self]
    simp only [Option.getD_none, hpage, if_pos, hsame]
    exact h.setExtras rfl hk ho h.pipes h.shared
  | some x =>
    have hx : x ≠ 0 := page_ne_zero (ho.mem_pages (Multiset.mem_cons_self x _))
    simp only [Option.getD_some, hpage, if_neg hx]
    have hseg : total (fun j => segPage (update s.shared i (some x) j)) =
        x ::ₘ total (fun j => segPage (s.shared j)) := by
      rw [total_segs_update, total_eq (fun j => segPage (s.shared j)) i, hnone]
      change {x} + _ = x ::ₘ (0 + _)
      rw [Multiset.singleton_add, Multiset.zero_add]
    refine h.setExtras rfl hk ?_ h.pipes (fun j y hj => ?_)
    · change Owned (total s.taskPages + (s.boot + (s.pipePages + (total (fun j =>
        segPage (update s.shared i (some x) j)) + s.lost)))) k'
      rw [hseg, Multiset.cons_add, Multiset.add_cons, Multiset.add_cons, Multiset.add_cons]
      exact ho
    change update s.shared i (some x) j = some y at hj
    change (update s.shm i { s.shm i with addr := x } j).key ≠ 0 ∧
      (update s.shm i { s.shm i with addr := x } j).addr = y
    rcases eq_or_ne j i with rfl | hji
    · rw [update_self] at hj ⊢
      exact ⟨(Shm.slot_eq_some.mp hs).2, Option.some.inj hj⟩
    · rw [update_of_ne hji] at hj ⊢
      exact h.shared j y hj

theorem Inv.shmat (h : Inv s) : Returns ((shmat s q shmid a).map (·.1)) := by
  rw [Mem.shmat]
  split
  · rename_i i hr hs
    obtain ⟨r, k', hk, hi⟩ := after_ok (h.setShared hr hs) (fun r k =>
      ({ s with k := k, shm := (Shm.shmat s.shm q shmid a (r.getD 0)).1,
                shared := update s.shared i r }, (Shm.shmat s.shm q shmid a (r.getD 0)).2))
    exact ⟨_, congrArg (Except.map _) hk, hi⟩
  · exact (h.setShm (Shm.shmat_moves _ _ _ _ _) (fun _ _ => Shm.Call.noConfusion)).returns

/-- A removed segment leaves its page among the lost ones. -/
theorem Inv.shmctl (h : Inv s) : Inv (shmctl s shmid cmd buf) := by
  have hmoves := fun q => Shm.shmctl_moves s.shm q shmid cmd buf
  rw [Mem.shmctl]
  split
  · rename_i hs
    rw [Shm.shmctl, hs]
    exact h
  rename_i i hs
  split
  · rename_i hcmd
    have hseg : total (fun j => segPage (update s.shared i none j)) +
        ((s.shared i).toList ++ s.lost : List Addr) =
        total (fun j => segPage (s.shared j)) + s.lost := by
      rw [total_segs_update, total_eq (fun j => segPage (s.shared j)) i, ← Multiset.coe_add]
      have hlist : ((s.shared i).toList : Multiset Addr) = segPage (s.shared i) := by
        cases s.shared i <;> rfl
      rw [hlist]
      change 0 + _ + _ = _
      rw [Multiset.zero_add]
      ac_rfl
    refine h.setExtras rfl (fun _ _ => rfl) ?_ h.pipes (fun j x hj => ?_)
    · change Owned (total s.taskPages + (s.boot + (s.pipePages + (total (fun j =>
        segPage (update s.shared i none j)) +
        ((s.shared i).toList ++ s.lost : List Addr))))) s.k
      rw [hseg]
      exact h.owned
    change update s.shared i none j = some x at hj
    have hji : j ≠ i := by
      intro he
      rw [he, update_self] at hj
      cases hj
    rw [update_of_ne hji] at hj
    obtain ⟨hk, ha⟩ := h.shared j x hj
    change ((Shm.shmctl s.shm shmid cmd buf).1 j).key ≠ 0 ∧
      ((Shm.shmctl s.shm shmid cmd buf).1 j).addr = x
    rw [Shm.shmctl, hs]
    simp only [if_pos hcmd, update_of_ne hji]
    exact ⟨hk, ha⟩
  · rename_i hcmd
    refine h.setShm (hmoves ⟨1, by decide⟩) (fun shmid' buf' he => hcmd ?_)
    cases he
    rfl

omit [Image] in
theorem first_test {s : Sys} (h : s.first test = some i) : test (s.procs i) = true := by
  have := List.find?_some h
  exact this

theorem Inv.withPid (h : Inv s) (hf : ∀ q, Returns (f q)) : Returns (s.withPid p f) := by
  rw [Sys.withPid]
  split
  · exact h.returns
  · exact hf _

/-- Every call returns to a state with the invariant; only init can make the kernel panic, by
exit(). -/
theorem Inv.perform (h : Inv s) (hc : s.Enabled c) :
    Returns (perform s c) ∨
    ∃ status, c = .exit init status ∧ perform s c = .error .initExiting := by
  cases c with
  | fork p =>
    rw [Mem.perform]
    split
    · exact .inl h.returns
    · rename_i i hi
      exact .inl (h.fork hc (by simpa using first_test hi) _)
  | exec p namei upath uargv =>
    exact .inl (returns_after ((h.holds p).execTask hc.1 upath uargv)
      (fun a k' hk => h.setTask hk.1 hk.2.1))
  | sbrk p n =>
    exact .inl (returns_after ((h.holds p).growproc hc.1 n) (fun a k' hk => h.setTask hk.1 hk.2.1))
  | exit p status =>
    rw [Mem.perform]
    split
    · rename_i hinit
      have hpi : p = init := Fin.ext hinit
      exact .inr ⟨status, by rw [hpi], rfl⟩
    · exact .inl (h.exit hc status).returns
  | wait p addr =>
    rw [Mem.perform]
    split
    · exact .inl h.returns
    · rename_i i hi
      have hz := first_test hi
      simp only [decide_eq_true_eq] at hz
      exact .inl (h.reap hc hz.2 addr)
  | waitpid p pid addr =>
    rw [Mem.perform]
    split
    · exact .inl h.returns
    · split
      · rename_i hz
        exact .inl (h.reap hc hz addr)
      · exact .inl h.returns
  | store p va bs =>
    exact .inl (returns_after ((h.holds p).copyout hc.1 va bs) (fun a k' hk => h.setMem hk.1 hk.2))
  | pipealloc => exact .inl h.pipealloc
  | filealloc =>
    refine .inl (Inv.returns ?_)
    rw [filealloc]
    split
    · exact h
    · rename_i f hf
      refine h.setFile (h.pipes.setOther (type_of_ref h.pipes (freeFile_ref hf)) ?_ ?_)
      · exact fun _ _ => FileType.noConfusion
      · exact fun h1 => absurd h1 (by decide)
  | filedup f =>
    exact .inl (h.setFile (h.pipes.setRef (by omega))).returns
  | fileclose f => exact .inl h.fileclose
  | shmget p key size shmflag =>
    refine .inl (h.withPid (fun q => ?_))
    exact (h.setShm (Shm.shmget_moves _ q _ _ _) (fun _ _ => Shm.Call.noConfusion)).returns
  | shmat p shmid userAddr => exact .inl (h.withPid (fun q => h.shmat))
  | shmdt p shmid =>
    refine .inl (h.withPid (fun q => ?_))
    exact (h.setShm (Shm.shmdt_moves _ q _) (fun _ _ => Shm.Call.noConfusion)).returns
  | shmctl p shmid cmd buf => exact .inl h.shmctl.returns

theorem step_eq_some :
    step s c = some t ↔ s.Enabled c ∧ perform s c = .ok t := by
  rw [step]
  split
  · rename_i he
    cases perform s c <;> simp [Except.toOption, he]
  · simp [*]

theorem Inv.step (h : Inv s) (hs : step s c = some t) : Inv t := by
  obtain ⟨he, hp⟩ := step_eq_some.mp hs
  rcases h.perform he with ⟨u, hu, hi⟩ | ⟨status, -, hu⟩
  · cases hp.symm.trans hu
    exact hi
  · cases hp.symm.trans hu

theorem bootPages_ends (ho : Owned R k) : Ends (bootPages n) k (fun r k' =>
    ∀ l, r = some l → Owned (l + R) k') := by
  induction n generalizing R k with
  | zero =>
    refine ends_pure.mpr (fun l hl => ?_)
    cases hl
    rw [Multiset.coe_nil, Multiset.zero_add]
    exact ho
  | succ n ih =>
    rw [bootPages]
    refine (kalloc_keeps ho).bind (fun r k1 h1 => ?_)
    cases r with
    | none =>
      refine ends_pure.mpr (fun l hl => ?_)
      cases hl
    | some x =>
      refine (ih h1.2).bind (fun r k2 h2 => ?_)
      cases r with
      | none =>
        refine ends_pure.mpr (fun l hl => ?_)
        cases hl
      | some l =>
        refine ends_pure.mpr (fun l' hl => ?_)
        cases hl
        have ho2 := h2 l rfl
        rw [Multiset.add_cons, ← Multiset.cons_add, Multiset.cons_coe] at ho2
        exact ho2

theorem boot_ends (hk : k.freelist = 0) : Ends (boot n) k (fun r k' =>
    ∀ l t, r = some (l, t) → Holds l t k') := by
  rw [boot]
  refine (kinit_ends hk).bind (fun _ k1 h1 => ?_)
  refine (bootPages_ends h1).bind (fun r k2 h2 => ?_)
  cases r with
  | none =>
    refine ends_pure.mpr (fun l t hl => ?_)
    cases hl
  | some l =>
    rw [ends_bind]
    have ho := h2 l rfl
    rw [Multiset.add_zero] at ho
    refine (userinit_ends ho).mono (fun r k3 h3 => ?_)
    cases r with
    | none =>
      refine ends_pure.mpr (fun l t hl => ?_)
      cases hl
    | some t =>
      refine ends_pure.mpr (fun l' t' hl => ?_)
      cases hl
      exact (h3 t rfl).2

theorem inv_start {l : List Addr} (ht : Holds l t k) : Inv (start l t k) := by
  have hfree : ∀ p, p ≠ init → (start l t k).procs p = {} := by
    intro p hp
    simp [start, hp]
  have hinit : (start l t k).procs init = t := by
    simp [start]
  have hrest : rest (start l t k).taskPages init = 0 := by
    refine rest_zero (fun p hp => ?_)
    rw [Sys.taskPages, hfree p hp]
    exact Task.pages_free _ rfl
  have hextras : (start l t k).extras = l := by
    have hseg : total (fun i => segPage ((start l t k).shared i)) = 0 := total_zero (fun _ => rfl)
    rw [Sys.extras, hseg, Multiset.zero_add]
    exact Multiset.add_zero _
  refine ⟨?_, fun p => ?_, ?_, fun i x hi => ?_⟩
  · rw [total_eq _ init, hrest, hextras, Multiset.add_zero, Sys.taskPages, hinit]
    exact ht.owned
  · rcases eq_or_ne p init with rfl | hp
    · rw [hinit]
      exact ht.good
    · rw [hfree p hp]
      exact ⟨fun _ => ⟨rfl, rfl, rfl⟩, fun h => absurd rfl h⟩
  · refine ⟨fun _ _ => rfl, fun f pi w hf => ?_, fun q hq => ?_, fun f g pi w hf => ?_,
      fun q hq => ?_⟩
    · cases hf
    · cases hq
    · cases hf
    · cases hq
  · cases hi

theorem inv_main (hk : k.freelist = 0) (hm : main n k = some s) : Inv s := by
  obtain ⟨r, k', hr, hq⟩ := boot_ends (n := n) hk
  rw [main, hr] at hm
  cases r with
  | none => cases hm
  | some a =>
    obtain ⟨l, t⟩ := a
    cases hm
    exact inv_start (hq l t rfl)

/-- The states that calls of any processes lead to after booting. -/
def Reachable (s : Sys) : Prop :=
  ∃ n k s0 cs, k.freelist = 0 ∧ main n k = some s0 ∧ run step s0 cs = some s

theorem Reachable.inv (h : Reachable s) : Inv s := by
  obtain ⟨n, k, s0, cs, hk, hm, hr⟩ := h
  exact run_invariant (fun s c t hs ht => hs.step ht) (inv_main hk hm) hr

end Layout

/-- A machine with 24 pages after the kernel. -/
abbrev small : Image where
  kend := PHYSTOP - 24 * PGSIZE
  trampoline := KERNBASE + 8 * PGSIZE
  kend_ge := by decide
  kend_le := by decide
  trampoline_aligned := by decide

/-- Memory before the boot, on a machine where kalloc() fails only without a free page. -/
def cold : Kmem := ⟨fun _ _ => 0, 0, fun _ => true⟩

/-- The slot that the first fork() takes. -/
def child : Fin NPROC := ⟨1, by decide⟩

/-- The state after calls on the small machine. -/
def trace (cs : List Call) : Option Sys :=
  (@main small 1 cold).bind (fun s => run (@step small) s cs)

theorem reachable_trace (h : trace cs = some s) : @Reachable small s := by
  obtain ⟨s0, hm, hr⟩ := Option.bind_eq_some_iff.mp h
  exact ⟨1, cold, s0, cs, rfl, hm, hr⟩

end Xv6.Mem
