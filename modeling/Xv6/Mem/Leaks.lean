import Xv6.Mem.Isolation

namespace Xv6.Mem
open Lib.Radix Multiset Lib

/-- A page in use: by main() since the boot, by a process, by a pipe with an open end, or as the
address of a segment. -/
def Sys.InUse (s : Sys) (x : Addr) : Prop :=
  x ∈ s.boot ∨ (∃ p u, (s.procs p).state ≠ .unused ∧ (s.procs p).Uses s.k.mem u x) ∨
  (∃ q ∈ s.pipes, q.page = x ∧ ∃ w, q.opens w = true) ∨
  ∃ i, (s.shm i).key ≠ 0 ∧ (s.shm i).addr = x

/-- The call does not remove a segment with a page that shmat() has got for it. -/
def KeepsSegments (s : Sys) : Call → Prop
  | .shmctl _ shmid cmd _ =>
    cmd = Shm.IPC_RMID → ∀ i, s.shm.slot shmid = some i → s.shared i = none
  | _ => True

instance (s : Sys) (c : Call) : Decidable (KeepsSegments s c) :=
  match c with
  | .shmctl _ shmid cmd _ => inferInstanceAs (Decidable
    (cmd = Shm.IPC_RMID → ∀ i, s.shm.slot shmid = some i → s.shared i = none))
  | .fork _ | .exec .. | .sbrk .. | .exit .. | .wait .. | .waitpid .. | .store .. | .pipealloc
  | .filealloc | .filedup _ | .fileclose _ | .shmget .. | .shmat .. | .shmdt .. => isTrue trivial

theorem after_inv {x : Km α} (h : after x k f = .ok t) : ∃ a k', t = f a k' := by
  rw [after] at h
  split at h
  · rename_i a k' _
    exact ⟨a, k', (Except.ok.inj h).symm⟩
  · cases h

theorem pipealloc_lost (h : pipealloc s = .ok t) : t.lost = s.lost := by
  rw [pipealloc] at h
  split at h
  · cases h
    rfl
  split at h
  · cases h
    rfl
  obtain ⟨r, k', rfl⟩ := after_inv h
  cases r <;> rfl

theorem shmat_lost (h : (shmat s q shmid a).map (·.1) = .ok t) : t.lost = s.lost := by
  rw [shmat] at h
  split at h
  · rw [after] at h
    split at h
    · cases h
      rfl
    · cases h
  · cases h
    rfl

theorem shmctl_lost (hg : KeepsSegments s (.shmctl p shmid cmd buf)) :
    (shmctl s shmid cmd buf).lost = s.lost := by
  rw [shmctl]
  split
  · rfl
  · rename_i i hi
    split
    · rename_i hc
      change (s.shared i).toList ++ s.lost = s.lost
      rw [hg hc i hi]
      rfl
    · rfl

section Layout
variable [Image]

theorem reap_lost (h : reap s p i addr = .ok t) : t.lost = s.lost := by
  rw [reap] at h
  cases hd : (deliver (s.procs p) addr (s.procs i).xstate).run s.k with
  | error e =>
    rw [hd] at h
    cases h
  | ok r =>
    obtain ⟨ok, k⟩ := r
    rw [hd] at h
    change (if ok = true then _ else _) = _ at h
    split at h
    · obtain ⟨a, k', rfl⟩ := after_inv h
      rfl
    · cases h
      rfl

theorem fileclose_lost (h : fileclose s f = .ok t) : t.lost = s.lost := by
  rw [fileclose] at h
  split at h
  · cases h
    rfl
  split at h
  · rw [pipeclose] at h
    split at h
    · cases h
      rfl
    split at h
    · obtain ⟨a, k', rfl⟩ := after_inv h
      rfl
    · cases h
      rfl
  · cases h
    rfl

omit [Image] in
theorem withPid_lost {s t : Sys} (hf : ∀ q, f q = .ok t → t.lost = s.lost)
    (h : s.withPid p f = .ok t) : t.lost = s.lost := by
  rw [Sys.withPid] at h
  split at h
  · cases h
    rfl
  · exact hf _ h

/-- Only the removal of a segment loses a page. -/
theorem perform_lost (hg : KeepsSegments s c) (h : perform s c = .ok t) : t.lost = s.lost := by
  cases c with
  | fork p =>
    rw [perform] at h
    split at h
    · cases h
      rfl
    · obtain ⟨a, k', rfl⟩ := after_inv h
      rfl
  | exec p namei upath uargv =>
    obtain ⟨a, k', rfl⟩ := after_inv h
    rfl
  | sbrk p n =>
    obtain ⟨a, k', rfl⟩ := after_inv h
    rfl
  | exit p status =>
    rw [perform] at h
    split at h
    · cases h
    · cases h
      rfl
  | wait p addr =>
    rw [perform] at h
    split at h
    · cases h
      rfl
    · exact reap_lost h
  | waitpid p pid addr =>
    rw [perform] at h
    split at h
    · cases h
      rfl
    · split at h
      · exact reap_lost h
      · cases h
        rfl
  | store p va bs =>
    obtain ⟨a, k', rfl⟩ := after_inv h
    rfl
  | pipealloc => exact pipealloc_lost h
  | filealloc =>
    cases h
    rw [filealloc]
    split <;> rfl
  | filedup f =>
    cases h
    rfl
  | fileclose f => exact fileclose_lost h
  | shmget p key size shmflag =>
    refine withPid_lost (fun q hq => ?_) h
    cases hq
    rfl
  | shmat p shmid userAddr => exact withPid_lost (fun q hq => shmat_lost hq) h
  | shmdt p shmid =>
    refine withPid_lost (fun q hq => ?_) h
    cases hq
    rfl
  | shmctl p shmid cmd buf =>
    cases h
    exact shmctl_lost hg

theorem Mapped.exists_use (h : Mapped m t) (hl : t.state ≠ .unused) (hx : x ∈ t.pages m) :
    ∃ u, t.Uses m u x := by
  rw [Task.pages, if_neg hl] at hx
  rcases mem_add.mp hx with htable | hx
  · exact ⟨.table, htable⟩
  rcases mem_add.mp hx with huser | htf
  · rw [pagesOf, mem_coe] at huser
    obtain ⟨i, hi, rfl⟩ := List.mem_map.mp huser
    have hin : i < pagesUp t.sz := by
      have := (List.mem_range'_1.mp hi).2
      omega
    obtain ⟨w, hw, -⟩ := h.exact.user i hin
    refine ⟨.leaf i, w, hw, .inr (Nat.lt_of_lt_of_le hin h.exact.bound), ?_⟩
    rw [hw]
    rfl
  · exact ⟨.trapframe, mem_singleton.mp htf⟩

theorem Inv.accounted (h : Inv s) (hlost : s.lost = []) (hx : x ∈ pages) :
    (∃ l, Chain s.k.mem s.k.freelist l ∧ x ∈ l) ∨ s.InUse x := by
  obtain ⟨l, hc, hl⟩ := h.owned
  rw [← hl, Sys.extras, hlost] at hx
  rcases mem_add.mp hx with hfree | hx
  · exact .inl ⟨l, hc, hfree⟩
  right
  rcases mem_add.mp hx with htask | hx
  · obtain ⟨p, hp⟩ := mem_total.mp htask
    have hlive : (s.procs p).state ≠ .unused := by
      intro he
      rw [Sys.taskPages, Task.pages_free _ he] at hp
      exact absurd hp (notMem_zero x)
    obtain ⟨u, hu⟩ := ((h.good p).live hlive).exists_use hlive hp
    exact .inr (.inl ⟨p, u, hlive, hu⟩)
  rcases mem_add.mp hx with hboot | hx
  · exact .inl hboot
  rcases mem_add.mp hx with hpipe | hx
  · rw [Sys.pipePages, mem_coe] at hpipe
    obtain ⟨q, hq, rfl⟩ := List.mem_map.mp hpipe
    exact .inr (.inr (.inl ⟨q, hq, rfl, h.pipes.alive q hq⟩))
  rcases mem_add.mp hx with hseg | hx
  · obtain ⟨i, hi⟩ := mem_total.mp hseg
    cases hs : s.shared i with
    | none =>
      rw [hs] at hi
      exact absurd hi (notMem_zero x)
    | some y =>
      rw [hs] at hi
      cases mem_singleton.mp hi
      exact .inr (.inr (.inr ⟨i, h.shared i x hs⟩))
  · exact absurd hx List.not_mem_nil

theorem main_lost (hm : main n k = some s) : s.lost = [] := by
  rw [main] at hm
  split at hm
  · cases hm
    rfl
  · cases hm

/-- As long as no segment with a page of its own is removed, every page of the allocator is free or
in use. -/
theorem no_page_lost (hk : k.freelist = 0) (hm : main n k = some s0)
    (hg : Along step KeepsSegments s0 cs) (hr : run step s0 cs = some s) :
    ∀ x ∈ pages, (∃ l, Chain s.k.mem s.k.freelist l ∧ x ∈ l) ∨ s.InUse x := by
  have hstep : ∀ s c t, Inv s ∧ s.lost = [] → KeepsSegments s c → step s c = some t →
      Inv t ∧ t.lost = [] := by
    intro s c t hs hc ht
    exact ⟨hs.1.step ht, (perform_lost hc (step_eq_some.mp ht).2).trans hs.2⟩
  obtain ⟨hi, hlost⟩ := along_invariant hstep ⟨inv_main hk hm, main_lost hm⟩ hg hr
  exact fun x hx => hi.accounted hlost hx

end Layout

/-- A child that exits and is reaped, a pipe, and a segment that stays. -/
def useAndKeep : List Call :=
  [.fork init, .exit child 0, .wait init 0, .pipealloc, .shmget init 7 4096 0, .shmat init 1 0]

theorem no_page_lost_small : ∃ s, trace useAndKeep = some s ∧
    ∀ x ∈ @pages small, (∃ l, Chain s.k.mem s.k.freelist l ∧ x ∈ l) ∨ s.InUse x := by
  have hboot : (@main small 1 cold).map (fun s0 => (
      decide (Along (@step small) KeepsSegments s0 useAndKeep),
      (run (@step small) s0 useAndKeep).isSome)) = some (true, true) := by decide +kernel
  obtain ⟨s0, hm, he⟩ := Option.map_eq_some_iff.mp hboot
  obtain ⟨hg, hsome⟩ := Prod.mk.inj he
  obtain ⟨s, hr⟩ := Option.isSome_iff_exists.mp hsome
  refine ⟨s, Option.bind_eq_some_iff.mpr ⟨s0, hm, hr⟩, ?_⟩
  exact @no_page_lost small _ _ _ _ _ rfl hm (of_decide_eq_true hg) hr

section Layout
variable [Image]

theorem Inv.lost_not_inUse (h : Inv s) (hx : x ∈ s.lost)
    (hseg : ∀ i, (s.shm i).key ≠ 0 → (s.shm i).addr ≠ x) :
    ¬ ((∃ l, Chain s.k.mem s.k.freelist l ∧ x ∈ l) ∨ s.InUse x) := by
  obtain ⟨l, hc, hl⟩ := h.chain
  obtain ⟨r, hr⟩ := List.mem_iff_getElem?.mp hx
  have hother : ∀ o, s.Owns l o x → .removed r = o := fun o ho => h.owner_unique hl hr ho
  rintro (⟨l', hc', hx'⟩ | hboot | ⟨p, u, hp, hu⟩ | ⟨q, hq, rfl, -⟩ | ⟨i, hi, ha⟩)
  · rw [hc'.unique hc] at hx'
    obtain ⟨i, hi⟩ := List.mem_iff_getElem?.mp hx'
    cases hother (.free i) hi
  · obtain ⟨i, hi⟩ := List.mem_iff_getElem?.mp hboot
    cases hother (.kernel i) hi
  · cases hother (.task p u) ⟨hp, hu⟩
  · obtain ⟨i, hi⟩ := List.mem_iff_getElem?.mp (List.mem_map_of_mem (f := (·.page)) hq)
    cases hother (.pipe i) hi
  · exact hseg i hi ha

end Layout

/-- shmget(), shmat() with a null address and shmctl() to remove the segment. -/
def useAndRemove : List Call :=
  [.shmget init 7 4096 0, .shmat init 1 0, .shmctl init 1 Shm.IPC_RMID 0]

/-- After the removal the page is neither free nor in use. -/
theorem removed_segment_leaks : ∃ s x, trace useAndRemove = some s ∧ x ∈ @pages small ∧
    ¬ ((∃ l, Chain s.k.mem s.k.freelist l ∧ x ∈ l) ∨ s.InUse x) := by
  have hrun : (trace useAndRemove).map (fun s => (s.lost, decide (∀ i, (s.shm i).key = 0))) =
      some ([PHYSTOP - 9 * PGSIZE], true) := by decide +kernel
  obtain ⟨s, hs, he⟩ := Option.map_eq_some_iff.mp hrun
  obtain ⟨hlost, hkeys⟩ := Prod.mk.inj he
  have hi := @Reachable.inv small s (reachable_trace hs)
  have hx : PHYSTOP - 9 * PGSIZE ∈ s.lost := by
    rw [hlost]
    exact List.mem_singleton_self _
  refine ⟨s, PHYSTOP - 9 * PGSIZE, hs, (@mem_pages small _).mpr (by decide), ?_⟩
  exact @Inv.lost_not_inUse small s _ hi hx
    (fun i hk => absurd (of_decide_eq_true hkeys i) hk)

end Xv6.Mem
