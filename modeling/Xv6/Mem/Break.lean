import Xv6.Mem.Isolation

namespace Xv6.Mem
open BitVec Lib.Radix Lib

/-- What growproc(n) is to leave when it returns 0. -/
structure MovesBreak (t t' : Task) (n : Int) (k k' : Kmem) : Prop where
  size : (t'.sz.toNat : Int) = t.sz.toNat + n
  kept : ∀ va, va < t.sz → va < t'.sz → ∃ w, t.pte k.mem va = some w ∧ t'.pte k'.mem va = some w ∧
    getByte (k'.mem (pte2pa w)) (va.toNat % 4096) = getByte (k.mem (pte2pa w)) (va.toNat % 4096)
  zeroed : ∀ va w, t.pte k.mem va = none → t'.pte k'.mem va = some w → k'.mem (pte2pa w) = 0

/-- What growproc(n) is to leave when it returns -1. -/
structure LeavesBreak (t t' : Task) (k k' : Kmem) : Prop where
  size : t'.sz = t.sz
  map : ∀ va, t'.pte k'.mem va = t.pte k.mem va
  kept : ∀ va, va < t.sz → ∃ w, t.pte k.mem va = some w ∧
    getByte (k'.mem (pte2pa w)) (va.toNat % 4096) = getByte (k.mem (pte2pa w)) (va.toNat % 4096)

theorem newsz_toNat (hsz : sz.toNat ≤ 4096 * 32768) {n : BitVec 32}
    (hn : 0 ≤ (sz.toNat : Int) + n.toInt) :
    ((sz + n.signExtend 64).toNat : Int) = sz.toNat + n.toInt := by
  have hlt := @toInt_lt 32 n
  have hge := @le_toInt 32 n
  rw [toNat_add, BitVec.signExtend, toNat_ofInt]
  omega

theorem lt_pagesUp_of_lt {va sz : Addr} (h : va < sz) : va.toNat / 4096 < pagesUp sz := by
  rw [lt_def] at h
  rw [pagesUp]
  omega

section Layout
variable [Image]

theorem Space.byte_kept {va : Addr} (h : Space R root tf n f k) (hm : m ≤ n)
    (hk : Keeps (pagesOf f 0 m) k k') (hva : va.toNat / 4096 < m) :
    ∃ w, f (va.toNat / 4096) = some w ∧
      getByte (k'.mem (pte2pa w)) (va.toNat % 4096) =
        getByte (k.mem (pte2pa w)) (va.toNat % 4096) := by
  obtain ⟨w, hw, -⟩ := h.exact.user _ (Nat.lt_of_lt_of_le hva hm)
  exact ⟨w, hw, by rw [hk _ (mem_pagesOf hw hva)]⟩

theorem Space.leavesBreak (h : Space R t.pagetable tf (pagesUp t.sz) f k)
    (h' : Space R t.pagetable tf (pagesUp t.sz) f k')
    (hk : Keeps (pagesOf f 0 (pagesUp t.sz)) k k') : LeavesBreak t t k k' := by
  refine ⟨rfl, fun va => ?_, fun va hva => ?_⟩
  · rw [Task.pte, Task.pte, h.table.map, h'.table.map]
  · rw [Task.pte, h.table.map]
    exact h.byte_kept (Nat.le_refl _) hk (lt_pagesUp_of_lt hva)

/-- The break moves up over pages that have been added and zeroed. -/
theorem Space.moves_up (h : Space R t.pagetable tf (pagesUp t.sz) f k)
    (h' : Space R t.pagetable tf (pagesUp sz) g k') (ha : Added f g (pagesUp t.sz) (pagesUp sz) p)
    (hz : Zeroed g (pagesUp t.sz) (pagesUp sz) k') (hk : Keeps (pagesOf f 0 (pagesUp t.sz)) k k')
    (hsz : (sz.toNat : Int) = t.sz.toNat + n) : MovesBreak t { t with sz := sz } n k k' := by
  refine ⟨hsz, fun va hva hva' => ?_, fun va w hnone hw => ?_⟩
  · have hlt := lt_pagesUp_of_lt hva
    obtain ⟨w, hw, hbyte⟩ := h.byte_kept (Nat.le_refl _) hk hlt
    refine ⟨w, ?_, ?_, hbyte⟩
    · rw [Task.pte, h.table.map, hw]
    · rw [Task.pte, h'.table.map, ha.same _ (by omega), hw]
  · rw [Task.pte, h.table.map] at hnone
    rw [Task.pte, h'.table.map] at hw
    by_cases hnew : pagesUp t.sz ≤ va.toNat / 4096 ∧ va.toNat / 4096 < pagesUp sz
    · exact hz _ hnew.1 hnew.2 w hw
    · rw [ha.same _ hnew, hnone] at hw
      cases hw

/-- The break moves down, and the pages above it go. -/
theorem Space.moves_down (h : Space R t.pagetable tf (pagesUp t.sz) f k)
    (h' : Space R t.pagetable tf (pagesUp sz)
      (unmapped f (pagesUp sz) (pagesUp t.sz - pagesUp sz)) k') (hle : sz ≤ t.sz)
    (hk : Keeps (pagesOf f 0 (pagesUp sz)) k k') (hsz : (sz.toNat : Int) = t.sz.toNat + n) :
    MovesBreak t { t with sz := sz } n k k' := by
  refine ⟨hsz, fun va hva hva' => ?_, fun va w hnone hw => ?_⟩
  · have hlt : va.toNat / 4096 < pagesUp sz := lt_pagesUp_of_lt hva'
    obtain ⟨w, hw, hbyte⟩ := h.byte_kept (pagesUp_mono hle) hk hlt
    refine ⟨w, ?_, ?_, hbyte⟩
    · rw [Task.pte, h.table.map, hw]
    · rw [Task.pte, h'.table.map, unmapped, if_neg (by omega), hw]
  · rw [Task.pte, h.table.map] at hnone
    rw [Task.pte, h'.table.map, unmapped, hnone, ite_self] at hw
    cases hw

/-- growproc(n) keeps its promise except for an n below minus the size: there it returns 0 with
the break where it was. -/
theorem growproc_moves_break_iff (h : Reachable s) (hp : s.Runs p) (n : BitVec 32) :
    Ends (growproc (s.procs p) n) s.k (fun r k' =>
      (r.2 = 0 ∨ r.2 = -1) ∧
      ((r.2 = 0 → MovesBreak (s.procs p) r.1 n.toInt s.k k') ∧
          (r.2 = -1 → LeavesBreak (s.procs p) r.1 s.k k') ↔
        0 ≤ ((s.procs p).sz.toNat : Int) + n.toInt)) := by
  have hs := h.inv.space hp.1
  generalize s.procs p = t at hs ⊢
  generalize (t.trapframe ::ₘ s.others p) = R at hs
  have hsz := lt_of_pagesUp hs.small
  rw [growproc]
  refine .ite (fun hpos => ?_) (fun hpos => .ite (fun hneg => ?_) (fun hzero => ?_))
  · have hnew := newsz_toNat hsz (show 0 ≤ (t.sz.toNat : Int) + n.toInt by omega)
    have hup : ¬ t.sz + n.signExtend 64 < t.sz := by
      rw [lt_def]
      omega
    refine (hs.uvmalloc (t.sz + n.signExtend 64) (by decide)).bind (fun r k1 h1 => ?_)
    rw [if_neg hup] at h1
    obtain ⟨hk1, h1⟩ := h1
    have hk1 := hk1.mono (Multiset.le_add_right _ R)
    rcases h1 with ⟨rfl, h1⟩ | ⟨rfl, g, h1, ha, hz⟩
    · rw [if_pos rfl, ends_pure]
      exact ⟨.inr rfl, fun _ => by omega,
        fun _ => ⟨fun he => by simp at he, fun _ => hs.leavesBreak h1 hk1⟩⟩
    have hne : t.sz + n.signExtend 64 ≠ 0 := by
      intro he
      have hzero : BitVec.toNat (0 : Addr) = 0 := rfl
      rw [he, hzero] at hnew
      omega
    rw [if_neg hne, ends_pure]
    exact ⟨.inl rfl, fun _ => by omega,
      fun _ => ⟨fun _ => hs.moves_up h1 ha hz hk1 hnew, fun he => by simp at he⟩⟩
  · refine (hs.uvmdealloc (t.sz + n.signExtend 64)).bind (fun r k1 h1 => ?_)
    obtain ⟨hr, hk1, h1⟩ := h1
    have hk1 := hk1.mono (Multiset.le_add_right _ R)
    rw [ends_pure]
    refine ⟨.inl rfl, fun hmoves => ?_, fun hge => ⟨fun _ => ?_, fun he => by simp at he⟩⟩
    · -- Below zero the sum wraps and uvmdealloc() leaves the break: no size is negative.
      have hsize := (hmoves.1 rfl).size
      dsimp only at hsize
      omega
    · have hnew := newsz_toNat hsz hge
      have hdown : ¬ t.sz ≤ t.sz + n.signExtend 64 := by
        rw [le_def]
        omega
      rw [if_neg hdown] at hr
      subst hr
      refine hs.moves_down h1 ?_ hk1 hnew
      rw [le_def]
      omega
  · have hn : n.toInt = 0 := by omega
    rw [ends_pure, hn]
    refine ⟨.inl rfl, fun _ => by omega, fun _ => ⟨fun _ => ?_, fun he => by simp at he⟩⟩
    refine ⟨by simp, fun va hva _ => ?_, fun va w hnone hw => ?_⟩
    · obtain ⟨w, hw, hbyte⟩ :=
        hs.byte_kept (Nat.le_refl _) (fun _ _ => rfl) (lt_pagesUp_of_lt hva)
      exact ⟨w, hw, hw, hbyte⟩
    · rw [hnone] at hw
      cases hw

end Layout

/-- The first process, one page long, asks for less than nothing. -/
theorem growproc_below_zero : ∃ s t k', @Reachable small s ∧ s.Runs init ∧
    (@growproc small (s.procs init) (-4097)).run s.k = .ok ((t, 0), k') ∧
    (s.procs init).sz = 4096 ∧ t.sz = 4096 ∧ ¬ MovesBreak (s.procs init) t (-4097) s.k k' := by
  have hd : (trace []).any (fun s => decide (s.Runs init) && decide ((s.procs init).sz = 4096) &&
      ((@growproc small (s.procs init) (-4097)).run s.k).toOption.any (fun r =>
        decide (r.1.2 = 0 ∧ r.1.1.sz = 4096))) = true := by decide +kernel
  obtain ⟨s, hs, hp⟩ := (Option.any_eq_true _ _).mp hd
  simp only [Bool.and_eq_true, decide_eq_true_eq] at hp
  obtain ⟨⟨⟨t, r⟩, k'⟩, hr, hq⟩ := ok_of_any hp.2
  obtain ⟨rfl, ht⟩ := of_decide_eq_true hq
  refine ⟨s, t, k', reachable_trace hs, hp.1.1, hr, hp.1.2, ht, fun hm => ?_⟩
  have hsize := hm.size
  rw [ht, hp.1.2] at hsize
  exact absurd hsize (by decide)

theorem growproc_moves_break_page : ∃ s t k', trace [] = some s ∧
    (@growproc small (s.procs init) 4096).run s.k = .ok ((t, 0), k') ∧
    MovesBreak (s.procs init) t 4096 s.k k' := by
  have hd : (trace []).any (fun s => decide (s.Runs init) &&
      ((@growproc small (s.procs init) 4096).run s.k).toOption.any (fun r =>
        decide (r.1.2 = 0))) = true := by decide +kernel
  obtain ⟨s, hs, hp⟩ := (Option.any_eq_true _ _).mp hd
  simp only [Bool.and_eq_true, decide_eq_true_eq] at hp
  obtain ⟨⟨t, r⟩, k', hr, -, hiff⟩ := @growproc_moves_break_iff small s init
    (reachable_trace hs) hp.1 4096
  rw [hr] at hp
  obtain rfl : r = 0 := of_decide_eq_true hp.2
  refine ⟨s, t, k', hs, hr, (hiff.mpr ?_).1 rfl⟩
  have : (4096 : BitVec 32).toInt = 4096 := by decide
  omega

end Xv6.Mem
