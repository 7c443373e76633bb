import Xv6.Mem.Bytes
import Xv6.Mem.Isolation

namespace Xv6.Mem
open Function Lib.Radix List Lib

/-- The room that n bytes take on the stack, whose pointer is kept 16-byte aligned. -/
def up16 (n : Nat) : Nat := (n + 15) / 16 * 16

/-- The room that the argument strings take. -/
def argBytes (argv : List (List Byte)) : Nat := (argv.map (fun s => up16 (s.length + 1))).sum

/-- The strings and the array of pointers fit into the stack. -/
def Fits (argv : List (List Byte)) : Prop :=
  argBytes argv + up16 (8 * (argv.length + 1)) ≤ USERSTACK * 4096

instance (argv : List (List Byte)) : Decidable (Fits argv) := inferInstanceAs (Decidable (_ ≤ _))

/-- The argument vectors of sys_exec(). -/
structure Passable (argv : List (List Byte)) : Prop where
  count : argv.length < MAXARG
  short : ∀ s ∈ argv, s.length < 4096

/-- Where the strings start, as offsets into the stack page, from the offset c downwards. -/
def argOffs : Nat → List (List Byte) → List Nat
  | _, [] => []
  | c, s :: argv => (c - up16 (s.length + 1)) :: argOffs (c - up16 (s.length + 1)) argv

/-- The stack page with the strings. -/
def pushPage : Page → Nat → List (List Byte) → Page
  | p, _, [] => p
  | p, c, s :: argv =>
    pushPage (setBytes p (c - up16 (s.length + 1)) (s ++ [0])) (c - up16 (s.length + 1)) argv

/-- The address at an offset into page m + 1. -/
def stk (m c : Nat) : Addr := BitVec.ofNat 64 (4096 * (m + 1) + c)

theorem argBytes_cons (s : List Byte) (argv : List (List Byte)) :
    argBytes (s :: argv) = up16 (s.length + 1) + argBytes argv := by
  simp [argBytes]

theorem le_up16 (n : Nat) : n ≤ up16 n := by
  rw [up16]
  omega

theorem up16_mod (n : Nat) : up16 n % 16 = 0 := by
  rw [up16]
  omega

theorem up16_le (h : n ≤ 4096) : up16 n ≤ 4096 := by
  rw [up16]
  omega

theorem stk_toNat (hm : m ≤ 32768) (hc : c ≤ 4096) : (stk m c).toNat = 4096 * (m + 1) + c := by
  rw [stk, BitVec.toNat_ofNat]
  omega

/-- Taking n bytes from the stack and aligning its pointer does not wrap around: the pointer ends
below the stack exactly when there is no room. -/
theorem push_sp (hm : m ≤ 32768) (hc : c ≤ 4096) (hc16 : c % 16 = 0) (hn : n ≤ 4096) :
    (stk m c - BitVec.ofNat 64 n - (stk m c - BitVec.ofNat 64 n) % 16).toNat =
      4096 * (m + 1) + c - up16 n := by
  have hs := stk_toNat hm hc
  have h1 : (stk m c - BitVec.ofNat 64 n).toNat = 4096 * (m + 1) + c - n := by
    rw [BitVec.toNat_sub, hs, BitVec.toNat_ofNat]
    omega
  have h16 : (16 : Addr).toNat = 16 := rfl
  rw [BitVec.toNat_sub, BitVec.toNat_umod, h1, h16, up16]
  omega

theorem push_lt (hm : m ≤ 32768) (hc : c ≤ 4096) (hc16 : c % 16 = 0) (hn : n ≤ 4096) :
    stk m c - BitVec.ofNat 64 n - (stk m c - BitVec.ofNat 64 n) % 16 < pg (m + 1) ↔
      ¬ up16 n ≤ c := by
  have := up16_le hn
  rw [BitVec.lt_def, push_sp hm hc hc16 hn, pg_toNat (by omega)]
  omega

theorem push_eq (hm : m ≤ 32768) (hc : c ≤ 4096) (hc16 : c % 16 = 0) (hn : n ≤ 4096)
    (hle : up16 n ≤ c) :
    stk m c - BitVec.ofNat 64 n - (stk m c - BitVec.ofNat 64 n) % 16 = stk m (c - up16 n) := by
  apply BitVec.eq_of_toNat_eq
  rw [push_sp hm hc hc16 hn, stk_toNat hm (by omega)]
  omega

theorem length_argOffs (c : Nat) (argv : List (List Byte)) :
    (argOffs c argv).length = argv.length := by
  induction argv generalizing c with
  | nil => rfl
  | cons s argv ih => simp [argOffs, ih]

/-- The places of the strings in the stack page, with their lengths. -/
def argRegions (c : Nat) (argv : List (List Byte)) : List (Nat × Nat) :=
  (argOffs c argv).zip (argv.map (fun s => s.length + 1))

theorem argRegions_cons (c : Nat) (s : List Byte) (argv : List (List Byte)) :
    argRegions c (s :: argv) = (c - up16 (s.length + 1), s.length + 1) ::
      argRegions (c - up16 (s.length + 1)) argv := rfl

theorem mem_argRegions {i : Nat} (hi : (argOffs c argv)[i]? = some o) (hs : argv[i]? = some s) :
    (o, s.length + 1) ∈ argRegions c argv := by
  refine mem_of_getElem? (i := i) ?_
  rw [argRegions, List.getElem?_zip_eq_some]
  refine ⟨hi, ?_⟩
  rw [List.getElem?_map, hs]
  rfl

theorem argRegions_bounds (hfit : argBytes argv ≤ c) :
    ∀ r ∈ argRegions c argv, c - argBytes argv ≤ r.1 ∧ r.1 + r.2 ≤ c := by
  induction argv generalizing c with
  | nil =>
    intro r hr
    cases hr
  | cons s argv ih =>
    intro r hr
    have hlen := le_up16 (s.length + 1)
    rw [argBytes_cons] at hfit ⊢
    rw [argRegions_cons] at hr
    rcases mem_cons.mp hr with rfl | hr
    · simp only
      omega
    · have := ih (by omega) r hr
      omega

/-- Each string lies below the ones before it. -/
theorem argRegions_below (hfit : argBytes argv ≤ c) :
    (argRegions c argv).Pairwise (fun a b => b.1 + b.2 ≤ a.1) := by
  induction argv generalizing c with
  | nil => exact .nil
  | cons s argv ih =>
    rw [argBytes_cons] at hfit
    rw [argRegions_cons]
    refine .cons (fun r hr => ?_) (ih (by omega))
    exact (argRegions_bounds (by omega) r hr).2

/-- What lies above the strings stays. -/
theorem getByte_pushPage_above (p : Page) (hfit : argBytes argv ≤ c) (hc : c ≤ o)
    (ho : o < 4096) : getByte (pushPage p c argv) o = getByte p o := by
  induction argv generalizing p c with
  | nil => rfl
  | cons s argv ih =>
    have hlen := le_up16 (s.length + 1)
    rw [argBytes_cons] at hfit
    rw [pushPage, ih _ (by omega) (by omega), getByte_setBytes _ _ ho, if_pos (by omega),
      getD_eq_default]
    · rw [length_append, length_singleton]
      omega
    · rw [length_append, length_singleton]
      omega

theorem getByte_pushPage {i j : Nat} (p : Page) (hfit : argBytes argv ≤ c) (hc : c ≤ 4096)
    (hi : (argOffs c argv)[i]? = some o) (hs : argv[i]? = some s)
    (hb : (s ++ [0])[j]? = some b) : getByte (pushPage p c argv) (o + j) = b := by
  induction argv generalizing p c i with
  | nil => cases hs
  | cons s' argv ih =>
    have hlen := le_up16 (s'.length + 1)
    rw [argBytes_cons] at hfit
    cases i with
    | zero =>
      cases hs
      cases hi
      have hj : j < s.length + 1 := by
        have := (List.getElem?_eq_some_iff.mp hb).1
        rwa [length_append, length_singleton] at this
      rw [pushPage, getByte_pushPage_above _ (by omega) (by omega) (by omega),
        getByte_setBytes _ _ (by omega), if_pos (by omega), Nat.add_sub_cancel_left,
        getD_eq_getElem?_getD, hb]
      · rfl
      · rw [length_append, length_singleton]
        omega
    | succ i => exact ih _ (by omega) (by omega) hi hs

theorem put_eq_self (k : Kmem) (x : Addr) : k.put x (k.mem x) = k := by
  rw [Kmem.put, update_eq_self]

theorem put_put (k : Kmem) (x : Addr) (p q : Page) : (k.put x p).put x q = k.put x q := by
  rw [Kmem.put, Kmem.put, Kmem.put, update_idem]

section Layout
variable [Image]

/-- The loop over the argument strings writes them below each other into the stack page, or runs
out of room. -/
theorem Space.pushArgs_page (h : Space R root tf n f k) (hw : f (m + 1) = some w)
    (hu : Has w PTE_U) (hwr : Has w PTE_W) (hc : c ≤ 4096) (hc16 : c % 16 = 0)
    (hargc : argc + argv.length < MAXARG) (hshort : ∀ s ∈ argv, s.length < 4096) :
    Ends (Mem.pushArgs root (pg (m + 1)) argv argc (stk m c) ustack) k (fun r k' =>
      if argBytes argv ≤ c then
        r = some (stk m (c - argBytes argv), ustack ++ (argOffs c argv).map (stk m)) ∧
        k' = k.put (pte2pa w) (pushPage (k.mem (pte2pa w)) c argv)
      else r = none) := by
  have hlt := h.exact.lt_of_user h.table.low hw hu
  have hsmall := h.small
  induction argv generalizing c argc ustack k with
  | nil =>
    have hz : argBytes [] ≤ c := Nat.zero_le c
    refine ends_pure.mpr ?_
    rw [if_pos hz]
    refine ⟨?_, ?_⟩
    · rw [argOffs, map_nil, append_nil]
      rfl
    · exact (put_eq_self k _).symm
  | cons s argv ih =>
    have hs : s.length < 4096 := hshort s mem_cons_self
    have hroom : s.length + 1 ≤ 4096 := by omega
    rw [length_cons] at hargc
    rw [Mem.pushArgs, if_neg (by omega)]
    simp only
    rw [argBytes_cons]
    by_cases hle : up16 (s.length + 1) ≤ c
    · have hmod := up16_mod (s.length + 1)
      have hlen := le_up16 (s.length + 1)
      rw [if_neg (fun hlt => (push_lt (by omega) hc hc16 hroom).mp hlt hle),
        push_eq (by omega) hc hc16 hroom hle, ends_bind]
      have hva : (stk m (c - up16 (s.length + 1))).toNat = 4096 * (m + 1) +
          (c - up16 (s.length + 1)) := stk_toNat (by omega) (by omega)
      have hdiv : (stk m (c - up16 (s.length + 1))).toNat / 4096 = m + 1 := by omega
      have hoff : (stk m (c - up16 (s.length + 1))).toNat % 4096 = c - up16 (s.length + 1) := by
        omega
      refine (h.copyout_page (hdiv.symm ▸ hw) hu hwr ?_ (by simp)).mono (fun r k1 h1 => ?_)
      · rw [hoff, length_append, length_singleton]
        omega
      obtain ⟨rfl, rfl⟩ := h1
      rw [if_neg (by decide), hoff]
      have hput := h.put (Multiset.mem_add.mpr (.inl (mem_pagesOf hw hlt)))
        (setBytes (k.mem (pte2pa w)) (c - up16 (s.length + 1)) (s ++ [0]))
      refine (ih hput (by omega) (by omega) (by omega)
        (fun s hs => hshort s (mem_cons_of_mem _ hs))).mono (fun r k2 h2 => ?_)
      by_cases hall : argBytes argv ≤ c - up16 (s.length + 1)
      · rw [if_pos hall] at h2
        rw [if_pos (by omega), h2.1, h2.2, put_put, put_self]
        refine ⟨?_, rfl⟩
        rw [argOffs, map_cons, append_assoc, singleton_append,
          show c - (up16 (s.length + 1) + argBytes argv) =
            c - up16 (s.length + 1) - argBytes argv by omega]
      · rw [if_neg hall] at h2
        rw [if_neg (by omega)]
        exact h2
    · rw [if_pos ((push_lt (by omega) hc hc16 hroom).mpr hle), ends_pure, if_neg (by omega)]

/-- The offset of the array of pointers. -/
def arrayOff (argv : List (List Byte)) : Nat :=
  4096 - argBytes argv - up16 (8 * (argv.length + 1))

/-- The pointers to the strings, with the null pointer at their end. -/
def argPointers (m : Nat) (argv : List (List Byte)) : List Word :=
  (argOffs 4096 argv).map (stk m) ++ [0]

/-- The stack page as exec() leaves it. -/
def stackPage (p : Page) (m : Nat) (argv : List (List Byte)) : Page :=
  setBytes (pushPage p 4096 argv) (arrayOff argv) ((argPointers m argv).flatMap toBytes)

omit [Image] in
theorem length_argPointers (m : Nat) (argv : List (List Byte)) :
    (argPointers m argv).length = argv.length + 1 := by
  simp [argPointers, length_argOffs]

theorem Space.execBad_none (h : Space R pt tf (pagesUp sz) g k) :
    Ends (Mem.execBad pt sz) k (fun r _ => r = none) := by
  rw [Mem.execBad]
  exact h.procFreepagetable.bind (fun _ _ _ => ends_pure.mpr rfl)

omit [Image] in
theorem argBytes_mod (argv : List (List Byte)) : argBytes argv % 16 = 0 := by
  induction argv with
  | nil => rfl
  | cons s argv ih =>
    have := up16_mod (s.length + 1)
    rw [argBytes_cons]
    omega

omit [Image] in
theorem pg_eq_stk (m : Nat) : pg (m + 2) = stk m 4096 := by
  rw [pg, stk]
  congr 1

omit [Image] in
theorem stackbase_eq (m : Nat) :
    stk m 4096 - BitVec.ofNat 64 (USERSTACK * 4096) = pg (m + 1) := by
  rw [← pg_eq_stk, ← pg_succ (m + 1)]
  exact BitVec.add_sub_cancel _ _

/-- From the argument strings on exec() succeeds exactly when they fit. -/
theorem Stacked.execCommit (h0 : Space (tf ::ₘ S) root tf (pagesUp oldsz) f k0)
    (h : Stacked (withSpace k0.mem root f (pagesUp oldsz) (tf ::ₘ S)) pt tf sz m g k)
    (hk : Keeps (withSpace k0.mem root f (pagesUp oldsz) (tf ::ₘ S)) k0 k) (ha : Passable argv)
    (hw : g (m + 1) = some w) (hu : Has w PTE_U) (hwr : Has w PTE_W) :
    Ends (Mem.execCommit tf root oldsz pt sz epc argv) k (fun r k' =>
      if Fits argv then
        r = some ⟨pt, sz, argv.length⟩ ∧ Space (tf ::ₘ S) pt tf (m + 2) g k' ∧
        k'.mem (pte2pa w) = stackPage (k.mem (pte2pa w)) m argv ∧
        k'.mem tf tfA1 = stk m (arrayOff argv) ∧ k'.mem tf tfSp = stk m (arrayOff argv)
      else r = none) := by
  have hsmall := h.space.small
  have hargc := ha.count
  rw [MAXARG] at hargc
  have hmod := argBytes_mod argv
  have hroom : (argv.length + 1) * 8 ≤ 4096 := by omega
  have hup := up16_mod ((argv.length + 1) * 8)
  have hupr := le_up16 ((argv.length + 1) * 8)
  have hfits : Fits argv ↔
      argBytes argv ≤ 4096 ∧ up16 ((argv.length + 1) * 8) ≤ 4096 - argBytes argv := by
    rw [Fits, USERSTACK, Nat.mul_comm 8]
    omega
  have hxin : pte2pa w ∈ pagesOf g 0 (m + 2) := mem_pagesOf hw (by omega)
  have hcount : 0 + argv.length < MAXARG := (Nat.zero_add _).symm ▸ ha.count
  rw [Mem.execCommit, h.top, pg_eq_stk, stackbase_eq]
  refine ((h.space.pushArgs_page hw hu hwr (Nat.le_refl 4096) (by decide) hcount
    ha.short).and h.space.pushArgs).bind (fun r k1 h1 => ?_)
  obtain ⟨h1, -, hs1⟩ := h1
  have hs1' : ∀ k, Space (withSpace k0.mem root f (pagesUp oldsz) (tf ::ₘ S)) pt tf (m + 2) g k →
      Space (withSpace k0.mem root f (pagesUp oldsz) (tf ::ₘ S)) pt tf
        (pagesUp (stk m 4096)) g k := by
    intro k hs
    rw [← pg_eq_stk, pagesUp_pg (by omega)]
    exact hs
  by_cases hfit : argBytes argv ≤ 4096
  · rw [if_pos hfit] at h1
    obtain ⟨rfl, rfl⟩ := h1
    simp only
    by_cases hall : up16 ((argv.length + 1) * 8) ≤ 4096 - argBytes argv
    · have hput := h.space.putUser hxin (stackPage (k.mem (pte2pa w)) m argv)
      have hoff : arrayOff argv = 4096 - argBytes argv - up16 ((argv.length + 1) * 8) := by
        rw [arrayOff, Nat.mul_comm 8]
      have hva : (stk m (arrayOff argv)).toNat = 4096 * (m + 1) + arrayOff argv :=
        stk_toNat (by omega) (by omega)
      have hdiv : (stk m (arrayOff argv)).toNat / 4096 = m + 1 := by omega
      have hrem : (stk m (arrayOff argv)).toNat % 4096 = arrayOff argv := by omega
      have hlen : ((argPointers m argv).flatMap toBytes).length = (argv.length + 1) * 8 := by
        rw [length_flatMap_toBytes, length_argPointers]
        omega
      have hlt : ¬ stk m (4096 - argBytes argv) - BitVec.ofNat 64 ((argv.length + 1) * 8) -
          (stk m (4096 - argBytes argv) - BitVec.ofNat 64 ((argv.length + 1) * 8)) % 16 <
          pg (m + 1) := by
        rw [push_lt (by omega) (by omega) (by omega) hroom, not_not]
        exact hall
      rw [if_neg hlt, push_eq (by omega) (by omega) (by omega) hroom hall, ← hoff]
      refine (hs1.copyout_page (hdiv.symm ▸ hw) hu hwr ?_ ?_).bind (fun r k2 h2 => ?_)
      · rw [hrem]
        change _ + ((argPointers m argv).flatMap toBytes).length ≤ _
        rw [hlen]
        omega
      · intro he
        have := congrArg List.length he
        change ((argPointers m argv).flatMap toBytes).length = _ at this
        rw [hlen] at this
        simp at this
      obtain ⟨rfl, rfl⟩ := h2
      rw [if_neg (by decide), hrem, put_put, put_self]
      refine (h0.install hput.2 (hk.trans hput.1) _).mono (fun r k3 h3 => ?_)
      obtain ⟨rfl, -, hk3, hs3, htf⟩ := h3
      rw [if_pos (hfits.mpr ⟨hfit, hall⟩)]
      refine ⟨rfl, hs3, ?_, ?_, ?_⟩
      · rw [hk3 _ hxin, put_self]
      · rw [htf]
        rfl
      · rw [htf]
        rfl
    · have hlt : stk m (4096 - argBytes argv) - BitVec.ofNat 64 ((argv.length + 1) * 8) -
          (stk m (4096 - argBytes argv) - BitVec.ofNat 64 ((argv.length + 1) * 8)) % 16 <
          pg (m + 1) := (push_lt (by omega) (by omega) (by omega) hroom).mpr hall
      rw [if_pos hlt]
      refine (hs1' _ hs1).execBad_none.mono (fun r k2 hr => ?_)
      rw [if_neg (fun hf => hall (hfits.mp hf).2)]
      exact hr
  · rw [if_neg hfit] at h1
    subst h1
    refine (hs1' _ hs1).execBad_none.mono (fun r k2 hr => ?_)
    rw [if_neg (fun hf => hfit (hfits.mp hf).1)]
    exact hr

/-- Every part of exec() up to the stack succeeds. -/
def Loads (tf : Addr) (ip : File) (k : Kmem) : Prop :=
  ∃ pt sz k1 pt' sz' k2, (execLoad tf ip).run k = .ok (.ready pt sz, k1) ∧
    (execStack pt sz).run k1 = .ok (.ready pt' sz', k2)

/-- exec() by a process, and syscall(), which puts the result into a0. -/
def execCall (t : Task) (ip : Option File) (argv : List (List Byte)) : Km (Option Program) := do
  let r ← exec t.trapframe t.pagetable t.sz ip argv
  store t.trapframe tfA0 (r.elim (-1) (fun p => BitVec.ofNat 64 p.argc))
  pure r

/-- The user reads these bytes from va on. -/
def Reads (m : Addr → Page) (root va : Addr) (bs : List Byte) : Prop :=
  ∀ (j : Nat) b, bs[j]? = some b → userByte m root (va + BitVec.ofNat 64 j) = some b

/-- Where the strings at the addresses a and the array at a1 lie, with their lengths. -/
def regions (argv : List (List Byte)) (a : List Addr) (a1 : Addr) : List (Nat × Nat) :=
  (a.zip argv).map (fun x => (x.1.toNat, x.2.length + 1)) ++ [(a1.toNat, 8 * (argv.length + 1))]

/-- The new program finds its arguments, with the strings at the addresses a. -/
structure Passed (argv : List (List Byte)) (a : List Addr) (tf : Addr) (p : Program) (k : Kmem) :
    Prop where
  a0 : k.mem tf tfA0 = BitVec.ofNat 64 argv.length
  size : (USERSTACK + 1) * 4096 ≤ p.sz.toNat
  sp : k.mem tf tfSp = k.mem tf tfA1
  aligned : (k.mem tf tfA1).toNat % 16 = 0
  array : Reads k.mem p.pagetable (k.mem tf tfA1) ((a ++ [0]).flatMap toBytes)
  strings : List.Forall₂ (fun x s => Reads k.mem p.pagetable x (s ++ [0])) a argv
  inside : ∀ r ∈ regions argv a (k.mem tf tfA1),
    p.sz.toNat - USERSTACK * 4096 ≤ r.1 ∧ r.1 + r.2 ≤ p.sz.toNat
  apart : (regions argv a (k.mem tf tfA1)).Pairwise (fun r r' => r'.1 + r'.2 ≤ r.1)
  guard : ∀ va : Addr, p.sz.toNat - (USERSTACK + 1) * 4096 ≤ va.toNat →
    va.toNat < p.sz.toNat - USERSTACK * 4096 → userByte k.mem p.pagetable va = none

omit [Image] in
theorem stk_add (m o j : Nat) : stk m o + BitVec.ofNat 64 j = stk m (o + j) := by
  rw [stk, stk, ← BitVec.ofNat_add, Nat.add_assoc]

theorem Space.userByte_stk (h : Space R pt tf n g k) (hw : g (m + 1) = some w)
    (hu : Has w PTE_U) (hm : m ≤ 32768) (ho : o < 4096) :
    userByte k.mem pt (stk m o) = some (getByte (k.mem (pte2pa w)) o) := by
  have hdiv : (4096 * (m + 1) + o) / 4096 = m + 1 := by omega
  have hmod : (4096 * (m + 1) + o) % 4096 = o := by omega
  rw [userByte, h.table.map, stk_toNat hm (by omega), hdiv, hmod, hw]
  exact if_pos hu

theorem Space.reads_stk (h : Space R pt tf n g k) (hw : g (m + 1) = some w)
    (hu : Has w PTE_U) (hm : m ≤ 32768) (hfit : o + bs.length ≤ 4096)
    (hb : ∀ (j : Nat) b, bs[j]? = some b → getByte (k.mem (pte2pa w)) (o + j) = b) :
    Reads k.mem pt (stk m o) bs := by
  intro j b hj
  have hlt := (List.getElem?_eq_some_iff.mp hj).1
  rw [stk_add, h.userByte_stk hw hu hm (by omega), hb j b hj]

omit [Image] in
theorem regions_eq (hm : m ≤ 32768) (hfit : argBytes argv ≤ c) (hc : c ≤ 4096) (a1 : Addr) :
    regions argv ((argOffs c argv).map (stk m)) a1 =
      (argRegions c argv).map (fun r => (4096 * (m + 1) + r.1, r.2)) ++
        [(a1.toNat, 8 * (argv.length + 1))] := by
  rw [regions]
  congr 1
  clear a1
  induction argv generalizing c with
  | nil => rfl
  | cons s argv ih =>
    rw [argBytes_cons] at hfit
    rw [argOffs, argRegions_cons, map_cons, zip_cons_cons, map_cons,
      map_cons, ih (by omega) (by omega), stk_toNat hm (by omega)]

omit [Image] in
/-- A byte of one of the strings is not overwritten by the array. -/
theorem getByte_stackPage {i j : Nat} (p : Page) (m : Nat) (hfits : Fits argv)
    (hi : (argOffs 4096 argv)[i]? = some o) (hs : argv[i]? = some s)
    (hb : (s ++ [0])[j]? = some b) : getByte (stackPage p m argv) (o + j) = b := by
  have hle := le_up16 (8 * (argv.length + 1))
  rw [Fits, USERSTACK] at hfits
  obtain ⟨hlow, hhigh⟩ := argRegions_bounds (by omega) _ (mem_argRegions hi hs)
  have hj := (List.getElem?_eq_some_iff.mp hb).1
  rw [length_append, length_singleton] at hj
  have hlen : ((argPointers m argv).flatMap toBytes).length = 8 * (argv.length + 1) := by
    rw [length_flatMap_toBytes, length_argPointers]
  simp only at hlow hhigh
  rw [stackPage, getByte_setBytes _ _ (by omega), getD_eq_default,
    getByte_pushPage p (by omega) (by omega) hi hs hb]
  · exact ite_self _
  · rw [hlen, arrayOff]
    omega
  · rw [hlen, arrayOff]
    omega

/-- The page that exec() has written holds the arguments. -/
theorem Space.passed (h : Space R pt tf (m + 2) g k) (hw : g (m + 1) = some w)
    (hu : Has w PTE_U) (hv : g m = some v) (hguard : ¬ Has v PTE_U) (hfits : Fits argv)
    (hpage : k.mem (pte2pa w) = stackPage p m argv)
    (ha0 : k.mem tf tfA0 = BitVec.ofNat 64 argv.length)
    (ha1 : k.mem tf tfA1 = stk m (arrayOff argv)) (hsp : k.mem tf tfSp = stk m (arrayOff argv)) :
    Passed argv ((argOffs 4096 argv).map (stk m)) tf ⟨pt, pg (m + 2), argv.length⟩ k := by
  have hsmall := h.small
  have hm : m ≤ 32768 := by omega
  have hfits' := hfits
  rw [Fits, USERSTACK] at hfits'
  have hmod := argBytes_mod argv
  have hup := up16_mod (8 * (argv.length + 1))
  have hle := le_up16 (8 * (argv.length + 1))
  have hoff : arrayOff argv = 4096 - argBytes argv - up16 (8 * (argv.length + 1)) := rfl
  have hsz : (pg (m + 2)).toNat = 4096 * (m + 2) := pg_toNat (by omega)
  have hbase : (stk m (arrayOff argv)).toNat = 4096 * (m + 1) + arrayOff argv :=
    stk_toNat hm (by omega)
  have hlen : ((argPointers m argv).flatMap toBytes).length = 8 * (argv.length + 1) := by
    rw [length_flatMap_toBytes, length_argPointers]
  have hregions := regions_eq hm (show argBytes argv ≤ 4096 by omega) (Nat.le_refl _)
    (stk m (arrayOff argv))
  refine ⟨ha0, ?_, hsp.trans ha1.symm, ?_, ?_, ?_, ?_, ?_, ?_⟩
  · rw [hsz, USERSTACK]
    omega
  · rw [ha1, hbase]
    omega
  · rw [ha1]
    refine h.reads_stk hw hu hm ?_ (fun j b hj => ?_)
    · change _ + ((argPointers m argv).flatMap toBytes).length ≤ _
      omega
    · change ((argPointers m argv).flatMap toBytes)[j]? = some b at hj
      have hlt := (List.getElem?_eq_some_iff.mp hj).1
      rw [hpage, stackPage, getByte_setBytes _ _ (by omega), if_pos (by omega),
        Nat.add_sub_cancel_left, getD_eq_getElem?_getD, hj]
      · rfl
      · omega
  · rw [forall₂_iff_get]
    refine ⟨by rw [length_map, length_argOffs], fun i hi hi' => ?_⟩
    rw [length_map] at hi
    rw [get_eq_getElem, get_eq_getElem, getElem_map]
    have hs := List.getElem?_eq_getElem hi'
    have ho := List.getElem?_eq_getElem hi
    have hbound := (argRegions_bounds (show argBytes argv ≤ 4096 by omega) _
      (mem_argRegions ho hs)).2
    refine h.reads_stk hw hu hm ?_ (fun j b hj => ?_)
    · rw [length_append, length_singleton]
      exact hbound
    · rw [hpage]
      exact getByte_stackPage p m hfits ho hs hj
  · rw [ha1, hregions, hsz, USERSTACK]
    intro r hr
    rcases mem_append.mp hr with hr | hr
    · obtain ⟨q, hq, rfl⟩ := mem_map.mp hr
      have := argRegions_bounds (show argBytes argv ≤ 4096 by omega) q hq
      simp only
      omega
    · rw [mem_singleton] at hr
      rw [hr]
      simp only
      omega
  · rw [ha1, hregions, pairwise_append]
    refine ⟨?_, pairwise_singleton _ _, fun r hr r' hr' => ?_⟩
    · rw [pairwise_map]
      refine (argRegions_below (show argBytes argv ≤ 4096 by omega)).imp ?_
      intro a b hab
      simp only
      omega
    · obtain ⟨q, hq, rfl⟩ := mem_map.mp hr
      have := argRegions_bounds (show argBytes argv ≤ 4096 by omega) q hq
      rw [mem_singleton] at hr'
      rw [hr']
      simp only
      omega
  · intro va h1 h2
    rw [hsz, USERSTACK] at h1 h2
    have hdiv : va.toNat / 4096 = m := by omega
    rw [userByte, h.table.map, hdiv, hv]
    exact if_neg hguard

/-- exec() has made p, with the arguments in its stack page. -/
def Written (S : Multiset Addr) (argv : List (List Byte)) (tf : Addr) (p : Program) (k : Kmem) :
    Prop :=
  ∃ m g w v page, p = ⟨p.pagetable, pg (m + 2), argv.length⟩ ∧
    Space (tf ::ₘ S) p.pagetable tf (m + 2) g k ∧
    g (m + 1) = some w ∧ Has w PTE_U ∧ g m = some v ∧ ¬ Has v PTE_U ∧
    k.mem (pte2pa w) = stackPage page m argv ∧
    k.mem tf tfA1 = stk m (arrayOff argv) ∧ k.mem tf tfSp = stk m (arrayOff argv)

theorem Stacked.written (h0 : Space (tf ::ₘ S) root tf (pagesUp oldsz) f k0)
    (h : Stacked (withSpace k0.mem root f (pagesUp oldsz) (tf ::ₘ S)) pt tf sz m g k)
    (hk : Keeps (withSpace k0.mem root f (pagesUp oldsz) (tf ::ₘ S)) k0 k) (ha : Passable argv) :
    Ends (Mem.execCommit tf root oldsz pt sz epc argv) k (fun r k' =>
      (r.isSome ↔ Fits argv) ∧ ∀ p, r = some p → Fits argv ∧ Written S argv tf p k') := by
  obtain ⟨x, hx⟩ := h.page
  obtain ⟨y, hy⟩ := h.guard
  have hu : Has (mkPte x (PTE_R ||| PTE_U ||| PTE_W)) PTE_U :=
    (has_mkPte (by decide)).mpr (.inl (by decide))
  have hwr : Has (mkPte x (PTE_R ||| PTE_U ||| PTE_W)) PTE_W :=
    (has_mkPte (by decide)).mpr (.inl (by decide))
  refine (h.execCommit h0 hk ha hx hu hwr).mono (fun r k' hr => ?_)
  by_cases hf : Fits argv
  · rw [if_pos hf] at hr
    obtain ⟨rfl, hs, hpage, ha1, hsp⟩ := hr
    refine ⟨by simp [hf], fun p hp => ⟨hf, ?_⟩⟩
    cases hp
    exact ⟨m, g, _, _, _, by rw [h.top], hs, hx, hu, hy, not_user_clear _, hpage, ha1, hsp⟩
  · rw [if_neg hf] at hr
    subst hr
    refine ⟨by simp [hf], fun p hp => ?_⟩
    cases hp

theorem BuiltOk.undo_none (h : BuiltOk R tf k G (.bad pt sz) k') :
    Ends (Mem.execUndo pt sz) k' (fun r _ => r = none) := by
  cases pt with
  | none => exact ends_pure.mpr rfl
  | some pt =>
    obtain ⟨g, hg⟩ := h.2
    exact hg.execBad_none

/-- exec() succeeds exactly when the program loads and its arguments fit. -/
theorem Space.exec_args (h0 : Space (tf ::ₘ S) root tf (pagesUp oldsz) f k) (ha : Passable argv) :
    Ends (Mem.exec tf root oldsz (some ip) argv) k (fun r k' =>
      (r.isSome ↔ Loads tf ip k ∧ Fits argv) ∧
        ∀ p, r = some p → Fits argv ∧ Written S argv tf p k') := by
  rw [exec_eq]
  refine (execLoad_ends h0.table.owned tf ip).eqn.bind (fun r k1 h1 => ?_)
  obtain ⟨he1, h1⟩ := h1
  cases r with
  | bad pt sz =>
    refine h1.undo_none.mono (fun r k' hr => ?_)
    subst hr
    refine ⟨?_, fun p hp => by cases hp⟩
    refine iff_of_false (by simp) (fun hl => ?_)
    obtain ⟨⟨_, _, _, _, _, _, hl, -⟩, -⟩ := hl
    rw [he1] at hl
    cases hl
  | ready pt sz =>
    refine h1.2.execStack.eqn.bind (fun r k2 h2 => ?_)
    obtain ⟨he2, h2⟩ := h2
    cases r with
    | bad q sz' =>
      refine h2.undo_none.mono (fun r k' hr => ?_)
      subst hr
      refine ⟨?_, fun p hp => by cases hp⟩
      refine iff_of_false (by simp) (fun hl => ?_)
      obtain ⟨⟨_, _, _, _, _, _, hl, hl2⟩, -⟩ := hl
      rw [he1] at hl
      cases hl
      rw [he2] at hl2
      cases hl2
    | ready q sz' =>
      obtain ⟨hk2, rfl, m, g, hg⟩ := h2
      refine (hg.written h0 (h1.1.trans hk2) ha).mono (fun r k' hr => ?_)
      refine ⟨?_, hr.2⟩
      rw [hr.1, and_iff_right ⟨_, _, _, _, _, _, he1, he2⟩]

theorem Written.passed (h : Written S argv tf p k) (hf : Fits argv) :
    Ends (store tf tfA0 (BitVec.ofNat 64 p.argc)) k (fun _ k' => ∃ a, Passed argv a tf p k') := by
  obtain ⟨m, g, w, v, page, hp, hs, hw, hu, hv, hguard, hpage, ha1, hsp⟩ := h
  refine (hs.storeOther _ _).mono (fun _ k' hk => ?_)
  obtain ⟨hk, hs', hmem⟩ := hk
  have hsmall := hs.small
  obtain ⟨pt, sz, argc⟩ := p
  obtain ⟨-, rfl, rfl⟩ := Program.mk.inj hp
  refine ⟨_, hs'.passed (p := page) hw hu hv hguard hf ?_ ?_ ?_ ?_⟩
  · rw [hk _ (Multiset.mem_add.mpr (.inl (mem_pagesOf hw (by omega)))), hpage]
  · rw [hmem, update_self]
  · rw [hmem, update_of_ne (by decide), ha1]
  · rw [hmem, update_of_ne (by decide), hsp]

/-- exec() succeeds exactly when the program loads and the arguments fit into the stack, and the
program then gets them. -/
theorem exec_passes_arguments (h : Reachable s) (hp : s.Runs p) (ha : Passable argv) :
    Ends (execCall (s.procs p) (some ip) argv) s.k (fun r k' =>
      (r.isSome ↔ Loads (s.procs p).trapframe ip s.k ∧ Fits argv) ∧
      ∀ q, r = some q → ∃ a, Passed argv a (s.procs p).trapframe q k') := by
  have hs := h.inv.space hp.1
  rw [execCall]
  refine ((hs.exec_args ha).and hs.exec).bind (fun r k1 h1 => ?_)
  obtain ⟨⟨hiff, hsome⟩, hdone⟩ := h1
  rw [ends_bind]
  cases r with
  | none =>
    refine (hdone.2.storeOther _ _).mono (fun _ k2 _ => ends_pure.mpr ⟨hiff, ?_⟩)
    intro q hq
    cases hq
  | some q =>
    obtain ⟨hf, hw⟩ := hsome q rfl
    refine (hw.passed hf).mono (fun _ k2 hk => ends_pure.mpr ⟨hiff, ?_⟩)
    intro q' hq
    cases hq
    exact hk

end Layout

theorem length_window (bs : List Byte) (off n : BitVec 32) :
    ((bs.drop off.toNat).take n.toNat).length ≤ n.toNat := length_take_le ..

/-- A file with these bytes. -/
def fileOf (bs : List Byte) : File :=
  ⟨fun off n => (bs.drop off.toNat).take n.toNat, length_window bs⟩

/-- A program of one segment of four bytes, in a page that can be read and executed. -/
def tinyElf : List Byte :=
  [0x7f, 0x45, 0x4c, 0x46] ++ List.replicate 28 0 ++ [64] ++ List.replicate 23 0 ++ [1] ++
    List.replicate 7 0 ++
  [1, 0, 0, 0, 5, 0, 0, 0, 120] ++ List.replicate 23 0 ++ [4] ++ List.replicate 7 0 ++ [4] ++
    List.replicate 15 0 ++
  [0x13, 0, 0, 0]

theorem exec_passes_arguments_tiny : ∃ s q k' a, trace [] = some s ∧
    (@execCall small (s.procs init) (some (fileOf tinyElf)) [[104, 105], [97]]).run s.k =
      .ok (some q, k') ∧
    Passed [[104, 105], [97]] a (s.procs init).trapframe q k' := by
  have hd : (trace []).any (fun s => decide (s.Runs init) &&
      ((@execCall small (s.procs init) (some (fileOf tinyElf)) [[104, 105], [97]]).run
        s.k).toOption.any (fun r => r.1.isSome)) = true := by decide +kernel
  obtain ⟨s, hs, hp⟩ := (Option.any_eq_true _ _).mp hd
  rw [Bool.and_eq_true] at hp
  have ha : Passable [[104, 105], [97]] := ⟨by decide, by decide⟩
  obtain ⟨r, k', hr, -, hpass⟩ := @exec_passes_arguments small s init _ (fileOf tinyElf)
    (reachable_trace hs) (of_decide_eq_true hp.1) ha
  rw [hr] at hp
  cases r with
  | none => cases hp.2
  | some q =>
    obtain ⟨a, hq⟩ := hpass q rfl
    exact ⟨s, q, k', a, hs, hr, hq⟩

end Xv6.Mem
