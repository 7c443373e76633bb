import Xv6.Fs.View
import Xv6.Fs.Inode
import Mathlib.Data.Finset.Basic
import Mathlib.Data.Multiset.Count
import Mathlib.Data.Multiset.MapFold

namespace Xv6.Fs

open Function Lib

/-- References to table entries from outside the running call: how many an entry has, and the
inode number it stands for. -/
structure Ext where
  cnt : Nat → Nat
  num : Nat → Nat

def Ext.Holds (e : Ext) (i : Nat) : Prop := ∃ x, 0 < e.cnt x ∧ e.num x = i

/-- References of the running call: an entry and its inode number. -/
abbrev Locals := Multiset (Nat × Nat)

def Locals.count (L : Locals) (x : Nat) : Nat := Multiset.count x (L.map Prod.fst)

/-- The inode table over a consistent disk, while a call holds the references L and has locked
the entries in K. -/
structure Ok (sb : Superblock) (e : Ext) (L : Locals) (K : Finset Nat) (c : Core) : Prop where
  fs : FsOk sb c.disk
  ref : ∀ x < NINODE, (c.itable x).ref = e.cnt x + L.count x
  outside : ∀ x, 0 < e.cnt x →
    x < NINODE ∧ (c.itable x).inum = e.num x ∧ (c.disk.inodes (e.num x)).type ≠ 0
  inside : ∀ q ∈ L, q.1 < NINODE ∧ (c.itable q.1).inum = q.2
  dev : ∀ x < NINODE, 0 < (c.itable x).ref → (c.itable x).dev = ROOTDEV
  unique : ∀ x < NINODE, ∀ y < NINODE, 0 < (c.itable x).ref → 0 < (c.itable y).ref →
    (c.itable x).inum = (c.itable y).inum → x = y
  clean : ∀ x < NINODE, 0 < (c.itable x).ref → (c.itable x).valid = true →
    (c.itable x).copy = c.disk.inodes (c.itable x).inum ∧ (c.itable x).copy.type ≠ 0
  locks : ∀ x < NINODE, (c.itable x).locked = true ↔ x ∈ K
  locked : ∀ x ∈ K, x < NINODE ∧ 0 < (c.itable x).ref ∧ (c.itable x).valid = true

@[simp]
theorem count_cons_self (L : Locals) (x i : Nat) :
    Locals.count ((x, i) ::ₘ L) x = L.count x + 1 := by
  simp [Locals.count]

theorem count_cons_of_ne (L : Locals) (i : Nat) (h : y ≠ x) :
    Locals.count ((x, i) ::ₘ L) y = L.count y := by
  simp [Locals.count, Multiset.count_cons_of_ne h]

/-- Inode i is referenced from outside or by the running call. -/
def Held (e : Ext) (L : Locals) (i : Nat) : Prop := e.Holds i ∨ ∃ x, (x, i) ∈ L

theorem Held.cons (h : Held e L i) (q : Nat × Nat) : Held e (q ::ₘ L) i := by
  rcases h with h | ⟨x, h⟩
  · exact .inl h
  · exact .inr ⟨x, Multiset.mem_cons_of_mem h⟩

theorem count_pos {L : Locals} (h : (x, i) ∈ L) : 0 < L.count x :=
  Multiset.count_pos.mpr (Multiset.mem_map_of_mem Prod.fst h)

section
variable {sb : Superblock} {e : Ext} {L : Locals} {K : Finset Nat} {c : Core}

theorem Ok.ref_pos (h : Ok sb e L K c) (hx : (x, i) ∈ L) : 0 < (c.itable x).ref := by
  have := count_pos hx
  rw [h.ref x (h.inside _ hx).1]
  omega

@[simp]
theorem setInode_disk : (c.setInode x ip).disk = c.disk := rfl

@[simp]
theorem setInode_self : (c.setInode x ip).itable x = ip := by simp [Core.setInode]

@[simp]
theorem setInode_setInode : (c.setInode x ip).setInode x ip' = c.setInode x ip' := by
  simp [Core.setInode]

theorem setInode_of_ne (h : y ≠ x) : (c.setInode x ip).itable y = c.itable y := by
  simp [Core.setInode, h]

/-- One entry of the table changes, and with it what the call holds or has locked. -/
theorem Ok.setInode (h : Ok sb e L K c) (hx : x < NINODE) {L' : Locals} {K' : Finset Nat}
    (href : ip.ref = e.cnt x + L'.count x) (hcount : ∀ y, y ≠ x → L'.count y = L.count y)
    (hinside : ∀ q ∈ L', q.1 ≠ x → q ∈ L) (hself : ∀ i, (x, i) ∈ L' → ip.inum = i)
    (hnum : 0 < e.cnt x → ip.inum = e.num x) (hdev : 0 < ip.ref → ip.dev = ROOTDEV)
    (huniq : 0 < ip.ref → ∀ y < NINODE, y ≠ x → 0 < (c.itable y).ref →
      (c.itable y).inum ≠ ip.inum)
    (hclean : 0 < ip.ref → ip.valid = true →
      ip.copy = c.disk.inodes ip.inum ∧ ip.copy.type ≠ 0)
    (hlock : ip.locked = true ↔ x ∈ K') (hlocks : ∀ y, y ≠ x → (y ∈ K' ↔ y ∈ K))
    (hheld : x ∈ K' → 0 < ip.ref ∧ ip.valid = true) : Ok sb e L' K' (c.setInode x ip) := by
  refine ⟨h.fs, ?_, ?_, ?_, ?_, ?_, ?_, ?_, ?_⟩
  · intro y hy
    rcases eq_or_ne y x with rfl | hyx
    · rw [setInode_self]
      exact href
    · rw [setInode_of_ne hyx, hcount y hyx]
      exact h.ref y hy
  · intro y hy
    rcases eq_or_ne y x with rfl | hyx
    · rw [setInode_self]
      exact ⟨hx, hnum hy, (h.outside y hy).2.2⟩
    · rw [setInode_of_ne hyx]
      exact h.outside y hy
  · rintro ⟨y, i⟩ hq
    rcases eq_or_ne y x with rfl | hyx
    · dsimp only
      rw [setInode_self]
      exact ⟨hx, hself i hq⟩
    · dsimp only
      rw [setInode_of_ne hyx]
      exact h.inside _ (hinside _ hq hyx)
  · intro y hy hr
    rcases eq_or_ne y x with rfl | hyx
    · rw [setInode_self] at hr ⊢
      exact hdev hr
    · rw [setInode_of_ne hyx] at hr ⊢
      exact h.dev y hy hr
  · intro y hy z hz hry hrz he
    rcases eq_or_ne y x with rfl | hyx
    · rcases eq_or_ne z y with rfl | hzy
      · rfl
      · rw [setInode_self] at hry he
        rw [setInode_of_ne hzy] at hrz he
        exact absurd he.symm (huniq hry z hz hzy hrz)
    · rw [setInode_of_ne hyx] at hry he
      rcases eq_or_ne z x with rfl | hzx
      · rw [setInode_self] at hrz he
        exact absurd he (huniq hrz y hy hyx hry)
      · rw [setInode_of_ne hzx] at hrz he
        exact h.unique y hy z hz hry hrz he
  · intro y hy hr hv
    rcases eq_or_ne y x with rfl | hyx
    · rw [setInode_self] at hr hv ⊢
      exact hclean hr hv
    · rw [setInode_of_ne hyx] at hr hv ⊢
      exact h.clean y hy hr hv
  · intro y hy
    rcases eq_or_ne y x with rfl | hyx
    · rw [setInode_self]
      exact hlock
    · rw [setInode_of_ne hyx, hlocks y hyx]
      exact h.locks y hy
  · intro y hy
    rcases eq_or_ne y x with rfl | hyx
    · rw [setInode_self]
      exact ⟨hx, hheld hy⟩
    · rw [setInode_of_ne hyx]
      exact h.locked y ((hlocks y hyx).mp hy)

theorem Ok.not_mem_of_ref (h : Ok sb e L K c) (hr : (c.itable x).ref = 0) : x ∉ K := by
  intro hk
  have := (h.locked x hk).2.1
  omega

theorem Ok.locked_iff (h : Ok sb e L K c) (hx : x < NINODE) :
    (c.itable x).locked = false ↔ x ∉ K := by
  rw [← h.locks x hx, Bool.not_eq_true]

theorem Ok.again (h : Ok sb e L K c) (hx : x < NINODE) (hr : 0 < (c.itable x).ref) :
    Ok sb e ((x, (c.itable x).inum) ::ₘ L) K
      (c.setInode x { c.itable x with ref := (c.itable x).ref + 1 }) := by
  apply h.setInode hx
  · rw [count_cons_self]
    have := h.ref x hx
    dsimp only
    omega
  · intro y hy
    exact count_cons_of_ne L _ hy
  · intro q hq hqx
    rcases Multiset.mem_cons.mp hq with rfl | hq
    · exact absurd rfl hqx
    · exact hq
  · intro i hi
    rcases Multiset.mem_cons.mp hi with he | hi
    · exact (Prod.mk.inj he).2.symm
    · exact (h.inside _ hi).2
  · exact fun hc => (h.outside x hc).2.1
  · exact fun _ => h.dev x hx hr
  · intro _ y hy hyx hry he
    exact hyx (h.unique y hy x hx hry hr he)
  · exact fun _ hv => h.clean x hx hr hv
  · exact h.locks x hx
  · exact fun _ _ => Iff.rfl
  · exact fun hk => ⟨by dsimp only; omega, (h.locked x hk).2.2⟩

theorem Ok.recycle (h : Ok sb e L K c) (hx : x < NINODE) (hr : (c.itable x).ref = 0)
    (hno : ∀ y < NINODE, 0 < (c.itable y).ref → (c.itable y).inum ≠ i) :
    Ok sb e ((x, i) ::ₘ L) K (c.setInode x
      { c.itable x with dev := ROOTDEV, inum := i, ref := 1, valid := false }) := by
  have hz := h.ref x hx
  rw [hr] at hz
  apply h.setInode hx
  · rw [count_cons_self]
    dsimp only
    omega
  · intro y hy
    exact count_cons_of_ne L _ hy
  · intro q hq hqx
    rcases Multiset.mem_cons.mp hq with rfl | hq
    · exact absurd rfl hqx
    · exact hq
  · intro j hj
    rcases Multiset.mem_cons.mp hj with he | hj
    · exact (Prod.mk.inj he).2.symm
    · have := count_pos hj
      omega
  · intro hc
    omega
  · exact fun _ => rfl
  · exact fun _ y hy _ hry => hno y hy hry
  · intro _ hv
    cases hv
  · have hk := h.not_mem_of_ref hr
    have hl := (h.locked_iff hx).mpr hk
    simp [hl, hk]
  · exact fun _ _ => Iff.rfl
  · exact fun hk => absurd hk (h.not_mem_of_ref hr)

theorem Ok.iget (h : Ok sb e L K c) {E : Panic → Prop}
    (hfull : (∀ x < NINODE, 0 < (c.itable x).ref) → E .noInodes) :
    Outcome (iget ROOTDEV i) c E (fun x c' =>
      Ok sb e ((x, i) ::ₘ L) K c' ∧ c'.disk = c.disk) := by
  rw [Fs.iget, outcome_bind, outcome_get]
  split
  · rename_i x hx
    have hp := List.find?_some hx
    simp only [Bool.and_eq_true, decide_eq_true_eq, beq_iff_eq] at hp
    have hlt : x < NINODE := List.mem_range.mp (List.mem_of_find?_eq_some hx)
    rw [outcome_bind, outcome_set, outcome_pure]
    have hok := h.again hlt hp.1.1
    rw [hp.2] at hok
    exact ⟨hok, rfl⟩
  · rename_i hnone
    split
    · rename_i x hx
      have hr : (c.itable x).ref = 0 := by simpa using List.find?_some hx
      have hlt : x < NINODE := List.mem_range.mp (List.mem_of_find?_eq_some hx)
      rw [outcome_bind, outcome_set, outcome_pure]
      refine ⟨h.recycle hlt hr ?_, rfl⟩
      intro y hy hry he
      have hf := List.find?_eq_none.mp hnone y (List.mem_range.mpr hy)
      simp [hry, h.dev y hy hry, he] at hf
    · rename_i hfull'
      refine hfull ?_
      intro x hx
      have := List.find?_eq_none.mp hfull' x (List.mem_range.mpr hx)
      simp only [beq_iff_eq] at this
      omega

theorem Ok.idup (h : Ok sb e L K c) (hx : 0 < e.cnt x) {E : Panic → Prop} :
    Outcome (idup x) c E (fun y c' =>
      Ok sb e ((y, e.num x) ::ₘ L) K c' ∧ c'.disk = c.disk) := by
  obtain ⟨hlt, hnum, -⟩ := h.outside x hx
  rw [Fs.idup, outcome_bind, outcome_modify, outcome_pure]
  have hok := h.again hlt (by rw [h.ref x hlt]; omega)
  rw [hnum] at hok
  exact ⟨hok, rfl⟩

/-- Taking the lock reads the inode; entries referenced from outside are allocated. -/
theorem Ok.ilock (h : Ok sb e L K c) (hx : x < NINODE) (hr : 0 < (c.itable x).ref)
    {E : Panic → Prop} (hlock : x ∈ K → E .deadlock)
    (htype : (c.disk.inodes (c.itable x).inum).type = 0 → E .noType) :
    Outcome (ilock x) c E (fun _ c' => Ok sb e L (insert x K) c' ∧ c'.disk = c.disk ∧ x ∉ K ∧
      (c.disk.inodes (c.itable x).inum).type ≠ 0 ∧ (c'.itable x).inum = (c.itable x).inum) := by
  have hset : ∀ ip : Inode, ip.ref = (c.itable x).ref → ip.inum = (c.itable x).inum →
      ip.dev = (c.itable x).dev → ip.locked = true → ip.valid = true →
      ip.copy = c.disk.inodes (c.itable x).inum → ip.copy.type ≠ 0 →
      Ok sb e L (insert x K) (c.setInode x ip) := by
    intro ip h1 h2 h3 h4 h5 h6 h7
    apply h.setInode hx
    · rw [h1]
      exact h.ref x hx
    · exact fun _ _ => rfl
    · exact fun _ hq _ => hq
    · intro i hi
      rw [h2]
      exact (h.inside _ hi).2
    · intro hc
      rw [h2]
      exact (h.outside x hc).2.1
    · intro _
      rw [h3]
      exact h.dev x hx hr
    · intro _ y hy hyx hry he
      rw [h2] at he
      exact hyx (h.unique y hy x hx hry hr he)
    · intro _ _
      rw [h2]
      exact ⟨h6, h7⟩
    · simp [h4]
    · intro y hy
      simp [hy]
    · intro _
      rw [h1]
      exact ⟨hr, h5⟩
  rw [Fs.ilock, outcome_bind, outcome_get, if_neg (by omega)]
  refine Outcome.ite (fun hl => hlock ((h.locks x hx).mp hl)) (fun hl => ?_)
  have hfree : x ∉ K := fun hk => hl ((h.locks x hx).mpr hk)
  refine Outcome.ite (fun hv => ?_) (fun hv => ?_)
  · rw [outcome_set]
    obtain ⟨hcopy, hty⟩ := h.clean x hx hr hv
    refine ⟨hset _ rfl rfl rfl rfl hv hcopy hty, rfl, hfree, ?_, by rw [setInode_self]⟩
    rw [← hcopy]
    exact hty
  · rw [outcome_bind, outcome_set]
    refine Outcome.ite (fun h0 => htype h0) (fun h0 => ?_)
    rw [outcome_pure]
    exact ⟨hset _ rfl rfl rfl rfl rfl rfl h0, rfl, hfree, h0, by rw [setInode_self]⟩

theorem Ok.iunlock (h : Ok sb e L K c) (hk : x ∈ K) {E : Panic → Prop} :
    Outcome (iunlock x) c E (fun _ c' => Ok sb e L (K.erase x) c' ∧ c'.disk = c.disk ∧
      (c'.itable x).valid = true) := by
  obtain ⟨hx, hr, hv⟩ := h.locked x hk
  rw [Fs.iunlock, outcome_bind, outcome_get, if_neg]
  · rw [outcome_set]
    refine ⟨?_, rfl, by rw [setInode_self]; exact hv⟩
    apply h.setInode hx
    · exact h.ref x hx
    · exact fun _ _ => rfl
    · exact fun _ hq _ => hq
    · exact fun i hi => (h.inside _ hi).2
    · exact fun hc => (h.outside x hc).2.1
    · exact fun _ => h.dev x hx hr
    · exact fun _ y hy hyx hry he => hyx (h.unique y hy x hx hry hr he)
    · exact fun _ hv => h.clean x hx hr hv
    · simp
    · intro y hy
      simp [hy]
    · intro hin
      exact absurd rfl (Finset.mem_erase.mp hin).1
  · rw [not_or]
    have hl := (h.locks x hx).mpr hk
    simp [hl]
    omega

/-- An operation on the content of an entry whose copy is current: the copy stays current. -/
theorem Ok.onInode (h : Ok sb e L K c) (hx : x < NINODE) (hr : 0 < (c.itable x).ref)
    (hv : (c.itable x).valid = true) {m : Nat → Dinode → Dk (α × Dinode)} {Q : α → Disk → Prop}
    (hm : Ends (m (c.itable x).inum (c.disk.inodes (c.itable x).inum)) c.disk (fun r d =>
      FsOk sb d ∧ (∀ j, j ≠ (c.itable x).inum → d.inodes j = c.disk.inodes j) ∧
      d.inodes (c.itable x).inum = r.2 ∧ r.2.type ≠ 0 ∧ Q r.1 d)) {E : Panic → Prop} :
    Outcome (onInode x m) c E (fun a c' => Ok sb e L K c' ∧ Q a c'.disk ∧
      (c'.itable x).inum = (c.itable x).inum ∧
      (c'.itable x).copy = c'.disk.inodes (c.itable x).inum) := by
  obtain ⟨hcopy, -⟩ := h.clean x hx hr hv
  rw [Fs.onInode, outcome_bind, outcome_get, outcome_bind, hcopy, onDisk, outcome_zoom]
  refine (hm.mono ?_).outcome
  rintro ⟨a, ip⟩ d ⟨hfs, hothers, hin, hty, hq⟩
  dsimp only at hin hty hq ⊢
  rw [outcome_bind, outcome_modify, outcome_pure]
  have hd : Ok sb e L K (Core.setInode ⟨d, c.itable⟩ x { c.itable x with copy := ip }) := by
    have hset : ∀ y, ((Core.setInode ⟨d, c.itable⟩ x { c.itable x with copy := ip }).itable y).ref =
        (c.itable y).ref ∧
        ((Core.setInode ⟨d, c.itable⟩ x { c.itable x with copy := ip }).itable y).inum =
        (c.itable y).inum ∧
        ((Core.setInode ⟨d, c.itable⟩ x { c.itable x with copy := ip }).itable y).dev =
        (c.itable y).dev ∧
        ((Core.setInode ⟨d, c.itable⟩ x { c.itable x with copy := ip }).itable y).valid =
        (c.itable y).valid ∧
        ((Core.setInode ⟨d, c.itable⟩ x { c.itable x with copy := ip }).itable y).locked =
        (c.itable y).locked := by
      intro y
      rcases eq_or_ne y x with rfl | hy
      · rw [setInode_self]
        exact ⟨rfl, rfl, rfl, rfl, rfl⟩
      · rw [setInode_of_ne hy]
        exact ⟨rfl, rfl, rfl, rfl, rfl⟩
    refine ⟨hfs, ?_, ?_, ?_, ?_, ?_, ?_, ?_, ?_⟩
    · intro y hy
      rw [(hset y).1]
      exact h.ref y hy
    · intro y hy
      obtain ⟨h1, h2, h3⟩ := h.outside y hy
      rw [(hset y).2.1]
      refine ⟨h1, h2, ?_⟩
      change (d.inodes (e.num y)).type ≠ 0
      by_cases he : e.num y = (c.itable x).inum
      · rw [he, hin]
        exact hty
      · rw [hothers _ he]
        exact h3
    · intro q hq
      rw [(hset q.1).2.1]
      exact h.inside q hq
    · intro y hy hry
      rw [(hset y).1] at hry
      rw [(hset y).2.2.1]
      exact h.dev y hy hry
    · intro y hy z hz hry hrz he
      rw [(hset y).1] at hry
      rw [(hset z).1] at hrz
      rw [(hset y).2.1, (hset z).2.1] at he
      exact h.unique y hy z hz hry hrz he
    · intro y hy hry hvy
      rw [(hset y).1] at hry
      rw [(hset y).2.2.2.1] at hvy
      rw [(hset y).2.1]
      change _ = d.inodes _ ∧ _
      rcases eq_or_ne y x with rfl | hyx
      · rw [setInode_self]
        exact ⟨hin.symm, hty⟩
      · have hne : (c.itable y).inum ≠ (c.itable x).inum := by
          intro he
          exact hyx (h.unique y hy x hx hry hr he)
        rw [setInode_of_ne hyx, hothers _ hne]
        exact h.clean y hy hry hvy
    · intro y hy
      rw [(hset y).2.2.2.2]
      exact h.locks y hy
    · intro y hy
      rw [(hset y).1, (hset y).2.2.2.1]
      exact h.locked y hy
  refine ⟨hd, hq, ?_, ?_⟩
  · rw [setInode_self]
  · rw [setInode_self]
    exact hin.symm

theorem outcome_assign {f : Dinode → Dinode} {E : Panic → Prop} {Q : Unit → Core → Prop} :
    Outcome (assign x f) c E Q ↔
      Q () (Core.setInode ⟨c.disk.put (c.itable x).inum (f (c.itable x).copy), c.itable⟩ x
        { c.itable x with copy := f (c.itable x).copy }) := Iff.rfl

/-- Assignments to the other fields of an inode reach the disk. -/
theorem Ok.assign (h : Ok sb e L K c) (hx : x < NINODE) (hr : 0 < (c.itable x).ref)
    (hv : (c.itable x).valid = true) {f : Dinode → Dinode} (hty : ∀ ip, (f ip).type = ip.type)
    (hsz : ∀ ip, (f ip).size = ip.size) (had : ∀ ip, (f ip).addrs = ip.addrs)
    {E : Panic → Prop} :
    Outcome (assign x f) c E (fun _ c' => Ok sb e L K c' ∧
      c'.disk = c.disk.put (c.itable x).inum (f (c.disk.inodes (c.itable x).inum)) ∧
      (c'.itable x).inum = (c.itable x).inum) := by
  obtain ⟨hcopy, htype⟩ := h.clean x hx hr hv
  have hfs : FsOk sb (c.disk.put (c.itable x).inum (f (c.disk.inodes (c.itable x).inum))) := by
    have hsame : FsOk sb (c.disk.put (c.itable x).inum (c.disk.inodes (c.itable x).inum)) := by
      rw [put_self]
      exact h.fs
    exact hsame.relabel (hty _) (hsz _) (had _)
  refine (h.onInode hx hr hv (m := fun inum ip => do iupdate inum (f ip); return ((), f ip))
    (Q := fun _ d => d = c.disk.put (c.itable x).inum (f (c.disk.inodes (c.itable x).inum)))
    ?_).imp ?_
  · rw [ends_bind, iupdate, ends_modify, ends_pure]
    refine ⟨hfs, ?_, put_inodes_self, ?_, rfl⟩
    · intro j hj
      exact put_inodes_of_ne hj
    · rw [hty, ← hcopy]
      exact htype
  · rintro _ c' ⟨h1, h2, h3, -⟩
    exact ⟨h1, h2, h3⟩

theorem Ok.dropRef (h : Ok sb e ((x, i) ::ₘ L) K c) (hk : x ∉ K ∨ 1 < (c.itable x).ref) :
    Ok sb e L K (c.setInode x { c.itable x with ref := (c.itable x).ref - 1 }) := by
  obtain ⟨hx, hnum⟩ := h.inside _ (Multiset.mem_cons_self _ _)
  have hr := h.ref x hx
  rw [count_cons_self] at hr
  apply h.setInode hx
  · dsimp only
    omega
  · intro y hy
    exact (count_cons_of_ne L _ hy).symm
  · exact fun q hq _ => Multiset.mem_cons_of_mem hq
  · exact fun j hj => (h.inside _ (Multiset.mem_cons_of_mem hj)).2
  · exact fun hc => (h.outside x hc).2.1
  · exact fun _ => h.dev x hx (by omega)
  · intro _ y hy hyx hry he
    exact hyx (h.unique y hy x hx hry (by omega) he)
  · exact fun _ hv => h.clean x hx (by omega) hv
  · exact h.locks x hx
  · exact fun _ _ => Iff.rfl
  · intro hin
    rcases hk with hk | hk
    · exact absurd hin hk
    · exact ⟨by dsimp only; omega, (h.locked x hin).2.2⟩

/-- The entry of the last reference goes together with its inode. -/
theorem Ok.retire (h : Ok sb e ((x, i) ::ₘ L) K c) (hr : (c.itable x).ref = 1) (hk : x ∉ K)
    (hfs : FsOk sb d) (hothers : ∀ j, j ≠ i → d.inodes j = c.disk.inodes j)
    (ip : Inode) (hip : ip.ref = 0) (hl : ip.locked = false) :
    Ok sb e L K (Core.setInode ⟨d, c.itable⟩ x ip) ∧ ¬ Held e L i := by
  obtain ⟨hx, hnum⟩ := h.inside _ (Multiset.mem_cons_self _ _)
  have hcnt := h.ref x hx
  rw [count_cons_self] at hcnt
  dsimp only at hx hnum
  have hne : ∀ y < NINODE, y ≠ x → 0 < (c.itable y).ref → (c.itable y).inum ≠ i := by
    intro y hy hyx hry he
    exact hyx (h.unique y hy x hx hry (by omega) (he.trans hnum.symm))
  have hheld : ¬ e.Holds i := by
    rintro ⟨y, hy, he⟩
    obtain ⟨hlt, hn, -⟩ := h.outside y hy
    have hyx : y ≠ x := by
      rintro rfl
      omega
    exact hne y hlt hyx (by rw [h.ref y hlt]; omega) (hn.trans he)
  have hlocal : ¬ ∃ y, (y, i) ∈ L := by
    rintro ⟨y, hy⟩
    have hy' : (y, i) ∈ (x, i) ::ₘ L := Multiset.mem_cons_of_mem hy
    obtain ⟨hlt, hn⟩ := h.inside _ hy'
    have hyx : y ≠ x := by
      rintro rfl
      have := count_pos hy
      omega
    exact hne y hlt hyx (h.ref_pos hy') hn
  have hdrop := h.dropRef (.inl hk)
  refine ⟨⟨hfs, ?_, ?_, ?_, ?_, ?_, ?_, ?_, ?_⟩, not_or.mpr ⟨hheld, hlocal⟩⟩
  · intro y hy
    rcases eq_or_ne y x with rfl | hyx
    · rw [setInode_self, hip]
      omega
    · rw [setInode_of_ne hyx]
      have := hdrop.ref y hy
      rwa [setInode_of_ne hyx] at this
  · intro y hy
    have hyx : y ≠ x := by
      rintro rfl
      omega
    obtain ⟨h1, h2, h3⟩ := h.outside y hy
    rw [setInode_of_ne hyx]
    refine ⟨h1, h2, ?_⟩
    change (d.inodes (e.num y)).type ≠ 0
    rw [hothers]
    · exact h3
    · intro he
      exact hheld ⟨y, hy, he⟩
  · rintro ⟨y, j⟩ hq
    have hyx : y ≠ x := by
      rintro rfl
      have := count_pos hq
      omega
    dsimp only
    rw [setInode_of_ne hyx]
    exact h.inside _ (Multiset.mem_cons_of_mem hq)
  · intro y hy hry
    rcases eq_or_ne y x with rfl | hyx
    · rw [setInode_self] at hry
      omega
    · rw [setInode_of_ne hyx] at hry ⊢
      exact h.dev y hy hry
  · intro y hy z hz hry hrz he
    have hyx : y ≠ x := by
      rintro rfl
      rw [setInode_self] at hry
      omega
    have hzx : z ≠ x := by
      rintro rfl
      rw [setInode_self] at hrz
      omega
    rw [setInode_of_ne hyx] at hry he
    rw [setInode_of_ne hzx] at hrz he
    exact h.unique y hy z hz hry hrz he
  · intro y hy hry hv
    have hyx : y ≠ x := by
      rintro rfl
      rw [setInode_self] at hry
      omega
    rw [setInode_of_ne hyx] at hry hv ⊢
    change _ = d.inodes _ ∧ _
    rw [hothers _ (hne y hy hyx hry)]
    exact h.clean y hy hry hv
  · intro y hy
    rcases eq_or_ne y x with rfl | hyx
    · rw [setInode_self, hl]
      simp [hk]
    · rw [setInode_of_ne hyx]
      exact h.locks y hy
  · intro y hy
    have hyx : y ≠ x := by
      rintro rfl
      exact hk hy
    rw [setInode_of_ne hyx]
    exact h.locked y hy

theorem view_freed {s t : Disk} (hothers : ∀ j, j ≠ i → t.inodes j = s.inodes j)
    (hdata : t.data = s.data) (h0 : (t.inodes i).type = 0) :
    t.view = update s.view i Node.free := by
  funext j
  rcases eq_or_ne j i with rfl | hj
  · rw [update_self, view_free h0]
  · rw [update_of_ne hj]
    apply view_congr (hothers j hj)
    intro _ pos _
    rw [hdata]

theorem Ok.ifree (h : Ok sb e ((x, i) ::ₘ L) K c) (hk : x ∉ K) (hr : (c.itable x).ref = 1)
    (hv : (c.itable x).valid = true) (hn : (c.itable x).copy.nlink = 0) {E : Panic → Prop} :
    Outcome (ifree x) c E (fun _ c' =>
      Ok sb e L K (c'.setInode x { c'.itable x with ref := (c'.itable x).ref - 1 }) ∧
        c'.disk.view = update c.disk.view i Node.free ∧
        (c.disk.view i).nlink = 0 ∧ ¬ Held e L i) := by
  obtain ⟨hx, hnum⟩ := h.inside _ (Multiset.mem_cons_self _ _)
  dsimp only at hx hnum
  have hl := (h.locked_iff hx).mpr hk
  obtain ⟨hcopy, htype⟩ := h.clean x hx (by omega) hv
  rw [hcopy, hnum] at htype hn
  rw [Fs.ifree, outcome_bind, outcome_get, if_neg (by simp [hl]), outcome_bind]
  have htrunc : Ends (do
      let ip ← itrunc (c.itable x).inum (c.disk.inodes (c.itable x).inum)
      return ((), ip)) c.disk (fun r d =>
        FsOk sb d ∧ (∀ j, j ≠ (c.itable x).inum → d.inodes j = c.disk.inodes j) ∧
        d.inodes (c.itable x).inum = r.2 ∧ r.2.type ≠ 0 ∧ d.data = c.disk.data ∧
        (∀ j, j ≠ i → d.inodes j = c.disk.inodes j) ∧
        d.inodes i = { c.disk.inodes i with addrs := fun _ => 0, size := 0 }) := by
    rw [hnum]
    refine (itrunc_spec h.fs htype).bind ?_
    rintro ip d ⟨hip, hfs, hin, hdata⟩
    rw [ends_pure]
    have hself : d.inodes i = ip := by rw [hin, update_self]
    have hoth : ∀ j, j ≠ i → d.inodes j = c.disk.inodes j := by
      intro j hj
      rw [hin, update_of_ne hj]
    refine ⟨hfs, hoth, hself, ?_, hdata, hoth, by rw [hself, hip]⟩
    rw [hip]
    exact htype
  refine (h.onInode (Q := fun _ d => d.data = c.disk.data ∧
    (∀ j, j ≠ i → d.inodes j = c.disk.inodes j) ∧
    d.inodes i = { c.disk.inodes i with addrs := fun _ => 0, size := 0 })
    hx (by omega) hv htrunc).imp ?_
  rintro _ c1 ⟨h1, ⟨hdata, hoth, hself⟩, hnum1, hcopy1⟩
  have hr1 : (c1.itable x).ref = 1 := by rw [h1.ref x hx, ← h.ref x hx, hr]
  have hl1 := (h1.locked_iff hx).mpr hk
  rw [hnum] at hnum1 hcopy1
  -- the truncated inode is freed on the disk
  rw [outcome_bind, outcome_assign, outcome_modify, hnum1, hcopy1]
  have hnone : ∀ k, c1.disk.owns (i, k) = none := by
    intro k
    simp [Disk.owns, hself, slotAddr]
  have hfs : FsOk sb (c1.disk.put i { c1.disk.inodes i with type := 0 }) :=
    h1.fs.reset hnone (fun h0 => absurd rfl h0) (by simp [hself]) (by simp [hself])
  have hput : ∀ j, j ≠ i →
      (c1.disk.put i { c1.disk.inodes i with type := 0 }).inodes j = c1.disk.inodes j :=
    fun j hj => put_inodes_of_ne hj
  simp only [setInode_setInode, setInode_self, setInode_disk]
  have hret := h1.retire hr1 hk hfs hput { c1.itable x with
    ref := (c1.itable x).ref - 1, valid := false, copy := { c1.disk.inodes i with type := 0 } }
    (by simp [hr1]) hl1
  refine ⟨hret.1, ?_, by rw [view_nlink htype]; exact hn, hret.2⟩
  refine view_freed ?_ hdata (by simp)
  intro j hj
  rw [hput j hj]
  exact hoth j hj

theorem thin_free {V : View} (hn : (V i).nlink = 0) (hh : ¬ H i) :
    Thin H V (update V i Node.free) := by
  intro j
  rcases eq_or_ne j i with rfl | hj
  · exact .inr ⟨update_self .., hn, hh⟩
  · exact .inl (update_of_ne hj _ _)

/-- iput gives up a reference of the call, and with the last one a file that has no links. -/
theorem Ok.iput (h : Ok sb e ((x, i) ::ₘ L) K c) (hk : x ∉ K ∨ 1 < (c.itable x).ref)
    {E : Panic → Prop} :
    Outcome (iput x) c E (fun _ c' => Ok sb e L K c' ∧
      Thin (Held e L) c.disk.view c'.disk.view) := by
  rw [Fs.iput, outcome_bind, outcome_get, outcome_bind]
  unfold onlyIf
  refine Outcome.ite (fun hc => ?_) (fun _ => ?_)
  · have hk' : x ∉ K := by
      rcases hk with hk | hk
      · exact hk
      · omega
    refine (h.ifree hk' hc.1 hc.2.1 hc.2.2).imp ?_
    rintro _ c1 ⟨h1, hview, hn, hh⟩
    rw [outcome_modify]
    refine ⟨h1, ?_⟩
    rw [setInode_disk, hview]
    exact thin_free hn hh
  · rw [outcome_pure, outcome_modify]
    exact ⟨h.dropRef hk, .refl _ _⟩

theorem Ok.iunlockput (h : Ok sb e ((x, i) ::ₘ L) K c) (hk : x ∈ K) {E : Panic → Prop} :
    Outcome (iunlockput x) c E (fun _ c' =>
      Ok sb e L (K.erase x) c' ∧ Thin (Held e L) c.disk.view c'.disk.view) := by
  rw [Fs.iunlockput]
  refine (h.iunlock hk).bind ?_
  rintro _ c1 ⟨h1, hd, -⟩
  rw [← hd]
  exact h1.iput (.inl (Finset.notMem_erase x K))

/-- The last reference to a locked inode without links: it is freed. -/
theorem Ok.iunlockput_last (h : Ok sb e ((x, i) ::ₘ L) K c) (hk : x ∈ K)
    (hr : (c.itable x).ref = 1) (hn : (c.disk.inodes i).nlink = 0) {E : Panic → Prop} :
    Outcome (Fs.iunlockput x) c E (fun _ c' => Ok sb e L (K.erase x) c' ∧
      c'.disk.view = update c.disk.view i Node.free) := by
  obtain ⟨hx, hnum⟩ := h.inside _ (Multiset.mem_cons_self _ _)
  dsimp only at hx hnum
  rw [Fs.iunlockput]
  refine (h.iunlock hk).bind ?_
  rintro _ c1 ⟨h1, hd, hv⟩
  have hr1 : (c1.itable x).ref = 1 := by rw [h1.ref x hx, ← h.ref x hx, hr]
  have hnum1 := (h1.inside _ (Multiset.mem_cons_self _ _)).2
  dsimp only at hnum1
  have hn1 : (c1.itable x).copy.nlink = 0 := by
    rw [(h1.clean x hx (by omega) hv).1, hnum1, hd]
    exact hn
  rw [Fs.iput, outcome_bind, outcome_get, outcome_bind, onlyIf, if_pos ⟨hr1, hv, hn1⟩]
  refine (h1.ifree (Finset.notMem_erase x K) hr1 hv hn1).imp ?_
  rintro _ c2 ⟨h2, hview, -⟩
  rw [outcome_modify]
  refine ⟨h2, ?_⟩
  rw [setInode_disk, hview, hd]

/-- An entry whose inode nobody else holds has one reference. -/
theorem Ok.ref_last (h : Ok sb e ((x, i) ::ₘ L) K c) (hh : ¬ Held e L i) :
    (c.itable x).ref = 1 := by
  obtain ⟨hx, hnum⟩ := h.inside _ (Multiset.mem_cons_self _ _)
  dsimp only at hx hnum
  have hout : e.cnt x = 0 := by
    by_contra hne
    have hpos := Nat.pos_of_ne_zero hne
    exact hh (.inl ⟨x, hpos, (h.outside x hpos).2.1.symm.trans hnum⟩)
  have hin : Locals.count L x = 0 := by
    by_contra hne
    obtain ⟨⟨y, j⟩, hy, rfl⟩ := Multiset.mem_map.mp (Multiset.count_pos.mp (Nat.pos_of_ne_zero hne))
    have hj := (h.inside _ (Multiset.mem_cons_of_mem hy)).2
    dsimp only at hj hnum
    rw [hnum] at hj
    exact hh (.inr ⟨y, hj ▸ hy⟩)
  rw [h.ref x hx, count_cons_self, hout, hin]

/-- iunlockput, with what becomes of an inode that nobody else holds. -/
theorem Ok.iunlockput_settles (h : Ok sb e ((x, i) ::ₘ L) K c) (hk : x ∈ K) {E : Panic → Prop} :
    Outcome (Fs.iunlockput x) c E (fun _ c' => Ok sb e L (K.erase x) c' ∧
      Thin (Held e L) c.disk.view c'.disk.view ∧
      (¬ Held e L i → (c.disk.view i).nlink = 0 → c'.disk.view i = Node.free)) := by
  by_cases hlast : ¬ Held e L i ∧ (c.disk.view i).nlink = 0
  · obtain ⟨hx, hr, hv⟩ := h.locked x hk
    have hnum := (h.inside _ (Multiset.mem_cons_self _ _)).2
    obtain ⟨hcopy, htype⟩ := h.clean x hx hr hv
    dsimp only at hnum
    rw [hcopy, hnum] at htype
    have hn : (c.disk.inodes i).nlink = 0 := by
      rw [← view_nlink htype]
      exact hlast.2
    refine (h.iunlockput_last hk (h.ref_last hlast.1) hn).imp ?_
    intro _ c' ⟨h', hview⟩
    rw [hview]
    exact ⟨h', thin_free hlast.2 hlast.1, fun _ _ => update_self ..⟩
  · refine (h.iunlockput hk).imp ?_
    intro _ c' ⟨h', hthin⟩
    exact ⟨h', hthin, fun h1 h2 => absurd ⟨h1, h2⟩ hlast⟩

end

end Xv6.Fs
