import Xv6.Fs.Unlink

namespace Xv6.Fs

open Finset Function Lib

/-- The change open(), mkdir() and mknod() can make. -/
def Creates (e : Ext) (V : View) (cwd : Nat) (path : List Byte) (type : Nat) (a : Change) : Prop :=
  ∃ d name i, a = .create d name i type ∧ e.Parent V cwd path d name

section
variable {sb : Superblock} {e : Ext} {L : Locals} {K : Finset Nat} {c : Core} {E : Panic → Prop}
  {R H : Nat → Prop} {V V' : View}

/-- Nothing refers to a free inode if the call refers to none. -/
theorem Ok.inum_ne (h : Ok sb e L K c) (hlive : ∀ q ∈ L, (c.disk.inodes q.2).type ≠ 0)
    (h0 : (c.disk.inodes i).type = 0) (hx : x < NINODE) (hr : 0 < (c.itable x).ref) :
    (c.itable x).inum ≠ i := by
  rintro rfl
  rw [h.ref x hx] at hr
  by_cases hc : 0 < e.cnt x
  · obtain ⟨-, hnum, ht⟩ := h.outside x hc
    rw [← hnum] at ht
    exact ht h0
  · have hpos : 0 < L.count x := by omega
    obtain ⟨q, hq, rfl⟩ := Multiset.mem_map.mp (Multiset.count_pos.mp hpos)
    have ht := hlive q hq
    rw [← (h.inside q hq).2] at ht
    exact ht h0

theorem Ok.claim (h : Ok sb e L K c) (hlive : ∀ q ∈ L, (c.disk.inodes q.2).type ≠ 0)
    (h0 : (c.disk.inodes i).type = 0) (hi : 1 ≤ i ∧ i < sb.ninodes) (type : Nat) :
    Ok sb e L K ⟨c.disk.put i { Dinode.zero with type := type }, c.itable⟩ := by
  have hnone : ∀ k, c.disk.owns (i, k) = none := by
    intro k
    simp [Disk.owns, h0]
  refine ⟨h.fs.reset hnone (fun _ => hi) rfl rfl, h.ref, ?_, h.inside, h.dev, h.unique, ?_,
    h.locks, h.locked⟩
  · intro x hx
    obtain ⟨hlt, hnum, ht⟩ := h.outside x hx
    have hne : e.num x ≠ i := by
      rw [← hnum]
      exact h.inum_ne hlive h0 hlt (by rw [h.ref x hlt]; omega)
    refine ⟨hlt, hnum, ?_⟩
    dsimp only
    rw [put_inodes_of_ne hne]
    exact ht
  · intro x hx hr hv
    dsimp only at hr hv ⊢
    rw [put_inodes_of_ne (h.inum_ne hlive h0 hx hr)]
    exact h.clean x hx hr hv

theorem view_claim (s : Disk) (ht : type ≠ 0) :
    (s.put i { Dinode.zero with type := type }).view =
      update s.view i ⟨type, 0, 0, []⟩ := by
  funext j
  rcases eq_or_ne j i with rfl | hj
  · rw [update_self]
    simp [Disk.view, ht, Dinode.zero, entries]
  · rw [update_of_ne hj]
    apply view_congr (put_inodes_of_ne hj)
    intro _ pos _
    rfl

/-- ialloc returns the only reference to an inode that was free. -/
theorem Ok.ialloc (A : Allows E e H V R) (h : Ok sb e L K c) (hcard : Multiset.card L ≤ 3)
    (hlive : ∀ q ∈ L, (c.disk.inodes q.2).type ≠ 0) (ht : type ≠ 0) :
    Outcome (ialloc sb ROOTDEV type) c E (fun r c' =>
      (r = none → Ok sb e L K c' ∧ c'.disk = c.disk) ∧
      ∀ x, r = some x → ∃ i, Ok sb e ((x, i) ::ₘ L) K c' ∧ 1 ≤ i ∧ i < sb.ninodes ∧
        c.disk.view i = Node.free ∧ x ∉ K ∧ (c'.itable x).ref = 1 ∧
        c'.disk.view = update c.disk.view i ⟨type, 0, 0, []⟩) := by
  rw [Fs.ialloc, outcome_bind, outcome_get]
  split
  · rename_i i hf
    have hp := List.find?_some hf
    simp only [Bool.and_eq_true, decide_eq_true_eq, beq_iff_eq] at hp
    have hlt : i < sb.ninodes := List.mem_range.mp (List.mem_of_find?_eq_some hf)
    have hclaim := h.claim hlive hp.2 ⟨hp.1, hlt⟩ type
    rw [outcome_bind, onDisk, outcome_zoom, iupdate, outcome_modify]
    refine (A.iget hclaim hcard).bind ?_
    rintro x c1 ⟨h1, hd1⟩
    rw [outcome_pure]
    refine ⟨by simp, ?_⟩
    intro y hy
    cases hy
    obtain ⟨hx, hnum⟩ := h1.inside _ (Multiset.mem_cons_self _ _)
    dsimp only at hx hnum
    -- an earlier reference would be to an inode in use
    have hz : ¬ 0 < (c.itable x).ref := by
      intro hr
      have hold : (c1.itable x).inum = (c.itable x).inum := by
        rw [h.ref x hx] at hr
        by_cases hc : 0 < e.cnt x
        · rw [(h1.outside x hc).2.1, (h.outside x hc).2.1]
        · have hpos : 0 < L.count x := by omega
          obtain ⟨q, hq, rfl⟩ := Multiset.mem_map.mp (Multiset.count_pos.mp hpos)
          rw [(h1.inside q (Multiset.mem_cons_of_mem hq)).2, (h.inside q hq).2]
      exact h.inum_ne hlive hp.2 hx hr (hold.symm.trans hnum)
    refine ⟨i, h1, hp.1, hlt, view_free hp.2, ?_, ?_, ?_⟩
    · exact fun hk => hz (h.locked x hk).2.1
    · have hr1 := h1.ref x hx
      have hr := h.ref x hx
      rw [count_cons_self] at hr1
      omega
    · rw [hd1]
      exact view_claim c.disk ht
  · rw [outcome_pure]
    exact ⟨fun _ => ⟨h, rfl⟩, by simp⟩

theorem nameOk_dot : NameOk dot := ⟨by decide, by decide⟩

theorem nameOk_dotdot : NameOk dotdot := ⟨by decide, by decide⟩

theorem enter_first (hn : n.entries = []) (hv : Vacant n k name) (de : Dirent) :
    n.enter k de = { n with entries := [de] } := by
  have hk := hv.le
  rw [hn] at hk
  have hk0 : k = 0 := Nat.le_zero.mp hk
  simp [Node.enter, place, hn]

theorem enter_second (hn : n.entries = [first]) (hf : first.inum ≠ 0) (hv : Vacant n k name)
    (de : Dirent) : n.enter k de = { n with entries := [first, de] } := by
  have hk := hv.le
  have hslot := hv.slot
  rw [hn] at hk hslot
  have hk0 : k ≠ 0 := by
    rintro rfl
    exact hf (hslot first rfl)
  have hk1 : ¬ k < 1 := by omega
  simp [Node.enter, place, hn, hk0]

theorem update_twice (V : View) (i : Nat) (n n' : Node) :
    update (update V i n) i n' = update V i n' :=
  update_idem ..

/-- The entries of a new inode: all of them are there, or it has some and nothing else changed. -/
theorem Ok.linkNew (A : Allows E e H V R) (h : Ok sb e ((x, i) ::ₘ {(dp, d)}) K c) (hkx : x ∈ K)
    (hkd : dp ∈ K) (hdir : (c.disk.view d).type = T_DIR) (hne : i ≠ d)
    (hnew : c.disk.view i = ⟨type, 1, 1, []⟩) (hn : NameOk name) :
    Outcome (linkNew sb dp x name type) c E (fun r c' =>
      Ok sb e ((x, i) ::ₘ {(dp, d)}) K c' ∧
      (r = true → ∃ k, Vacant (c.disk.view d) k name ∧ c'.disk.view =
        update (update c.disk.view i (Node.new type i d)) d
          ((c.disk.view d).enter k ⟨i, name⟩)) ∧
      (r = false → ∃ n, Thin e.Holds (update c.disk.view i n) c'.disk.view)) := by
  have hmemx : (x, i) ∈ (x, i) ::ₘ ({(dp, d)} : Locals) := Multiset.mem_cons_self _ _
  have hmemd : (dp, d) ∈ (x, i) ::ₘ ({(dp, d)} : Locals) :=
    Multiset.mem_cons_of_mem (Multiset.mem_singleton_self _)
  have hcard : Multiset.card ((x, i) ::ₘ ({(dp, d)} : Locals)) ≤ 3 := by simp
  have hlive : ∀ y j, (y, j) ∈ (x, i) ::ₘ ({(dp, d)} : Locals) → y ∈ K → 1 ≤ j ∧ j < 65536 := by
    intro y j hm hk
    have hin := h.fs.inum j (h.copy_eq hm hk).2
    have := sb.ninodes_le
    omega
  obtain ⟨hi1, hilt⟩ := hlive x i hmemx hkx
  obtain ⟨-, hdlt⟩ := hlive dp d hmemd hkd
  -- the last step, once inode i looks as it should
  have hlast : ∀ c1, Ok sb e ((x, i) ::ₘ {(dp, d)}) K c1 →
      c1.disk.view = update c.disk.view i (Node.new type i d) →
      Outcome (Fs.dirlink sb dp name i) c1 E (fun r c' =>
        Ok sb e ((x, i) ::ₘ {(dp, d)}) K c' ∧
        (r = true → ∃ k, Vacant (c.disk.view d) k name ∧ c'.disk.view =
          update (update c.disk.view i (Node.new type i d)) d
            ((c.disk.view d).enter k ⟨i, name⟩)) ∧
        (r = false → ∃ n, Thin e.Holds (update c.disk.view i n) c'.disk.view)) := by
    intro c1 h1 hv1
    have hvd : c1.disk.view d = c.disk.view d := by rw [hv1, update_of_ne hne.symm]
    have hd1 : (c1.disk.inodes d).type = T_DIR := by
      rw [← view_type, hvd]
      exact hdir
    refine (h1.dirlink (A.room _ hcard) hmemd hkd hd1 hilt hn).imp ?_
    rintro r c2 ⟨h2, -, htrue, hfalse⟩
    rw [hvd, hv1] at htrue
    rw [hv1] at hfalse
    exact ⟨h2, htrue, fun hr => ⟨_, (hfalse hr).1.mono fun j hj => hj.held _⟩⟩
  rw [Fs.linkNew, outcome_bind, outcome_get, (h.inside _ hmemx).2, (h.inside _ hmemd).2]
  refine Outcome.ite (fun ht => ?_) (fun ht => ?_)
  · subst ht
    have hd0 : (c.disk.inodes i).type = T_DIR := by rw [← view_type, hnew]
    refine (h.dirlink (A.room _ hcard) hmemx hkx hd0 hilt nameOk_dot).bind ?_
    rintro ok c1 ⟨h1, hd1, htrue1, hfalse1⟩
    refine Outcome.ite (fun hok => ?_) (fun hok => ?_)
    · obtain ⟨k, hvac, hv1⟩ := htrue1 hok
      rw [enter_first (by rw [hnew]) hvac, hnew] at hv1
      dsimp only at hv1
      have hi1' : c1.disk.view i = ⟨T_DIR, 1, 1, [⟨i, dot⟩]⟩ := by rw [hv1, update_self]
      have hent : (c1.disk.view i).entries = [⟨i, dot⟩] := by rw [hi1']
      refine (h1.dirlink (A.room _ hcard) hmemx hkx hd1 hdlt nameOk_dotdot).bind ?_
      rintro ok c2 ⟨h2, -, htrue2, hfalse2⟩
      refine Outcome.ite (fun hok => ?_) (fun hok => ?_)
      · obtain ⟨k', hvac', hv2⟩ := htrue2 hok
        rw [enter_second hent (Nat.ne_of_gt hi1) hvac', hi1', hv1, update_twice] at hv2
        exact hlast c2 h2 hv2
      · rw [outcome_pure]
        refine ⟨h2, by simp, fun _ => ⟨⟨T_DIR, 1, 1, [⟨i, dot⟩]⟩, ?_⟩⟩
        rw [← hv1]
        exact (hfalse2 (by simpa using hok)).1.mono fun j hj => hj.held _
    · rw [outcome_pure]
      refine ⟨h1, by simp, fun _ => ⟨c.disk.view i, ?_⟩⟩
      rw [update_eq_self]
      exact (hfalse1 (by simpa using hok)).1.mono fun j hj => hj.held _
  · refine hlast c h ?_
    rw [Node.new, if_neg ht, ← hnew, update_eq_self]

theorem Ok.setLinks (h : Ok sb e L K c) (hL : (x, i) ∈ L) (hk : x ∈ K) (nlink : BitVec 16)
    (links : Int) {f : Dinode → Dinode} (hty : ∀ ip, (f ip).type = ip.type)
    (hsz : ∀ ip, (f ip).size = ip.size) (had : ∀ ip, (f ip).addrs = ip.addrs)
    (hn : ∀ ip, (f ip).nlink = nlink)
    (hl : ∀ ip, (f ip).links = links) :
    Outcome (Fs.assign x f) c E (fun _ c' => Ok sb e L K c' ∧ (c'.disk.inodes i).nlink = nlink ∧
      c'.disk.view = update c.disk.view i
        { c.disk.view i with nlink := nlink, links := links }) := by
  obtain ⟨hx, hnum⟩ := h.inside _ hL
  dsimp only at hx hnum
  obtain ⟨-, hr, hv⟩ := h.locked x hk
  refine (h.assign hx hr hv hty hsz had).imp ?_
  rintro _ c1 ⟨h1, hd, -⟩
  rw [hnum] at hd
  refine ⟨h1, ?_, ?_⟩
  · rw [hd, put_inodes_self, hn]
  · rw [hd, view_put _ (had _) (hsz _) (hty _) (h.copy_eq hL hk).2, hn, hl]

/-- A new inode i gets its entries, or everything is as before. -/
theorem Ok.fill (A : Allows E e H V R) (h : Ok sb e ((x, i) ::ₘ {(dp, d)}) (insert dp ∅) c)
    (hx : x ∉ insert dp (∅ : Finset Nat)) (hr : (c.itable x).ref = 1) (ht : type ≠ 0)
    (hdir : (W d).type = T_DIR) (hfree : W i = Node.free) (hi : 1 ≤ i ∧ i < sb.ninodes)
    (hview : c.disk.view = update W i ⟨type, 0, 0, []⟩) (hn : NameOk name)
    (hname : name ≠ []) (major minor : BitVec 16) :
    Outcome (fill sb dp x name type major minor) c E (fun r c' =>
      (r = none → Ok sb e 0 ∅ c' ∧ Thin e.Holds W c'.disk.view) ∧
      ∀ y, r = some y → y = x ∧ Ok sb e {(x, i)} (insert x ∅) c' ∧ (c'.disk.view i).type = type ∧
        ∃ V2, Move sb W (.create d name i type) V2 ∧ Thin e.Holds V2 c'.disk.view) := by
  have hmemx : (x, i) ∈ (x, i) ::ₘ ({(dp, d)} : Locals) := Multiset.mem_cons_self _ _
  have hmemd : (dp, d) ∈ (x, i) ::ₘ ({(dp, d)} : Locals) :=
    Multiset.mem_cons_of_mem (Multiset.mem_singleton_self _)
  have hkx : x ∈ insert x (insert dp (∅ : Finset Nat)) := mem_insert_self _ _
  have hkd : dp ∈ insert x (insert dp (∅ : Finset Nat)) :=
    mem_insert_of_mem (mem_insert_self _ _)
  have hne : i ≠ d := by
    rintro rfl
    rw [hfree] at hdir
    cases hdir
  rw [Fs.fill]
  refine (h.lock hmemx (fun hk => absurd hk hx) ?_).bind ?_
  · intro hz
    rw [hview, update_self] at hz
    exact absurd hz ht
  rintro _ c1 ⟨h1, hd1, -⟩
  refine (h1.setLinks hmemx hkx 1 1
    (f := fun ip => { ip with major := major, minor := minor, nlink := 1, links := 1 })
    (fun _ => rfl) (fun _ => rfl) (fun _ => rfl) (fun _ => rfl) (fun _ => rfl)).bind ?_
  rintro _ c2 ⟨h2, -, hv2⟩
  rw [hd1, hview, update_self, update_twice] at hv2
  have hvi : c2.disk.view i = ⟨type, 1, 1, []⟩ := by rw [hv2, update_self]
  have hvd : c2.disk.view d = W d := by rw [hv2, update_of_ne hne.symm]
  refine (h2.linkNew A hkx hkd (by rw [hvd]; exact hdir) hne hvi hn).bind ?_
  rintro ok c3 ⟨h3, htrue, hfalse⟩
  refine Outcome.ite (fun hok => ?_) (fun hok => ?_)
  · obtain ⟨k, hvac, hv3⟩ := htrue hok
    rw [hvd, hv2, update_twice] at hv3
    rw [hvd] at hvac
    have hback : Outcome (onlyIf (type = T_DIR) (Fs.assign dp (fun ip => Dinode.relink ip 1))) c3 E
        (fun _ c' => Ok sb e ((x, i) ::ₘ {(dp, d)}) (insert x (insert dp ∅)) c' ∧
          c'.disk.view = update (update W i (Node.new type i d)) d
            (((W d).enter k ⟨i, name⟩).relink (backLinks type))) := by
      unfold onlyIf
      refine Outcome.ite (fun hd => ?_) (fun hd => ?_)
      · refine (h3.relink hmemd hkd 1).imp ?_
        rintro _ c4 ⟨h4, hv4⟩
        refine ⟨h4, ?_⟩
        rw [hv4, hv3, update_self, update_twice, backLinks, if_pos hd]
      · rw [outcome_pure, backLinks, if_neg hd, relink_zero]
        exact ⟨h3, hv3⟩
    refine hback.bind ?_
    rintro _ c4 ⟨h4, hv4⟩
    have hswap : (x, i) ::ₘ ({(dp, d)} : Locals) = (dp, d) ::ₘ {(x, i)} :=
      Multiset.cons_swap _ _ 0
    rw [hswap] at h4
    refine (h4.iunlockput hkd).bind ?_
    rintro _ c5 ⟨h5, hthin5⟩
    rw [outcome_pure]
    refine ⟨by simp, ?_⟩
    intro y hy
    cases hy
    rw [erase_second (fun he => hx (by simp [he]))] at h5
    have hi5 : c5.disk.view i = Node.new type i d := by
      rw [hthin5.held (held_single e x i), hv4, update_of_ne hne, update_self]
    refine ⟨rfl, h5, by rw [hi5]; rfl, c4.disk.view, ?_, hthin5.mono fun j hj => hj.held _⟩
    rw [hv4]
    exact .create hvac hn hname hfree hi ht
  · obtain ⟨n, hthin3⟩ := hfalse (by simpa using hok)
    refine (h3.setLinks hmemx hkx 0 0 (f := fun ip => { ip with nlink := 0, links := 0 })
      (fun _ => rfl) (fun _ => rfl) (fun _ => rfl) (fun _ => rfl) (fun _ => rfl)).bind ?_
    rintro _ c4 ⟨h4, hn4, hv4⟩
    have hx4 := (h4.inside _ hmemx).1
    have hr4 : (c4.itable x).ref = 1 := by rw [h4.ref x hx4, ← h.ref x hx4, hr]
    refine (h4.iunlockput_last hkx hr4 hn4).bind ?_
    rintro _ c5 ⟨h5, hv5⟩
    rw [erase_insert hx] at h5
    rw [hv4, update_twice] at hv5
    refine (Ok.iunlockput (L := 0) h5 (mem_insert_self _ _)).bind ?_
    rintro _ c6 ⟨h6, hthin6⟩
    rw [outcome_pure]
    refine ⟨fun _ => ⟨by simpa using h6, ?_⟩, by simp⟩
    -- with inode i free again, the tree is the one before the call
    have hthin5 := hthin3.set_node (H := e.Holds) (fun j hj => hj) i Node.free
    rw [update_twice, hv2, update_twice, ← hfree, update_eq_self, hfree, ← hv5] at hthin5
    exact hthin5.trans (hthin6.mono fun j hj => hj.held 0)

theorem Ok.create (A : Allows E e e.Holds c.disk.view R) (h : Ok sb e 0 ∅ c)
    (hcwd : 0 < e.cnt cwd) (hroot : R ROOTINO) (hR : R (e.num cwd)) (h0 : (0 : Byte) ∉ path)
    (ht : type ≠ 0) (major minor : BitVec 16) :
    Outcome (create sb cwd path type major minor) c E (fun r c' =>
      (r = none → Ok sb e 0 ∅ c' ∧ Thin e.Holds c.disk.view c'.disk.view) ∧
      ∀ x, r = some x → ∃ i, Ok sb e {(x, i)} (insert x ∅) c' ∧
        (type ≠ T_DIR → (c'.disk.view i).type ≠ T_DIR) ∧
        Effect sb e.Holds (Creates e c.disk.view cwd path type) c.disk.view c'.disk.view) := by
  rw [Fs.create]
  refine (Ok.nameiparent A (by simp) (fun j hj => hj.held 0) h hcwd hroot hR (.refl _ _)
    path).bind ?_
  rintro r c1 ⟨hthin1, hnone, hsome⟩
  split
  · rw [outcome_pure]
    exact ⟨fun _ => ⟨(hnone rfl).1, hthin1⟩, by simp⟩
  rename_i dp name
  obtain ⟨d, h1, hp, htd, hvd⟩ := hsome dp name rfl
  obtain ⟨hname, hne⟩ := hp.name_ok h0
  have hmemd : (dp, d) ∈ ((dp, d) ::ₘ 0 : Locals) := Multiset.mem_cons_self _ _
  have hkd : dp ∈ insert dp (∅ : Finset Nat) := mem_insert_self _ _
  have herase : ∀ y, (insert y (∅ : Finset Nat)).erase y = ∅ := by simp
  have hRd : R d := hp.reach A hroot hR
  refine (h1.lock hmemd (fun hx => absurd hx (notMem_empty dp)) ?_).bind ?_
  · intro hz
    rw [hvd, htd] at hz
    cases hz
  rintro _ c2 ⟨h2, hd2, -⟩
  have hdisk : (c2.disk.inodes d).type = T_DIR := by
    rw [hd2, ← view_type, hvd]
    exact htd
  refine (h2.dirlookup (A.room _ (by simp)) hmemd hkd hdisk name).bind ?_
  rintro r c3 ⟨hd3, hnone3, hsome3⟩
  have hv3 : c3.disk.view = c1.disk.view := by rw [hd3, hd2]
  split
  · -- the name is taken
    rename_i x off
    obtain ⟨i, k, h3, hlook, -⟩ := hsome3 x off rfl
    rw [hd2, hvd] at hlook
    have hRi : R i := A.closed d name i hRd htd hlook
    rw [Multiset.cons_swap] at h3
    refine (h3.iunlockput hkd).bind ?_
    rintro _ c4 ⟨h4, hthin4⟩
    rw [herase] at h4
    rw [hv3] at hthin4
    have hthin := hthin1.trans (hthin4.mono fun j hj => hj.held _)
    have hmemx : (x, i) ∈ ((x, i) ::ₘ 0 : Locals) := Multiset.mem_cons_self _ _
    have hkx : x ∈ insert x (∅ : Finset Nat) := mem_insert_self _ _
    refine (h4.lock hmemx (fun hx => absurd hx (notMem_empty x))
      (fun hz => A.noType_of_thin hRi hthin hz)).bind ?_
    rintro _ c5 ⟨h5, hd5, -⟩
    rw [outcome_bind, outcome_itype, (h5.copy_eq hmemx hkx).1, ← view_type]
    refine Outcome.ite (fun hf => ?_) (fun _ => ?_)
    · rw [outcome_pure]
      refine ⟨by simp, ?_⟩
      intro y hy
      cases hy
      refine ⟨i, h5, fun _ => ?_, by rw [hd5]; exact .inl hthin⟩
      rcases hf.2 with hf | hf
      · rw [hf]
        decide
      · rw [hf]
        decide
    · refine (h5.iunlockput hkx).bind ?_
      rintro _ c6 ⟨h6, hthin6⟩
      rw [herase] at h6
      rw [hd5] at hthin6
      rw [outcome_pure]
      exact ⟨fun _ => ⟨h6, hthin.trans (hthin6.mono fun j hj => hj.held 0)⟩, by simp⟩
  · obtain ⟨h3, hlook⟩ := hnone3 rfl
    rw [outcome_bind, outcome_get, h3.dev_eq hmemd, outcome_bind]
    have hlive : ∀ q ∈ ((dp, d) ::ₘ 0 : Locals), (c3.disk.inodes q.2).type ≠ 0 := by
      intro q hq
      rw [Multiset.mem_cons] at hq
      rcases hq with rfl | hq
      · exact (h3.copy_eq hmemd hkd).2
      · exact absurd hq (Multiset.notMem_zero q)
    refine (Ok.ialloc A h3 (by simp) hlive ht).imp ?_
    rintro r c4 ⟨hnone4, hsome4⟩
    split
    · obtain ⟨h4, hd4⟩ := hnone4 rfl
      refine (h4.iunlockput hkd).bind ?_
      rintro _ c5 ⟨h5, hthin5⟩
      rw [herase] at h5
      rw [hd4, hv3] at hthin5
      rw [outcome_pure]
      exact ⟨fun _ => ⟨h5, hthin1.trans (hthin5.mono fun j hj => hj.held 0)⟩, by simp⟩
    · rename_i x
      obtain ⟨i, h4, hi1, hilt, hfree, hxK, hr, hv4⟩ := hsome4 x rfl
      rw [hv3] at hfree hv4
      refine (Ok.fill A h4 hxK hr ht (by rw [hvd]; exact htd) hfree ⟨hi1, hilt⟩ hv4 hname hne
        major minor).imp ?_
      rintro r c5 ⟨hnone5, hsome5⟩
      refine ⟨?_, ?_⟩
      · intro hr
        exact ⟨(hnone5 hr).1, hthin1.trans (hnone5 hr).2⟩
      · intro y hy
        obtain ⟨rfl, h5, hty, V2, hmove, hthin5⟩ := hsome5 y hy
        refine ⟨i, h5, fun hnd => by rw [hty]; exact hnd, .inr ?_⟩
        exact ⟨c1.disk.view, V2, _, hthin1, ⟨d, name, i, rfl, hp⟩, hmove, hthin5⟩

end

end Xv6.Fs
