import Mathlib.Data.Finset.Prod
import Mathlib.Order.Interval.Finset.Nat
import Mathlib.Tactic.Choose
import Xv6.Fs.Reach

namespace Xv6.Fs

open Finset Function Lib

section
variable {sb : Superblock} {e : Ext} {s t : Sys} {V : View} {n : Node}

/-- Three inodes cannot use up the blocks of the disk. -/
theorem not_crammed (h : ∀ i, (V i).type ≠ 0 → i < 4) : ¬ Crammed mkfsSb V := by
  intro ⟨d, hfs, hfull, htypes⟩
  have howner : ∀ b ∈ Finset.Ico 46 2000, ∃ q, d.owns q = some b := by
    intro b hb
    obtain ⟨h1, h2⟩ := mem_Ico.mp hb
    exact (hfs.marks.marked b).mp ⟨h1, h2, hfull b h2⟩
  choose! owner howner using howner
  have hmaps : Set.MapsTo owner (Finset.Ico 46 2000 : Finset Nat)
      (Finset.range 4 ×ˢ Finset.range 269 : Finset (Nat × Nat)) := by
    intro b hb
    have ho := howner b hb
    obtain ⟨ht, hs, h0⟩ := owns_eq_some.mp ho
    have hi := h _ (htypes _ ht)
    have hk : (owner b).2 < 269 := by
      by_contra hk
      rw [slotAddr, if_neg (by rw [NDIRECT]; omega),
        if_neg (by rw [NDIRECT, NINDIRECT]; omega)] at hs
      exact h0 hs.symm
    simp [hi, hk]
  have hinj : Set.InjOn owner (Finset.Ico 46 2000) := by
    intro b hb b' hb' he
    have h1 := howner b hb
    rw [he, howner b' hb'] at h1
    exact (Option.some.inj h1).symm
  have hcard := card_le_card_of_injOn owner hmaps hinj
  simp at hcard

/-- Only the first process is there, and no file is open. -/
structure Alone (s : Sys) : Prop where
  used : (s.procs 0).state = .used
  files : ∀ f, (s.ftable f).ref = 0
  others : ∀ p, p ≠ 0 → (s.procs p).cwd = none

/-- The inode table has room for what a call needs. -/
theorem Alone.not_crowded (ha : Alone s) (h : Mid sb e 0 ∅ s) (hL : Multiset.card L ≤ 3) :
    ¬ Crowded e L := by
  intro hc
  have hpoint : ∀ q x, s.points q = some x → (s.procs 0).cwd = some x := by
    intro q x hq
    cases q with
    | inl p =>
      by_cases hp : p = 0
      · rw [← hp]
        exact hq
      · have hq : (s.procs p).cwd = some x := hq
        rw [ha.others p hp] at hq
        cases hq
    | inr f =>
      have := (inode_eq_some.mp hq).1
      rw [ha.files f] at this
      cases this
  have hcover : Finset.range NINODE ⊆
      insert (((s.procs 0).cwd).getD 0) (L.map Prod.fst).toFinset := by
    intro x hx
    have hpos := hc x (mem_range.mp hx)
    rcases Nat.eq_zero_or_pos (e.cnt x) with h0 | h0
    · apply mem_insert_of_mem
      rw [Multiset.mem_toFinset]
      apply Multiset.count_pos.mp
      show 0 < Locals.count L x
      omega
    · obtain ⟨F, hF, hcard⟩ := h.points x
      obtain ⟨q, hq⟩ := card_pos.mp (hcard.symm ▸ h0)
      rw [hpoint q x ((hF q).mp hq)]
      exact mem_insert_self _ _
  have hcard := (card_le_card hcover).trans (card_insert_le _ _)
  have hle := Multiset.toFinset_card_le (L.map Prod.fst)
  rw [Multiset.card_map] at hle
  rw [card_range, NINODE] at hcard
  omega

theorem find?_set {l : List α} {p : α → Bool} (hnew : p b = false)
    (hold : ∀ a, l[k]? = some a → p a = false) : (l.set k b).find? p = l.find? p := by
  induction l generalizing k with
  | nil => rfl
  | cons a l ih =>
    cases k with
    | zero => rw [List.set_cons_zero, List.find?_cons, List.find?_cons, hnew, hold a rfl]
    | succ k =>
      rw [List.set_cons_succ, List.find?_cons, List.find?_cons, ih hold]

theorem lookup_enter_of_ne (hv : Vacant n k name) (hne : other ≠ name) :
    (n.enter k ⟨i, name⟩).lookup other = n.lookup other := by
  unfold Node.lookup
  rw [enter_entries, place]
  congr 1
  split
  · apply find?_set
    · simp [Ne.symm hne]
    · intro e he
      simp [hv.slot e he]
  · simp [List.find?_append, Ne.symm hne]

theorem length_place (l : List Dirent) (k : Nat) (e : Dirent) :
    (place l k e).length ≤ l.length + 1 := by
  unfold place
  split
  · rw [List.length_set]
    omega
  · simp

/-- Nothing is freed while every inode has links. -/
theorem Thin.eq_of_linked (h : Thin H V V') (hf : ∀ i, (V i).type = 0 → V i = Node.free)
    (hl : ∀ i, (V i).type ≠ 0 → (V i).nlink ≠ 0) : V' = V := by
  funext i
  rcases h i with he | ⟨he, hn, -⟩
  · exact he
  · by_cases h0 : (V i).type = 0
    · rw [he, hf i h0]
    · exact absurd hn (hl i h0)

theorem step_link (hold : argstr old = some old') (hnew : argstr new = some new')
    (hp : p < NPROC) (hu : (s.procs p).state = .used) (hc : (s.procs p).cwd = some cwd)
    (hrun : (link sb cwd old' new').run s.core = .ok (r, c)) :
    step sb s (.link p old new) = some { s with core := c } := by
  have hout : Outcome (sysLink sb p old new) s (fun _ => False)
      (fun _ t => t = { s with core := c }) := by
    simp only [sysLink, withPath, outcome_bind, outcome_get, hc, hold, hnew, outcome_onCore]
    rw [Outcome, hrun]
    rfl
  obtain ⟨u, t, hr, rfl⟩ := hout.ends
  exact step_of_run hp hu hr

theorem relink_ne_zero {n : Node} (h : 1 ≤ n.nlink.toInt) : (n.relink 1).nlink ≠ 0 := by
  show n.nlink + BitVec.ofInt 16 1 ≠ 0
  intro h0
  have he : n.nlink = -1 := by
    rw [show n.nlink = n.nlink + BitVec.ofInt 16 1 - 1 by simp, h0]
    rfl
  rw [he] at h
  exact absurd h (by decide)

/-- Nothing keeps link() from making the entry. -/
theorem link_succeeds (hk : Kept mkfsSb s) (ha : Alone s)
    (hfew : ∀ i, (s.view i).type ≠ 0 → i < 4)
    (hlinked : ∀ i, (s.view i).type ≠ 0 → (s.view i).nlink ≠ 0)
    (hold : argstr old = some old') (hnew : argstr new = some new')
    (hi : s.lookup 0 old' = some i) (hti : (s.view i).type ≠ T_DIR)
    (hn : 1 ≤ (s.view i).nlink.toInt)
    (hel : elements new'.length new' = front ++ [name])
    (hw : walk s.view (s.start 0 new') front = some d) (hd : (s.view d).type = T_DIR)
    (hfresh : (s.view d).lookup name = none)
    (hlen : (s.view d).entries.length ≤ 17151) :
    ∃ t k, step mkfsSb s (.link 0 old new) = some t ∧ Vacant (s.view d) k name ∧
      t.view = update (update s.view i ((s.view i).relink 1)) d
        ((s.view d).enter k ⟨i, name⟩) ∧ t.procs = s.procs ∧ t.ftable = s.ftable := by
  obtain ⟨e, hm⟩ := hk.sys.mid
  obtain ⟨cwd, hc⟩ := Option.ne_none_iff_exists'.mp
    ((hk.sys.procs 0).mpr ⟨by decide, ha.used⟩)
  have A : Permits (fun _ => False) (Linked s.view) e s := by
    refine ⟨⟨fun L hL hcr => ha.not_crowded hm hL hcr, ?_, ?_⟩, .inl rfl, hk.cwds⟩
    · intro i name j hi hd hl
      exact hk.rooted.closed hk.counts.tree hi hd hl
    · intro i hi hbad
      rcases hbad with h0 | ⟨hn, -⟩
      · exact hk.counts.linked_type hi h0
      · exact hk.counts.linked_nlink hi hn
  have hlook : e.lookup s.view cwd old' = some i := by rw [hm.lookup_eq hc, hi]
  have hpar : e.Parent s.view cwd new' d name := ⟨front, hel, by rw [hm.start_eq hc, hw]⟩
  have hparent : ∀ d' name', e.Parent s.view cwd new' d' name' → d' = d ∧ name' = name := by
    intro d' name' ⟨front', hel', hw'⟩
    rw [hel] at hel'
    obtain ⟨rfl, hname⟩ := List.append_inj' hel' rfl
    rw [hm.start_eq hc, hw] at hw'
    exact ⟨(Option.some.inj hw').symm, (List.singleton_inj.mp hname).symm⟩
  obtain ⟨hcnt, hR⟩ := A.caller hm hc
  obtain ⟨r, c, hrun, -, htrue, hfalse⟩ :=
    (Ok.link A.lookup hm.core hcnt A.root hR (argstr_ok hnew) old').ends
  cases r with
  | false =>
    exfalso
    obtain ⟨-, hnone | ⟨j, hj, hdir⟩ | ⟨V1, hV1, hnodir⟩ | ⟨d', name', hpar', hroom⟩⟩ := hfalse rfl
    · rw [hlook] at hnone
      cases hnone
    · rw [hlook] at hj
      cases hj
      exact hti hdir
    · rw [hV1.eq_of_linked hk.counts.free hlinked] at hnodir
      exact hnodir d name hpar hd
    · obtain ⟨rfl, rfl⟩ := hparent d' name' hpar'
      rcases hroom with hl | hl | hl
      · exact hl hfresh
      · have hlt : 268 * 1024 < (s.view d').entries.length * 16 + 16 := hl
        omega
      · exact not_crammed hfew hl
  | true =>
    obtain ⟨V1, V2, a, hV1, ⟨d', name', j, rfl, hj, hpar'⟩, hmove, hV2⟩ := htrue rfl
    have h1 : V1 = s.view := hV1.eq_of_linked hk.counts.free hlinked
    rw [h1] at hmove
    rw [hlook] at hj
    cases hj
    obtain ⟨rfl, rfl⟩ := hparent d' name' hpar'
    cases hmove with
    | link hv hname hne hi0 h0 ht =>
      rename_i k
      refine ⟨{ s with core := c }, k, ?_, hv, ?_, rfl, rfl⟩
      · exact step_link hold hnew (by decide) ha.used hc hrun
      · have hid : i ≠ d' := fun he => hti (he ▸ hd)
        refine hV2.eq_of_linked ?_ ?_
        · intro j hj
          rcases eq_or_ne j d' with rfl | hjd
          · rw [update_self, enter_type, hd] at hj
            cases hj
          · rw [update_of_ne hjd] at hj ⊢
            rcases eq_or_ne j i with rfl | hji
            · rw [update_self, relink_type] at hj
              exact absurd hj h0
            · rw [update_of_ne hji] at hj ⊢
              exact hk.counts.free j hj
        · intro j hj
          rcases eq_or_ne j d' with rfl | hjd
          · rw [update_self]
            exact hlinked j (by rw [hd]; decide)
          · rw [update_of_ne hjd] at hj ⊢
            rcases eq_or_ne j i with rfl | hji
            · rw [update_self]
              exact relink_ne_zero hn
            · rw [update_of_ne hji] at hj ⊢
              exact hlinked j hj

/-- The names under which the file is linked. -/
def nickname (j : Nat) : List Byte :=
  [BitVec.ofNat 8 (128 + j / 128), BitVec.ofNat 8 (128 + j % 128)]

theorem nickname_toNat (hj : j < 16384) :
    (nickname j).map BitVec.toNat = [128 + j / 128, 128 + j % 128] := by
  simp only [nickname, List.map_cons, List.map_nil, BitVec.toNat_ofNat]
  rw [Nat.mod_eq_of_lt (by omega), Nat.mod_eq_of_lt (by omega)]

theorem nickname_inj (hj : j < 16384) (hi : i < 16384) (h : nickname i = nickname j) : i = j := by
  have h := congrArg (List.map BitVec.toNat) h
  rw [nickname_toNat hi, nickname_toNat hj, List.cons.injEq, List.cons.injEq] at h
  omega

theorem high_ne {b : Byte} (hb : b.toNat < 128) (hx : 128 ≤ x) (hx' : x < 256) :
    BitVec.ofNat 8 x ≠ b := by
  intro h
  have h := congrArg BitVec.toNat h
  rw [BitVec.toNat_ofNat, Nat.mod_eq_of_lt hx'] at h
  omega

theorem nickname_ok (hj : j < 16384) (hb : b ∈ nickname j) : b ≠ 0#8 ∧ b ≠ 47#8 := by
  rcases List.mem_cons.mp hb with rfl | hb
  · exact ⟨high_ne (by decide) (by omega) (by omega), high_ne (by decide) (by omega) (by omega)⟩
  · rcases List.mem_singleton.mp hb with rfl
    exact ⟨high_ne (by decide) (by omega) (by omega), high_ne (by decide) (by omega) (by omega)⟩

/-- The j-th path in the root, or in the directory "a". -/
def byname (d j : Nat) : List Byte := if d = ROOTINO then nickname j else 97 :: slash :: nickname j

def pileCall (d j : Nat) : Call := .link 0 [102, 0] (byname d j ++ [0])

/-- The elements of the path before the last one. -/
def bynameFront (d : Nat) : List (List Byte) := if d = ROOTINO then [] else [[97]]

theorem byname_argstr (hj : j < 16384) : argstr (byname d j ++ [0]) = some (byname d j) := by
  have hx := (nickname_ok hj (List.mem_cons_self ..)).1
  have hy := (nickname_ok hj (List.mem_cons_of_mem _ (List.mem_singleton_self _))).1
  unfold byname nickname
  generalize BitVec.ofNat 8 (128 + j / 128) = x at hx ⊢
  generalize BitVec.ofNat 8 (128 + j % 128) = y at hy ⊢
  split <;> simp [argstr, MAXPATH, slash, hx, hy]

theorem byname_elements (hj : j < 16384) :
    elements (byname d j).length (byname d j) = bynameFront d ++ [nickname j] := by
  have hx := (nickname_ok hj (List.mem_cons_self ..)).2
  have hy := (nickname_ok hj (List.mem_cons_of_mem _ (List.mem_singleton_self _))).2
  unfold byname bynameFront nickname
  generalize BitVec.ofNat 8 (128 + j / 128) = x at hx ⊢
  generalize BitVec.ofNat 8 (128 + j % 128) = y at hy ⊢
  split <;> simp [elements, skipelem, DIRSIZ, slash, hx, hy]

theorem short_ne (h : name.length = 1) : name ≠ nickname j := by
  intro he
  rw [he] at h
  cases h

/-- The file "f" has been linked n d times in each of the two directories d. -/
structure Piling (n : Nat → Nat) (s : Sys) : Prop where
  kept : Kept mkfsSb s
  alone : Alone s
  cwd : s.dir 0 = some ROOTINO
  few : ∀ i, (s.view i).type ≠ 0 → i < 4
  file : (s.view 2).type = T_FILE
  sub : (s.view 3).type = T_DIR
  links : (s.view 2).links = 1 + n 1 + n 3
  named : (s.view ROOTINO).lookup [102] = some 2
  inRoot : (s.view ROOTINO).lookup [97] = some 3
  unused : ∀ d, d = 1 ∨ d = 3 → ∀ j, n d ≤ j → j < 16384 → (s.view d).lookup (nickname j) = none
  room : ∀ d, d = 1 ∨ d = 3 → (s.view d).entries.length ≤ 64 + n d

theorem Piling.linked (h : Piling cnt s) (hi : (s.view i).type ≠ 0) : Linked s.view i := by
  obtain ⟨e, hm⟩ := h.kept.sys.mid
  have hpos := (hm.core.fs.inum i (by rw [← view_type]; exact hi)).1
  have hlt := h.few i hi
  have hroot : (s.view ROOTINO).type = T_DIR := h.kept.rooted.dir
  have hclosed := fun {name j} (hl : (s.view ROOTINO).lookup name = some j) =>
    h.kept.rooted.closed h.kept.counts.tree (.inl rfl) hroot hl
  match i, hpos, hlt with
  | 1, _, _ => exact .inl rfl
  | 2, _, _ => exact hclosed h.named
  | 3, _, _ => exact hclosed h.inRoot

theorem Piling.walk (h : Piling cnt s) (hd : d = 1 ∨ d = 3) (j : Nat) :
    walk s.view (s.start 0 (byname d j)) (bynameFront d) = some d := by
  have hroot : (s.view ROOTINO).type = T_DIR := h.kept.rooted.dir
  have hstart : s.start 0 (byname d j) = ROOTINO := by
    rw [Sys.start, h.cwd]
    split <;> rfl
  rw [hstart]
  rcases hd with rfl | rfl
  · rfl
  · rw [bynameFront, if_neg (by decide), Fs.walk, if_pos hroot, h.inRoot]
    rfl

theorem Piling.lookup (h : Piling cnt s) : s.lookup 0 [102] = some 2 := by
  have hroot : (s.view ROOTINO).type = T_DIR := h.kept.rooted.dir
  have hstart : s.start 0 [102] = ROOTINO := by
    rw [Sys.start, h.cwd]
    rfl
  rw [Sys.lookup, hstart]
  show Fs.walk s.view ROOTINO [[102]] = some 2
  rw [Fs.walk, if_pos hroot, h.named]
  rfl

theorem Piling.nlink (h : Piling cnt s) : (s.view 2).nlink.toInt = 1 + cnt 1 + cnt 3 := by
  rw [h.kept.counts.nlink, h.links]

/-- One more link, also when the count is at its limit. -/
theorem Piling.link (h : Piling cnt s) (hd : d = 1 ∨ d = 3) (hn : cnt d < 16384) :
    ∃ t k, Fs.step mkfsSb s (pileCall d (cnt d)) = some t ∧
      Vacant (s.view d) k (nickname (cnt d)) ∧
      t.view = update (update s.view 2 ((s.view 2).relink 1)) d
        ((s.view d).enter k ⟨2, nickname (cnt d)⟩) ∧ t.procs = s.procs ∧ t.ftable = s.ftable := by
  have hlinked : ∀ i, (s.view i).type ≠ 0 → (s.view i).nlink ≠ 0 := fun i hi =>
    h.kept.counts.linked_nlink (h.linked hi)
  have hdir : (s.view d).type = T_DIR := by
    rcases hd with rfl | rfl
    · exact h.kept.rooted.dir
    · exact h.sub
  have hpos : 1 ≤ (s.view 2).nlink.toInt := by
    rw [h.nlink]
    omega
  have hroom := h.room d hd
  exact link_succeeds h.kept h.alone h.few hlinked rfl (byname_argstr hn) h.lookup
    (by rw [h.file]; decide) hpos (byname_elements hn) (h.walk hd _) hdir
    (h.unused d hd _ (Nat.le_refl _) hn) (by omega)

theorem Piling.step (h : Piling cnt s) (hd : d = 1 ∨ d = 3) (hn : cnt d < 16384)
    (hlim : 1 + cnt 1 + cnt 3 < 32767) :
    ∃ t, Fs.step mkfsSb s (pileCall d (cnt d)) = some t ∧
      Piling (update cnt d (cnt d + 1)) t := by
  obtain ⟨t, k, hst, hv, hview, hprocs, hftable⟩ := h.link hd hn
  refine ⟨t, hst, ?_⟩
  have hlimit : (s.view 2).nlink ≠ 32767 := by
    intro he
    have hn := h.nlink
    rw [he, show (32767 : BitVec 16).toInt = 32767 from rfl] at hn
    omega
  have hcareful : (pileCall d (cnt d)).careful s = true := by
    apply Bool.and_eq_true_iff.mpr ⟨_, rfl⟩
    show (((argstr [102, 0]).bind (s.lookup 0)).all fun i => (s.view i).nlink != 32767) = true
    rw [show argstr [102, 0] = some [102] from rfl, Option.bind_some, h.lookup]
    exact bne_iff_ne.mpr hlimit
  have h2d : 2 ≠ d := by omega
  have htwo : t.view 2 = (s.view 2).relink 1 := by
    rw [hview, update_of_ne h2d, update_self]
  have htd : t.view d = (s.view d).enter k ⟨2, nickname (cnt d)⟩ := by
    rw [hview, update_self]
  have hother : ∀ d', d' ≠ d → d' ≠ 2 → t.view d' = s.view d' := by
    intro d' h1 h2
    rw [hview, update_of_ne h1, update_of_ne h2]
  have htype : ∀ i, (t.view i).type = (s.view i).type := by
    intro i
    rcases eq_or_ne i d with rfl | hid
    · rw [htd, enter_type]
    · rcases eq_or_ne i 2 with rfl | hi2
      · rw [htwo, relink_type]
      · rw [hother i hid hi2]
  have hlookup : ∀ d' other, d' ≠ 2 → (d' = d → other ≠ nickname (cnt d)) →
      (t.view d').lookup other = (s.view d').lookup other := by
    intro d' other h2 hne
    rcases eq_or_ne d' d with rfl | hd'
    · rw [htd, lookup_enter_of_ne hv (hne rfl)]
    · rw [hother d' hd' h2]
  have hcwd : t.dir 0 = some ROOTINO := by
    obtain ⟨x, hx⟩ := Option.ne_none_iff_exists'.mp
      ((h.kept.sys.procs 0).mpr ⟨by decide, h.alone.used⟩)
    have hj : t.dir 0 = some (t.core.itable x).inum := by simp [Sys.dir, hprocs, hx]
    rcases (h.kept.sys.step hst).2.dirs 0 _ hj with ⟨q, hq⟩ | henter
    · rcases eq_or_ne q 0 with rfl | hq0
      · rw [hj, ← hq, h.cwd]
      · simp [Sys.dir, h.alone.others q hq0] at hq
    · exact henter.elim
  refine ⟨h.kept.step (by decide) hcareful hst, ⟨?_, ?_, ?_⟩, hcwd, ?_, ?_, ?_, ?_, ?_, ?_, ?_, ?_⟩
  · rw [hprocs]
    exact h.alone.used
  · rw [hftable]
    exact h.alone.files
  · rw [hprocs]
    exact h.alone.others
  · intro i hi
    exact h.few i (htype i ▸ hi)
  · rw [htype, h.file]
  · rw [htype, h.sub]
  · rw [htwo]
    show (s.view 2).links + 1 = _
    rw [h.links]
    rcases hd with rfl | rfl <;> simp <;> omega
  · rw [hlookup _ _ (by decide) fun _ => short_ne rfl, h.named]
  · rw [hlookup _ _ (by decide) fun _ => short_ne rfl, h.inRoot]
  · intro d' hd' j hj hlt
    rw [hlookup d' _ (by omega)]
    · apply h.unused d' hd' j _ hlt
      rcases eq_or_ne d' d with rfl | hne
      · rw [update_self] at hj
        omega
      · rwa [update_of_ne hne] at hj
    · rintro rfl he
      rw [update_self, nickname_inj hn hlt he] at hj
      omega
  · intro d' hd'
    have hroom := h.room d' hd'
    rcases eq_or_ne d' d with rfl | hne
    · have hlen := length_place (s.view d').entries k ⟨2, nickname (cnt d')⟩
      rw [update_self, htd, enter_entries]
      omega
    · rwa [update_of_ne hne, hother d' hne (by omega)]

/-- Links are made until the count is at its limit. -/
theorem Piling.fill (h : Piling cnt s) (hd : d = 1 ∨ d = 3) (m : Nat) (hn : cnt d + m ≤ 16384)
    (hlim : 1 + cnt 1 + cnt 3 + m ≤ 32767) :
    ∃ t, run (Fs.step mkfsSb) s ((List.range' (cnt d) m).map (pileCall d)) = some t ∧
      Piling (update cnt d (cnt d + m)) t := by
  induction m generalizing s cnt with
  | zero => exact ⟨s, rfl, by simpa using h⟩
  | succ m ih =>
    obtain ⟨t, hst, ht⟩ := h.step hd (by omega) (by omega)
    have hlim' : 1 + update cnt d (cnt d + 1) 1 + update cnt d (cnt d + 1) 3 + m
        ≤ 32767 := by
      rcases hd with rfl | rfl <;> simp <;> omega
    obtain ⟨u, hr, hu⟩ := ih ht (by rw [update_self]; omega) hlim'
    rw [update_self] at hr
    rw [update_self, update_idem, Nat.add_assoc, Nat.add_comm 1] at hu
    refine ⟨u, ?_, hu⟩
    rw [List.range'_succ, List.map_cons, run, hst]
    exact hr

/-- A file "f" and a directory "a". -/
def settling : List Call := [.open 0 [102, 0] 0x202, .close 0 0, .mkdir 0 [97, 0]]

/-- The file is linked 32767 times, in two directories as one has not enough entries. -/
def wrapping : List Call :=
  settling ++ ((List.range' 0 16384).map (pileCall 1) ++
    ((List.range' 0 16382).map (pileCall 3) ++ [pileCall 3 16382]))

def Node.ascii (n : Node) : Bool := n.entries.all fun e => e.name.all fun b => b.toNat < 128

theorem lookup_nickname (h : n.ascii = true) (hj : j < 16384) : n.lookup (nickname j) = none := by
  apply lookup_eq_none.mpr
  intro k e he _ hname
  have hlow := List.all_eq_true.mp h e (List.mem_of_getElem? he)
  rw [hname] at hlow
  have hx : (nickname j).map BitVec.toNat = _ := nickname_toNat hj
  simp [nickname] at hlow hx
  omega

theorem piling_settled :
    ∃ s, run (Fs.step mkfsSb) (boot fresh) settling = some s ∧ Piling (fun _ => 0) s := by
  have hcareful : Along (Fs.step mkfsSb) (fun s c => c.careful s = true) (boot fresh) settling := by
    decide +kernel
  have hd : (run (Fs.step mkfsSb) (boot fresh) settling).any (fun s =>
      decide ((s.procs 0).state = .used ∧ (∀ f ∈ List.range NFILE, (s.ftable f).ref = 0) ∧
        (∀ p ∈ List.range NPROC, p ≠ 0 → (s.procs p).cwd = none) ∧ s.dir 0 = some ROOTINO) &&
      decide (∀ i ∈ List.range 200, (s.view i).type ≠ 0 → i < 4) &&
      decide ((s.view 2).type = T_FILE ∧ (s.view 3).type = T_DIR ∧ (s.view 2).links = 1 ∧
        (s.view ROOTINO).lookup [102] = some 2 ∧ (s.view ROOTINO).lookup [97] = some 3) &&
      decide (∀ d ∈ ([1, 3] : List Nat), (s.view d).entries.length ≤ 64 ∧
        (s.view d).ascii = true)) = true := by
    decide +kernel
  obtain ⟨s, hs, hp⟩ := (Option.any_eq_true _ _).mp hd
  simp only [Bool.and_eq_true, decide_eq_true_iff] at hp
  obtain ⟨⟨⟨⟨hused, hfiles, hcwds, hcwd⟩, hfew⟩, hfile, hsub, hlinks, hnamed, hin⟩, hdirs⟩ := hp
  have hk := kept_run fresh_tree hcareful hs
  have hdirs' : ∀ d, d = 1 ∨ d = 3 →
      (s.view d).entries.length ≤ 64 ∧ (s.view d).ascii = true := by
    intro d hd
    apply hdirs d
    simpa using hd
  refine ⟨s, hs, hk, ⟨hused, ?_, ?_⟩, hcwd, ?_, hfile, hsub, by simpa using hlinks, hnamed, hin,
    fun d hd j _ hj => lookup_nickname (hdirs' d hd).2 hj, fun d hd => (hdirs' d hd).1⟩
  · intro f
    by_contra hf
    exact hf (hfiles f (List.mem_range.mpr (hk.sys.files.lt_of_ref hf)))
  · intro p hp0
    by_contra hc
    exact hc (hcwds p (List.mem_range.mpr ((hk.sys.procs p).mp hc).1) hp0)
  · intro i hi
    exact hfew i (List.mem_range.mpr (hk.counts.inum i hi)) hi

theorem link_count_wraps :
    ∃ s, run (Fs.step mkfsSb) (boot fresh) wrapping = some s ∧
      (s.core.disk.inodes 2).type = T_FILE ∧ (s.core.disk.inodes 2).links = 32768 ∧
      (s.core.disk.inodes 2).nlink.toInt = -32768 ∧ ¬ LinksExact mkfsSb s := by
  obtain ⟨s, hs, h⟩ := piling_settled
  obtain ⟨t, ht, h⟩ := h.fill (.inl rfl) 16384 (by decide) (by decide)
  obtain ⟨u, hu, h⟩ := h.fill (.inr rfl) 16382 (by decide) (by decide)
  obtain ⟨v, k, hv, -, hview, -, -⟩ := h.link (.inr rfl) (by decide)
  have hrun : run (Fs.step mkfsSb) (boot fresh) wrapping = some v := by
    rw [show update (fun _ => 0) 1 (0 + 16384) 3 = 0 from rfl] at hu
    rw [wrapping, run_append hs, run_append ht, run_append hu]
    rw [run, show Fs.step mkfsSb u (pileCall 3 16382) = some v from hv]
    rfl
  have htwo : v.view 2 = (u.view 2).relink 1 := by
    rw [hview, update_of_ne (by decide), update_self]
  have hlinks : (u.view 2).links = 32767 := h.links
  have htype : (v.core.disk.inodes 2).type = T_FILE := by
    rw [← view_type]
    show (v.view 2).type = T_FILE
    rw [htwo, relink_type, h.file]
  have h0 : (v.core.disk.inodes 2).type ≠ 0 := by
    rw [htype]
    decide
  have hl : (v.core.disk.inodes 2).links = 32768 := by
    have hview : (v.view 2).links = (v.core.disk.inodes 2).links := by
      simp [Sys.view, Disk.view, h0]
    rw [← hview, htwo]
    show (u.view 2).links + 1 = 32768
    rw [hlinks]
    rfl
  have hn : (v.core.disk.inodes 2).nlink.toInt = -32768 := by
    have hmax : (u.view 2).nlink = 32767 := by
      apply BitVec.eq_of_toInt_eq
      rw [h.nlink]
      rfl
    rw [← view_nlink h0]
    show (v.view 2).nlink.toInt = -32768
    rw [htwo]
    show ((u.view 2).nlink + BitVec.ofInt 16 1).toInt = -32768
    rw [hmax]
    rfl
  refine ⟨v, hrun, htype, hl, hn, ?_⟩
  intro hexact
  have he := (hexact.exact 2 h0).1
  rw [hl, hn] at he
  cases he

end

end Xv6.Fs
