import Xv6.Lib.Ledger
import Xv6.Fs.WellFormed

namespace Xv6.Fs

open Function Lib

/-- The inode that entry q.2 of directory q.1 names, "." and ".." apart. -/
def slot (V : View) (q : Nat × Nat) : Option Nat :=
  if (V q.1).type = T_DIR ∧ 2 ≤ q.2 then
    ((V q.1).entries[q.2]?).bind fun e => if e.inum = 0 then none else some e.inum
  else none

/-- What link counts are for: an entry counts for its inode and, if that is a directory, its ".."
counts for the directory of the entry. -/
def token (V : View) : (Nat × Nat) × Bool → Option Nat
  | (q, false) => slot V q
  | (q, true) => (slot V q).bind fun i => if (V i).type = T_DIR then some q.1 else none

/-- The link count, without the link that mkfs gives to the root. -/
def owed (V : View) (i : Nat) : Int := (V i).links - if i = ROOTINO then 1 else 0

/-- Link counts cover the entries. For directories they are exact; X tells whether they are for
all inodes. -/
structure Counts (sb : Superblock) (X : Prop) (V : View) : Prop where
  tree : TreeOk V
  free : ∀ i, (V i).type = 0 → V i = Node.free
  inum : ∀ i, (V i).type ≠ 0 → i < sb.ninodes
  nlink : ∀ i, (V i).nlink.toInt = (V i).links
  once : ∀ q q' i, slot V q = some i → slot V q' = some i → (V i).type = T_DIR → q = q'
  covered : Covered (fun i => X ∨ (V i).type = T_DIR) (token V) (owed V)

theorem slot_eq_some {V : View} : slot V (d, k) = some i ↔
    (V d).type = T_DIR ∧ 2 ≤ k ∧ i ≠ 0 ∧ ∃ name, (V d).entries[k]? = some ⟨i, name⟩ := by
  unfold slot
  constructor
  · intro h
    obtain ⟨⟨hd, hk⟩, h⟩ := Option.ite_none_right_eq_some.mp h
    obtain ⟨⟨j, name⟩, he, h⟩ := Option.bind_eq_some_iff.mp h
    obtain ⟨h0, h⟩ := Option.ite_none_left_eq_some.mp h
    cases h
    exact ⟨hd, hk, h0, name, he⟩
  · intro ⟨hd, hk, h0, name, he⟩
    simp [hd, hk, he, h0]

theorem token_true {V : View} : token V (q, true) = some d ↔
    d = q.1 ∧ ∃ i, slot V q = some i ∧ (V i).type = T_DIR := by
  constructor
  · intro h
    obtain ⟨i, hi, h⟩ := Option.bind_eq_some_iff.mp h
    obtain ⟨ht, h⟩ := Option.ite_none_right_eq_some.mp h
    cases h
    exact ⟨rfl, i, hi, ht⟩
  · intro ⟨hd, i, hi, ht⟩
    simp [token, hi, ht, hd]

section
variable {sb : Superblock} {X : Prop} {V V' : View} {H : Nat → Prop} {n : Node}

theorem Counts.links_pos (h : Counts sb X V) (hp : token V p = some i) : 1 ≤ (V i).links := by
  have := h.covered.pos hp
  unfold owed at this
  split at this <;> omega

theorem Counts.slot_type (h : Counts sb X V) (hq : slot V q = some i) : (V i).type ≠ 0 := by
  intro h0
  have hpos := h.links_pos (p := (q, false)) hq
  rw [h.free i h0] at hpos
  exact absurd hpos (by decide)

theorem Counts.owed_free (h : Counts sb X V) (h0 : (V i).nlink = 0) :
    i ≠ ROOTINO ∧ owed V i = 0 ∧ ∀ p, token V p ≠ some i := by
  have hlinks := h.nlink i
  rw [h0, show (0 : BitVec 16).toInt = 0 from rfl] at hlinks
  have hnn := h.covered.nonneg i
  have hroot : i ≠ ROOTINO := by
    intro hr
    rw [owed, if_pos hr] at hnn
    omega
  refine ⟨hroot, ?_, ?_⟩
  · rw [owed, if_neg hroot]
    omega
  · intro p hp
    have := h.links_pos hp
    omega

/-- A directory has at most as many links as there are inodes. -/
theorem Counts.dir_links (h : Counts sb X V) (hd : (V d).type = T_DIR) :
    (V d).links ≤ sb.ninodes + 1 := by
  obtain ⟨n, ⟨F, hF, hc⟩, -, heq⟩ := h.covered d
  -- every token of d stands for another directory, the name of d itself for 0
  let child : (Nat × Nat) × Bool → Nat := fun p => if p.2 then (slot V p.1).getD 0 else 0
  have hchild : ∀ p ∈ F, child p < sb.ninodes := by
    intro ⟨q, b⟩ hp
    have hp := (hF _).mp hp
    cases b with
    | false => exact Nat.zero_lt_of_lt (h.inum d (by rw [hd]; decide))
    | true =>
      obtain ⟨-, i, hi, -⟩ := token_true.mp hp
      have := h.inum i (h.slot_type hi)
      simpa [child, hi] using this
  have hinj : Set.InjOn child F := by
    intro ⟨q, b⟩ hp ⟨q', b'⟩ hp' he
    have hp := (hF _).mp hp
    have hp' := (hF _).mp hp'
    cases b with
    | false =>
      cases b' with
      | false => rw [h.once q q' d hp hp' hd]
      | true =>
        obtain ⟨-, i, hi, ht⟩ := token_true.mp hp'
        have h0 := h.tree.ne_zero (i := i) (by rw [ht]; decide)
        simp [child, hi] at he
        exact absurd he.symm h0
    | true =>
      obtain ⟨-, i, hi, ht⟩ := token_true.mp hp
      cases b' with
      | false =>
        have h0 := h.tree.ne_zero (i := i) (by rw [ht]; decide)
        simp [child, hi] at he
        exact absurd he h0
      | true =>
        obtain ⟨-, i', hi', -⟩ := token_true.mp hp'
        simp [child, hi, hi'] at he
        rw [h.once q q' i hi (he ▸ hi') ht]
  have hcard : F.card ≤ (Finset.range sb.ninodes).card :=
    Finset.card_le_card_of_injOn child (fun p hp => Finset.mem_coe.mpr
      (Finset.mem_range.mpr (hchild p hp))) hinj
  rw [Finset.card_range, hc] at hcard
  have := heq (.inr hd)
  unfold owed at this
  split at this <;> omega

theorem slot_congr (ht : (V' q.1).type = (V q.1).type) (he : (V' q.1).entries = (V q.1).entries) :
    slot V' q = slot V q := by
  unfold slot
  rw [ht, he]

theorem slot_congr_node (h : V' q.1 = V q.1) : slot V' q = slot V q :=
  slot_congr (by rw [h]) (by rw [h])

/-- An inode that goes has no entry, and a directory that goes names only files. -/
theorem Counts.thin (h : Counts sb X V) (ht : Thin H V V')
    (hX : X → ∀ d k, (V d).nlink = 0 → slot V (d, k) = none) : Counts sb X V' := by
  have hkept : ∀ p i, token V p = some i → V' i = V i := by
    intro p i hp
    rcases ht i with he | ⟨-, hn, -⟩
    · exact he
    · exact absurd hp ((h.owed_free hn).2.2 p)
  have hslot : ∀ q i, slot V' q = some i → slot V q = some i := by
    intro q i hq
    have hd := (slot_eq_some.mp hq).1
    rw [← slot_congr_node (ht.eq_of_type (by rw [hd]; decide))]
    exact hq
  have hgone : ∀ i, (V' i).type = 0 → V' i = Node.free := by
    intro i hi
    rcases ht i with he | ⟨he, -⟩
    · rw [he] at hi ⊢
      exact h.free i hi
    · exact he
  have howed : owed V' = owed V := by
    funext i
    rcases ht i with he | ⟨he, hn, -⟩
    · rw [owed, he, owed]
    · obtain ⟨hr, ho, -⟩ := h.owed_free hn
      rw [ho, owed, he, if_neg hr]
      rfl
  refine ⟨h.tree.thin ht, hgone, ?_, ?_, ?_, ?_⟩
  · intro i hi
    rw [ht.eq_of_type hi] at hi
    exact h.inum i hi
  · intro i
    rcases ht i with he | ⟨he, -⟩
    · rw [he]
      exact h.nlink i
    · rw [he]
      rfl
  · intro q q' i hq hq' hd
    rw [ht.eq_of_type (by rw [hd]; decide)] at hd
    exact h.once q q' i (hslot q i hq) (hslot q' i hq') hd
  · rw [howed]
    refine (h.covered.shrink (g := token V') ?_ ?_).mono ?_
    · intro ⟨q, b⟩ i hp
      cases b with
      | false => exact hslot q i hp
      | true =>
        obtain ⟨rfl, j, hj, hd⟩ := token_true.mp hp
        rw [ht.eq_of_type (by rw [hd]; decide)] at hd
        exact token_true.mpr ⟨rfl, j, hslot q j hj, hd⟩
    · intro ⟨q, b⟩ i hex hp
      cases b with
      | false =>
        have hp : slot V q = some i := hp
        rcases ht q.1 with he | ⟨-, hn, -⟩
        · exact (slot_congr_node he).trans hp
        · exfalso
          rcases hex with hx | hd
          · have := hX hx q.1 q.2 hn
            rw [hp] at this
            cases this
          · exact (h.owed_free hn).2.2 (q, true) (token_true.mpr ⟨rfl, i, hp, hd⟩)
      | true =>
        obtain ⟨rfl, j, hj, hd⟩ := token_true.mp hp
        refine token_true.mpr ⟨rfl, j, ?_, ?_⟩
        · exact (slot_congr_node (hkept (q, true) q.1 hp)).trans hj
        · rw [hkept (q, false) j hj]
          exact hd
    · intro i hi
      rcases ht i with he | ⟨-, hn, -⟩
      · rw [he] at hi
        exact .inl hi
      · exact .inr (h.owed_free hn).2.1

theorem slot_enter (de : Dirent) (hd : (V d).type = T_DIR) (hk2 : 2 ≤ k)
    (hk : k ≤ (V d).entries.length) (hty : (V' d).type = T_DIR)
    (hent : (V' d).entries = place (V d).entries k de)
    (hothers : ∀ q : Nat × Nat, q.1 ≠ d → slot V' q = slot V q) :
    slot V' = update (slot V) (d, k) (if de.inum = 0 then none else some de.inum) := by
  funext ⟨j, m⟩
  by_cases hj : j = d
  · subst hj
    by_cases hm : m = k
    · subst hm
      rw [update_self]
      simp [slot, hty, hk2, hent, getElem?_place hk]
    · have hne : (j, m) ≠ (j, k) := by simpa using hm
      rw [update_of_ne hne]
      simp [slot, hty, hd, hent, getElem?_place hk, hm]
  · have hne : (j, m) ≠ (d, k) := by simp [hj]
    rw [update_of_ne hne]
    exact hothers (j, m) hj

theorem token_enter (hs : slot V' = update (slot V) q o)
    (hty : ∀ p i, p ≠ q → slot V p = some i → ((V' i).type = T_DIR ↔ (V i).type = T_DIR)) :
    token V' = update (update (token V) (q, false) o) (q, true)
      (o.bind fun i => if (V' i).type = T_DIR then some q.1 else none) := by
  funext ⟨p, b⟩
  by_cases hp : p = q
  · subst hp
    cases b with
    | false => simp [token, hs]
    | true => simp [token, hs]
  cases b with
  | false => simp [token, hs, hp]
  | true =>
    simp only [token, hs, update_of_ne hp, ne_eq, Prod.mk.injEq, hp, false_and,
      not_false_eq_true, update_of_ne]
    cases hi : slot V p with
    | none => rfl
    | some i => simp [hty p i hp hi]

theorem relink_nlink (h : n.nlink.toInt = n.links) (hlo : -32768 ≤ n.links + k)
    (hhi : n.links + k ≤ 32767) : (n.relink k).nlink.toInt = (n.relink k).links := by
  show (n.nlink + BitVec.ofInt 16 k).toInt = n.links + k
  rw [BitVec.toInt_add, BitVec.toInt_ofInt, Int.add_bmod_bmod, h]
  apply Int.bmod_eq_of_le <;> omega

theorem vacant_slot (hv : Vacant (V d) k name) : slot V (d, k) = none := by
  cases hs : slot V (d, k) with
  | none => rfl
  | some i =>
    obtain ⟨-, -, h0, name', he⟩ := slot_eq_some.mp hs
    exact absurd (hv.slot _ he) h0

/-- A new entry for inode i, which is new too or is not a directory. -/
theorem Counts.enter (h : Counts sb X V) (hnone : slot V q = none)
    (hs : slot V' = update (slot V) q (some i)) (hne : q.1 ≠ i)
    (htypes : ∀ j, j ≠ i → (V' j).type = (V j).type)
    (hi : V i = Node.free ∨ (V i).type ≠ T_DIR ∧ (V' i).type = (V i).type)
    (howed : owed V' = if (V' i).type = T_DIR then
        update (update (owed V) i (owed V i + 1)) q.1 (owed V q.1 + 1)
      else update (owed V) i (owed V i + 1)) :
    Covered (fun i => X ∨ (V' i).type = T_DIR) (token V') (owed V') ∧
    ∀ p p' j, slot V' p = some j → slot V' p' = some j → (V' j).type = T_DIR → p = p' := by
  -- a directory among the other entries is not i
  have hother : ∀ p j, slot V p = some j → j = i → (V i).type ≠ T_DIR ∧
      (V' i).type = (V i).type := by
    intro p j hp hj
    subst hj
    rcases hi with hf | hi
    · exact absurd (by rw [hf]; rfl) (h.slot_type hp)
    · exact hi
  have hbase : Covered (fun i => X ∨ (V' i).type = T_DIR) (token V) (owed V) := by
    apply h.covered.mono
    intro j hj
    rcases eq_or_ne j i with rfl | hji
    · rcases hi with hf | hi
      · right
        exact (h.owed_free (by rw [hf]; rfl)).2.1
      · rw [hi.2] at hj
        exact .inl hj
    · rw [htypes j hji] at hj
      exact .inl hj
  constructor
  · have htok := token_enter hs (by
      intro p j _ hp
      by_cases hj : j = i
      · obtain ⟨-, ht⟩ := hother p j hp hj
        rw [hj, ht]
      · rw [htypes j hj])
    rw [htok, howed, Option.bind_some]
    have hq : token V (q, false) = none := hnone
    have hq' : token V (q, true) = none := by simp [token, hnone]
    have hpoint := hbase.point hq i
    by_cases hd : (V' i).type = T_DIR
    · rw [if_pos hd, if_pos hd]
      have hpoint2 := hpoint.point (p := (q, true)) (by simpa using hq') q.1
      rwa [update_of_ne hne] at hpoint2
    · rw [if_neg hd, if_neg hd]
      have hself : update (token V) (q, false) (some i) (q, true) = none := by
        simpa using hq'
      rw [← hself, update_eq_self]
      exact hpoint
  · intro p p' j hp hp' hd
    rw [hs] at hp hp'
    have hold : ∀ p, p ≠ q → slot V p = some j → (V j).type = T_DIR ∧ j ≠ i := by
      intro p _ hpj
      have hji : j ≠ i := by
        intro hj
        obtain ⟨h1, h2⟩ := hother p j hpj hj
        rw [hj, h2] at hd
        exact h1 hd
      rw [htypes j hji] at hd
      exact ⟨hd, hji⟩
    by_cases hpq : p = q
    · by_cases hpq' : p' = q
      · rw [hpq, hpq']
      · rw [hpq, update_self] at hp
        rw [update_of_ne hpq'] at hp'
        exact absurd (Option.some.inj hp).symm (hold p' hpq' hp').2
    · rw [update_of_ne hpq] at hp
      by_cases hpq' : p' = q
      · rw [hpq', update_self] at hp'
        exact absurd (Option.some.inj hp').symm (hold p hpq hp).2
      · rw [update_of_ne hpq'] at hp'
        exact h.once p p' j hp hp' (hold p hpq hp).1

theorem TreeOk.slot_create (h : TreeOk V) (hv : Vacant (V d) k name) (hfree : V i = Node.free)
    (hi : i ≠ 0) (type : Nat) (n : Int) :
    slot (update (update V i (Node.new type i d)) d
      (((V d).enter k ⟨i, name⟩).relink n)) = update (slot V) (d, k) (some i) := by
  have hk2 := (h.dirs d hv.dir).two_le_vacant (h.ne_zero (by rw [hv.dir]; decide)) hv
  rw [slot_enter (V := V) ⟨i, name⟩ hv.dir hk2 hv.le (by simp [hv.dir]) (by simp),
    if_neg hi]
  intro q hq
  rcases eq_or_ne q.1 i with hqi | hqi
  · -- the new directory has "." and ".." only
    cases hs : slot V q with
    | some j =>
      have := (slot_eq_some.mp hs).1
      rw [hqi, hfree] at this
      cases this
    | none =>
      unfold slot
      rw [update_of_ne hq, hqi, update_self]
      by_cases hc : (Node.new type i d).type = T_DIR ∧ 2 ≤ q.2
      · have hlen : (Node.new type i d).entries.length ≤ q.2 := by
          have hty : type = T_DIR := hc.1
          simpa [Node.new, hty] using hc.2
        rw [if_pos hc, List.getElem?_eq_none hlen]
        rfl
      · rw [if_neg hc]
  · exact slot_congr_node (by rw [update_of_ne hq, update_of_ne hqi])

theorem TreeOk.slot_link (h : TreeOk V) (hv : Vacant (V d) k name) (hi : i ≠ 0) (n : Int) :
    slot (update (update V i ((V i).relink n)) d ((V d).enter k ⟨i, name⟩)) =
      update (slot V) (d, k) (some i) := by
  have hk2 := (h.dirs d hv.dir).two_le_vacant (h.ne_zero (by rw [hv.dir]; decide)) hv
  rw [slot_enter (V := V) ⟨i, name⟩ hv.dir hk2 hv.le (by simp [hv.dir]) (by simp),
    if_neg hi]
  intro q hq
  rcases eq_or_ne q.1 i with hqi | hqi
  · apply slot_congr
    · rw [update_of_ne hq, hqi, update_self, relink_type]
    · rw [update_of_ne hq, hqi, update_self, relink_entries]
  · exact slot_congr_node (by rw [update_of_ne hq, update_of_ne hqi])

theorem TreeOk.slot_unlink (h : TreeOk V) (hd : (V d).type = T_DIR)
    (hk : (V d).entries[k]? = some ⟨i, name⟩) (hdot : name ≠ dot ∧ name ≠ dotdot) (hne : i ≠ d)
    (n m : Int) :
    slot (update (update V d (((V d).enter k ⟨0, []⟩).relink n)) i
      ((V i).relink m)) = update (slot V) (d, k) none := by
  have hk2 := (h.dirs d hd).two_le_named hk hdot
  have hlt : k < (V d).entries.length := (List.getElem?_eq_some_iff.mp hk).1
  rw [slot_enter (V := V) ⟨0, []⟩ hd hk2 (Nat.le_of_lt hlt)
    (by simp [hne.symm, hd]) (by simp [hne.symm]), if_pos rfl]
  intro q hq
  rcases eq_or_ne q.1 i with hqi | hqi
  · apply slot_congr
    · rw [hqi, update_self, relink_type]
    · rw [hqi, update_self, relink_entries]
  · exact slot_congr_node (by rw [update_of_ne hqi, update_of_ne hq])

/-- Link counts and numbers after a change of two inodes. -/
theorem Counts.update_two {a b : Node} (h : Counts sb X V)
    (hcov : Covered (fun j => X ∨ (update (update V i a) d b j).type = T_DIR)
      (token (update (update V i a) d b))
      (owed (update (update V i a) d b)))
    (honce : ∀ q q' j, slot (update (update V i a) d b) q = some j →
      slot (update (update V i a) d b) q' = some j →
      (update (update V i a) d b j).type = T_DIR → q = q')
    (htree : TreeOk (update (update V i a) d b))
    (ha : a.type ≠ 0 ∧ a.nlink.toInt = a.links ∧ i < sb.ninodes)
    (hb : b.type ≠ 0 ∧ b.nlink.toInt = b.links ∧ d < sb.ninodes) :
    Counts sb X (update (update V i a) d b) := by
  have hcases : ∀ P : Nat → Node → Prop, P i a → P d b → (∀ j, P j (V j)) →
      ∀ j, P j (update (update V i a) d b j) := by
    intro P hi hd hV j
    rcases eq_or_ne j d with rfl | hjd
    · rwa [update_self]
    · rw [update_of_ne hjd]
      rcases eq_or_ne j i with rfl | hji
      · rwa [update_self]
      · rw [update_of_ne hji]
        exact hV j
  refine ⟨htree, ?_, ?_, ?_, honce, hcov⟩
  · exact hcases (fun _ n => n.type = 0 → n = Node.free) (fun h0 => absurd h0 ha.1)
      (fun h0 => absurd h0 hb.1) h.free
  · exact hcases (fun j n => n.type ≠ 0 → j < sb.ninodes) (fun _ => ha.2.2) (fun _ => hb.2.2) h.inum
  · exact hcases (fun _ n => n.nlink.toInt = n.links) ha.2.1 hb.2.1 h.nlink

theorem Counts.create (h : Counts sb X V) (hN : sb.ninodes ≤ 32765)
    (hm : Move sb V (.create d name i type) V') : Counts sb X V' := by
  have htree := h.tree.move hm
  cases hm with
  | create hv hn hne hfree hi ht =>
    rename_i k
    have hdi : d ≠ i := by
      rintro rfl
      have := hv.dir
      rw [hfree] at this
      cases this
    have hs := h.tree.slot_create hv hfree (Nat.ne_of_gt hi.1) type (backLinks type)
    have hroot := (h.owed_free (i := i) (by rw [hfree]; rfl)).1
    have hlinks := h.dir_links hv.dir
    have hpos : 0 ≤ (V d).links := by
      have := h.covered.nonneg d
      unfold owed at this
      split at this <;> omega
    have hback : 0 ≤ backLinks type ∧ backLinks type ≤ 1 := by
      unfold backLinks
      split <;> decide
    obtain ⟨hcov, honce⟩ := h.enter (vacant_slot hv) hs hdi
      (by
        intro j hj
        rcases eq_or_ne j d with rfl | hjd
        · simp
        · rw [update_of_ne hjd, update_of_ne hj])
      (.inl hfree)
      (by
        funext j
        have hti : (update (update V i (Node.new type i d)) d
            (((V d).enter k ⟨i, name⟩).relink (backLinks type)) i).type = type := by
          rw [update_of_ne hdi.symm, update_self]
          rfl
        rw [hti]
        rcases eq_or_ne j d with rfl | hjd
        · by_cases hty : type = T_DIR
          · simp only [if_pos hty, update_self, owed, Node.relink, Node.enter, backLinks]
            omega
          · simp [hty, owed, Node.relink, Node.enter, backLinks, hdi]
        · rcases eq_or_ne j i with rfl | hji
          · by_cases hty : type = T_DIR
            · simp [hty, owed, hjd, hroot, hfree, Node.new, Node.free]
            · simp [hty, owed, hjd, hroot, hfree, Node.new, Node.free]
          · by_cases hty : type = T_DIR
            · simp [hty, owed, hjd, hji]
            · simp [hty, owed, hjd, hji])
    refine h.update_two hcov honce htree ⟨ht, rfl, hi.2⟩ ⟨?_, ?_, ?_⟩
    · rw [relink_type, enter_type, hv.dir]
      decide
    · apply relink_nlink (h.nlink d)
      · show -32768 ≤ (V d).links + backLinks type
        omega
      · show (V d).links + backLinks type ≤ 32767
        omega
    · exact h.inum d (by rw [hv.dir]; decide)

theorem Counts.link (h : Counts sb X V) (hm : Move sb V (.link d name i) V')
    (hspare : (V i).links < 32767) : Counts sb X V' := by
  have htree := h.tree.move hm
  cases hm with
  | link hv hn hne hi h0 ht =>
    rename_i k
    have hdi : d ≠ i := by
      rintro rfl
      exact ht hv.dir
    have hs := h.tree.slot_link hv hi 1
    have hti : (update (update V i ((V i).relink 1)) d
        ((V d).enter k ⟨i, name⟩) i).type = (V i).type := by
      rw [update_of_ne hdi.symm, update_self, relink_type]
    have hpos : 0 ≤ (V i).links := by
      have := h.covered.nonneg i
      unfold owed at this
      split at this <;> omega
    obtain ⟨hcov, honce⟩ := h.enter (vacant_slot hv) hs hdi
      (by
        intro j hj
        rcases eq_or_ne j d with rfl | hjd
        · simp
        · rw [update_of_ne hjd, update_of_ne hj])
      (.inr ⟨ht, hti⟩)
      (by
        rw [hti, if_neg ht]
        funext j
        rcases eq_or_ne j d with rfl | hjd
        · simp [owed, Node.enter, hdi]
        · rcases eq_or_ne j i with rfl | hji
          · simp only [owed, update_self, update_of_ne hjd, Node.relink]
            omega
          · simp [owed, hjd, hji])
    refine h.update_two hcov honce htree ⟨h0, ?_, h.inum i h0⟩ ⟨?_, h.nlink d, ?_⟩
    · exact relink_nlink (h.nlink i) (by omega) (by omega)
    · rw [enter_type, hv.dir]
      decide
    · exact h.inum d (by rw [hv.dir]; decide)

theorem Counts.unlink (h : Counts sb X V) (hm : Move sb V (.unlink d name i) V') :
    Counts sb X V' := by
  have htree := h.tree.move hm
  cases hm with
  | unlink hd hk hl hi hne h0 hdot hn hempty =>
    rename_i k
    have hk2 := (h.tree.dirs d hd).two_le_named hk hdot
    have hq : slot V (d, k) = some i := slot_eq_some.mpr ⟨hd, hk2, hi, name, hk⟩
    let V' := update (update V d
      (((V d).enter k ⟨0, []⟩).relink (-backLinks (V i).type))) i ((V i).relink (-1))
    have hV'd : V' d = ((V d).enter k ⟨0, []⟩).relink (-backLinks (V i).type) := by
      simp [V', hne.symm]
    have hV'i : V' i = (V i).relink (-1) := by simp [V']
    have hV'j : ∀ j, j ≠ d → j ≠ i → V' j = V j := by
      intro j hjd hji
      simp [V', hjd, hji]
    have htypes : ∀ j, (V' j).type = (V j).type := by
      intro j
      rcases eq_or_ne j d with rfl | hjd
      · rw [hV'd, relink_type, enter_type]
      · rcases eq_or_ne j i with rfl | hji
        · rw [hV'i, relink_type]
        · rw [hV'j j hjd hji]
    have hs : slot V' = update (slot V) (d, k) none :=
      h.tree.slot_unlink hd hk hdot hne _ _
    have htok := token_enter hs (fun p j _ _ => by rw [htypes])
    rw [Option.bind_none] at htok
    have hold := h.covered.unpoint (p := ((d, k), false)) hq
    have hcov : Covered (fun j => X ∨ (V' j).type = T_DIR) (token V') (owed V') := by
      simp only [htypes]
      rw [htok]
      by_cases hty : (V i).type = T_DIR
      · have hback : token V ((d, k), true) = some d := token_true.mpr ⟨rfl, i, hq, hty⟩
        have hboth := hold.unpoint (p := ((d, k), true)) (b := d) (by simpa using hback)
        have howed : owed V' = update (update (owed V) i (owed V i - 1)) d
            (update (owed V) i (owed V i - 1) d - 1) := by
          funext j
          rcases eq_or_ne j d with rfl | hjd
          · rw [update_self, update_of_ne hne.symm, owed, owed, hV'd]
            simp only [Node.relink, Node.enter, backLinks, hty, if_true]
            omega
          · rw [update_of_ne hjd]
            rcases eq_or_ne j i with rfl | hji
            · rw [update_self, owed, owed, hV'i]
              simp only [Node.relink]
              omega
            · rw [update_of_ne hji, owed, owed, hV'j j hjd hji]
        rw [howed]
        exact hboth
      · have hback : update (token V) ((d, k), false) none ((d, k), true) = none := by
          simp [token, hq, hty]
        have howed : owed V' = update (owed V) i (owed V i - 1) := by
          funext j
          rcases eq_or_ne j i with rfl | hji
          · rw [update_self, owed, owed, hV'i]
            simp only [Node.relink]
            omega
          · rw [update_of_ne hji]
            rcases eq_or_ne j d with rfl | hjd
            · rw [owed, owed, hV'd]
              simp [Node.relink, Node.enter, backLinks, hty]
            · rw [owed, owed, hV'j j hjd hji]
        rw [howed]
        nth_rewrite 2 [← hback]
        rw [update_eq_self]
        exact hold
    have honce : ∀ p p' j, slot V' p = some j → slot V' p' = some j → (V' j).type = T_DIR →
        p = p' := by
      intro p p' j hp hp' hty
      have hback : ∀ p, slot V' p = some j → slot V p = some j := by
        intro p hp
        rw [hs] at hp
        rcases eq_or_ne p (d, k) with rfl | hpq
        · rw [update_self] at hp
          cases hp
        · rwa [update_of_ne hpq] at hp
      rw [htypes] at hty
      exact h.once p p' j (hback p hp) (hback p' hp') hty
    have hlinks_i := h.links_pos (p := ((d, k), false)) hq
    have hlinks_d : backLinks (V i).type ≤ (V d).links ∧ 0 ≤ backLinks (V i).type := by
      unfold backLinks
      split
      · rename_i hty
        exact ⟨h.links_pos (token_true.mpr ⟨rfl, i, hq, hty⟩), by decide⟩
      · have := h.covered.nonneg d
        unfold owed at this
        split at this <;> omega
    have hhi : ∀ j, (V j).links ≤ 32767 := by
      intro j
      rw [← h.nlink j]
      have := (V j).nlink.toInt_lt
      omega
    have hhi_d := hhi d
    have hhi_i := hhi i
    refine h.update_two hcov honce htree ⟨?_, ?_, ?_⟩ ⟨?_, ?_, h.inum i h0⟩
    · show (V d).type ≠ 0
      rw [hd]
      decide
    · apply relink_nlink (n := (V d).enter k ⟨0, []⟩) (h.nlink d)
      · show -32768 ≤ (V d).links + -backLinks (V i).type
        omega
      · show (V d).links + -backLinks (V i).type ≤ 32767
        omega
    · exact h.inum d (by rw [hd]; decide)
    · rw [relink_type]
      exact h0
    · exact relink_nlink (h.nlink i) (by omega) (by omega)

/-- A name other than "." and ".." leads to an inode with a positive count. -/
theorem Counts.lookup_pos (h : Counts sb X V) (hd : (V d).type = T_DIR)
    (hl : (V d).lookup name = some i) (h1 : name ≠ dot) (h2 : name ≠ dotdot) :
    1 ≤ (V i).nlink.toInt := by
  obtain ⟨hi, k, hk⟩ := lookup_eq_some hl
  have hk2 := (h.tree.dirs d hd).two_le_named hk ⟨h1, h2⟩
  rw [h.nlink]
  exact h.links_pos (p := ((d, k), false)) (slot_eq_some.mpr ⟨hd, hk2, hi, name, hk⟩)

/-- The count that goes up can still go up. -/
def Spare (V : View) : Change → Prop
  | .link _ _ i => (V i).nlink.toInt < 32767
  | _ => True

theorem Counts.move (h : Counts sb X V) (hN : sb.ninodes ≤ 32765) (hm : Move sb V a V')
    (ha : Spare V a) : Counts sb X V' := by
  cases a with
  | create d name i type => exact h.create hN hm
  | link d name i => exact h.link hm (h.nlink i ▸ ha)
  | unlink d name i => exact h.unlink hm

theorem Spare.thin (ht : Thin H V V1) (hm : Move sb V1 a V') (ha : Spare V a) : Spare V1 a := by
  cases hm with
  | create => trivial
  | unlink => trivial
  | link hv hn hne hi h0 hty =>
    unfold Spare at ha ⊢
    dsimp only at ha ⊢
    rw [ht.eq_of_type h0]
    exact ha

theorem Counts.effect (h : Counts sb False V) (hN : sb.ninodes ≤ 32765)
    (he : Effect sb H P V V') (hP : ∀ a, P a → Spare V a) : Counts sb False V' := by
  rcases he with ht | ⟨V1, V2, a, h1, ha, hm, h2⟩
  · exact h.thin ht False.elim
  · have hc := (h.thin h1 False.elim).move hN hm ((hP a ha).thin h1 hm)
    exact hc.thin h2 False.elim

end

end Xv6.Fs
