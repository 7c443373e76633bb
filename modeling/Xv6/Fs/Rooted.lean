import Xv6.Fs.Tree

namespace Xv6.Fs

open Function Lib

/-- The root, or named by an entry. -/
def Linked (V : View) (i : Nat) : Prop := i = ROOTINO ∨ ∃ q, slot V q = some i

/-- A directory that is not linked is empty, and ".." of the others leads to where they are
named. -/
structure Rooted (V : View) : Prop where
  linked : ∀ d k i, slot V (d, k) = some i → Linked V d
  up : ∀ d k i, slot V (d, k) = some i → (V i).type = T_DIR →
    (V i).entries[1]? = some ⟨d, dotdot⟩
  dir : (V ROOTINO).type = T_DIR
  root : (V ROOTINO).entries[1]? = some ⟨ROOTINO, dotdot⟩
  unnamed : ∀ q, slot V q ≠ some ROOTINO

section
variable {sb : Superblock} {V V' : View} {H : Nat → Prop} {P : Change → Prop}

theorem Counts.linked_pos (h : Counts sb X V) (hi : Linked V i) : 1 ≤ (V i).links := by
  rcases hi with rfl | ⟨q, hq⟩
  · have := h.covered.nonneg ROOTINO
    rw [owed, if_pos rfl] at this
    omega
  · exact h.links_pos (p := (q, false)) hq

theorem Counts.linked_nlink (h : Counts sb X V) (hi : Linked V i) : (V i).nlink ≠ 0 := by
  intro h0
  have hpos := h.linked_pos hi
  rw [← h.nlink i, h0] at hpos
  exact absurd hpos (by decide)

theorem Counts.linked_type (h : Counts sb X V) (hi : Linked V i) : (V i).type ≠ 0 := by
  intro h0
  have hpos := h.linked_pos hi
  rw [h.free i h0] at hpos
  exact absurd hpos (by decide)

/-- Names of linked directories lead to linked inodes. -/
theorem Rooted.closed (h : Rooted V) (ht : TreeOk V) (hi : Linked V i)
    (hd : (V i).type = T_DIR) (hl : (V i).lookup name = some j) : Linked V j := by
  obtain ⟨hj, k, hk⟩ := lookup_eq_some hl
  match k with
  | 0 =>
    rw [(ht.dirs i hd).self] at hk
    cases hk
    exact hi
  | 1 =>
    rcases hi with rfl | ⟨⟨d, m⟩, hq⟩
    · rw [h.root] at hk
      cases hk
      exact .inl rfl
    · rw [h.up d m i hq hd] at hk
      cases hk
      exact h.linked j m i hq
  | k + 2 => exact .inr ⟨(i, k + 2), slot_eq_some.mpr ⟨hd, by omega, hj, name, hk⟩⟩

theorem Rooted.walk (h : Rooted V) (ht : TreeOk V) (hi : Linked V i)
    (hw : Fs.walk V i elems = some j) : Linked V j := by
  induction elems generalizing i with
  | nil =>
    cases hw
    exact hi
  | cons name rest ih =>
    unfold Fs.walk at hw
    split at hw
    · rename_i hd
      split at hw
      · cases hw
      · rename_i l hl
        exact ih (h.closed ht hi hd hl) hw
    · cases hw

/-- Linked inodes and their entries stay when others are freed. -/
theorem Rooted.slot_thin (h : Rooted V) (hc : Counts sb True V) (ht : Thin H V V') :
    slot V' = slot V := by
  funext q
  rcases ht q.1 with he | ⟨he, hn, -⟩
  · exact slot_congr_node he
  have hnone : slot V q = none := by
    cases hs : slot V q with
    | none => rfl
    | some i => exact absurd hn (hc.linked_nlink (h.linked q.1 q.2 i hs))
  rw [hnone]
  unfold slot
  rw [he]
  rfl

theorem linked_congr (h : slot V' = slot V) : Linked V' i ↔ Linked V i := by
  unfold Linked
  rw [h]

theorem Rooted.thin_eq (hc : Counts sb True V) (ht : Thin H V V') (hi : Linked V i) :
    V' i = V i := by
  rcases ht i with he | ⟨-, hn, -⟩
  · exact he
  · exact absurd hn (hc.linked_nlink hi)

theorem Rooted.thin (h : Rooted V) (hc : Counts sb True V) (ht : Thin H V V') :
    Rooted V' ∧ Counts sb True V' := by
  have hs := h.slot_thin hc ht
  have hroot := Rooted.thin_eq hc ht (.inl rfl)
  constructor
  · refine ⟨?_, ?_, ?_, ?_, ?_⟩
    · intro d k i hq
      rw [hs] at hq
      exact (linked_congr hs).mpr (h.linked d k i hq)
    · intro d k i hq hd
      rw [hs] at hq
      rw [Rooted.thin_eq hc ht (.inr ⟨_, hq⟩)] at hd ⊢
      exact h.up d k i hq hd
    · rw [hroot]
      exact h.dir
    · rw [hroot]
      exact h.root
    · intro q
      rw [hs]
      exact h.unnamed q
  · apply hc.thin ht
    intro _ d k hn
    cases hq : slot V (d, k) with
    | none => rfl
    | some i => exact absurd hn (hc.linked_nlink (h.linked d k i hq))

theorem linked_enter (hs : slot V' = update (slot V) q (some i))
    (hnone : slot V q = none) (hj : Linked V j) : Linked V' j := by
  rcases hj with rfl | ⟨p, hp⟩
  · exact .inl rfl
  · have hpq : p ≠ q := by
      rintro rfl
      rw [hnone] at hp
      cases hp
    refine .inr ⟨p, ?_⟩
    rw [hs, update_of_ne hpq]
    exact hp

/-- A new entry in a linked directory, for an inode whose ".." is right. -/
theorem Rooted.enter (h : Rooted V) (hs : slot V' = update (slot V) (d, k) (some i))
    (hnone : slot V (d, k) = none) (hd : Linked V d) (hroot : i ≠ ROOTINO)
    (hnew : (V' i).type = T_DIR → (V' i).entries[1]? = some ⟨d, dotdot⟩ ∧ ∀ q, slot V q ≠ some i)
    (hold : ∀ j, j ≠ i → (V' j).type = (V j).type ∧ (V' j).entries[1]? = (V j).entries[1]?) :
    Rooted V' := by
  refine ⟨?_, ?_, ?_, ?_, ?_⟩
  · intro d' k' j hq
    rw [hs] at hq
    rcases eq_or_ne (d', k') (d, k) with he | hne
    · cases he
      exact linked_enter hs hnone hd
    · rw [update_of_ne hne] at hq
      exact linked_enter hs hnone (h.linked d' k' j hq)
  · intro d' k' j hq hty
    rw [hs] at hq
    rcases eq_or_ne (d', k') (d, k) with he | hne
    · cases he
      rw [update_self] at hq
      cases hq
      exact (hnew hty).1
    · rw [update_of_ne hne] at hq
      rcases eq_or_ne j i with rfl | hji
      · exact absurd hq ((hnew hty).2 (d', k'))
      · obtain ⟨h1, h2⟩ := hold j hji
        rw [h1] at hty
        rw [h2]
        exact h.up d' k' j hq hty
  · rw [(hold ROOTINO hroot.symm).1]
    exact h.dir
  · rw [(hold ROOTINO hroot.symm).2]
    exact h.root
  · intro q hq
    rw [hs] at hq
    rcases eq_or_ne q (d, k) with rfl | hne
    · rw [update_self] at hq
      cases hq
      exact hroot rfl
    · rw [update_of_ne hne] at hq
      exact h.unnamed q hq

theorem linked_clear (hs : slot V' = update (slot V) q none) (hq : slot V q = some i)
    (hj : Linked V j) (hji : j ≠ i) : Linked V' j := by
  rcases hj with rfl | ⟨p, hp⟩
  · exact .inl rfl
  · have hpq : p ≠ q := by
      rintro rfl
      rw [hq] at hp
      exact hji (Option.some.inj hp).symm
    refine .inr ⟨p, ?_⟩
    rw [hs, update_of_ne hpq]
    exact hp

/-- The entry of an inode that has no entries itself goes. -/
theorem Rooted.clear (h : Rooted V) (hs : slot V' = update (slot V) (d, k) none)
    (hq : slot V (d, k) = some i) (hempty : ∀ m, slot V (i, m) = none)
    (hold : ∀ j, (V' j).type = (V j).type ∧ (V' j).entries[1]? = (V j).entries[1]?) :
    Rooted V' := by
  have hback : ∀ p j, slot V' p = some j → slot V p = some j := by
    intro p j hp
    rw [hs] at hp
    rcases eq_or_ne p (d, k) with rfl | hne
    · rw [update_self] at hp
      cases hp
    · rwa [update_of_ne hne] at hp
  refine ⟨?_, ?_, ?_, ?_, ?_⟩
  · intro d' k' j hp
    have hp := hback _ _ hp
    refine linked_clear hs hq (h.linked d' k' j hp) ?_
    rintro rfl
    rw [hempty] at hp
    cases hp
  · intro d' k' j hp hty
    rw [(hold j).1] at hty
    rw [(hold j).2]
    exact h.up d' k' j (hback _ _ hp) hty
  · rw [(hold ROOTINO).1]
    exact h.dir
  · rw [(hold ROOTINO).2]
    exact h.root
  · intro q hq
    exact h.unnamed q (hback _ _ hq)

theorem place_up {l : List Dirent} (hk : k ≤ l.length) (hk2 : 2 ≤ k) (e : Dirent) :
    (place l k e)[1]? = l[1]? := by
  rw [getElem?_place hk, if_neg (by omega)]

/-- What a change does to the inodes that stay linked. -/
def Change.Removes (i : Nat) : Change → Prop
  | .unlink _ _ j => i = j
  | _ => False

/-- New entries are made in linked directories. -/
def Change.Within (V : View) : Change → Prop
  | .create d _ _ _ => Linked V d
  | .link d _ _ => Linked V d
  | .unlink .. => True

theorem Rooted.move (h : Rooted V) (hc : Counts sb True V) (hm : Move sb V a V')
    (ha : a.Within V) : Rooted V' ∧ (∀ j, Linked V j → ¬ a.Removes j → Linked V' j) ∧
      ∀ j, (V j).type = 0 → (V' j).type ≠ 0 → Linked V' j := by
  cases hm with
  | create hv hn hne hfree hi ht =>
    rename_i d k i type name
    have hi0 : i ≠ 0 := Nat.ne_of_gt hi.1
    have hs := hc.tree.slot_create hv hfree hi0 type (backLinks type)
    have hk2 := (hc.tree.dirs d hv.dir).two_le_vacant (hc.tree.ne_zero (by rw [hv.dir]; decide)) hv
    have hdi : d ≠ i := by
      rintro rfl
      have := hv.dir
      rw [hfree] at this
      cases this
    refine ⟨h.enter hs (vacant_slot hv) ha ?_ ?_ ?_, ?_, ?_⟩
    · rintro rfl
      have := h.dir
      rw [hfree] at this
      cases this
    · intro hty
      rw [update_of_ne hdi.symm, update_self] at hty ⊢
      have hty : type = T_DIR := hty
      refine ⟨by simp [Node.new, hty], ?_⟩
      intro q hq
      exact hc.slot_type hq (by rw [hfree]; rfl)
    · intro j hji
      rcases eq_or_ne j d with rfl | hjd
      · rw [update_self]
        exact ⟨rfl, place_up hv.le hk2 _⟩
      · rw [update_of_ne hjd, update_of_ne hji]
        exact ⟨rfl, rfl⟩
    · exact fun j hj _ => linked_enter hs (vacant_slot hv) hj
    · intro j h0 h1
      rcases eq_or_ne j i with rfl | hji
      · exact .inr ⟨(d, k), by rw [hs, update_self]⟩
      · rcases eq_or_ne j d with rfl | hjd
        · rw [hv.dir] at h0
          cases h0
        · rw [update_of_ne hjd, update_of_ne hji] at h1
          exact absurd h0 h1
  | link hv hn hne hi h0 ht =>
    rename_i d k i name
    have hs := hc.tree.slot_link hv hi 1
    have hk2 := (hc.tree.dirs d hv.dir).two_le_vacant (hc.tree.ne_zero (by rw [hv.dir]; decide)) hv
    have hdi : d ≠ i := by
      rintro rfl
      exact ht hv.dir
    have htypes : ∀ j, (update (update V i ((V i).relink 1)) d
        ((V d).enter k ⟨i, name⟩) j).type = (V j).type := by
      intro j
      rcases eq_or_ne j d with rfl | hjd
      · simp
      · rcases eq_or_ne j i with rfl | hji
        · simp [hjd]
        · simp [hjd, hji]
    refine ⟨h.enter hs (vacant_slot hv) ha ?_ ?_ ?_, ?_, ?_⟩
    · rintro rfl
      exact ht h.dir
    · intro hty
      rw [update_of_ne hdi.symm, update_self] at hty
      exact absurd hty ht
    · intro j hji
      rcases eq_or_ne j d with rfl | hjd
      · rw [update_self]
        exact ⟨rfl, place_up hv.le hk2 _⟩
      · rw [update_of_ne hjd, update_of_ne hji]
        exact ⟨rfl, rfl⟩
    · exact fun j hj _ => linked_enter hs (vacant_slot hv) hj
    · intro j hj hj'
      rw [htypes] at hj'
      exact absurd hj hj'
  | unlink hd hk hl hi hne h0 hdot hn hempty =>
    rename_i d k i name
    have hs := hc.tree.slot_unlink hd hk hdot hne (-backLinks (V i).type) (-1)
    have hk2 := (hc.tree.dirs d hd).two_le_named hk hdot
    have hlt : k < (V d).entries.length := (List.getElem?_eq_some_iff.mp hk).1
    have hq : slot V (d, k) = some i := slot_eq_some.mpr ⟨hd, hk2, hi, name, hk⟩
    have hsame : ∀ j, (update (update V d
        (((V d).enter k ⟨0, []⟩).relink (-backLinks (V i).type))) i ((V i).relink (-1)) j).type =
          (V j).type ∧ (update (update V d
        (((V d).enter k ⟨0, []⟩).relink (-backLinks (V i).type))) i
          ((V i).relink (-1)) j).entries[1]? = (V j).entries[1]? := by
      intro j
      rcases eq_or_ne j i with rfl | hji
      · rw [update_self, relink_type, relink_entries]
        exact ⟨rfl, rfl⟩
      · rw [update_of_ne hji]
        rcases eq_or_ne j d with rfl | hjd
        · rw [update_self, relink_type, relink_entries]
          exact ⟨rfl, place_up (Nat.le_of_lt hlt) hk2 _⟩
        · rw [update_of_ne hjd]
          exact ⟨rfl, rfl⟩
    refine ⟨h.clear hs hq ?_ hsame, ?_, ?_⟩
    · intro m
      cases hm : slot V (i, m) with
      | none => rfl
      | some j =>
        obtain ⟨hty, hm2, hj, name', he⟩ := slot_eq_some.mp hm
        exact absurd (hempty hty m _ hm2 he) hj
    · exact fun j hj hr => linked_clear hs hq hj hr
    · intro j hj hj'
      rw [(hsame j).1] at hj'
      exact absurd hj hj'

/-- The tree stays as it should be, what is not removed stays linked, and new inodes are. -/
theorem Rooted.effect (h : Rooted V) (hc : Counts sb True V) (hN : sb.ninodes ≤ 32765)
    (he : Effect sb H P V V') (hP : ∀ a, P a → Spare V a ∧ a.Within V) :
    Rooted V' ∧ Counts sb True V' ∧
      (∀ j, Linked V j → (∀ a, P a → ¬ a.Removes j) → Linked V' j) ∧
      ∀ j, (V j).type = 0 → (V' j).type ≠ 0 → Linked V' j := by
  rcases he with ht | ⟨V1, V2, a, h1, ha, hm, h2⟩
  · obtain ⟨hr, hc'⟩ := h.thin hc ht
    refine ⟨hr, hc', fun j hj _ => (linked_congr (h.slot_thin hc ht)).mpr hj, ?_⟩
    intro j h0 hj
    rw [ht.eq_of_type hj] at hj
    exact absurd h0 hj
  obtain ⟨hr1, hc1⟩ := h.thin hc h1
  have hl1 : ∀ j, Linked V1 j ↔ Linked V j := fun j => linked_congr (h.slot_thin hc h1)
  have hw1 : a.Within V1 := by
    have hw := (hP a ha).2
    cases a with
    | create d name i type => exact (hl1 d).mpr hw
    | link d name i => exact (hl1 d).mpr hw
    | unlink d name i => trivial
  have hc2 := hc1.move hN hm ((hP a ha).1.thin h1 hm)
  obtain ⟨hr2, hkeep, hnew⟩ := hr1.move hc1 hm hw1
  obtain ⟨hr3, hc3⟩ := hr2.thin hc2 h2
  have hl3 : ∀ j, Linked V' j ↔ Linked V2 j := fun j => linked_congr (hr2.slot_thin hc2 h2)
  refine ⟨hr3, hc3, ?_, ?_⟩
  · intro j hj hrem
    exact (hl3 j).mpr (hkeep j ((hl1 j).mpr hj) (hrem a ha))
  · intro j h0 hj
    rw [h2.eq_of_type hj] at hj
    refine (hl3 j).mpr (hnew j ?_ hj)
    rcases h1 j with he | ⟨he, -⟩
    · rw [he]
      exact h0
    · rw [he]
      rfl

end

end Xv6.Fs
