import Xv6.Fs.Names

namespace Xv6.Fs

open Function Lib

theorem skipelem_ok {rest : List Byte} (h0 : (0 : Byte) ∉ path)
    (h : skipelem path = some (name, rest)) :
    NameOk name ∧ name ≠ [] ∧ (0 : Byte) ∉ rest := by
  unfold skipelem at h
  dsimp only at h
  split at h
  · cases h
  rename_i hne
  simp only [Option.some.injEq, Prod.mk.injEq] at h
  obtain ⟨rfl, rfl⟩ := h
  have hdrop : (0 : Byte) ∉ path.dropWhile (· == slash) :=
    fun hm => h0 ((List.dropWhile_sublist _).mem hm)
  refine ⟨⟨List.length_take_le _ _, ?_⟩, ?_, ?_⟩
  · intro hm
    exact hdrop ((List.takeWhile_sublist _).mem (List.mem_of_mem_take hm))
  · -- the first byte is not a slash
    cases hp : path.dropWhile (· == slash) with
    | nil => exact absurd (by rw [hp]; rfl) hne
    | cons a l =>
      have ha : a ≠ slash := by
        have := List.head?_dropWhile_not (fun x : Byte => x == slash) path
        rw [hp] at this
        simpa using this
      rw [List.takeWhile_cons_of_pos (by simpa using ha)]
      simp [DIRSIZ]
  · intro hm
    exact hdrop ((List.dropWhile_sublist _).mem ((List.dropWhile_sublist _).mem hm))

theorem elements_ok (h0 : (0 : Byte) ∉ path) (fuel : Nat) (hm : name ∈ elements fuel path) :
    NameOk name ∧ name ≠ [] := by
  induction fuel generalizing path with
  | zero => simp [elements] at hm
  | succ fuel ih =>
    unfold elements at hm
    cases hs : skipelem path with
    | none => simp [hs] at hm
    | some r =>
      obtain ⟨first, rest⟩ := r
      obtain ⟨hok, hne, hrest⟩ := skipelem_ok h0 hs
      simp only [hs, List.mem_cons] at hm
      rcases hm with rfl | hm
      · exact ⟨hok, hne⟩
      · exact ih hrest hm

def Node.relink (n : Node) (k : Int) : Node :=
  { n with nlink := n.nlink + BitVec.ofInt 16 k, links := n.links + k }

@[simp]
theorem relink_type (n : Node) (k : Int) : (n.relink k).type = n.type := rfl

@[simp]
theorem relink_entries (n : Node) (k : Int) : (n.relink k).entries = n.entries := rfl

@[simp]
theorem enter_type (n : Node) (k : Nat) (de : Dirent) : (n.enter k de).type = n.type := rfl

@[simp]
theorem enter_entries (n : Node) (k : Nat) (de : Dirent) :
    (n.enter k de).entries = place n.entries k de := rfl

/-- What create puts into a new inode i of directory d. -/
def Node.new (type i d : Nat) : Node :=
  { type := type
    nlink := 1
    links := 1
    entries := if type = T_DIR then [⟨i, dot⟩, ⟨d, dotdot⟩] else [] }

/-- The links a directory gets from the ".." of a new inode. -/
def backLinks (type : Nat) : Int := if type = T_DIR then 1 else 0

/-- Entries that come and go: name in directory d, for inode i. -/
inductive Change where
  | create (d : Nat) (name : List Byte) (i type : Nat)
  | link (d : Nat) (name : List Byte) (i : Nat)
  | unlink (d : Nat) (name : List Byte) (i : Nat)

inductive Move (sb : Superblock) (V : View) : Change → View → Prop
  | create {d k i type : Nat} {name : List Byte} (hv : Vacant (V d) k name) (hn : NameOk name)
      (hne : name ≠ []) (hfree : V i = Node.free) (hi : 1 ≤ i ∧ i < sb.ninodes) (ht : type ≠ 0) :
      Move sb V (.create d name i type) (update (update V i (Node.new type i d)) d
        (((V d).enter k ⟨i, name⟩).relink (backLinks type)))
  | link {d k i : Nat} {name : List Byte} (hv : Vacant (V d) k name) (hn : NameOk name)
      (hne : name ≠ []) (hi : i ≠ 0) (h0 : (V i).type ≠ 0) (ht : (V i).type ≠ T_DIR) :
      Move sb V (.link d name i) (update (update V i ((V i).relink 1)) d
        ((V d).enter k ⟨i, name⟩))
  | unlink {d k i : Nat} {name : List Byte} (hd : (V d).type = T_DIR)
      (hk : (V d).entries[k]? = some ⟨i, name⟩) (hl : (V d).lookup name = some i) (hi : i ≠ 0)
      (hne : i ≠ d) (h0 : (V i).type ≠ 0) (hdot : name ≠ dot ∧ name ≠ dotdot)
      (hn : 1 ≤ (V i).nlink.toInt)
      (hempty : (V i).type = T_DIR → ∀ m e, 2 ≤ m → (V i).entries[m]? = some e → e.inum = 0) :
      Move sb V (.unlink d name i) (update (update V d
        (((V d).enter k ⟨0, []⟩).relink (-backLinks (V i).type))) i ((V i).relink (-1)))

/-- One change that P allows; before and after it inodes without links and references may go. -/
def Moved (sb : Superblock) (H : Nat → Prop) (P : Change → Prop) (V V' : View) : Prop :=
  ∃ V1 V2 a, Thin H V V1 ∧ P a ∧ Move sb V1 a V2 ∧ Thin H V2 V'

/-- What a call does to the tree. -/
def Effect (sb : Superblock) (H : Nat → Prop) (P : Change → Prop) (V V' : View) : Prop :=
  Thin H V V' ∨ Moved sb H P V V'

section
variable {sb : Superblock} {e : Ext} {E : Panic → Prop} {R H : Nat → Prop} {V V' : View}

theorem Effect.thin (h : Effect sb H P V V') (ht : Thin H V' V'') : Effect sb H P V V'' := by
  rcases h with h | ⟨V1, V2, a, h1, ha, hm, h2⟩
  · exact .inl (h.trans ht)
  · exact .inr ⟨V1, V2, a, h1, ha, hm, h2.trans ht⟩

theorem Effect.mono (h : Effect sb H P V V') (hH : ∀ i, H' i → H i) (hP : ∀ a, P a → P' a) :
    Effect sb H' P' V V' := by
  rcases h with h | ⟨V1, V2, a, h1, ha, hm, h2⟩
  · exact .inl (h.mono hH)
  · exact .inr ⟨V1, V2, a, h1.mono hH, hP a ha, hm, h2.mono hH⟩

/-- A change keeps the type of every inode in use. -/
theorem Move.type_eq (h : Move sb V a V') (h0 : (V j).type ≠ 0) : (V' j).type = (V j).type := by
  cases h with
  | create hv hn hne hfree hi ht =>
    rename_i d k i type name
    rcases eq_or_ne j d with rfl | hjd
    · simp
    · have hji : j ≠ i := by
        rintro rfl
        rw [hfree] at h0
        exact h0 rfl
      simp [hjd, hji]
  | link hv hn hne hi h0 ht =>
    rename_i d k i name
    rcases eq_or_ne j d with rfl | hjd
    · simp
    · rcases eq_or_ne j i with rfl | hji
      · simp [hjd]
      · simp [hjd, hji]
  | unlink hd hk hl hi hne h0 hdot hn hempty =>
    rename_i d k i name
    rcases eq_or_ne j i with rfl | hji
    · simp
    · rcases eq_or_ne j d with rfl | hjd
      · simp [hji]
      · simp [hji, hjd]

/-- A call keeps the type of every inode that stays referenced. -/
theorem Effect.type_eq (h : Effect sb H P V V') (hj : H j) (h0 : (V j).type ≠ 0) :
    (V' j).type = (V j).type := by
  rcases h with h | ⟨V1, V2, a, h1, -, hm, h2⟩
  · rw [h.held hj]
  · rw [← h1.held hj] at h0 ⊢
    rw [h2.held hj, hm.type_eq h0]

theorem Allows.thin (A : Allows E e H V R) (h : Thin H V V') : Allows E e H V' R := by
  refine ⟨A.room, ?_, ?_⟩
  · intro i name j hR ht hl
    have he := h.eq_of_type (by rw [ht]; decide)
    rw [he] at ht hl
    exact A.closed i name j hR ht hl
  · intro i hR hi
    rcases h i with he | ⟨-, hn, hh⟩
    · rw [he] at hi
      exact A.noType i hR hi
    · exact A.noType i hR (.inr ⟨hn, hh⟩)

/-- A changed link count does not matter for an inode that stays referenced. -/
theorem Allows.relink (A : Allows E e H V R) (hH : ∀ j, H j → H' j) (hi : H' i) (k : Int) :
    Allows E e H' (update V i ((V i).relink k)) R := by
  have htype : ∀ j, ((update V i ((V i).relink k)) j).type = (V j).type := by
    intro j
    rcases eq_or_ne j i with rfl | hj
    · rw [update_self]
      rfl
    · rw [update_of_ne hj]
  refine ⟨A.room, ?_, ?_⟩
  · intro j name l hR ht hl
    rw [htype] at ht
    refine A.closed j name l hR ht ?_
    rcases eq_or_ne j i with rfl | hj
    · rw [update_self] at hl
      exact hl
    · rwa [update_of_ne hj] at hl
  · intro j hR hj
    apply A.noType j hR
    rw [htype] at hj
    rcases hj with h0 | ⟨hn, hh⟩
    · exact .inl h0
    · have hji : j ≠ i := by
        rintro rfl
        exact hh hi
      rw [update_of_ne hji] at hn
      exact .inr ⟨hn, fun hh' => hh (hH j hh')⟩

theorem walk_reach (A : Allows E e H V R) (hR : R i) (hw : walk V i elems = some j) : R j := by
  induction elems generalizing i with
  | nil =>
    cases hw
    exact hR
  | cons name rest ih =>
    unfold walk at hw
    split at hw
    · rename_i ht
      split at hw
      · cases hw
      · rename_i l hl
        exact ih (A.closed i name l hR ht hl) hw
    · cases hw

end

end Xv6.Fs
