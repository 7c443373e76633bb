import Xv6.Disk.Bio
import Xv6.Lib.Census

namespace Xv6.Bio

open Function List Lib

theorem Links.insert_circle {c : Links} (h : Circle c.next c.prev head l) (hb : b ∉ head :: l) :
    Circle (c.insert b).next (c.insert b).prev head (b :: l) := by
  have hne : head ≠ b := fun he => hb (by simp [he])
  have hp := h.push hb
  simp only [Links.insert, update_of_ne hne]
  exact hp

theorem Links.remove_circle {c : Links} (h : Circle c.next c.prev head l) (hb : b ∈ l) :
    Circle (c.remove b).next (c.remove b).prev head (l.erase b) := by
  have hself : b ≠ c.next b := by
    obtain ⟨l₁, l₂, rfl, -⟩ := eq_append_cons_of_mem hb
    intro he
    have hm := (seg_append.mp h.seg).2.next_mem
    have hd := h.nodup
    rw [← he] at hm
    simp only [nodup_cons, mem_append, mem_cons, not_or, nodup_append] at hd
    rcases mem_cons.mp hm with he | hm
    · exact hd.1.2.1 he.symm
    · exact hd.2.2.1.1 hm
  have hu := h.unlink hb
  simp only [Links.remove, update_of_ne hself]
  exact hu

theorem binit_circle (n : Nat) (hn : n ≤ NBUF) :
    Circle ((List.range n).foldl Links.insert ⟨fun _ => head, fun _ => head⟩).next
      ((List.range n).foldl Links.insert ⟨fun _ => head, fun _ => head⟩).prev head
      (List.range n).reverse := by
  induction n with
  | zero => exact circle_nil head
  | succ n ih =>
    simp only [range_succ, foldl_append, foldl_cons, foldl_nil,
      reverse_append, reverse_cons, reverse_nil, nil_append, cons_append]
    apply Links.insert_circle (ih (Nat.le_of_succ_le hn))
    have hhead : n ≠ head := fun he => by
      rw [he] at hn
      exact absurd hn (Nat.not_succ_le_self head)
    simp [hhead]

/-- The list of all buffers, the most recently released first. -/
structure Recency (s : State) (l : List Nat) : Prop where
  circle : Circle s.links.next s.links.prev head l
  perm : l.Perm (List.range NBUF)
  sorted : l.Pairwise (fun i j => s.released j ≤ s.released i)
  past : ∀ i, s.released i < s.clock

theorem Recency.mem (h : Recency s l) : i ∈ l ↔ i < NBUF := by
  rw [h.perm.mem_iff, mem_range]

theorem Recency.length (h : Recency s l) : l.length < NBUF + 1 := by
  rw [h.perm.length_eq, length_range]
  exact Nat.lt_succ_self NBUF

/-- What is unused the longest: no buffer without users was released before it. -/
def Oldest (s : State) (i : Nat) : Prop :=
  (s.bufs i).refcnt = 0 ∧ ∀ j, j < NBUF → (s.bufs j).refcnt = 0 → s.released i ≤ s.released j

theorem Recency.oldest (h : Recency s l)
    (hf : l.reverse.find? (fun i => (s.bufs i).refcnt == 0) = some i) : Oldest s i := by
  have hsort := pairwise_reverse.mpr h.sorted
  obtain ⟨hi, as, bs, hl, hbefore⟩ := List.find?_eq_some_iff_append.mp hf
  refine ⟨by simpa using hi, fun j hj hzero => ?_⟩
  have hm : j ∈ l.reverse := mem_reverse.mpr (h.mem.mpr hj)
  rw [hl, mem_append] at hm
  rcases hm with hm | hm
  · have hn := hbefore j hm
    simp [hzero] at hn
  · rcases mem_cons.mp hm with rfl | hm
    · exact Nat.le_refl _
    · rw [hl, pairwise_append, pairwise_cons] at hsort
      exact hsort.2.1.1 j hm

/-- What bget does: it finds the block, or recycles the oldest unused buffer, or panics. -/
theorem bget_cases (hl : Recency s l) (h : Handle) (dev b : Nat) :
    (∃ i, i < NBUF ∧ (s.bufs i).dev = dev ∧ (s.bufs i).blockno = b ∧ bget s h dev b = { s with
      bufs := update s.bufs i { s.bufs i with refcnt := (s.bufs i).refcnt + 1 }
      hold := update s.hold h (.queued i b) }) ∨
    (∀ j, j < NBUF → ¬ ((s.bufs j).dev = dev ∧ (s.bufs j).blockno = b)) ∧
      ((∃ i, i < NBUF ∧ Oldest s i ∧ bget s h dev b = { s with
        bufs := update s.bufs i
          { s.bufs i with dev := dev, blockno := b, valid := false, refcnt := 1 }
        hold := update s.hold h (.queued i b) }) ∨
      bget s h dev b = { s with panicked := true }) := by
  unfold bget
  rw [hl.circle.walk_next _ hl.length, hl.circle.walk_prev _ hl.length]
  cases h₁ : l.find? (fun i => (s.bufs i).dev == dev && (s.bufs i).blockno == b) with
  | some i =>
    have hi := List.find?_some h₁
    simp only [Bool.and_eq_true, beq_iff_eq] at hi
    exact .inl ⟨i, hl.mem.mp (mem_of_find?_eq_some h₁), hi.1, hi.2, rfl⟩
  | none =>
    refine .inr ⟨fun j hj hjb => ?_, ?_⟩
    · have hn := List.find?_eq_none.mp h₁ j (hl.mem.mpr hj)
      simp [hjb] at hn
    · cases h₂ : l.reverse.find? (fun i => (s.bufs i).refcnt == 0) with
      | none => exact .inr rfl
      | some i =>
        refine .inl ⟨i, ?_, hl.oldest h₂, rfl⟩
        exact hl.mem.mp (mem_reverse.mp (mem_of_find?_eq_some h₂))

/-- The use is of buffer i, for block b. -/
def Hold.On (x : Hold) (i b : Nat) : Prop :=
  x = .queued i b ∨ x = .held i b ∨ x = .unlocked i b

def Hold.buf : Hold → Option Nat
  | .none => Option.none
  | .queued i _ => some i
  | .held i _ => some i
  | .unlocked i _ => some i

theorem Hold.on_buf {x : Hold} : x.buf = some i ↔ ∃ b, x.On i b := by
  cases x <;> simp [Hold.buf, Hold.On, eq_comm]

/-- The reference that log_write took for a block whose commit has not installed it. -/
def pin (s : State) (P : List Nat) (i : Nat) : Nat :=
  if (s.bufs i).dev ≠ 0 ∧ (s.bufs i).blockno ∈ P then 1 else 0

/-- What holds of the cache in every state. P are the blocks that are recorded in the log and
not yet installed. -/
structure Core (s : State) (P : List Nat) : Prop where
  order : ∃ l, Recency s l
  unique : ∀ i j, i < NBUF → j < NBUF → (s.bufs i).dev ≠ 0 →
    (s.bufs j).dev = (s.bufs i).dev → (s.bufs j).blockno = (s.bufs i).blockno → j = i
  dev : ∀ i, (s.bufs i).dev = 0 ∨ (s.bufs i).dev = ROOTDEV
  named : ∀ h i b, (s.hold h).On i b →
    i < NBUF ∧ (s.bufs i).dev = ROOTDEV ∧ (s.bufs i).blockno = b
  refs : ∀ i, i < NBUF → ∃ n, Census (fun x => x.buf = some i) s.hold n ∧
    (s.bufs i).refcnt = n + pin s P i
  pinned : ∀ b ∈ P, ∃ i, i < NBUF ∧ (s.bufs i).dev = ROOTDEV ∧ (s.bufs i).blockno = b ∧
    (s.bufs i).valid = true
  locks : ∀ i h, (s.bufs i).lock = some h ↔ ∃ b, s.hold h = .held i b
  valid : ∀ h i b, s.hold h = .held i b → (s.bufs i).valid = true
  data : ∀ i, i < NBUF → (s.bufs i).valid = true →
    (∀ n ∈ s.writers, ∀ b, s.hold (.user n) ≠ .held i b) →
    (s.bufs i).data = s.stored (s.bufs i).blockno
  disk : ∀ b, b ∉ P → s.disk b = s.stored b
  writers : ∀ n ∈ s.writers, ∃ i b, s.hold (.user n) = .held i b
  unused : ∀ i, (s.bufs i).dev = 0 → (s.bufs i).valid = false ∧ s.released i = 0
  used : ∀ i, i < NBUF → (s.bufs i).dev ≠ 0 → (s.bufs i).refcnt = 0 → 0 < s.released i

theorem rootdev_ne : ROOTDEV ≠ 0 := by decide

theorem core_boot (disk : Nat → Log.Block) : Core (boot disk) [] := by
  have hl : Recency (boot disk) (List.range NBUF).reverse := by
    refine ⟨binit_circle NBUF (Nat.le_refl NBUF), reverse_perm _, ?_, ?_⟩
    · exact pairwise_of_forall (fun _ _ => Nat.le_refl 0)
    · exact fun i => Nat.zero_lt_one
  refine ⟨⟨_, hl⟩, ?_, ?_, ?_, fun i _ => ⟨0, ?_, ?_⟩, ?_, ?_, ?_, ?_, ?_, ?_, ?_, ?_⟩
  · intro i j _ _ hd
    exact absurd rfl hd
  · exact fun i => .inl rfl
  · intro h i b hon
    rcases hon with hon | hon | hon <;> cases hon
  · exact census_none (fun h he => by cases he)
  · simp [pin, boot]
  · simp
  · simp [boot]
  · simp [boot]
  · simp [boot]
  · exact fun b _ => rfl
  · simp [boot]
  · exact fun i _ => ⟨rfl, rfl⟩
  · intro i _ hd
    exact absurd rfl hd

theorem Core.root (h : Core s P) (hd : (s.bufs i).dev ≠ 0) : (s.bufs i).dev = ROOTDEV := by
  rcases h.dev i with he | he
  · exact absurd he hd
  · exact he

theorem Core.named_held (h : Core s P) (hh : s.hold u = .held i b) :
    i < NBUF ∧ (s.bufs i).dev = ROOTDEV ∧ (s.bufs i).blockno = b :=
  h.named u i b (.inr (.inl hh))

theorem Core.held_unique (h : Core s P) (hu : s.hold u = .held i b) (hv : s.hold v = .held i c) :
    u = v := by
  have h₁ := (h.locks i u).mpr ⟨b, hu⟩
  rw [(h.locks i v).mpr ⟨c, hv⟩, Option.some.injEq] at h₁
  exact h₁.symm

/-- The buffer that a block has is the one its holder holds. -/
theorem Core.buf_unique (h : Core s P) (hu : (s.hold u).On i b) (hj : j < NBUF)
    (hd : (s.bufs j).dev ≠ 0) (hb : (s.bufs j).blockno = b) : j = i := by
  obtain ⟨hi, hdi, hbi⟩ := h.named u i b hu
  apply h.unique i j hi hj
  · rw [hdi]
    exact rootdev_ne
  · rw [h.root hd, hdi]
  · rw [hb, hbi]

/-- A buffer without references is nobody's and not pinned. -/
theorem Core.idle (h : Core s P) (hi : i < NBUF) (hz : (s.bufs i).refcnt = 0) :
    (∀ u b, ¬ (s.hold u).On i b) ∧ pin s P i = 0 ∧ Census (fun x => x.buf = some i) s.hold 0 := by
  obtain ⟨n, hc, hn⟩ := h.refs i hi
  have hn0 : n = 0 := by omega
  subst hn0
  refine ⟨fun u b hu => ?_, by omega, hc⟩
  exact hc.zero u (Hold.on_buf.mpr ⟨b, hu⟩)

/-- A use that is about to wait for a buffer does not change who holds it. -/
theorem update_held_iff {f : Handle → Hold} (hu : ∀ i b, f u ≠ .held i b)
    (hx : ∀ i b, x ≠ .held i b) : update f u x v = .held i b ↔ f v = .held i b := by
  rcases eq_or_ne v u with rfl | hv
  · simp [hu, hx]
  · rw [update_of_ne hv]

theorem Recency.congr (h : Recency s l) (hl : t.links = s.links) (hr : t.released = s.released)
    (hc : t.clock = s.clock) : Recency t l := by
  refine ⟨?_, h.perm, ?_, ?_⟩
  · rw [hl]
    exact h.circle
  · rw [hr]
    exact h.sorted
  · rw [hr, hc]
    exact h.past

theorem Core.reorder (h : Core s P) (hl : t.links = s.links) (hr : t.released = s.released)
    (hc : t.clock = s.clock) : ∃ l, Recency t l := by
  obtain ⟨l, ho⟩ := h.order
  exact ⟨l, ho.congr hl hr hc⟩

theorem update_refcnt (bufs : Nat → Buf) (i n j : Nat) :
    update bufs i { bufs i with refcnt := n } j =
      { bufs j with refcnt := if j = i then n else (bufs j).refcnt } := by
  rcases eq_or_ne j i with rfl | hj
  · simp
  · simp [hj]

/-- A step that changes the reference count of a buffer, and neither who holds a buffer nor any
bytes. -/
theorem Core.recount (h : Core s P) (hi : i < NBUF) (hd : (s.bufs i).dev = ROOTDEV)
    (hb : t.bufs = update s.bufs i { s.bufs i with refcnt := n })
    (hheld : ∀ v j c, t.hold v = .held j c ↔ s.hold v = .held j c) (hw : t.writers = s.writers)
    (hs : t.stored = s.stored) (order : ∃ l, Recency t l)
    (hr : ∀ j, j ≠ i → t.released j = s.released j)
    (pinned : ∀ b ∈ P', ∃ i, i < NBUF ∧ (s.bufs i).dev = ROOTDEV ∧ (s.bufs i).blockno = b ∧
      (s.bufs i).valid = true)
    (named : ∀ v j c, (t.hold v).On j c → (s.hold v).On j c ∨ j = i ∧ (s.bufs i).blockno = c)
    (refs : ∃ k, Census (fun x => x.buf = some i) t.hold k ∧ n = k + pin s P' i)
    (others : ∀ j, j < NBUF → j ≠ i → pin s P' j = pin s P j ∧
      ∀ k, Census (fun x => x.buf = some j) s.hold k → Census (fun x => x.buf = some j) t.hold k)
    (disk : ∀ b, b ∉ P' → t.disk b = s.stored b) (used : n = 0 → 0 < t.released i) :
    Core t P' := by
  have hb : ∀ j, t.bufs j = { s.bufs j with refcnt := if j = i then n else (s.bufs j).refcnt } :=
    fun j => by rw [hb, update_refcnt]
  have hdev : ∀ j, (t.bufs j).dev = (s.bufs j).dev := fun j => by rw [hb]
  have hblk : ∀ j, (t.bufs j).blockno = (s.bufs j).blockno := fun j => by rw [hb]
  have hval : ∀ j, (t.bufs j).valid = (s.bufs j).valid := fun j => by rw [hb]
  have hlock : ∀ j, (t.bufs j).lock = (s.bufs j).lock := fun j => by rw [hb]
  have hdata : ∀ j, (t.bufs j).data = (s.bufs j).data := fun j => by rw [hb]
  refine ⟨order, ?_, ?_, ?_, ?_, ?_, ?_, ?_, ?_, ?_, ?_, ?_, ?_⟩
  · simpa only [hdev, hblk] using h.unique
  · simpa only [hdev] using h.dev
  · intro v j c hv
    rw [hdev, hblk]
    rcases named v j c hv with hs | ⟨rfl, hc⟩
    · exact h.named v j c hs
    · exact ⟨hi, hd, hc⟩
  · intro j hj
    simp only [hb, pin]
    rcases eq_or_ne j i with rfl | hji
    · simpa [pin] using refs
    · obtain ⟨k, hc, hk⟩ := h.refs j hj
      obtain ⟨hpin, hcens⟩ := others j hj hji
      exact ⟨k, hcens k hc, by rw [if_neg hji, hk, ← hpin, pin]⟩
  · simpa only [hdev, hblk, hval] using pinned
  · simpa only [hlock, hheld] using h.locks
  · simpa only [hheld, hval] using h.valid
  · intro j hj hv hfree
    rw [hdata, hs, hblk]
    refine h.data j hj (by rw [← hval]; exact hv) (fun n hn b => ?_)
    rw [ne_eq, ← hheld]
    exact hfree n (hw ▸ hn) b
  · rw [hs]
    exact disk
  · rw [hw]
    simpa only [hheld] using h.writers
  · intro j hj
    rw [hdev] at hj
    have hji : j ≠ i := by
      rintro rfl
      exact rootdev_ne (hd.symm.trans hj)
    exact ⟨(hval j).trans (h.unused j hj).1, (hr j hji).trans (h.unused j hj).2⟩
  · intro j hj hdj hz
    simp only [hb] at hdj hz
    rcases eq_or_ne j i with rfl | hji
    · exact used (by simpa using hz)
    · rw [hr j hji]
      exact h.used j hj hdj (by simpa [hji] using hz)

theorem Core.restore (h : Core s P)
    (hb : ∀ j, t.bufs j = { s.bufs j with data := (t.bufs j).data })
    (hh : t.hold = s.hold) (hl : t.links = s.links) (hr : t.released = s.released)
    (hc : t.clock = s.clock)
    (data : ∀ i, i < NBUF → (s.bufs i).valid = true →
      (∀ n ∈ t.writers, ∀ b, s.hold (.user n) ≠ .held i b) →
      (t.bufs i).data = t.stored (s.bufs i).blockno)
    (disk : ∀ b, b ∉ P → t.disk b = t.stored b)
    (writers : ∀ n ∈ t.writers, ∃ i b, s.hold (.user n) = .held i b) : Core t P := by
  have hdev : ∀ j, (t.bufs j).dev = (s.bufs j).dev := fun j => by rw [hb]
  have hblk : ∀ j, (t.bufs j).blockno = (s.bufs j).blockno := fun j => by rw [hb]
  have hval : ∀ j, (t.bufs j).valid = (s.bufs j).valid := fun j => by rw [hb]
  have hlock : ∀ j, (t.bufs j).lock = (s.bufs j).lock := fun j => by rw [hb]
  have href : ∀ j, (t.bufs j).refcnt = (s.bufs j).refcnt := fun j => by rw [hb]
  refine ⟨?_, ?_, ?_, ?_, ?_, ?_, ?_, ?_, ?_, disk, ?_, ?_, ?_⟩
  · exact h.reorder hl hr hc
  · simpa only [hdev, hblk] using h.unique
  · simpa only [hdev] using h.dev
  · simpa only [hh, hdev, hblk] using h.named
  · simpa only [hh, pin, hdev, hblk, href] using h.refs
  · simpa only [hdev, hblk, hval] using h.pinned
  · simpa only [hlock, hh] using h.locks
  · simpa only [hh, hval] using h.valid
  · simpa only [hh, hval, hblk] using data
  · rw [hh]
    exact writers
  · simpa only [hdev, hval, hr] using h.unused
  · simpa only [hdev, href, hr] using h.used

theorem update_data (bufs : Nat → Buf) (i j : Nat) (d : Log.Block) :
    update bufs i { bufs i with data := d } j =
      { bufs j with data := if j = i then d else (bufs j).data } := by
  rcases eq_or_ne j i with rfl | hj
  · simp
  · simp [hj]

theorem Census.other {f : Handle → Hold} (hc : Census (fun x => x.buf = some j) f n)
    (hu : (f u).buf ≠ some j) (hx : x.buf ≠ some j) :
    Census (fun x => x.buf = some j) (update f u x) n :=
  hc.keep (iff_of_false hx hu)

theorem hit_core (h : Core s P) (hu : s.hold u = .none) (hi : i < NBUF)
    (hd : (s.bufs i).dev = ROOTDEV) (hb : (s.bufs i).blockno = b) :
    Core { s with
      bufs := update s.bufs i { s.bufs i with refcnt := (s.bufs i).refcnt + 1 }
      hold := update s.hold u (.queued i b) } P := by
  obtain ⟨k, hc, hk⟩ := h.refs i hi
  refine h.recount hi hd rfl (fun v j c => update_held_iff (by simp [hu]) (by simp)) rfl rfl
    (h.reorder rfl rfl rfl) (fun _ _ => rfl) h.pinned (fun v j c hv => ?_)
    ⟨k + 1, hc.enter (by simp [hu, Hold.buf]) rfl, by omega⟩ (fun j _ hji => ⟨rfl, fun k hc => ?_⟩)
    h.disk nofun
  · rcases eq_or_ne v u with rfl | hvu
    · simp only [update_self] at hv
      rcases hv with hv | hv | hv <;> cases hv
      exact .inr ⟨rfl, hb⟩
    · exact .inl (by simpa [update_of_ne hvu] using hv)
  · exact Census.other hc (by simp [hu, Hold.buf]) (by simp [Hold.buf, Ne.symm hji])

theorem miss_core (h : Core s P) (hu : s.hold u = .none) (hi : i < NBUF)
    (hz : (s.bufs i).refcnt = 0)
    (hno : ∀ j, j < NBUF → ¬ ((s.bufs j).dev = ROOTDEV ∧ (s.bufs j).blockno = b)) :
    Core { s with
      bufs := update s.bufs i
        { s.bufs i with dev := ROOTDEV, blockno := b, valid := false, refcnt := 1 }
      hold := update s.hold u (.queued i b) } P := by
  obtain ⟨hfree, hpin, hcens⟩ := h.idle hi hz
  have hbP : b ∉ P := by
    intro hb
    obtain ⟨j, hj, hd, hjb, -⟩ := h.pinned b hb
    exact hno j hj ⟨hd, hjb⟩
  have hheld : ∀ v j c, update s.hold u (.queued i b) v = .held j c ↔
      s.hold v = .held j c := fun v j c => update_held_iff (by simp [hu]) (by simp)
  have hne : ∀ v j c, (s.hold v).On j c → j ≠ i := fun v j c hv hji => hfree v c (hji ▸ hv)
  refine ⟨?_, ?_, ?_, ?_, ?_, ?_, ?_, ?_, ?_, h.disk, ?_, ?_, ?_⟩
  · exact h.reorder rfl rfl rfl
  · intro j k hj hk hd hdev hblk
    dsimp only at hd hdev hblk
    rcases eq_or_ne j i with rfl | hji
    · rcases eq_or_ne k j with rfl | hkj
      · rfl
      · simp only [update_self, update_of_ne hkj] at hdev hblk
        exact absurd ⟨hdev, hblk⟩ (hno k hk)
    · rcases eq_or_ne k i with rfl | hki
      · simp only [update_self, update_of_ne hji] at hdev hblk
        exact absurd ⟨hdev.symm, hblk.symm⟩ (hno j hj)
      · simp only [update_of_ne hji, update_of_ne hki] at hd hdev hblk
        exact h.unique j k hj hk hd hdev hblk
  · intro j
    rcases eq_or_ne j i with rfl | hji
    · exact .inr (by simp)
    · simpa [update_of_ne hji] using h.dev j
  · intro v j c hv
    rcases eq_or_ne v u with rfl | hvu
    · simp only [update_self] at hv
      rcases hv with hv | hv | hv <;> cases hv
      simp [hi]
    · simp only [update_of_ne hvu] at hv
      simpa [update_of_ne (hne v j c hv)] using h.named v j c hv
  · intro j hj
    rcases eq_or_ne j i with rfl | hji
    · refine ⟨1, hcens.enter (by simp [hu, Hold.buf]) rfl, ?_⟩
      simp [pin, hbP]
    · obtain ⟨n, hc, hn⟩ := h.refs j hj
      refine ⟨n, Census.other hc (by simp [hu, Hold.buf]) (by simp [Hold.buf, Ne.symm hji]), ?_⟩
      simpa [pin, update_of_ne hji] using hn
  · intro c hc
    obtain ⟨j, hj, hd, hb, hv⟩ := h.pinned c hc
    have hji : j ≠ i := by
      rintro rfl
      have hroot := rootdev_ne
      simp [pin, hd, hb, hc, hroot] at hpin
    exact ⟨j, hj, by simpa [update_of_ne hji] using ⟨hd, hb, hv⟩⟩
  · intro j v
    simp only [hheld]
    rcases eq_or_ne j i with rfl | hji
    · simpa using h.locks j v
    · simpa [update_of_ne hji] using h.locks j v
  · intro v j c hv
    rw [hheld] at hv
    have hji := hne v j c (.inr (.inl hv))
    simpa [update_of_ne hji] using h.valid v j c hv
  · intro j hj hv hw
    simp only [ne_eq, hheld] at hw
    have hji : j ≠ i := by
      rintro rfl
      simp at hv
    simp only [update_of_ne hji] at hv ⊢
    exact h.data j hj hv hw
  · simpa only [hheld] using h.writers
  · intro j hd
    have hji : j ≠ i := by
      rintro rfl
      exact rootdev_ne (by simpa using hd)
    simp only [update_of_ne hji] at hd ⊢
    exact h.unused j hd
  · intro j hj hd hz'
    have hji : j ≠ i := by
      rintro rfl
      simp at hz'
    simp only [update_of_ne hji] at hd hz'
    exact h.used j hj hd hz'

theorem Core.relock (h : Core s P)
    (hb : ∀ j, t.bufs j = { s.bufs j with
      lock := (t.bufs j).lock, data := (t.bufs j).data, valid := (t.bufs j).valid })
    (hon : ∀ v j c, (t.hold v).On j c ↔ (s.hold v).On j c)
    (hl : t.links = s.links) (hr : t.released = s.released) (hc : t.clock = s.clock)
    (hs : t.stored = s.stored) (hd : t.disk = s.disk)
    (hval : ∀ j, (s.bufs j).valid = true → (t.bufs j).valid = true)
    (hval' : ∀ j, (s.bufs j).dev = 0 → (t.bufs j).valid = false)
    (locks : ∀ j v, (t.bufs j).lock = some v ↔ ∃ b, t.hold v = .held j b)
    (valid : ∀ v j b, t.hold v = .held j b → (t.bufs j).valid = true)
    (data : ∀ j, j < NBUF → (t.bufs j).valid = true →
      (∀ n ∈ t.writers, ∀ b, t.hold (.user n) ≠ .held j b) →
      (t.bufs j).data = s.stored (s.bufs j).blockno)
    (writers : ∀ n ∈ t.writers, ∃ i b, t.hold (.user n) = .held i b) : Core t P := by
  have hdev : ∀ j, (t.bufs j).dev = (s.bufs j).dev := fun j => by rw [hb]
  have hblk : ∀ j, (t.bufs j).blockno = (s.bufs j).blockno := fun j => by rw [hb]
  have href : ∀ j, (t.bufs j).refcnt = (s.bufs j).refcnt := fun j => by rw [hb]
  refine ⟨?_, ?_, ?_, ?_, ?_, ?_, locks, valid, ?_, ?_, writers, ?_, ?_⟩
  · exact h.reorder hl hr hc
  · simpa only [hdev, hblk] using h.unique
  · simpa only [hdev] using h.dev
  · simpa only [hon, hdev, hblk] using h.named
  · intro j hj
    obtain ⟨n, hcen, hn⟩ := h.refs j hj
    refine ⟨n, hcen.congr (fun v => by simp only [Hold.on_buf, hon]), ?_⟩
    simpa only [pin, hdev, hblk, href] using hn
  · intro b hb
    obtain ⟨j, hj, hdj, hbj, hv⟩ := h.pinned b hb
    exact ⟨j, hj, (hdev j).trans hdj, (hblk j).trans hbj, hval j hv⟩
  · rw [hs]
    simpa only [hblk] using data
  · rw [hs, hd]
    exact h.disk
  · intro j hj
    rw [hdev] at hj
    exact ⟨hval' j hj, by rw [hr]; exact (h.unused j hj).2⟩
  · simpa only [hdev, href, hr] using h.used

theorem update_on_iff {f : Handle → Hold} (hu : (f u).On i b) (hx : x.On i b) (v : Handle)
    (j c : Nat) : (update f u x v).On j c ↔ (f v).On j c := by
  rcases eq_or_ne v u with rfl | hv
  · rw [update_self]
    have he : ∀ y : Hold, y.On i b → (y.On j c ↔ j = i ∧ c = b) := by
      rintro y (rfl | rfl | rfl) <;> simp [Hold.On, eq_comm]
    rw [he x hx, he _ hu]
  · rw [update_of_ne hv]

theorem take_eq (hs : take s u = some t) :
    ∃ i b, s.hold u = .queued i b ∧ (s.bufs i).lock = none ∧ t = { s with
      bufs := update s.bufs i { s.bufs i with
        lock := some u
        data := if (s.bufs i).valid then (s.bufs i).data else s.disk (s.bufs i).blockno
        valid := true }
      hold := update s.hold u (.held i b) } := by
  unfold take at hs
  split at hs
  · rename_i i b hu
    obtain ⟨hlock, he⟩ := Option.ite_none_right_eq_some.mp hs
    exact ⟨i, b, hu, hlock, (Option.some.inj he).symm⟩
  · cases hs

theorem take_core (h : Core s P) (hs : take s u = some t) : Core t P := by
  obtain ⟨i, b, hu, hlock, rfl⟩ := take_eq hs
  obtain ⟨hi, hd, hb⟩ := h.named u i b (.inl hu)
  have hnone : ∀ v c, s.hold v ≠ .held i c := by
    intro v c hv
    have hl := (h.locks i v).mpr ⟨c, hv⟩
    rw [hlock] at hl
    cases hl
  have hother : ∀ v j c, j ≠ i → (update s.hold u (.held i b) v = .held j c ↔
      s.hold v = .held j c) := by
    intro v j c hji
    rcases eq_or_ne v u with rfl | hv
    · simp [hu, Ne.symm hji]
    · rw [update_of_ne hv]
  have hwriter : ∀ n, n ∈ s.writers → Handle.user n ≠ u := by
    rintro n hn rfl
    obtain ⟨j, c, hj⟩ := h.writers n hn
    rw [hu] at hj
    cases hj
  refine h.relock (fun j => ?_) (update_on_iff (.inl hu) (.inr (.inl rfl))) rfl rfl rfl rfl rfl
    ?_ ?_ ?_ ?_ ?_ ?_
  · rcases eq_or_ne j i with rfl | hj <;> simp [*]
  · intro j hj
    rcases eq_or_ne j i with rfl | hji
    · simp
    · simpa [hji] using hj
  · intro j hj
    have hji : j ≠ i := by
      rintro rfl
      exact rootdev_ne (hd.symm.trans hj)
    simpa [hji] using (h.unused j hj).1
  · intro j v
    rcases eq_or_ne j i with rfl | hji
    · simp only [update_self, Option.some.injEq]
      constructor
      · rintro rfl
        exact ⟨b, update_self ..⟩
      · rintro ⟨c, hc⟩
        by_contra hv
        rw [update_of_ne (Ne.symm hv)] at hc
        exact hnone v c hc
    · simpa [hother _ _ _ hji, hji] using h.locks j v
  · intro v j c hv
    rcases eq_or_ne j i with rfl | hji
    · simp
    · rw [hother v j c hji] at hv
      simpa [hji] using h.valid v j c hv
  · intro j hj hv hw
    rcases eq_or_ne j i with rfl | hji
    · simp only [update_self]
      split
      · rename_i hvalid
        exact h.data j hj hvalid (fun n _ c => hnone _ c)
      · rename_i hvalid
        apply h.disk
        intro hP
        obtain ⟨k, hk, hdk, hbk, hvk⟩ := h.pinned _ hP
        have hkj := h.unique j k hj hk (by rw [hd]; exact rootdev_ne) (by rw [hdk, hd]) hbk
        exact hvalid (hkj ▸ hvk)
    · simp only [update_of_ne hji, ne_eq, hother _ _ _ hji] at hv hw ⊢
      exact h.data j hj hv hw
  · intro n hn
    obtain ⟨j, c, hj⟩ := h.writers n hn
    exact ⟨j, c, (update_of_ne (hwriter n hn) ..).trans hj⟩

theorem unlock_eq (hs : unlock s u = some t) :
    ∃ i b, s.hold u = .held i b ∧ t = { s with
      bufs := update s.bufs i { s.bufs i with lock := none }
      hold := update s.hold u (.unlocked i b) } := by
  unfold unlock at hs
  split at hs
  · rename_i i b hu
    exact ⟨i, b, hu, (Option.some.inj hs).symm⟩
  · cases hs

theorem unlock_core (h : Core s P) (hw : ∀ n ∈ s.writers, Handle.user n ≠ u)
    (hs : unlock s u = some t) : Core t P := by
  obtain ⟨i, b, hu, rfl⟩ := unlock_eq hs
  have hheld : ∀ v j c, update s.hold u (.unlocked i b) v = .held j c ↔
      v ≠ u ∧ s.hold v = .held j c := by
    intro v j c
    rcases eq_or_ne v u with rfl | hv
    · simp
    · simp [hv]
  have hbufs : ∀ j, update s.bufs i { s.bufs i with lock := none } j =
      { s.bufs j with lock := if j = i then none else (s.bufs j).lock } := by
    intro j
    rcases eq_or_ne j i with rfl | hj <;> simp [*]
  refine h.relock (fun j => by simp [hbufs]) (update_on_iff (.inr (.inl hu)) (.inr (.inr rfl))) rfl
    rfl rfl rfl rfl ?_ ?_ ?_ ?_ ?_ ?_
  · exact fun j hj => by simpa [hbufs] using hj
  · exact fun j hj => by simpa [hbufs] using (h.unused j hj).1
  · intro j v
    simp only [hheld, hbufs]
    rcases eq_or_ne j i with rfl | hji
    · simp only [if_true, reduceCtorEq, false_iff, not_exists, not_and]
      intro c hv hvc
      exact hv (h.held_unique hvc hu)
    rw [if_neg hji, h.locks j v]
    constructor
    · rintro ⟨c, hc⟩
      refine ⟨c, ?_, hc⟩
      rintro rfl
      rw [hu] at hc
      cases hc
      exact hji rfl
    · rintro ⟨c, -, hc⟩
      exact ⟨c, hc⟩
  · intro v j c hv
    simpa [hbufs] using h.valid v j c ((hheld v j c).mp hv).2
  · intro j hj hv hw'
    simp only [hbufs] at hv ⊢
    refine h.data j hj hv (fun n hn c hc => hw' n hn c ?_)
    exact (hheld _ j c).mpr ⟨hw n hn, hc⟩
  · intro n hn
    obtain ⟨j, c, hj⟩ := h.writers n hn
    exact ⟨j, c, (hheld _ j c).mpr ⟨hw n hn, hj⟩⟩

/-- A buffer released by its last user goes to the front. -/
theorem Recency.move (h : Recency s l) (hi : i < NBUF) :
    Recency { s with
      links := (s.links.remove i).insert i
      released := update s.released i s.clock
      clock := s.clock + 1 } (i :: l.erase i) := by
  have hm : i ∈ l := h.mem.mpr hi
  have hd := (nodup_cons.mp h.circle.nodup).2
  have hout : i ∉ l.erase i := fun hm' => (hd.mem_erase_iff.mp hm').1 rfl
  have hkeep : ∀ j ∈ l.erase i, update s.released i s.clock j = s.released j := by
    intro j hj
    apply update_of_ne
    rintro rfl
    exact hout hj
  refine ⟨?_, ?_, ?_, fun j => ?_⟩
  · apply Links.insert_circle (Links.remove_circle h.circle hm)
    have hhead : i ≠ head := Nat.ne_of_lt hi
    simp [hout, hhead]
  · exact (perm_cons_erase hm).symm.trans h.perm
  · rw [pairwise_cons]
    refine ⟨fun j hj => ?_, ?_⟩
    · simp only [update_self, hkeep j hj]
      exact Nat.le_of_lt (h.past j)
    · apply (h.sorted.sublist erase_sublist).imp_of_mem
      intro j k hj hk hle
      simp only [hkeep j hj, hkeep k hk]
      exact hle
  · rcases eq_or_ne j i with rfl | hji
    · simp
    · simpa [hji] using Nat.lt_succ_of_lt (h.past j)

theorem put_core (h : Core s P) (hs : put s u = some t) : Core t P := by
  unfold put at hs
  split at hs
  · rename_i i b hu
    obtain ⟨hi, hd, hb⟩ := h.named u i b (.inr (.inr hu))
    obtain ⟨l, hl⟩ := h.order
    obtain ⟨k, hc, hk⟩ := h.refs i hi
    obtain ⟨hpos, hc⟩ := hc.leave (p := u) (c := .none) (by simp [hu, Hold.buf])
      (by simp [Hold.buf])
    have hcore : ∀ links released clock,
        (∃ l, Recency { s with links := links, released := released, clock := clock } l) →
        (∀ j, j ≠ i → released j = s.released j) →
        ((s.bufs i).refcnt - 1 = 0 → 0 < released i) → Core { s with
          bufs := update s.bufs i { s.bufs i with refcnt := (s.bufs i).refcnt - 1 }
          hold := update s.hold u .none
          links := links
          released := released
          clock := clock } P := by
      intro links released clock ho hr hused
      refine h.recount hi hd rfl (fun v j c => update_held_iff (by simp [hu]) (by simp)) rfl rfl
        (ho.imp (fun _ ho => ho.congr rfl rfl rfl)) hr h.pinned (fun v j c hv => ?_)
        ⟨k - 1, hc, by omega⟩ (fun j _ hji => ⟨rfl, fun k hc => ?_⟩) h.disk hused
      · rcases eq_or_ne v u with rfl | hvu
        · simp only [update_self] at hv
          rcases hv with hv | hv | hv <;> cases hv
        · exact .inl (by simpa [update_of_ne hvu] using hv)
      · exact Census.other hc (by simp [hu, Hold.buf, Ne.symm hji]) (by simp [Hold.buf])
    dsimp only at hs
    split at hs
    · cases hs
      exact hcore _ _ _ ⟨_, hl.move hi⟩ (fun j hji => update_of_ne hji ..)
        (fun _ => by simpa using Nat.zero_lt_of_lt (hl.past i))
    · rename_i hnz
      cases hs
      exact hcore _ _ _ ⟨l, hl⟩ (fun _ _ => rfl) (fun hz => absurd (by simpa using hz) hnz)
  · cases hs

theorem bget_core (h : Core s P) (hu : s.hold u = .none) (b : Nat) :
    Core (bget s u ROOTDEV b) P := by
  obtain ⟨l, hl⟩ := h.order
  rcases bget_cases hl u ROOTDEV b with ⟨i, hi, hd, hb, he⟩ | ⟨hno, ⟨i, hi, hold, he⟩ | he⟩
  · rw [he]
    exact hit_core h hu hi hd hb
  · rw [he]
    exact miss_core h hu hi hold.1 hno
  · rw [he]
    exact ⟨⟨l, hl.congr rfl rfl rfl⟩, h.unique, h.dev, h.named, h.refs, h.pinned, h.locks, h.valid,
      h.data, h.disk, h.writers, h.unused, h.used⟩

/-- Stored bytes that only one buffer shows: the buffers of other blocks are as they were. -/
theorem Core.other_block (h : Core s P) (hu : s.hold u = .held i b) (hj : j < NBUF)
    (hv : (s.bufs j).valid = true) (hji : j ≠ i) : (s.bufs j).blockno ≠ b := by
  intro he
  apply hji
  apply h.buf_unique (.inr (.inl hu)) hj _ he
  intro hd
  rw [(h.unused j hd).1] at hv
  cases hv

/-- The holder of block b puts new bytes into the buffer and, at once, on the disk. -/
theorem store_core (h : Core s P) (hu : s.hold u = .held i b)
    (hb : ∀ j, t.bufs j = { s.bufs j with data := if j = i then d else (s.bufs j).data })
    (hh : t.hold = s.hold) (hl : t.links = s.links) (hr : t.released = s.released)
    (hc : t.clock = s.clock) (hwr : t.writers = s.writers)
    (hdisk : t.disk = update s.disk b d)
    (hst : t.stored = update s.stored b d) : Core t P := by
  apply h.restore (fun j => by simp [hb]) hh hl hr hc
  · intro j hj hv hfree
    rcases eq_or_ne j i with rfl | hji
    · simp [hb, hst, (h.named_held hu).2.2]
    · simp only [hb, if_neg hji, hst, update_of_ne (h.other_block hu hj hv hji)]
      exact h.data j hj hv (fun n hn c => hfree n (hwr ▸ hn) c)
  · intro c hcP
    rw [hdisk, hst]
    rcases eq_or_ne c b with rfl | hcb
    · simp
    · simpa [hcb] using h.disk c hcP
  · rw [hwr]
    exact h.writers

theorem modify_core (h : Core s P) (hu : s.hold (.user n) = .held i b) (d : Log.Block) :
    Core { s with
      bufs := update s.bufs i { s.bufs i with data := d }
      writers := insert n s.writers } P := by
  refine h.restore (fun j => by simp [update_data]) rfl rfl rfl rfl ?_ h.disk ?_
  · intro j hj hv hfree
    rcases eq_or_ne j i with rfl | hji
    · exact absurd hu (hfree n (Finset.mem_insert_self ..) b)
    · simp only [update_data, if_neg hji]
      exact h.data j hj hv (fun m hm c => hfree m (Finset.mem_insert_of_mem hm) c)
  · intro m hm
    rcases Finset.mem_insert.mp hm with rfl | hm
    · exact ⟨i, b, hu⟩
    · exact h.writers m hm

/-- A user passes the buffer to log_write or bwrite: its bytes are now the stored ones. -/
theorem stored_core (h : Core s P) (hu : s.hold (.user n) = .held i b) (disk : Nat → Log.Block)
    (hd : ∀ c, c ∉ P → c ≠ b → disk c = s.disk c)
    (hb : b ∉ P → disk b = (s.bufs i).data) :
    Core { s with
      writers := s.writers.erase n
      disk := disk
      stored := update s.stored b (s.bufs i).data } P := by
  refine h.restore (fun j => rfl) rfl rfl rfl rfl ?_ ?_ ?_
  · intro j hj hv hfree
    rcases eq_or_ne j i with rfl | hji
    · simp [(h.named_held hu).2.2]
    · simp only [update_of_ne (h.other_block hu hj hv hji)]
      refine h.data j hj hv (fun m hm c hc => ?_)
      rcases eq_or_ne m n with rfl | hmn
      · rw [hu] at hc
        cases hc
        exact hji rfl
      · exact hfree m (Finset.mem_erase.mpr ⟨hmn, hm⟩) c hc
  · intro c hc
    rcases eq_or_ne c b with rfl | hcb
    · simp [hb hc]
    · simpa [hcb, hd c hc hcb] using h.disk c hc
  · exact fun m hm => h.writers m (Finset.mem_of_mem_erase hm)

/-- Only the buffer of block b is pinned for it. -/
theorem Core.pin_other (h : Core s P) (hu : s.hold u = .held i b) (hj : j < NBUF) (hji : j ≠ i)
    (hP : ∀ c, c ≠ b → (c ∈ Q ↔ c ∈ P)) : pin s Q j = pin s P j := by
  by_cases hdj : (s.bufs j).dev = 0
  · simp [pin, hdj]
  · have hjb : (s.bufs j).blockno ≠ b :=
      fun he => hji (h.buf_unique (.inr (.inl hu)) hj hdj he)
    simp [pin, hdj, hP _ hjb]

/-- The buffer that a user holds is pinned in the cache. -/
theorem bpin_core (h : Core s P) (hu : s.hold u = .held i b) (hb : b ∉ P) :
    Core { s with
      bufs := update s.bufs i { s.bufs i with refcnt := (s.bufs i).refcnt + 1 } }
      (P ++ [b]) := by
  obtain ⟨hi, hd, hbi⟩ := h.named_held hu
  obtain ⟨k, hc, hk⟩ := h.refs i hi
  refine h.recount hi hd rfl (fun _ _ _ => Iff.rfl) rfl rfl (h.reorder rfl rfl rfl) (fun _ _ => rfl)
    (fun c hc => ?_) (fun _ _ _ hv => .inl hv) ⟨k, hc, ?_⟩ (fun j hj hji => ⟨?_, fun _ hc => hc⟩)
    (fun c hc => ?_) nofun
  · rcases mem_append.mp hc with hc | hc
    · exact h.pinned c hc
    · rw [mem_singleton.mp hc]
      exact ⟨i, hi, hd, hbi, h.valid u i b hu⟩
  · simpa [pin, hd, hbi, hb, rootdev_ne] using hk
  · exact h.pin_other hu hj hji (fun c hcb => by simp [hcb])
  · rw [mem_append, not_or] at hc
    exact h.disk c hc.1

/-- The block is installed and its buffer, still held, is not pinned any more. -/
theorem bunpin_core (h : Core s (b :: P)) (hu : s.hold u = .held i b) (hb : b ∉ P)
    (hd : s.disk b = s.stored b) :
    Core { s with
      bufs := update s.bufs i { s.bufs i with refcnt := (s.bufs i).refcnt - 1 } } P := by
  obtain ⟨hi, hdi, hbi⟩ := h.named_held hu
  obtain ⟨k, hc, hk⟩ := h.refs i hi
  have hpos : 0 < k := hc.pos (Hold.on_buf.mpr ⟨b, .inr (.inl hu)⟩)
  have hpin : pin s P i = 0 ∧ pin s (b :: P) i = 1 := by
    simp [pin, hdi, hbi, hb, rootdev_ne]
  refine h.recount hi hdi rfl (fun _ _ _ => Iff.rfl) rfl rfl (h.reorder rfl rfl rfl)
    (fun _ _ => rfl) (fun c hc => h.pinned c (.tail _ hc)) (fun _ _ _ hv => .inl hv)
    ⟨k, hc, by omega⟩ (fun j hj hji => ⟨?_, fun _ hc => hc⟩) (fun c hc => ?_) (fun hz => by omega)
  · exact h.pin_other hu hj hji (fun c hcb => by simp [hcb])
  · rcases eq_or_ne c b with rfl | hcb
    · exact hd
    · exact h.disk c (by simp [hcb, hc])

end Xv6.Bio
