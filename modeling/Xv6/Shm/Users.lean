import Xv6.Shm.Table

namespace Xv6.Shm
open Function Lib

/-- A slot that shmget() is about to use again has no stale entries behind the first one. -/
def Clean (t : Table) : Call → Prop
  | .get key _ _ => t.first (·.key = key) = none →
      ∀ i, t.first (·.key = 0) = some i → ∀ q ∈ (t i).pids.tail, q = 0
  | _ => True

/-- A segment that shmget() finds has an entry left for the caller. -/
def Roomy (t : Table) : Call → Prop
  | .get key _ _ => key ≠ 0 → ∀ i, t.first (·.key = key) = some i → 0 ∈ (t i).pids
  | _ => True

instance (t : Table) (c : Call) : Decidable (Clean t c) :=
  match c with
  | .get .. =>
    have (i : Slot) : Decidable (∀ q ∈ (t i).pids.tail, q = 0) := List.decidableBAll _ _
    inferInstanceAs (Decidable (_ → _))
  | .attach .. | .detach .. | .ctl .. => isTrue trivial

instance (t : Table) (c : Call) : Decidable (Roomy t c) :=
  match c with
  | .get .. => inferInstanceAs (Decidable (_ → _))
  | .attach .. | .detach .. | .ctl .. => isTrue trivial

theorem pids_create (g : Seg) (i : Slot) (p : Pid) (key size shmflag : BitVec 32) :
    (g.create i p key size shmflag).pids = p.val :: g.pids.tail := by
  change g.pids.set 0 p.val = _
  cases hg : g.pids with
  | nil => simpa [hg, MAX_PROCESSES_PER_SEGMENT] using g.len
  | cons x l => rfl

theorem leave_pids {g : Seg} (hp : Packed g.pids) (hl : g.leave p = some g') :
    p.val ∈ g.pids ∧ g'.pids = g.pids.erase p.val ++ [0] := by
  obtain ⟨m, hm, he, -⟩ := leave_some hl
  exact ⟨mem_of_punch hm, he.trans (shift_punch hp hm)⟩

/-- The table with the calls counted for each slot and pid: gets since the segment was created and
successful shmdt() since then. The counters are not in the source. -/
structure Ledger where
  table : Table
  gets : Slot → BitVec 32 → Nat
  dts : Slot → BitVec 32 → Nat

def bump (n : Slot → BitVec 32 → Nat) (i : Slot) (q : BitVec 32) : Slot → BitVec 32 → Nat :=
  update n i (update (n i) q (n i q + 1))

def Ledger.getsAfter (s : Ledger) (p : Pid) : Call → Slot → BitVec 32 → Nat
  | .get key _ _ =>
    match s.table.first (·.key = key) with
    | some i => bump s.gets i p.val
    | none =>
      match s.table.first (·.key = 0) with
      | some i => update s.gets i (update 0 p.val 1)
      | none => s.gets
  | _ => s.gets

def Ledger.dtsAfter (s : Ledger) (p : Pid) : Call → Slot → BitVec 32 → Nat
  | .get key _ _ =>
    match s.table.first (·.key = key) with
    | some _ => s.dts
    | none =>
      match s.table.first (·.key = 0) with
      | some i => update s.dts i 0
      | none => s.dts
  | .detach shmid =>
    match s.table.first (·.id = shmid) with
    | some i => if ((s.table i).leave p).isSome then bump s.dts i p.val else s.dts
    | none => s.dts
  | _ => s.dts

def Ledger.step (s : Ledger) (a : Pid × Call) : Option Ledger :=
  some ⟨exec s.table a.1 a.2, s.getsAfter a.1 a.2, s.dtsAfter a.1 a.2⟩

def Ledger.start : Ledger := ⟨Shm.start, 0, 0⟩

/-- Nobody stands in the list of a segment more often than it has got it and not given it back. -/
structure Credit (s : Ledger) : Prop where
  sound : Sound s.table
  credit : ∀ i, (s.table i).key ≠ 0 → ∀ q, q ≠ 0 →
    (s.table i).pids.count q + s.dts i q ≤ s.gets i q

theorem bump_apply (n : Slot → BitVec 32 → Nat) (i j : Slot) (q r : BitVec 32) :
    bump n i q j r = n j r + if j = i ∧ q = r then 1 else 0 := by
  rcases eq_or_ne j i with rfl | hj
  · rcases eq_or_ne q r with rfl | hr
    · simp [bump]
    · simp [bump, hr, Ne.symm hr]
  · simp [bump, hj]

theorem count_join (g : Seg) (p : Pid) (hq : q ≠ 0) :
    (g.join p).pids.count q ≤ g.pids.count q + if p.val = q then 1 else 0 := by
  change (fill p.val g.pids).count q ≤ _
  rw [count_fill hq]
  by_cases hp : p.val = q
  · simp only [hp, true_and, if_true]
    split <;> omega
  · simp [hp]

theorem count_create {g : Seg} (hg : ∀ q ∈ g.pids.tail, q = 0) (hq : q ≠ 0) :
    (g.create i p key size shmflag).pids.count q = if p.val = q then 1 else 0 := by
  have hz : g.pids.tail.count q = 0 := List.count_eq_zero.mpr (fun hm => hq (hg q hm))
  rw [pids_create, List.count_cons, hz]
  simp

theorem count_leave {g : Seg} (hp : Packed g.pids) (hl : g.leave p = some g') (hq : q ≠ 0) :
    g'.pids.count q + (if p.val = q then 1 else 0) = g.pids.count q := by
  obtain ⟨hm, he⟩ := leave_pids hp hl
  have hz : List.count q [0] = 0 := List.count_eq_zero.mpr (by simpa using hq)
  rw [he, List.count_append, hz, (List.perm_cons_erase hm).count_eq q, List.count_cons]
  simp

theorem Credit.put {s : Ledger} (h : Credit s) (ht : Sound (update s.table i g))
    (hn : ∀ j, j ≠ i → ∀ q, n j q = s.gets j q ∧ d j q = s.dts j q)
    (hg : g.key ≠ 0 → ∀ q, q ≠ 0 → g.pids.count q + d i q ≤ n i q) :
    Credit ⟨update s.table i g, n, d⟩ := by
  refine ⟨ht, fun j hj q hq => ?_⟩
  change (update s.table i g j).key ≠ 0 at hj
  change (update s.table i g j).pids.count q + d j q ≤ n j q
  rcases eq_or_ne j i with rfl | hji
  · rw [update_self] at hj ⊢
    exact hg hj q hq
  · rw [update_of_ne hji] at hj ⊢
    obtain ⟨he, hd⟩ := hn j hji q
    rw [he, hd]
    exact h.credit j hj q hq

theorem Credit.replace {s : Ledger} (h : Credit s) (ht : Sound (update s.table i g))
    (hp : g.pids = (s.table i).pids) (hk : g.key ≠ 0 → (s.table i).key ≠ 0) :
    Credit { s with table := update s.table i g } := by
  refine h.put ht (fun j _ q => ⟨rfl, rfl⟩) ?_
  intro hg q hq
  rw [hp]
  exact h.credit i (hk hg) q hq

theorem Credit.get (h : Credit s) (hc : Clean s.table (.get key size shmflag))
    (hs : s.step (p, .get key size shmflag) = some s') : Credit s' := by
  cases hs
  have ht := h.sound.moves (exec_moves s.table p (.get key size shmflag))
  cases hf : s.table.first (·.key = key) with
  | some i =>
    simp only [exec, shmget, hf, Ledger.getsAfter, Ledger.dtsAfter] at ht ⊢
    refine h.put ht (fun j hj q => ⟨by simp [bump_apply, hj], rfl⟩) ?_
    intro hk q hq
    have hi := h.credit i hk q hq
    have hj := count_join (s.table i) p hq
    rw [bump_apply]
    simp only [true_and]
    omega
  | none =>
    cases h0 : s.table.first (·.key = 0) with
    | some i =>
      simp only [exec, shmget, hf, h0, Ledger.getsAfter, Ledger.dtsAfter] at ht ⊢
      refine h.put ht (fun j hj q => by simp [hj]) ?_
      intro hk q hq
      rw [count_create (hc hf i h0) hq, update_self, update_self]
      by_cases hp : p.val = q
      · simp [hp]
      · simp [hp]
    | none =>
      simp only [exec, shmget, hf, h0, Ledger.getsAfter, Ledger.dtsAfter]
      exact h

theorem Credit.detach (h : Credit s) (hs : s.step (p, .detach shmid) = some s') : Credit s' := by
  cases hs
  have ht := h.sound.moves (exec_moves s.table p (.detach shmid))
  cases hf : s.table.first (·.id = shmid) with
  | none =>
    simp only [exec, shmdt, hf, Ledger.getsAfter, Ledger.dtsAfter]
    exact h
  | some i =>
    cases hl : (s.table i).leave p with
    | none =>
      simp only [exec, shmdt, hf, hl, Ledger.getsAfter, Ledger.dtsAfter]
      exact h
    | some g =>
      simp only [exec, shmdt, hf, hl, Ledger.getsAfter, Ledger.dtsAfter] at ht ⊢
      refine h.put ht (fun j hj q => ⟨rfl, by simp [bump_apply, hj]⟩) ?_
      intro hk q hq
      obtain ⟨-, -, -, -, hkey, -⟩ := leave_some hl
      have hi := h.credit i (hkey ▸ hk) q hq
      have hj := count_leave (h.sound.slots i).packed hl hq
      simp only [Option.isSome_some, if_true]
      rw [bump_apply]
      simp only [true_and]
      omega

theorem Credit.step (h : Credit s) (hc : Clean s.table a.2) (hs : s.step a = some s') :
    Credit s' := by
  obtain ⟨p, c⟩ := a
  cases c with
  | get key size shmflag => exact h.get hc hs
  | detach shmid => exact h.detach hs
  | attach shmid userAddr page =>
    cases hs
    have ht := h.sound.moves (exec_moves s.table p (.attach shmid userAddr page))
    have hm := exec_moves s.table p (.attach shmid userAddr page)
    generalize exec s.table p (.attach shmid userAddr page) = t at ht hm
    cases hm with
    | same => exact h
    | locate => exact h.replace ht rfl id
  | ctl shmid cmd buf =>
    cases hs
    have ht := h.sound.moves (exec_moves s.table p (.ctl shmid cmd buf))
    have hm := exec_moves s.table p (.ctl shmid cmd buf)
    generalize exec s.table p (.ctl shmid cmd buf) = t at ht hm
    cases hm with
    | same => exact h
    | remove => exact h.replace ht rfl (fun hk => absurd rfl hk)
    | setFlag => exact h.replace ht rfl id

theorem credit_start : Credit Ledger.start := by
  refine ⟨sound_start, ?_⟩
  intro i hi
  exact absurd rfl hi

/-- An attached address comes from a segment in use whose list holds the caller. -/
theorem access_of_shmat (h : (shmat t p shmid userAddr page).2.ret ≠ -1) :
    ∃ i, shmid = slotId i ∧ (t i).key ≠ 0 ∧ p.val ∈ (t i).pids := by
  cases hf : t.slot shmid with
  | none => simp [shmat, hf, Attach.ret] at h
  | some i =>
    obtain ⟨hid, hk⟩ := slot_eq_some.mp hf
    refine ⟨i, hid, hk, ?_⟩
    by_contra hp
    simp [shmat, hf, hp, Attach.ret] at h

/-- If no slot with stale entries is used again, shmat() lets in only a process that has got the
segment more often than it has given it back. -/
theorem access_controlled (hc : Along Ledger.step (fun s a => Clean s.table a.2) .start as)
    (hr : run Ledger.step .start as = some s)
    (ha : (shmat s.table p shmid userAddr page).2.ret ≠ -1) :
    ∃ i, shmid = slotId i ∧ (s.table i).key ≠ 0 ∧ s.dts i p.val < s.gets i p.val := by
  have hs : Credit s :=
    along_invariant (fun s a t hs hg ht => hs.step hg ht) credit_start hc hr
  obtain ⟨i, hid, hk, hp⟩ := access_of_shmat ha
  refine ⟨i, hid, hk, ?_⟩
  have := hs.credit i hk p.val p.ne_zero
  have := List.count_pos_iff.mpr hp
  omega

theorem access_controlled_two_users :
    ∃ s, run Ledger.step .start [(pid5, .get 7 4096 0), (pid6, .get 7 4096 0)] = some s ∧
      ∃ i, 1 = slotId i ∧ (s.table i).key ≠ 0 ∧ s.dts i pid6.val < s.gets i pid6.val := by
  obtain ⟨s, hr, hs⟩ := Option.map_eq_some_iff.mp
    (show (run Ledger.step .start [(pid5, .get 7 4096 0), (pid6, .get 7 4096 0)]).map
      (fun s => (shmat s.table pid6 1 0x4000 0).2.ret) = some 0x4000 by decide +kernel)
  have ha : (shmat s.table pid6 1 0x4000 0).2.ret ≠ -1 := by
    rw [hs]
    decide
  exact ⟨s, hr, access_controlled (by decide +kernel) hr ha⟩

def pid9 : Pid := ⟨9, by decide⟩

/-- The segment with key 7 is removed and its slot used again for key 8 by another process. -/
def reuse : List (Pid × Call) :=
  [(pid5, .get 7 4096 0), (pid6, .get 7 4096 0), (pid5, .ctl 1 IPC_RMID 0), (pid9, .get 8 4096 0)]

/-- A process of the removed segment attaches the new one, which it has never got. -/
theorem stale_pid_attaches :
    (run Ledger.step .start reuse).map (fun s =>
      ((shmat s.table pid6 1 0x4000 0).2.ret, s.gets 0 pid6.val, s.dts 0 pid6.val)) =
    some (0x4000, 0, 0) := by
  decide +kernel

/-- What a successful shmget() promises the caller: the id names a slot in use with that key, and
shmat() finds the id valid and the caller in the list. -/
def Usable (t : Table) (p : Pid) (key size shmflag : BitVec 32) : Prop :=
  (shmget t p key size shmflag).2 ≠ -1 →
    ∃ i : Slot, (shmget t p key size shmflag).2 = i.val + 1 ∧
      ((shmget t p key size shmflag).1 i).key ≠ 0 ∧
      ((shmget t p key size shmflag).1 i).key = key ∧
      ∀ userAddr page,
        (shmat (shmget t p key size shmflag).1 p (slotId i) userAddr page).2 ≠ .badId ∧
        (shmat (shmget t p key size shmflag).1 p (slotId i) userAddr page).2 ≠ .noAccess

theorem shmat_allowed (hk : (t i).key ≠ 0) (hp : p.val ∈ (t i).pids) :
    (shmat t p (slotId i) userAddr page).2 ≠ .badId ∧
    (shmat t p (slotId i) userAddr page).2 ≠ .noAccess := by
  have hs : t.slot (slotId i) = some i := slot_eq_some.mpr ⟨rfl, hk⟩
  simp only [shmat, hs, hp, not_true, if_false]
  split
  · simp
  · split
    · simp
    · split <;> simp

theorem shmat_refused (hk : (t i).key ≠ 0) (hp : p.val ∉ (t i).pids) :
    (shmat t p (slotId i) userAddr page).2 = .noAccess := by
  have hs : t.slot (slotId i) = some i := slot_eq_some.mpr ⟨rfl, hk⟩
  simp [shmat, hs, hp]

/-- Key zero is the mark of a free slot: shmget(0) returns the id field of one. -/
theorem usable_zero_iff (h : Sound t) :
    Usable t p 0 size shmflag ↔ ∀ i, (t i).key ≠ 0 := by
  cases hf : t.first (·.key = 0) with
  | none =>
    have hall : ∀ i, (t i).key ≠ 0 := by simpa using first_none hf
    refine ⟨fun _ => hall, fun _ hret => ?_⟩
    rw [shmget_full hf hf] at hret
    exact absurd rfl hret
  | some i =>
    have hi : (t i).key = 0 := by simpa using first_some hf
    have hret : (shmget t p 0 size shmflag).2 ≠ -1 := by
      rw [shmget_found hf]
      rcases (h.slots i).id with hid | hid
      · simp [hid]
      · rw [hid, slotId_toInt]
        omega
    constructor
    · intro hu
      obtain ⟨j, -, hne, he, -⟩ := hu hret
      exact absurd he hne
    · intro hall
      exact absurd hi (hall i)

theorem usable_join_iff (h : Sound t) (hkey : key ≠ 0) (hf : t.first (·.key = key) = some i) :
    Usable t p key size shmflag ↔ 0 ∈ (t i).pids ∨ p.val ∈ (t i).pids := by
  have hi : (t i).key = key := by simpa using first_some hf
  have hid : (t i).id = slotId i := (h.slots i).inUse (hi ▸ hkey)
  have hk : (update t i ((t i).join p) i).key ≠ 0 := by
    rw [update_self]
    exact hi ▸ hkey
  have hpids : (update t i ((t i).join p) i).pids = fill p.val (t i).pids := by
    rw [update_self]
    rfl
  rw [Usable, shmget_found hf, hid, slotId_toInt]
  constructor
  · intro hu
    obtain ⟨j, hj, -, -, hat⟩ := hu (by omega)
    have hij : j = i := Fin.ext (by omega)
    subst hij
    by_contra hno
    rw [not_or] at hno
    refine (hat 0 0).2 (shmat_refused hk ?_)
    rw [hpids, fill_of_full hno.1]
    exact hno.2
  · intro hor _
    refine ⟨i, rfl, hk, ?_, fun userAddr page => shmat_allowed hk ?_⟩
    · simp only [update_self]
      exact hi
    · simp only [hpids]
      rcases hor with h0 | hp
      · exact mem_fill h0
      · exact mem_fill_of_mem hp p.ne_zero

theorem usable_create (hf : t.first (·.key = key) = none) : Usable t p key size shmflag := by
  intro hret
  cases h0 : t.first (·.key = 0) with
  | none =>
    rw [shmget_full hf h0] at hret
    exact absurd rfl hret
  | some i =>
    have hk : (update t i ((t i).create i p key size shmflag) i).key ≠ 0 := by
      rw [update_self]
      exact create_key_ne_zero hf h0
    rw [shmget_create hf h0]
    refine ⟨i, slotId_toInt i, hk, ?_, fun userAddr page => shmat_allowed hk ?_⟩
    · simp only [update_self]
      rfl
    · simp only [update_self, pids_create]
      exact List.mem_cons_self

/-- On a reachable table a successful shmget() is usable exactly when the key is not zero (or no
slot is free) and a segment found by its key has an entry for the caller. -/
theorem usable_iff (hr : run step start as = some t) :
    Usable t p key size shmflag ↔
      (key = 0 → ∀ i, (t i).key ≠ 0) ∧
      (key ≠ 0 → ∀ i, (t i).key = key → 0 ∈ (t i).pids ∨ p.val ∈ (t i).pids) := by
  have h := sound_of_run hr
  rcases eq_or_ne key 0 with rfl | hkey
  · simpa using usable_zero_iff h
  cases hf : t.first (·.key = key) with
  | none =>
    refine ⟨fun _ => ⟨fun he => absurd he hkey, fun _ i hi => ?_⟩, fun _ => usable_create hf⟩
    have := first_none hf i
    simp [hi] at this
  | some i =>
    rw [usable_join_iff h hkey hf]
    have hi : (t i).key = key := by simpa using first_some hf
    constructor
    · intro hor
      refine ⟨fun he => absurd he hkey, fun _ j hj => ?_⟩
      exact h.keys i j key (inUseFor_eq hi hkey) (inUseFor_eq hj hkey) ▸ hor
    · intro hall
      exact hall.2 hkey i hi

theorem usable_iff_new_key : Usable start pid5 7 4096 0 := by
  have hr : run step start [] = some start := rfl
  refine (usable_iff hr).mpr ⟨fun h => absurd h (by decide), fun _ i hi => ?_⟩
  change (0 : BitVec 32) = 7 at hi
  exact absurd hi (by decide)

/-- Ten times the same segment, so that its list is full. -/
def tenGets : List (Pid × Call) := List.replicate 10 (pid5, .get 7 4096 0)

/-- shmget(0) returns the id 0 of a free slot; a process that finds the list full gets an id that
shmat() refuses. -/
theorem get_not_usable :
    (shmget start pid5 0 4096 0).2 = 0 ∧
    (run step start tenGets).map (fun t =>
      ((shmget t pid6 7 4096 0).2, (shmat (shmget t pid6 7 4096 0).1 pid6 1 0x4000 0).2)) =
    some (1, .noAccess) := by
  decide +kernel

/-- The reference count of a segment is the number of entries in its list. -/
structure Counted (t : Table) : Prop where
  sound : Sound t
  count : ∀ i, (t i).key ≠ 0 → (t i).refcount = BitVec.ofNat 32 (used (t i).pids)

theorem Counted.put (h : Counted t) (ht : Sound (update t i g))
    (hg : g.key ≠ 0 → g.refcount = BitVec.ofNat 32 (used g.pids)) :
    Counted (update t i g) := by
  refine ⟨ht, fun j hj => ?_⟩
  rcases eq_or_ne j i with rfl | hji
  · rw [update_self] at hj ⊢
    exact hg hj
  · rw [update_of_ne hji] at hj ⊢
    exact h.count j hj

theorem Counted.join (h : Counted t) (hk : (t i).key ≠ 0) (h0 : 0 ∈ (t i).pids) (p : Pid) :
    ((t i).join p).refcount = BitVec.ofNat 32 (used ((t i).join p).pids) := by
  change (t i).refcount + 1 = BitVec.ofNat 32 (used (fill p.val (t i).pids))
  rw [used_fill p.ne_zero h0, h.count i hk, BitVec.ofNat_add]
  rfl

theorem Counted.leave (h : Counted t) (hk : (t i).key ≠ 0) (hl : (t i).leave p = some g) :
    g.refcount = BitVec.ofNat 32 (used g.pids) := by
  obtain ⟨m, -, -, hr, -⟩ := leave_some hl
  obtain ⟨hm, he⟩ := leave_pids (h.sound.slots i).packed hl
  have hu := used_erase hm p.ne_zero
  rw [hr, h.count i hk, he, ← hu, BitVec.ofNat_add]
  exact BitVec.add_sub_cancel _ _

theorem Counted.moves (h : Counted t) (hm : Moves p t c t') (hc : Clean t c) (hr : Roomy t c) :
    Counted t' := by
  have ht := h.sound.moves hm
  cases hm with
  | same => exact h
  | @join key i size shmflag found =>
    have hi : (t i).key = key := by simpa using first_some found
    exact h.put ht (fun hk => h.join hk (hr (hi ▸ hk) i found) p)
  | @create key i size shmflag fresh free =>
    refine h.put ht (fun _ => ?_)
    rw [pids_create, used_cons, used_of_all_zero (hc fresh i free), if_neg p.ne_zero]
    rfl
  | @locate shmid i => exact h.put ht (h.count i)
  | leave found left =>
    obtain ⟨-, -, -, -, hk, -⟩ := leave_some left
    exact h.put ht (fun hg => h.leave (hk ▸ hg) left)
  | remove => exact h.put ht (fun hk => absurd rfl hk)
  | @setFlag shmid i => exact h.put ht (h.count i)

theorem counted_start : Counted start := by
  refine ⟨sound_start, ?_⟩
  intro i hi
  exact absurd rfl hi

/-- If shmget() never finds a full list and no slot with stale entries is used again, every segment
counts its list, and the count is not negative. -/
theorem refcount_counts
    (hc : Along step (fun t a => Clean t a.2 ∧ Roomy t a.2) start as)
    (hr : run step start as = some t) (hk : (t i).key ≠ 0) :
    (t i).refcount.toInt = used (t i).pids ∧ 0 ≤ (t i).refcount.toInt := by
  have h : Counted t := by
    refine along_invariant ?_ counted_start hc hr
    intro s a u hs hg hu
    cases hu
    exact hs.moves (exec_moves s a.1 a.2) hg.1 hg.2
  have hle : used (t i).pids ≤ 10 := (used_le_length _).trans (t i).len.le
  have hint : (t i).refcount.toInt = used (t i).pids := by
    rw [h.count i hk, BitVec.toInt_ofNat', Int.bmod_eq_of_le] <;> omega
  exact ⟨hint, by omega⟩

theorem refcount_counts_two_users :
    (twoUsers 0).refcount.toInt = used (twoUsers 0).pids ∧ 0 ≤ (twoUsers 0).refcount.toInt := by
  have hr : run step start [(pid5, .get 7 4096 0), (pid6, .get 7 4096 0)] = some twoUsers := rfl
  exact refcount_counts (by decide +kernel) hr (by decide +kernel)

/-- After the slot is used again the count is 1 with two entries, and -1 once both have left; a
full list makes it 11 with ten entries. -/
theorem refcount_drifts :
    (run step start reuse).map (fun t => ((t 0).refcount, used (t 0).pids)) = some (1, 2) ∧
    (run step start (reuse ++ [(pid6, .detach 1), (pid9, .detach 1)])).map
      (fun t => ((t 0).key, (t 0).refcount.toInt)) = some (8, -1) ∧
    (run step start (tenGets ++ [(pid6, .get 7 4096 0)])).map
      (fun t => ((t 0).refcount, used (t 0).pids)) = some (11, 10) := by
  decide +kernel

end Xv6.Shm
