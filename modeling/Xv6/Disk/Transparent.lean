import Xv6.Disk.Commit

namespace Xv6.Bio

open Function List Lib

/-- What commit has in hand. -/
def shapes (s : State) : Slot → Shape := fun c => (s.hold (.commit c)).shape

structure Inv (g : Log.Geometry) (s : State) : Prop where
  core : Core s s.pins
  nodup : s.lh.Nodup
  outside : ∀ b ∈ s.lh, ¬ g.Area b
  room : s.lh.length + 1 ≤ g.size
  ok : Ok (shapes s) s.todo
  safe : s.todo ≠ [] → Safe g s.todo s.lh s.stored s.disk
  apart : s.todo ≠ [] → ∀ n ∈ s.writers, ∀ i b, s.hold (.user n) = .held i b → ¬ s.Busy g b
  once : (unpins s.todo).Nodup

theorem State.busy_iff {s : State} : s.Busy g b ↔ g.Area b ∨ b ∈ s.lh := by
  unfold State.Busy Log.Geometry.Area
  rw [contains_iff_mem]

theorem inv_boot (g : Log.Geometry) (disk : Nat → Log.Block) : Inv g (boot disk) := by
  refine ⟨core_boot disk, nodup_nil, by simp [boot], g.header, ⟨rfl, rfl⟩, ?_, ?_,
    nodup_nil⟩
  · exact fun h => absurd rfl h
  · exact fun h => absurd rfl h

theorem Core.frame (h : Core s P) (todo : List Micro) (lh : List Nat) (panicked : Bool) :
    Core { s with todo := todo, lh := lh, panicked := panicked } P := by
  obtain ⟨l, hl⟩ := h.order
  exact ⟨⟨l, hl.congr rfl rfl rfl⟩, h.unique, h.dev, h.named, h.refs, h.pinned, h.locks, h.valid,
    h.data, h.disk, h.writers, h.unused, h.used⟩

/-- A step of a user, who stores nothing that a running commit works on. -/
theorem Inv.keep (h : Inv g s) (hc : Core t s.pins) (hlh : t.lh = s.lh) (htd : t.todo = s.todo)
    (hh : ∀ c, t.hold (.commit c) = s.hold (.commit c))
    (hst : s.todo ≠ [] → ∀ b, s.Busy g b → t.stored b = s.stored b ∧ t.disk b = s.disk b)
    (hap : s.todo ≠ [] → ∀ n ∈ t.writers, ∀ i b, t.hold (.user n) = .held i b → ¬ s.Busy g b) :
    Inv g t := by
  have hpins : t.pins = s.pins := by simp only [State.pins, hlh, htd]
  refine ⟨by rw [hpins]; exact hc, by rw [hlh]; exact h.nodup, by rw [hlh]; exact h.outside,
    by rw [hlh]; exact h.room, ?_, ?_, ?_, by rw [htd]; exact h.once⟩
  · have hs : shapes t = shapes s := by
      funext c
      simp only [shapes, hh]
    rw [hs, htd]
    exact h.ok
  · intro hne
    rw [htd] at hne ⊢
    rw [hlh]
    exact (h.safe hne).congr (fun b hb => hst hne b (State.busy_iff.mpr hb))
  · intro hne n hn i b hb
    rw [htd] at hne
    have := hap hne n hn i b hb
    rwa [State.busy_iff, hlh, ← State.busy_iff]

/-- The device and block number that a buffer is for. -/
def Buf.name (b : Buf) : Nat × Nat := (b.dev, b.blockno)

theorem update_name {bufs : Nat → Buf} (hx : x.name = (bufs i).name) (j : Nat) :
    (update bufs i x j).name = (bufs j).name := by
  rcases eq_or_ne j i with rfl | hj
  · rw [update_self, hx]
  · rw [update_of_ne hj]

/-- One use goes on to x, and apart from that only buffers change. -/
structure Uses (s t : State) (u : Handle) (x : Hold) : Prop where
  lh : t.lh = s.lh
  todo : t.todo = s.todo
  stored : t.stored = s.stored
  disk : t.disk = s.disk
  writers : t.writers = s.writers
  panicked : t.panicked = s.panicked
  hold : t.hold = update s.hold u x

theorem bget_uses (h : Core s P) (u : Handle) (b : Nat) :
    bget s u ROOTDEV b = { s with panicked := true } ∨
      ∃ i, Uses s (bget s u ROOTDEV b) u (.queued i b) := by
  obtain ⟨l, hl⟩ := h.order
  rcases bget_cases hl u ROOTDEV b with ⟨i, -, -, -, he⟩ | ⟨-, ⟨i, -, -, he⟩ | he⟩
  · rw [he]
    exact .inr ⟨i, rfl, rfl, rfl, rfl, rfl, rfl, rfl⟩
  · rw [he]
    exact .inr ⟨i, rfl, rfl, rfl, rfl, rfl, rfl, rfl⟩
  · exact .inl he

theorem take_uses (hs : take s u = some t) : ∃ i b, s.hold u = .queued i b ∧
    Uses s t u (.held i b) ∧ ∀ j, (t.bufs j).name = (s.bufs j).name := by
  obtain ⟨i, b, hu, -, rfl⟩ := take_eq hs
  exact ⟨i, b, hu, ⟨rfl, rfl, rfl, rfl, rfl, rfl, rfl⟩, update_name rfl⟩

theorem unlock_uses (hs : unlock s u = some t) : ∃ i b, s.hold u = .held i b ∧
    Uses s t u (.unlocked i b) ∧ ∀ j, (t.bufs j).name = (s.bufs j).name := by
  obtain ⟨i, b, hu, rfl⟩ := unlock_eq hs
  exact ⟨i, b, hu, ⟨rfl, rfl, rfl, rfl, rfl, rfl, rfl⟩, update_name rfl⟩

theorem put_uses (hs : put s u = some t) :
    Uses s t u .none ∧ ∀ j, (t.bufs j).name = (s.bufs j).name := by
  unfold put at hs
  split at hs
  · dsimp only at hs
    split at hs
    · cases hs
      exact ⟨⟨rfl, rfl, rfl, rfl, rfl, rfl, rfl⟩, update_name rfl⟩
    · cases hs
      exact ⟨⟨rfl, rfl, rfl, rfl, rfl, rfl, rfl⟩, update_name rfl⟩
  · cases hs

theorem panic_inv (h : Inv g s) : Inv g { s with panicked := true } :=
  h.keep (h.core.frame s.todo s.lh true) rfl rfl (fun _ => rfl) (fun _ _ _ => ⟨rfl, rfl⟩) h.apart

/-- A step of a user's call of bread or brelse. One that has changed its buffer stays with it. -/
theorem Inv.use (h : Inv g s) (hc : Core t s.pins) (hu : Uses s t (.user n) x)
    (hx : ∀ i b, x = .held i b → n ∉ s.writers) : Inv g t := by
  apply h.keep hc hu.lh hu.todo
  · exact fun c => by simp [hu.hold]
  · exact fun _ c _ => ⟨by rw [hu.stored], by rw [hu.disk]⟩
  · intro hne m hm j c hj
    rw [hu.writers] at hm
    rw [hu.hold] at hj
    rcases eq_or_ne m n with rfl | hmn
    · rw [update_self] at hj
      exact absurd hm (hx j c hj)
    · exact h.apart hne m hm j c (by simpa [hmn] using hj)

theorem user_bget_inv (h : Inv g s) (hu : s.hold (.user n) = .none) (b : Nat) :
    Inv g (bget s (.user n) ROOTDEV b) := by
  rcases bget_uses h.core (.user n) b with he | ⟨i, hi⟩
  · rw [he]
    exact panic_inv h
  · exact h.use (bget_core h.core hu b) hi nofun

theorem user_take_inv (h : Inv g s) (hs : take s (.user n) = some t) : Inv g t := by
  obtain ⟨i, b, hu, hi, -⟩ := take_uses hs
  refine h.use (take_core h.core hs) hi (fun _ _ _ hn => ?_)
  obtain ⟨k, d, hk⟩ := h.core.writers n hn
  rw [hu] at hk
  cases hk

theorem user_unlock_inv (h : Inv g s) (hw : n ∉ s.writers) (hs : unlock s (.user n) = some t) :
    Inv g t := by
  obtain ⟨i, b, hu, hi, -⟩ := unlock_uses hs
  exact h.use (unlock_core h.core (fun m hm he => hw (by cases he; exact hm)) hs) hi nofun

theorem user_put_inv (h : Inv g s) (hs : put s (.user n) = some t) : Inv g t :=
  h.use (put_core h.core hs) (put_uses hs).1 nofun

theorem modify_inv (h : Inv g s) (hs : modify g s n d = some t) : Inv g t := by
  unfold modify at hs
  split at hs
  · rename_i i b hu
    split at hs
    · cases hs
    rename_i hfree
    cases hs
    apply h.keep (modify_core h.core hu d) rfl rfl
    · exact fun _ => rfl
    · exact fun _ _ _ => ⟨rfl, rfl⟩
    · intro hne m hm j c hj
      rcases Finset.mem_insert.mp hm with rfl | hm
      · have hcb : c = b := by
          rw [hu] at hj
          cases hj
          rfl
        rw [hcb]
        exact fun hb => hfree ⟨hne, hb⟩
      · exact h.apart hne m hm j c hj
  · cases hs

theorem bwrite_inv (h : Inv g s) (hs : bwrite s n = some t) : Inv g t := by
  unfold bwrite at hs
  split at hs
  · rename_i i b hu
    split at hs
    · rename_i hw
      cases hs
      apply h.keep
      · apply stored_core h.core hu
        · exact fun c _ hcb => update_of_ne hcb ..
        · exact fun _ => update_self ..
      · rfl
      · rfl
      · exact fun _ => rfl
      · intro hne c hc
        have hcb : c ≠ b := fun he => h.apart hne n hw i b hu (he ▸ hc)
        simp [hcb]
      · exact fun hne m hm j c hj => h.apart hne m (Finset.mem_of_mem_erase hm) j c hj
    · cases hs
  · cases hs

theorem logWrite_inv (h : Inv g s) (hs : logWrite g s n = some t) : Inv g t := by
  unfold logWrite at hs
  split at hs
  · rename_i i b hu
    split at hs
    · cases hs
    rename_i hguard
    rw [not_or, not_not] at hguard
    obtain ⟨htd, hout⟩ := hguard
    have hpins : s.pins = s.lh := if_pos htd
    have hcore := h.core
    rw [hpins] at hcore
    split at hs
    · cases hs
      exact panic_inv h
    rename_i hbound
    dsimp only at hs
    split at hs
    · rename_i hmem
      rw [contains_iff_mem] at hmem
      cases hs
      apply h.keep
      · rw [hpins]
        apply stored_core hcore hu
        · exact fun _ _ _ => rfl
        · exact fun hb => absurd hmem hb
      · rfl
      · rfl
      · exact fun _ => rfl
      · exact fun hne => absurd htd hne
      · exact fun hne => absurd htd hne
    · rename_i hmem
      rw [contains_iff_mem] at hmem
      cases hs
      have hpin := bpin_core hcore hu hmem
      have hst := stored_core hpin hu s.disk (fun _ _ _ => rfl) (fun hb => absurd (by simp) hb)
      simp only [update_self] at hst
      refine ⟨?_, ?_, ?_, ?_, ?_, fun hne => absurd htd hne,
        fun hne => absurd htd hne, ?_⟩
      · rw [State.pins, if_pos htd]
        exact hst.frame s.todo (s.lh ++ [b]) s.panicked
      · rw [nodup_append]
        exact ⟨h.nodup, by simp, fun c hc d hd => by
          rw [mem_singleton.mp hd]
          exact fun he => hmem (he ▸ hc)⟩
      · intro c hc
        rcases mem_append.mp hc with hc | hc
        · exact h.outside c hc
        · rw [mem_singleton.mp hc]
          exact hout
      · rw [length_append, length_singleton]
        omega
      · exact h.ok
      · exact h.once
  · cases hs

theorem commit_inv (h : Inv g s) (htd : s.todo = []) (hw : s.writers = ∅) :
    Inv g { s with todo := commit g s.lh } := by
  have hok := h.ok
  rw [htd] at hok
  have hpins : (State.pins { s with todo := commit g s.lh }) = s.lh := by
    simp only [State.pins]
    split
    · rfl
    · exact unpins_commit g s.lh
  have hcore := h.core
  rw [State.pins, if_pos htd] at hcore
  refine ⟨?_, h.nodup, h.outside, h.room, ok_empty hok.1 hok.2 (ok_commit g s.lh), ?_, ?_, ?_⟩
  · rw [hpins]
    exact hcore.frame (commit g s.lh) s.lh s.panicked
  · intro hne
    apply safe_commit _ h.outside h.room
    intro he
    apply hne
    simp [commit, he]
  · intro _ n hn
    simp [hw] at hn
  · rw [unpins_commit]
    exact h.nodup

theorem Inv.next (h : Inv g s) (htd : s.todo = m :: ms) (hc : Core t (unpins ms))
    (hlh : t.lh = s.lh ∨ t.lh = []) (hw : t.writers = s.writers)
    (hh : ∀ n i b, t.hold (.user n) = .held i b → s.hold (.user n) = .held i b)
    (hok : Ok (shapes t) ms) (hsafe : Safe g ms t.lh t.stored t.disk)
    (honce : (unpins ms).Nodup) : Inv g { t with todo := ms } := by
  have hne : s.todo ≠ [] := by
    rw [htd]
    exact cons_ne_nil m ms
  have hsub : ∀ b, b ∈ t.lh → b ∈ s.lh := by
    intro b hb
    rcases hlh with he | he
    · rwa [he] at hb
    · rw [he] at hb
      cases hb
  have hpins : State.pins { t with todo := ms } = unpins ms := by
    simp only [State.pins]
    split
    · rename_i he
      rw [he] at hsafe ⊢
      exact hsafe
    · rfl
  refine ⟨?_, ?_, fun b hb => h.outside b (hsub b hb), ?_, hok, fun _ => hsafe, ?_, honce⟩
  · rw [hpins]
    exact hc.frame ms t.lh t.panicked
  · rcases hlh with he | he
    · rw [he]
      exact h.nodup
    · rw [he]
      exact nodup_nil
  · have hr := h.room
    rcases hlh with he | he
    · rwa [he]
    · rw [he]
      exact g.header
  · intro _ n hn i b hb
    rw [hw] at hn
    have := h.apart hne n hn i b (hh n i b hb)
    rw [State.busy_iff] at this ⊢
    exact fun hbusy => this (hbusy.imp_right (hsub b))

/-- A statement that keeps what commit has in hand. -/
theorem Inv.next_same (h : Inv g s) (htd : s.todo = m :: ms) (hc : Core t (unpins ms))
    (ht : t.panicked = s.panicked ∧ (t.lh = s.lh ∨ t.lh = []) ∧ t.writers = s.writers ∧
      t.hold = s.hold)
    (hok : Ok (shapes s) ms) (hsafe : Safe g ms t.lh t.stored t.disk)
    (honce : (unpins ms).Nodup) : t.panicked = s.panicked ∧ Inv g { t with todo := ms } := by
  obtain ⟨hp, hlh, hw, hh⟩ := ht
  refine ⟨hp, h.next htd hc hlh hw ?_ ?_ hsafe honce⟩
  · rw [hh]
    exact fun n i b hi => hi
  · have hs : shapes t = shapes s := by
      unfold shapes
      rw [hh]
    rw [hs]
    exact hok

theorem Inv.next_use (h : Inv g s) (htd : s.todo = m :: ms) (hc : Core t (unpins ms))
    (hu : Uses s t (.commit c) x) (hok : Ok (update (shapes s) c x.shape) ms)
    (hsafe : Safe g ms s.lh s.stored s.disk) (honce : (unpins ms).Nodup) :
    t.panicked = s.panicked ∧ Inv g { t with todo := ms } := by
  refine ⟨hu.panicked, h.next htd hc (.inl hu.lh) hu.writers ?_ ?_ ?_ honce⟩
  · intro n i b hi
    simpa [hu.hold] using hi
  · have hs : shapes t = update (shapes s) c x.shape := by
      funext d
      rcases eq_or_ne d c with rfl | hdc
      · simp [shapes, hu.hold]
      · simp [shapes, hu.hold, hdc]
    rw [hs]
    exact hok
  · rw [hu.lh, hu.stored, hu.disk]
    exact hsafe

theorem shape_held {x : Hold} (h : x.shape = .held b) : ∃ i, x = .held i b := by
  cases x <;> simp_all [Hold.shape]

/-- What commit reads from a buffer it holds is what is stored. -/
theorem Core.commit_data (h : Core s P) (hu : s.hold (.commit c) = .held i b) :
    (s.bufs i).data = s.stored b := by
  obtain ⟨hi, -, hb⟩ := h.named_held hu
  rw [← hb]
  apply h.data i hi (h.valid _ i b hu)
  intro n _ d hd
  cases h.held_unique hd hu

theorem micro_inv (h : Inv g s) (htd : s.todo = m :: ms) (hs : micro s m = some t) :
    t = { s with panicked := true } ∨ t.panicked = s.panicked ∧ Inv g { t with todo := ms } := by
  have hne : s.todo ≠ [] := by
    rw [htd]
    exact cons_ne_nil m ms
  have hok := h.ok
  have hsafe := h.safe hne
  have honce := h.once
  have hcore := h.core
  rw [State.pins, if_neg hne] at hcore
  rw [htd] at hok hsafe honce hcore
  cases m with
  | bget c b =>
    simp only [micro, Option.ite_none_right_eq_some, Option.some.injEq] at hs
    obtain ⟨hu, rfl⟩ := hs
    rcases bget_uses hcore (.commit c) b with he | ⟨i, hi⟩
    · exact .inl he
    · exact .inr (h.next_use htd (bget_core hcore hu b) hi hok.2 hsafe honce)
  | take c =>
    obtain ⟨b, hb, hok⟩ := hok
    obtain ⟨i, d, hu, hi, -⟩ := take_uses hs
    obtain rfl : d = b := by simpa [shapes, hu, Hold.shape] using hb
    exact .inr (h.next_use htd (take_core hcore hs) hi hok hsafe honce)
  | copyLog lb db =>
    obtain ⟨hl, hd, hok⟩ := hok
    obtain ⟨i, hi⟩ := shape_held hl
    obtain ⟨j, hj⟩ := shape_held hd
    obtain ⟨-, -, hsafe⟩ := hsafe
    simp only [micro, hi, hj] at hs
    rw [← hcore.commit_data hj] at hsafe
    have hcore' : Core t (unpins ms) := by
      cases hs
      exact store_core hcore hi (fun k => update_data ..) rfl rfl rfl rfl rfl rfl rfl
    have hsafe' : Safe g ms t.lh t.stored t.disk := by cases hs; exact hsafe
    exact .inr (h.next_same htd hcore' (by cases hs; exact ⟨rfl, .inl rfl, rfl, rfl⟩) hok hsafe'
      honce)
  | copyHome lb db =>
    obtain ⟨hl, hd, hok⟩ := hok
    obtain ⟨j, hj⟩ := shape_held hl
    obtain ⟨i, hi⟩ := shape_held hd
    obtain ⟨-, -, he, hsafe⟩ := hsafe
    simp only [micro, hi, hj] at hs
    -- the log block has the bytes that are stored for the home block
    have hdata : (s.bufs j).data = s.stored db := (hcore.commit_data hj).trans he
    have hcore' : Core t (unpins ms) := by
      cases hs
      refine store_core hcore hi (fun k => update_data ..) rfl rfl rfl rfl rfl rfl ?_
      rw [hdata, update_eq_self]
      rfl
    have hsafe' : Safe g ms t.lh t.stored t.disk := by
      cases hs
      rw [← hdata] at hsafe
      exact hsafe
    exact .inr (h.next_same htd hcore' (by cases hs; exact ⟨rfl, .inl rfl, rfl, rfl⟩) hok hsafe'
      honce)
  | bunpin b =>
    obtain ⟨hd, hok⟩ := hok
    obtain ⟨i, hi⟩ := shape_held hd
    obtain ⟨-, he, hsafe⟩ := hsafe
    simp only [micro, hi] at hs
    have hcons : unpins (.bunpin b :: ms) = b :: unpins ms := rfl
    rw [hcons, nodup_cons] at honce
    rw [hcons] at hcore
    have hcore' : Core t (unpins ms) := by
      cases hs
      exact bunpin_core hcore hi honce.1 he
    have hsafe' : Safe g ms t.lh t.stored t.disk := by cases hs; exact hsafe
    exact .inr (h.next_same htd hcore' (by cases hs; exact ⟨rfl, .inl rfl, rfl, rfl⟩) hok hsafe'
      honce.2)
  | header b =>
    obtain ⟨hl, hok⟩ := hok
    obtain ⟨i, hi⟩ := shape_held hl
    obtain ⟨-, hsafe⟩ := hsafe
    simp only [micro, hi] at hs
    rw [← hcore.commit_data hi] at hsafe
    have hcore' : Core t (unpins ms) := by
      cases hs
      exact store_core hcore hi (fun k => update_data ..) rfl rfl rfl rfl rfl rfl rfl
    have hsafe' : Safe g ms t.lh t.stored t.disk := by cases hs; exact hsafe
    exact .inr (h.next_same htd hcore' (by cases hs; exact ⟨rfl, .inl rfl, rfl, rfl⟩) hok hsafe'
      honce)
  | unlock c =>
    obtain ⟨b, hb, hok⟩ := hok
    obtain ⟨i, d, hu, hi, -⟩ := unlock_uses hs
    obtain rfl : d = b := by simpa [shapes, hu, Hold.shape] using hb
    exact .inr (h.next_use htd (unlock_core hcore (fun _ _ he => by cases he) hs) hi hok hsafe
      honce)
  | put c =>
    obtain ⟨b, hb, hok⟩ := hok
    exact .inr (h.next_use htd (put_core hcore hs) (put_uses hs).1 hok hsafe honce)
  | clear =>
    simp only [micro] at hs
    have hcore' : Core t (unpins ms) := by
      cases hs
      exact hcore.frame s.todo [] s.panicked
    have hsafe' : Safe g ms t.lh t.stored t.disk := by cases hs; exact hsafe
    exact .inr (h.next_same htd hcore' (by cases hs; exact ⟨rfl, .inr rfl, rfl, rfl⟩) hok hsafe'
      honce)

theorem step_inv (h : Inv g s) (hs : step g s a = some t) : Inv g t := by
  unfold step at hs
  split at hs
  · cases hs
  rename_i hp
  cases a with
  | bget n b =>
    obtain ⟨hu, he⟩ := Option.ite_none_right_eq_some.mp hs
    cases he
    exact user_bget_inv h hu b
  | take n => exact user_take_inv h hs
  | modify n d => exact modify_inv h hs
  | logWrite n => exact logWrite_inv h hs
  | bwrite n => exact bwrite_inv h hs
  | unlock n =>
    obtain ⟨hw, hs⟩ := Option.ite_none_left_eq_some.mp hs
    exact user_unlock_inv h hw hs
  | put n => exact user_put_inv h hs
  | commit =>
    obtain ⟨hc, he⟩ := Option.ite_none_right_eq_some.mp hs
    cases he
    exact commit_inv h hc.1 hc.2
  | micro =>
    dsimp only at hs
    split at hs
    · cases hs
    rename_i m ms htd
    obtain ⟨u, hu, he⟩ := Option.map_eq_some_iff.mp hs
    rcases micro_inv h htd hu with rfl | ⟨hpu, hi⟩
    · subst he
      exact panic_inv h
    · rw [if_neg (by rw [hpu]; exact hp)] at he
      subst he
      exact hi

theorem run_inv (hr : run (step g) (boot disk) as = some s) : Inv g s :=
  run_invariant (fun _ _ _ h hs => step_inv h hs) (inv_boot g disk) hr

/-- Every buffer keeps its block, and outside the log the stored bytes stay. -/
def Calm (g : Log.Geometry) (s t : State) : Prop :=
  (∀ j, (t.bufs j).name = (s.bufs j).name) ∧ ∀ b, ¬ g.Area b → t.stored b = s.stored b

/-- A statement of commit other than bget leaves every buffer its block, and stores into the log
only. -/
theorem micro_calm (h : Inv g s) (htd : s.todo = m :: ms) (hs : micro s m = some t) :
    (∃ c b, t = bget s (.commit c) ROOTDEV b) ∨ Calm g s t := by
  have hok := h.ok
  have hsafe := h.safe (by rw [htd]; exact cons_ne_nil m ms)
  rw [htd] at hok hsafe
  have hlog : ∀ c v, g.Area c → ∀ b, ¬ g.Area b → update s.stored c v b = s.stored b := by
    intro c v hc b hb
    apply update_of_ne
    rintro rfl
    exact hb hc
  cases m with
  | bget c b =>
    simp only [micro, Option.ite_none_right_eq_some, Option.some.injEq] at hs
    exact .inl ⟨c, b, hs.2.symm⟩
  | take c =>
    obtain ⟨i, b, -, hu, hn⟩ := take_uses hs
    exact .inr ⟨hn, fun _ _ => by rw [hu.stored]⟩
  | copyLog lb db =>
    obtain ⟨i, hi⟩ := shape_held hok.1
    obtain ⟨j, hj⟩ := shape_held hok.2.1
    simp only [micro, hi, hj] at hs
    cases hs
    exact .inr ⟨update_name rfl, hlog _ _ hsafe.1⟩
  | copyHome lb db =>
    simp only [micro] at hs
    split at hs
    all_goals cases hs
    exact .inr ⟨update_name rfl, fun _ _ => rfl⟩
  | bunpin d =>
    simp only [micro] at hs
    split at hs
    all_goals cases hs
    exact .inr ⟨update_name rfl, fun _ _ => rfl⟩
  | header d =>
    obtain ⟨i, hi⟩ := shape_held hok.1
    simp only [micro, hi] at hs
    cases hs
    exact .inr ⟨update_name rfl, hlog _ _ hsafe.1⟩
  | unlock c =>
    obtain ⟨i, b, -, hu, hn⟩ := unlock_uses hs
    exact .inr ⟨hn, fun _ _ => by rw [hu.stored]⟩
  | put c =>
    obtain ⟨hu, hn⟩ := put_uses hs
    exact .inr ⟨hn, fun _ _ => by rw [hu.stored]⟩
  | clear =>
    cases hs
    exact .inr ⟨fun _ => rfl, fun _ _ => rfl⟩

/-- Only bget gives a buffer to another block, and outside the log only log_write and bwrite by
the holder of a block store something for it. -/
theorem step_calm (h : Inv g s) (hs : step g s a = some t) :
    (∃ u b, t.bufs = (bget s u ROOTDEV b).bufs ∧ t.stored = (bget s u ROOTDEV b).stored) ∨
    Calm g s t ∨ (∀ j, (t.bufs j).name = (s.bufs j).name) ∧
      ∃ n i b, (a = .logWrite n ∨ a = .bwrite n) ∧ s.hold (.user n) = .held i b ∧
        t.stored = update s.stored b (s.bufs i).data := by
  unfold step at hs
  split at hs
  · cases hs
  cases a with
  | bget n b =>
    obtain ⟨-, he⟩ := Option.ite_none_right_eq_some.mp hs
    cases he
    exact .inl ⟨.user n, b, rfl, rfl⟩
  | take n =>
    obtain ⟨i, b, -, hu, hn⟩ := take_uses hs
    exact .inr (.inl ⟨hn, fun _ _ => by rw [hu.stored]⟩)
  | modify n d =>
    simp only [modify] at hs
    repeat' split at hs
    all_goals cases hs
    exact .inr (.inl ⟨update_name rfl, fun _ _ => rfl⟩)
  | logWrite n =>
    simp only [logWrite] at hs
    repeat' split at hs
    all_goals cases hs
    · exact .inr (.inl ⟨fun _ => rfl, fun _ _ => rfl⟩)
    · rename_i i c hu _ _ _
      exact .inr (.inr ⟨fun _ => rfl, n, i, c, .inl rfl, hu, rfl⟩)
    · rename_i i c hu _ _ _
      exact .inr (.inr ⟨update_name rfl, n, i, c, .inl rfl, hu, rfl⟩)
  | bwrite n =>
    simp only [bwrite] at hs
    repeat' split at hs
    all_goals cases hs
    rename_i i c hu _
    exact .inr (.inr ⟨fun _ => rfl, n, i, c, .inr rfl, hu, rfl⟩)
  | unlock n =>
    obtain ⟨-, hs⟩ := Option.ite_none_left_eq_some.mp hs
    obtain ⟨i, b, -, hu, hn⟩ := unlock_uses hs
    exact .inr (.inl ⟨hn, fun _ _ => by rw [hu.stored]⟩)
  | put n =>
    obtain ⟨hu, hn⟩ := put_uses hs
    exact .inr (.inl ⟨hn, fun _ _ => by rw [hu.stored]⟩)
  | commit =>
    obtain ⟨-, he⟩ := Option.ite_none_right_eq_some.mp hs
    cases he
    exact .inr (.inl ⟨fun _ => rfl, fun _ _ => rfl⟩)
  | micro =>
    dsimp only at hs
    split at hs
    · cases hs
    rename_i m ms htd
    obtain ⟨u, hu, rfl⟩ := Option.map_eq_some_iff.mp hs
    have hb : (if u.panicked then u else { u with todo := ms } : State).bufs = u.bufs ∧
        (if u.panicked then u else { u with todo := ms } : State).stored = u.stored := by
      split <;> exact ⟨rfl, rfl⟩
    rw [Calm, hb.1, hb.2]
    rcases micro_calm h htd hu with ⟨c, b, rfl⟩ | hc
    · exact .inl ⟨_, b, rfl, rfl⟩
    · exact .inr (.inl hc)

/-- A buffer gets another block only when it was unused, and longest of all. -/
theorem recycled_oldest (h : Inv g s) (hs : step g s a = some t)
    (hn : (t.bufs i).name ≠ (s.bufs i).name) : Oldest s i := by
  obtain ⟨l, hl⟩ := h.core.order
  rcases step_calm h hs with ⟨u, b, he, -⟩ | ⟨he, -⟩ | ⟨he, -⟩
  · rw [he] at hn
    rcases bget_cases hl u ROOTDEV b with ⟨j, -, -, -, hb⟩ | ⟨-, ⟨j, -, hold, hb⟩ | hb⟩
    · rw [hb] at hn
      refine absurd ?_ hn
      apply update_name
      rfl
    · rcases eq_or_ne i j with rfl | hij
      · exact hold
      · rw [hb] at hn
        exact absurd (congrArg Buf.name (update_of_ne hij ..)) hn
    · rw [hb] at hn
      exact absurd rfl hn
  · exact absurd (he i) hn
  · exact absurd (he i) hn

theorem step_stored (h : Inv g s) (hs : step g s a = some t) (hne : t.stored b ≠ s.stored b)
    (hb : ¬ g.Area b) :
    ∃ n i, (a = .logWrite n ∨ a = .bwrite n) ∧ s.hold (.user n) = .held i b ∧
      t.stored b = (s.bufs i).data := by
  rcases step_calm h hs with ⟨u, c, -, he⟩ | ⟨-, he⟩ | ⟨-, n, i, c, ha, hu, he⟩
  · rw [he] at hne
    rcases bget_uses h.core u c with hp | ⟨i, hi⟩
    · rw [hp] at hne
      exact absurd rfl hne
    · rw [hi.stored] at hne
      exact absurd rfl hne
  · exact absurd (he b hb) hne
  · obtain rfl : b = c := by
      by_contra hbc
      rw [he] at hne
      exact hne (update_of_ne hbc ..)
    exact ⟨n, i, ha, hu, by rw [he, update_self]⟩

theorem step_logWrite (hu : s.hold (.user n) = .held i b)
    (hs : step g s (.logWrite n) = some t) (hp : t.panicked = false) :
    t.stored b = (s.bufs i).data := by
  obtain ⟨-, hs⟩ := Option.ite_none_left_eq_some.mp hs
  simp only [logWrite, hu] at hs
  repeat' split at hs
  all_goals cases hs
  · cases hp
  · exact update_self ..
  · exact update_self ..

theorem step_bwrite (hu : s.hold (.user n) = .held i b) (hs : step g s (.bwrite n) = some t) :
    t.stored b = (s.bufs i).data ∧ t.disk b = (s.bufs i).data := by
  obtain ⟨-, hs⟩ := Option.ite_none_left_eq_some.mp hs
  simp only [bwrite, hu] at hs
  split at hs
  · cases hs
    exact ⟨update_self .., update_self ..⟩
  · cases hs

/-- What the cache promises in a state. A user that has read a block and not changed it since sees
the stored bytes. log_write and bwrite store the bytes of the buffer, bwrite on the disk as well,
and outside the log nothing else changes what is stored. A recorded block stays in its buffer until
it is installed. No block has two buffers. The list through head has every buffer once, and a
buffer is given to another block only when it has no user and has been without one for the longest
time, or was never used. -/
structure Transparent (g : Log.Geometry) (s : State) : Prop where
  reads : ∀ n i b, s.hold (.user n) = .held i b → n ∉ s.writers → (s.bufs i).data = s.stored b
  stores : ∀ a t b, step g s a = some t → t.stored b ≠ s.stored b → ¬ g.Area b →
    ∃ n i, (a = .logWrite n ∨ a = .bwrite n) ∧ s.hold (.user n) = .held i b ∧
      t.stored b = (s.bufs i).data
  logs : ∀ n i b t, s.hold (.user n) = .held i b → step g s (.logWrite n) = some t →
    t.panicked = false → t.stored b = (s.bufs i).data
  writes : ∀ n i b t, s.hold (.user n) = .held i b → step g s (.bwrite n) = some t →
    t.stored b = (s.bufs i).data ∧ t.disk b = (s.bufs i).data
  kept : ∀ b ∈ s.pins, ∃ i, i < NBUF ∧ (s.bufs i).name = (ROOTDEV, b) ∧
    ∀ a t, step g s a = some t → (t.bufs i).name = (ROOTDEV, b)
  unique : ∀ i j, i < NBUF → j < NBUF → 1 ≤ (s.bufs i).dev →
    (s.bufs j).name = (s.bufs i).name → j = i
  list : ∃ l, Circle s.links.next s.links.prev head l ∧ l.Perm (List.range NBUF)
  recycles : ∀ a t i, step g s a = some t → (t.bufs i).name ≠ (s.bufs i).name → Oldest s i
  fresh : ∀ i, i < NBUF → (s.bufs i).refcnt = 0 → (s.released i = 0 ↔ (s.bufs i).dev = 0)

theorem cache_transparent (hr : run (step g) (boot disk) as = some s) : Transparent g s := by
  have h := run_inv hr
  refine ⟨fun n i b hu hw => ?_, fun a t b hs hne hb => step_stored h hs hne hb,
    fun _ _ _ _ => step_logWrite, fun _ _ _ _ => step_bwrite, fun b hb => ?_,
    fun i j hi hj hd hn => ?_, ?_, fun a t i hs hn => recycled_oldest h hs hn,
    fun i hi hz => ?_⟩
  · obtain ⟨hi, -, hb⟩ := h.core.named_held hu
    rw [← hb]
    refine h.core.data i hi (h.core.valid _ i b hu) (fun m hm c hc => hw ?_)
    cases h.core.held_unique hu hc
    exact hm
  · obtain ⟨i, hi, hd, hbi, -⟩ := h.core.pinned b hb
    have hname : (s.bufs i).name = (ROOTDEV, b) := by rw [Buf.name, hd, hbi]
    refine ⟨i, hi, hname, fun a t hs => ?_⟩
    by_contra hn
    -- a pinned buffer has a reference, so it is not the one that bget takes
    have hold := recycled_oldest h hs (by rw [hname]; exact hn)
    have hpin := (h.core.idle hi hold.1).2.1
    have hroot := rootdev_ne
    simp [pin, hd, hbi, hb, hroot] at hpin
  · simp only [Buf.name, Prod.mk.injEq] at hn
    exact h.core.unique i j hi hj (Nat.ne_of_gt hd) hn.1 hn.2
  · obtain ⟨l, hl⟩ := h.core.order
    exact ⟨l, hl.circle, hl.perm⟩
  · constructor
    · intro hrel
      by_contra hd
      have hpos := h.core.used i hi hd hz
      omega
    · exact fun hd => (h.core.unused i hd).2

def smallLog : Log.Geometry := ⟨2, 30, by decide⟩

/-- One block is stored with bwrite. Another one is stored through the log and committed while a
third user waits for it. -/
def shared : List Act :=
  [.bget 3 60, .take 3, .modify 3 (fun _ => 9), .bwrite 3, .bget 0 50, .take 0, .bget 1 50,
    .modify 0 (fun _ => 7), .logWrite 0, .unlock 0, .put 0, .take 1, .bget 2 50, .unlock 1,
    .commit] ++ List.replicate 20 .micro ++ [.put 1] ++ List.replicate 10 .micro ++ [.take 2]

theorem cache_transparent_shared :
    ∃ s, run (step smallLog) (boot (fun _ _ => 0)) shared = some s ∧ s.pins = [] ∧
      s.hold (.user 2) = .held 1 50 ∧ s.stored 50 0 = 7 ∧ s.stored 60 0 = 9 ∧ s.disk 60 0 = 9 ∧
      Transparent smallLog s := by
  obtain ⟨s, hs, hpins, hheld, h50, h60, hdisk⟩ : ∃ s,
      run (step smallLog) (boot (fun _ _ => 0)) shared = some s ∧ s.pins = [] ∧
      s.hold (.user 2) = .held 1 50 ∧ s.stored 50 0 = 7 ∧ s.stored 60 0 = 9 ∧
      s.disk 60 0 = 9 := by decide +kernel
  exact ⟨s, hs, hpins, hheld, h50, h60, hdisk, cache_transparent hs⟩

end Xv6.Bio
