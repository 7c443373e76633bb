import Xv6.User.Grammar

namespace Xv6.User

open List Lib

/-- The symbols that may stand behind what a nonterminal derives. -/
def Nonterminal.ends : Nonterminal → List Byte
  | .line => [41]
  | .pipe => [41, 38, 59]
  | .exec => [41, 38, 59, 124]

def Follows (nt : Nonterminal) (ts : List Tok) : Prop := ts = [] ∨ starts nt.ends ts = true

/-- The function that parses a nonterminal. -/
def parser : Nonterminal → Nat → Sh Cmd
  | .line => parseline
  | .pipe => parsepipe
  | .exec => parseexec

/-- Fuel for a nonterminal and n tokens. -/
def need : Nonterminal → Nat → Nat
  | .line, n => 4 * n + 4
  | .pipe, n => 4 * n + 3
  | .exec, n => 4 * n + 2

theorem starts_mono (h : starts toks ts = true) (hs : toks ⊆ toks') : starts toks' ts = true := by
  obtain ⟨t, ts', rfl, b, hb, hmem⟩ := starts_cons h
  rw [starts, hb]
  exact contains_iff_mem.mpr (hs hmem)

theorem Follows.mono (h : Follows nt ts) (hs : nt.ends ⊆ nt'.ends) : Follows nt' ts :=
  h.imp id (fun h' => starts_mono h' hs)

/-- What may follow does not begin with another symbol. -/
theorem Follows.stops (h : Follows nt ts) (hk : ∀ b ∈ nt.ends, b ∉ toks) :
    starts toks ts = false := by
  rcases h with rfl | h
  · rfl
  · obtain ⟨t, ts', rfl, b, hb, hmem⟩ := starts_cons h
    rw [starts, hb]
    exact Bool.eq_false_iff.mpr (fun hc => hk b hmem (contains_iff_mem.mp hc))

theorem Args.stops (ha : Args ts ws rs) (h : Follows .exec ts2)
    (hk : ∀ b ∈ Nonterminal.exec.ends, b ∉ toks) : starts toks (ts ++ ts2) = false := by
  cases ha with
  | nil => exact h.stops hk
  | cons _ _ => rfl

theorem parseredirs_cons {c : Cursor} (h : c.At (t :: .word w :: ts))
    (hs : starts [60, 62] [t] = true) (hr : redircmd t.code w = some r)
    (ih : ∀ c', c'.At ts → Outcome (parseredirs fuel) c' E (fun rs' d => rs' = rs ∧ d.At ts2)) :
    Outcome (parseredirs (fuel + 1)) c E (fun rs' c' => rs' = r :: rs ∧ c'.At ts2) := by
  rw [parseredirs]
  refine peek_outcome h (by decide) (fun c1 h1 => ?_)
  refine Outcome.ite (fun _ => ?_) (fun hn => absurd hs hn)
  refine gettoken_cons h1 (fun _ c2 h2 _ => ?_)
  refine gettoken_cons h2 (fun w' c3 h3 hw => ?_)
  obtain rfl := hw w rfl
  refine Outcome.ite (fun _ => ?_) (fun hn => absurd rfl hn)
  refine (ih c3 h3).bind (fun rs' c4 h4 => ?_)
  rw [outcome_pure, hr, h4.1]
  exact ⟨rfl, h4.2⟩

theorem parseredirs_complete {c : Cursor} (hd : Redirs ts1 rs) (h : c.At (ts1 ++ ts2))
    (hstop : starts [60, 62] ts2 = false) (hf : ts1.length < fuel) :
    Outcome (parseredirs fuel) c E (fun rs' c' => rs' = rs ∧ c'.At ts2) := by
  induction fuel generalizing c ts1 rs with
  | zero => cases hf
  | succ fuel ih =>
    cases hd with
    | nil =>
      rw [parseredirs]
      refine peek_outcome h (by decide) (fun c1 h1 => ?_)
      rw [nil_append, hstop]
      exact ⟨rfl, h1⟩
    | input tail =>
      exact parseredirs_cons h rfl rfl (fun c' h' => ih tail h' (by simp at hf; omega))
    | output tail =>
      exact parseredirs_cons h rfl rfl (fun c' h' => ih tail h' (by simp at hf; omega))
    | append tail =>
      exact parseredirs_cons h rfl rfl (fun c' h' => ih tail h' (by simp at hf; omega))

/-- The loop over the words stops at what may follow a command. -/
theorem parseargs_stop {c : Cursor} (h : c.At ts2) (hfol : Follows .exec ts2)
    (hlen : argv.length < MAXARGS) :
    Outcome (parseargs (fuel + 1) argv) c E (fun r c' => r = (argv, []) ∧ c'.At ts2) := by
  have hdone : ∀ c1 : Cursor, c1.At ts2 → Outcome
      (do let argv ← store argv []; return (argv, []) : Sh (List Word × List Redir)) c1 E
      (fun r c' => r = (argv, []) ∧ c'.At ts2) := by
    intro c1 h1
    rw [outcome_bind, store, if_pos hlen, outcome_pure, outcome_pure, append_nil]
    exact ⟨rfl, h1⟩
  rw [parseargs]
  refine peek_outcome h (by decide) (fun c1 h1 => ?_)
  rcases hfol with rfl | hs
  · refine gettoken_outcome h1 (fun _ c2 h2 _ => ?_)
    exact Outcome.ite (fun _ => hdone c2 h2) (fun hn => absurd rfl hn)
  · exact Outcome.ite (fun _ => hdone c1 h1) (fun hn => absurd (starts_mono hs (by decide)) hn)

theorem parseargs_complete {c : Cursor} (ha : Args ts1 ws rs) (h : c.At (ts1 ++ ts2))
    (hfol : Follows .exec ts2) (hlen : argv.length + ws.length < MAXARGS)
    (hf : ts1.length < fuel) :
    Outcome (parseargs fuel argv) c E (fun r c' => r = (argv ++ ws, rs) ∧ c'.At ts2) := by
  induction fuel generalizing c ts1 ws rs argv with
  | zero => cases hf
  | succ fuel ih =>
    cases ha with
    | nil =>
      rw [append_nil]
      exact parseargs_stop h hfol hlen
    | @cons rts rs ts ws rs' w head tail =>
      rw [length_cons, length_append] at hf
      rw [length_cons] at hlen
      have hroom : argv.length < MAXARGS := by omega
      have hmore : (argv ++ [w]).length < MAXARGS := by
        rw [length_append, length_singleton]
        omega
      rw [cons_append, append_assoc] at h
      rw [parseargs]
      refine peek_outcome h (by decide) (fun c1 h1 => ?_)
      refine gettoken_cons h1 (fun v c2 h2 hw => ?_)
      obtain rfl := hw w rfl
      dsimp only
      rw [Tok.code, if_neg (by decide), if_pos rfl, outcome_bind, store, if_pos hroom,
        outcome_pure, if_neg (Nat.not_le_of_lt hmore)]
      refine (parseredirs_complete head h2 (tail.stops hfol (by decide)) (by omega)).bind ?_
      rintro _ c3 ⟨rfl, h3⟩
      refine (ih tail h3 (by rw [length_append, length_singleton]; omega)
        (by omega)).bind ?_
      rintro _ c4 ⟨rfl, h4⟩
      dsimp only
      rw [outcome_pure, append_assoc]
      exact ⟨rfl, h4⟩

theorem parseback_complete {c : Cursor} (n : Nat) (h : c.At (List.replicate n .amp ++ ts2))
    (hstop : starts [38] ts2 = false) (hf : n < fuel) (cmd : Cmd) :
    Outcome (parseback fuel cmd) c E (fun r c' => r = Cmd.back^[n] cmd ∧ c'.At ts2) := by
  induction fuel generalizing c n cmd with
  | zero => cases hf
  | succ fuel ih =>
    rw [parseback]
    refine peek_outcome h (by decide) (fun c1 h1 => ?_)
    cases n with
    | zero =>
      rw [replicate_zero, nil_append, hstop]
      exact ⟨rfl, h1⟩
    | succ n =>
      refine gettoken_cons h1 (fun _ c2 h2 _ => ?_)
      exact ih n h2 (Nat.lt_of_succ_lt_succ hf) (.back cmd)

/-- What a derivation derives is parsed, and the parser stops behind it. -/
theorem Derives.complete {c : Cursor} (hd : Derives nt ts1 cmd) (h : c.At (ts1 ++ ts2))
    (hfol : Follows nt ts2) (hf : need nt ts1.length ≤ fuel) :
    Outcome (parser nt fuel) c E (fun r c' => r = cmd ∧ c'.At ts2) := by
  induction hd generalizing c fuel ts2 with
  | @block ts cmd rts rs line redirs ih =>
    simp only [need, length_cons, length_append] at hf
    obtain ⟨fuel, rfl⟩ : ∃ k, fuel = k + 2 := ⟨fuel - 2, by omega⟩
    rw [cons_append, append_assoc] at h
    change Outcome (parseexec (fuel + 1 + 1)) c E _
    rw [parseexec]
    refine peek_outcome h (by decide) (fun c1 h1 => ?_)
    change Outcome (parseblock (fuel + 1)) c1 E _
    rw [parseblock]
    refine peek_outcome h1 (by decide) (fun c2 h2 => ?_)
    refine gettoken_cons h2 (fun _ c3 h3 _ => ?_)
    refine (ih h3 (.inr rfl) (by simp only [need]; omega)).bind ?_
    rintro _ c4 ⟨rfl, h4⟩
    refine peek_outcome h4 (by decide) (fun c5 h5 => ?_)
    refine gettoken_cons h5 (fun _ c6 h6 _ => ?_)
    refine (parseredirs_complete redirs h6 (hfol.stops (by decide)) (by omega)).bind ?_
    rintro _ c7 ⟨rfl, h7⟩
    exact ⟨rfl, h7⟩
  | @args rts rs ts ws rs' redirs args hlen =>
    simp only [need, length_append] at hf
    obtain ⟨fuel, rfl⟩ : ∃ k, fuel = k + 1 := ⟨fuel - 1, by omega⟩
    rw [append_assoc] at h
    have hopen : starts [40] (rts ++ (ts ++ ts2)) = false := by
      cases redirs with
      | nil => exact args.stops hfol (by decide)
      | _ => rfl
    change Outcome (parseexec (fuel + 1)) c E _
    rw [parseexec]
    refine peek_outcome h (by decide) (fun c1 h1 => ?_)
    rw [hopen, if_neg Bool.false_ne_true]
    refine (parseredirs_complete redirs h1 (args.stops hfol (by decide)) (by omega)).bind ?_
    rintro _ c2 ⟨rfl, h2⟩
    refine (parseargs_complete args h2 hfol (by rw [length_nil]; omega) (by omega)).bind ?_
    rintro _ c3 ⟨rfl, h3⟩
    exact ⟨rfl, h3⟩
  | one exec ih =>
    simp only [need] at hf
    obtain ⟨fuel, rfl⟩ : ∃ k, fuel = k + 1 := ⟨fuel - 1, by omega⟩
    change Outcome (parsepipe (fuel + 1)) c E _
    rw [parsepipe]
    refine (ih h (hfol.mono (by decide)) (by simp only [need]; omega)).bind ?_
    rintro _ c1 ⟨rfl, h1⟩
    refine peek_outcome h1 (by decide) (fun c2 h2 => ?_)
    rw [hfol.stops (by decide)]
    exact ⟨rfl, h2⟩
  | pipe exec right ih ihr =>
    simp only [need, length_append, length_cons] at hf
    obtain ⟨fuel, rfl⟩ : ∃ k, fuel = k + 1 := ⟨fuel - 1, by omega⟩
    rw [append_assoc] at h
    change Outcome (parsepipe (fuel + 1)) c E _
    rw [parsepipe]
    refine (ih h (.inr rfl) (by simp only [need]; omega)).bind ?_
    rintro _ c1 ⟨rfl, h1⟩
    refine peek_outcome h1 (by decide) (fun c2 h2 => ?_)
    refine gettoken_cons h2 (fun _ c3 h3 _ => ?_)
    refine (ihr h3 hfol (by simp only [need]; omega)).bind ?_
    rintro _ c4 ⟨rfl, h4⟩
    exact ⟨rfl, h4⟩
  | last n pipe ih =>
    simp only [need, length_append, length_replicate] at hf
    obtain ⟨fuel, rfl⟩ : ∃ k, fuel = k + 1 := ⟨fuel - 1, by omega⟩
    rw [append_assoc] at h
    change Outcome (parseline (fuel + 1)) c E _
    rw [parseline]
    have hamp : Follows .pipe (List.replicate n .amp ++ ts2) := by
      cases n with
      | zero => exact hfol.mono (by decide)
      | succ n => exact .inr rfl
    refine (ih h hamp (by simp only [need]; omega)).bind ?_
    rintro _ c1 ⟨rfl, h1⟩
    refine (parseback_complete n h1 (hfol.stops (by decide)) (by omega) _).bind ?_
    rintro _ c2 ⟨rfl, h2⟩
    refine peek_outcome h2 (by decide) (fun c3 h3 => ?_)
    rw [hfol.stops (by decide)]
    exact ⟨rfl, h3⟩
  | list n pipe right ih ihr =>
    simp only [need, length_append, length_cons, length_replicate] at hf
    obtain ⟨fuel, rfl⟩ : ∃ k, fuel = k + 1 := ⟨fuel - 1, by omega⟩
    rw [append_assoc, append_assoc] at h
    change Outcome (parseline (fuel + 1)) c E _
    rw [parseline]
    have hamp : ∀ ts, Follows .pipe (List.replicate n .amp ++ .semi :: ts) := by
      intro ts
      cases n with
      | zero => exact .inr rfl
      | succ n => exact .inr rfl
    refine (ih h (hamp _) (by simp only [need]; omega)).bind ?_
    rintro _ c1 ⟨rfl, h1⟩
    refine (parseback_complete n h1 rfl (by omega) _).bind ?_
    rintro _ c2 ⟨rfl, h2⟩
    refine peek_outcome h2 (by decide) (fun c3 h3 => ?_)
    refine gettoken_cons h3 (fun _ c4 h4 _ => ?_)
    refine (ihr h4 hfol (by simp only [need]; omega)).bind ?_
    rintro _ c5 ⟨rfl, h5⟩
    exact ⟨rfl, h5⟩

theorem Lex.length_le (h : Lex p l ts) : ts.length ≤ l.length := by
  induction h with
  | nil => exact Nat.le_refl 0
  | space _ _ ih => exact Nat.le_succ_of_le ih
  | single _ _ ih => exact Nat.succ_le_succ ih
  | append _ ih => exact Nat.le_succ_of_le (Nat.succ_le_succ ih)
  | gt _ _ ih => exact Nat.succ_le_succ ih
  | word w l hne _ _ _ ih =>
    have hpos := length_pos_of_ne_nil hne
    rw [length_cons, length_append]
    omega

/-- Behind white space, the end of the string is the end of the tokens. -/
theorem At.rest_nil {c : Cursor} (h : c.At ts) : c.skip.rest = [] ↔ ts = [] := by
  have hl := At.skip h
  have hs := fun b => skip_head (b := b) c
  rw [Cursor.At] at hl
  generalize c.skip.rest = l at hl hs
  cases hl with
  | nil => simp
  | space hb _ =>
    rw [hs _ rfl] at hb
    cases hb
  | word w l hne _ _ _ => simp [hne]
  | _ => simp

theorem parsetree_sound (h : Lex 0 s ts) (hf : 4 * ts.length + 4 ≤ fuel) :
    Outcome (parsetree fuel) ⟨0, s⟩ Panics (fun cmd _ => Derives .line ts cmd) := by
  rw [parsetree]
  refine ((sounds fuel).line (c := ⟨0, s⟩) h hf).bind (fun cmd c1 h1 => ?_)
  obtain ⟨ts1, ts2, rfl, hd, h1⟩ := h1
  refine (peek_rule h1 (by simp)).outcome.bind ?_
  rintro _ c2 ⟨-, rfl⟩
  rw [outcome_bind, outcome_get]
  refine Outcome.ite (fun hnil => ?_) (fun _ => outcome_throw.mpr ⟨_, rfl⟩)
  rw [outcome_pure, (At.rest_nil h1).mp (isEmpty_iff.mp hnil), append_nil]
  exact hd

theorem parsetree_complete (hd : Derives .line ts cmd) (h : Lex 0 s ts)
    (hf : 4 * ts.length + 4 ≤ fuel) :
    Outcome (parsetree fuel) ⟨0, s⟩ E (fun r _ => r = cmd) := by
  rw [parsetree]
  have h' : Cursor.At ⟨0, s⟩ (ts ++ []) := by rwa [append_nil]
  refine (hd.complete h' (.inl rfl) hf).bind ?_
  rintro _ c1 ⟨rfl, h1⟩
  refine (peek_rule h1 (by simp)).outcome.bind ?_
  rintro _ c2 ⟨-, rfl⟩
  rw [outcome_bind, outcome_get, (At.rest_nil h1).mpr rfl]
  exact rfl

theorem parsecmd_ok : parsecmd s = .ok (cmd, buf) ↔
    (∃ c, (parsetree (4 * s.length + 8)).run ⟨0, s⟩ = .ok (cmd, c)) ∧
      buf = nulterminate cmd (s ++ [0]) := by
  rw [parsecmd]
  cases (parsetree (4 * s.length + 8)).run ⟨0, s⟩ with
  | error e => simp
  | ok r =>
    obtain ⟨cmd', c⟩ := r
    simp only [Except.ok.injEq, Prod.mk.injEq, exists_eq_right']
    constructor
    · rintro ⟨rfl, rfl⟩
      exact ⟨rfl, rfl⟩
    · rintro ⟨rfl, rfl⟩
      exact ⟨rfl, rfl⟩

theorem parsecmd_error (h : parsecmd s = .error e) :
    (parsetree (4 * s.length + 8)).run ⟨0, s⟩ = .error e := by
  rw [parsecmd] at h
  cases hr : (parsetree (4 * s.length + 8)).run ⟨0, s⟩ with
  | error e' =>
    rw [hr] at h
    cases h
    rfl
  | ok r =>
    rw [hr] at h
    cases h

/-- parsecmd() returns a command exactly when the tokens derive one, and then that one. Otherwise
it calls panic(): no loop goes on for ever, and no word is stored behind the end of argv. -/
theorem parsecmd_accepts_grammar (s : List Byte) (h0 : (0 : Byte) ∉ s) :
    (∃ ts, Lex 0 s ts) ∧
    (∀ ts cmd, Lex 0 s ts → ((∃ buf, parsecmd s = .ok (cmd, buf)) ↔ Derives .line ts cmd)) ∧
    ∀ e, parsecmd s = .error e → ∃ p, e = .panic p := by
  have hfuel : ∀ {ts}, Lex 0 s ts → 4 * ts.length + 4 ≤ 4 * s.length + 8 := by
    intro ts h
    have hle := h.length_le
    omega
  obtain ⟨ts0, h⟩ := lex_total s.length s (Nat.le_refl _) h0 0
  refine ⟨⟨ts0, h⟩, fun ts cmd hts => ⟨?_, ?_⟩, fun e he => ?_⟩
  · rintro ⟨buf, hp⟩
    obtain ⟨⟨c, hr⟩, -⟩ := parsecmd_ok.mp hp
    exact (parsetree_sound hts (hfuel hts)).returns hr
  · intro hd
    obtain ⟨_, c, hr, rfl⟩ := (parsetree_complete hd hts (hfuel hts)).ends
    exact ⟨_, parsecmd_ok.mpr ⟨⟨c, hr⟩, rfl⟩⟩
  · exact (parsetree_sound h (hfuel h)).stops (parsecmd_error he)

/-- The line "a>b|c;d&". -/
def abutting : List Byte := [97, 62, 98, 124, 99, 59, 100, 38]

theorem parsecmd_accepts_grammar_abutting : ∃ ts, Lex 0 abutting ts ∧ Derives .line ts
    (.list (.pipe (.redir (.exec [⟨0, 1⟩]) ⟨⟨2, 3⟩, 0x601, 1⟩) (.exec [⟨4, 5⟩]))
      (.back (.exec [⟨6, 7⟩]))) := by
  obtain ⟨⟨ts, h⟩, hiff, -⟩ := parsecmd_accepts_grammar abutting (by decide)
  exact ⟨ts, h, (hiff ts _ h).mp ⟨_, rfl⟩⟩

end Xv6.User
