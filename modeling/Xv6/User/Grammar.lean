import Xv6.User.Shell
import Mathlib.Data.List.TakeWhile
import Mathlib.Logic.Function.Iterate

namespace Xv6.User

open List Lib

inductive Tok where
  | word (w : Word)
  | lt
  | gt
  | append
  | pipe
  | amp
  | semi
  | lparen
  | rparen
deriving DecidableEq, Repr

/-- What gettoken() returns for a token. -/
def Tok.code : Tok → Byte
  | .word _ => 97
  | .lt => 60
  | .gt => 62
  | .append => 43
  | .pipe => 124
  | .amp => 38
  | .semi => 59
  | .lparen => 40
  | .rparen => 41

/-- The symbol that a token begins with. -/
def Tok.first : Tok → Option Byte
  | .word _ => none
  | .append => some 62
  | t => some t.code

/-- The tokens of one character that no other token begins with. -/
def Tok.single : Tok → Bool
  | .word _ => false
  | .gt => false
  | .append => false
  | _ => true

/-- The tokens of a string that begins at position p: words as long as possible, and two > taken
together. -/
inductive Lex : Nat → List Byte → List Tok → Prop where
  | nil : Lex p [] []
  | space (h : whitespace.contains b = true) (tail : Lex (p + 1) l ts) : Lex p (b :: l) ts
  | single (h : t.single = true) (tail : Lex (p + 1) l ts) : Lex p (t.code :: l) (t :: ts)
  | append (tail : Lex (p + 2) l ts) : Lex p (62 :: 62 :: l) (.append :: ts)
  | gt (h : l.head? ≠ some 62) (tail : Lex (p + 1) l ts) : Lex p (62 :: l) (.gt :: ts)
  | word (w l : List Byte) (hne : w ≠ []) (hw : ∀ b ∈ w, plain b = true ∧ b ≠ 0)
      (hl : ∀ b, l.head? = some b → plain b = false) (tail : Lex (p + w.length) l ts) :
      Lex p (w ++ l) (.word ⟨p, p + w.length⟩ :: ts)

/-- redir := ('<' | '>' | '>>') word, any number of times. -/
inductive Redirs : List Tok → List Redir → Prop where
  | nil : Redirs [] []
  | input (tail : Redirs ts rs) : Redirs (.lt :: .word w :: ts) (⟨w, 0x000, 0⟩ :: rs)
  | output (tail : Redirs ts rs) : Redirs (.gt :: .word w :: ts) (⟨w, 0x601, 1⟩ :: rs)
  | append (tail : Redirs ts rs) : Redirs (.append :: .word w :: ts) (⟨w, 0x201, 1⟩ :: rs)

/-- (word redir*)*, with the words and the redirections in the order in which they are read. -/
inductive Args : List Tok → List Word → List Redir → Prop where
  | nil : Args [] [] []
  | cons (head : Redirs rts rs) (tail : Args ts ws rs') :
      Args (.word w :: (rts ++ ts)) (w :: ws) (rs ++ rs')

inductive Nonterminal where
  | line
  | pipe
  | exec

/-- The grammar of the shell, with the command that a derivation determines. -/
inductive Derives : Nonterminal → List Tok → Cmd → Prop where
  | block (line : Derives .line ts c) (redirs : Redirs rts rs) :
      Derives .exec (.lparen :: (ts ++ .rparen :: rts)) (wrap c rs)
  | args (redirs : Redirs rts rs) (args : Args ts ws rs') (h : ws.length < MAXARGS) :
      Derives .exec (rts ++ ts) (wrap (.exec ws) (rs ++ rs'))
  | one (exec : Derives .exec ts c) : Derives .pipe ts c
  | pipe (exec : Derives .exec ts c) (right : Derives .pipe ts' c') :
      Derives .pipe (ts ++ .pipe :: ts') (.pipe c c')
  | last (n : Nat) (pipe : Derives .pipe ts c) :
      Derives .line (ts ++ List.replicate n .amp) (Cmd.back^[n] c)
  | list (n : Nat) (pipe : Derives .pipe ts c) (right : Derives .line ts' c') :
      Derives .line (ts ++ (List.replicate n .amp ++ .semi :: ts')) (.list (Cmd.back^[n] c) c')

/-- The cursor stands before the tokens ts. -/
def Cursor.At (c : Cursor) (ts : List Tok) : Prop := Lex c.pos c.rest ts

/-- The next token begins with one of the symbols toks. -/
def starts (toks : List Byte) (ts : List Tok) : Bool :=
  match ts with
  | [] => false
  | t :: _ =>
    match t.first with
    | none => false
    | some b => toks.contains b

/-- What gettoken() returns before the tokens ts. -/
def headCode : List Tok → Byte
  | [] => 0
  | t :: _ => t.code

theorem single_spec {t : Tok} (h : t.single = true) : t.first = some t.code ∧ t.code ≠ 0 ∧
    whitespace.contains t.code = false ∧ symbols.contains t.code = true ∧
    (t.code = 124 ∨ t.code = 40 ∨ t.code = 41 ∨ t.code = 59 ∨ t.code = 38 ∨ t.code = 60) := by
  cases t with
  | word w => cases h
  | gt => cases h
  | append => cases h
  | _ => decide

theorem exists_single (h : symbols.contains b = true) (hb : b ≠ 62) :
    ∃ t : Tok, t.single = true ∧ t.code = b := by
  simp only [symbols, contains_cons, contains_nil, Bool.or_eq_true, beq_iff_eq,
    Bool.or_false] at h
  rcases h with rfl | rfl | rfl | rfl | rfl | rfl | rfl
  · exact ⟨.lt, rfl, rfl⟩
  · exact ⟨.pipe, rfl, rfl⟩
  · exact absurd rfl hb
  · exact ⟨.amp, rfl, rfl⟩
  · exact ⟨.semi, rfl, rfl⟩
  · exact ⟨.lparen, rfl, rfl⟩
  · exact ⟨.rparen, rfl, rfl⟩

theorem plain_space (h : plain b = true) : whitespace.contains b = false := by
  rw [plain, Bool.and_eq_true, Bool.not_eq_true'] at h
  exact h.1

theorem plain_symbol (h : plain b = true) : symbols.contains b = false := by
  rw [plain, Bool.and_eq_true, Bool.not_eq_true', Bool.not_eq_true'] at h
  exact h.2

/-- What is left behind the longest word. -/
theorem head_dropWhile (p : Byte → Bool) (l : List Byte) (b : Byte)
    (h : (l.dropWhile p).head? = some b) : p b = false := by
  have hnot := List.head?_dropWhile_not p l
  rw [h] at hnot
  simpa using hnot

/-- Every string without a NUL has tokens. -/
theorem lex_total (n : Nat) (l : List Byte) (hn : l.length ≤ n) (h0 : (0 : Byte) ∉ l) (p : Nat) :
    ∃ ts, Lex p l ts := by
  induction n generalizing l p with
  | zero =>
    rw [eq_nil_of_length_eq_zero (Nat.le_zero.mp hn)]
    exact ⟨[], .nil⟩
  | succ n ih =>
    cases l with
    | nil => exact ⟨[], .nil⟩
    | cons b l =>
      have hl : l.length ≤ n := Nat.le_of_succ_le_succ hn
      have h0' : (0 : Byte) ∉ l := fun hm => h0 (mem_cons_of_mem b hm)
      by_cases hspace : whitespace.contains b = true
      · obtain ⟨ts, hts⟩ := ih l hl h0' (p + 1)
        exact ⟨ts, .space hspace hts⟩
      by_cases hsym : symbols.contains b = true
      · by_cases hb : b = 62
        · subst hb
          cases l with
          | nil => exact ⟨[.gt], .gt (by simp) .nil⟩
          | cons c l =>
            by_cases hc : c = 62
            · subst hc
              obtain ⟨ts, hts⟩ := ih l (Nat.le_of_succ_le hl)
                (fun hm => h0' (mem_cons_of_mem _ hm)) (p + 2)
              exact ⟨.append :: ts, .append hts⟩
            · obtain ⟨ts, hts⟩ := ih (c :: l) hl h0' (p + 1)
              exact ⟨.gt :: ts, .gt (by simpa using hc) hts⟩
        · obtain ⟨t, ht, rfl⟩ := exists_single hsym hb
          obtain ⟨ts, hts⟩ := ih l hl h0' (p + 1)
          exact ⟨t :: ts, .single ht hts⟩
      · -- a word up to the next space or symbol
        have hplain : plain b = true := by
          rw [plain, Bool.eq_false_iff.mpr hspace, Bool.eq_false_iff.mpr hsym]
          rfl
        have hsplit := takeWhile_append_dropWhile (p := plain) (l := b :: l)
        have hw : (b :: l).takeWhile plain = b :: l.takeWhile plain :=
          takeWhile_cons_of_pos hplain
        have hd : (b :: l).dropWhile plain = l.dropWhile plain :=
          dropWhile_cons_of_pos hplain
        have hsub : (l.dropWhile plain).Sublist l := dropWhile_sublist plain
        obtain ⟨ts, hts⟩ := ih (l.dropWhile plain) (Nat.le_trans hsub.length_le hl)
          (fun hm => h0' (hsub.mem hm)) (p + ((b :: l).takeWhile plain).length)
        have hword := Lex.word ((b :: l).takeWhile plain) (l.dropWhile plain)
          (by rw [hw]; exact cons_ne_nil _ _) (fun c hc => ?_)
          (fun c hc => head_dropWhile plain l c hc) hts
        · rw [← hd, hsplit] at hword
          exact ⟨_, hword⟩
        · refine ⟨mem_takeWhile_imp hc, fun hz => h0 ?_⟩
          rw [← hz]
          exact (takeWhile_sublist plain).mem hc

theorem Lex.of_space (h : Lex p (b :: l) ts) (hb : whitespace.contains b = true) :
    Lex (p + 1) l ts := by
  generalize hs : b :: l = s at h
  cases h with
  | nil => cases hs
  | space _ tail =>
    cases hs
    exact tail
  | single ht _ =>
    cases hs
    rw [(single_spec ht).2.2.1] at hb
    cases hb
  | append _ =>
    cases hs
    cases hb
  | gt _ _ =>
    cases hs
    cases hb
  | word w l' hne hw _ _ =>
    cases w with
    | nil => exact absurd rfl hne
    | cons c w =>
      cases hs
      rw [plain_space (hw b mem_cons_self).1] at hb
      cases hb

/-- White space before a token does not matter. -/
theorem At.skip {c : Cursor} (h : c.At ts) : c.skip.At ts := by
  obtain ⟨p, l⟩ := c
  simp only [Cursor.At, Cursor.skip] at h ⊢
  induction l generalizing p with
  | nil => exact h
  | cons b l ih =>
    by_cases hb : whitespace.contains b = true
    · rw [takeWhile_cons_of_pos hb, dropWhile_cons_of_pos hb, length_cons,
        Nat.add_comm _ 1, ← Nat.add_assoc]
      exact ih (p + 1) (h.of_space hb)
    · rw [takeWhile_cons_of_neg hb, dropWhile_cons_of_neg hb]
      exact h

theorem skip_head (c : Cursor) (h : c.skip.rest.head? = some b) : whitespace.contains b = false :=
  head_dropWhile _ c.rest b h

/-- peek() at a token: it compares the first character. -/
theorem peek_first (h : Lex p l ts) (hs : ∀ b, l.head? = some b → whitespace.contains b = false)
    (hk : ∀ b ∈ toks, symbols.contains b = true) :
    (l.head?.any fun b => b != 0 && toks.contains b) = starts toks ts := by
  cases h with
  | nil => rfl
  | space hb _ =>
    rw [hs _ rfl] at hb
    cases hb
  | @single t _ _ _ ht _ =>
    obtain ⟨hf, h0, -⟩ := single_spec ht
    rw [starts, hf, List.head?_cons, Option.any_some, bne_iff_ne.mpr h0, Bool.true_and]
  | append _ => rfl
  | gt _ _ => rfl
  | word w l' hne hw _ _ =>
    cases w with
    | nil => exact absurd rfl hne
    | cons b w =>
      have hb := plain_symbol (hw b mem_cons_self).1
      have hnot : toks.contains b = false := by
        rw [contains_eq_mem, decide_eq_false_iff_not]
        intro hm
        rw [hk b hm] at hb
        cases hb
      rw [cons_append, List.head?_cons, Option.any_some, hnot, Bool.and_false]
      rfl

theorem peek_rule {c : Cursor} (h : c.At ts) (hk : ∀ b ∈ toks, symbols.contains b = true) :
    Ends (peek toks) c (fun r c' => r = starts toks ts ∧ c' = c.skip) := by
  have hf := peek_first (At.skip h) (fun b => skip_head c) hk
  rw [peek, ends_bind, ends_get, ends_bind, ends_set]
  split
  · rename_i hr
    rw [hr] at hf
    exact ends_pure.mpr ⟨hf, rfl⟩
  · rename_i b _ hr
    rw [hr] at hf
    exact ends_pure.mpr ⟨hf, rfl⟩

/-- A token as gettoken() reads it. -/
theorem token_rule (h : Lex p l ts)
    (hs : ∀ b, l.head? = some b → whitespace.contains b = false) :
    ∃ e, token ⟨p, l⟩ = (headCode ts, e) ∧ e.At ts.tail ∧
      ∀ w, ts.head? = some (.word w) → (⟨p, e.pos⟩ : Word) = w := by
  cases h with
  | nil => exact ⟨⟨p, []⟩, rfl, .nil, fun w hw => (nomatch hw)⟩
  | space hb _ =>
    rw [hs _ rfl] at hb
    cases hb
  | @single t l _ _ ht tail =>
    obtain ⟨-, h0, -, -, hc⟩ := single_spec ht
    refine ⟨⟨p + 1, l⟩, ?_, tail, fun w hw => ?_⟩
    · rw [token]
      dsimp only
      rw [if_neg h0, if_pos hc]
      rfl
    · cases hw
      cases ht
  | @append _ l _ tail => exact ⟨⟨p + 2, l⟩, rfl, tail, fun w hw => (nomatch hw)⟩
  | gt hl tail =>
    refine ⟨⟨p + 1, _⟩, ?_, tail, fun w hw => (nomatch hw)⟩
    rw [token]
    dsimp only
    rw [if_neg (by decide), if_neg (by decide), if_pos rfl, if_neg hl]
    rfl
  | word w l hne hw hl tail =>
    have htake : (w ++ l).takeWhile plain = w := by
      rw [takeWhile_append_of_pos (fun b hb => (hw b hb).1)]
      cases l with
      | nil => rw [takeWhile_nil, append_nil]
      | cons c l =>
        rw [takeWhile_cons_of_neg (by rw [hl c rfl]; exact Bool.false_ne_true),
          append_nil]
    have hdrop : (w ++ l).dropWhile plain = l := by
      have hsplit := takeWhile_append_dropWhile (p := plain) (l := w ++ l)
      rw [htake] at hsplit
      exact append_cancel_left hsplit
    refine ⟨⟨p + w.length, l⟩, ?_, tail, fun v hv => ?_⟩
    · cases w with
      | nil => exact absurd rfl hne
      | cons b w =>
        obtain ⟨hb, h0⟩ := hw b mem_cons_self
        have hsym := plain_symbol hb
        have hnot : ¬ (b = 124 ∨ b = 40 ∨ b = 41 ∨ b = 59 ∨ b = 38 ∨ b = 60) := by
          rintro (rfl | rfl | rfl | rfl | rfl | rfl) <;> cases hsym
        have hgt : b ≠ 62 := by
          rintro rfl
          cases hsym
        rw [cons_append] at htake hdrop ⊢
        rw [token]
        dsimp only
        rw [if_neg h0, if_neg hnot, if_neg hgt, htake, hdrop]
        rfl
    · cases hv
      rfl

theorem gettoken_rule {c : Cursor} (h : c.At ts) :
    Ends gettoken c (fun r c' => r.1 = headCode ts ∧ c'.At ts.tail ∧
      ∀ w, ts.head? = some (.word w) → r.2 = w) := by
  obtain ⟨e, he, hat, hw⟩ := token_rule (At.skip h) (fun b => skip_head c)
  rw [gettoken, ends_bind, ends_get]
  dsimp only
  rw [he]
  dsimp only
  rw [ends_bind, ends_set, ends_pure]
  exact ⟨rfl, At.skip hat, hw⟩

theorem peek_outcome {c : Cursor} {k : Bool → Sh α} {Q : α → Cursor → Prop} (h : c.At ts)
    (hk : toks ⊆ symbols) (hq : ∀ c', c'.At ts → Outcome (k (starts toks ts)) c' E Q) :
    Outcome (peek toks >>= k) c E Q := by
  have hmem : ∀ b ∈ toks, symbols.contains b = true := fun b hb => contains_iff_mem.mpr (hk hb)
  refine (peek_rule h hmem).outcome.bind ?_
  rintro _ c' ⟨rfl, rfl⟩
  exact hq c.skip (At.skip h)

theorem gettoken_outcome {c : Cursor} {k : Byte × Word → Sh α} {Q : α → Cursor → Prop}
    (h : c.At ts) (hq : ∀ w c', c'.At ts.tail → (∀ v, ts.head? = some (.word v) → w = v) →
      Outcome (k (headCode ts, w)) c' E Q) : Outcome (gettoken >>= k) c E Q := by
  refine (gettoken_rule h).outcome.bind ?_
  rintro ⟨_, w⟩ c' ⟨rfl, h', hw⟩
  exact hq w c' h' hw

theorem gettoken_cons {c : Cursor} {k : Byte × Word → Sh α} {Q : α → Cursor → Prop}
    (h : c.At (t :: ts)) (hq : ∀ w c', c'.At ts → (∀ v, t = .word v → w = v) →
      Outcome (k (t.code, w)) c' E Q) : Outcome (gettoken >>= k) c E Q :=
  gettoken_outcome h (fun w c' h' hw => hq w c' h' (fun v hv => hw v (by rw [hv]; rfl)))

/-- The only way in which the parser fails. -/
def Panics (e : Halt) : Prop := ∃ p, e = .panic p

/-- The tokens before the cursor were derived, and the cursor stands before the others. -/
def Consumed (P : List Tok → Prop) (ts : List Tok) (c : Cursor) : Prop :=
  ∃ ts1 ts2, ts = ts1 ++ ts2 ∧ P ts1 ∧ c.At ts2

theorem starts_cons (h : starts toks ts = true) : ∃ t ts', ts = t :: ts' ∧
    ∃ b, t.first = some b ∧ b ∈ toks := by
  cases ts with
  | nil => cases h
  | cons t ts =>
    refine ⟨t, ts, rfl, ?_⟩
    rw [starts] at h
    cases hf : t.first with
    | none =>
      rw [hf] at h
      cases h
    | some b =>
      rw [hf] at h
      exact ⟨b, rfl, contains_iff_mem.mp h⟩

theorem starts_redir (h : starts [60, 62] ts = true) : ∃ t ts', ts = t :: ts' ∧
    (t = .lt ∨ t = .gt ∨ t = .append) := by
  obtain ⟨t, ts', rfl, b, hb, hmem⟩ := starts_cons h
  refine ⟨t, ts', rfl, ?_⟩
  cases t with
  | lt => exact .inl rfl
  | gt => exact .inr (.inl rfl)
  | append => exact .inr (.inr rfl)
  | word w => cases hb
  | _ =>
    cases hb
    exact absurd hmem (by decide)

theorem starts_single {t : Tok} (ht : t.single = true) (h : starts [t.code] ts = true) :
    ∃ ts', ts = t :: ts' := by
  obtain ⟨t', ts', rfl, b, hb, hmem⟩ := starts_cons h
  rw [mem_singleton] at hmem
  subst hmem
  refine ⟨ts', ?_⟩
  congr 1
  cases t with
  | word w => cases ht
  | gt => cases ht
  | append => cases ht
  | _ => cases t' <;> first | rfl | cases hb

theorem word_of_code (h : headCode ts = 97) : ∃ w ts', ts = .word w :: ts' := by
  cases ts with
  | nil => cases h
  | cons t ts =>
    cases t with
    | word w => exact ⟨w, ts, rfl⟩
    | _ => cases h

theorem nil_of_code (h : headCode ts = 0) : ts = [] := by
  cases ts with
  | nil => rfl
  | cons t ts => cases t <;> cases h

theorem parseredirs_sound {c : Cursor} (h : c.At ts) (hf : ts.length < fuel) :
    Outcome (parseredirs fuel) c Panics (fun rs c' => Consumed (Redirs · rs) ts c') := by
  induction fuel generalizing c ts with
  | zero => omega
  | succ fuel ih =>
    rw [parseredirs]
    refine peek_outcome h (by decide) (fun c1 h1 => ?_)
    refine Outcome.ite (fun hs => ?_) (fun _ => ?_)
    · obtain ⟨t, ts1, rfl, ht⟩ := starts_redir hs
      refine gettoken_cons h1 (fun _ c2 h2 _ => ?_)
      refine gettoken_outcome h2 (fun w c3 h3 hw => ?_)
      refine Outcome.ite (fun hword => ?_) (fun _ => outcome_throw.mpr ⟨_, rfl⟩)
      obtain ⟨w', ts2, rfl⟩ := word_of_code hword
      obtain rfl : w = w' := hw w' rfl
      refine (ih h3 (Nat.lt_of_succ_lt (Nat.lt_of_succ_lt_succ hf))).bind (fun rs c4 h4 => ?_)
      obtain ⟨ts3, ts4, hsplit, hr, h4⟩ := h4
      rw [tail_cons] at hsplit
      rw [outcome_pure, hsplit]
      rcases ht with rfl | rfl | rfl
      · exact ⟨_, ts4, rfl, .input hr, h4⟩
      · exact ⟨_, ts4, rfl, .output hr, h4⟩
      · exact ⟨_, ts4, rfl, .append hr, h4⟩
    · rw [outcome_pure]
      exact ⟨[], ts, rfl, .nil, h1⟩

theorem parseargs_sound {c : Cursor} (h : c.At ts) (hf : ts.length < fuel)
    (hargv : argv.length < MAXARGS) :
    Outcome (parseargs fuel argv) c Panics (fun r c' => r.1.length < MAXARGS ∧
      Consumed (fun ts1 => ∃ ws, Args ts1 ws r.2 ∧ r.1 = argv ++ ws) ts c') := by
  induction fuel generalizing c ts argv with
  | zero => omega
  | succ fuel ih =>
    have hdone : ∀ (c1 : Cursor), c1.At ts → Outcome
        (do let argv ← store argv []; return (argv, []) : Sh (List Word × List Redir)) c1 Panics
        (fun r c' => r.1.length < MAXARGS ∧
          Consumed (fun ts1 => ∃ ws, Args ts1 ws r.2 ∧ r.1 = argv ++ ws) ts c') := by
      intro c1 h1
      rw [outcome_bind, store, if_pos hargv, outcome_pure, outcome_pure]
      refine ⟨?_, [], ts, rfl, ⟨[], .nil, rfl⟩, h1⟩
      rw [append_nil]
      exact hargv
    rw [parseargs]
    refine peek_outcome h (by decide) (fun c1 h1 => ?_)
    refine Outcome.ite (fun _ => hdone c1 h1) (fun _ => ?_)
    refine gettoken_outcome h1 (fun w c2 h2 hw => ?_)
    refine Outcome.ite (fun hz => ?_) (fun _ => ?_)
    · rw [nil_of_code hz] at h2 hdone ⊢
      exact hdone c2 h2
    refine Outcome.ite (fun hword => ?_) (fun _ => outcome_throw.mpr ⟨_, rfl⟩)
    obtain ⟨w', ts1, rfl⟩ := word_of_code hword
    obtain rfl : w = w' := hw w' rfl
    rw [outcome_bind, store, if_pos hargv, outcome_pure]
    refine Outcome.ite (fun _ => outcome_throw.mpr ⟨_, rfl⟩) (fun hmore => ?_)
    rw [length_cons] at hf
    refine (parseredirs_sound h2 (by rw [tail_cons]; omega)).bind (fun rs c3 h3 => ?_)
    obtain ⟨ts2, ts3, hsplit, hr, h3⟩ := h3
    rw [tail_cons] at hsplit
    subst hsplit
    rw [length_append] at hf
    refine (ih h3 (by omega) (Nat.lt_of_not_le hmore)).bind (fun r c4 h4 => ?_)
    obtain ⟨argv', rs'⟩ := r
    obtain ⟨hlen, ts4, ts5, rfl, ⟨ws, ha, hws⟩, h4⟩ := h4
    dsimp only at hlen ha hws ⊢
    rw [outcome_pure]
    refine ⟨hlen, .word w :: (ts2 ++ ts4), ts5, ?_, ⟨w :: ws, .cons hr ha, ?_⟩, h4⟩
    · rw [cons_append, append_assoc]
    · rw [hws, append_assoc]
      rfl

theorem parseback_sound {c : Cursor} (h : c.At ts) (hf : ts.length < fuel) (cmd : Cmd) :
    Outcome (parseback fuel cmd) c Panics (fun r c' =>
      Consumed (fun ts1 => ∃ n, ts1 = List.replicate n .amp ∧ r = Cmd.back^[n] cmd) ts c') := by
  induction fuel generalizing c ts cmd with
  | zero => omega
  | succ fuel ih =>
    rw [parseback]
    refine peek_outcome h (by decide) (fun c1 h1 => ?_)
    refine Outcome.ite (fun hs => ?_) (fun _ => ?_)
    · obtain ⟨ts1, rfl⟩ := starts_single (t := .amp) rfl hs
      refine gettoken_cons h1 (fun _ c2 h2 _ => ?_)
      refine (ih h2 (Nat.lt_of_succ_lt_succ hf) _).imp (fun r c3 h3 => ?_)
      obtain ⟨ts2, ts3, rfl, ⟨n, rfl, hr⟩, h3⟩ := h3
      refine ⟨.amp :: List.replicate n .amp, ts3, rfl, ⟨n + 1, rfl, ?_⟩, h3⟩
      rw [hr, Function.iterate_succ_apply]
    · rw [outcome_pure]
      exact ⟨[], ts, rfl, ⟨0, rfl, rfl⟩, h1⟩

/-- With fuel for the tokens the parser returns what the grammar derives, or it panics. -/
structure Sounds (fuel : Nat) : Prop where
  line : ∀ {c : Cursor} {ts}, c.At ts → 4 * ts.length + 4 ≤ fuel →
    Outcome (parseline fuel) c Panics (fun r c' => Consumed (Derives .line · r) ts c')
  pipe : ∀ {c : Cursor} {ts}, c.At ts → 4 * ts.length + 3 ≤ fuel →
    Outcome (parsepipe fuel) c Panics (fun r c' => Consumed (Derives .pipe · r) ts c')
  exec : ∀ {c : Cursor} {ts}, c.At ts → 4 * ts.length + 2 ≤ fuel →
    Outcome (parseexec fuel) c Panics (fun r c' => Consumed (Derives .exec · r) ts c')
  block : ∀ {c : Cursor} {ts}, c.At ts → 4 * ts.length + 1 ≤ fuel →
    Outcome (parseblock fuel) c Panics (fun r c' => Consumed (Derives .exec · r) ts c')

theorem Sounds.parseline {c : Cursor} (hs : Sounds fuel) (h : c.At ts)
    (hf : 4 * ts.length + 4 ≤ fuel + 1) :
    Outcome (parseline (fuel + 1)) c Panics (fun r c' => Consumed (Derives .line · r) ts c') := by
  rw [User.parseline]
  refine (hs.pipe h (by omega)).bind (fun cmd c1 h1 => ?_)
  obtain ⟨ts1, ts2, rfl, hp, h1⟩ := h1
  rw [length_append] at hf
  refine (parseback_sound h1 (by omega) cmd).bind (fun r c2 h2 => ?_)
  obtain ⟨ts3, ts4, rfl, ⟨n, rfl, rfl⟩, h2⟩ := h2
  rw [length_append] at hf
  refine peek_outcome h2 (by decide) (fun c3 h3 => ?_)
  refine Outcome.ite (fun hsemi => ?_) (fun _ => ?_)
  · obtain ⟨ts5, rfl⟩ := starts_single (t := .semi) rfl hsemi
    rw [length_cons] at hf
    refine gettoken_cons h3 (fun _ c4 h4 _ => ?_)
    refine (hs.line h4 (by omega)).bind (fun right c5 h5 => ?_)
    obtain ⟨ts6, ts7, rfl, hl, h5⟩ := h5
    rw [outcome_pure]
    exact ⟨_, ts7, by simp, .list n hp hl, h5⟩
  · rw [outcome_pure]
    refine ⟨_, ts4, ?_, .last n hp, h3⟩
    rw [append_assoc]

theorem Sounds.parsepipe {c : Cursor} (hs : Sounds fuel) (h : c.At ts)
    (hf : 4 * ts.length + 3 ≤ fuel + 1) :
    Outcome (parsepipe (fuel + 1)) c Panics (fun r c' => Consumed (Derives .pipe · r) ts c') := by
  rw [User.parsepipe]
  refine (hs.exec h (by omega)).bind (fun cmd c1 h1 => ?_)
  obtain ⟨ts1, ts2, rfl, he, h1⟩ := h1
  rw [length_append] at hf
  refine peek_outcome h1 (by decide) (fun c2 h2 => ?_)
  refine Outcome.ite (fun hpipe => ?_) (fun _ => ?_)
  · obtain ⟨ts3, rfl⟩ := starts_single (t := .pipe) rfl hpipe
    rw [length_cons] at hf
    refine gettoken_cons h2 (fun _ c3 h3 _ => ?_)
    refine (hs.pipe h3 (by omega)).bind (fun right c4 h4 => ?_)
    obtain ⟨ts4, ts5, rfl, hr, h4⟩ := h4
    rw [outcome_pure]
    exact ⟨_, ts5, by simp, .pipe he hr, h4⟩
  · rw [outcome_pure]
    exact ⟨ts1, ts2, rfl, .one he, h2⟩

theorem Sounds.parseblock {c : Cursor} (hs : Sounds fuel) (h : c.At ts)
    (hf : 4 * ts.length + 1 ≤ fuel + 1) :
    Outcome (parseblock (fuel + 1)) c Panics (fun r c' => Consumed (Derives .exec · r) ts c') := by
  rw [User.parseblock]
  refine peek_outcome h (by decide) (fun c1 h1 => ?_)
  refine Outcome.ite (fun hopen => ?_) (fun _ => outcome_throw.mpr ⟨_, rfl⟩)
  obtain ⟨ts1, rfl⟩ := starts_single (t := .lparen) rfl hopen
  rw [length_cons] at hf
  refine gettoken_cons h1 (fun _ c2 h2 _ => ?_)
  refine (hs.line h2 (by omega)).bind (fun cmd c3 h3 => ?_)
  obtain ⟨ts2, ts3, rfl, hl, h3⟩ := h3
  rw [length_append] at hf
  refine peek_outcome h3 (by decide) (fun c4 h4 => ?_)
  refine Outcome.ite (fun hclose => ?_) (fun _ => outcome_throw.mpr ⟨_, rfl⟩)
  obtain ⟨ts4, rfl⟩ := starts_single (t := .rparen) rfl hclose
  rw [length_cons] at hf
  refine gettoken_cons h4 (fun _ c5 h5 _ => ?_)
  refine (parseredirs_sound h5 (by omega)).bind (fun rs c6 h6 => ?_)
  obtain ⟨ts5, ts6, rfl, hr, h6⟩ := h6
  rw [outcome_pure]
  exact ⟨_, ts6, by simp, .block hl hr, h6⟩

theorem Sounds.parseexec {c : Cursor} (hs : Sounds fuel) (h : c.At ts)
    (hf : 4 * ts.length + 2 ≤ fuel + 1) :
    Outcome (parseexec (fuel + 1)) c Panics (fun r c' => Consumed (Derives .exec · r) ts c') := by
  rw [User.parseexec]
  refine peek_outcome h (by decide) (fun c1 h1 => ?_)
  refine Outcome.ite (fun _ => hs.block h1 (by omega)) (fun _ => ?_)
  refine (parseredirs_sound h1 (by omega)).bind (fun rs c2 h2 => ?_)
  obtain ⟨ts1, ts2, rfl, hr, h2⟩ := h2
  rw [length_append] at hf
  refine (parseargs_sound h2 (by omega) (by decide)).bind (fun r c3 h3 => ?_)
  obtain ⟨argv, rs'⟩ := r
  obtain ⟨hlen, ts3, ts4, rfl, ⟨ws, ha, hws⟩, h3⟩ := h3
  dsimp only at hlen ha hws ⊢
  rw [nil_append] at hws
  subst hws
  rw [outcome_pure]
  refine ⟨ts1 ++ ts3, ts4, ?_, .args hr ha hlen, h3⟩
  rw [append_assoc]

theorem sounds (fuel : Nat) : Sounds fuel := by
  induction fuel with
  | zero => exact ⟨fun _ hf => by omega, fun _ hf => by omega, fun _ hf => by omega,
      fun _ hf => by omega⟩
  | succ fuel ih => exact ⟨ih.parseline, ih.parsepipe, ih.parseexec, ih.parseblock⟩

end Xv6.User
