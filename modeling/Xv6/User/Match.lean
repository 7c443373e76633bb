import Mathlib.Data.List.Basic

namespace Xv6.Grep

/-- Strings are the lists of their characters before the NUL. -/
abbrev Byte := BitVec 8

def caret : Byte := 94
def dollar : Byte := 36
def dot : Byte := 46
def star : Byte := 42

/-- The loop of matchstar(); here is matchhere() with the rest of the pattern. -/
def matchstar (here : List Byte → Bool) (c : Byte) : List Byte → Bool
  | [] => here []
  | b :: text => here (b :: text) || (b == c || c == dot) && matchstar here c text

/-- The part of matchhere() for one character, before the call for the rest. -/
def matchone (rest : List Byte → Bool) (c : Byte) : List Byte → Bool
  | [] => false
  | b :: text => (c == dot || c == b) && rest text

def matchhere : List Byte → List Byte → Bool
  | [], _ => true
  | [c], text => if c = dollar then text.isEmpty else matchone (matchhere []) c text
  | c :: d :: re, text =>
    if d = star then matchstar (matchhere re) c text else matchone (matchhere (d :: re)) c text

/-- The loop of match(). -/
def matchFrom (re : List Byte) : List Byte → Bool
  | [] => matchhere re []
  | b :: text => matchhere re (b :: text) || matchFrom re text

/-- match() -/
def matchText (re text : List Byte) : Bool :=
  if re.head? = some caret then matchhere re.tail text else matchFrom re text

/-- A character or '.' of a pattern, alone or with a star. -/
structure Item where
  c : Byte
  starred : Bool
deriving DecidableEq

/-- A pattern read from left to right. -/
def items : List Byte → List Item
  | [] => []
  | [c] => [⟨c, false⟩]
  | c :: d :: re => if d = star then ⟨c, true⟩ :: items re else ⟨c, false⟩ :: items (d :: re)

/-- The character b is one that c stands for. -/
def Admits (c b : Byte) : Prop := c = dot ∨ c = b

/-- The strings that a list of items describes. -/
inductive Describes : List Item → List Byte → Prop where
  | nil : Describes [] []
  | one (h : Admits c b) (tail : Describes is text) : Describes (⟨c, false⟩ :: is) (b :: text)
  | many (h : ∀ b ∈ rep, Admits c b) (tail : Describes is text) :
      Describes (⟨c, true⟩ :: is) (rep ++ text)

/-- The last item is a '$' without a star: it stands for the end of the text. -/
def AtEnd (is : List Item) : Prop := is.getLast? = some ⟨dollar, false⟩

instance decidableAtEnd : Decidable (AtEnd is) := inferInstanceAs (Decidable (_ = _))

/-- The items that stand for characters. -/
def body (is : List Item) : List Item := if AtEnd is then is.dropLast else is

/-- The items are found at the beginning of the text. -/
def Begins (is : List Item) (text : List Byte) : Prop :=
  ∃ mid post, text = mid ++ post ∧ (AtEnd is → post = []) ∧ Describes (body is) mid

/-- Some part of the text is described by the pattern: one at its beginning after a '^', and one
at its end before a '$'. -/
def Finds (re text : List Byte) : Prop :=
  ∃ front mid post, text = front ++ (mid ++ post) ∧
    if re.head? = some caret then
      front = [] ∧ (AtEnd (items re.tail) → post = []) ∧ Describes (body (items re.tail)) mid
    else (AtEnd (items re) → post = []) ∧ Describes (body (items re)) mid

section
variable {is : List Item} {i : Item} {here : List Byte → Bool} {text : List Byte}

theorem atEnd_cons (h : is ≠ [] ∨ i ≠ ⟨dollar, false⟩) : AtEnd (i :: is) ↔ AtEnd is := by
  cases is with
  | nil => simpa [AtEnd] using h
  | cons j is => simp [AtEnd]

theorem body_cons (h : is ≠ [] ∨ i ≠ ⟨dollar, false⟩) : body (i :: is) = i :: body is := by
  unfold body
  cases is with
  | nil =>
    have hi : i ≠ ⟨dollar, false⟩ := by simpa using h
    simp [AtEnd, hi]
  | cons j is =>
    rw [if_congr (atEnd_cons h) rfl rfl]
    split <;> simp

theorem items_cons_ne (d : Byte) (re : List Byte) : items (d :: re) ≠ [] := by
  cases re with
  | nil => simp [items]
  | cons e re =>
    rw [items]
    split <;> simp

/-- A single item takes one character, and the others begin behind it. -/
theorem begins_one (h : is ≠ [] ∨ c ≠ dollar) :
    Begins (⟨c, false⟩ :: is) text ↔ ∃ b rest, text = b :: rest ∧ Admits c b ∧ Begins is rest := by
  have h' : is ≠ [] ∨ (⟨c, false⟩ : Item) ≠ ⟨dollar, false⟩ := by simpa using h
  simp only [Begins, atEnd_cons h', body_cons h']
  constructor
  · rintro ⟨mid, post, rfl, hpost, hd⟩
    cases hd with
    | one hb tail => exact ⟨_, _, rfl, hb, _, _, rfl, hpost, tail⟩
  · rintro ⟨b, rest, rfl, hb, mid, post, rfl, hpost, hd⟩
    exact ⟨b :: mid, post, rfl, hpost, .one hb hd⟩

theorem begins_many : Begins (⟨c, true⟩ :: is) text ↔
    ∃ rep rest, text = rep ++ rest ∧ (∀ b ∈ rep, Admits c b) ∧ Begins is rest := by
  have h' : is ≠ [] ∨ (⟨c, true⟩ : Item) ≠ ⟨dollar, false⟩ := by simp
  simp only [Begins, atEnd_cons h', body_cons h']
  constructor
  · rintro ⟨mid, post, rfl, hpost, hd⟩
    cases hd with
    | many hb tail => exact ⟨_, _, List.append_assoc .., hb, _, _, rfl, hpost, tail⟩
  · rintro ⟨rep, rest, rfl, hb, mid, post, rfl, hpost, hd⟩
    exact ⟨rep ++ mid, post, (List.append_assoc ..).symm, hpost, .many hb hd⟩

theorem admits_of_star : (b == c || c == dot) = true ↔ Admits c b := by
  rw [Bool.or_eq_true, beq_iff_eq, beq_iff_eq, Admits, or_comm, eq_comm (a := b)]

/-- The loop tries every number of repetitions. -/
theorem matchstar_iff : matchstar here c text = true ↔
    ∃ rep rest, text = rep ++ rest ∧ (∀ b ∈ rep, Admits c b) ∧ here rest = true := by
  induction text with
  | nil =>
    rw [matchstar]
    constructor
    · exact fun h => ⟨[], [], rfl, by simp, h⟩
    · rintro ⟨rep, rest, he, -, h⟩
      rwa [(List.append_eq_nil_iff.mp he.symm).2] at h
  | cons b text ih =>
    rw [matchstar, Bool.or_eq_true, Bool.and_eq_true, ih]
    constructor
    · rintro (h | ⟨hb, rep, rest, rfl, hrep, h⟩)
      · exact ⟨[], _, rfl, by simp, h⟩
      · exact ⟨b :: rep, rest, rfl, by simpa using ⟨admits_of_star.mp hb, hrep⟩, h⟩
    · rintro ⟨rep, rest, he, hrep, h⟩
      cases rep with
      | nil => exact .inl (he ▸ h)
      | cons a rep =>
        cases he
        exact .inr ⟨admits_of_star.mpr (hrep b (by simp)), rep, rest, rfl,
          fun x hx => hrep x (.tail _ hx), h⟩

theorem begins_nil (text : List Byte) : Begins [] text :=
  ⟨[], text, rfl, fun h => (nomatch h), .nil⟩

/-- A single '$' at the end takes nothing and finds the end of the text. -/
theorem begins_dollar : Begins [⟨dollar, false⟩] text ↔ text = [] := by
  constructor
  · rintro ⟨mid, post, rfl, hpost, hd⟩
    rw [hpost rfl]
    cases hd
    rfl
  · rintro rfl
    exact ⟨[], [], rfl, fun _ => rfl, .nil⟩

theorem matchone_iff : matchone here c text = true ↔
    ∃ b rest, text = b :: rest ∧ Admits c b ∧ here rest = true := by
  cases text with
  | nil => simp [matchone]
  | cons b text => simp [matchone, Admits]

theorem matchhere_iff (re text : List Byte) :
    matchhere re text = true ↔ Begins (items re) text := by
  induction re using items.induct generalizing text with
  | case1 => simp [matchhere, items, begins_nil]
  | case2 c =>
    rw [items, matchhere]
    split
    · rename_i hc
      rw [hc, begins_dollar, List.isEmpty_iff]
    · rename_i hc
      rw [begins_one (.inr hc), matchone_iff]
      simp [matchhere, begins_nil]
  | case3 c re ih =>
    rw [items, matchhere, if_pos rfl, if_pos rfl, begins_many, matchstar_iff]
    simp only [ih]
  | case4 c d re hd ih =>
    rw [items, matchhere, if_neg hd, if_neg hd, begins_one (.inl (items_cons_ne d re)), matchone_iff]
    simp only [ih]

theorem matchFrom_iff (re text : List Byte) : matchFrom re text = true ↔
    ∃ front rest, text = front ++ rest ∧ Begins (items re) rest := by
  induction text with
  | nil =>
    rw [matchFrom, matchhere_iff]
    constructor
    · exact fun h => ⟨[], [], rfl, h⟩
    · rintro ⟨front, rest, he, h⟩
      rwa [(List.append_eq_nil_iff.mp he.symm).2] at h
  | cons b text ih =>
    rw [matchFrom, Bool.or_eq_true, matchhere_iff, ih]
    constructor
    · rintro (h | ⟨front, rest, rfl, h⟩)
      · exact ⟨[], _, rfl, h⟩
      · exact ⟨b :: front, rest, rfl, h⟩
    · rintro ⟨front, rest, he, h⟩
      cases front with
      | nil => exact .inl (he ▸ h)
      | cons a front =>
        cases he
        exact .inr ⟨front, rest, rfl, h⟩

/-- match() finds what the pattern describes. -/
theorem matcher_implements_language (re text : List Byte) :
    matchText re text = true ↔ Finds re text := by
  unfold matchText Finds
  split
  · rw [matchhere_iff]
    constructor
    · rintro ⟨mid, post, he, h⟩
      exact ⟨[], mid, post, he, rfl, h⟩
    · rintro ⟨front, mid, post, he, rfl, h⟩
      exact ⟨mid, post, he, h⟩
  · rw [matchFrom_iff]
    constructor
    · rintro ⟨front, rest, rfl, mid, post, rfl, h⟩
      exact ⟨front, mid, post, rfl, h⟩
    · rintro ⟨front, mid, post, rfl, h⟩
      exact ⟨front, _, rfl, mid, post, rfl, h⟩

end

-- "a*$" in "ba", "^*" in "*a", and "a$b" in "xa$b"
example : matchText [97, 42, 36] [98, 97] = true ∧ matchText [94, 42] [42, 97] = true ∧
    matchText [97, 36, 98] [120, 97, 36, 98] = true := by decide

end Xv6.Grep
