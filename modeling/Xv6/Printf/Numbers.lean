import Mathlib.Data.Nat.Digits.Lemmas

namespace Xv6.Printf

open List

abbrev Byte := BitVec 8

/-- The array digits of the kernel, and that of the user library. -/
def kernelDigits : List Byte := [48, 49, 50, 51, 52, 53, 54, 55, 56, 57, 97, 98, 99, 100, 101, 102]

def userDigits : List Byte := [48, 49, 50, 51, 52, 53, 54, 55, 56, 57, 65, 66, 67, 68, 69, 70]

def minus : Byte := 45

/-- buf[i++] = c, with the last character in front: in this order printint() puts them out.
Without result the store is outside buf. -/
def store (buf : List Byte) (c : Byte) : Option (List Byte) :=
  if buf.length < 16 then some (c :: buf) else none

/-- The do loop of printint(). -/
def digitLoop (digits : List Byte) (base : Nat) : Nat → Nat → List Byte → Option (List Byte)
  | 0, _, _ => none
  | fuel + 1, x, buf => do
    let buf ← store buf (digits.getD (x % base) 0)
    if x / base ≠ 0 then digitLoop digits base fuel (x / base) buf else return buf

/-- printint() for an argument of w bits. The loop is over, or outside buf, after 17 turns. -/
def printint (digits : List Byte) (xx : BitVec w) (base : Nat) (sign : Bool) :
    Option (List Byte) := do
  let neg := sign && decide (xx.toInt < 0)
  let x := if neg then (-xx).toNat else xx.toNat
  let buf ← digitLoop digits base 17 x []
  if neg then store buf minus else return buf

/-- printint() of the kernel, for a long long. -/
def kernelPrintint : BitVec 64 → Nat → Bool → Option (List Byte) := printint kernelDigits

/-- printint() of the user library, for an int. -/
def userPrintint : BitVec 32 → Nat → Bool → Option (List Byte) := printint userDigits

/-- The value of a digit, in either case. -/
def value (c : Byte) : Nat :=
  if c.toNat < 58 then c.toNat - 48 else if c.toNat < 71 then c.toNat - 55 else c.toNat - 87

def magnitude (base : Nat) (text : List Byte) : Nat :=
  text.foldl (fun n c => base * n + value c) 0

/-- The number that a text stands for. -/
def readback (base : Nat) (text : List Byte) : Int :=
  if text.head? = some minus then -(magnitude base text.tail : Int) else magnitude base text

/-- The number that an argument stands for. -/
def meant (xx : BitVec w) (sign : Bool) : Int := if sign then xx.toInt else xx.toNat

/-- The digits of a number, the last one first. -/
def places (base x : Nat) : List Nat := if x = 0 then [0] else Nat.digits base x

/-- A number with its sign. -/
def numeral (digits : List Byte) (base : Nat) (v : Int) : List Byte :=
  (if v < 0 then [minus] else []) ++ ((places base v.natAbs).map (digits.getD · 0)).reverse

/-- The number has at most 16 characters. -/
def Short (base : Nat) (v : Int) : Prop :=
  if v < 0 then v.natAbs < base ^ 15 else v.natAbs < base ^ 16

instance decidableShort (base : Nat) (v : Int) : Decidable (Short base v) :=
  inferInstanceAs (Decidable (if v < 0 then _ else _))

section
variable {base x : Nat} {digits : List Byte} {v : Int}

theorem places_eq (hb : 1 < base) (x : Nat) :
    places base x = x % base :: if x / base ≠ 0 then places base (x / base) else [] := by
  unfold places
  by_cases hx : x = 0
  · simp [hx]
  · rw [if_neg hx, Nat.digits_def' hb (Nat.pos_of_ne_zero hx)]
    by_cases hd : x / base = 0
    · simp [hd]
    · simp [hd]

theorem length_places (hb : 1 < base) (hk : 0 < k) : (places base x).length ≤ k ↔ x < base ^ k := by
  unfold places
  split
  · rename_i hx
    simp [hx, Nat.pow_pos (Nat.lt_trans Nat.zero_lt_one hb)]
    omega
  · exact Nat.digits_length_le_iff hb x

theorem digitLoop_eq (hb : 1 < base) (hf : 16 < fuel + buf.length) (x : Nat) :
    digitLoop digits base fuel x buf =
      if (places base x).length + buf.length ≤ 16 then
        some (((places base x).map (digits.getD · 0)).reverse ++ buf)
      else none := by
  induction fuel generalizing x buf with
  | zero => rw [digitLoop, if_neg (by omega)]
  | succ fuel ih =>
    rw [digitLoop, places_eq hb, store]
    split
    · rw [Option.bind_eq_bind, Option.bind_some]
      split
      · rw [ih (by rw [length_cons]; omega)]
        simp [Nat.add_assoc, Nat.add_comm 1]
      · rename_i hlen _
        simp
        omega
    · rw [if_neg (by simp; omega)]
      rfl

theorem toNat_neg {xx : BitVec w} (h : xx.toInt < 0) : (-xx).toNat = xx.toInt.natAbs := by
  have hx := BitVec.toInt_eq_toNat_cond xx
  have hlt := xx.isLt
  rw [BitVec.toNat_neg]
  split at hx
  · omega
  · rw [Nat.mod_eq_of_lt (by omega)]
    omega

/-- printint() puts out the number its argument stands for, if it fits into buf. -/
theorem printint_eq (hb : 1 < base) (xx : BitVec w) (sign : Bool) :
    printint digits xx base sign =
      if Short base (meant xx sign) then some (numeral digits base (meant xx sign)) else none := by
  unfold printint
  by_cases hneg : sign = true ∧ xx.toInt < 0
  · have hs : Short base xx.toInt ↔ (places base xx.toInt.natAbs).length ≤ 15 := by
      rw [length_places hb (by decide), Short, if_pos hneg.2]
    rw [show meant xx sign = xx.toInt from if_pos hneg.1, numeral, if_pos hneg.2]
    simp only [hneg.1, hneg.2, decide_true, Bool.and_self, if_true, toNat_neg hneg.2, hs]
    rw [digitLoop_eq hb (by decide)]
    by_cases hlen : (places base xx.toInt.natAbs).length ≤ 15
    · rw [if_pos (by simp; omega), if_pos hlen]
      simp [store, Nat.lt_succ_of_le hlen]
    · rw [if_neg hlen]
      split
      · simp [store]
        omega
      · rfl
  · have hm : 0 ≤ meant xx sign ∧ (meant xx sign).natAbs = xx.toNat := by
      have hx := BitVec.toInt_eq_toNat_cond xx
      unfold meant
      split
      · have : 0 ≤ xx.toInt := Int.not_lt.mp fun h => hneg ⟨‹_›, h⟩
        split at hx <;> omega
      · simp
    have hs : Short base (meant xx sign) ↔ (places base xx.toNat).length ≤ 16 := by
      rw [length_places hb (by decide), Short, if_neg (Int.not_lt.mpr hm.1), hm.2]
    have hf : (sign && decide (xx.toInt < 0)) = false := by simpa using hneg
    rw [numeral, if_neg (Int.not_lt.mpr hm.1), hm.2]
    simp only [hf, Bool.false_eq_true, if_false, hs]
    rw [digitLoop_eq hb (by decide)]
    simp [Option.bind_eq_bind]

/-- Every digit is written as the character for it. -/
def Writes (digits : List Byte) : Prop :=
  ∀ d < 16, value (digits.getD d 0) = d ∧ digits.getD d 0 ≠ minus

theorem writes_kernel : Writes kernelDigits := by unfold Writes; decide

theorem writes_user : Writes userDigits := by unfold Writes; decide

theorem places_lt (hb : 1 < base) (h : d ∈ places base x) : d < base := by
  unfold places at h
  split at h
  · rw [mem_singleton.mp h]
    omega
  · exact Nat.digits_lt_base hb h

theorem ofDigits_places (base x : Nat) : Nat.ofDigits base (places base x) = x := by
  unfold places
  split
  · simp [*]
  · exact Nat.ofDigits_digits base x

theorem magnitude_reverse (base : Nat) (hw : Writes digits) (hd : ∀ d ∈ ds, d < 16) :
    magnitude base ((ds.map (digits.getD · 0)).reverse) = Nat.ofDigits base ds := by
  induction ds with
  | nil => rfl
  | cons d ds ih =>
    have hih := ih fun e he => hd e (mem_cons_of_mem _ he)
    simp only [magnitude] at hih ⊢
    rw [map_cons, reverse_cons, foldl_append, hih, Nat.ofDigits_cons, foldl_cons, foldl_nil,
      (hw d (hd d mem_cons_self)).1, Nat.add_comm]

/-- The characters of a number read back give that number. -/
theorem readback_numeral (hw : Writes digits) (hb : 1 < base) (hbase : base ≤ 16) (v : Int) :
    readback base (numeral digits base v) = v := by
  have hd : ∀ d ∈ places base v.natAbs, d < 16 := fun d h => (places_lt hb h).trans_le hbase
  have hmag := magnitude_reverse base hw hd
  rw [ofDigits_places] at hmag
  unfold readback numeral
  by_cases hv : v < 0
  · simp only [if_pos hv, singleton_append, head?_cons, tail_cons, if_true, hmag]
    omega
  · rw [if_neg hv, nil_append, if_neg, hmag]
    · omega
    · intro h
      obtain ⟨d, hm, hc⟩ := mem_map.mp (mem_reverse.mp (mem_of_head? h))
      exact (hw d (hd d hm)).2 hc

end

/-- printint() of the kernel stays inside buf, and what it puts out read back is the argument,
just if the argument has at most 16 characters. -/
theorem kernel_printint_reads_back_iff (hb : base = 10 ∨ base = 16) (xx : BitVec 64)
    (sign : Bool) :
    (∃ text, kernelPrintint xx base sign = some text ∧ readback base text = meant xx sign) ↔
      Short base (meant xx sign) := by
  have h1 : 1 < base ∧ base ≤ 16 := by omega
  unfold kernelPrintint
  rw [printint_eq h1.1]
  constructor
  · rintro ⟨text, h, -⟩
    by_contra hs
    simp [hs] at h
  · intro hs
    exact ⟨_, if_pos hs, readback_numeral writes_kernel h1.1 h1.2 _⟩

theorem kernel_printint_minus_seven :
    (10 = 10 ∨ 10 = 16) ∧ kernelPrintint (-7) 10 true = some [45, 55] ∧
      ∃ text, kernelPrintint (-7) 10 true = some text ∧ readback 10 text = -7 :=
  ⟨.inl rfl, by decide +kernel,
    (kernel_printint_reads_back_iff (.inl rfl) (-7) true).mpr (by decide)⟩

/-- The number 10^16 has 17 digits; the last store of the loop is behind buf. -/
theorem kernel_printint_leaves_buf : kernelPrintint 10000000000000000 10 true = none := by
  decide +kernel

/-- The characters of every int fit into buf, so printint() of the user library loses none. -/
theorem user_printint_reads_back (hb : base = 10 ∨ base = 16) (xx : BitVec 32) (sign : Bool) :
    ∃ text, userPrintint xx base sign = some text ∧ readback base text = meant xx sign := by
  have h1 : 1 < base ∧ base ≤ 16 := by omega
  have hv : (meant xx sign).natAbs < 10 ^ 15 := by
    have hlt := xx.isLt
    have hi := BitVec.toInt_eq_toNat_cond xx
    unfold meant
    split at hi <;> split <;> omega
  have hs : Short base (meant xx sign) := by
    unfold Short
    rcases hb with rfl | rfl <;> split <;> omega
  rw [userPrintint, printint_eq h1.1, if_pos hs]
  exact ⟨_, rfl, readback_numeral writes_user h1.1 h1.2 _⟩

theorem user_printint_intMin :
    ∃ text, userPrintint (.intMin 32) 10 true = some text ∧ readback 10 text = -2147483648 :=
  user_printint_reads_back (.inl rfl) (.intMin 32) true

end Xv6.Printf
