import Mathlib.Data.Nat.Digits.Lemmas
import Mathlib.Tactic.Common

/-! # Words and numbers in bytes

A text of ASCII bytes is read from its front: white space is skipped, and then the bytes up to the
next white space make a word, or the digits up to the next other byte make a number. What
is printed as a decimal number is read back.
-/

namespace Foundations.AsciiText

def isSpace (c : UInt8) : Bool := c = 32 ∨ 9 ≤ c ∧ c ≤ 13

def isDigit (c : UInt8) : Bool := 48 ≤ c ∧ c ≤ 57

def word (text : List UInt8) : Option (List UInt8 × List UInt8) :=
  if text.dropWhile isSpace = [] then none
  else some ((text.dropWhile isSpace).takeWhile (! isSpace ·),
    (text.dropWhile isSpace).dropWhile (! isSpace ·))

def value (digits : List UInt8) : ℕ := digits.foldl (fun n c => 10 * n + (c.toNat - 48)) 0

/-- The sign in front of a number: whether it is a minus, and what is behind it. -/
def sign : List UInt8 → Bool × List UInt8
  | 45 :: text => (true, text)
  | 43 :: text => (false, text)
  | text => (false, text)

/-- The number at the front of a text behind white space and a sign, and what is behind it. -/
def number (text : List UInt8) : Option (ℤ × List UInt8) :=
  let (minus, text) := sign (text.dropWhile isSpace)
  let digits := text.takeWhile isDigit
  if digits = [] then none
  else some (if minus then -(value digits : ℤ) else value digits, text.dropWhile isDigit)

def digit (d : ℕ) : UInt8 := UInt8.ofNat (48 + d)

def decimal (n : ℕ) : List UInt8 :=
  if n = 0 then [digit 0] else (Nat.digits 10 n).reverse.map digit

variable {text rest : List UInt8} {n d : ℕ} {c : UInt8}

theorem toNat_digit (h : d < 10) : (digit d).toNat = 48 + d :=
  UInt8.toNat_ofNat_of_lt' (show 48 + d < 256 by omega)

theorem isDigit_digit (h : d < 10) : isDigit (digit d) = true := by
  have hnat := toNat_digit h
  simp only [isDigit, UInt8.le_iff_toNat_le, hnat, decide_eq_true_eq]
  exact ⟨Nat.le_add_right 48 d, by simp; omega⟩

theorem isDigit_of_mem_decimal (h : c ∈ decimal n) : isDigit c = true := by
  unfold decimal at h
  split at h
  · obtain rfl := List.mem_singleton.mp h
    exact isDigit_digit (by omega)
  · obtain ⟨d, hd, rfl⟩ := List.mem_map.mp h
    exact isDigit_digit (Nat.digits_lt_base (by omega) (List.mem_reverse.mp hd))

theorem isSpace_of_isDigit (h : isDigit c = true) : isSpace c = false := by
  simp only [isDigit, isSpace, UInt8.le_iff_toNat_le, decide_eq_true_eq, decide_eq_false_iff_not,
    ← UInt8.toNat_inj] at h ⊢
  have h48 : (48 : UInt8).toNat = 48 := rfl
  have h32 : (32 : UInt8).toNat = 32 := rfl
  have h13 : (13 : UInt8).toNat = 13 := rfl
  omega

theorem decimal_ne_nil : decimal n ≠ [] := by
  unfold decimal
  split
  · exact List.cons_ne_nil _ _
  · simpa using Nat.digits_ne_nil_iff_ne_zero.mpr ‹_›

theorem length_decimal_le {k : ℕ} (hk : 0 < k) (h : n < 10 ^ k) : (decimal n).length ≤ k := by
  unfold decimal
  split
  · exact hk
  · rw [List.length_map, List.length_reverse]
    exact (Nat.digits_length_le_iff (by omega) n).mpr h

theorem value_decimal (n : ℕ) : value (decimal n) = n := by
  unfold decimal
  split
  · rename_i hn
    rw [hn]
    rfl
  · rw [value, List.foldl_map, List.foldl_reverse]
    have hfold : ∀ ds : List ℕ, (∀ d ∈ ds, d < 10) →
        ds.foldr (fun d n => 10 * n + ((digit d).toNat - 48)) 0 = Nat.ofDigits 10 ds := by
      intro ds hds
      induction ds with
      | nil => rfl
      | cons d ds ih =>
        rw [List.foldr_cons, ih fun d' hd' => hds d' (List.mem_cons_of_mem d hd'),
          Nat.ofDigits_cons, toNat_digit (hds d List.mem_cons_self)]
        omega
    rw [hfold _ fun d hd => Nat.digits_lt_base (by omega) hd, Nat.ofDigits_digits]

/-- The bytes of a text start with other bytes than those of a kind. -/
def StartsOff (p : UInt8 → Bool) (text : List UInt8) : Prop := ∀ c ∈ text.head?, p c = false

theorem takeWhile_append_of_startsOff {p : UInt8 → Bool} (front : List UInt8)
    (hfront : ∀ c ∈ front, p c = true) (hrest : StartsOff p rest) :
    (front ++ rest).takeWhile p = front ∧ (front ++ rest).dropWhile p = rest := by
  induction front with
  | nil =>
    cases rest with
    | nil => exact ⟨rfl, rfl⟩
    | cons c rest =>
      have hc := hrest c rfl
      simp [hc]
  | cons c front ih =>
    have hc := hfront c List.mem_cons_self
    obtain ⟨htake, hdrop⟩ := ih fun d hd => hfront d (List.mem_cons_of_mem c hd)
    simp [hc, htake, hdrop]

theorem dropWhile_of_startsOff {p : UInt8 → Bool} (h : StartsOff p text) :
    text.dropWhile p = text :=
  (takeWhile_append_of_startsOff [] (by simp) h).2

theorem word_append {w : List UInt8} (hne : w ≠ []) (hw : ∀ c ∈ w, isSpace c = false)
    (hrest : StartsOff (! isSpace ·) rest) : word (w ++ rest) = some (w, rest) := by
  have hstart : StartsOff isSpace (w ++ rest) := by
    cases w with
    | nil => exact absurd rfl hne
    | cons c w =>
      rintro _ ⟨⟩
      exact hw c List.mem_cons_self
  have hsplit := takeWhile_append_of_startsOff (p := (! isSpace ·)) w
    (fun c hc => by simp [hw c hc]) hrest
  rw [word, dropWhile_of_startsOff hstart, if_neg (by simp [hne]), hsplit.1, hsplit.2]

theorem word_space (text : List UInt8) : word (32 :: text) = word text := rfl

/-- A decimal number is read up to the first other byte behind it. -/
theorem number_append (n : ℕ) (hrest : StartsOff isDigit rest) :
    number (decimal n ++ rest) = some ((n : ℤ), rest) := by
  obtain ⟨c, ds, hcons⟩ := List.exists_cons_of_ne_nil (decimal_ne_nil (n := n))
  have hc : isDigit c = true := isDigit_of_mem_decimal (n := n) (hcons ▸ List.mem_cons_self)
  have hstart : StartsOff isSpace (decimal n ++ rest) := by
    rw [hcons]
    rintro _ ⟨⟩
    exact isSpace_of_isDigit hc
  have hsign : sign (decimal n ++ rest) = (false, decimal n ++ rest) := by
    rw [hcons, List.cons_append]
    unfold sign
    split
    · rename_i he
      obtain rfl := (List.cons.inj he).1
      cases hc
    · rename_i he
      obtain rfl := (List.cons.inj he).1
      cases hc
    · rfl
  have hsplit := takeWhile_append_of_startsOff (p := isDigit) (decimal n)
    (fun c hc => isDigit_of_mem_decimal hc) hrest
  rw [number, dropWhile_of_startsOff hstart, hsign]
  dsimp only
  rw [hsplit.1, hsplit.2, if_neg decimal_ne_nil, value_decimal]
  rfl

theorem number_space (text : List UInt8) : number (32 :: text) = number text := rfl

theorem number_decimal (n : ℕ) : number (decimal n) = some ((n : ℤ), []) := by
  have hnum : number (decimal n ++ []) = some ((n : ℤ), []) :=
    number_append n (by rintro _ ⟨⟩)
  rwa [List.append_nil] at hnum

end Foundations.AsciiText
