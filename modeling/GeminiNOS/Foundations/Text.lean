import Mathlib.Data.List.DropRight
import Mathlib.Data.List.Infix
import Mathlib.Tactic.Common

/-! # Texts

Texts are lists of characters. They are stripped at both ends, split at a separator and
searched for a pattern, and a text is read as an integer. A separator that a pattern
does not have keeps the searches on its two sides apart.
-/

namespace Foundations

abbrev Text := List Char

namespace Text

def isSpace (c : Char) : Bool :=
  let n := c.toNat
  (9 ≤ n ∧ n ≤ 13) ∨ (28 ≤ n ∧ n ≤ 32) ∨ n = 0x85 ∨ n = 0xa0 ∨ n = 0x1680 ∨
    (0x2000 ≤ n ∧ n ≤ 0x200a) ∨ n = 0x2028 ∨ n = 0x2029 ∨ n = 0x202f ∨ n = 0x205f ∨ n = 0x3000

/-- A text without the characters at its ends that have a property. -/
def stripOf (p : Char → Bool) (s : Text) : Text := (s.dropWhile p).rdropWhile p

def lstrip (s : Text) : Text := s.dropWhile isSpace

def rstrip (s : Text) : Text := s.rdropWhile isSpace

def strip (s : Text) : Text := stripOf isSpace s

def split (sep : Char) : Text → List Text
  | [] => [[]]
  | c :: s => if c = sep then [] :: split sep s else (split sep s).modifyHead (c :: ·)

/-- The number that a text of ASCII digits stands for, with underscores between the digits. -/
def toNat? (s : Text) : Option ℕ :=
  if (split '_' s).all fun t => t ≠ [] && t.all Char.isDigit then
    some (Nat.ofDigitChars 10 (s.filter (· ≠ '_')) 0)
  else none

def toInt? (s : Text) : Option ℤ :=
  match strip s with
  | '-' :: s => (toNat? s).map fun n => -(n : ℤ)
  | '+' :: s => (toNat? s).map fun n => (n : ℤ)
  | s => (toNat? s).map fun n => (n : ℤ)

variable {p : Char → Bool} {s t a b pat u w : Text} {c sep : Char}

/-- A text has no characters at its ends to be stripped. -/
def Trimmed (p : Char → Bool) (s : Text) : Prop :=
  (∀ c, s.head? = some c → p c = false) ∧ ∀ c, s.getLast? = some c → p c = false

theorem dropWhile_of_head (h : ∀ c, s.head? = some c → p c = false) : s.dropWhile p = s := by
  cases s with
  | nil => rfl
  | cons c s => rw [List.dropWhile_cons_of_neg (by simp [h c rfl])]

theorem takeWhile_append_cons (hc : p c = false) : (a ++ c :: b).takeWhile p = a.takeWhile p := by
  induction a with
  | nil => exact List.takeWhile_cons_of_neg (by simp [hc])
  | cons x a ih =>
    rw [List.cons_append, List.takeWhile_cons, List.takeWhile_cons, ih]

theorem stripOf_append (hu : u.all p = true) (hw : w.all p = true) (hs : Trimmed p s) :
    stripOf p (u ++ (s ++ w)) = s := by
  have hw := List.all_eq_true.mp hw
  rw [stripOf, List.dropWhile_append_of_pos (List.all_eq_true.mp hu)]
  cases s with
  | nil =>
    rw [List.nil_append, List.dropWhile_eq_nil_iff.mpr hw]
    rfl
  | cons c s =>
    have hhead : (c :: s ++ w).dropWhile p = c :: s ++ w :=
      dropWhile_of_head fun _ hc => hs.1 _ hc
    have hw' : ∀ c ∈ w.reverse, p c = true := fun c hc => hw c (List.mem_reverse.mp hc)
    rw [hhead, List.rdropWhile, List.reverse_append, List.dropWhile_append_of_pos hw',
      dropWhile_of_head, List.reverse_reverse]
    rw [List.head?_reverse]
    exact hs.2

theorem stripOf_cons_of_pos (h : p c = true) : stripOf p (c :: s) = stripOf p s := by
  rw [stripOf, List.dropWhile_cons_of_pos h, ← stripOf]

theorem exists_stripOf_cons (h : p c = false) : ∃ t, stripOf p (c :: s) = c :: t := by
  rw [stripOf, dropWhile_of_head fun _ hc => Option.some.inj hc ▸ h]
  have hbegins := List.rdropWhile_prefix p (c :: s)
  cases hs : (c :: s).rdropWhile p with
  | nil =>
    have hc := List.rdropWhile_eq_nil_iff.mp hs c List.mem_cons_self
    rw [h] at hc
    cases hc
  | cons d t =>
    rw [hs] at hbegins
    exact ⟨t, by rw [(List.cons_prefix_cons.mp hbegins).1]⟩

theorem mem_of_mem_stripOf (h : c ∈ stripOf p s) : c ∈ s :=
  (List.dropWhile_suffix p).subset ((List.rdropWhile_prefix p _).subset h)

theorem split_cons_of_ne (h : c ≠ sep) : ∃ t ts, split sep (c :: s) = (c :: t) :: ts := by
  induction s generalizing c with
  | nil => exact ⟨[], [], by rw [split, if_neg h]; rfl⟩
  | cons c' s ih =>
    by_cases hc : c' = sep
    · exact ⟨[], split sep s, by rw [split, if_neg h, split, if_pos hc]; rfl⟩
    · obtain ⟨t, ts, ht⟩ := ih hc
      exact ⟨c' :: t, ts, by rw [split, if_neg h, ht]; rfl⟩

theorem split_of_notMem (h : sep ∉ s) : split sep s = [s] := by
  induction s with
  | nil => rfl
  | cons c s ih =>
    obtain ⟨hc, hs⟩ : sep ≠ c ∧ sep ∉ s := by simpa using h
    rw [split, if_neg hc.symm, ih hs]
    rfl

theorem split_append (h : sep ∉ a) : split sep (a ++ sep :: b) = a :: split sep b := by
  induction a with
  | nil => exact if_pos rfl
  | cons c a ih =>
    obtain ⟨hc, ha⟩ : sep ≠ c ∧ sep ∉ a := by simpa using h
    rw [List.cons_append, split, if_neg hc.symm, ih ha]
    rfl

theorem notMem_of_mem_split (h : t ∈ split sep s) : sep ∉ t := by
  induction s generalizing t with
  | nil =>
    obtain rfl := List.mem_singleton.mp h
    exact List.not_mem_nil
  | cons c s ih =>
    rw [split] at h
    split at h
    · rcases List.mem_cons.mp h with rfl | h
      · exact List.not_mem_nil
      · exact ih h
    · rename_i hc
      cases hs : split sep s with
      | nil =>
        rw [hs] at h
        cases h
      | cons t' ts =>
        rw [hs] at h ih
        rcases List.mem_cons.mp h with rfl | h
        · exact List.not_mem_cons_of_ne_of_not_mem (Ne.symm hc) (ih List.mem_cons_self)
        · exact ih (List.mem_cons_of_mem t' h)

theorem prefix_of_prefix_append (hc : c ∉ pat) (h : pat <+: a ++ c :: b) : pat <+: a := by
  have hac : a ++ [c] <+: a ++ c :: b := by simp
  rcases List.prefix_or_prefix_of_prefix h hac with h | h
  · rcases List.prefix_concat_iff.mp h with rfl | h
    · exact absurd (by simp) hc
    · exact h
  · exact absurd (h.subset (by simp)) hc

theorem infix_append_iff (hc : c ∉ pat) : pat <:+: a ++ c :: b ↔ pat <:+: a ∨ pat <:+: b := by
  constructor
  · induction a with
    | nil =>
      intro h
      rcases List.infix_cons_iff.mp h with h | h
      · exact .inl (prefix_of_prefix_append (a := []) hc h).isInfix
      · exact .inr h
    | cons x a ih =>
      intro h
      rcases List.infix_cons_iff.mp h with h | h
      · exact .inl (prefix_of_prefix_append (a := x :: a) hc h).isInfix
      · exact (ih h).imp (List.infix_cons ·) id
  · rintro (h | h)
    · exact h.trans (List.prefix_append a _).isInfix
    · exact (List.infix_cons h).trans (List.suffix_append a _).isInfix

theorem infix_append_of_disjoint (ha : ∀ c ∈ a, c ∉ pat) (hpat : pat ≠ []) :
    pat <:+: a ++ b ↔ pat <:+: b := by
  induction a with
  | nil => exact Iff.rfl
  | cons c a ih =>
    have hnil : ¬pat <:+: [] := fun h => hpat (List.infix_nil.mp h)
    rw [List.cons_append, ← List.nil_append (c :: _), infix_append_iff (ha c List.mem_cons_self),
      or_iff_right hnil, ih fun c hc => ha c (List.mem_cons_of_mem _ hc)]

abbrev digits (n : ℕ) : Text := Nat.toDigits 10 n

theorem isDigit_of_mem_digits {n : ℕ} (h : c ∈ digits n) : c.isDigit = true :=
  Nat.isDigit_of_mem_toDigits (by decide) (by decide) h

theorem notMem_digits {n : ℕ} (h : c.isDigit = false) : c ∉ digits n := fun hc => by
  rw [isDigit_of_mem_digits hc] at h
  cases h

theorem isSpace_of_isDigit (h : c.isDigit = true) : isSpace c = false := by
  have hc : 48 ≤ c.toNat ∧ c.toNat ≤ 57 := by
    simpa [Char.isDigit, UInt32.le_iff_toNat_le] using h
  simp only [isSpace, decide_eq_false_iff_not]
  omega

theorem trimmed_digits (n : ℕ) : Trimmed isSpace (digits n) := by
  refine ⟨fun c hc => ?_, fun c hc => ?_⟩
  · exact isSpace_of_isDigit (isDigit_of_mem_digits (List.mem_of_head? hc))
  · exact isSpace_of_isDigit (isDigit_of_mem_digits (List.mem_of_getLast? hc))

theorem toNat?_digits (n : ℕ) : toNat? (digits n) = some n := by
  have hsep : '_' ∉ digits n := notMem_digits (by decide)
  have hfilter : (digits n).filter (· ≠ '_') = digits n := by
    refine List.filter_eq_self.mpr fun c hc => ?_
    simpa using fun he : c = '_' => hsep (he ▸ hc)
  have hall : (digits n).all Char.isDigit = true :=
    List.all_eq_true.mpr fun c hc => isDigit_of_mem_digits hc
  rw [toNat?, split_of_notMem hsep, hfilter, Nat.ofDigitChars_ten_toDigits, if_pos]
  simp [hall, Nat.toDigits_ne_nil]

theorem toInt?_digits (n : ℕ) (hu : u.all isSpace = true) (hw : w.all isSpace = true) :
    toInt? (u ++ (digits n ++ w)) = some (n : ℤ) := by
  have hdigit : ∀ c ∈ digits n, c.isDigit = true := fun c hc => isDigit_of_mem_digits hc
  rw [toInt?, strip, stripOf_append hu hw (trimmed_digits n)]
  split
  · rename_i s hs
    exact absurd (hdigit '-' (hs ▸ List.mem_cons_self)) (by decide)
  · rename_i s hs
    exact absurd (hdigit '+' (hs ▸ List.mem_cons_self)) (by decide)
  · rw [toNat?_digits]
    rfl

theorem toInt?_of_quote (h : strip s = '"' :: t) : toInt? s = none := by
  obtain ⟨t', ts, hsplit⟩ := split_cons_of_ne (s := t) (show '"' ≠ '_' by decide)
  have hnone : toNat? ('"' :: t) = none := by
    rw [toNat?, hsplit, if_neg]
    simp
  rw [toInt?, h]
  simp [hnone]

end Text

end Foundations
