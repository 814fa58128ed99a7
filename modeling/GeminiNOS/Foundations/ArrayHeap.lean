import Mathlib.Logic.Equiv.Basic
import Mathlib.Order.Basic
import Mathlib.Order.Interval.Set.Defs
import Mathlib.Data.Set.Function
import Mathlib.Tactic.Common

/-! # Binary min-heaps in arrays

Position `i` has its parent at `(i - 1) / 2` and its children at `2 * i + 1` and
`2 * i + 2`. Sifting up repairs a heap with one entry too small for its parent,
sifting down one with an entry too large for its children; both only rearrange
the entries below the size. The loops carry a bound on their iterations that is
never the reason why they stop.
-/

namespace Foundations.ArrayHeap

variable {α κ : Type*} [LinearOrder κ] (key : α → κ)

def swap (a : ℕ → α) (i j : ℕ) : ℕ → α := fun k =>
  if k = i then a j else if k = j then a i else a k

/-- Move the entry at `idx` up while it is smaller than its parent. -/
def siftUp : ℕ → (ℕ → α) → ℕ → ℕ → α
  | 0, a, _ => a
  | bound + 1, a, idx =>
    if idx = 0 then a
    else if key (a ((idx - 1) / 2)) ≤ key (a idx) then a
    else siftUp bound (swap a idx ((idx - 1) / 2)) ((idx - 1) / 2)

def siftUpWrites : ℕ → (ℕ → α) → ℕ → List ℕ
  | 0, _, _ => []
  | bound + 1, a, idx =>
    if idx = 0 then []
    else if key (a ((idx - 1) / 2)) ≤ key (a idx) then []
    else idx :: (idx - 1) / 2 ::
      siftUpWrites bound (swap a idx ((idx - 1) / 2)) ((idx - 1) / 2)

/-- The position of the smaller child of `idx`, the left one if they are equal. -/
def smallerChild (a : ℕ → α) (n idx : ℕ) : ℕ :=
  if idx * 2 + 2 < n ∧ key (a (idx * 2 + 2)) < key (a (idx * 2 + 1)) then idx * 2 + 2
  else idx * 2 + 1

/-- Move the entry at `idx` down while a child is smaller. -/
def siftDown (n : ℕ) : ℕ → (ℕ → α) → ℕ → ℕ → α
  | 0, a, _ => a
  | bound + 1, a, idx =>
    if idx * 2 + 1 < n then
      if key (a idx) ≤ key (a (smallerChild key a n idx)) then a
      else siftDown n bound (swap a idx (smallerChild key a n idx)) (smallerChild key a n idx)
    else a

/-- The first `n` entries form a min-heap. -/
def IsHeap (a : ℕ → α) (n : ℕ) : Prop :=
  ∀ i, 0 < i → i < n → key (a ((i - 1) / 2)) ≤ key (a i)

/-- A min-heap but for the entry at `hole`, which may be smaller than its parent. -/
structure HoleUp (a : ℕ → α) (n hole : ℕ) : Prop where
  except : ∀ i, 0 < i → i < n → i ≠ hole → key (a ((i - 1) / 2)) ≤ key (a i)
  grand : 0 < hole → ∀ c, 0 < c → c < n → (c - 1) / 2 = hole →
    key (a ((hole - 1) / 2)) ≤ key (a c)

/-- A min-heap but for the entry at `hole`, which may be larger than its children. -/
structure HoleDown (a : ℕ → α) (n hole : ℕ) : Prop where
  except : ∀ i, 0 < i → i < n → (i - 1) / 2 ≠ hole → key (a ((i - 1) / 2)) ≤ key (a i)
  grand : 0 < hole → ∀ c, 0 < c → c < n → (c - 1) / 2 = hole →
    key (a ((hole - 1) / 2)) ≤ key (a c)

variable {key} {a b c : ℕ → α} {n m bound i j k : ℕ} {x : α}

@[simp] theorem swap_left : swap a i j i = a j := by simp [swap]

@[simp] theorem swap_right : swap a i j j = a i := by
  by_cases h : j = i <;> simp [swap, h]

theorem swap_of_ne (hi : k ≠ i) (hj : k ≠ j) : swap a i j k = a k := by simp [swap, hi, hj]

theorem swap_eq_comp (a : ℕ → α) (i j : ℕ) : swap a i j = a ∘ Equiv.swap i j := by
  funext k
  simp only [swap, Function.comp_apply, Equiv.swap_apply_def]
  split_ifs <;> rfl

/-- The second array holds the entries of the first, those below `n` in some other order. -/
def Rearranged (n : ℕ) (a b : ℕ → α) : Prop :=
  ∃ σ : Equiv.Perm ℕ, (∀ k, n ≤ k → σ k = k) ∧ b = a ∘ σ

theorem Rearranged.refl (n : ℕ) (a : ℕ → α) : Rearranged n a a :=
  ⟨Equiv.refl ℕ, fun _ _ => rfl, rfl⟩

theorem Rearranged.trans (h : Rearranged n a b) (h' : Rearranged n b c) : Rearranged n a c := by
  obtain ⟨σ, hσ, rfl⟩ := h
  obtain ⟨τ, hτ, rfl⟩ := h'
  refine ⟨τ.trans σ, fun k hk => ?_, rfl⟩
  rw [Equiv.trans_apply, hτ k hk, hσ k hk]

theorem rearranged_swap (hi : i < n) (hj : j < n) : Rearranged n a (swap a i j) :=
  ⟨Equiv.swap i j, fun _ hk => Equiv.swap_apply_of_ne_of_ne (by omega) (by omega),
    swap_eq_comp a i j⟩

theorem lt_iff_of_fixed {σ : Equiv.Perm ℕ} (hσ : ∀ k, n ≤ k → σ k = k) (k : ℕ) :
    σ k < n ↔ k < n := by
  constructor
  · intro h
    by_contra hk
    rw [hσ k (Nat.not_lt.mp hk)] at h
    exact hk h
  · intro h
    by_contra hk
    have : σ (σ k) = σ k := hσ _ (Nat.not_lt.mp hk)
    exact hk (by rwa [σ.injective this])

theorem Rearranged.exists_iff (h : Rearranged n a b) {p : α → Prop} :
    (∃ k < n, p (b k)) ↔ ∃ k < n, p (a k) := by
  obtain ⟨σ, hσ, rfl⟩ := h
  constructor
  · rintro ⟨k, hk, hp⟩
    exact ⟨σ k, (lt_iff_of_fixed hσ k).mpr hk, hp⟩
  · rintro ⟨k, hk, hp⟩
    refine ⟨σ.symm k, (lt_iff_of_fixed hσ _).mp ?_, ?_⟩
    · rwa [Equiv.apply_symm_apply]
    · rwa [Function.comp_apply, Equiv.apply_symm_apply]

theorem Rearranged.injOn (h : Rearranged n a b) (ha : Set.InjOn a (Set.Iio n)) :
    Set.InjOn b (Set.Iio n) := by
  obtain ⟨σ, hσ, rfl⟩ := h
  intro k hk l hl he
  exact σ.injective (ha ((lt_iff_of_fixed hσ k).mpr hk) ((lt_iff_of_fixed hσ l).mpr hl) he)

theorem siftUp_rearranged (hi : i < n) : Rearranged n a (siftUp key bound a i) := by
  induction bound generalizing a i with
  | zero => exact .refl n a
  | succ bound ih =>
    unfold siftUp
    split_ifs
    · exact .refl n a
    · exact .refl n a
    · exact (rearranged_swap hi (by omega)).trans (ih (by omega))

theorem HoleUp.move (h : HoleUp key a n i) (h0 : i ≠ 0) (hin : i < n)
    (hlt : key (a i) < key (a ((i - 1) / 2))) :
    HoleUp key (swap a i ((i - 1) / 2)) n ((i - 1) / 2) := by
  constructor
  · intro j hj0 hjn hjp
    by_cases hji : j = i
    · subst hji
      rw [swap_left, swap_right]
      exact hlt.le
    rw [swap_of_ne hji hjp]
    by_cases hpi : (j - 1) / 2 = i
    · rw [hpi, swap_left]
      exact h.grand (by omega) j hj0 hjn hpi
    have hj := h.except j hj0 hjn hji
    by_cases hpp : (j - 1) / 2 = (i - 1) / 2
    · rw [hpp, swap_right]
      exact hlt.le.trans (hpp ▸ hj)
    · rwa [swap_of_ne hpi hpp]
  · intro hp0 c hc0 hcn hcp
    have hpp := h.except ((i - 1) / 2) hp0 (by omega) (by omega)
    rw [swap_of_ne (k := ((i - 1) / 2 - 1) / 2) (by omega) (by omega)]
    by_cases hci : c = i
    · rw [hci, swap_left]
      exact hpp
    · rw [swap_of_ne hci (by omega)]
      exact hpp.trans (hcp ▸ h.except c hc0 hcn hci)

/-- Sifting up repairs an entry that is too small for its parent. -/
theorem HoleUp.isHeap_siftUp (h : HoleUp key a n i) (hin : i < n) (hb : i ≤ bound) :
    IsHeap key (siftUp key bound a i) n := by
  induction bound generalizing a i with
  | zero =>
    intro j hj0 hjn
    exact h.except j hj0 hjn (by omega)
  | succ bound ih =>
    unfold siftUp
    split_ifs with h0 hle
    · exact fun j hj0 hjn => h.except j hj0 hjn (by omega)
    · intro j hj0 hjn
      by_cases hji : j = i
      · exact hji ▸ hle
      · exact h.except j hj0 hjn hji
    · exact ih (h.move h0 hin (not_le.mp hle)) (by omega) (by omega)

theorem le_of_mem_siftUpWrites (h : j ∈ siftUpWrites key bound a i) : j ≤ i := by
  induction bound generalizing a i with
  | zero => simp [siftUpWrites] at h
  | succ bound ih =>
    unfold siftUpWrites at h
    split_ifs at h
    · cases h
    · cases h
    · rcases List.mem_cons.mp h with rfl | h
      · exact le_rfl
      · rcases List.mem_cons.mp h with rfl | h
        · omega
        · exact (ih h).trans (by omega)

theorem IsHeap.holeUp_last (h : IsHeap key a n) : HoleUp key a (n + 1) n where
  except i h0 hi hne := h i h0 (by omega)
  grand _ c _ hc hp := by omega

theorem smallerChild_cases (key : α → κ) (a : ℕ → α) (n i : ℕ) :
    smallerChild key a n i = i * 2 + 1 ∨
      (smallerChild key a n i = i * 2 + 2 ∧ i * 2 + 2 < n) := by
  unfold smallerChild
  split_ifs with h
  · exact Or.inr ⟨rfl, h.1⟩
  · exact Or.inl rfl

theorem smallerChild_le (hc0 : 0 < j) (hcn : j < n) (hp : (j - 1) / 2 = i) :
    key (a (smallerChild key a n i)) ≤ key (a j) := by
  have hj : j = i * 2 + 1 ∨ j = i * 2 + 2 := by omega
  unfold smallerChild
  split_ifs with h
  · rcases hj with rfl | rfl
    · exact h.2.le
    · exact le_rfl
  · rcases hj with rfl | rfl
    · exact le_rfl
    · exact not_lt.mp fun hlt => h ⟨hcn, hlt⟩

theorem siftDown_rearranged (hi : i < n) : Rearranged n a (siftDown key n bound a i) := by
  induction bound generalizing a i with
  | zero => exact .refl n a
  | succ bound ih =>
    have hc := smallerChild_cases key a n i
    unfold siftDown
    split_ifs
    · exact .refl n a
    · exact (rearranged_swap hi (by omega)).trans (ih (by omega))
    · exact .refl n a

theorem siftDown_of_le (h : ∀ c, 0 < c → c < n → (c - 1) / 2 = i → key (a i) ≤ key (a c)) :
    siftDown key n bound a i = a := by
  cases bound with
  | zero => rfl
  | succ bound =>
    have hc := smallerChild_cases key a n i
    unfold siftDown
    split_ifs with hlt hle
    · rfl
    · exact absurd (h (smallerChild key a n i) (by omega) (by omega) (by omega)) hle
    · rfl

theorem HoleDown.move (h : HoleDown key a n i) (hlt : i * 2 + 1 < n)
    (hgt : key (a (smallerChild key a n i)) < key (a i)) :
    HoleDown key (swap a i (smallerChild key a n i)) n (smallerChild key a n i) := by
  have hc := smallerChild_cases key a n i
  have hmin : ∀ j, 0 < j → j < n → (j - 1) / 2 = i →
      key (a (smallerChild key a n i)) ≤ key (a j) := fun j h0 hn hp => smallerChild_le h0 hn hp
  generalize smallerChild key a n i = s at hc hgt hmin
  constructor
  · intro j hj0 hjn hjp
    by_cases hji : j = i
    · subst hji
      rw [swap_left, swap_of_ne (by omega) (by omega)]
      exact h.grand hj0 s (by omega) (by omega) (by omega)
    by_cases hpi : (j - 1) / 2 = i
    · rw [hpi, swap_left]
      by_cases hjs : j = s
      · rw [hjs, swap_right]
        exact hgt.le
      · rw [swap_of_ne hji hjs]
        exact hmin j hj0 hjn hpi
    · rw [swap_of_ne hpi hjp, swap_of_ne hji (by omega)]
      exact h.except j hj0 hjn hpi
  · intro _ c hc0 hcn hcp
    have hps : (s - 1) / 2 = i := by omega
    rw [hps, swap_left, swap_of_ne (by omega) (by omega)]
    exact hcp ▸ h.except c hc0 hcn (by omega)

/-- Sifting down repairs an entry that is too large for its children. -/
theorem HoleDown.isHeap_siftDown (h : HoleDown key a n i) (hb : n ≤ bound + i) :
    IsHeap key (siftDown key n bound a i) n := by
  induction bound generalizing a i with
  | zero =>
    intro j hj0 hjn
    exact h.except j hj0 hjn (by omega)
  | succ bound ih =>
    have hc := smallerChild_cases key a n i
    unfold siftDown
    split_ifs with hlt hle
    · intro j hj0 hjn
      by_cases hp : (j - 1) / 2 = i
      · rw [hp]
        exact hle.trans (smallerChild_le hj0 hjn hp)
      · exact h.except j hj0 hjn hp
    · exact ih (h.move hlt (not_le.mp hle)) (by omega)
    · exact fun j hj0 hjn => h.except j hj0 hjn (by omega)

theorem IsHeap.congr {key' : α → κ} (h : IsHeap key a n)
    (he : ∀ i < n, key' (a i) = key (a i)) : IsHeap key' a n := by
  intro i h0 hin
  rw [he i hin, he _ (by omega)]
  exact h i h0 hin

theorem IsHeap.root_le (h : IsHeap key a n) (hi : i < n) : key (a 0) ≤ key (a i) := by
  induction i using Nat.strongRecOn with
  | ind i ih =>
    rcases Nat.eq_zero_or_pos i with rfl | h0
    · exact le_rfl
    · exact (ih ((i - 1) / 2) (by omega) (by omega)).trans (h i h0 hi)

/-- The entry `x` stored behind the first `n` and sifted up. -/
def insertLast (key : α → κ) (a : ℕ → α) (n : ℕ) (x : α) : ℕ → α :=
  siftUp key n (Function.update a n x) n

/-- The positions that storing an entry behind the first `n` and sifting it up writes. -/
def insertLastWrites (key : α → κ) (a : ℕ → α) (n : ℕ) (x : α) : List ℕ :=
  n :: siftUpWrites key n (Function.update a n x) n

/-- The last of the first `n + 1` entries stored over the one at `i` and sifted down. -/
def removeAt (key : α → κ) (a : ℕ → α) (n i : ℕ) : ℕ → α :=
  siftDown key n n (Function.update a i (a n)) i

theorem IsHeap.update_last (h : IsHeap key a n) : IsHeap key (Function.update a n x) n := by
  intro i h0 hin
  rw [Function.update_of_ne (by omega), Function.update_of_ne (by omega)]
  exact h i h0 hin

theorem IsHeap.insertLast (h : IsHeap key a n) : IsHeap key (insertLast key a n x) (n + 1) :=
  h.update_last.holeUp_last.isHeap_siftUp (Nat.lt_succ_self n) le_rfl

theorem forall_insertLastWrites_lt_iff :
    (∀ j ∈ insertLastWrites key a n x, j < m) ↔ n < m := by
  constructor
  · exact fun h => h n List.mem_cons_self
  · intro h j hj
    rcases List.mem_cons.mp hj with rfl | hj
    · exact h
    · exact (le_of_mem_siftUpWrites hj).trans_lt h

theorem exists_insertLast_iff {p : α → Prop} :
    (∃ k < n + 1, p (insertLast key a n x k)) ↔ p x ∨ ∃ k < n, p (a k) := by
  rw [insertLast, (siftUp_rearranged (Nat.lt_succ_self n)).exists_iff]
  constructor
  · rintro ⟨k, hk, hp⟩
    by_cases hkn : k = n
    · subst hkn
      exact Or.inl (by simpa using hp)
    · exact Or.inr ⟨k, by omega, by simpa [hkn] using hp⟩
  · rintro (hp | ⟨k, hk, hp⟩)
    · exact ⟨n, Nat.lt_succ_self n, by simpa using hp⟩
    · exact ⟨k, by omega, by simpa [Nat.ne_of_lt hk] using hp⟩

theorem injOn_insertLast (ha : Set.InjOn a (Set.Iio n)) (hx : ∀ k < n, a k ≠ x) :
    Set.InjOn (insertLast key a n x) (Set.Iio (n + 1)) := by
  refine (siftUp_rearranged (Nat.lt_succ_self n)).injOn fun k hk l hl he => ?_
  simp only [Set.mem_Iio] at hk hl
  by_cases hkn : k = n <;> by_cases hln : l = n
  · exact hkn.trans hln.symm
  · simp only [hkn, Function.update_self, Function.update_of_ne hln] at he
    exact absurd he.symm (hx l (by omega))
  · simp only [hln, Function.update_self, Function.update_of_ne hkn] at he
    exact absurd he (hx k (by omega))
  · simp only [Function.update_of_ne hkn, Function.update_of_ne hln] at he
    exact ha (by simp; omega) (by simp; omega) he

/-- The rest of a heap but for the entry at `i`, in case `x` fits below its parent there. -/
theorem IsHeap.holeDown_update (h : IsHeap key a (n + 1)) (hi : i ≤ n)
    (hx : 0 < i → i < n → key (a ((i - 1) / 2)) ≤ key x) :
    HoleDown key (Function.update a i x) n i := by
  constructor
  · intro j hj0 hjn hjp
    rw [Function.update_of_ne hjp]
    by_cases hji : j = i
    · subst hji
      rw [Function.update_self]
      exact hx hj0 hjn
    · rw [Function.update_of_ne hji]
      exact h j hj0 (by omega)
  · intro h0 c hc0 hcn hcp
    rw [Function.update_of_ne (by omega), Function.update_of_ne (by omega)]
    have h₁ := h i h0 (by omega)
    have h₂ := h c hc0 (by omega)
    rw [hcp] at h₂
    exact h₁.trans h₂

/-- The parent of the removed position is not larger than the entry moved there. -/
def FitsBelowParent (key : α → κ) (a : ℕ → α) (n i : ℕ) : Prop :=
  0 < i → i < n → key (a ((i - 1) / 2)) ≤ key (a n)

theorem IsHeap.removeAt (h : IsHeap key a (n + 1)) (hi : i ≤ n)
    (hx : FitsBelowParent key a n i) : IsHeap key (removeAt key a n i) n :=
  (h.holeDown_update hi hx).isHeap_siftDown (by omega)

/-- Sifting down alone repairs a removal exactly when the entry moved fits below its parent. -/
theorem IsHeap.removeAt_iff (h : IsHeap key a (n + 1)) (hi : i ≤ n) :
    IsHeap key (ArrayHeap.removeAt key a n i) n ↔ FitsBelowParent key a n i := by
  refine ⟨fun hr h0 hin => ?_, h.removeAt hi⟩
  by_contra hlt
  have hsmall : ∀ c, 0 < c → c < n → (c - 1) / 2 = i →
      key (Function.update a i (a n) i) ≤ key (Function.update a i (a n) c) := by
    intro c hc0 hcn hcp
    rw [Function.update_self, Function.update_of_ne (by omega)]
    have h₁ := h i h0 (by omega)
    have h₂ := h c hc0 (by omega)
    rw [hcp] at h₂
    exact (not_le.mp hlt).le.trans (h₁.trans h₂)
  rw [ArrayHeap.removeAt, siftDown_of_le hsmall] at hr
  have := hr i h0 hin
  rw [Function.update_self, Function.update_of_ne (by omega)] at this
  exact hlt this

theorem removeAt_rearranged (hi : i ≤ n) :
    Rearranged n (Function.update a i (a n)) (removeAt key a n i) := by
  rcases Nat.lt_or_ge i n with hlt | hge
  · exact siftDown_rearranged hlt
  · have : ∀ c, 0 < c → c < n → (c - 1) / 2 = i → key (Function.update a i (a n) i) ≤
        key (Function.update a i (a n) c) := by intro c _ _ _; omega
    rw [removeAt, siftDown_of_le this]
    exact .refl n _

theorem exists_of_removeAt {p : α → Prop} (hi : i ≤ n) (h : ∃ k < n, p (removeAt key a n i k)) :
    ∃ k < n + 1, p (a k) := by
  obtain ⟨k, hk, hp⟩ := (removeAt_rearranged hi).exists_iff.mp h
  by_cases hki : k = i
  · rw [hki, Function.update_self] at hp
    exact ⟨n, Nat.lt_succ_self n, hp⟩
  · rw [Function.update_of_ne hki] at hp
    exact ⟨k, Nat.lt_succ_of_lt hk, hp⟩

theorem removeAt_ne (hi : i ≤ n) (h : ∀ k < n + 1, a k = x → k = i) :
    ∀ k < n, removeAt key a n i k ≠ x := by
  intro k hk he
  obtain ⟨l, hl, hx⟩ := (removeAt_rearranged hi).exists_iff (p := (· = x)) |>.mp ⟨k, hk, he⟩
  by_cases hli : l = i
  · rw [hli, Function.update_self] at hx
    have := h n (Nat.lt_succ_self n) hx
    omega
  · rw [Function.update_of_ne hli] at hx
    exact hli (h l (Nat.lt_succ_of_lt hl) hx)

theorem exists_removeAt_iff (ha : Set.InjOn a (Set.Iio (n + 1))) (hi : i ≤ n) :
    (∃ k < n, removeAt key a n i k = x) ↔ x ≠ a i ∧ ∃ k < n + 1, a k = x := by
  rw [(removeAt_rearranged hi).exists_iff (p := (· = x))]
  have hinj : ∀ k l, k < n + 1 → l < n + 1 → a k = a l → k = l := fun k l hk hl he =>
    ha (Set.mem_Iio.mpr hk) (Set.mem_Iio.mpr hl) he
  constructor
  · rintro ⟨k, hk, rfl⟩
    by_cases hki : k = i
    · subst hki
      rw [Function.update_self]
      exact ⟨fun he => by have := hinj n k (by omega) (by omega) he; omega, n, by omega, rfl⟩
    · rw [Function.update_of_ne hki]
      exact ⟨fun he => hki (hinj k i (by omega) (by omega) he), k, by omega, rfl⟩
  · rintro ⟨hne, k, hk, rfl⟩
    have hki : k ≠ i := fun he => hne (he ▸ rfl)
    by_cases hkn : k = n
    · exact ⟨i, by omega, by rw [Function.update_self, hkn]⟩
    · exact ⟨k, by omega, by rw [Function.update_of_ne hki]⟩

theorem injOn_removeAt (ha : Set.InjOn a (Set.Iio (n + 1))) (hi : i ≤ n) :
    Set.InjOn (removeAt key a n i) (Set.Iio n) := by
  refine (removeAt_rearranged hi).injOn fun k hk l hl he => ?_
  simp only [Set.mem_Iio] at hk hl
  by_cases hki : k = i <;> by_cases hli : l = i
  · exact hki.trans hli.symm
  · simp only [hki, Function.update_self, Function.update_of_ne hli] at he
    have := ha (by simp) (by simp; omega) he
    omega
  · simp only [hli, Function.update_self, Function.update_of_ne hki] at he
    have := ha (by simp; omega) (by simp) he
    omega
  · simp only [Function.update_of_ne hki, Function.update_of_ne hli] at he
    exact ha (by simp; omega) (by simp; omega) he

end Foundations.ArrayHeap
