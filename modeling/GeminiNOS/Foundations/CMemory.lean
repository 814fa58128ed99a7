import Mathlib.Data.List.Basic
import Mathlib.Data.List.TakeWhile
import Mathlib.Tactic.Common

/-! # Bytes and strings in memory

The memory around a buffer, with the addresses relative to it. Bytes are stored from an
address on, and a string ends before the first zero.
-/

namespace Foundations

abbrev CMemory := ℤ → UInt8

namespace CMemory

def store (m : CMemory) (addr : ℤ) (bytes : List UInt8) : CMemory := fun i =>
  if addr ≤ i ∧ i < addr + bytes.length then bytes.getD (i - addr).toNat 0 else m i

def load (m : CMemory) (stop : ℤ) : List UInt8 := (List.range stop.toNat).map fun i : ℕ => m i

/-- The string at zero, if it ends at an address at the latest. -/
def str (m : CMemory) (stop : ℤ) : List UInt8 := (m.load stop).takeWhile (· ≠ 0)

def NoNul (m : CMemory) (stop : ℤ) : Prop := ∀ i, 0 ≤ i → i < stop → m i ≠ 0

variable {m : CMemory} {addr stop i : ℤ} {bytes : List UInt8} {c : UInt8}

theorem store_of_lt (h : i < addr) : m.store addr bytes i = m i := if_neg (by omega)

theorem store_of_le (h : addr + bytes.length ≤ i) : m.store addr bytes i = m i :=
  if_neg (by omega)

theorem store_concat (h : i = addr + bytes.length) : m.store addr (bytes ++ [c]) i = c := by
  have hlast : (i - addr).toNat = bytes.length := by omega
  rw [store, if_pos (by rw [List.length_append, List.length_singleton]; omega), hlast]
  simp

theorem store_concat_of_lt (h : i < addr + bytes.length) :
    m.store addr (bytes ++ [c]) i = m.store addr bytes i := by
  by_cases haddr : i < addr
  · rw [store_of_lt haddr, store_of_lt haddr]
  · have hbound : (i - addr).toNat < bytes.length := by omega
    rw [store, store, if_pos (by rw [List.length_append]; omega), if_pos (by omega),
      List.getD_eq_getElem?_getD, List.getD_eq_getElem?_getD, List.getElem?_append_left hbound]

theorem store_mem (hle : addr ≤ i) (hlt : i < addr + bytes.length) :
    m.store addr bytes i ∈ bytes := by
  have hbound : (i - addr).toNat < bytes.length := by omega
  rw [store, if_pos ⟨hle, hlt⟩, List.getD_eq_getElem?_getD, List.getElem?_eq_getElem hbound]
  exact List.getElem_mem hbound

theorem NoNul.mono (h : m.NoNul stop) (hle : addr ≤ stop) : m.NoNul addr :=
  fun i hi hlt => h i hi (by omega)

theorem NoNul.store (h : m.NoNul addr) (hbytes : 0 ∉ bytes) (hstop : stop ≤ addr + bytes.length) :
    (m.store addr bytes).NoNul stop := by
  intro i hi hlt
  by_cases haddr : i < addr
  · rw [store_of_lt haddr]
    exact h i hi haddr
  · have hmem : m.store addr bytes i ∈ bytes := store_mem (by omega) (by omega)
    exact fun hzero => hbytes (hzero ▸ hmem)

theorem NoNul.store_of_le (h : m.NoNul stop) (hle : stop ≤ addr) :
    (m.store addr bytes).NoNul stop := by
  intro i hi hlt
  rw [store_of_lt (by omega)]
  exact h i hi hlt

theorem NoNul.str_eq (h : m.NoNul stop) : m.str stop = m.load stop := by
  rw [str, List.takeWhile_eq_self_iff]
  intro c hc
  obtain ⟨i, hi, rfl⟩ := List.mem_map.mp hc
  have hlt := List.mem_range.mp hi
  exact decide_eq_true (h i (by omega) (by omega))

theorem NoNul.length_str (h : m.NoNul stop) (hstop : 0 ≤ stop) :
    ((m.str stop).length : ℤ) = stop := by
  rw [h.str_eq, load, List.length_map, List.length_range, Int.toNat_of_nonneg hstop]

theorem load_congr {m' : CMemory} (h : ∀ i, 0 ≤ i → i < stop → m i = m' i) :
    m.load stop = m'.load stop := by
  apply List.map_congr_left
  intro k hk
  have hlt := List.mem_range.mp hk
  exact h k (by omega) (by omega)

theorem load_of_le (h : addr ≤ stop) : m.load addr = (m.load stop).take addr.toNat := by
  rw [load, load, ← List.map_take, List.take_range, Nat.min_eq_left (by omega)]

theorem load_store_of_le (h : stop ≤ addr) : (m.store addr bytes).load stop = m.load stop :=
  load_congr fun _ _ hi => store_of_lt (by omega)

theorem load_store (h : 0 ≤ addr) :
    (m.store addr bytes).load (addr + bytes.length) = m.load addr ++ bytes := by
  apply List.ext_getElem
  · simp only [load, List.length_map, List.length_range, List.length_append]
    omega
  · intro k hk hk'
    simp only [load, List.length_map, List.length_range] at hk
    simp only [load, List.getElem_map, List.getElem_range, List.getElem_append, List.length_map,
      List.length_range]
    split
    · exact store_of_lt (by omega)
    · have hpos : (k - addr : ℤ).toNat = k - addr.toNat := by omega
      rw [store, if_pos (by omega), hpos, List.getD_eq_getElem?_getD,
        List.getElem?_eq_getElem (by omega), Option.getD_some]

theorem NoNul.of_load (h : 0 ∉ m.load stop) : m.NoNul stop := by
  intro i hi hlt hzero
  apply h
  refine List.mem_map.mpr ⟨i.toNat, List.mem_range.mpr (by omega), ?_⟩
  rwa [Int.toNat_of_nonneg hi]

/-- A string ends at its zero, however much is looked at. -/
theorem NoNul.str_of_nul (h : m.NoNul addr) (hzero : m addr = 0) (haddr : 0 ≤ addr)
    (hlt : addr < stop) : m.str stop = m.load addr := by
  have hfront : m.load stop = m.load addr ++ (m.load stop).drop addr.toNat := by
    rw [load_of_le (Int.le_of_lt hlt), List.take_append_drop]
  have hrest : (m.load stop).drop addr.toNat = 0 :: (m.load stop).drop (addr.toNat + 1) := by
    rw [List.drop_eq_getElem_cons (by simp only [load, List.length_map, List.length_range]; omega)]
    simp only [load, List.getElem_map, List.getElem_range, Int.toNat_of_nonneg haddr, hzero]
  rw [str, hfront, hrest, List.takeWhile_append_of_pos, List.takeWhile_cons_of_neg (by simp),
    List.append_nil]
  intro c hc
  obtain ⟨i, hi, rfl⟩ := List.mem_map.mp hc
  have hi' := List.mem_range.mp hi
  exact decide_eq_true (h i (by omega) (by omega))

end CMemory

end Foundations
