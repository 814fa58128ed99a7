import Mathlib.Data.List.AList
import Mathlib.Data.List.Forall2
import Mathlib.Data.List.Induction
import Mathlib.Data.List.Nodup

/-! # Dictionaries

A dictionary that is filled from a list of entries has the last one of each key. A
partial function on the elements of a list either fails on one of them or relates the
list to that of its values.
-/

namespace Foundations

variable {K V : Type*} [DecidableEq K] {entries : List (K × V)} {k : K} {v : V}

/-- The dictionary of a list of entries, of which later ones overwrite earlier ones. -/
def dictOf (entries : List (K × V)) : AList fun _ : K => V :=
  entries.foldl (fun d e => d.insert e.1 e.2) ∅

theorem dictOf_concat (entries : List (K × V)) (e : K × V) :
    dictOf (entries ++ [e]) = (dictOf entries).insert e.1 e.2 := by
  rw [dictOf, List.foldl_append]
  rfl

theorem mem_of_lookup_dictOf (h : (dictOf entries).lookup k = some v) : (k, v) ∈ entries := by
  induction entries using List.reverseRecOn with
  | nil => cases h
  | append_singleton entries e ih =>
    rw [dictOf_concat] at h
    by_cases hk : k = e.1
    · rw [hk, AList.lookup_insert] at h
      obtain rfl := Option.some.inj h
      simp [hk]
    · rw [AList.lookup_insert_ne hk] at h
      exact List.mem_append_left _ (ih h)

theorem exists_lookup_dictOf (h : (k, v) ∈ entries) :
    ∃ v', (dictOf entries).lookup k = some v' := by
  induction entries using List.reverseRecOn with
  | nil => cases h
  | append_singleton entries e ih =>
    rw [dictOf_concat]
    by_cases hk : k = e.1
    · exact ⟨e.2, by rw [hk, AList.lookup_insert]⟩
    · rw [AList.lookup_insert_ne hk]
      rcases List.mem_append.mp h with h | h
      · exact ih h
      · exact absurd (congrArg Prod.fst (List.mem_singleton.mp h)) hk

theorem lookup_dictOf (hkeys : (entries.map Prod.fst).Nodup) (h : (k, v) ∈ entries) :
    (dictOf entries).lookup k = some v := by
  obtain ⟨v', hv'⟩ := exists_lookup_dictOf h
  have he : (k, v) = (k, v') := List.inj_on_of_nodup_map hkeys h (mem_of_lookup_dictOf hv') rfl
  rw [hv', (Prod.mk.inj he).2]

theorem lookup_dictOf_map {W : Type*} (g : V → W) (entries : List (K × V)) (k : K) :
    (dictOf (entries.map fun e => (e.1, g e.2))).lookup k = ((dictOf entries).lookup k).map g := by
  induction entries using List.reverseRecOn with
  | nil => rfl
  | append_singleton entries e ih =>
    rw [List.map_append, List.map_singleton, dictOf_concat, dictOf_concat]
    by_cases hk : k = e.1
    · rw [hk, AList.lookup_insert, AList.lookup_insert, Option.map_some]
    · rw [AList.lookup_insert_ne hk, AList.lookup_insert_ne hk, ih]

theorem lookup_dictOf_eq_getLast? (entries : List (K × V)) (k : K) :
    (dictOf entries).lookup k = ((entries.filter (·.1 = k)).getLast?).map Prod.snd := by
  induction entries using List.reverseRecOn with
  | nil => rfl
  | append_singleton entries e ih =>
    rw [dictOf_concat, List.filter_append]
    by_cases hk : e.1 = k
    · rw [hk, AList.lookup_insert, List.filter_cons_of_pos (by simpa using hk),
        List.filter_nil, List.getLast?_concat, Option.map_some]
    · rw [AList.lookup_insert_ne (Ne.symm hk),
        List.filter_cons_of_neg (by simpa using hk), List.filter_nil, List.append_nil, ih]

/-- Lists that their elements tell the owner of: the last element of all belongs to the last owner
that has one. -/
theorem getLast?_flatMap_owner {α β : Type*} (f : α → List β) (owner : β → α)
    (howner : ∀ a, ∀ b ∈ f a, owner b = a) (l : List α) :
    ((l.flatMap f).getLast?).map owner = (l.filter fun a => f a ≠ []).getLast? := by
  induction l using List.reverseRecOn with
  | nil => rfl
  | append_singleton l a ih =>
    rw [List.flatMap_append, List.flatMap_singleton, List.getLast?_append, List.filter_append,
      List.getLast?_append]
    by_cases ha : f a = []
    · rw [ha, List.filter_cons_of_neg (by simpa using ha), List.filter_nil, List.getLast?_nil,
        Option.none_or, List.getLast?_nil, Option.none_or, ih]
    · obtain ⟨b, hb⟩ := Option.ne_none_iff_exists'.mp fun h => ha (List.getLast?_eq_none_iff.mp h)
      rw [hb, List.filter_cons_of_pos (by simpa using ha), List.filter_nil, Option.some_or,
        List.getLast?_singleton, Option.some_or, Option.map_some,
        howner a b (List.mem_of_getLast? hb)]

variable {α β : Type*} {R : α → β → Prop} {f : α → Option β} {l : List α} {l' : List β}

theorem forall₂_of_mapM (h : l.mapM f = some l') : List.Forall₂ (fun a b => f a = some b) l l' := by
  induction l generalizing l' with
  | nil =>
    obtain rfl := Option.some.inj h
    exact .nil
  | cons a l ih =>
    rw [List.mapM_cons] at h
    obtain ⟨b, hb, h⟩ := Option.bind_eq_some_iff.mp h
    obtain ⟨bs, hbs, h⟩ := Option.bind_eq_some_iff.mp h
    obtain rfl := Option.some.inj h
    exact .cons hb (ih hbs)

theorem map_eq_of_mapM (h : l.mapM f = some l') : l.map f = l'.map some := by
  induction l generalizing l' with
  | nil =>
    obtain rfl := Option.some.inj h
    rfl
  | cons a l ih =>
    rw [List.mapM_cons] at h
    obtain ⟨b, hb, h⟩ := Option.bind_eq_some_iff.mp h
    obtain ⟨bs, hbs, h⟩ := Option.bind_eq_some_iff.mp h
    obtain rfl := Option.some.inj h
    rw [List.map_cons, List.map_cons, hb, ih hbs]

theorem exists_left_of_forall₂ (h : List.Forall₂ R l l') : ∀ b ∈ l', ∃ a ∈ l, R a b := by
  induction h with
  | nil => exact fun b hb => absurd hb List.not_mem_nil
  | cons hab _ ih =>
    intro b hb
    rcases List.mem_cons.mp hb with rfl | hb
    · exact ⟨_, List.mem_cons_self, hab⟩
    · obtain ⟨a, ha, hab⟩ := ih b hb
      exact ⟨a, List.mem_cons_of_mem _ ha, hab⟩

theorem mapM_option_map {γ : Type*} (g : β → γ) (f : α → Option β) (l : List α) :
    l.mapM (fun a => (f a).map g) = (l.mapM f).map (List.map g) := by
  induction l with
  | nil => rfl
  | cons a l ih =>
    rw [List.mapM_cons, List.mapM_cons, ih]
    cases f a with
    | none => rfl
    | some b => cases l.mapM f <;> rfl

theorem exists_of_mem_mapM {b : β} (h : l.mapM f = some l') (hb : b ∈ l') :
    ∃ a ∈ l, f a = some b :=
  exists_left_of_forall₂ (forall₂_of_mapM h) b hb

theorem mem_mapM_of_mem {a : α} (h : l.mapM f = some l') (ha : a ∈ l) :
    ∃ b ∈ l', f a = some b :=
  exists_left_of_forall₂ (R := fun b a => f a = some b) (forall₂_of_mapM h).flip a ha

/-- The last value that has a property comes from the last element that leads to one. -/
theorem getLast?_filter_mapM (h : l.mapM f = some l') (p : β → Bool) :
    ((l'.filter p).getLast?).map some = ((l.filter fun a => (f a).any p).getLast?).map f := by
  rw [← List.getLast?_map, ← List.getLast?_map, ← Function.comp_def (Option.any p) f,
    ← List.filter_map, map_eq_of_mapM h, List.filter_map]
  rfl

/-- The values with a key that tells them apart, where they are looked up once each. -/
theorem countP_filterMap_eq_one [DecidableEq α] {key : β → α}
    (hkey : ∀ a b, f a = some b → key b = a) (hl : l.Nodup) {a : α} {b : β} (ha : a ∈ l)
    (hb : f a = some b) :
    (l.filterMap f).countP (key · = a) = 1 := by
  induction l with
  | nil => cases ha
  | cons x l ih =>
    have hx := List.nodup_cons.mp hl
    rcases List.mem_cons.mp ha with rfl | ha
    · rw [List.filterMap_cons_some hb, List.countP_cons, if_pos (by simpa using hkey a b hb)]
      have hnone : (l.filterMap f).countP (key · = a) = 0 := by
        refine List.countP_eq_zero.mpr fun c hc => ?_
        obtain ⟨y, hy, hc⟩ := List.mem_filterMap.mp hc
        rw [hkey y c hc, decide_eq_true_eq]
        rintro rfl
        exact hx.1 hy
      rw [hnone]
    · cases hfx : f x with
      | none =>
        rw [List.filterMap_cons_none hfx]
        exact ih hx.2 ha
      | some c =>
        have hne : key c ≠ a := by
          rw [hkey x c hfx]
          rintro rfl
          exact hx.1 ha
        rw [List.filterMap_cons_some hfx, List.countP_cons, if_neg (by simpa using hne)]
        exact ih hx.2 ha

theorem lookup_dictOf_mapM {g : α → Option V} {key : α → K}
    (h : l.mapM (fun a => (g a).map (key a, ·)) = some entries) (hkeys : (l.map key).Nodup)
    {a : α} (ha : a ∈ l) : (dictOf entries).lookup (key a) = g a := by
  have hfst : List.Forall₂ (· = ·) (l.map key) (entries.map Prod.fst) := by
    rw [List.forall₂_map_left_iff, List.forall₂_map_right_iff]
    refine (forall₂_of_mapM h).imp fun a e he => ?_
    obtain ⟨v, -, rfl⟩ := Option.map_eq_some_iff.mp he
    rfl
  rw [List.forall₂_eq_eq_eq] at hfst
  obtain ⟨e, he, hg⟩ := mem_mapM_of_mem h ha
  obtain ⟨v, hv, rfl⟩ := Option.map_eq_some_iff.mp hg
  rw [hv, lookup_dictOf (hfst ▸ hkeys) he]

theorem lookup_dictOf_mapM_eq {g : α → Option V} {key : α → K}
    (h : l.mapM (fun a => (g a).map (key a, ·)) = some entries) (k : K) :
    (dictOf entries).lookup k = ((l.filter (key · = k)).getLast?).bind g := by
  have hkey : ∀ a ∈ l, ((g a).map (key a, ·)).any (fun e => e.1 = k) = decide (key a = k) := by
    intro a ha
    obtain ⟨e, -, he⟩ := mem_mapM_of_mem h ha
    obtain ⟨v, -, rfl⟩ := Option.map_eq_some_iff.mp he
    rw [he, Option.any_some]
  have hlast := getLast?_filter_mapM h fun e => e.1 = k
  rw [List.filter_congr hkey] at hlast
  rw [lookup_dictOf_eq_getLast?]
  cases ha : (l.filter (key · = k)).getLast? with
  | none =>
    rw [ha, Option.map_none] at hlast
    rw [Option.map_eq_none_iff.mp hlast]
    rfl
  | some a =>
    rw [ha, Option.map_some] at hlast
    obtain ⟨e, he, hentry⟩ := Option.map_eq_some_iff.mp hlast
    obtain ⟨v, hv, rfl⟩ := Option.map_eq_some_iff.mp hentry.symm
    rw [he, Option.map_some, Option.bind_some, hv]

/-- The items of a dictionary that was filled in the order of a list of keys. -/
def dictItems (d : AList fun _ : K => V) (keys : List K) : List (K × V) :=
  keys.eraseDups.filterMap fun k => (d.lookup k).map (k, ·)

theorem mem_dictItems {d : AList fun _ : K => V} {keys : List K} :
    (k, v) ∈ dictItems d keys ↔ k ∈ keys ∧ d.lookup k = some v := by
  constructor
  · intro h
    obtain ⟨k', hk', h⟩ := List.mem_filterMap.mp h
    obtain ⟨v', hv', he⟩ := Option.map_eq_some_iff.mp h
    obtain ⟨rfl, rfl⟩ := Prod.mk.inj he
    exact ⟨List.mem_eraseDups.mp hk', hv'⟩
  · rintro ⟨hk, hv⟩
    exact List.mem_filterMap.mpr ⟨k, List.mem_eraseDups.mpr hk, by rw [hv]; rfl⟩

end Foundations
