/-
  Blocks of memory that a component owns.

  A memory is a finite map from addresses to blocks.  `Owns base m l` says that
  `m` consists of `base` and, apart from it, of the blocks of `l`.  Allocation,
  writes and `free` change the list at one place (`Owns.alloc`, `Owns.write`,
  `Owns.free`); when it is empty the memory is `base` again (`Owns.eq_base`).
-/
import Mathlib.Data.Finmap

namespace Footprint

variable {P B : Type} [DecidableEq P] {base m : Finmap fun _ : P => B} {l l₁ l₂ : List (P × B)}
  {p : P} {b b' : B}

structure Owns (base m : Finmap fun _ : P => B) (l : List (P × B)) : Prop where
  nodup : (l.map Prod.fst).Nodup
  apart : ∀ x ∈ l, x.1 ∉ base
  lookup : ∀ x ∈ l, m.lookup x.1 = some x.2
  rest : ∀ p, p ∉ l.map Prod.fst → m.lookup p = base.lookup p

theorem Owns.init : Owns m m [] where
  nodup := List.nodup_nil
  apart := fun _ hx => absurd hx List.not_mem_nil
  lookup := fun _ hx => absurd hx List.not_mem_nil
  rest := fun _ _ => rfl

/-- **Nothing is left behind.** -/
theorem Owns.eq_base (h : Owns base m []) : m = base :=
  Finmap.ext_lookup fun p => h.rest p List.not_mem_nil

theorem Owns.mem (h : Owns base m l) {x : P × B} (hx : x ∈ l) : x.1 ∈ m :=
  Finmap.mem_of_lookup_eq_some (h.lookup x hx)

/-- A fresh address is fresh for all. -/
theorem Owns.fresh (h : Owns base m l) (hp : p ∉ m) : p ∉ l.map Prod.fst ∧ p ∉ base := by
  have hl : p ∉ l.map Prod.fst := by
    intro hm
    obtain ⟨x, hx, rfl⟩ := List.mem_map.1 hm
    exact hp (h.mem hx)
  refine ⟨hl, fun hb => hp ?_⟩
  rw [← Finmap.lookup_isSome, h.rest p hl]
  exact Finmap.lookup_isSome.2 hb

/-- The addresses of the other blocks. -/
theorem Owns.other (h : Owns base m (l₁ ++ (p, b) :: l₂)) {x : P × B} (hx : x ∈ l₁ ++ l₂) : x.1 ≠ p := by
  have hn := h.nodup
  rw [List.map_append, List.map_cons, List.nodup_middle, List.nodup_cons] at hn
  have hm : x.1 ∈ (l₁ ++ l₂).map Prod.fst := List.mem_map_of_mem hx
  rw [List.map_append] at hm
  exact fun he => hn.1 (he ▸ hm)

theorem Owns.alloc (l₁ : List (P × B)) (b : B) (h : Owns base m (l₁ ++ l₂)) (hp : p ∉ m) :
    Owns base (m.insert p b) (l₁ ++ (p, b) :: l₂) := by
  obtain ⟨hl, hb⟩ := h.fresh hp
  constructor
  · rw [List.map_append, List.map_cons, List.nodup_middle, List.nodup_cons, ← List.map_append]
    exact ⟨hl, h.nodup⟩
  · intro x hx
    rcases List.mem_cons.1 (List.perm_middle.mem_iff.1 hx) with rfl | hx
    · exact hb
    · exact h.apart x hx
  · intro x hx
    rcases List.mem_cons.1 (List.perm_middle.mem_iff.1 hx) with rfl | hx
    · exact Finmap.lookup_insert m
    · have hm : x.1 ∈ (l₁ ++ l₂).map Prod.fst := List.mem_map_of_mem hx
      have hne : x.1 ≠ p := fun he => hl (he ▸ hm)
      rw [Finmap.lookup_insert_of_ne m hne]
      exact h.lookup x hx
  · intro q hq
    rw [List.map_append, List.map_cons, List.perm_middle.mem_iff, List.mem_cons, not_or,
      ← List.map_append] at hq
    rw [Finmap.lookup_insert_of_ne m hq.1]
    exact h.rest q hq.2

theorem Owns.free (l₁ : List (P × B)) (h : Owns base m (l₁ ++ (p, b) :: l₂)) :
    Owns base (Finmap.erase p m) (l₁ ++ l₂) := by
  have hn := h.nodup
  rw [List.map_append, List.map_cons, List.nodup_middle, List.nodup_cons, ← List.map_append] at hn
  constructor
  · exact hn.2
  · exact fun x hx => h.apart x (List.perm_middle.mem_iff.2 (List.mem_cons_of_mem _ hx))
  · intro x hx
    rw [Finmap.lookup_erase_ne (h.other hx)]
    exact h.lookup x (List.perm_middle.mem_iff.2 (List.mem_cons_of_mem _ hx))
  · intro q hq
    by_cases he : q = p
    · subst he
      rw [Finmap.lookup_erase]
      exact (Finmap.lookup_eq_none.2 (h.apart (q, b) (by simp))).symm
    · rw [Finmap.lookup_erase_ne he]
      refine h.rest q ?_
      rw [List.map_append, List.map_cons, List.perm_middle.mem_iff, List.mem_cons, not_or,
        ← List.map_append]
      exact ⟨he, hq⟩

/-- A write is no more than a block taken out and put back. -/
theorem Owns.write (l₁ : List (P × B)) (b' : B) (h : Owns base m (l₁ ++ (p, b) :: l₂)) :
    Owns base (m.insert p b') (l₁ ++ (p, b') :: l₂) := by
  have he : (Finmap.erase p m).insert p b' = m.insert p b' := by
    refine Finmap.ext_lookup fun q => ?_
    by_cases hq : q = p
    · rw [hq, Finmap.lookup_insert, Finmap.lookup_insert]
    · rw [Finmap.lookup_insert_of_ne _ hq, Finmap.lookup_insert_of_ne _ hq, Finmap.lookup_erase_ne hq]
  rw [← he]
  exact (h.free l₁).alloc l₁ b' Finmap.notMem_erase_self

end Footprint
