/-
  Lists searched by a key.

  `lookup k l x` is the first element of `l` with the key `x`.  When the keys
  of `l` are distinct it is the only one, and the lookups after an update in
  place, an append or a removal are determined by those before.
-/
import Mathlib.Data.List.Nodup

namespace Keyed

variable {α κ κ' : Type} [DecidableEq κ] [DecidableEq κ'] {k : α → κ} {k' : α → κ'}
  {l : List α} {x : κ} {a : α}

/-- The first element with a given key. -/
def lookup (k : α → κ) (l : List α) (x : κ) : Option α := l.find? (k · = x)

theorem lookup_mem (h : lookup k l x = some a) : a ∈ l := List.mem_of_find?_eq_some h

theorem lookup_key (h : lookup k l x = some a) : k a = x := by
  simpa using List.find?_some h

theorem lookup_eq_none : lookup k l x = none ↔ ∀ a ∈ l, k a ≠ x := by
  simp [lookup]

omit [DecidableEq κ] in
theorem eq_of_key (hn : (l.map k).Nodup) {b : α} (ha : a ∈ l) (hb : b ∈ l) (h : k a = k b) :
    a = b :=
  List.inj_on_of_nodup_map hn ha hb h

/-- With distinct keys a lookup finds every element. -/
theorem lookup_of_mem (hn : (l.map k).Nodup) (ha : a ∈ l) : lookup k l (k a) = some a := by
  cases h : lookup k l (k a) with
  | none => exact absurd rfl (lookup_eq_none.1 h a ha)
  | some b => rw [eq_of_key hn (lookup_mem h) ha (lookup_key h)]

theorem lookup_iff (hn : (l.map k).Nodup) : lookup k l x = some a ↔ a ∈ l ∧ k a = x :=
  ⟨fun h => ⟨lookup_mem h, lookup_key h⟩, fun ⟨ha, hx⟩ => hx ▸ lookup_of_mem hn ha⟩

/-! ## Update, append, removal -/

theorem lookup_map {f : α → α} (hf : ∀ a, k (f a) = k a) :
    lookup k (l.map f) x = (lookup k l x).map f := by
  simp only [lookup, List.find?_map, Function.comp_def, hf]

omit [DecidableEq κ] in
theorem map_key_map {f : α → α} (hf : ∀ a, k (f a) = k a) : (l.map f).map k = l.map k := by
  simp [hf]

theorem lookup_append (h : ∀ b ∈ l, k b ≠ k a) :
    lookup k (l ++ [a]) x = if x = k a then some a else lookup k l x := by
  simp only [lookup, List.find?_append]
  split_ifs with hx
  · subst hx
    rw [show l.find? (k · = k a) = none by simpa using h]
    simp
  · rw [show [a].find? (k · = x) = none by simp [Ne.symm hx]]
    simp

omit [DecidableEq κ] in
theorem nodup_append (hn : (l.map k).Nodup) (h : ∀ b ∈ l, k b ≠ k a) :
    ((l ++ [a]).map k).Nodup := by
  rw [List.map_append, List.nodup_append]
  exact ⟨hn, by simp, by simpa using h⟩

theorem lookup_filter (hn : (l.map k).Nodup) (p : α → Bool) :
    lookup k (l.filter p) x = (lookup k l x).filter p := by
  have hn' : ((l.filter p).map k).Nodup := hn.sublist (List.filter_sublist.map k)
  ext b
  rw [lookup_iff hn', List.mem_filter, Option.filter_eq_some_iff, lookup_iff hn]
  tauto

/-- With distinct keys, taking off the first element with a key takes off all. -/
theorem eraseP_eq_filter (hn : (l.map k).Nodup) :
    l.eraseP (k · = x) = l.filter (k · ≠ x) := by
  induction l with
  | nil => rfl
  | cons b l ih =>
    obtain ⟨hb, hn⟩ := List.nodup_cons.1 hn
    by_cases h : k b = x
    · have : l.filter (k · ≠ x) = l := List.filter_eq_self.2 fun a ha => by
        simpa using fun he : k a = x => hb (List.mem_map.2 ⟨a, ha, he.trans h.symm⟩)
      simp only [h, decide_true, List.eraseP_cons_of_pos, ne_eq, not_true_eq_false, decide_false,
        Bool.false_eq_true, not_false_eq_true, List.filter_cons_of_neg, this]
    · simp [h, ih hn]

/-- Taking off the element with a given key `k'` takes off its key `k` only. -/
theorem lookup_filter_ne (hn : (l.map k).Nodup) (hn' : (l.map k').Nodup) (ha : a ∈ l) :
    lookup k (l.filter (k' · ≠ k' a)) x = if x = k a then none else lookup k l x := by
  rw [lookup_filter hn]
  split_ifs with hx
  · rw [hx, lookup_of_mem hn ha]; simp
  · cases h : lookup k l x with
    | none => rfl
    | some b =>
      have hb : k' b ≠ k' a := fun he =>
        hx (by rw [← lookup_key h, eq_of_key hn' (lookup_mem h) ha he])
      simp [hb]

end Keyed
