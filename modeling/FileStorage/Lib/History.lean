/-
  Partial maps and the histories that make them.

  A history is the list of the events on the keys, the oldest first: a key is
  created with a value, its value is replaced, it is dropped.  `replay` is the
  map made by a history; `Live` and `latest` say the same of one key in terms
  of the order of its events (`replay_eq_some`).
-/
import Mathlib.Data.List.Induction
import Mathlib.Logic.Function.Basic

namespace History

inductive Event (κ ν : Type) where
  | create (x : κ) (v : ν)
  | put (x : κ) (v : ν)
  | drop (x : κ)
  deriving DecidableEq

variable {κ ν : Type} [DecidableEq κ]

namespace Event

def key : Event κ ν → κ
  | create x _ | put x _ | drop x => x

/-- The effect of an event on a map; `put` does nothing to an absent key. -/
def apply : Event κ ν → (κ → Option ν) → κ → Option ν
  | create x v, m => Function.update m x (some v)
  | put x v, m => Function.update m x ((m x).map fun _ => v)
  | drop x, m => Function.update m x none

/-- The value that the event gives to `x`. -/
def value (x : κ) : Event κ ν → Option ν
  | create y v | put y v => if y = x then some v else none
  | drop _ => none

theorem apply_ne {e : Event κ ν} {m : κ → Option ν} {x : κ} (h : e.key ≠ x) : e.apply m x = m x := by
  cases e <;> exact Function.update_of_ne (Ne.symm h) _ _

end Event

variable {h : List (Event κ ν)} {e : Event κ ν} {x : κ} {v : ν}

/-- The map made by a history. -/
def replay (h : List (Event κ ν)) : κ → Option ν := h.foldl (fun m e => e.apply m) fun _ => none

/-- The key was created and not dropped since. -/
def Live (x : κ) (h : List (Event κ ν)) : Prop :=
  ∃ l₁ v l₂, h = l₁ ++ .create x v :: l₂ ∧ .drop x ∉ l₂

/-- The value given last to a key, by its creation or later. -/
def latest (x : κ) (h : List (Event κ ν)) : Option ν :=
  h.foldl (fun o e => (e.value x).or o) none

@[simp] theorem replay_nil : replay ([] : List (Event κ ν)) = fun _ => none := rfl

@[simp] theorem replay_append : replay (h ++ [e]) = e.apply (replay h) := by
  simp [replay]

@[simp] theorem latest_append : latest x (h ++ [e]) = (e.value x).or (latest x h) := by
  simp [latest]

omit [DecidableEq κ] in
theorem live_nil : ¬ Live x ([] : List (Event κ ν)) := by
  rintro ⟨l₁, v, l₂, h, -⟩
  simp at h

omit [DecidableEq κ] in
theorem live_append : Live x (h ++ [e]) ↔ (∃ v, e = .create x v) ∨ Live x h ∧ e ≠ .drop x := by
  constructor
  · rintro ⟨l₁, v, l₂, he, hd⟩
    rcases List.eq_nil_or_concat l₂ with rfl | ⟨l₂, e', rfl⟩
    · obtain ⟨-, he⟩ := List.append_inj' he rfl
      exact Or.inl ⟨v, by simpa using he⟩
    · rw [List.concat_eq_append, ← List.cons_append, ← List.append_assoc] at he
      obtain ⟨rfl, he⟩ := List.append_inj' he rfl
      obtain rfl : e = e' := by simpa using he
      simp only [List.concat_eq_append, List.mem_append, List.mem_singleton, not_or] at hd
      exact Or.inr ⟨⟨l₁, v, l₂, rfl, hd.1⟩, Ne.symm hd.2⟩
  · rintro (⟨v, rfl⟩ | ⟨⟨l₁, v, l₂, rfl, hd⟩, hne⟩)
    · exact ⟨h, v, [], rfl, by simp⟩
    · exact ⟨l₁, v, l₂ ++ [e], by simp, by simp [hd, Ne.symm hne]⟩

theorem isSome_replay : (replay h x).isSome ↔ Live x h := by
  induction h using List.reverseRecOn with
  | nil => simp [live_nil]
  | append_singleton h e ih =>
    rw [replay_append, live_append]
    by_cases hx : e.key = x
    · subst hx
      cases e with
      | create x w => simp [Event.apply, Event.key]
      | put x w => simpa [Event.apply, Event.key] using ih
      | drop x => simp [Event.apply, Event.key]
    · have hc : ¬ ∃ v, e = .create x v := by rintro ⟨v, rfl⟩; exact hx rfl
      have hd : e ≠ .drop x := by rintro rfl; exact hx rfl
      rw [Event.apply_ne hx, ih]
      simp [hc, hd]

theorem latest_of_replay (hv : replay h x = some v) : latest x h = some v := by
  induction h using List.reverseRecOn generalizing v with
  | nil => simp at hv
  | append_singleton h e ih =>
    rw [replay_append] at hv
    rw [latest_append]
    by_cases hx : e.key = x
    · subst hx
      cases e with
      | create x w => simpa [Event.apply, Event.value, Event.key] using hv
      | put x w =>
        obtain ⟨u, -, rfl⟩ : ∃ u, replay h x = some u ∧ w = v := by
          simpa [Event.apply, Event.key] using hv
        simp [Event.value, Event.key]
      | drop x => simp [Event.apply, Event.key] at hv
    · have hnone : e.value x = none := by cases e <;> simp_all [Event.value, Event.key]
      rw [Event.apply_ne hx] at hv
      rw [hnone, Option.none_or, ih hv]

/-- **A key is in the map if it is live, with the value given last.** -/
theorem replay_eq_some : replay h x = some v ↔ Live x h ∧ latest x h = some v := by
  constructor
  · intro hv
    exact ⟨isSome_replay.1 (by rw [hv]; rfl), latest_of_replay hv⟩
  · rintro ⟨hl, hv⟩
    obtain ⟨w, hw⟩ := Option.isSome_iff_exists.1 (isSome_replay.2 hl)
    rw [hw, ← latest_of_replay hw, hv]

end History
