/-
  Singly linked lists on a heap.

  A heap maps the addresses of the allocated nodes to their contents.  A cell
  is the address of a node with its data; `Path h p cs q` says that following
  the pointers from `p` visits the cells `cs`, up to the pointer `q`.  Paths
  are cut and joined (`path_append`), kept by what happens outside of them
  (`Path.insert`, `Path.erase`), and changed at their last cell
  (`Path.redirect`).
-/
import Mathlib.Data.Finmap

namespace LinkedList

/-- A node: its data and the pointer to the next one. -/
structure Node (P D : Type) where
  data : D
  next : P
  deriving DecidableEq, Repr

/-- The allocated nodes. -/
abbrev Heap (P D : Type) : Type := Finmap fun _ : P => Node P D

variable {P D : Type} [DecidableEq P] {h : Heap P D} {p q z : P} {c : P × D} {cs ds : List (P × D)}

/-- Following the pointers from `p` visits the cells, up to the pointer `q`. -/
def Path (h : Heap P D) (p : P) : List (P × D) → P → Prop
  | [], q => p = q
  | c :: cs, q => p = c.1 ∧ ∃ next, h.lookup c.1 = some ⟨c.2, next⟩ ∧ Path h next cs q

/-- The pointers that are reached from `p`. -/
inductive Follows (h : Heap P D) (p : P) : P → Prop
  | refl : Follows h p p
  | next {a n} : Follows h p a → h.lookup a = some n → Follows h p n.next

theorem path_append : Path h p (cs ++ ds) q ↔ ∃ m, Path h p cs m ∧ Path h m ds q := by
  induction cs generalizing p with
  | nil => simp [Path]
  | cons c cs ih =>
    simp only [List.cons_append, Path, ih]
    constructor
    · rintro ⟨rfl, next, hl, m, h1, h2⟩
      exact ⟨m, ⟨rfl, next, hl, h1⟩, h2⟩
    · rintro ⟨m, ⟨rfl, next, hl, h1⟩, h2⟩
      exact ⟨rfl, next, hl, m, h1, h2⟩

/-- The last cell of a path. -/
theorem path_concat : Path h p (cs ++ [c]) q ↔ Path h p cs c.1 ∧ h.lookup c.1 = some ⟨c.2, q⟩ := by
  rw [path_append]
  constructor
  · rintro ⟨m, h1, rfl, next, hl, rfl⟩
    exact ⟨h1, hl⟩
  · rintro ⟨h1, hl⟩
    exact ⟨c.1, h1, rfl, q, hl, rfl⟩

/-- The cells are allocated. -/
theorem Path.lookup (hp : Path h p cs q) (hc : c ∈ cs) : ∃ next, h.lookup c.1 = some ⟨c.2, next⟩ := by
  induction cs generalizing p with
  | nil => cases hc
  | cons c' cs ih =>
    obtain ⟨-, next, hl, hp⟩ := hp
    rcases List.mem_cons.1 hc with rfl | hc
    · exact ⟨next, hl⟩
    · exact ih hp hc

theorem Path.mem (hp : Path h p cs q) {a : P} (ha : a ∈ cs.map Prod.fst) : a ∈ h := by
  obtain ⟨c, hc, rfl⟩ := List.mem_map.1 ha
  obtain ⟨next, hl⟩ := hp.lookup hc
  exact Finmap.mem_of_lookup_eq_some hl

/-- A path is a matter of its own cells. -/
theorem Path.congr {h' : Heap P D} (hp : Path h p cs q)
    (heq : ∀ a ∈ cs.map Prod.fst, h'.lookup a = h.lookup a) : Path h' p cs q := by
  induction cs generalizing p with
  | nil => exact hp
  | cons c cs ih =>
    obtain ⟨rfl, next, hl, hp⟩ := hp
    refine ⟨rfl, next, ?_, ih hp fun a ha => heq a (List.mem_cons_of_mem _ ha)⟩
    rw [heq c.1 List.mem_cons_self, hl]

theorem Path.insert {a : P} {n : Node P D} (hp : Path h p cs q) (ha : a ∉ cs.map Prod.fst) :
    Path (h.insert a n) p cs q :=
  hp.congr fun _ hb => Finmap.lookup_insert_of_ne _ fun he => ha (he ▸ hb)

theorem Path.erase {a : P} (hp : Path h p cs q) (ha : a ∉ cs.map Prod.fst) :
    Path (Finmap.erase a h) p cs q :=
  hp.congr fun _ hb => Finmap.lookup_erase_ne fun he => ha (he ▸ hb)

/-- The last cell gets another pointer. -/
theorem Path.redirect (hp : Path h p (cs ++ [c]) q) (hc : c.1 ∉ cs.map Prod.fst) :
    Path (h.insert c.1 ⟨c.2, z⟩) p (cs ++ [c]) z := by
  rw [path_concat] at hp ⊢
  exact ⟨hp.1.insert hc, Finmap.lookup_insert h⟩

/-- A path has at most as many cells as there are nodes. -/
theorem Path.length_le (hp : Path h p cs q) (hn : (cs.map Prod.fst).Nodup) :
    cs.length ≤ h.keys.card := by
  have hsub : (cs.map Prod.fst).toFinset ⊆ h.keys := by
    intro a ha
    exact Finmap.mem_keys.2 (hp.mem (List.mem_toFinset.1 ha))
  have hcard := Finset.card_le_card hsub
  rw [List.toFinset_card_of_nodup hn, List.length_map] at hcard
  exact hcard

/-- The cells on the way to a pointer that is no node are determined. -/
theorem Path.unique (hp : Path h p cs z) (hq : Path h p ds z) (hz : z ∉ h) : cs = ds := by
  induction cs generalizing p ds with
  | nil =>
    cases ds with
    | nil => rfl
    | cons d ds =>
      obtain ⟨hd, next, hl, -⟩ := hq
      exact absurd (Finmap.mem_of_lookup_eq_some hl) (hd ▸ hp ▸ hz)
  | cons c cs ih =>
    obtain ⟨rfl, next, hl, hp⟩ := hp
    cases ds with
    | nil =>
      have hc : c.1 = z := hq
      exact absurd (Finmap.mem_of_lookup_eq_some hl) (hc ▸ hz)
    | cons d ds =>
      obtain ⟨hd, next', hl', hq⟩ := hq
      rw [← hd, hl] at hl'
      obtain ⟨hdata, rfl⟩ := Node.mk.inj (Option.some.inj hl')
      rw [ih hp hq, Prod.ext hd hdata]

/-- All that is reached is on the path. -/
theorem Path.follows (hp : Path h p cs z) (hz : z ∉ h) {a : P} (ha : Follows h p a) :
    a = z ∨ a ∈ cs.map Prod.fst := by
  have hsplit : ∃ ds es, cs = ds ++ es ∧ Path h a es z := by
    induction ha with
    | refl => exact ⟨[], cs, rfl, hp⟩
    | @next a n _ hl ih =>
      obtain ⟨ds, es, rfl, he⟩ := ih
      cases es with
      | nil =>
        have ha : a = z := he
        exact absurd (Finmap.mem_of_lookup_eq_some hl) (ha ▸ hz)
      | cons c es =>
        obtain ⟨rfl, next, hl', he⟩ := he
        rw [hl] at hl'
        obtain rfl := Option.some.inj hl'
        exact ⟨ds ++ [c], es, by simp, he⟩
  obtain ⟨ds, es, rfl, he⟩ := hsplit
  cases es with
  | nil => exact Or.inl he
  | cons c es =>
    obtain ⟨rfl, -⟩ := he
    exact Or.inr (by simp)

end LinkedList
