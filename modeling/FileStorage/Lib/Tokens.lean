/-
  Lists of tokens, joined with a separator and split again.

  `tokens` splits at the separator and drops the empty pieces.  It gives back
  the names that have been joined if and only if none of them is empty or
  contains the separator (`tokens_intercalate_iff`).
-/
import Mathlib.Algebra.GroupWithZero.Nat
import Mathlib.Algebra.Order.BigOperators.Group.List
import Mathlib.Algebra.Order.Group.Nat
import Mathlib.Data.List.TakeWhile

namespace Tokens

variable {α : Type} [DecidableEq α] {sep : α} {l : List α} {names : List (List α)}

/-- The nonempty pieces of a list between separators. -/
def tokens (sep : α) (l : List α) : List (List α) := (l.splitOn sep).filter (· ≠ [])

theorem not_mem_splitOn {t : List α} (ht : t ∈ l.splitOn sep) : sep ∉ t := by
  induction l generalizing t with
  | nil =>
    rw [List.splitOn_nil, List.mem_singleton] at ht
    rw [ht]
    exact List.not_mem_nil
  | cons x l ih =>
    rw [List.splitOn_cons_eq_if_modifyHead] at ht
    split_ifs at ht with hx
    · rcases List.mem_cons.1 ht with rfl | ht
      · exact List.not_mem_nil
      · exact ih ht
    · cases hl : l.splitOn sep with
      | nil => exact absurd hl (List.splitOn_ne_nil _ _)
      | cons u us =>
        rw [hl, List.modifyHead_cons] at ht
        rcases List.mem_cons.1 ht with rfl | ht
        · intro hmem
          rcases List.mem_cons.1 hmem with rfl | hmem
          · simp at hx
          · exact ih (hl ▸ List.mem_cons_self) hmem
        · exact ih (hl ▸ List.mem_cons_of_mem _ ht)

theorem mem_tokens {t : List α} (ht : t ∈ tokens sep l) : t ≠ [] ∧ sep ∉ t := by
  obtain ⟨h1, h2⟩ := List.mem_filter.1 ht
  exact ⟨of_decide_eq_true h2, not_mem_splitOn h1⟩

@[simp] theorem tokens_nil : tokens sep [] = [] := by
  simp [tokens]

theorem tokens_sep_cons : tokens sep (sep :: l) = tokens sep l := by
  have h := List.splitOn_append_cons_self_of_not_mem (List.not_mem_nil (a := sep)) l
  rw [List.nil_append] at h
  rw [tokens, h]
  rfl

/-- A part without separator comes before the first one. -/
theorem takeWhile_of_not_mem {t : List α} (h : sep ∉ t) (rest : List α) :
    (t ++ rest).takeWhile (· ≠ sep) = t ++ rest.takeWhile (· ≠ sep) :=
  List.takeWhile_append_of_pos fun _ hx => decide_eq_true fun hsep => h (hsep ▸ hx)

theorem dropWhile_of_not_mem {t : List α} (h : sep ∉ t) (rest : List α) :
    (t ++ rest).dropWhile (· ≠ sep) = rest.dropWhile (· ≠ sep) :=
  List.dropWhile_append_of_pos fun _ hx => decide_eq_true fun hsep => h (hsep ▸ hx)

theorem takeWhile_self {t : List α} (h : sep ∉ t) : t.takeWhile (· ≠ sep) = t := by
  have htake := takeWhile_of_not_mem h []
  rwa [List.append_nil, List.takeWhile_nil, List.append_nil] at htake

/-- A list without separator is one token. -/
theorem tokens_self {t : List α} (h : sep ∉ t) (hne : t ≠ []) : tokens sep t = [t] := by
  rw [tokens, List.splitOn_eq_singleton h]
  exact List.filter_eq_self.2 fun u hu => decide_eq_true (List.mem_singleton.1 hu ▸ hne)

theorem tokens_append {t : List α} (h : sep ∉ t) (hne : t ≠ []) :
    tokens sep (t ++ sep :: l) = t :: tokens sep l := by
  rw [tokens, List.splitOn_append_cons_self_of_not_mem h, List.filter_cons_of_pos (by simpa using hne)]
  rfl

/-- Up to the end of its first token a list has this token only. -/
theorem tokens_cut : tokens sep (l.takeWhile (· = sep) ++ (l.dropWhile (· = sep)).takeWhile (· ≠ sep)) =
    (tokens sep l).take 1 := by
  induction l with
  | nil => simp
  | cons x l ih =>
    by_cases hx : x = sep
    · subst hx
      rw [tokens_sep_cons, ← ih, List.takeWhile_cons_of_pos (by simp), List.dropWhile_cons_of_pos (by simp),
        List.cons_append, tokens_sep_cons]
    · rw [List.takeWhile_cons_of_neg (by simpa using hx), List.dropWhile_cons_of_neg (by simpa using hx),
        List.nil_append]
      -- the first token, and what comes after it
      have hne : (x :: l).takeWhile (· ≠ sep) ≠ [] := by
        rw [List.takeWhile_cons_of_pos (by simpa using hx)]
        exact List.cons_ne_nil _ _
      have hno : sep ∉ (x :: l).takeWhile (· ≠ sep) := fun h => by
        simpa using List.mem_takeWhile_imp h
      have happ := List.takeWhile_append_dropWhile (p := (· ≠ sep)) (l := x :: l)
      rw [tokens_self hno hne]
      cases hd : (x :: l).dropWhile (· ≠ sep) with
      | nil =>
        rw [hd, List.append_nil] at happ
        conv_rhs => rw [← happ, tokens_self hno hne]
        rfl
      | cons y m =>
        have hy : y = sep := by
          have hy := List.head?_dropWhile_not (fun z => decide (z ≠ sep)) (x :: l)
          rw [hd] at hy
          simpa using hy
        rw [hd, hy] at happ
        conv_rhs => rw [← happ, tokens_append hno hne]
        rfl

/-- **Joined names are found again** if none is empty or contains the separator. -/
theorem tokens_intercalate_iff :
    tokens sep ([sep].intercalate names) = names ↔ ∀ n ∈ names, n ≠ [] ∧ sep ∉ n := by
  constructor
  · intro h n hn
    rw [← h] at hn
    exact mem_tokens hn
  · intro h
    by_cases hne : names = []
    · subst hne
      rfl
    · rw [tokens, List.splitOn_intercalate sep (fun n hn => (h n hn).2) hne]
      exact List.filter_eq_self.2 fun n hn => decide_eq_true (h n hn).1

omit [DecidableEq α] in
/-- A name after the joined names. -/
theorem intercalate_concat (h : names ≠ []) (n : List α) :
    [sep].intercalate (names ++ [n]) = [sep].intercalate names ++ sep :: n := by
  induction names with
  | nil => exact absurd rfl h
  | cons m names ih =>
    cases names with
    | nil => simp [List.intercalate_cons_cons]
    | cons m' names =>
      rw [List.cons_append, List.cons_append, List.intercalate_cons_cons, ← List.cons_append,
        ih (List.cons_ne_nil _ _), List.intercalate_cons_cons]
      simp only [List.append_assoc]

omit [DecidableEq α] in
/-- The length of joined names, with a terminator. -/
theorem length_intercalate (h : names ≠ []) :
    ([sep].intercalate names).length + 1 = (names.map List.length).sum + names.length := by
  induction names with
  | nil => exact absurd rfl h
  | cons n names ih =>
    cases names with
    | nil => simp
    | cons m names =>
      have := ih (List.cons_ne_nil _ _)
      rw [List.intercalate_cons_cons]
      simp only [List.length_append, List.length_cons, List.length_nil, List.map_cons,
        List.sum_cons] at this ⊢
      omega

omit [DecidableEq α] in
/-- Names with terminators are as many as these at most. -/
theorem length_le_terminated (sep : α) (names : List (List α)) :
    names.length ≤ ((names.map (· ++ [sep])).flatten).length := by
  induction names with
  | nil => exact le_rfl
  | cons n names ih =>
    simp only [List.map_cons, List.flatten_cons, List.length_append, List.length_cons, List.length_nil]
    omega

omit [DecidableEq α] in
theorem mem_intercalate {x : α} (h : x ∈ [sep].intercalate names) : x = sep ∨ ∃ n ∈ names, x ∈ n := by
  induction names with
  | nil => exact absurd h List.not_mem_nil
  | cons n names ih =>
    cases names with
    | nil => exact .inr ⟨n, List.mem_cons_self, by simpa using h⟩
    | cons m names =>
      rw [List.intercalate_cons_cons, List.append_assoc] at h
      rcases List.mem_append.1 h with h | h
      · exact .inr ⟨n, List.mem_cons_self, h⟩
      · rcases List.mem_cons.1 h with h | h
        · exact .inl h
        · obtain h | ⟨n', hn', hx⟩ := ih h
          · exact .inl h
          · exact .inr ⟨n', List.mem_cons_of_mem _ hn', hx⟩

omit [DecidableEq α] in
theorem map_intercalate {β : Type} (f : α → β) :
    ([sep].intercalate names).map f = [f sep].intercalate (names.map fun n => n.map f) := by
  induction names with
  | nil => rfl
  | cons n names ih =>
    cases names with
    | nil => simp
    | cons m names =>
      rw [List.intercalate_cons_cons, List.map_append, List.map_append, ih]
      exact List.intercalate_cons_cons.symm

omit [DecidableEq α] in
/-- More names are longer when joined. -/
theorem intercalate_prefix_inj {more : List (List α)} (hne : names ≠ []) (hpre : names <+: more)
    (h : [sep].intercalate names = [sep].intercalate more) : names = more := by
  obtain ⟨rest, rfl⟩ := hpre
  have hlen := @length_intercalate _ sep _ hne
  rw [h, length_intercalate (List.append_ne_nil_of_left_ne_nil hne rest), List.map_append, List.sum_append,
    List.length_append] at hlen
  have hrest : rest = [] := List.length_eq_zero_iff.1 (by omega)
  rw [hrest, List.append_nil]

omit [DecidableEq α] in
/-- A name is a part of the joined names. -/
theorem infix_intercalate {t : List α} (ht : t ∈ names) : t <:+: [sep].intercalate names := by
  induction names with
  | nil => exact absurd ht List.not_mem_nil
  | cons n names ih =>
    cases names with
    | nil =>
      rw [List.mem_singleton.1 ht]
      simp
    | cons m names =>
      rw [List.intercalate_cons_cons, List.append_assoc]
      rcases List.mem_cons.1 ht with rfl | ht
      · exact (List.prefix_append _ _).isInfix
      · rw [← List.append_assoc]
        exact (ih ht).trans (List.suffix_append _ _).isInfix

/-- A token is a part of the list. -/
theorem infix_of_mem_tokens {t : List α} (ht : t ∈ tokens sep l) : t <:+: l := by
  have h := @infix_intercalate _ sep _ _ (List.mem_filter.1 ht).1
  rwa [List.intercalate_splitOn] at h

omit [DecidableEq α] in
/-- A pattern without separator is found before or after it. -/
theorem infix_append_cons {pat a b : List α} (hsep : sep ∉ pat) :
    pat <:+: a ++ sep :: b ↔ pat <:+: a ∨ pat <:+: b := by
  constructor
  · rintro ⟨s, t, h⟩
    rcases List.append_eq_append_iff.1 h with ⟨c, rfl, -⟩ | ⟨c, hc, ht⟩
    · exact .inl ⟨s, c, rfl⟩
    · -- the pattern ends after the beginning of `c`
      cases c with
      | nil =>
        rw [List.append_nil] at hc
        exact .inl ⟨s, [], by rw [List.append_nil, hc]⟩
      | cons x c =>
        obtain ⟨rfl, rfl⟩ := List.cons.inj ht
        rcases List.append_eq_append_iff.1 hc with ⟨d, rfl, hd⟩ | ⟨d, rfl, hd⟩
        · exact absurd (hd ▸ List.mem_append_right d List.mem_cons_self) hsep
        · cases d with
          | nil => exact absurd (List.nil_append pat ▸ hd ▸ List.mem_cons_self) hsep
          | cons y d =>
            obtain ⟨-, rfl⟩ := List.cons.inj hd
            exact .inr ⟨d, t, by simp⟩
  · rintro (h | h)
    · exact h.trans (List.prefix_append _ _).isInfix
    · exact h.trans ((List.suffix_cons _ _).trans (List.suffix_append _ _)).isInfix

omit [DecidableEq α] in
/-- In joined names it is found in one of them. -/
theorem infix_intercalate_iff {pat : List α} (hsep : sep ∉ pat) (hne : pat ≠ []) :
    pat <:+: [sep].intercalate names ↔ ∃ n ∈ names, pat <:+: n := by
  induction names with
  | nil => simpa using hne
  | cons n names ih =>
    cases names with
    | nil => simp
    | cons m names =>
      rw [List.intercalate_cons_cons, List.append_assoc, List.singleton_append, infix_append_cons hsep, ih]
      simp

/-- The tokens, each with one more character, fit into the list with its terminator. -/
theorem sum_tokens_le :
    ((tokens sep l).map List.length).sum + (tokens sep l).length ≤ l.length + 1 := by
  have hlen := @length_intercalate _ sep _ (List.splitOn_ne_nil sep l)
  rw [List.intercalate_splitOn] at hlen
  have hsub : (tokens sep l).Sublist (l.splitOn sep) := List.filter_sublist
  have hsum := (hsub.map List.length).sum_le_sum fun _ _ => Nat.zero_le _
  have hle := hsub.length_le
  omega

end Tokens
