/-
  The arithmetic of the capacity.

  `max_mem_size` is an `unsigned`, the sizes are `size_t`, and the free space,
  the sum of the sizes and `requiredSpace` are `int`.  `exact_iff` says for
  which capacities, stores and requests the comparisons of `getFreeSpace`, of
  the controllers and of `expelFile` are those of the integers.
-/
import FileStorage.Expulsion

namespace FileStorage

variable {cfg : Config} {q : Queue FileNode} {f : FileNode} {n : ℕ}

/-- The comparisons for a request of `n` bytes are exact. -/
structure Exact (cfg : Config) (q : Queue FileNode) (n : ℕ) : Prop where
  free : getFreeSpace cfg q = (cfg.maxMemSize.toNat : ℤ) - q.total
  test : u64 (getFreeSpace cfg q) < n ↔ cfg.maxMemSize.toNat < q.total + n
  accepts : ∀ f ∈ q.data, makesRoom (getFreeSpace cfg q) (i32 n) f = true ↔
    q.total - f.size + n ≤ cfg.maxMemSize.toNat

/-- `UINT_MAX + 1`. -/
def UINT_MOD : ℕ := 4294967296

/-- Comparing `n`, converted to `int` and then to `size_t`, with the space `g`
    that the removal of a node gives is like comparing `n` itself: `n` is an
    `int`; or it becomes negative, hence huge, and does not fit anyway; or it
    loses its high bits, and neither what is left of it fits. -/
def Comparable (n g : ℕ) : Prop :=
  n ≤ INT_MAX ∨ (INT_MAX < n % UINT_MOD ∧ g < n) ∨
    (UINT_MOD ≤ n ∧ n % UINT_MOD ≤ INT_MAX ∧ g < n % UINT_MOD)

instance {g : ℕ} : Decidable (Comparable n g) := inferInstanceAs (Decidable (_ ∨ _ ∧ _ ∨ _ ∧ _ ∧ _))

/-- The conversion of a size to `int`. -/
theorem i32_natCast (n : ℕ) :
    i32 n = if n % UINT_MOD ≤ INT_MAX then ((n % UINT_MOD : ℕ) : ℤ)
      else ((n % UINT_MOD : ℕ) : ℤ) - UINT_MOD := by
  unfold i32 UINT_MOD INT_MAX
  rw [Int.bmod_def]
  split_ifs <;> omega

/-- The free space is at most the capacity. -/
theorem free_exact_iff (ht : q.total ≤ cfg.maxMemSize.toNat) :
    getFreeSpace cfg q = (cfg.maxMemSize.toNat : ℤ) - q.total ↔
      cfg.maxMemSize.toNat - q.total ≤ INT_MAX := by
  have hM := cfg.maxMemSize.toNat_lt
  rw [getFreeSpace_eq]
  unfold INT_MAX
  constructor
  · intro h
    have := (i32_bounds ((cfg.maxMemSize.toNat : ℤ) - q.total)).2
    omega
  · intro h
    exact i32_eq (by omega) (by omega)

/-- The test of `expelFile`, where the free space is exact. -/
theorem accepts_iff (hf : getFreeSpace cfg q = (cfg.maxMemSize.toNat : ℤ) - q.total)
    (ht : q.total ≤ cfg.maxMemSize.toNat) (hs : f.size ≤ q.total) :
    makesRoom (getFreeSpace cfg q) (i32 n) f = true ↔
      n % UINT_MOD ≤ INT_MAX ∧ n % UINT_MOD ≤ cfg.maxMemSize.toNat - q.total + f.size := by
  have hM := cfg.maxMemSize.toNat_lt
  rw [makesRoom, decide_eq_true_eq, hf, i32_natCast]
  unfold INT_MAX UINT_MOD u64
  split_ifs with h
  · omega
  · omega

theorem comparable_iff {g : ℕ} (hg : g < UINT_MOD) :
    Comparable n g ↔ (n % UINT_MOD ≤ INT_MAX ∧ n % UINT_MOD ≤ g ↔ n ≤ g) := by
  unfold Comparable
  unfold UINT_MOD INT_MAX at *
  constructor
  · intro h
    omega
  · intro h
    omega

/-- **When the arithmetic is exact.**  Exactly if the free space is an `int`, and
    for each stored file the size in the request can be compared with the space
    that its removal gives. -/
theorem exact_iff (ht : q.total ≤ cfg.maxMemSize.toNat) :
    Exact cfg q n ↔ cfg.maxMemSize.toNat - q.total ≤ INT_MAX ∧
      ∀ f ∈ q.data, Comparable n (cfg.maxMemSize.toNat - q.total + f.size) := by
  have hM := cfg.maxMemSize.toNat_lt
  -- the two forms of the test of a node
  have hnode : getFreeSpace cfg q = (cfg.maxMemSize.toNat : ℤ) - q.total → ∀ f ∈ q.data,
      ((makesRoom (getFreeSpace cfg q) (i32 n) f = true ↔
        q.total - f.size + n ≤ cfg.maxMemSize.toNat) ↔
        Comparable n (cfg.maxMemSize.toNat - q.total + f.size)) := by
    intro hfree f hmem
    have hs := size_le_total hmem
    rw [accepts_iff hfree ht hs, comparable_iff (by unfold UINT_MOD; omega)]
    have hroom : q.total - f.size + n ≤ cfg.maxMemSize.toNat ↔
        n ≤ cfg.maxMemSize.toNat - q.total + f.size := by omega
    rw [hroom]
  constructor
  · rintro ⟨hfree, -, hacc⟩
    exact ⟨(free_exact_iff ht).1 hfree, fun f hf => (hnode hfree f hf).1 (hacc f hf)⟩
  · rintro ⟨hint, hcmp⟩
    have hfree := (free_exact_iff ht).2 hint
    refine ⟨hfree, ?_, fun f hf => (hnode hfree f hf).2 (hcmp f hf)⟩
    rw [hfree, u64_eq (by omega) (by omega)]
    omega

/-- A size beyond an `unsigned` that loses its high bits is refused all the same. -/
theorem exact_wrapped : Exact ⟨8, 4⟩ ⟨[⟨1, [47, 97], some [1, 2, 3], 3, 1, true⟩], 1⟩ 4294967305 :=
  (exact_iff (by decide)).2 (by decide)

/-- An empty store of `2^31` bytes has a negative free space. -/
theorem not_exact_empty : ¬ Exact ⟨2147483648, 4⟩ initQueue 9 := by
  intro h
  have hfree := h.free
  rw [show getFreeSpace ⟨2147483648, 4⟩ initQueue = -2147483648 by decide] at hfree
  revert hfree
  decide

end FileStorage
