/-
  `readData` of `utils.c`, of the server and of the client, as a full read.

  The loop adds whatever `read` returns: the `0` of the end of the stream
  leaves it as it is, and the `-1` of an error makes `left` larger and moves
  the pointer back.  Without a round `rbyte` is never set.

  * `ReadLoop.run_eq_some`: the loop ends after the first reads that leave
    `left` zero;
  * `fullRead_iff`: when `readData` ends with all the bytes, or with `-1`
    because there were not enough.
-/
import FileStorage.Socket

namespace FileStorage

/-! ## The results of the reads -/

/-- What successive calls of `read` return: counts, `0` at the end of the
    stream and `-1` on an error, and no count after one of these. -/
structure Results where
  get : ℕ → ℤ
  ge : ∀ n, -1 ≤ get n
  ends : ∀ n, get n ≤ 0 → get (n + 1) ≤ 0

namespace Results

/-- The first `n` results. -/
def take (r : Results) (n : ℕ) : List ℤ := (List.range n).map r.get

/-- The offset of `tmpBuff` after `n` reads, each result converted to `int`. -/
def offset (r : Results) (n : ℕ) : ℤ := ((r.take n).map i32).sum

/-- The stream ends or fails with the read `i`, before `size` bytes. -/
structure Short (r : Results) (size i : ℕ) : Prop where
  counts : ∀ j < i, 1 ≤ r.get j
  stops : r.get i ≤ 0
  before : (r.take i).sum < size

/-- The stream gives `size` bytes, and no count exceeds an `int`. -/
def Fills (r : Results) (size : ℕ) : Prop :=
  ∃ n, Pieces size (r.take n) ∧ ∀ c ∈ r.take n, c ≤ INT_MAX

/-- The stream ends or fails before `size` bytes, the pointer never before the
    buffer when bytes come, and `read` then fails so often that `left`, larger
    by one each time, wraps around to zero. -/
def WrapsAround (r : Results) (size : ℕ) : Prop :=
  ∃ i, r.Short size i ∧ (∀ j < i, 0 ≤ r.offset j) ∧
    ∃ n, 18446744073709551616 ≤ size - r.offset i + (r.take n).count (-1)

end Results

/-- The first `n` bytes of a stream. -/
def firstBytes (s : ℕ → Byte) (n : ℕ) : List Byte := (List.range n).map s

/-- The right result of `readData`, if `avail` bytes have come: the bytes of the
    stream in the buffer, and no more taken from the stream, or `-1` because the
    stream gave fewer. -/
def RightResult (r : Results) (s : ℕ → Byte) (avail : ℕ) (buf : List Byte) (x : (List Byte × ℤ) × Socket) :
    Prop :=
  x.1.2 ≠ -1 ∧ buf.length ≤ avail ∧ x.1.1 = firstBytes s buf.length ∧
      x.2.incoming = (firstBytes s avail).drop buf.length ∨
    x.1.2 = -1 ∧ ∃ i, r.Short buf.length i

/-- `readData` on a buffer of `buf.length` bytes returns the right result after
    some reads, and without a read if there is nothing to fill. -/
def FullRead (r : Results) (s : ℕ → Byte) (buf : List Byte) (unset : ℤ) : Prop :=
  ∃ n avail x, readData ⟨firstBytes s avail, r.take n⟩ buf buf.length unset = some x ∧
    (buf = [] → n = 0) ∧ RightResult r s avail buf x

/-! ## The loop -/

variable {l l' : ReadLoop} {rs rest : List ℤ} {c : ℤ} {r : Results} {n m i j : ℕ}

/-- Rounds of the loop, whatever `left` is. -/
def ReadLoop.rounds (l : ReadLoop) (rs : List ℤ) : Option ReadLoop := rs.foldlM ReadLoop.round l

theorem ReadLoop.rounds_cons : l.rounds (c :: rs) = (l.round c).bind fun l => l.rounds rs :=
  List.foldlM_cons

theorem ReadLoop.rounds_concat : l.rounds (rs ++ [c]) = (l.rounds rs).bind fun l => l.round c := by
  rw [rounds, List.foldlM_append]
  simp [rounds]

/-- **The loop ends** after the first reads that leave `left` zero. -/
theorem ReadLoop.run_eq_some (h : l.run rs = some (l', rest)) : ∃ n ≤ rs.length,
    l.rounds (rs.take n) = some l' ∧ l'.left = 0 ∧
      ∀ j < n, ∀ m, l.rounds (rs.take j) = some m → m.left ≠ 0 := by
  induction rs generalizing l with
  | nil =>
    rw [run] at h
    split_ifs at h with h0
    cases h
    exact ⟨0, le_rfl, rfl, h0, fun j hj => absurd hj (Nat.not_lt_zero j)⟩
  | cons c rs ih =>
    rw [run] at h
    split_ifs at h with h0
    · cases h
      exact ⟨0, Nat.zero_le _, rfl, h0, fun j hj => absurd hj (Nat.not_lt_zero j)⟩
    · obtain ⟨l₁, hround, h⟩ := Option.bind_eq_some_iff.1 h
      obtain ⟨n, hn, hrounds, hleft, hfirst⟩ := ih h
      refine ⟨n + 1, Nat.succ_le_succ hn, ?_, hleft, ?_⟩
      · rw [List.take_succ_cons, rounds_cons, hround, Option.bind_some, hrounds]
      · intro j hj m hm
        cases j with
        | zero =>
          obtain rfl := Option.some.inj hm
          exact h0
        | succ j =>
          rw [List.take_succ_cons, rounds_cons, hround, Option.bind_some] at hm
          exact hfirst j (Nat.lt_of_succ_lt_succ hj) m hm

theorem ReadLoop.run_of_rounds (h : l.rounds rs = some l') (hleft : l'.left = 0)
    (hfirst : ∀ j < rs.length, ∀ m, l.rounds (rs.take j) = some m → m.left ≠ 0) :
    l.run rs = some (l', []) := by
  induction rs generalizing l with
  | nil =>
    obtain rfl := Option.some.inj h
    exact if_pos hleft
  | cons c rs ih =>
    rw [rounds_cons] at h
    obtain ⟨l₁, hround, h⟩ := Option.bind_eq_some_iff.1 h
    have hne : l.left ≠ 0 := hfirst 0 (Nat.succ_pos _) l rfl
    rw [run, if_neg hne, hround, Option.bind_some]
    refine ih h fun j hj m hm => hfirst (j + 1) (Nat.succ_lt_succ hj) m ?_
    rw [List.take_succ_cons, rounds_cons, hround, Option.bind_some, hm]

/-- The variables of the loop after the results `rs`. -/
structure ReadLoop.After (l : ReadLoop) (rs : List ℤ) (l' : ReadLoop) : Prop where
  length : l'.buf.length = l.buf.length
  tmpBuff : l'.tmpBuff = l.tmpBuff + (rs.map i32).sum
  left : l'.left = (u64 (l.left - (rs.map i32).sum)).toNat
  rbyte : l'.rbyte = (rs.map i32).getLastD l.rbyte
  incoming : l'.incoming = l.incoming.drop (rs.map Int.toNat).sum
  taken : (rs.map Int.toNat).sum ≤ l.incoming.length

theorem ReadLoop.round_eq_some : l.round c = some l' ↔
    ((-1 ≤ c ∧ c ≤ l.left ∧ c ≤ l.incoming.length) ∧ (0 < c → 0 ≤ l.tmpBuff ∧ l.tmpBuff + c ≤ l.buf.length)) ∧
      l' = {
        buf := memcpy l.buf l.tmpBuff.toNat (l.incoming.take c.toNat)
        tmpBuff := l.tmpBuff + i32 c
        left := (u64 (l.left - u64 (i32 c))).toNat
        rbyte := i32 c
        incoming := l.incoming.drop c.toNat } := by
  rw [round, Option.ite_none_right_eq_some, Option.some.injEq, eq_comm (b := l')]

/-- One more round. -/
theorem ReadLoop.After.round {l₁ : ReadLoop} (h : l.After rs l₁) (hr : l₁.round c = some l') :
    l.After (rs ++ [c]) l' := by
  obtain ⟨⟨⟨-, -, hc⟩, -⟩, rfl⟩ := round_eq_some.1 hr
  have htaken := h.taken
  rw [h.incoming, List.length_drop] at hc
  constructor
  · rw [length_memcpy, h.length]
  · simp only [h.tmpBuff, List.map_append, List.map_singleton, List.sum_append, List.sum_singleton]
    omega
  · simp only [h.left, List.map_append, List.map_singleton, List.sum_append, List.sum_singleton, u64_left]
  · simp
  · simp only [h.incoming, List.drop_drop, List.map_append, List.map_singleton, List.sum_append,
      List.sum_singleton]
  · simp only [List.map_append, List.map_singleton, List.sum_append, List.sum_singleton]
    omega

theorem ReadLoop.rounds_after (hl : l.left < 18446744073709551616) (h : l.rounds rs = some l') :
    l.After rs l' := by
  induction rs using List.reverseRecOn generalizing l' with
  | nil =>
    obtain rfl := Option.some.inj h
    refine ⟨rfl, (Int.add_zero _).symm, ?_, rfl, rfl, Nat.zero_le _⟩
    rw [List.map_nil, List.sum_nil, Int.sub_zero, u64_eq (by omega) (by omega)]
    rfl
  | append_singleton rs c ih =>
    rw [rounds_concat] at h
    obtain ⟨l₁, h₁, h⟩ := Option.bind_eq_some_iff.1 h
    exact (ih h₁).round h

/-! ## The reads -/

theorem length_firstBytes (s : ℕ → Byte) (n : ℕ) : (firstBytes s n).length = n := by
  rw [firstBytes, List.length_map, List.length_range]

namespace Results

theorem take_succ : r.take (n + 1) = r.take n ++ [r.get n] := by
  rw [take, List.range_succ, List.map_append]
  rfl

theorem sum_succ : (r.take (n + 1)).sum = (r.take n).sum + r.get n := by
  rw [take_succ, List.sum_append, List.sum_singleton]

theorem length_take : (r.take n).length = n := by
  rw [take, List.length_map, List.length_range]

theorem take_take (h : m ≤ n) : (r.take n).take m = r.take m := by
  rw [take, ← List.map_take, List.take_range, Nat.min_eq_left h]
  rfl

theorem mem_take (h : c ∈ r.take n) : ∃ j < n, r.get j = c := by
  obtain ⟨j, hj, rfl⟩ := List.mem_map.1 h
  exact ⟨j, List.mem_range.1 hj, rfl⟩

theorem offset_succ : r.offset (n + 1) = r.offset n + i32 (r.get n) := by
  rw [offset, take_succ, List.map_append, List.sum_append]
  simp [offset]

/-- No count comes after the end. -/
theorem le_zero (h : r.get i ≤ 0) (hij : i ≤ j) : r.get j ≤ 0 := by
  induction j, hij using Nat.le_induction with
  | base => exact h
  | succ j _ ih => exact r.ends j ih

theorem lt_of_pos (h : r.get i ≤ 0) (hj : 0 < r.get j) : j < i := by
  by_contra hij
  exact absurd (le_zero h (not_lt.1 hij)) (not_le.2 hj)

/-- Before a count all results are counts. -/
theorem pos_of_pos (h : 0 < r.get n) (hj : j ≤ n) : 1 ≤ r.get j := by
  by_contra hlt
  exact absurd (le_zero (Int.lt_add_one_iff.1 (not_le.1 hlt)) hj) (not_le.2 h)

/-- The offset is at most the number of bytes that have come. -/
theorem offset_le (h : ∀ j < n, 1 ≤ r.get j) : r.offset n ≤ (r.take n).sum := by
  induction n with
  | zero => exact le_rfl
  | succ n ih =>
    have hle := i32_le (zero_le_one.trans (h n (Nat.lt_succ_self n)))
    have ih := ih fun j hj => h j (Nat.lt_succ_of_lt hj)
    rw [offset_succ, sum_succ]
    omega

/-- A count that is not its `int` makes the offset fall behind. -/
theorem fits_of_offset (h : ∀ j < n, 1 ≤ r.get j) (heq : r.offset n = (r.take n).sum) :
    ∀ c ∈ r.take n, c ≤ INT_MAX := by
  induction n with
  | zero => exact fun _ hc => absurd hc List.not_mem_nil
  | succ n ih =>
    have hlast := h n (Nat.lt_succ_self n)
    have hfirst : ∀ j < n, 1 ≤ r.get j := fun j hj => h j (Nat.lt_succ_of_lt hj)
    have hle := i32_le (zero_le_one.trans hlast)
    have hoff := offset_le hfirst
    rw [offset_succ, sum_succ] at heq
    rw [take_succ]
    refine List.forall_mem_append.2 ⟨ih hfirst (by omega), List.forall_mem_singleton.2 ?_⟩
    by_contra hlt
    have hnarrow := i32_lt (not_le.1 hlt)
    omega

/-- A count moves the pointer back by less than `2^31`. -/
theorem offset_ge (h : ∀ j < n, 0 ≤ r.offset j) : -2147483648 ≤ r.offset n := by
  cases n with
  | zero => exact (by decide : (-2147483648 : ℤ) ≤ 0)
  | succ n =>
    have hn := h n (Nat.lt_succ_self n)
    have hlo := (i32_bounds (r.get n)).1
    rw [offset_succ]
    omega

theorem sum_le (h : ∀ j < n, 1 ≤ r.get j) (hm : m ≤ n) : (r.take m).sum ≤ (r.take n).sum := by
  induction n, hm using Nat.le_induction with
  | base => exact le_rfl
  | succ n hmn ih =>
    have hlast := h n (Nat.lt_succ_self n)
    have ih := ih fun j hj => h j (Nat.lt_succ_of_lt hj)
    rw [sum_succ]
    omega

/-- Fewer than no bytes do not come. -/
theorem not_short_zero : ¬ r.Short 0 i := by
  intro h
  have hnonneg := sum_le h.counts (Nat.zero_le i)
  have hbefore := h.before
  simp only [take, List.range_zero, List.map_nil, List.sum_nil] at hnonneg
  exact absurd (hnonneg.trans_lt hbefore) (lt_irrefl 0)

theorem sum_toNat (h : ∀ j < n, 1 ≤ r.get j) : (((r.take n).map Int.toNat).sum : ℤ) = (r.take n).sum := by
  induction n with
  | zero => rfl
  | succ n ih =>
    have hlast := h n (Nat.lt_succ_self n)
    have ih := ih fun j hj => h j (Nat.lt_succ_of_lt hj)
    rw [sum_succ, take_succ, List.map_append, List.sum_append, List.map_singleton, List.sum_singleton]
    omega

/-- The number of failures grows with each `-1`. -/
theorem count_succ :
    ((r.take (n + 1)).count (-1) : ℤ) = (r.take n).count (-1) + if r.get n = -1 then 1 else 0 := by
  rw [take_succ, List.count_append, List.count_singleton]
  by_cases h : r.get n = -1 <;> simp [h]

theorem count_zero (h : ∀ j < n, 1 ≤ r.get j) : (r.take n).count (-1) = 0 := by
  rw [List.count_eq_zero]
  intro hm
  obtain ⟨j, hj, he⟩ := mem_take hm
  have := h j hj
  omega

/-- After the end each failure moves the pointer back. -/
theorem offset_ended (h : ∀ j < i, 1 ≤ r.get j) (hi : r.get i ≤ 0) (hin : i ≤ n) :
    r.offset n = r.offset i - (r.take n).count (-1) := by
  induction n, hin using Nat.le_induction with
  | base => rw [count_zero h]; exact (Int.sub_zero _).symm
  | succ n hin ih =>
    have hle := le_zero hi hin
    have hge := r.ge n
    have h32 : i32 (r.get n) = r.get n := i32_eq (by omega) (by omega)
    rw [offset_succ, count_succ, ih, h32]
    split_ifs <;> omega

end Results

/-! ## The loop on a buffer -/

variable {s : ℕ → Byte} {buf : List Byte} {unset : ℤ} {avail : ℕ}

/-- The variables before the first round. -/
def ReadLoop.start (s : ℕ → Byte) (avail : ℕ) (buf : List Byte) (unset : ℤ) : ReadLoop :=
  ⟨buf, 0, buf.length, unset, firstBytes s avail⟩

theorem start_after (hbuf : buf.length ≤ OBJECT_MAX)
    (h : (ReadLoop.start s avail buf unset).rounds (r.take n) = some l') :
    (ReadLoop.start s avail buf unset).After (r.take n) l' := by
  refine ReadLoop.rounds_after ?_ h
  unfold OBJECT_MAX at hbuf
  show buf.length < 18446744073709551616
  omega

/-- The loop is at its end when `left` is zero in 64 bits. -/
theorem left_eq_zero_iff (h : (ReadLoop.start s avail buf unset).After (r.take n) l') :
    l'.left = 0 ↔ (buf.length - r.offset n) % 18446744073709551616 = 0 := by
  have hleft : l'.left = (u64 (buf.length - r.offset n)).toNat := h.left
  rw [hleft, u64]
  omega

theorem tmpBuff_eq (h : (ReadLoop.start s avail buf unset).After (r.take n) l') :
    l'.tmpBuff = r.offset n :=
  h.tmpBuff.trans (Int.zero_add _)

/-- `rbyte` is the last result. -/
theorem rbyte_eq (hbuf : buf.length ≤ OBJECT_MAX)
    (h : (ReadLoop.start s avail buf unset).rounds (r.take (n + 1)) = some l') :
    l'.rbyte = i32 (r.get n) := by
  rw [(start_after hbuf h).rbyte, Results.take_succ, List.map_append, List.map_singleton,
    List.getLastD_concat]

/-- The bytes that come are stored in the buffer. -/
theorem stored_inside (hbuf : buf.length ≤ OBJECT_MAX)
    (h : (ReadLoop.start s avail buf unset).rounds (r.take n) = some l') (hj : j < n) (hpos : 0 < r.get j) :
    0 ≤ r.offset j ∧ r.offset j + r.get j ≤ buf.length := by
  induction n generalizing l' with
  | zero => exact absurd hj (Nat.not_lt_zero j)
  | succ n ih =>
    rw [Results.take_succ, ReadLoop.rounds_concat] at h
    obtain ⟨l₁, h₁, hround⟩ := Option.bind_eq_some_iff.1 h
    rcases Nat.lt_succ_iff_lt_or_eq.1 hj with hj | rfl
    · exact ih h₁ hj
    · have hafter := start_after hbuf h₁
      obtain ⟨⟨-, hin⟩, -⟩ := ReadLoop.round_eq_some.1 hround
      have hlen : l₁.buf.length = buf.length := hafter.length
      rw [tmpBuff_eq hafter, hlen] at hin
      exact hin hpos

/-- Reads that store inside of the buffer make rounds. -/
theorem rounds_start (hbuf : buf.length ≤ OBJECT_MAX)
    (hin : ∀ j < n, 0 < r.get j → 0 ≤ r.offset j ∧ r.offset j + r.get j ≤ buf.length)
    (havail : ((r.take n).map Int.toNat).sum ≤ avail) :
    ∃ l', (ReadLoop.start s avail buf unset).rounds (r.take n) = some l' := by
  induction n with
  | zero => exact ⟨_, rfl⟩
  | succ n ih =>
    rw [Results.take_succ, List.map_append, List.sum_append, List.map_singleton, List.sum_singleton] at havail
    obtain ⟨l₁, h₁⟩ := ih (fun j hj => hin j (Nat.lt_succ_of_lt hj)) (by omega)
    have hafter := start_after hbuf h₁
    have hleft : l₁.left = (u64 (buf.length - r.offset n)).toNat := hafter.left
    have hlen : l₁.buf.length = buf.length := hafter.length
    have hincoming : l₁.incoming.length = avail - ((r.take n).map Int.toNat).sum := by
      rw [hafter.incoming, List.length_drop]
      exact congrArg (· - _) (length_firstBytes s avail)
    have hge := r.ge n
    have hlast := hin n (Nat.lt_succ_self n)
    rw [Results.take_succ, ReadLoop.rounds_concat, h₁, Option.bind_some]
    refine ⟨_, ReadLoop.round_eq_some.2 ⟨⟨⟨hge, ?_, ?_⟩, ?_⟩, rfl⟩⟩
    · unfold OBJECT_MAX at hbuf
      unfold u64 at hleft
      omega
    · omega
    · rwa [tmpBuff_eq hafter, hlen]

/-- `readData` returns after `n` reads, the first that leave `left` zero. -/
theorem readData_of_rounds (h : (ReadLoop.start s avail buf unset).rounds (r.take n) = some l')
    (hbuf : buf.length ≤ OBJECT_MAX) (hleft : (buf.length - r.offset n) % 18446744073709551616 = 0)
    (hfirst : ∀ j < n, (buf.length - r.offset j) % 18446744073709551616 ≠ 0) :
    readData ⟨firstBytes s avail, r.take n⟩ buf buf.length unset =
      some ((l'.buf, l'.rbyte), ⟨l'.incoming, []⟩) := by
  have hrun : (ReadLoop.start s avail buf unset).run (r.take n) = some (l', []) := by
    refine ReadLoop.run_of_rounds h ((left_eq_zero_iff (start_after hbuf h)).2 hleft) ?_
    intro j hj m hm
    rw [Results.length_take] at hj
    rw [Results.take_take hj.le] at hm
    rw [ne_eq, left_eq_zero_iff (start_after hbuf hm)]
    exact hfirst j hj
  rw [readData]
  exact congrArg (Option.map _) hrun

theorem readData_rounds {x : (List Byte × ℤ) × Socket} (hbuf : buf.length ≤ OBJECT_MAX)
    (h : readData ⟨firstBytes s avail, r.take n⟩ buf buf.length unset = some x) :
    ∃ m l' results, (ReadLoop.start s avail buf unset).rounds (r.take m) = some l' ∧
      (buf.length - r.offset m) % 18446744073709551616 = 0 ∧
      (∀ j < m, (buf.length - r.offset j) % 18446744073709551616 ≠ 0) ∧
      x = ((l'.buf, l'.rbyte), ⟨l'.incoming, results⟩) := by
  rw [readData, Option.map_eq_some_iff] at h
  obtain ⟨⟨l', rest⟩, hrun, heq⟩ := h
  cases heq
  obtain ⟨m, hm, hrounds, hleft, hfirst⟩ := ReadLoop.run_eq_some hrun
  rw [Results.length_take] at hm
  rw [Results.take_take hm] at hrounds
  refine ⟨m, l', rest, hrounds, (left_eq_zero_iff (start_after hbuf hrounds)).1 hleft, ?_, rfl⟩
  intro j hj hzero
  -- the rounds before the last one have been made
  have hsplit : r.take m = r.take j ++ (r.take m).drop j := by
    rw [← Results.take_take (r := r) hj.le, List.take_append_drop]
  rw [hsplit, ReadLoop.rounds, List.foldlM_append] at hrounds
  obtain ⟨l₁, h₁, -⟩ := Option.bind_eq_some_iff.1 hrounds
  refine hfirst j hj l₁ ?_ ((left_eq_zero_iff (start_after hbuf h₁)).2 hzero)
  rw [Results.take_take (hj.le.trans hm)]
  exact h₁

/-! ## When the read is full -/

theorem fullRead_of_fills (hbuf : buf.length ≤ OBJECT_MAX) (h : r.Fills buf.length)
    (hunset : buf = [] → unset ≠ -1) : FullRead r s buf unset := by
  obtain ⟨n, hp, hle⟩ := h
  have hlen := length_firstBytes s buf.length
  have hread := @readData_eq (firstBytes s buf.length) (r.take n) [] buf unset
    (hlen.trans_le hbuf) (hlen.symm ▸ hp) hlen.symm
  rw [if_pos hle, List.append_nil, hlen] at hread
  refine ⟨n, buf.length, _, hread, ?_, Or.inl ⟨?_, le_rfl, rfl, ?_⟩⟩
  · rintro rfl
    have hnil := congrArg List.length (pieces_zero hp)
    rwa [Results.length_take] at hnil
  · rcases Nat.eq_zero_or_pos buf.length with h0 | hpos
    · rw [h0] at hp
      rw [pieces_zero hp]
      exact hunset (List.length_eq_zero_iff.1 h0)
    · exact hp.getLastD_ne hpos unset
  · exact (List.drop_eq_nil_of_le hlen.le).symm

/-- The failures until `left` wraps around. -/
theorem Results.exists_last (hbuf : buf.length ≤ OBJECT_MAX) (hs : r.Short buf.length i)
    (hoff : ∀ j < i, 0 ≤ r.offset j)
    (hwrap : ∃ n, 18446744073709551616 ≤ buf.length - r.offset i + (r.take n).count (-1)) :
    ∃ n ≥ i, r.get n = -1 ∧ buf.length - r.offset i + (r.take n).count (-1) = 18446744073709551615 := by
  have hge := offset_ge hoff
  unfold OBJECT_MAX at hbuf
  obtain ⟨n, hn⟩ : ∃ n, Nat.find hwrap = n + 1 := by
    refine Nat.exists_eq_succ_of_ne_zero fun h0 => ?_
    have hnow := Nat.find_spec hwrap
    rw [h0] at hnow
    simp only [take, List.range_zero, List.map_nil, List.count_nil] at hnow
    omega
  have hnow := Nat.find_spec hwrap
  have hbefore := Nat.find_min hwrap (hn.symm ▸ Nat.lt_succ_self n : n < Nat.find hwrap)
  rw [hn, count_succ] at hnow
  have hin : i ≤ n := by
    by_contra hlt
    have hzero : (r.take (n + 1)).count (-1) = 0 := count_zero fun j hj => hs.counts j (by omega)
    have hcount := r.count_succ (n := n)
    omega
  by_cases hlast : r.get n = -1
  · rw [if_pos hlast] at hnow
    exact ⟨n, hin, hlast, by omega⟩
  · rw [if_neg hlast] at hnow
    omega

/-- The bytes that come before the end have room in the buffer. -/
theorem Results.room_of_short {size : ℕ} (hs : r.Short size i) (hoff : ∀ j < i, 0 ≤ r.offset j)
    (hpos : 0 < r.get j) : 0 ≤ r.offset j ∧ r.offset j + r.get j ≤ size := by
  have hji : j < i := lt_of_pos hs.stops hpos
  have hbefore := hs.before
  have hle := offset_le fun k hk => hs.counts k (hk.trans hji)
  have hsum := sum_le hs.counts (Nat.succ_le_of_lt hji)
  rw [sum_succ] at hsum
  exact ⟨hoff j hji, by omega⟩

/-- `left` does not wrap around before the last failure. -/
theorem Results.left_ne_zero (hbuf : buf.length ≤ OBJECT_MAX) (hs : r.Short buf.length i)
    (hoff : ∀ j < i, 0 ≤ r.offset j)
    (hcount : buf.length - r.offset i + (r.take n).count (-1) = 18446744073709551615) (hj : j ≤ n) :
    (buf.length - r.offset j) % 18446744073709551616 ≠ 0 := by
  have hbefore := hs.before
  unfold OBJECT_MAX at hbuf
  rcases Nat.lt_or_ge j i with hji | hij
  · have hle := offset_le fun k hk => hs.counts k (hk.trans hji)
    have hsum := sum_le hs.counts hji.le
    have hpos := hoff j hji
    omega
  · have hmono : (r.take j).count (-1) ≤ (r.take n).count (-1) := by
      rw [← take_take (r := r) hj]
      exact (List.take_sublist _ _).count_le _
    have hle := offset_le hs.counts
    rw [offset_ended hs.counts hs.stops hij]
    omega

theorem fullRead_of_wrapsAround (hbuf : buf.length ≤ OBJECT_MAX) (h : r.WrapsAround buf.length) :
    FullRead r s buf unset := by
  obtain ⟨i, hs, hoff, hwrap⟩ := h
  obtain ⟨n, hin, hlast, hcount⟩ := Results.exists_last hbuf hs hoff hwrap
  obtain ⟨l', hl'⟩ := @rounds_start r (n + 1) s buf unset _ hbuf
    (fun j _ hpos => Results.room_of_short hs hoff hpos) le_rfl
  have hend : buf.length - r.offset (n + 1) = 18446744073709551616 := by
    rw [Results.offset_ended hs.counts hs.stops (by omega), Results.count_succ, if_pos hlast]
    omega
  have hread := readData_of_rounds hl' hbuf (by rw [hend]; rfl)
    fun j hj => Results.left_ne_zero hbuf hs hoff hcount (Nat.lt_succ_iff.1 hj)
  have hrbyte : l'.rbyte = -1 := by
    rw [rbyte_eq hbuf hl', hlast]
    rfl
  refine ⟨n + 1, _, _, hread, ?_, Or.inr ⟨hrbyte, i, hs⟩⟩
  rintro rfl
  exact absurd hs Results.not_short_zero

/-- What ends with a count has taken just the bytes of the buffer. -/
theorem fills_of_count (hbuf : buf.length ≤ OBJECT_MAX) (havail : buf.length ≤ avail)
    (h : (ReadLoop.start s avail buf unset).rounds (r.take (n + 1)) = some l')
    (hend : (buf.length - r.offset (n + 1)) % 18446744073709551616 = 0) (hpos : 1 ≤ r.get n)
    (htaken : l'.incoming = (firstBytes s avail).drop buf.length) : r.Fills buf.length := by
  have hafter := start_after hbuf h
  obtain ⟨h0, hin⟩ := stored_inside hbuf h (Nat.lt_succ_self n) hpos
  have hcounts : ∀ j < n + 1, 1 ≤ r.get j := fun j hj => Results.pos_of_pos hpos (Nat.lt_succ_iff.1 hj)
  have hoffset : r.offset (n + 1) = buf.length := by
    have hle := i32_le (zero_le_one.trans hpos)
    have hlo := (i32_bounds (r.get n)).1
    unfold OBJECT_MAX at hbuf
    rw [Results.offset_succ] at hend ⊢
    omega
  have hsum : (r.take (n + 1)).sum = buf.length := by
    have hlen := congrArg List.length (hafter.incoming.symm.trans htaken)
    have hle : ((r.take (n + 1)).map Int.toNat).sum ≤ avail :=
      hafter.taken.trans_eq (length_firstBytes s avail)
    have hincoming : (ReadLoop.start s avail buf unset).incoming = firstBytes s avail := rfl
    rw [hincoming, List.length_drop, List.length_drop, length_firstBytes] at hlen
    rw [← Results.sum_toNat hcounts]
    omega
  refine ⟨n + 1, ⟨?_, hsum⟩, Results.fits_of_offset hcounts (hoffset.trans hsum.symm)⟩
  intro c hc
  obtain ⟨j, hj, rfl⟩ := Results.mem_take hc
  exact hcounts j hj

/-- What ends with a failure has wrapped around. -/
theorem wrapsAround_of_failure (hbuf : buf.length ≤ OBJECT_MAX)
    (h : (ReadLoop.start s avail buf unset).rounds (r.take (n + 1)) = some l')
    (hend : (buf.length - r.offset (n + 1)) % 18446744073709551616 = 0) (hlast : r.get n = -1)
    (hs : r.Short buf.length i) : r.WrapsAround buf.length := by
  have hin : i ≤ n := by
    by_contra hlt
    have := hs.counts n (not_le.1 hlt)
    omega
  have hbefore := hs.before
  have hoffset := Results.offset_le hs.counts
  have hended := Results.offset_ended (n := n + 1) hs.counts hs.stops (Nat.le_succ_of_le hin)
  refine ⟨i, hs, ?_, n + 1, by omega⟩
  intro j hj
  exact (stored_inside hbuf h (by omega) (hs.counts j hj)).1

/-- Without a read the buffer is empty, and the result is the unset one. -/
theorem fills_of_noRead {results : List ℤ} (hbuf : buf.length ≤ OBJECT_MAX)
    (h : (ReadLoop.start s avail buf unset).rounds (r.take 0) = some l')
    (hend : (buf.length - r.offset 0) % 18446744073709551616 = 0)
    (hx : RightResult r s avail buf ((l'.buf, l'.rbyte), ⟨l'.incoming, results⟩)) :
    r.Fills buf.length ∧ unset ≠ -1 := by
  obtain rfl := Option.some.inj h
  have hlen : buf.length = 0 := by
    have hoffset : r.offset 0 = 0 := rfl
    unfold OBJECT_MAX at hbuf
    rw [hoffset] at hend
    omega
  rcases hx with ⟨hne, -⟩ | ⟨-, i, hs⟩
  · refine ⟨⟨0, ⟨fun c hc => absurd hc List.not_mem_nil, ?_⟩, fun c hc => absurd hc List.not_mem_nil⟩, hne⟩
    rw [hlen]
    rfl
  · exact absurd (hlen ▸ hs) Results.not_short_zero

/-- What ends with a read has filled the buffer with it, or has wrapped around. -/
theorem ends_of_read {results : List ℤ} (hbuf : buf.length ≤ OBJECT_MAX)
    (h : (ReadLoop.start s avail buf unset).rounds (r.take (n + 1)) = some l')
    (hend : (buf.length - r.offset (n + 1)) % 18446744073709551616 = 0)
    (hfirst : (buf.length - r.offset n) % 18446744073709551616 ≠ 0)
    (hx : RightResult r s avail buf ((l'.buf, l'.rbyte), ⟨l'.incoming, results⟩)) :
    r.Fills buf.length ∧ buf ≠ [] ∨ r.WrapsAround buf.length := by
  have hrbyte := rbyte_eq hbuf h
  have hge := r.ge n
  rcases lt_trichotomy (r.get n) 0 with hneg | hzero | hpos
  · have hfail : r.get n = -1 := by omega
    rcases hx with ⟨hne, -⟩ | ⟨-, i, hs⟩
    · exact absurd (by rw [hrbyte, hfail]; rfl) hne
    · exact Or.inr (wrapsAround_of_failure hbuf h hend hfail hs)
  · -- the round of a `0` changes nothing
    have hsame : r.offset (n + 1) = r.offset n := by
      rw [Results.offset_succ, hzero]
      exact Int.add_zero _
    rw [hsame] at hend
    exact absurd hend hfirst
  · obtain ⟨h0, hin⟩ := stored_inside hbuf h (Nat.lt_succ_self n) hpos
    rcases hx with ⟨-, havail, -, htaken⟩ | ⟨hfail, -⟩
    · refine Or.inl ⟨fills_of_count hbuf havail h hend hpos htaken, ?_⟩
      rintro rfl
      rw [List.length_nil] at hin
      omega
    · -- a count that is `-1` as an `int` does not end the loop
      have hfail : l'.rbyte = -1 := hfail
      have hle := i32_le (le_of_lt hpos)
      rw [Results.offset_succ] at hend
      rw [hrbyte] at hfail
      unfold OBJECT_MAX at hbuf
      omega

/-- **`readData` is a full read** if and only if all bytes come, in counts that
    fit an `int`, and the unset `rbyte` of an empty read is not `-1`, or the
    stream ends before and `read` fails until `left` has wrapped around. -/
theorem fullRead_iff (hbuf : buf.length ≤ OBJECT_MAX) : FullRead r s buf unset ↔
    (r.Fills buf.length ∧ (buf = [] → unset ≠ -1)) ∨ r.WrapsAround buf.length := by
  constructor
  · rintro ⟨n, avail, x, hread, -, hx⟩
    obtain ⟨m, l', results, hrounds, hend, hfirst, rfl⟩ := readData_rounds hbuf hread
    cases m with
    | zero =>
      obtain ⟨hfills, hunset⟩ := fills_of_noRead hbuf hrounds hend hx
      exact Or.inl ⟨hfills, fun _ => hunset⟩
    | succ m =>
      refine (ends_of_read hbuf hrounds hend (hfirst m (Nat.lt_succ_self m)) hx).imp_left ?_
      rintro ⟨hfills, hne⟩
      exact ⟨hfills, fun hnil => absurd hnil hne⟩
  · rintro (⟨hfills, hunset⟩ | hwraps)
    · exact fullRead_of_fills hbuf hfills hunset
    · exact fullRead_of_wrapsAround hbuf hwraps

/-- Two counts of one byte, then the end of the stream. -/
def Results.twoBytes : Results where
  get n := if n < 2 then 1 else 0
  ge n := by split_ifs <;> decide
  ends n h := by split_ifs at h ⊢ <;> omega

theorem fullRead_twoBytes : FullRead Results.twoBytes (fun n => 5 + UInt8.ofNat n) [0, 0] (-1) :=
  (fullRead_iff (by decide)).2 (Or.inl ⟨⟨2, ⟨by decide, by decide⟩, by decide⟩, by decide⟩)

/-- The end of the stream, at once. -/
def Results.closed : Results where
  get _ := 0
  ge _ := by decide
  ends _ _ := le_rfl

theorem Results.offset_closed : closed.offset n = 0 := by
  induction n with
  | zero => rfl
  | succ n ih => rw [offset_succ, ih]; rfl

theorem Results.sum_closed : ((closed.take n).map Int.toNat).sum = 0 := by
  induction n with
  | zero => rfl
  | succ n ih => rw [take_succ, List.map_append, List.sum_append, ih]; rfl

/-- The end of the stream before the first byte keeps `readData` in its loop. -/
theorem not_fullRead_closed : ¬ FullRead Results.closed (fun _ => 0) [0] 0 ∧
    ∀ n, ∃ l, (ReadLoop.start (fun _ => 0) 0 [0] 0).rounds (Results.closed.take n) = some l ∧ l.left = 1 := by
  constructor
  · rintro ⟨n, avail, x, hread, -, -⟩
    obtain ⟨m, -, -, -, hend, -⟩ := readData_rounds (by decide) hread
    rw [Results.offset_closed] at hend
    exact absurd hend (by decide)
  · intro n
    obtain ⟨l, hl⟩ := @rounds_start Results.closed n (fun _ => 0) [0] 0 0 (by decide)
      (fun _ _ hpos => absurd hpos (lt_irrefl 0)) Results.sum_closed.le
    refine ⟨l, hl, ?_⟩
    have hleft := (start_after (by decide) hl).left
    have hoffset : ((Results.closed.take n).map i32).sum = 0 := Results.offset_closed
    rw [hleft, hoffset]
    rfl

end FileStorage
