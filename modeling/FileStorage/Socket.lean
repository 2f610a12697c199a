/-
  Programs over a stream socket.

  A stream socket keeps the bytes and their order, but a `read` may return any
  part of what it asks for.  Here the programs of the workers and of the client
  are executed over a socket: the bytes to come, with the results of the reads
  to come.  `readData` reads on until its buffer is full.

  * `ReadLoop.run_pieces` and `ReadLoop.run_narrowed`: the loop of `readData`
    fills its buffer, however the bytes are delivered, if no count exceeds an
    `int`, else it goes wrong.
  * `stream_runs`: what returns over the socket is a run of the actions as they
    are executed elsewhere, with the bytes that have been received.
-/
import FileStorage.Client
import FileStorage.Controllers
import FileStorage.Threads.Passage
import Mathlib.Algebra.Order.BigOperators.Group.List
import Mathlib.Algebra.Order.Group.Int

namespace FileStorage

open Threads Prog

/-! ## Sockets -/

/-- The bytes that have not been read yet, and the results of the next reads. -/
structure Socket where
  incoming : List Byte
  results : List ℤ
  deriving DecidableEq, Repr

/-- `read(fd, p, size)`: the result, the bytes stored at `p`, and the socket
    afterwards; `none` while there is nothing to read. -/
def Socket.read (k : Socket) (size : ℕ) : Option (ℤ × List Byte × Socket) :=
  match k.results with
  | [] => none
  | res :: results =>
    if -1 ≤ res ∧ res ≤ size ∧ res ≤ k.incoming.length then
      some (res, k.incoming.take res.toNat, ⟨k.incoming.drop res.toNat, results⟩)
    else none

/-- The variables of the loop of `readData`, with the bytes to come. -/
structure ReadLoop where
  buf : List Byte
  /-- the offset of `tmpBuff` in `buf` -/
  tmpBuff : ℤ
  left : ℕ
  rbyte : ℤ
  incoming : List Byte

/-- One round, in which `read` returns `res`; `none` if it cannot, or writes
    outside of the buffer. -/
def ReadLoop.round (l : ReadLoop) (res : ℤ) : Option ReadLoop :=
  if (-1 ≤ res ∧ res ≤ l.left ∧ res ≤ l.incoming.length) ∧
      (0 < res → 0 ≤ l.tmpBuff ∧ l.tmpBuff + res ≤ l.buf.length) then
    let rbyte := i32 res
    some {
      buf := memcpy l.buf l.tmpBuff.toNat (l.incoming.take res.toNat)
      tmpBuff := l.tmpBuff + rbyte
      left := (u64 (l.left - u64 rbyte)).toNat
      rbyte := rbyte
      incoming := l.incoming.drop res.toNat }
  else none

/-- The loop, with the results that its reads leave. -/
def ReadLoop.run : ReadLoop → List ℤ → Option (ReadLoop × List ℤ)
  | l, [] => if l.left = 0 then some (l, []) else none
  | l, res :: results =>
    if l.left = 0 then some (l, res :: results) else (l.round res).bind fun l => l.run results

/-- `readData(fd, buf, size)`: the buffer, the result and the socket afterwards. -/
def readData (k : Socket) (buf : List Byte) (size : ℕ) (unset : ℤ) :
    Option ((List Byte × ℤ) × Socket) :=
  (ReadLoop.run ⟨buf, 0, size, unset, k.incoming⟩ k.results).map fun x =>
    ((x.1.buf, x.1.rbyte), ⟨x.1.incoming, x.2⟩)

/-- The successive reads of `n` bytes return these counts. -/
structure Pieces (n : ℕ) (counts : List ℤ) : Prop where
  pos : ∀ c ∈ counts, 1 ≤ c
  sum : counts.sum = n

/-- The size of the largest block of memory. -/
def OBJECT_MAX : ℕ := 9223372036854775807

/-! ## The loop of `readData` -/

theorem Pieces.cons {n : ℕ} {c : ℤ} {counts : List ℤ} (h : Pieces n (c :: counts)) :
    1 ≤ c ∧ c ≤ n ∧ Pieces (n - c.toNat) counts := by
  have hc := h.pos c List.mem_cons_self
  have hs := h.sum
  have hpos : ∀ x ∈ counts, (1 : ℤ) ≤ x := fun x hx => h.pos x (List.mem_cons_of_mem _ hx)
  have h0 : 0 ≤ counts.sum := List.sum_nonneg fun x hx => zero_le_one.trans (hpos x hx)
  rw [List.sum_cons] at hs
  exact ⟨hc, by omega, hpos, by omega⟩

theorem pieces_zero {counts : List ℤ} (h : Pieces 0 counts) : counts = [] := by
  cases counts with
  | nil => rfl
  | cons c cs =>
    obtain ⟨h1, h2, -⟩ := h.cons
    omega

theorem Pieces.ne_nil {n : ℕ} {counts : List ℤ} (h : Pieces n counts) (hn : 1 ≤ n) :
    ∃ c cs, counts = c :: cs := by
  cases counts with
  | nil =>
    have := h.sum
    rw [List.sum_nil] at this
    omega
  | cons c cs => exact ⟨c, cs, rfl⟩

/-- The last count is not the `-1` of an error. -/
theorem Pieces.getLastD_ne {n : ℕ} {counts : List ℤ} (h : Pieces n counts) (hn : 1 ≤ n) (x : ℤ) :
    counts.getLastD x ≠ -1 := by
  obtain ⟨c, cs, rfl⟩ := h.ne_nil hn
  have := h.pos _ (List.getLastD_mem_cons : cs.getLastD c ∈ c :: cs)
  rw [List.getLastD_cons]
  omega

theorem i32_le {c : ℤ} (h : 0 ≤ c) : i32 c ≤ c := by
  unfold i32; rw [Int.bmod_def]; split <;> omega

theorem i32_lt {c : ℤ} (h : (INT_MAX : ℤ) < c) : i32 c < c :=
  lt_of_le_of_lt (i32_bounds c).2 h

/-- `left -= rbyte`. -/
theorem u64_left (x y z : ℤ) :
    (u64 ((u64 (x - y)).toNat - u64 z)).toNat = (u64 (x - (y + z))).toNat := by
  unfold u64; omega

/-- Bytes copied behind those that the block has already. -/
theorem memcpy_next (done old data : List Byte) (h : data.length ≤ old.length) :
    memcpy (done ++ old) done.length data = done ++ data ++ old.drop data.length := by
  rw [memcpy, List.take_left, List.length_append, Nat.add_sub_cancel_left, List.take_of_length_le h,
    List.drop_append, List.drop_eq_nil_of_le (Nat.le_add_right _ _), Nat.add_sub_cancel_left,
    List.nil_append]

/-- **`readData` reads on.**  However the bytes are delivered, they fill what is
    left of the buffer. -/
theorem ReadLoop.run_pieces {counts : List ℤ} (hle : ∀ c ∈ counts, c ≤ INT_MAX) {m : ℕ}
    (hm : m ≤ OBJECT_MAX) (hd : Pieces m counts) {old body : List Byte} (done rest : List Byte)
    (rbyte : ℤ) (ho : old.length = m) (hb : body.length = m) :
    ReadLoop.run ⟨done ++ old, done.length, m, rbyte, body ++ rest⟩ counts =
      some (⟨done ++ body, done.length + m, 0, counts.getLastD rbyte, rest⟩, []) := by
  induction counts generalizing m done old body rbyte with
  | nil =>
    obtain rfl : m = 0 := by have := hd.sum; simp only [List.sum_nil] at this; omega
    obtain rfl := List.length_eq_zero_iff.1 ho
    obtain rfl := List.length_eq_zero_iff.1 hb
    simp [ReadLoop.run]
  | cons c counts ih =>
    obtain ⟨hc, hcm, hd'⟩ := hd.cons
    have hci : c ≤ INT_MAX := hle c List.mem_cons_self
    obtain ⟨k, rfl⟩ := Int.eq_ofNat_of_zero_le (zero_le_one.trans hc)
    unfold INT_MAX at hci
    unfold OBJECT_MAX at hm
    have hi : i32 k = k := i32_eq (by omega) (by omega)
    have hleft : (u64 (m - u64 k)).toNat = m - k := by unfold u64; omega
    have htake : (body ++ rest).take k = body.take k := List.take_append_of_le_length (by omega)
    rw [Int.toNat_natCast] at hd'
    have hdrop : (body ++ rest).drop k = body.drop k ++ rest := List.drop_append_of_le_length (by omega)
    have hlen : (body.take k).length = k := by rw [List.length_take]; omega
    have hround : ReadLoop.round ⟨done ++ old, done.length, m, rbyte, body ++ rest⟩ k =
        some ⟨(done ++ body.take k) ++ old.drop k, (done ++ body.take k).length, m - k, k,
          body.drop k ++ rest⟩ := by
      rw [ReadLoop.round, if_pos]
      · simp only [Int.toNat_natCast, hi, hleft, htake, hdrop, Option.some.injEq, ReadLoop.mk.injEq,
          and_true]
        constructor
        · rw [memcpy_next _ _ _ (by omega), hlen]
        · rw [List.length_append, hlen]; push_cast; rfl
      · simp only [List.length_append]
        refine ⟨⟨by omega, hcm, by push_cast; omega⟩, fun _ => ⟨by omega, by push_cast; omega⟩⟩
    rw [ReadLoop.run, if_neg (by show m ≠ 0; omega), hround, Option.bind_some,
      ih (fun x hx => hle x (List.mem_cons_of_mem _ hx)) (by unfold OBJECT_MAX; omega) hd' _ _ (by simp; omega)
        (by simp; omega), List.append_assoc, List.take_append_drop, List.getLastD_cons]
    simp only [List.length_append, hlen, Option.some.injEq, Prod.mk.injEq, ReadLoop.mk.injEq, and_true,
      true_and]
    omega

/-- A count beyond the `int` `rbyte` makes the loop lose its place: it runs out
    of its buffer, or waits for more than was sent. -/
theorem ReadLoop.run_narrowed {counts : List ℤ} {m : ℕ} (hd : Pieces m counts) {l : ReadLoop}
    (hbuf : l.buf.length ≤ OBJECT_MAX) (hpos : -2147483648 ≤ l.tmpBuff)
    (hleft : l.left = (u64 (l.buf.length - l.tmpBuff)).toNat) (hroom : l.tmpBuff + m ≤ l.buf.length)
    (hlost : l.tmpBuff + m < l.buf.length ∨ ∃ c ∈ counts, INT_MAX < c) : l.run counts = none := by
  induction counts generalizing m l with
  | nil =>
    have hlt : l.tmpBuff + m < l.buf.length := hlost.resolve_right (by simp)
    unfold OBJECT_MAX at hbuf
    rw [ReadLoop.run, if_neg (by unfold u64 at hleft; omega)]
  | cons c counts ih =>
    obtain ⟨hc, hcm, hd'⟩ := hd.cons
    have hne : l.left ≠ 0 := by unfold OBJECT_MAX at hbuf; unfold u64 at hleft; omega
    rw [ReadLoop.run, if_neg hne, ReadLoop.round]
    split_ifs with hr
    · obtain ⟨h0, -⟩ := hr.2 (by omega)
      have hlo := (i32_bounds c).1
      have hle : i32 c ≤ c := i32_le (by omega)
      rw [Option.bind_some]
      refine ih hd' ?_ ?_ ?_ ?_ ?_
      · rwa [length_memcpy]
      · show -2147483648 ≤ l.tmpBuff + i32 c
        omega
      · simp only [length_memcpy, hleft, u64_left]
      · simp only [length_memcpy]
        omega
      · simp only [length_memcpy]
        rcases hlost with h | ⟨x, hx, hi⟩
        · exact Or.inl (by omega)
        · rcases List.mem_cons.1 hx with rfl | hx
          · have := i32_lt hi
            exact Or.inl (by omega)
          · exact Or.inr ⟨x, hx, hi⟩
    · rfl

/-- `readData` on a body that is delivered in any pieces. -/
theorem readData_eq {body : List Byte} {counts : List ℤ} (rest old : List Byte) (unset : ℤ)
    (hn : body.length ≤ OBJECT_MAX) (hd : Pieces body.length counts) (ho : old.length = body.length) :
    readData ⟨body ++ rest, counts⟩ old body.length unset =
      if ∀ c ∈ counts, c ≤ INT_MAX then some ((body, counts.getLastD unset), ⟨rest, []⟩) else none := by
  rw [readData]
  split_ifs with h
  · have hrun := ReadLoop.run_pieces h hn hd [] rest unset ho rfl
    rw [List.nil_append] at hrun
    rw [show (0 : ℤ) = (([] : List Byte).length : ℤ) from rfl, hrun]
    rfl
  · have hlost : ∃ c ∈ counts, (INT_MAX : ℤ) < c := by push Not at h; exact h
    rw [ReadLoop.run_narrowed hd (by rw [ho]; exact hn) (by show (-2147483648 : ℤ) ≤ 0; omega) ?_ ?_
      (Or.inr hlost)]
    · rfl
    · unfold OBJECT_MAX at hn
      simp only [ho]
      unfold u64
      omega
    · simp [ho]

/-! ## A single read -/

section
variable {body rest : List Byte} {c : ℤ} {cs : List ℤ}

theorem read_eq (rest : List Byte) (hd : Pieces body.length (c :: cs)) :
    Socket.read ⟨body ++ rest, c :: cs⟩ body.length =
      some (c, body.take c.toNat, ⟨body.drop c.toNat ++ rest, cs⟩) := by
  obtain ⟨hc, hcn, -⟩ := hd.cons
  have hok : -1 ≤ c ∧ c ≤ body.length ∧ c ≤ (body ++ rest).length := by
    rw [List.length_append]
    push_cast
    omega
  simp only [Socket.read, if_pos hok, List.take_append_of_le_length (show c.toNat ≤ body.length by omega),
    List.drop_append_of_le_length (show c.toNat ≤ body.length by omega)]

/-- A single read gets the whole body only if it is delivered in one piece. -/
theorem read_whole_iff (hd : Pieces body.length (c :: cs)) {old : List Byte}
    (ho : old.length = body.length) :
    memcpy old 0 (body.take c.toNat) = body ∧ body.drop c.toNat ++ rest = rest ↔
      c :: cs = [(body.length : ℤ)] := by
  obtain ⟨hc, hcn, hd'⟩ := hd.cons
  constructor
  · rintro ⟨-, hnext⟩
    have hlen : body.length - c.toNat = 0 := by
      have := congrArg List.length hnext
      rw [List.length_append, List.length_drop] at this
      omega
    rw [hlen] at hd'
    rw [pieces_zero hd', show c = (body.length : ℤ) by omega]
  · intro he
    obtain ⟨rfl, -⟩ := List.cons.inj he
    have hm := memcpy_next [] old body ho.ge
    rw [Int.toNat_natCast, List.take_length, List.drop_length]
    refine ⟨?_, rfl⟩
    rw [List.nil_append, List.nil_append, List.length_nil, ← ho, List.drop_length, List.append_nil] at hm
    exact hm

end

/-! ## Programs over a socket -/

/-- Execution of a worker's actions over its socket. -/
def streamExec (cfg : Config) : Exec workerSig (Server × Socket) Env
  | .readData size, e, s => (readData s.2 (calloc size) size e.unset).map fun x => (x.1, (s.1, x.2))
  | .read size, _, s => (s.2.read size).map fun x =>
      (if x.1 = -1 then none else some (memcpy (calloc size) 0 x.2.1), (s.1, x.2.2))
  | .call c, e, s => (exec cfg (.call c) e s.1).map fun x => (x.1, (x.2, s.2))
  | .log record, e, s => (exec cfg (.log record) e s.1).map fun x => (x.1, (x.2, s.2))
  | .incNumFileReplacement, e, s => (exec cfg .incNumFileReplacement e s.1).map fun x => (x.1, (x.2, s.2))
  | .write response, e, s => (exec cfg (.write response) e s.1).map fun x => (x.1, (x.2, s.2))
  | .writeBytes buf, e, s => (exec cfg (.writeBytes buf) e s.1).map fun x => (x.1, (x.2, s.2))
  | .crash, _, _ => none

/-- Execution of a client's actions over its socket.  Responses are not part of
    the bytes; a block from `malloc` has arbitrary contents. -/
def clientStreamExec : Exec clientSig (Option ℤ × Socket) ClientEnv
  | .readData size, e, s => (readData s.2 (received size e.bytes) size e.unset).map fun x =>
      (x.1, (s.1, x.2))
  | .read size, e, s => (s.2.read size).map fun x =>
      (if x.1 = -1 then none else some (memcpy (received size e.bytes) 0 x.2.1), (s.1, x.2.2))
  | .newRequest, e, s => (clientExec .newRequest e s.1).map fun x => (x.1, (x.2, s.2))
  | .write request, e, s => (clientExec (.write request) e s.1).map fun x => (x.1, (x.2, s.2))
  | .readResponse, e, s => (clientExec .readResponse e s.1).map fun x => (x.1, (x.2, s.2))
  | .writeBytes buf, e, s => (clientExec (.writeBytes buf) e s.1).map fun x => (x.1, (x.2, s.2))
  | .saveFileDir buf d f, e, s => (clientExec (.saveFileDir buf d f) e s.1).map fun x => (x.1, (x.2, s.2))
  | .returns res, e, s => (clientExec (.returns res) e s.1).map fun x => (x.1, (x.2, s.2))

variable {cfg : Config} {s s' : Server} {r : Request} {t : List (Done workerSig)} {o : Outcome}
  {k k' : Socket} {body rest : List Byte} {counts : List ℤ}

/-- The results of the reads to come are counts that fit an `int`. -/
def Socket.Calm (k : Socket) : Prop := ∀ c ∈ k.results, 1 ≤ c ∧ c ≤ INT_MAX

theorem Socket.read_some {size : ℕ} {c : ℤ} {data : List Byte} (h : k.read size = some (c, data, k')) :
    k.results = c :: k'.results ∧ c ≤ size ∧ data = k.incoming.take c.toNat ∧
      k'.incoming = k.incoming.drop c.toNat := by
  unfold Socket.read at h
  split at h
  · cases h
  · rename_i res results hres
    split_ifs at h with hc
    cases h
    exact ⟨hres, hc.2.1, rfl, rfl⟩

/-- What the loop of `readData` leaves, when no read fails. -/
theorem ReadLoop.run_calm {results results' : List ℤ} {l l' : ReadLoop}
    (h : l.run results = some (l', results')) (hc : ∀ c ∈ results, 1 ≤ c ∧ c ≤ INT_MAX) :
    l'.buf.length = l.buf.length ∧ results' <:+ results ∧
      (l.left = 0 ∧ l' = l ∨ 1 ≤ l'.rbyte ∧ l'.rbyte ≤ l.left) := by
  induction results generalizing l with
  | nil =>
    rw [ReadLoop.run] at h
    split_ifs at h with h0
    cases h
    exact ⟨rfl, List.suffix_refl _, Or.inl ⟨h0, rfl⟩⟩
  | cons c results ih =>
    rw [ReadLoop.run] at h
    split_ifs at h with h0
    · cases h
      exact ⟨rfl, List.suffix_refl _, Or.inl ⟨h0, rfl⟩⟩
    obtain ⟨l₁, hround, h⟩ := Option.bind_eq_some_iff.1 h
    rw [ReadLoop.round] at hround
    split_ifs at hround with hr
    obtain ⟨h1, hle⟩ := hc c List.mem_cons_self
    have hcl : c ≤ l.left := hr.1.2.1
    unfold INT_MAX at hle
    have hi : i32 c = c := i32_eq (by omega) (by omega)
    have hleft : (u64 (l.left - u64 (i32 c))).toNat ≤ l.left := by rw [hi]; unfold u64; omega
    obtain rfl := Option.some.inj hround
    obtain ⟨h2, h3, h4⟩ := ih h fun x hx => hc x (List.mem_cons_of_mem _ hx)
    refine ⟨h2.trans (length_memcpy _ _ _), h3.trans (List.suffix_cons _ _), Or.inr ?_⟩
    rcases h4 with ⟨-, rfl⟩ | ⟨h5, h6⟩
    · exact ⟨h1.trans_eq hi.symm, hi.trans_le hcl⟩
    · exact ⟨h5, h6.trans (by exact_mod_cast hleft)⟩

theorem received_self {buf : List Byte} {n : ℕ} (h : buf.length = n) : received n buf = buf := by
  rw [received, List.take_append_of_le_length h.ge, ← h, List.take_length]

theorem memcpy_received {data : List Byte} {n : ℕ} (h : data.length ≤ n) :
    memcpy (calloc n) 0 data = received n data := by
  have hd : (calloc n).drop data.length = calloc (n - data.length) := List.drop_replicate
  have ht : (calloc n).take (n - data.length) = calloc (n - data.length) := by
    rw [calloc, List.take_replicate, calloc]
    congr 1
    omega
  rw [memcpy, received, List.take_append, List.take_of_length_le h, List.take_zero, List.nil_append,
    length_calloc, Nat.sub_zero, List.take_of_length_le h, Nat.zero_add, hd, ht]

/-- The actions that do not read leave the socket alone. -/
theorem streamExec_dry {a : Act} {e : Env} {x : a.Ans} {σ σ' : Server × Socket}
    (h : streamExec cfg a e σ = some (x, σ')) (h₁ : ∀ n, a ≠ .readData n) (h₂ : ∀ n, a ≠ .read n) :
    exec cfg a e σ.1 = some (x, σ'.1) ∧ σ'.2 = σ.2 := by
  have hother : ∀ {a : Act} {x : a.Ans}, (exec cfg a e σ.1).map (fun y => (y.1, (y.2, σ.2))) =
      some (x, σ') → exec cfg a e σ.1 = some (x, σ'.1) ∧ σ'.2 = σ.2 := by
    intro a x h
    obtain ⟨y, hy, he⟩ := Option.map_eq_some_iff.1 h
    cases he
    exact ⟨hy, rfl⟩
  cases a with
  | readData n => exact absurd rfl (h₁ n)
  | read n => exact absurd rfl (h₂ n)
  | crash => cases h
  | _ => exact hother h

/-- A step over the socket is a step with the bytes that have been received. -/
theorem streamExec_exec {a : Act} {e : Env} {x : a.Ans} {σ σ' : Server × Socket} (hk : σ.2.Calm)
    (h : streamExec cfg a e σ = some (x, σ')) :
    σ'.2.Calm ∧ ∃ e', exec cfg a e' σ.1 = some (x, σ'.1) := by
  obtain ⟨s, k⟩ := σ
  cases a with
  | readData size =>
    obtain ⟨⟨⟨buf, rbyte⟩, k'⟩, hr, he⟩ := Option.map_eq_some_iff.1 h
    obtain ⟨⟨l, results⟩, hrun, hl⟩ := Option.map_eq_some_iff.1 hr
    cases he
    cases hl
    obtain ⟨h1, h2, h3⟩ := ReadLoop.run_calm hrun hk
    have hbuf : received size l.buf = l.buf := received_self (h1.trans (length_calloc size))
    refine ⟨fun c hc => hk c (h2.subset hc), ?_⟩
    rcases h3 with ⟨h0, -⟩ | ⟨h3, h4⟩
    · have h0 : size = 0 := h0
      exact ⟨⟨true, l.buf, l.rbyte, NULL⟩, by simp only [exec, hbuf, if_pos h0]⟩
    · have h4 : l.rbyte ≤ size := h4
      have hs : size ≠ 0 := by omega
      have hr : (l.rbyte - 1) % size + 1 = l.rbyte := by
        rw [Int.emod_eq_of_lt (by omega) (by omega)]; omega
      exact ⟨⟨true, l.buf, l.rbyte - 1, NULL⟩, by simp only [exec, hbuf, if_neg hs, hr]⟩
  | read size =>
    obtain ⟨⟨c, data, k'⟩, hr, he⟩ := Option.map_eq_some_iff.1 h
    cases he
    obtain ⟨hres, hc, rfl, -⟩ := Socket.read_some hr
    obtain ⟨h1, -⟩ := hk c (by rw [hres]; exact List.mem_cons_self)
    have hlen : (k.incoming.take c.toNat).length ≤ size := by rw [List.length_take]; omega
    refine ⟨fun x hx => hk x (by rw [hres]; exact List.mem_cons_of_mem _ hx),
      ⟨true, k.incoming.take c.toNat, 0, NULL⟩, ?_⟩
    simp only [exec, if_true, if_neg (show c ≠ -1 by omega), memcpy_received hlen]
  | _ =>
    obtain ⟨hx, hσ⟩ := streamExec_dry h (fun _ ha => by cases ha) (fun _ ha => by cases ha)
    exact ⟨hσ ▸ hk, e, hx⟩

/-- **What returns over the socket is a run with the bytes that have been
    received.** -/
theorem stream_runs {p : Code} (h : Runs (streamExec cfg) p (s, k) t o (s', k')) (hk : k.Calm)
    (ho : o ≠ .stuck) : Runs (exec cfg) p s t o s' :=
  h.simulate (π := Prod.fst) (I := fun σ => σ.2.Calm)
    (fun _ _ _ _ _ hk hx => streamExec_exec hk hx) hk ho

end FileStorage
