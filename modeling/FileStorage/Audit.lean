/-
  The log as an audit of the requests.

  A request is audited if exactly one record is written for it, with the bytes
  of the requested file that the client has been sent and the bytes that have
  been stored (`Audited`).  `AuditedWhen` says when:

  * an open, delete, close, lock, unlock or read of several files always is;
  * a read only if it succeeds on an empty file;
  * a write or append if it is not refused as too big, `expelFile` gives a node
    whenever it is called, the size is logged as it is stored, and the requested
    file is not itself the one that is expelled and sent.
-/
import FileStorage.Records

namespace FileStorage

open Threads Prog

variable {cfg : Config} {s s' : Server} {r : Request} {t t' : List (Done workerSig)} {o : Outcome}

/-! ## What is sent and stored -/

/-- The number of bytes of the file `p` that the client has been sent. -/
def sentBytes (p : CString) : List (Done workerSig) → ℕ
  | ⟨.write x, _⟩ :: ⟨.writeBytes buf, true⟩ :: t =>
    (if x.fileName = p then buf.length else 0) + sentBytes p t
  | _ :: t => sentBytes p t
  | [] => 0

/-- The number of bytes that an action stores. -/
def storedBy : Done workerSig → ℕ
  | ⟨.call (.writeVirtualFile _ _ n), res⟩ | ⟨.call (.appendVirtualFile _ _ n), res⟩ =>
    if res = (0 : ℤ) then n else 0
  | _ => 0

/-- The number of bytes stored in a trace. -/
def storedBytes (t : List (Done workerSig)) : ℕ := (t.map storedBy).sum

/-- The actions of a request: those of its controller, and of its further
    attempts if it has to wait. -/
inductive Handling (cfg : Config) (r : Request) (s : Server) : List (Done workerSig) → Outcome → Prop
  | first {t : List (Done workerSig)} {o : Outcome} {s' : Server} :
      Runs (exec cfg) (controller cfg r) s t o s' → Handling cfg r s t o
  | again {t t₁ : List (Done workerSig)} {o : Outcome} {s₁ s' : Server} : Handling cfg r s t .parked →
      r.operation = .OP_OPEN_FILE ∨ r.operation = .OP_LOCK_FILE → Reachable cfg s₁ →
      Runs (exec cfg) (attempt r) s₁ t₁ o s' → Handling cfg r s (t ++ t₁) o

/-- Exactly one record is written for the request, with the bytes sent and stored. -/
def Audited (r : Request) (t : List (Done workerSig)) : Prop :=
  ∃ x, recordsOf t = [⟨r, sentBytes r.filepath t, storedBytes t, x⟩]

/-! ## The condition -/

/-- The answer that asks for the contents. -/
def readyResponse : Response := respond 0 (str "Ready to receive file, client has lock")

/-- The socket fails in the reception of the contents. -/
def cutOff : Done workerSig → Bool
  | ⟨.write x, ok⟩ => x = readyResponse && !ok
  | ⟨.readData _, x⟩ => x.2 = -1
  | ⟨.read _, x⟩ => x.isNone
  | _ => false

/-- The reception of the contents does not fail. -/
def Receives (t : List (Done workerSig)) : Prop := ∀ d ∈ t, cutOff d = false

/-- The client holds the lock of the requested file, and the file is open. -/
def Accepts (q : Queue FileNode) (r : Request) : Prop :=
  ∃ f, getFileNode q r.filepath = some f ∧ f.clientId = r.clientId ∧ f.isOpen

instance : Decidable (Receives t) := inferInstanceAs (Decidable (∀ d ∈ t, _))

theorem accepts_eq {q : Queue FileNode} : Accepts q r ↔
    ((getFileNode q r.filepath).any fun f => f.clientId = r.clientId && f.isOpen) = true := by
  cases h : getFileNode q r.filepath <;> simp [Accepts, h]

instance {q : Queue FileNode} : Decidable (Accepts q r) := decidable_of_iff _ accepts_eq.symm

/-- The answer of `expelFile`, null if it is not called. -/
def expelledPtr : List (Done workerSig) → Ptr
  | ⟨.call (.expelFile _), p⟩ :: _ => p
  | _ :: t => expelledPtr t
  | [] => NULL

/-- The queue when the lock is checked. -/
def queueChecked (s : Server) (t : List (Done workerSig)) : Queue FileNode :=
  (removeNode s.fileQueue (expelledPtr t)).2

/-- A read is audited if the file is there, open and empty, and the client is sent it. -/
def ReadAuditedWhen (s : Server) (r : Request) (t : List (Done workerSig)) : Prop :=
  ∃ f, getFileNode s.fileQueue r.filepath = some f ∧ f.isOpen ∧ f.size = 0 ∧ ∀ d ∈ t, completes d

structure StoreAuditedWhen (cfg : Config) (s : Server) (r : Request) (t : List (Done workerSig)) :
    Prop where
  fits : ¬ r.tooBig cfg
  /-- `expelFile` gives a node -/
  found : NeedsExpulsion cfg s.fileQueue r → (s.fileQueue.deref (expelledPtr t)).isSome
  stored : Accepts (queueChecked s t) r ∧ Receives t → r.fileSize ≤ INT_MAX
  refused : ¬ (Accepts (queueChecked s t) r ∧ Receives t) → r.fileSize % 4294967296 = 0
  /-- the requested file is not sent as the expelled one -/
  unsent : ∀ f, s.fileQueue.deref (expelledPtr t) = some f → f.pathname = r.filepath →
    ⟨.writeBytes f.content, true⟩ ∈ t → f.content = []

/-- When a request handled from the state `s` with the actions `t` is audited. -/
def AuditedWhen (cfg : Config) (s : Server) (r : Request) (t : List (Done workerSig)) : Prop :=
  match r.operation with
  | .OP_READ_FILE => ReadAuditedWhen s r t
  | .OP_WRITE_FILE | .OP_APPEND_FILE => StoreAuditedWhen cfg s r t
  | _ => True

/-! ## The body of a write or append -/

@[simp] theorem storedBytes_append : storedBytes (t ++ t') = storedBytes t + storedBytes t' := by
  rw [storedBytes, List.map_append, List.sum_append]
  rfl

@[simp] theorem storedBytes_singleton {d : Done workerSig} : storedBytes [d] = storedBy d := by
  simp [storedBytes]

@[simp] theorem receives_append : Receives (t ++ t') ↔ Receives t ∧ Receives t' := List.forall_mem_append

@[simp] theorem receives_singleton {d : Done workerSig} : Receives [d] ↔ cutOff d = false := by
  simp [Receives]

/-- The trace stores the contents if the client may and the reception does not fail. -/
def Stores (q : Queue FileNode) (r : Request) (t : List (Done workerSig)) : Prop :=
  storedBytes t = if Accepts q r ∧ Receives t then r.fileSize else 0

theorem Stores.of_not {q : Queue FileNode} (hn : ¬ (Accepts q r ∧ Receives t)) (hs : storedBytes t = 0) :
    Stores q r t := by
  rw [Stores, hs, if_neg hn]

/-- What comes before does not count if it stores nothing and does not fail. -/
theorem Stores.after {q : Queue FileNode} (h : Stores q r t') (h0 : storedBytes t = 0) (hr : Receives t) :
    Stores q r (t ++ t') := by
  rw [Stores, storedBytes_append, h0, h, Nat.zero_add]
  exact if_congr (and_congr_right fun _ => by simp [hr]) rfl rfl

theorem writeVirtualFile_zero {p : CString} {buf : List Byte} {n : ℕ} :
    (writeVirtualFile s p buf n).1 = 0 ↔ (getFileNode s.fileQueue p).any (·.isOpen) = true := by
  rw [writeVirtualFile]
  cases getFileNode s.fileQueue p with
  | none => simp
  | some f => cases hf : f.isOpen <;> simp [hf]

theorem appendVirtualFile_zero {p : CString} {buf : List Byte} {n : ℕ} :
    (appendVirtualFile s p buf n).1 = 0 ↔ (getFileNode s.fileQueue p).any (·.isOpen) = true := by
  rw [appendVirtualFile]
  cases getFileNode s.fileQueue p with
  | none => simp
  | some f => cases hf : f.isOpen <;> simp [hf]

theorem accepts_of_lock {q : Queue FileNode} (h : hasFileLock q r.filepath r.clientId = 0) :
    Accepts q r ↔ (getFileNode q r.filepath).any (·.isOpen) = true := by
  obtain ⟨f, hf, hc⟩ := hasFileLock_iff.1 h
  simp [Accepts, hf, hc]

theorem accepts_lock {q : Queue FileNode} (h : Accepts q r) : hasFileLock q r.filepath r.clientId = 0 := by
  obtain ⟨f, hf, hc, -⟩ := h
  exact hasFileLock_iff.2 ⟨f, hf, hc⟩

/-- The answer after the store is not the one that asks for the contents. -/
theorem closing_ne_ready {b : Prop} [Decidable b] :
    (if b then respond 0 (str "File scritto correttamente!") else respond (-1) (str "Errore scrittura file")) ≠
      readyResponse := by
  split_ifs
  · decide
  · decide

/-- The lock is checked, the contents are asked for and received, the call `c`
    stores them, and the client is answered. -/
theorem Stores.of_call {q : Queue FileNode} {a d c : Done workerSig} {x : Response} {ok : Bool}
    (hlock : hasFileLock q r.filepath r.clientId = 0) (ha : storedBy a = 0) (ha' : cutOff a = false)
    (hd : storedBy d = 0) (hd' : cutOff d = false)
    (hc : storedBy c = if (getFileNode q r.filepath).any (·.isOpen) then r.fileSize else 0)
    (hc' : cutOff c = false) (hx : x ≠ readyResponse) :
    Stores q r ([] ++ [a] ++ [⟨.write readyResponse, true⟩] ++ [d] ++ [c] ++ [⟨.write x, ok⟩]) := by
  have hrec : Receives ([] ++ [a] ++ [⟨.write readyResponse, true⟩] ++ [d] ++ [c] ++ [⟨.write x, ok⟩]) := by
    simp only [receives_append, receives_singleton, ha', hd', hc', List.nil_append]
    simp [cutOff, hx]
  rw [Stores, if_congr (and_iff_left hrec) rfl rfl, if_congr (accepts_of_lock hlock) rfl rfl, ← hc]
  simp only [storedBytes_append, storedBytes_singleton, ha, hd, List.nil_append]
  simp [storedBy]

theorem writeFileBody_stores (h : Runs (exec cfg) (writeFileBody r) s t o s') : Stores s.fileQueue r t := by
  refine wp_sound (Q := fun t _ _ => Stores s.fileQueue r t) h [] ?_
  rw [writeFileBody, wp_act (fun _ => (hasFileLock s.fileQueue r.filepath r.clientId, s)) fun _ => rfl]
  intro e
  dsimp only
  split_ifs with hlock
  · rw [wp_write]
    rintro (_ | _)
    · exact .of_not (fun hr => by simpa [Receives, cutOff, readyResponse] using hr.2) rfl
    · simp only [if_true, wp_readData]
      intro bytes u
      generalize (if r.fileSize = 0 then u else u % r.fileSize + 1) = count
      split_ifs with hread
      · rw [@wp_act cfg s _ _ (.call (.writeVirtualFile _ _ _)) _
          (fun _ => writeVirtualFile s r.filepath (received r.fileSize bytes) r.fileSize) fun _ => rfl]
        intro e
        rw [wp_write]
        intro ok
        refine .of_call hlock rfl rfl rfl (by simpa [cutOff] using hread) ?_ rfl closing_ne_ready
        exact if_congr writeVirtualFile_zero rfl rfl
      · refine .of_not (fun hr => ?_) rfl
        rw [not_not.1 hread] at hr
        simpa [Receives, cutOff] using hr.2
  · rw [wp_write]
    intro ok
    exact .of_not (fun hr => hlock (accepts_lock hr.1)) rfl

theorem appendFileBody_stores (h : Runs (exec cfg) (appendFileBody r) s t o s') :
    Stores s.fileQueue r t := by
  refine wp_sound (Q := fun t _ _ => Stores s.fileQueue r t) h [] ?_
  rw [appendFileBody, wp_act (fun _ => (hasFileLock s.fileQueue r.filepath r.clientId, s)) fun _ => rfl]
  intro e
  dsimp only
  split_ifs with hlock
  · rw [wp_write]
    rintro (_ | _)
    · exact .of_not (fun hr => by simpa [Receives, cutOff, readyResponse] using hr.2) rfl
    · simp only [if_true, wp_read]
      refine ⟨.of_not (fun hr => by simpa [Receives, cutOff] using hr.2) rfl, fun bytes => ?_⟩
      rw [@wp_act cfg s _ _ (.call (.appendVirtualFile _ _ _)) _
        (fun _ => appendVirtualFile s r.filepath (received r.fileSize bytes) r.fileSize) fun _ => rfl]
      intro e
      rw [wp_write]
      intro ok
      refine .of_call hlock rfl rfl rfl rfl ?_ rfl closing_ne_ready
      exact if_congr appendVirtualFile_zero rfl rfl
  · rw [wp_write]
    intro ok
    exact .of_not (fun hr => hlock (accepts_lock hr.1)) rfl

/-- **From the lock check on, the contents are stored if the client may and the
    reception does not fail.** -/
theorem storeBody_stores (h : Runs (exec cfg) (storeBody r) s t o s') : Stores s.fileQueue r t := by
  rw [storeBody] at h
  split_ifs at h
  · exact writeFileBody_stores h
  · exact appendFileBody_stores h

/-! ## What is sent -/

theorem sentBytes_unsent {p : CString} (h : ∀ d ∈ t, d.1.sends = 0) : sentBytes p t = 0 := by
  induction t with
  | nil => rfl
  | cons d t ih =>
    have hrec := ih fun d hd => h d (List.mem_cons_of_mem _ hd)
    rw [sentBytes.eq_def]
    split
    · next heq =>
      obtain ⟨-, rfl⟩ := List.cons.inj heq
      cases h ⟨.writeBytes _, true⟩ (List.mem_cons_of_mem _ List.mem_cons_self)
    · next heq => cases heq; exact hrec
    · rfl

theorem sentBytes_cons {p : CString} {d : Done workerSig} (hd : ∀ x, d.1 ≠ .write x) :
    sentBytes p (d :: t) = sentBytes p t := by
  rw [sentBytes.eq_def]
  split
  · next heq =>
    obtain ⟨rfl, -⟩ := List.cons.inj heq
    exact absurd rfl (hd _)
  · next heq => cases heq; rfl
  · next heq => cases heq

/-- The bytes sent by a transfer. -/
theorem sentBytes_transfer {p name : CString} {st : ℤ} {n : ℕ} {buf : List Byte} {sent : Bool × Bool}
    (ht : ∀ d ∈ t, d.1.sends = 0) : sentBytes p (transfer st n name buf sent ++ t) =
      if sent.1 ∧ sent.2 ∧ name = p then buf.length else 0 := by
  obtain ⟨_ | _, ok⟩ := sent
  · rw [if_neg fun h => Bool.false_ne_true h.1]
    exact sentBytes_unsent (List.forall_mem_cons.2 ⟨rfl, ht⟩)
  · have h0 := sentBytes_unsent (p := p) ht
    cases ok with
    | false =>
      rw [if_neg fun h => Bool.false_ne_true h.2.1]
      exact h0
    | true =>
      change (if name = p then buf.length else 0) + sentBytes p t = _
      rw [h0, Nat.add_zero]
      exact if_congr (by simp) rfl rfl

/-! ## The controllers -/

theorem storedBy_le {d : Done workerSig} : storedBy d ≤ d.1.added := by
  unfold storedBy
  split
  · split_ifs <;> simp [Act.added]
  · split_ifs <;> simp [Act.added]
  · exact Nat.zero_le _

/-- A program that stores nothing. -/
theorem runs_unstored {p : Code} (h : Runs (exec cfg) p s t o s') (hp : Budget Act.added p 0) :
    storedBytes t = 0 := by
  have hcost := (h.costless (π := fun _ => ()) (fun _ _ _ _ _ _ _ => rfl) hp).1
  rw [storedBytes, List.sum_eq_zero_iff]
  intro n hn
  obtain ⟨d, hd, rfl⟩ := List.mem_map.1 hn
  exact Nat.le_zero.1 (storedBy_le.trans_eq (hcost d hd))

/-- The further attempts add nothing. -/
theorem Handling.unsent (hw : r.operation ≠ .OP_WRITE_FILE) (ha : r.operation ≠ .OP_APPEND_FILE)
    (hr : r.operation ≠ .OP_READ_FILE) (hu : ∀ n, r.operation ≠ .unknown n)
    (h : Handling cfg r s t o) :
    recordsOf t = [⟨r, 0, 0, none⟩] ∧ storedBytes t = 0 ∧ ∀ d ∈ t, d.1.sends = 0 := by
  induction h with
  | first h =>
    obtain ⟨t', rfl, ⟨hl, -⟩, hs⟩ := logsFirst_trace hw ha hr hu h
    refine ⟨?_, runs_unstored h (controller_budget hw ha), List.forall_mem_cons.2 ⟨rfl, hs⟩⟩
    rw [recordsOf_cons, hl]
    rfl
  | again _ _ _ h ih =>
    obtain ⟨h1, h2, h3⟩ := ih
    refine ⟨?_, ?_, List.forall_mem_append.2 ⟨h3, runs_unsent h attempt_records.2⟩⟩
    · rw [recordsOf_append, h1, (runs_unrecorded h attempt_records.1).1]
      rfl
    · rw [storedBytes_append, h2, runs_unstored h attempt_budget]

/-- A request that does not wait. -/
theorem Handling.runs (ho : r.operation ≠ .OP_OPEN_FILE) (hl : r.operation ≠ .OP_LOCK_FILE)
    (h : Handling cfg r s t o) : ∃ s', Runs (exec cfg) (controller cfg r) s t o s' := by
  cases h with
  | first h => exact ⟨_, h⟩
  | again _ hop => exact absurd hop (not_or.2 ⟨ho, hl⟩)

theorem readVirtualFile_some {q : Queue FileNode} {p : CString} {buf : List Byte} {size : ℕ}
    (h : readVirtualFile q p = some (buf, size)) :
    ∃ f, getFileNode q p = some f ∧ f.isOpen ∧ f.size = size ∧ buf.length = size := by
  rw [readVirtualFile] at h
  split at h
  · cases h
  · next f hf =>
    split_ifs at h with ho
    cases h
    exact ⟨f, hf, by simpa using ho, rfl, by simp⟩

/-- The writes of a read complete if both parts of the transfer do. -/
theorem read_completes {buf : List Byte} {size : ℕ} {sent : Bool × Bool} :
    (∀ d ∈ (⟨.call (.readVirtualFile r.filepath), some (buf, size)⟩ : Done workerSig) ::
      (transfer 0 size r.filepath buf sent ++
        if sent.1 ∧ sent.2 ∧ i32 size = 0 then [⟨.log ⟨r, 0, 0, none⟩, ()⟩] else []), completes d) ↔
      sent.1 ∧ sent.2 := by
  obtain ⟨_ | _, _ | _⟩ := sent
  · simp [transfer, completes]
  · simp [transfer, completes]
  · simp [transfer, completes]
  · by_cases h0 : i32 size = 0 <;> simp [transfer, completes, h0]

theorem read_audited_iff (hop : r.operation = .OP_READ_FILE)
    (h : Runs (exec cfg) (controller cfg r) s t o s') : Audited r t ↔ ReadAuditedWhen s r t := by
  rcases read_trace hop h with ⟨hnone, ok, rfl⟩ | ⟨buf, size, sent, hsome, rfl⟩
  · constructor
    · rintro ⟨x, hx⟩
      cases hx
    · rintro ⟨f, hf, ho, -⟩
      simp [readVirtualFile, hf, ho] at hnone
  · obtain ⟨f, hf, ho, hsize, hbuf⟩ := readVirtualFile_some hsome
    have hstored := runs_unstored h (controller_budget (by simp [hop]) (by simp [hop]))
    have hrest : ∀ d ∈ (if sent.1 ∧ sent.2 ∧ i32 size = 0 then
        [(⟨.log ⟨r, 0, 0, none⟩, ()⟩ : Done workerSig)] else []), d.1.sends = 0 := by
      split_ifs
      · exact List.forall_mem_singleton.2 rfl
      · exact fun d hd => absurd hd List.not_mem_nil
    rw [Audited, hstored, recordsOf_cons, recordsOf_append, recordsOf_transfer,
      sentBytes_cons (fun x hx => by cases hx), sentBytes_transfer hrest, ReadAuditedWhen, read_completes]
    by_cases hc : sent.1 ∧ sent.2 ∧ i32 size = 0
    · rw [if_pos hc, if_pos ⟨hc.1, hc.2.1, rfl⟩, hbuf]
      constructor
      · rintro ⟨x, hx⟩
        have hx' : (⟨r, 0, 0, none⟩ : LogRecord) = ⟨r, size, 0, x⟩ := (List.cons.inj hx).1
        have h0 : (0 : ℤ) = size := congrArg LogRecord.readByte hx'
        exact ⟨f, hf, ho, by omega, hc.1, hc.2.1⟩
      · rintro ⟨g, hg, -, hg0, -⟩
        obtain rfl : f = g := Option.some.inj (hf.symm.trans hg)
        refine ⟨none, ?_⟩
        rw [← hsize, hg0]
        rfl
    · rw [if_neg hc]
      constructor
      · rintro ⟨x, hx⟩
        cases hx
      · rintro ⟨g, hg, -, hg0, h1, h2⟩
        obtain rfl : f = g := Option.some.inj (hf.symm.trans hg)
        refine absurd ⟨h1, h2, ?_⟩ hc
        rw [← hsize, hg0]
        rfl

/-! ## Writes and appends -/

theorem i32_self_iff {n : ℕ} : i32 n = n ↔ n ≤ INT_MAX := by
  have hb := i32_bounds n
  rw [INT_MAX]
  constructor
  · intro h
    omega
  · intro h
    exact i32_eq (by omega) (by omega)

theorem i32_zero_iff {n : ℕ} : i32 n = 0 ↔ n % 4294967296 = 0 := by
  rw [i32, Int.bmod_def]
  split <;> omega

/-- The record of a write or append agrees with what it has sent and stored. -/
theorem Stores.audits_iff {q : Queue FileNode} {x : Option CString} (hst : Stores q r t)
    (hrec : recordsOf t = [⟨r, 0, i32 r.fileSize, x⟩]) :
    Audited r t ↔ sentBytes r.filepath t = 0 ∧ (Accepts q r ∧ Receives t → r.fileSize ≤ INT_MAX) ∧
      (¬ (Accepts q r ∧ Receives t) → r.fileSize % 4294967296 = 0) := by
  have haudit : Audited r t ↔ sentBytes r.filepath t = 0 ∧ i32 r.fileSize = storedBytes t := by
    rw [Audited, hrec]
    constructor
    · rintro ⟨y, hy⟩
      obtain ⟨-, h1, h2, -⟩ := LogRecord.mk.inj (List.cons.inj hy).1
      exact ⟨by omega, h2⟩
    · rintro ⟨h1, h2⟩
      refine ⟨x, ?_⟩
      rw [h1, h2]
      rfl
  rw [haudit, hst]
  by_cases hc : Accepts q r ∧ Receives t
  · simp only [hc, and_self, if_true, true_imp_iff, not_true_eq_false, false_imp_iff, and_true, i32_self_iff]
  · simp only [hc, if_false, false_imp_iff, not_false_eq_true, true_imp_iff, true_and, Nat.cast_zero,
      i32_zero_iff]

theorem expelledPtr_unsent (h : ∀ d ∈ t, d.1.sends = 0) : expelledPtr t = NULL := by
  induction t with
  | nil => rfl
  | cons d t ih =>
    rw [expelledPtr.eq_def]
    split
    · next heq =>
      obtain ⟨rfl, -⟩ := List.cons.inj heq
      cases h _ List.mem_cons_self
    · next heq => cases heq; exact ih fun d hd => h d (List.mem_cons_of_mem _ hd)
    · rfl

theorem deref_null (hs : s.WF cfg) : s.fileQueue.deref NULL = none := by
  rw [deref_eq, Keyed.lookup_eq_none]
  exact fun f hf => Nat.pos_iff_ne_zero.1 (hs.addr f hf).1

/-- A write or append that expels nothing. -/
theorem stored_audited_iff {s₁ : Server} (hs : s.WF cfg) (hbig : ¬ r.tooBig cfg)
    (hneed : ¬ NeedsExpulsion cfg s.fileQueue r)
    (ht : t = [⟨.call .getFreeSpace, getFreeSpace cfg s.fileQueue⟩,
      ⟨.log ⟨r, 0, i32 r.fileSize, none⟩, ()⟩] ++ t') (hq : s₁.fileQueue = s.fileQueue)
    (h : Runs (exec cfg) (storeBody r) s₁ t' o s') : Audited r t ↔ StoreAuditedWhen cfg s r t := by
  have hsend : ∀ d ∈ t, d.1.sends = 0 := by
    rw [ht]
    exact List.forall_mem_append.2 ⟨by simp [Act.sends], runs_unsent h storeBody_sends⟩
  have hptr := expelledPtr_unsent hsend
  have hcheck : queueChecked s t = s.fileQueue := by rw [queueChecked, hptr, removeNode, if_pos rfl]
  have hst : Stores s.fileQueue r t :=
    ht ▸ (hq ▸ storeBody_stores h).after rfl (by simp [Receives, cutOff])
  have hrec : recordsOf t = [⟨r, 0, i32 r.fileSize, none⟩] := by
    rw [ht, recordsOf_append, (runs_unrecorded h storeBody_records).1]
    rfl
  rw [hst.audits_iff hrec, sentBytes_unsent hsend, ← hcheck]
  constructor
  · rintro ⟨-, h1, h2⟩
    refine ⟨hbig, fun hn => absurd hn hneed, h1, h2, fun f hf => ?_⟩
    rw [hptr, deref_null hs] at hf
    cases hf
  · rintro ⟨-, -, h1, h2, -⟩
    exact ⟨rfl, h1, h2⟩

section
variable {f : FileNode} {sent : Bool × Bool} {free : ℤ}

/-- What comes after the transfer of an expelled file. -/
def afterTransfer (r : Request) (f : FileNode) (t : List (Done workerSig)) : List (Done workerSig) :=
  [⟨.call (.deref f.addr), f⟩, ⟨.log ⟨r, 0, i32 r.fileSize, some f.pathname⟩, ()⟩,
    ⟨.call (.removeNode f.addr), (0 : ℤ)⟩] ++ incremental r ++ t

/-- The actions of an expulsion, and what a write counts after it. -/
theorem expelled_trace_eq :
    [⟨.call .getFreeSpace, free⟩] ++ expulsionTrace r f sent ++ incremental r ++ t' =
      ⟨.call .getFreeSpace, free⟩ :: ⟨.call (.expelFile (i32 r.fileSize)), f.addr⟩ ::
        ⟨.call (.deref f.addr), f⟩ ::
        (transfer 1 f.size f.pathname ((f.file.getD []).take f.size) sent ++ afterTransfer r f t') := by
  rw [expulsionTrace_eq, afterTransfer]
  simp

theorem incremental_sends : ∀ d ∈ incremental r, d.1.sends = 0 := by
  rw [incremental]
  split_ifs <;> simp [Act.sends]

theorem afterTransfer_sends (ht : ∀ d ∈ t', d.1.sends = 0) : ∀ d ∈ afterTransfer r f t', d.1.sends = 0 :=
  List.forall_mem_append.2 ⟨List.forall_mem_append.2 ⟨by simp [Act.sends], incremental_sends⟩, ht⟩

/-- The contents are sent with the name of the expelled file. -/
theorem expelled_sentBytes (hcontent : (f.file.getD []).take f.size = f.content)
    (ht : ∀ d ∈ t', d.1.sends = 0) : sentBytes r.filepath
      ([⟨.call .getFreeSpace, free⟩] ++ expulsionTrace r f sent ++ incremental r ++ t') =
        if sent.1 ∧ sent.2 ∧ f.pathname = r.filepath then f.content.length else 0 := by
  rw [expelled_trace_eq, sentBytes_cons (fun x hx => by cases hx),
    sentBytes_cons (fun x hx => by cases hx), sentBytes_cons (fun x hx => by cases hx),
    sentBytes_transfer (afterTransfer_sends ht), hcontent]

/-- The contents are among what has been sent if the transfer succeeded. -/
theorem expelled_content_mem (hcontent : (f.file.getD []).take f.size = f.content)
    (ht : ∀ d ∈ t', d.1.sends = 0) : ⟨.writeBytes f.content, true⟩ ∈
      [⟨.call .getFreeSpace, free⟩] ++ expulsionTrace r f sent ++ incremental r ++ t' ↔
        sent.1 ∧ sent.2 := by
  have hnot : (⟨.writeBytes f.content, true⟩ : Done workerSig) ∉ afterTransfer r f t' := by
    intro hin
    cases afterTransfer_sends ht _ hin
  rw [expelled_trace_eq, hcontent]
  obtain ⟨_ | _, _ | _⟩ := sent <;> simp only [transfer, List.mem_cons, List.mem_append, hnot] <;> simp

/-- Before the lock check nothing is stored and the reception has not begun. -/
theorem expulsion_before :
    storedBytes ([⟨.call .getFreeSpace, free⟩] ++ expulsionTrace r f sent ++ incremental r) = 0 ∧
      Receives ([⟨.call .getFreeSpace, free⟩] ++ expulsionTrace r f sent ++ incremental r) := by
  have hne : ∀ (n : ℕ) (p : CString), (⟨1, n, str "Ready to send file", p⟩ : Response) ≠ readyResponse :=
    fun n p h => by cases congrArg Response.statusCode h
  obtain ⟨ok₁, ok₂⟩ := sent
  rw [incremental]
  constructor
  · cases ok₁ <;> split_ifs <;> simp [expulsionTrace, storedBytes, storedBy]
  · cases ok₁ <;> split_ifs <;> simp [expulsionTrace, Receives, cutOff, hne]

/-- A write or append that expels `f`. -/
theorem expelled_audited_iff {s₁ : Server} (hs : s.WF cfg)
    (hneed : NeedsExpulsion cfg s.fileQueue r) (hf : f ∈ s.fileQueue.data)
    (ht : t = [⟨.call .getFreeSpace, getFreeSpace cfg s.fileQueue⟩] ++ expulsionTrace r f sent ++
      incremental r ++ t') (hq : s₁.fileQueue = (removeNode s.fileQueue f.addr).2)
    (h : Runs (exec cfg) (storeBody r) s₁ t' o s') : Audited r t ↔ StoreAuditedWhen cfg s r t := by
  have hsend := runs_unsent h storeBody_sends
  have hderef : s.fileQueue.deref f.addr = some f := hs.toWF.deref_of_mem hf
  have hcontent : (f.file.getD []).take f.size = f.content := by
    rw [hs.size f hf]
    exact List.take_length
  have hptr : expelledPtr t = f.addr := by
    rw [ht, expelled_trace_eq]
    rfl
  have hcheck : queueChecked s t = s₁.fileQueue := by rw [queueChecked, hptr, hq]
  have hst : Stores s₁.fileQueue r t :=
    ht ▸ (storeBody_stores h).after expulsion_before.1 expulsion_before.2
  have hrec : recordsOf t = [⟨r, 0, i32 r.fileSize, some f.pathname⟩] := by
    rw [ht, recordsOf_append, recordsOf_append, recordsOf_append, recordsOf_expulsionTrace,
      recordsOf_incremental, (runs_unrecorded h storeBody_records).1]
    rfl
  have hsent : sentBytes r.filepath t =
      if sent.1 ∧ sent.2 ∧ f.pathname = r.filepath then f.content.length else 0 :=
    ht ▸ expelled_sentBytes hcontent hsend
  have hmem : ⟨.writeBytes f.content, true⟩ ∈ t ↔ sent.1 ∧ sent.2 :=
    ht ▸ expelled_content_mem hcontent hsend
  rw [hst.audits_iff hrec, hsent, ← hcheck]
  constructor
  · rintro ⟨h0, h1, h2⟩
    refine ⟨hneed.2.1, fun _ => by rw [hptr, hderef]; rfl, h1, h2, fun g hg hp hin => ?_⟩
    rw [hptr, hderef] at hg
    obtain rfl : f = g := Option.some.inj hg
    obtain ⟨hs1, hs2⟩ := hmem.1 hin
    rw [if_pos ⟨hs1, hs2, hp⟩] at h0
    exact List.length_eq_zero_iff.1 h0
  · rintro ⟨-, -, h1, h2, h3⟩
    refine ⟨?_, h1, h2⟩
    split_ifs with hc
    · rw [h3 f (by rw [hptr, hderef]) hc.2.2 (hmem.2 ⟨hc.1, hc.2.1⟩)]
      rfl
    · rfl

end

theorem store_audited_iff (hs : s.WF cfg)
    (hop : r.operation = .OP_WRITE_FILE ∨ r.operation = .OP_APPEND_FILE)
    (h : Runs (exec cfg) (controller cfg r) s t o s') : Audited r t ↔ StoreAuditedWhen cfg s r t := by
  -- without a record the request is not audited
  have hno : recordsOf t = [] → ¬ Audited r t := by
    rintro hnil ⟨x, hx⟩
    rw [hnil] at hx
    cases hx
  cases store_trace hs hop h with
  | tooBig ok hbig ht =>
    exact iff_of_false (hno (by rw [ht]; rfl)) fun hw => hw.fits hbig
  | killed u hneed hd ht =>
    refine iff_of_false (hno (by rw [ht]; rfl)) fun hw => ?_
    have hfound := hw.found hneed
    rw [ht] at hfound
    change (s.fileQueue.deref (expelFile cfg u s.fileQueue (i32 r.fileSize))).isSome = true at hfound
    rw [hd] at hfound
    cases hfound
  | expelled u sent hneed hf _ ht hq hbr => exact expelled_audited_iff hs hneed hf ht hq hbr
  | stored hbig hneed ht hq hbr => exact stored_audited_iff hs hbig hneed ht hq hbr

/-- **A request is audited in the log exactly if the condition holds.** -/
theorem audited_iff (hs : Reachable cfg s) (hu : ∀ n, r.operation ≠ .unknown n)
    (h : Handling cfg r s t o) : Audited r t ↔ AuditedWhen cfg s r t := by
  -- the controllers that write their record first
  have hfirst : r.operation ≠ .OP_WRITE_FILE → r.operation ≠ .OP_APPEND_FILE →
      r.operation ≠ .OP_READ_FILE → Audited r t := by
    intro hw ha hr
    obtain ⟨h1, h2, h3⟩ := h.unsent hw ha hr hu
    refine ⟨none, ?_⟩
    rw [h1, h2, sentBytes_unsent h3]
    rfl
  rw [AuditedWhen]
  split
  · next hop =>
    obtain ⟨s', hr⟩ := h.runs (by simp [hop]) (by simp [hop])
    exact read_audited_iff hop hr
  · next hop =>
    obtain ⟨s', hr⟩ := h.runs (by simp [hop]) (by simp [hop])
    exact store_audited_iff hs.wf (Or.inl hop) hr
  · next hop =>
    obtain ⟨s', hr⟩ := h.runs (by simp [hop]) (by simp [hop])
    exact store_audited_iff hs.wf (Or.inr hop) hr
  · next h1 h2 h3 => exact iff_of_true (hfirst h2 h3 h1) trivial

/-! ## A file that is written and read -/

/-- A client creates a file with the lock, and writes three bytes. -/
def openRequest : Request := ⟨1, .OP_OPEN_FILE, str "/a", O_CREATE ||| O_LOCK, 0⟩
def writeRequest : Request := ⟨1, .OP_WRITE_FILE, str "/a", 0, 3⟩
def readRequest : Request := ⟨1, .OP_READ_FILE, str "/a", 0, 0⟩

/-- Every read and write on the socket succeeds, the bytes received are 7, 8, 9. -/
def online : List Env := .replicate 20 ⟨true, [7, 8, 9], 0, NULL⟩

/-- The write is audited. -/
theorem audited_writes : ∃ s t o, Reachable ⟨10, 2⟩ s ∧ Handling ⟨10, 2⟩ writeRequest s t o ∧
    storedBytes t = 3 ∧ (Audited writeRequest t ↔ AuditedWhen ⟨10, 2⟩ s writeRequest t) := by
  obtain ⟨s, hs, ⟨t, o, s'⟩, hr, hst⟩ : ∃ s ∈ serve ⟨10, 2⟩ InBounds Server.init
      [(openRequest, online)] Server.init,
      ∃ x ∈ run (exec ⟨10, 2⟩) (controller ⟨10, 2⟩ writeRequest) online s, storedBytes x.1 = 3 := by
    decide +kernel
  have hreach : Reachable ⟨10, 2⟩ s := (serve_handled _ _ hs .init).reachable
  have h : Handling ⟨10, 2⟩ writeRequest s t o := .first (run_sound hr)
  have hop : ∀ n, writeRequest.operation ≠ .unknown n := fun n hn => by cases hn
  exact ⟨s, t, o, hreach, h, hst, audited_iff hreach hop h⟩

/-- The client then reads the three bytes, and no record is written. -/
theorem not_audited_reads : ∃ s t o, Reachable ⟨10, 2⟩ s ∧ Handling ⟨10, 2⟩ readRequest s t o ∧
    sentBytes (str "/a") t = 3 ∧ recordsOf t = [] ∧ ¬ Audited readRequest t := by
  obtain ⟨s, hs, ⟨t, o, s'⟩, hr, hst, hrec⟩ :
      ∃ s ∈ serve ⟨10, 2⟩ InBounds Server.init
        [(openRequest, online), (writeRequest, online)] Server.init,
      ∃ x ∈ run (exec ⟨10, 2⟩) (controller ⟨10, 2⟩ readRequest) online s,
        sentBytes (str "/a") x.1 = 3 ∧ recordsOf x.1 = [] := by
    decide +kernel
  have hreach : Reachable ⟨10, 2⟩ s := (serve_handled _ _ hs .init).reachable
  refine ⟨s, t, o, hreach, .first (run_sound hr), hst, hrec, ?_⟩
  rintro ⟨x, hx⟩
  rw [hrec] at hx
  cases hx

end FileStorage
