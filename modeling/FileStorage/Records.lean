/-
  What a request does to the log and to `num_file_replacement`.

  Only `logRequest` and `incNumFileReplacement` touch them (`Call.exec_kept`).
  A write or append writes its record after `getFreeSpace`, with or without an
  expulsion (`store_records`); a read writes it after the transfer, the other
  controllers write it first (`controller_logsFirst`).
-/
import FileStorage.Conservation
import FileStorage.Threads.Passage

namespace FileStorage

open Threads Prog

variable {cfg : Config} {s s' : Server} {r : Request} {t : List (Done workerSig)} {o : Outcome}

/-- The actions that touch the log or the counter of the replacements. -/
def Act.records : Act → ℕ
  | .log _ | .incNumFileReplacement => 1
  | _ => 0

/-- The actions that send contents or look for a file to expel. -/
def Act.sends : Act → ℕ
  | .writeBytes _ | .call (.expelFile _) => 1
  | _ => 0

/-- The log and the counter of the replacements. -/
def Server.recorded (s : Server) : List LogRecord × ℤ := (s.log, s.stats.numFileReplacement)

@[simp] theorem recordLen_recorded : s.recordLen.recorded = s.recorded := by
  rw [Server.recorded, recordLen_log, recordLen_stats]
  rfl

@[simp] theorem recordSize_recorded : s.recordSize.recorded = s.recorded := by
  rw [Server.recorded, recordSize_log, recordSize_stats]
  rfl

theorem openVirtualFile_recorded {p : CString} {flags : Flags} {c : ℤ} :
    (openVirtualFile cfg s p flags c).2.recorded = s.recorded := by
  unfold openVirtualFile
  dsimp only
  split_ifs
  · rfl
  · rfl
  · rfl
  · rfl
  · rfl
  · exact recordLen_recorded
  · rfl

theorem writeVirtualFile_recorded {p : CString} {buf : List Byte} {n : ℕ} :
    (writeVirtualFile s p buf n).2.recorded = s.recorded := by
  rw [writeVirtualFile]
  split
  · exact recordSize_recorded
  · split_ifs
    · rfl
    · exact recordSize_recorded

theorem appendVirtualFile_recorded {p : CString} {buf : List Byte} {n : ℕ} :
    (appendVirtualFile s p buf n).2.recorded = s.recorded := by
  rw [appendVirtualFile]
  split
  · exact recordSize_recorded
  · split_ifs
    · rfl
    · exact recordSize_recorded

/-- No call touches the log or the counter. -/
theorem Call.exec_kept {c : Call} {e : Env} {x : c.Ans} (h : c.exec cfg e s = some (x, s')) :
    s'.recorded = s.recorded := by
  cases c with
  | openVirtualFile p flags id =>
    have hs : (FileStorage.openVirtualFile cfg s p flags id).2 = s' := congrArg Prod.snd (Option.some.inj h)
    rw [← hs, openVirtualFile_recorded]
  | writeVirtualFile p buf n =>
    have hs : (FileStorage.writeVirtualFile s p buf n).2 = s' := congrArg Prod.snd (Option.some.inj h)
    rw [← hs, writeVirtualFile_recorded]
  | appendVirtualFile p buf n =>
    have hs : (FileStorage.appendVirtualFile s p buf n).2 = s' := congrArg Prod.snd (Option.some.inj h)
    rw [← hs, appendVirtualFile_recorded]
  | deref node =>
    obtain ⟨f, -, h⟩ := Option.map_eq_some_iff.1 h
    cases h
    rfl
  | _ => cases h; rfl

theorem exec_kept {a : Act} {e : Env} {x : a.Ans} (h : exec cfg a e s = some (x, s'))
    (ha : a.records = 0) : s'.recorded = s.recorded := by
  cases a with
  | call c => exact Call.exec_kept h
  | log | incNumFileReplacement => cases ha
  | crash => cases h
  | _ => cases h; rfl

/-! ## The controllers after their record -/

section
variable {cost : Act → ℕ} {n : ℕ}

theorem budget_ite {b : Prop} [Decidable b] {p q : Code} : Budget cost (if b then p else q) n ↔
    (b → Budget cost p n) ∧ (¬ b → Budget cost q n) := by
  split_ifs <;> simp [*]

end

theorem writeFileBody_records : Budget Act.records (writeFileBody r) 0 := by
  simp [writeFileBody, Budget, Act.records, budget_ite]

theorem appendFileBody_records : Budget Act.records (appendFileBody r) 0 := by
  simp only [appendFileBody, Budget, Act.records, budget_ite]
  refine ⟨le_rfl, fun _ => ⟨fun _ => ⟨le_rfl, fun _ => ⟨fun _ => ⟨le_rfl, ?_⟩, fun _ => trivial⟩⟩,
    fun _ => ⟨le_rfl, fun _ => trivial⟩⟩⟩
  rintro (_ | buf)
  · trivial
  · exact ⟨le_rfl, fun _ => ⟨le_rfl, fun _ => trivial⟩⟩

theorem storeBody_records : Budget Act.records (storeBody r) 0 := by
  rw [storeBody, budget_ite]
  exact ⟨fun _ => writeFileBody_records, fun _ => appendFileBody_records⟩

theorem storeBody_sends : Budget Act.sends (storeBody r) 0 := by
  rw [storeBody, budget_ite]
  constructor
  · intro
    simp [writeFileBody, Budget, Act.sends, budget_ite]
  · intro
    simp only [appendFileBody, Budget, Act.sends, budget_ite]
    refine ⟨le_rfl, fun _ => ⟨fun _ => ⟨le_rfl, fun _ => ⟨fun _ => ⟨le_rfl, ?_⟩, fun _ => trivial⟩⟩,
      fun _ => ⟨le_rfl, fun _ => trivial⟩⟩⟩
    rintro (_ | buf)
    · trivial
    · exact ⟨le_rfl, fun _ => ⟨le_rfl, fun _ => trivial⟩⟩

theorem attempt_records : Budget Act.records (attempt r) 0 ∧ Budget Act.sends (attempt r) 0 := by
  unfold attempt
  split <;> simp [Budget, Act.records, Act.sends]

theorem readnFileBody_records {st : ℤ} {l : Option CString} :
    Budget Act.records (readnFileBody st l) 0 ∧ Budget Act.sends (readnFileBody st l) 0 := by
  cases l <;> simp [readnFileBody, Budget, Act.records, Act.sends]

/-- The controllers that write their record first. -/
theorem controller_logsFirst (hw : r.operation ≠ .OP_WRITE_FILE) (ha : r.operation ≠ .OP_APPEND_FILE)
    (hr : r.operation ≠ .OP_READ_FILE) (hu : ∀ n, r.operation ≠ .unknown n) :
    ∃ k, controller cfg r = logRequest r 0 0 none k ∧ Budget Act.records k 0 ∧ Budget Act.sends k 0 := by
  unfold controller
  split
  · exact ⟨_, rfl, by simp [Budget, Act.records], by simp [Budget, Act.sends]⟩
  · exact absurd ‹_› ha
  · exact absurd ‹_› hr
  · exact ⟨_, rfl, by simp [Budget, Act.records], by simp [Budget, Act.sends]⟩
  · exact absurd ‹_› hw
  · exact ⟨_, rfl, by simp [Budget, Act.records], by simp [Budget, Act.sends]⟩
  · exact ⟨_, rfl, by simp [Budget, Act.records], by simp [Budget, Act.sends]⟩
  · exact ⟨_, rfl, by simp [Budget, Act.records, budget_ite], by simp [Budget, Act.sends, budget_ite]⟩
  · exact ⟨_, rfl, by simp [Budget, Act.records, budget_ite, readnFileBody_records],
      by simp [Budget, Act.sends, budget_ite, readnFileBody_records]⟩
  · exact absurd ‹_› (hu _)

/-! ## The records of a trace -/

/-- The record that an action writes. -/
def recordOf : Done workerSig → Option LogRecord
  | ⟨.log x, _⟩ => some x
  | _ => none

/-- The records that are written in a trace. -/
def recordsOf (t : List (Done workerSig)) : List LogRecord := t.filterMap recordOf

def incremented : Done workerSig → Bool
  | ⟨.incNumFileReplacement, _⟩ => true
  | _ => false

/-- How often the counter is incremented in a trace. -/
def increments (t : List (Done workerSig)) : ℕ := t.countP incremented

/-- `num_file_replacement + 1` -/
def incNumFileReplacement (n : ℤ) : ℤ := i32 (n + 1)

theorem exec_recorded {a : Act} {e : Env} {x : a.Ans} (h : exec cfg a e s = some (x, s')) :
    s'.recorded = (s.log ++ recordsOf [⟨a, x⟩],
      incNumFileReplacement^[increments [⟨a, x⟩]] s.stats.numFileReplacement) := by
  cases a with
  | log => cases h; rfl
  | incNumFileReplacement => cases h; exact Prod.ext (List.append_nil _).symm rfl
  | crash => cases h
  | call | write | writeBytes | readData | read =>
    rw [exec_kept h rfl]
    exact Prod.ext (List.append_nil _).symm rfl

theorem recordsOf_cons {d : Done workerSig} : recordsOf (d :: t) = recordsOf [d] ++ recordsOf t := by
  rw [recordsOf, ← List.singleton_append, List.filterMap_append]
  rfl

theorem increments_cons {d : Done workerSig} : increments (d :: t) = increments t + increments [d] := by
  rw [increments, ← List.singleton_append, List.countP_append, add_comm]
  rfl

/-- **The log and the counter after a run.** -/
theorem runs_recorded {p : Code} (h : Runs (exec cfg) p s t o s') :
    s'.recorded = (s.log ++ recordsOf t,
      incNumFileReplacement^[increments t] s.stats.numFileReplacement) := by
  induction h with
  | ret | fails | wait | failsAwait => exact Prod.ext (List.append_nil _).symm rfl
  | lock _ ih | unlock _ ih | signal _ ih | broadcast _ ih => exact ih
  | park hx _ => exact exec_recorded hx
  | act hx _ ih | pass hx _ _ ih =>
    have h1 := congrArg Prod.fst (exec_recorded hx)
    have h2 := congrArg Prod.snd (exec_recorded hx)
    simp only [Server.recorded] at h1 h2
    rw [ih, h1, h2, List.append_assoc, ← Function.iterate_add_apply, ← recordsOf_cons, ← increments_cons]

/-- A program that does not touch them. -/
theorem runs_unrecorded {p : Code} (h : Runs (exec cfg) p s t o s') (hp : Budget Act.records p 0) :
    recordsOf t = [] ∧ increments t = 0 := by
  have hcost := (h.costless (π := Server.recorded) (fun _ _ _ _ _ hx ha => exec_kept hx ha) hp).1
  constructor
  · refine List.filterMap_eq_nil_iff.2 ?_
    rintro ⟨a, x⟩ hd
    have := hcost _ hd
    cases a <;> first | rfl | cases this
  · refine List.countP_eq_zero.2 ?_
    rintro ⟨a, x⟩ hd
    have := hcost _ hd
    cases a <;> first | exact Bool.false_ne_true | cases this

/-- A program that sends no contents. -/
theorem runs_unsent {p : Code} (h : Runs (exec cfg) p s t o s') (hp : Budget Act.sends p 0) :
    ∀ d ∈ t, d.1.sends = 0 :=
  (h.costless (π := fun _ => ()) (fun _ _ _ _ _ _ _ => rfl) hp).1

@[simp] theorem recordsOf_append {t₁ t₂ : List (Done workerSig)} :
    recordsOf (t₁ ++ t₂) = recordsOf t₁ ++ recordsOf t₂ := List.filterMap_append

@[simp] theorem increments_append {t₁ t₂ : List (Done workerSig)} :
    increments (t₁ ++ t₂) = increments t₁ + increments t₂ := List.countP_append

/-! ## The controllers -/

/-- A controller that writes its record first. -/
theorem logsFirst_trace (hw : r.operation ≠ .OP_WRITE_FILE) (ha : r.operation ≠ .OP_APPEND_FILE)
    (hr : r.operation ≠ .OP_READ_FILE) (hu : ∀ n, r.operation ≠ .unknown n)
    (h : Runs (exec cfg) (controller cfg r) s t o s') :
    ∃ t', t = ⟨.log ⟨r, 0, 0, none⟩, ()⟩ :: t' ∧ (recordsOf t' = [] ∧ increments t' = 0) ∧
      ∀ d ∈ t', d.1.sends = 0 := by
  obtain ⟨k, hk, hb, hsend⟩ := @controller_logsFirst cfg r hw ha hr hu
  rw [hk] at h
  obtain ⟨_, _, s₁, t', hx, rfl, h'⟩ | ⟨hx, -⟩ := h.act_cases
  swap; · cases hx ⟨true, [], 0, 0⟩
  exact ⟨t', rfl, runs_unrecorded h' hb, runs_unsent h' hsend⟩

/-- The transfer of a file to the client; `sent` tells if the response and the
    contents could be sent. -/
def transfer (statusCode : ℤ) (size : ℕ) (pathname : CString) (buf : List Byte) (sent : Bool × Bool) :
    List (Done workerSig) :=
  ⟨.write ⟨statusCode, size, str "Ready to send file", pathname⟩, sent.1⟩ ::
    (if sent.1 then [⟨.writeBytes buf, sent.2⟩] else [])

@[simp] theorem recordsOf_transfer {st : ℤ} {n : ℕ} {p : CString} {buf : List Byte} {sent : Bool × Bool} :
    recordsOf (transfer st n p buf sent) = [] := by
  rw [transfer]
  split_ifs <;> rfl

@[simp] theorem increments_transfer {st : ℤ} {n : ℕ} {p : CString} {buf : List Byte} {sent : Bool × Bool} :
    increments (transfer st n p buf sent) = 0 := by
  rw [transfer]
  split_ifs <;> rfl

/-- **The runs of a read.**  The record is written only if the transfer succeeds
    and the size is `0` as an `int`. -/
theorem read_trace (hop : r.operation = .OP_READ_FILE)
    (h : Runs (exec cfg) (controller cfg r) s t o s') :
    (readVirtualFile s.fileQueue r.filepath = none ∧
      ∃ ok, t = [⟨.call (.readVirtualFile r.filepath), (none : Option (List Byte × ℕ))⟩,
        ⟨.write (respond (-1) (str "Errore, impossibile leggere il file")), ok⟩]) ∨
    ∃ buf size sent, readVirtualFile s.fileQueue r.filepath = some (buf, size) ∧
      t = ⟨.call (.readVirtualFile r.filepath), some (buf, size)⟩ ::
        (transfer 0 size r.filepath buf sent ++
          if sent.1 ∧ sent.2 ∧ i32 size = 0 then [⟨.log ⟨r, 0, 0, none⟩, ()⟩] else []) := by
  have e₀ : Env := ⟨true, [], 0, 0⟩
  -- the end of the controller, after the transfer
  have hend : ∀ {rbyte : ℤ} {s₁ t₁}, Runs (exec cfg) (if rbyte = 0 then
      logRequest r rbyte 0 none (.unlock .fileQueueMutex .ret) else .unlock .fileQueueMutex .ret)
      s₁ t₁ o s' → t₁ = if rbyte = 0 then [⟨.log ⟨r, 0, 0, none⟩, ()⟩] else [] := by
    intro rbyte s₁ t₁ h
    split_ifs at h ⊢ with h0
    · obtain ⟨_, _, s₂, t₂, hx, rfl, h₂⟩ | ⟨hx, -⟩ := h.act_cases
      swap; · cases hx e₀
      cases h₂ with
      | unlock h₂ =>
        cases h₂
        rw [h0]
    · cases h with
      | unlock h => cases h; rfl
  rw [controller, hop] at h
  cases h with
  | lock h =>
    obtain ⟨_, res, s₁, t₁, hx, rfl, h₁⟩ | ⟨hx, -⟩ := h.act_cases
    swap; · cases hx e₀
    obtain ⟨rfl, rfl⟩ : readVirtualFile s.fileQueue r.filepath = res ∧ s = s₁ :=
      Prod.mk.inj (Option.some.inj hx)
    cases hres : readVirtualFile s.fileQueue r.filepath with
    | none =>
      rw [hres] at h₁
      obtain ⟨_, ok, s₂, t₂, hx, rfl, h₂⟩ | ⟨hx, -⟩ := h₁.act_cases
      swap; · cases hx e₀
      obtain rfl := hend h₂
      exact Or.inl ⟨rfl, ok, rfl⟩
    | some x =>
      obtain ⟨buf, size⟩ := x
      rw [hres] at h₁
      obtain ⟨_, ok, s₂, t₂, hx, rfl, h₂⟩ | ⟨hx, -⟩ := h₁.act_cases
      swap; · cases hx e₀
      cases ok with
      | false =>
        rw [if_neg Bool.false_ne_true] at h₂
        obtain rfl := hend h₂
        exact Or.inr ⟨buf, size, (false, false), rfl, rfl⟩
      | true =>
        obtain ⟨_, ok, s₃, t₃, hx, rfl, h₃⟩ | ⟨hx, -⟩ := h₂.act_cases
        swap; · cases hx e₀
        obtain rfl := hend h₃
        refine Or.inr ⟨buf, size, (true, ok), rfl, ?_⟩
        cases ok <;> simp [transfer]

theorem read_records (hop : r.operation = .OP_READ_FILE)
    (h : Runs (exec cfg) (controller cfg r) s t o s') :
    (recordsOf t = [] ∨ recordsOf t = [⟨r, 0, 0, none⟩]) ∧ increments t = 0 := by
  rcases read_trace hop h with ⟨-, ok, rfl⟩ | ⟨buf, size, sent, -, rfl⟩
  · exact ⟨Or.inl rfl, rfl⟩
  · rw [recordsOf_cons, increments_cons, recordsOf_append, increments_append, recordsOf_transfer,
      increments_transfer]
    split_ifs
    · exact ⟨Or.inr rfl, rfl⟩
    · exact ⟨Or.inl rfl, rfl⟩

/-- The increment of `write_file_controller`. -/
def incremental (r : Request) : List (Done workerSig) :=
  if r.operation = .OP_WRITE_FILE then [⟨.incNumFileReplacement, ()⟩] else []

@[simp] theorem recordsOf_incremental : recordsOf (incremental r) = [] := by
  rw [incremental]
  split_ifs <;> rfl

theorem increments_incremental :
    increments (incremental r) = if r.operation = .OP_WRITE_FILE then 1 else 0 := by
  rw [incremental]
  split_ifs <;> rfl

/-- The expulsion is a transfer, then its record and the removal. -/
theorem expulsionTrace_eq {f : FileNode} {sent : Bool × Bool} : expulsionTrace r f sent =
    [⟨.call (.expelFile (i32 r.fileSize)), f.addr⟩, ⟨.call (.deref f.addr), f⟩] ++
    transfer 1 f.size f.pathname ((f.file.getD []).take f.size) sent ++
    [⟨.call (.deref f.addr), f⟩, ⟨.log ⟨r, 0, i32 r.fileSize, some f.pathname⟩, ()⟩,
      ⟨.call (.removeNode f.addr), (0 : ℤ)⟩] := by
  rw [expulsionTrace, transfer]
  rfl

@[simp] theorem recordsOf_expulsionTrace {f : FileNode} {sent : Bool × Bool} :
    recordsOf (expulsionTrace r f sent) = [⟨r, 0, i32 r.fileSize, some f.pathname⟩] := by
  rw [expulsionTrace_eq, recordsOf_append, recordsOf_append, recordsOf_transfer]
  rfl

@[simp] theorem increments_expulsionTrace {f : FileNode} {sent : Bool × Bool} :
    increments (expulsionTrace r f sent) = 0 := by
  rw [expulsionTrace_eq, increments_append, increments_append, increments_transfer]
  rfl

/-- What a write or append does up to the lock check. -/
inductive StoreTrace (cfg : Config) (s : Server) (r : Request) (t : List (Done workerSig)) (o : Outcome)
    (s' : Server) : Prop
  | tooBig (ok : Bool) : r.tooBig cfg →
      t = [⟨.call .getFreeSpace, getFreeSpace cfg s.fileQueue⟩,
        ⟨.write (respond (-1) (str "The file is too big for the server")), ok⟩] → s' = s →
      StoreTrace cfg s r t o s'
  /-- the pointer given by `expelFile` is not a node -/
  | killed (u : Ptr) : NeedsExpulsion cfg s.fileQueue r →
      s.fileQueue.deref (expelFile cfg u s.fileQueue (i32 r.fileSize)) = none →
      t = [⟨.call .getFreeSpace, getFreeSpace cfg s.fileQueue⟩,
        ⟨.call (.expelFile (i32 r.fileSize)), expelFile cfg u s.fileQueue (i32 r.fileSize)⟩] →
      s' = s → StoreTrace cfg s r t o s'
  | expelled {f : FileNode} {s₁ : Server} {t' : List (Done workerSig)} (u : Ptr) (sent : Bool × Bool) :
      NeedsExpulsion cfg s.fileQueue r → f ∈ s.fileQueue.data →
      expelFile cfg u s.fileQueue (i32 r.fileSize) = f.addr →
      t = [⟨.call .getFreeSpace, getFreeSpace cfg s.fileQueue⟩] ++ expulsionTrace r f sent ++
        incremental r ++ t' →
      s₁.fileQueue = (removeNode s.fileQueue f.addr).2 →
      Runs (exec cfg) (storeBody r) s₁ t' o s' → StoreTrace cfg s r t o s'
  | stored {s₁ : Server} {t' : List (Done workerSig)} : ¬ r.tooBig cfg →
      ¬ NeedsExpulsion cfg s.fileQueue r →
      t = [⟨.call .getFreeSpace, getFreeSpace cfg s.fileQueue⟩,
        ⟨.log ⟨r, 0, i32 r.fileSize, none⟩, ()⟩] ++ t' →
      s₁.fileQueue = s.fileQueue → Runs (exec cfg) (storeBody r) s₁ t' o s' →
      StoreTrace cfg s r t o s'

/-- After the expulsion. -/
theorem expelledBody_runs (h : Runs (exec cfg) (expelledBody r 0) s t o s') :
    ∃ s₁ t', s₁.fileQueue = s.fileQueue ∧ t = incremental r ++ t' ∧
      Runs (exec cfg) (storeBody r) s₁ t' o s' := by
  rw [expelledBody] at h
  rw [incremental, storeBody]
  split_ifs at h ⊢ with hw
  · obtain ⟨_, _, s₁, t', hx, rfl, h'⟩ | ⟨hx, -⟩ := h.act_cases
    swap; · cases hx ⟨true, [], 0, 0⟩
    exact ⟨s₁, t', exec_queue hx (by simp), rfl, h'⟩
  · exact absurd (by decide) ‹¬ (0 : ℤ) ≠ -1›
  · exact ⟨s, t, rfl, rfl, h⟩

/-- **The runs of a write or append.** -/
theorem store_trace (hs : s.WF cfg) (hop : r.operation = .OP_WRITE_FILE ∨ r.operation = .OP_APPEND_FILE)
    (h : Runs (exec cfg) (controller cfg r) s t o s') : StoreTrace cfg s r t o s' := by
  have e₀ : Env := ⟨true, [], 0, 0⟩
  obtain ⟨t', rfl, h'⟩ := (store_runs hop).1 h
  rw [storeBranch] at h'
  split_ifs at h' with hbig hfree
  · obtain ⟨_, ok, s₁, t₁, hx, rfl, h₁⟩ | ⟨hx, -⟩ := h'.act_cases
    swap; · cases hx e₀
    cases h₁
    cases hx
    exact .tooBig _ hbig rfl rfl
  · have hneed := (needsExpulsion_iff hop hbig).2 hfree
    obtain ⟨u, ⟨hd, rfl, -, hs'⟩ | ⟨f, hf, he, sent, t₁, rfl, h₁⟩⟩ := expulsion_runs hs h'
    · exact .killed u hneed hd rfl hs'
    · obtain ⟨s₁, t₂, hq, rfl, h₂⟩ := expelledBody_runs h₁
      exact .expelled u sent hneed hf he (by simp) hq h₂
  · obtain ⟨_, _, s₁, t₁, hx, rfl, h₁⟩ | ⟨hx, -⟩ := h'.act_cases
    swap; · cases hx e₀
    refine .stored hbig (fun hneed => hfree ((needsExpulsion_iff hop hbig).1 hneed)) rfl ?_ h₁
    exact exec_queue hx (by simp)

end FileStorage
