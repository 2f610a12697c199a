/-
  Mutual exclusion on the store.

  The workers execute their controllers in any order, each step one operation
  on a mutex or on the condition variable or one action.  A worker that sleeps
  for a lock has given `file_queue_mutex` back by hand, and the loop of
  `open_file_controller` and `lock_file_controller` does not take it again: up
  to the first worker that comes back from `pthread_cond_wait` the mutexes
  protect the store, from there on they do not (`exclusive_until_relock`).
-/
import FileStorage.Controllers
import FileStorage.Effects
import FileStorage.Threads.Discipline

namespace FileStorage

open Threads Prog

variable {cfg : Config} {r : Request} {W : Type} [DecidableEq W]
  {ok : Conf workerSig Server Request W → W → Ev workerSig Request → Prop}
  {c : Conf workerSig Server Request W}

/-- A call on the store. -/
def IsCall : Act → Prop
  | .call _ => True
  | _ => False

/-- A worker at a call on the store owns `file_queue_mutex`, and a worker gives
    back only mutexes that it owns. -/
structure Exclusive (c : Conf workerSig Server Request W) : Prop where
  store : ∀ w x, (c.thr w).nextAct = some (.call x) → c.owner .fileQueueMutex = some w
  unlock : ∀ w m, (c.thr w).givesBack = some m → c.owner m = some w

/-- The loops in which a worker sleeps: an attempt on the store, which gives
    `file_queue_mutex` back and sleeps with `file_lock_mutex`. -/
inductive LockLoop (r : Request) :
    (a : Act) → (a.Ans → Bool) → List Mutex → Cond → Mutex → Prop
  | opens : r.operation = .OP_OPEN_FILE →
      LockLoop r (.call (.openVirtualFile r.filepath r.flags r.clientId))
        (fun status : ℤ => status = -2) [.fileQueueMutex] .fileLockCond .fileLockMutex
  | locks : r.operation = .OP_LOCK_FILE →
      LockLoop r (.call (.lockVirtualFile r.filepath r.clientId))
        (fun status : ℤ => status = -2) [.fileQueueMutex] .fileLockCond .fileLockMutex

/-- After a successful unlock of a file the sleeping workers are woken up. -/
def UnlockWakes : (a : Act) → (a.Ans → Code) → Prop
  | .call (.unlockVirtualFile _ _), k =>
    ∃ k', k (0 : ℤ) = .lock .fileLockMutex (.broadcast .fileLockCond k')
  | _, _ => True

/-! ## The controllers -/

/-- `file_queue_mutex` is owned at every call, up to the first sleep. -/
theorem controller_held_queue (h : Prop) (r : Request) :
    Held (S := workerSig) IsCall (fun _ => False) False Mutex.fileQueueMutex h (controller cfg r) := by
  unfold controller
  cases r.operation with
  | OP_OPEN_FILE => simp [openFileController, Held, IsCall, logRequest]
  | OP_APPEND_FILE =>
    simp [appendFileController, appendFileBody, sendBufferFileToClient, Held, IsCall, logRequest,
      Option.forall]
  | OP_READ_FILE =>
    simp [readFileController, sendFileToClient, Held, IsCall, logRequest, Option.forall]
  | OP_DELETE_FILE => simp [deleteFileController, Held, IsCall, logRequest]
  | OP_WRITE_FILE =>
    simp [writeFileController, writeFileBody, sendBufferFileToClient, Held, IsCall, logRequest]
  | OP_CLOSE_FILE => simp [closeFileController, Held, IsCall, logRequest]
  | OP_LOCK_FILE => simp [lockFileController, Held, IsCall, logRequest]
  | OP_UNLOCK_FILE => simp [unlockFileController, Held, IsCall, logRequest]
  | OP_READ_N_FILES =>
    simp [readnFileController, readnFileBody, Held, IsCall, logRequest, Option.forall]
  | unknown n => trivial

/-- `file_lock_mutex` is owned at every broadcast and given back only by its
    owner, across all sleeps. -/
theorem controller_held_lock (h : Prop) (r : Request) :
    Held (S := workerSig) (fun _ => False) (fun _ => True) True Mutex.fileLockMutex h (controller cfg r) := by
  unfold controller
  cases r.operation with
  | OP_OPEN_FILE => simp [openFileController, Held, logRequest]
  | OP_APPEND_FILE =>
    simp [appendFileController, appendFileBody, sendBufferFileToClient, Held, logRequest,
      Option.forall]
  | OP_READ_FILE => simp [readFileController, sendFileToClient, Held, logRequest, Option.forall]
  | OP_DELETE_FILE => simp [deleteFileController, Held, logRequest]
  | OP_WRITE_FILE =>
    simp [writeFileController, writeFileBody, sendBufferFileToClient, Held, logRequest]
  | OP_CLOSE_FILE => simp [closeFileController, Held, logRequest]
  | OP_LOCK_FILE => simp [lockFileController, Held, logRequest]
  | OP_UNLOCK_FILE => simp [unlockFileController, Held, logRequest]
  | OP_READ_N_FILES => simp [readnFileController, readnFileBody, Held, logRequest, Option.forall]
  | unknown n => trivial

theorem controller_shaped (r : Request) : Shaped (S := workerSig) UnlockWakes (LockLoop r) (controller cfg r) := by
  unfold controller
  cases hop : r.operation with
  | OP_OPEN_FILE => simp [openFileController, Shaped, UnlockWakes, logRequest, LockLoop.opens hop]
  | OP_APPEND_FILE =>
    simp [appendFileController, appendFileBody, sendBufferFileToClient, Shaped, UnlockWakes, logRequest,
      Option.forall]
  | OP_READ_FILE => simp [readFileController, sendFileToClient, Shaped, UnlockWakes, logRequest, Option.forall]
  | OP_DELETE_FILE => simp [deleteFileController, Shaped, UnlockWakes, logRequest]
  | OP_WRITE_FILE =>
    simp [writeFileController, writeFileBody, sendBufferFileToClient, Shaped, UnlockWakes, logRequest]
  | OP_CLOSE_FILE => simp [closeFileController, Shaped, UnlockWakes, logRequest]
  | OP_LOCK_FILE => simp [lockFileController, Shaped, UnlockWakes, logRequest, LockLoop.locks hop]
  | OP_UNLOCK_FILE => simp [unlockFileController, Shaped, UnlockWakes, logRequest]
  | OP_READ_N_FILES => simp [readnFileController, readnFileBody, Shaped, UnlockWakes, logRequest, Option.forall]
  | unknown n => trivial

/-! ## Runs -/

theorem reach_reachable
    (h : Reach (exec cfg) (controller cfg) ok (Conf.init Server.init) c) : Reachable cfg c.st := by
  induction h with
  | init => exact .init
  | step _ hst _ ih =>
    rcases hst.st_cases with he | ⟨a, e, r, -, hx⟩
    · rw [he]; exact ih
    · exact .step ih hx

/-- `file_lock_mutex` has an owner exactly as the programs say, in every run. -/
theorem reach_held_lock
    (h : Reach (exec cfg) (controller cfg) ok (Conf.init Server.init) c) (w : W) :
    (c.thr w).Held (fun _ => False) (fun _ => True) True Mutex.fileLockMutex (c.owner .fileLockMutex = some w) :=
  h.held controller_held_lock (fun _ _ _ _ => Or.inl trivial) w

theorem reach_held_queue (hok : Resumes False ok)
    (h : Reach (exec cfg) (controller cfg) ok (Conf.init Server.init) c) (w : W) :
    (c.thr w).Held IsCall (fun _ => False) False Mutex.fileQueueMutex (c.owner .fileQueueMutex = some w) :=
  h.held controller_held_queue hok w

theorem reach_shaped
    (h : Reach (exec cfg) (controller cfg) ok (Conf.init Server.init) c) (w : W) :
    (c.thr w).Shaped (fun _ => UnlockWakes) LockLoop :=
  h.shaped controller_shaped w

/-- **Mutual exclusion up to the first return from a sleep.**  As long as no
    worker comes back from `pthread_cond_wait` a worker at a call on the store
    owns `file_queue_mutex`, and mutexes are given back by their owners only;
    the first step of a worker that comes back breaks this. -/
theorem exclusive_until_relock
    (h : Reach (exec cfg) (controller cfg) (fun c w _ => (c.thr w).isWoken = false)
      (Conf.init Server.init) c) :
    Exclusive c ∧ ∀ w ev c', Step (exec cfg) (controller cfg) w c ev c' →
      (c.thr w).isWoken = true → ¬ Exclusive c' := by
  have hq := reach_held_queue (fun _ _ _ ho => Or.inr ho) h
  have hl := reach_held_lock h
  refine ⟨⟨fun w x hx => (hq w).of_nextAct hx trivial, fun w m hm => ?_⟩, fun w ev c' hst hw hex => ?_⟩
  · cases m with
    | fileQueueMutex => exact (hq w).of_givesBack hm
    | fileLockMutex => exact (hl w).of_givesBack hm
  · -- the only step of a woken worker is to take `file_lock_mutex` again
    cases hst with
    | @relock l m k ht ho =>
      have hown := hq w
      rw [ht] at hown
      obtain ⟨a, b, us, cd, k', rfl, hloop, -⟩ := by
        have := reach_shaped h w
        rw [ht] at this
        exact this
      have hact : (Thread.run l (.await a b us cd m k')).nextAct = some a := rfl
      have hlock : m = .fileLockMutex ∧ ∃ x, a = .call x := by
        cases hloop with
        | opens => exact ⟨rfl, _, rfl⟩
        | locks => exact ⟨rfl, _, rfl⟩
      obtain ⟨rfl, x, rfl⟩ := hlock
      refine hown.1 ?_
      simpa [Conf.set] using hex.store w x (by simpa [Conf.set] using hact)
    | _ => simp_all [Thread.isWoken]

/-! ## A lock handed over -/

/-- Worker `w` makes `n` steps in which its reads and writes succeed. -/
def steps (w : W) (n : ℕ) : List (W × Choice Request Env W) :=
  .replicate n (w, .go ⟨true, [], 0, NULL⟩)

/-- Client 1 creates and locks `/a`, client 2 asks for the lock and sleeps. -/
def oneSleeps : List (Fin 2 × Choice Request Env (Fin 2)) :=
  (0, .start ⟨1, .OP_OPEN_FILE, [47, 97], O_CREATE ||| O_LOCK, 0⟩) :: steps 0 8 ++
  (1, .start ⟨2, .OP_LOCK_FILE, [47, 97], 0, 0⟩) :: steps 1 6

/-- Then client 1 unlocks the file, which wakes the other worker up. -/
def handOver : List (Fin 2 × Choice Request Env (Fin 2)) :=
  oneSleeps ++ (0, .start ⟨1, .OP_UNLOCK_FILE, [47, 97], 0, 0⟩) :: steps 0 6

theorem exclusive_until_relock_handOver : ∃ c : Conf workerSig Server Request (Fin 2),
    (c.thr 1).isWoken ∧ Exclusive c ∧ ∀ w ev c', Step (exec ⟨8, 4⟩) (controller ⟨8, 4⟩) w c ev c' →
      (c.thr w).isWoken = true → ¬ Exclusive c' := by
  have hrun : (sched (exec ⟨8, 4⟩) (controller ⟨8, 4⟩) (fun c w _ => !(c.thr w).isWoken) handOver
      (Conf.init Server.init)).map (fun c => (c.thr 1).isWoken) = some true := by decide +kernel
  obtain ⟨c, hc, hw⟩ := Option.map_eq_some_iff.1 hrun
  have hr : Reach (exec ⟨8, 4⟩) (controller ⟨8, 4⟩) (fun c w _ => (!(c.thr w).isWoken) = true)
      (Conf.init Server.init) c := sched_reach handOver .init hc
  exact ⟨c, hw, exclusive_until_relock (hr.mono fun _ _ _ ho => by simpa using ho)⟩

/-- Client 2 tries again while client 1 is still in its critical section. -/
theorem not_exclusive_handOver : ∃ c : Conf workerSig Server Request (Fin 2),
    Reach (exec ⟨8, 4⟩) (controller ⟨8, 4⟩) (fun _ _ _ => True) (Conf.init Server.init) c ∧
      ¬ Exclusive c := by
  have hrun : (sched (exec ⟨8, 4⟩) (controller ⟨8, 4⟩) (fun _ _ _ => true) (handOver ++ steps 1 1)
      (Conf.init Server.init)).map (fun c => ((c.thr 1).nextAct, c.owner .fileQueueMutex)) =
      some (some (.call (.lockVirtualFile [47, 97] 2)), some 0) := by decide +kernel
  obtain ⟨c, hc, he⟩ := Option.map_eq_some_iff.1 hrun
  obtain ⟨hact, hown⟩ := Prod.mk.inj he
  have hr : Reach (exec ⟨8, 4⟩) (controller ⟨8, 4⟩) (fun _ _ _ => true = true)
      (Conf.init Server.init) c := sched_reach _ .init hc
  refine ⟨c, hr.mono fun _ _ _ _ => trivial, fun hex => ?_⟩
  have := hex.store 1 _ hact
  rw [hown] at this
  exact absurd this (by decide)

end FileStorage
