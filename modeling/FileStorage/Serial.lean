/-
  The requests one after the other.

  A controller logs its request, takes `file_queue_mutex`, works on the store
  and gives the mutex back as the last thing it does, or sleeps: its requests
  may be taken to be handled at once, at the moment it takes the mutex.

  `serializable`: up to the first worker that comes back from a wait for a
  lock, every interleaving of the workers leaves the store that the requests
  would have left one after the other, and each client has been sent the same.
-/
import FileStorage.Locking
import FileStorage.Records
import FileStorage.Threads.Serial

namespace FileStorage

open Threads Prog

variable {cfg : Config} {W : Type} [DecidableEq W]

/-- The state without the log. -/
def Server.unlogged (s : Server) : Server := { s with log := [] }

/-- The states differ in the log at most. -/
def SameStore (s t : Server) : Prop := s.unlogged = t.unlogged

/-- The actions that touch more than the log and the socket. -/
def Touches : Act → Prop
  | .call _ | .incNumFileReplacement => True
  | _ => False

/-! ## The actions -/

omit [DecidableEq W]

theorem recordSize_setLog (s : Server) (l : List LogRecord) :
    { s with log := l }.recordSize = { s.recordSize with log := l } := by
  unfold Server.recordSize
  dsimp only
  split_ifs <;> rfl

theorem recordLen_setLog (s : Server) (l : List LogRecord) :
    { s with log := l }.recordLen = { s.recordLen with log := l } := by
  unfold Server.recordLen
  dsimp only
  split_ifs <;> rfl

theorem openVirtualFile_setLog (s : Server) (l : List LogRecord) (p : CString) (flags : Flags) (c : ℤ) :
    openVirtualFile cfg { s with log := l } p flags c =
      ((openVirtualFile cfg s p flags c).1, { (openVirtualFile cfg s p flags c).2 with log := l }) := by
  have hlen := fun q b => recordLen_setLog { s with fileQueue := q, brk := b } l
  unfold openVirtualFile
  dsimp only at hlen ⊢
  split_ifs <;> first | rfl | rw [hlen]

theorem writeVirtualFile_setLog (s : Server) (l : List LogRecord) (p : CString) (buf : List Byte) (n : ℕ) :
    writeVirtualFile { s with log := l } p buf n =
      ((writeVirtualFile s p buf n).1, { (writeVirtualFile s p buf n).2 with log := l }) := by
  have hsize := fun q => recordSize_setLog { s with fileQueue := q } l
  unfold writeVirtualFile
  dsimp only at hsize ⊢
  split
  · rw [recordSize_setLog]
  · split_ifs
    · rfl
    · rw [hsize]

theorem appendVirtualFile_setLog (s : Server) (l : List LogRecord) (p : CString) (buf : List Byte) (n : ℕ) :
    appendVirtualFile { s with log := l } p buf n =
      ((appendVirtualFile s p buf n).1, { (appendVirtualFile s p buf n).2 with log := l }) := by
  have hsize := fun q => recordSize_setLog { s with fileQueue := q } l
  unfold appendVirtualFile
  dsimp only at hsize ⊢
  split
  · rw [recordSize_setLog]
  · split_ifs
    · rfl
    · rw [hsize]

/-- **No action reads the log.** -/
theorem exec_setLog {a : Act} {e : Env} {s s' : Server} {x : a.Ans}
    (hx : exec cfg a e s = some (x, s')) (l : List LogRecord) :
    ∃ l', exec cfg a e { s with log := l } = some (x, { s' with log := l' }) := by
  cases a with
  | call c =>
    refine ⟨l, ?_⟩
    cases c with
    | openVirtualFile p flags c =>
      obtain ⟨rfl, rfl⟩ := Prod.mk.inj (Option.some.inj hx)
      exact congrArg some (openVirtualFile_setLog s l p flags c)
    | writeVirtualFile p buf n =>
      obtain ⟨rfl, rfl⟩ := Prod.mk.inj (Option.some.inj hx)
      exact congrArg some (writeVirtualFile_setLog s l p buf n)
    | appendVirtualFile p buf n =>
      obtain ⟨rfl, rfl⟩ := Prod.mk.inj (Option.some.inj hx)
      exact congrArg some (appendVirtualFile_setLog s l p buf n)
    | deref p =>
      obtain ⟨f, hf, he⟩ := Option.map_eq_some_iff.1 hx
      obtain ⟨rfl, rfl⟩ := Prod.mk.inj he
      exact Option.map_eq_some_iff.2 ⟨f, hf, rfl⟩
    | _ =>
      obtain ⟨rfl, rfl⟩ := Prod.mk.inj (Option.some.inj hx)
      rfl
  | log record =>
    obtain ⟨rfl, rfl⟩ := Prod.mk.inj (Option.some.inj hx)
    exact ⟨l ++ [record], rfl⟩
  | crash => cases hx
  | _ =>
    obtain ⟨rfl, rfl⟩ := Prod.mk.inj (Option.some.inj hx)
    exact ⟨l, rfl⟩

theorem sameStore_iff {s t : Server} : SameStore s t ↔ ∃ l, t = { s with log := l } := by
  constructor
  · intro h
    refine ⟨t.log, ?_⟩
    have hs : { s.unlogged with log := t.log } = { s with log := t.log } := rfl
    rw [← hs, h]
    rfl
  · rintro ⟨l, rfl⟩
    rfl

/-- The actions on the log and the socket do not touch the store. -/
theorem screens (cfg : Config) : Screens (exec cfg) Touches SameStore where
  equiv := ⟨fun _ => rfl, fun h => h.symm, fun h h' => h.trans h'⟩
  congr := by
    intro a e s x s' u hu hx
    obtain ⟨l, rfl⟩ := sameStore_iff.1 hu
    obtain ⟨l', hx'⟩ := exec_setLog hx l
    exact ⟨_, hx', sameStore_iff.2 ⟨l', rfl⟩⟩
  quiet := by
    intro a e s x s' ha hx
    cases a with
    | call | incNumFileReplacement => exact absurd trivial ha
    | crash => cases hx
    | _ =>
      obtain ⟨rfl, rfl⟩ := Prod.mk.inj (Option.some.inj hx)
      rfl
  blind := by
    intro a e s x s' ha hx u
    cases a with
    | call | incNumFileReplacement => exact absurd trivial ha
    | crash => cases hx
    | _ =>
      obtain ⟨rfl, rfl⟩ := Prod.mk.inj (Option.some.inj hx)
      exact ⟨_, rfl⟩

/-! ## The controllers -/

theorem readFileController_before (r : Request) :
    Before (S := workerSig) Touches Mutex.fileQueueMutex (readFileController r) := by
  -- the end of the controller, after the transfer of the file
  have hend : ∀ rbyte : ℤ, Inside (S := workerSig) Mutex.fileQueueMutex (if rbyte = 0 then
      logRequest r rbyte 0 none (.unlock .fileQueueMutex .ret) else .unlock .fileQueueMutex .ret) := by
    intro rbyte
    split_ifs <;> simp [Inside, Still, logRequest]
  refine ⟨fun _ res => ?_, fun h => absurd rfl h⟩
  rcases res with _ | ⟨buf, size⟩
  · exact fun _ => hend (-1)
  · intro ok
    cases ok
    · exact hend (-1)
    · exact fun _ => hend _

/-- A controller has one critical section, and nothing to do after it. -/
theorem controller_before (r : Request) :
    Before (S := workerSig) Touches Mutex.fileQueueMutex (controller cfg r) := by
  unfold controller
  cases r.operation with
  | OP_OPEN_FILE => simp [openFileController, Before, Inside, Still, Touches, logRequest]
  | OP_APPEND_FILE =>
    simp [appendFileController, appendFileBody, sendBufferFileToClient, Before, Inside, Still, logRequest,
      Option.forall]
  | OP_READ_FILE => exact readFileController_before r
  | OP_DELETE_FILE =>
    refine ⟨id, fun _ => ⟨fun _ _ _ => ?_, fun h => absurd rfl h⟩⟩
    simp [Inside, Still]
  | OP_WRITE_FILE =>
    simp [writeFileController, writeFileBody, sendBufferFileToClient, Before, Inside, Still, logRequest]
  | OP_CLOSE_FILE => simp [closeFileController, Before, Inside, Still, Touches, logRequest]
  | OP_LOCK_FILE => simp [lockFileController, Before, Inside, Still, Touches, logRequest]
  | OP_UNLOCK_FILE => simp [unlockFileController, Before, Inside, Still, Touches, logRequest]
  | OP_READ_N_FILES =>
    simp [readnFileController, readnFileBody, Before, Inside, Still, Touches, logRequest, Option.forall]
  | unknown n => trivial

/-! ## The log -/

section
variable [DecidableEq W] {h : List (W × Ev workerSig Request)} {c : Conf workerSig Server Request W}
  {ok : Conf workerSig Server Request W → W → Ev workerSig Request → Prop}

/-- The log has the records of the actions, in their order. -/
theorem run_log (hr : Run (exec cfg) (controller cfg) ok (Conf.init Server.init) h c) :
    c.st.log = recordsOf (h.flatMap (·.2.actions)) := by
  induction hr with
  | init => rfl
  | @step h c c' w ev _ hst _ ih =>
    rw [List.flatMap_append, recordsOf_append, ← ih]
    rcases hst.st_cases with he | ⟨a, e, x, rfl, hx⟩
    · have hnone : recordsOf ([(w, ev)].flatMap (·.2.actions)) = [] := by
        cases ev with
        | did a x =>
          obtain ⟨e, hx⟩ := hst.exec_did
          have hlog := congrArg Prod.fst (exec_recorded hx)
          simp only [Server.recorded, he] at hlog
          simpa [Ev.actions] using hlog
        | _ => rfl
      rw [he, hnone, List.append_nil]
    · have hlog := congrArg Prod.fst (exec_recorded hx)
      simp only [Server.recorded] at hlog
      simpa [Ev.actions] using hlog

omit [DecidableEq W] in
theorem serial_log {ser : List (W × Request × List (Done workerSig))} {s : Server}
    (hs : Serial (exec cfg) (controller cfg) Server.init ser s) : s.log = recordsOf (ser.flatMap (·.2.2)) := by
  induction hs with
  | nil => rfl
  | snoc _ hr ih =>
    have hlog := congrArg Prod.fst (runs_recorded hr)
    simp only [Server.recorded] at hlog
    rw [hlog, ih, List.flatMap_append, recordsOf_append]
    simp

/-- **The requests one after the other.**  Up to the first worker that comes back
    from a wait for a lock, and whenever no worker runs, the store is the one
    that the requests leave when they are handled one after the other, in some
    order in which each worker handles its own ones as it has read them, with the
    same calls, the same answers and the same messages to its clients; the log
    has the same records, in another order. -/
theorem serializable
    (hr : Run (exec cfg) (controller cfg) (fun c w _ => (c.thr w).isWoken = false) (Conf.init Server.init) h c)
    (hrest : ∀ w r p, c.thr w ≠ .run r p) :
    ∃ ser s, Serial (exec cfg) (controller cfg) Server.init ser s ∧ SameStore s c.st ∧
      s.log.Perm c.st.log ∧ ∀ w, started w h = tasksOf w ser ∧ did w h = traceOf w ser := by
  obtain ⟨ser, s, hser, hs, hw⟩ := hr.serial (screens cfg) controller_before hrest
  refine ⟨ser, s, hser, hs, ?_, hw⟩
  rw [run_log hr, serial_log hser]
  exact (did_perm fun w => (hw w).2).symm.filterMap _

end

/-- Two clients create a file each; both requests are logged before the first of
    them gets the mutex. -/
def interleaved (w v : W) : List (W × Choice Request Env W) :=
  (w, .start ⟨1, .OP_OPEN_FILE, [47, 97], O_CREATE ||| O_LOCK, 0⟩) :: steps w 1 ++
  (v, .start ⟨2, .OP_OPEN_FILE, [47, 98], O_CREATE, 0⟩) :: steps v 8 ++ steps w 7

theorem serializable_interleaved : ∃ (h : List (Fin 2 × Ev workerSig Request))
    (c : Conf workerSig Server Request (Fin 2)), c.st.fileQueue.data.map (·.pathname) = [[47, 98], [47, 97]] ∧
      ∃ ser s, Serial (exec ⟨8, 4⟩) (controller ⟨8, 4⟩) Server.init ser s ∧ SameStore s c.st ∧
        s.log.Perm c.st.log ∧ ∀ w, started w h = tasksOf w ser ∧ did w h = traceOf w ser := by
  obtain ⟨x, hx, h0, h1, hq⟩ : ∃ x ∈ trace (exec ⟨8, 4⟩) (controller ⟨8, 4⟩) (fun c w _ => !(c.thr w).isWoken)
      (interleaved (0 : Fin 2) 1) [] (Conf.init Server.init), (x.2.thr 0).atRest = true ∧ (x.2.thr 1).atRest = true ∧
      x.2.st.fileQueue.data.map (·.pathname) = [[47, 98], [47, 97]] := by decide +kernel
  have hr : Run (exec ⟨8, 4⟩) (controller ⟨8, 4⟩) (fun c w _ => (!(c.thr w).isWoken) = true)
      (Conf.init Server.init) x.1 x.2 := trace_run (interleaved 0 1) .init hx
  refine ⟨x.1, x.2, hq, serializable (hr.mono fun _ _ _ ho => by simpa using ho) fun w r p he => ?_⟩
  have hrest : ∀ w : Fin 2, (x.2.thr w).atRest = true := Fin.forall_fin_two.2 ⟨h0, h1⟩
  have := hrest w
  rw [he] at this
  cases this

end FileStorage
