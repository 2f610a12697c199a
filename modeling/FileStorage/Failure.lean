/-
  Requests that fail.

  A request has failed if the last response sent has the status `-1`.  Then the
  queue is as before, with one exception: the write and append controllers
  expel a file before they check the lock, so that a request refused there has
  lost a file.  `unchanged_iff` says exactly when this cannot happen.
-/
import FileStorage.Capacity

namespace FileStorage

open Threads Prog

variable {cfg : Config} {s : Server} {r : Request} {t : List (Done workerSig)}

/-- The status of the last response sent, with `st` the one before. -/
def statusAfter (st : Option ℤ) : Done workerSig → Option ℤ
  | ⟨.write response, ok⟩ => if ok then some response.statusCode else st
  | _ => st

/-- The status of the last response sent. -/
def lastStatus (t : List (Done workerSig)) : Option ℤ := t.foldl statusAfter none

theorem lastStatus_append (t u : List (Done workerSig)) :
    lastStatus (t ++ u) = u.foldl statusAfter (lastStatus t) := List.foldl_append

/-- A request that fails leaves the queue as it was. -/
def FailsUnchanged (cfg : Config) (s : Server) (r : Request) : Prop :=
  ∀ t o s', Runs (exec cfg) (controller cfg r) s t o s' → lastStatus t = some (-1) →
    s'.fileQueue = s.fileQueue

/-- The file of the request is open and the client holds its lock. -/
def Holds (q : Queue FileNode) (r : Request) : Prop :=
  ∃ f, getFileNode q r.filepath = some f ∧ f.isOpen ∧ f.clientId = r.clientId

/-- If the request expels a file from a store that is not empty, the first file
    that passes the test is not that of the request, which is open and held by
    the client. -/
def KeepsTarget (cfg : Config) (q : Queue FileNode) (r : Request) : Prop :=
  NeedsExpulsion cfg q r → q.data = [] ∨ ∃ x, victim cfg q (i32 r.fileSize) = some x ∧
    x.pathname ≠ r.filepath ∧ Holds q r

/-! ## The functions that fail -/

theorem openVirtualFile_fails (hs : s.WF cfg) {p : CString} {flags : Flags} {c : ℤ}
    (h : (openVirtualFile cfg s p flags c).1 ≠ 0) :
    (openVirtualFile cfg s p flags c).2.fileQueue = s.fileQueue := by
  cases hf : getFileNode s.fileQueue p with
  | some f =>
    rw [openVirtualFile_some hf] at h ⊢
    split_ifs at h ⊢
    · rfl
    · exact lockVirtualFile_fails h
    · rfl
  | none =>
    rw [openVirtualFile_none hs hf] at h ⊢
    split_ifs at h ⊢
    · rfl
    · rfl
    · exact absurd rfl h

theorem writeVirtualFile_fails {buf : List Byte} {size : ℕ}
    (h : (writeVirtualFile s r.filepath buf size).1 = -1) :
    (writeVirtualFile s r.filepath buf size).2.fileQueue = s.fileQueue ∧ ¬ Holds s.fileQueue r := by
  unfold writeVirtualFile at h ⊢
  split at h
  · exact ⟨recordSize_queue, fun ⟨f, hf, _⟩ => by simp_all⟩
  · split_ifs at h with ho
    exact ⟨by simp [ho], fun ⟨f, hf, hop, _⟩ => by simp_all⟩

theorem appendVirtualFile_fails {buf : List Byte} {size : ℕ}
    (h : (appendVirtualFile s r.filepath buf size).1 = -1) :
    (appendVirtualFile s r.filepath buf size).2.fileQueue = s.fileQueue ∧ ¬ Holds s.fileQueue r := by
  unfold appendVirtualFile at h ⊢
  split at h
  · exact ⟨recordSize_queue, fun ⟨f, hf, _⟩ => by simp_all⟩
  · split_ifs at h with ho
    exact ⟨by simp [ho], fun ⟨f, hf, hop, _⟩ => by simp_all⟩

/-! ## From the lock check on -/

/-- If the last response sent has the status `-1`, the final state satisfies `P`. -/
def OnFailure (P : Server → Prop) (t : List (Done workerSig)) (_ : Outcome) (s' : Server) : Prop :=
  lastStatus t = some (-1) → P s'

section
variable {P : Server → Prop} (hl : lastStatus t ≠ some (-1))
include hl

theorem OnFailure.other {d : Done workerSig} {o : Outcome} (hd : ∀ st, statusAfter st d = st) :
    OnFailure P (t ++ [d]) o s := by
  intro h
  rw [lastStatus_append, List.foldl_cons, List.foldl_nil, hd] at h
  exact absurd h hl

/-- The last response of a controller. -/
theorem answer_wp {x : Response} (h : x.statusCode = -1 → P s) :
    wp (exec cfg) (OnFailure P) (.act (.write x) fun _ => .unlock .fileQueueMutex .ret) t s := by
  rw [wp_write]
  intro ok hst
  rw [lastStatus_append, List.foldl_cons, List.foldl_nil, statusAfter] at hst
  split_ifs at hst with hok
  · exact h (Option.some.inj hst)
  · exact absurd hst hl

/-- What a write or append that fails after the lock check leaves, started from `s`. -/
def Refused (s : Server) (r : Request) (s' : Server) : Prop :=
  s'.fileQueue = s.fileQueue ∧ ¬ Holds s.fileQueue r

/-- From the lock check on, a write changes nothing if it fails, and it does not
    fail if the client holds the lock of an open file. -/
theorem writeFileBody_wp : wp (exec cfg) (OnFailure (Refused s r)) (writeFileBody r) t s := by
  rw [writeFileBody, wp_act (fun _ => (hasFileLock s.fileQueue r.filepath r.clientId, s)) fun _ => rfl]
  intro _
  dsimp only
  split_ifs with hlock
  · rw [wp_write]
    rintro (_ | _)
    · simpa [OnFailure, lastStatus_append, statusAfter] using fun h => absurd h hl
    rw [if_pos rfl, wp_readData]
    intro bytes u
    generalize (if r.fileSize = 0 then u else u % r.fileSize + 1) = n
    split_ifs with hn
    · rw [wp_act (a := .call (.writeVirtualFile r.filepath (received r.fileSize bytes) r.fileSize))
        (fun _ => writeVirtualFile s r.filepath (received r.fileSize bytes) r.fileSize) fun _ => rfl]
      intro _
      refine answer_wp ?_ fun h => writeVirtualFile_fails ?_
      · simp [lastStatus_append, statusAfter, respond]
      · simpa [apply_ite Response.statusCode, respond] using h
    · simp [OnFailure, lastStatus_append, statusAfter, respond]
  · refine answer_wp ?_ fun _ => ⟨rfl, fun ⟨f, hf, _, hc⟩ => hlock (hasFileLock_iff.2 ⟨f, hf, hc⟩)⟩
    simpa [lastStatus_append, statusAfter] using hl

/-- Likewise for an append. -/
theorem appendFileBody_wp : wp (exec cfg) (OnFailure (Refused s r)) (appendFileBody r) t s := by
  rw [appendFileBody, wp_act (fun _ => (hasFileLock s.fileQueue r.filepath r.clientId, s)) fun _ => rfl]
  intro _
  dsimp only
  split_ifs with hlock
  · rw [wp_write]
    rintro (_ | _)
    · simpa [OnFailure, lastStatus_append, statusAfter] using fun h => absurd h hl
    rw [if_pos rfl, wp_read]
    refine ⟨by simp [OnFailure, lastStatus_append, statusAfter, respond], fun bytes => ?_⟩
    rw [wp_act (a := .call (.appendVirtualFile r.filepath (received r.fileSize bytes) r.fileSize))
      (fun _ => appendVirtualFile s r.filepath (received r.fileSize bytes) r.fileSize) fun _ => rfl]
    intro _
    refine answer_wp ?_ fun h => appendVirtualFile_fails ?_
    · simp [lastStatus_append, statusAfter, respond]
    · simpa [apply_ite Response.statusCode, respond] using h
  · refine answer_wp ?_ fun _ => ⟨rfl, fun ⟨f, hf, _, hc⟩ => hlock (hasFileLock_iff.2 ⟨f, hf, hc⟩)⟩
    simpa [lastStatus_append, statusAfter] using hl

end

/-! ## The controllers that expel nothing -/

/-- A request that fails has left the queue as it was in `s`. -/
def Unchanged (s s' : Server) : Prop := s'.fileQueue = s.fileQueue

/-- The answer after a call that may have waited for the lock. -/
theorem status_wp {s' : Server} {res : ℤ} {m₁ m₂ : CString} (ht : lastStatus t ≠ some (-1))
    (hfail : res ≠ 0 → Unchanged s s') :
    wp (exec cfg) (OnFailure (Unchanged s))
      (.unlock .fileLockMutex (.act (.write (if res = 0 then respond 0 m₁ else respond (-1) m₂)) fun _ =>
        .unlock .fileQueueMutex .ret)) t s' := by
  rw [wp_unlock]
  refine answer_wp ht fun h => hfail fun hres => ?_
  rw [if_pos hres] at h
  cases h

theorem openFileController_wp (hs : s.WF cfg) :
    wp (exec cfg) (OnFailure (Unchanged s)) (openFileController r) [] s := by
  rw [openFileController, logRequest, wp_log, wp_lock, wp_lock]
  refine ⟨fun _ res s' hx => ?_, fun hx => by cases hx ⟨true, [], 0, NULL⟩⟩
  have hfail : res ≠ 0 → s'.fileQueue = s.fileQueue := by
    intro hres
    have he : openVirtualFile cfg { s with log := s.log ++ [⟨r, 0, 0, none⟩] } r.filepath r.flags
        r.clientId = (res, s') := Option.some.inj hx
    have hwf : Server.WF cfg { s with log := s.log ++ [⟨r, 0, 0, none⟩] } :=
      ⟨hs.toWF, hs.addr, hs.brk, hs.cap⟩
    have h := @openVirtualFile_fails cfg _ hwf r.filepath r.flags r.clientId
    rw [he] at h
    exact h hres
  split_ifs with hb
  · intro h; simp [lastStatus, statusAfter] at h
  · exact status_wp (by simp [lastStatus, statusAfter]) hfail

theorem lockFileController_wp :
    wp (exec cfg) (OnFailure (Unchanged s)) (lockFileController r) [] s := by
  rw [lockFileController, logRequest, wp_log, wp_lock, wp_lock]
  refine ⟨fun _ res s' hx => ?_, fun hx => by cases hx ⟨true, [], 0, NULL⟩⟩
  have hfail : res ≠ 0 → s'.fileQueue = s.fileQueue := by
    intro hres
    obtain ⟨rfl, rfl⟩ := Prod.mk.inj (Option.some.inj hx)
    exact lockVirtualFile_fails hres
  split_ifs with hb
  · intro h; simp [lastStatus, statusAfter] at h
  · exact status_wp (by simp [lastStatus, statusAfter]) hfail

theorem unlockFileController_wp :
    wp (exec cfg) (OnFailure (Unchanged s)) (unlockFileController r) [] s := by
  rw [unlockFileController, logRequest, wp_log, wp_lock]
  refine ⟨fun _ res s' hx => ?_, fun hx => by cases hx ⟨true, [], 0, NULL⟩⟩
  have hfail : res ≠ 0 → s'.fileQueue = s.fileQueue := by
    intro hres
    obtain ⟨rfl, rfl⟩ := Prod.mk.inj (Option.some.inj hx)
    exact unlockVirtualFile_fails hres
  dsimp only
  split_ifs with hres
  · rw [wp_lock, wp_broadcast, wp_unlock]
    exact answer_wp (by simp [lastStatus, statusAfter]) fun h => by cases h
  · exact answer_wp (by simp [lastStatus, statusAfter]) fun _ => hfail hres

theorem deleteFileController_wp :
    wp (exec cfg) (OnFailure (Unchanged s)) (deleteFileController r) [] s := by
  rw [deleteFileController, logRequest, wp_log, wp_lock]
  refine ⟨fun _ res s' hx => ?_, fun hx => by cases hx ⟨true, [], 0, NULL⟩⟩
  refine answer_wp (by simp [lastStatus, statusAfter]) fun h => ?_
  split_ifs at h <;> cases h

theorem closeFileController_wp :
    wp (exec cfg) (OnFailure (Unchanged s)) (closeFileController r) [] s := by
  rw [closeFileController, logRequest, wp_log, wp_lock]
  refine ⟨fun _ res s' hx => ?_, fun hx => by cases hx ⟨true, [], 0, NULL⟩⟩
  refine answer_wp (by simp [lastStatus, statusAfter]) fun h => ?_
  split_ifs at h <;> cases h

theorem readFileController_wp :
    wp (exec cfg) (OnFailure (Unchanged s)) (readFileController r) [] s := by
  have hlog : ∀ rbyte : ℤ, ∀ t, wp (exec cfg) (OnFailure (Unchanged s))
      (if rbyte = 0 then logRequest r rbyte 0 none <| .unlock .fileQueueMutex .ret
        else .unlock .fileQueueMutex .ret) t s := by
    intro rbyte t
    split_ifs
    · simp [logRequest, OnFailure, Unchanged]
    · simp [OnFailure, Unchanged]
  rw [readFileController, wp_lock, sendFileToClient,
    wp_act (fun _ => (readVirtualFile s.fileQueue r.filepath, s)) fun _ => rfl]
  intro _
  dsimp only
  cases readVirtualFile s.fileQueue r.filepath with
  | none =>
    rw [wp_write]
    exact fun _ => hlog _ _
  | some x =>
    rw [wp_write]
    rintro (_ | _)
    · rw [if_neg Bool.false_ne_true]
      exact hlog _ _
    · rw [if_pos rfl, wp_writeBytes]
      exact fun _ => hlog _ _

theorem readnFileController_wp :
    wp (exec cfg) (OnFailure (Unchanged s)) (readnFileController r) [] s := by
  have hbody : ∀ st fileList t, wp (exec cfg) (OnFailure (Unchanged s)) (readnFileBody st fileList) t
      { s with log := s.log ++ [⟨r, 0, 0, none⟩] } := by
    intro st fileList t
    cases fileList with
    | none => exact ⟨fun _ _ _ hx => by (cases hx), fun _ _ => rfl⟩
    | some l => simp [readnFileBody, OnFailure, Unchanged]
  rw [readnFileController, logRequest, wp_log, wp_lock]
  refine ⟨fun _ res s' hx => ?_, fun hx => by cases hx ⟨true, [], 0, NULL⟩⟩
  obtain ⟨rfl, rfl⟩ := Prod.mk.inj (Option.some.inj hx)
  dsimp only
  split_ifs with h0
  · rw [wp_write]
    rintro (_ | _)
    · exact hbody _ _ _
    · exact fun _ => rfl
  · exact hbody _ _ _

/-! ## The exact condition -/

/-- The other requests. -/
theorem controller_wp (hs : s.WF cfg) (hw : r.operation ≠ .OP_WRITE_FILE)
    (ha : r.operation ≠ .OP_APPEND_FILE) :
    wp (exec cfg) (OnFailure (Unchanged s)) (controller cfg r) [] s := by
  unfold controller
  split
  · exact openFileController_wp hs
  · exact absurd ‹_› ha
  · exact readFileController_wp
  · exact deleteFileController_wp
  · exact absurd ‹_› hw
  · exact closeFileController_wp
  · exact lockFileController_wp
  · exact unlockFileController_wp
  · exact readnFileController_wp
  · exact fun _ => rfl

theorem lastStatus_expulsion {x : FileNode} {sent : Bool × Bool} (hl : lastStatus t ≠ some (-1)) :
    lastStatus (t ++ expulsionTrace r x sent) ≠ some (-1) := by
  obtain ⟨_ | _, ok⟩ := sent <;> simp [expulsionTrace, lastStatus_append, statusAfter, hl]

theorem holds_expelled (hs : s.WF cfg) {x : FileNode} (hx : x ∈ s.fileQueue.data) :
    Holds (expelled s r x).fileQueue r ↔ x.pathname ≠ r.filepath ∧ Holds s.fileQueue r := by
  have h0 : x.addr ≠ NULL := Nat.pos_iff_ne_zero.1 (hs.addr x hx).1
  simp only [Holds, expelled, getFileNode_remove hs.toWF hx h0]
  split_ifs with hp
  · simp [hp.symm]
  · simp [Ne.symm hp]

section
variable {k : ℤ → Code}

/-- After an expulsion that keeps the target, the request does not fail. -/
theorem expulsion_succeeds (hs : s.WF cfg)
    (hk : ∀ {t : List (Done workerSig)} {s : Server}, lastStatus t ≠ some (-1) →
      wp (exec cfg) (OnFailure (Refused s r)) (k 0) t s)
    (hv : s.fileQueue.data = [] ∨ ∃ x, victim cfg s.fileQueue (i32 r.fileSize) = some x ∧
      x.pathname ≠ r.filepath ∧ Holds s.fileQueue r)
    {t₀ : List (Done workerSig)} (hl : lastStatus t₀ ≠ some (-1)) {o : Outcome} {s' : Server}
    (hr : Runs (exec cfg) (expulsion r k) s t o s') : lastStatus (t₀ ++ t) ≠ some (-1) := by
  obtain ⟨u, ⟨-, rfl, -, -⟩ | ⟨f, hf, he, sent, t', rfl, hr'⟩⟩ := expulsion_runs hs hr
  · simpa [lastStatus_append, statusAfter] using hl
  · obtain hnil | ⟨x, hx, hne, hold⟩ := hv
    · rw [hnil] at hf; cases hf
    rw [expelFile_eq hx] at he
    obtain rfl := hs.toWF.eq_of_addr (victim_mem hx) hf he
    intro hst
    rw [← List.append_assoc] at hst
    have href := wp_sound hr' _ (hk (lastStatus_expulsion hl)) hst
    exact href.2 ((holds_expelled hs hf).2 ⟨hne, hold⟩)

/-- An expulsion of `x` after which the request fails. -/
theorem expulsion_fails (hs : s.WF cfg) {x : FileNode} (hx : x ∈ s.fileQueue.data) {u : Ptr}
    (he : expelFile cfg u s.fileQueue (i32 r.fileSize) = x.addr)
    (hk : ∀ s₁ : Server, ¬ Holds s₁.fileQueue r → ∃ t o s', Runs (exec cfg) (k 0) s₁ t o s' ∧
      (∀ st, t.foldl statusAfter st = some (-1)) ∧ s'.fileQueue = s₁.fileQueue)
    (hold : ¬ (x.pathname ≠ r.filepath ∧ Holds s.fileQueue r)) :
    ∃ t o s', Runs (exec cfg) (expulsion r k) s t o s' ∧
      (∀ st, t.foldl statusAfter st = some (-1)) ∧ s'.fileQueue ≠ s.fileQueue := by
  have h0 : x.addr ≠ NULL := Nat.pos_iff_ne_zero.1 (hs.addr x hx).1
  obtain ⟨t, o, s', hr, hst, hq⟩ := hk (expelled s r x) fun h => hold ((holds_expelled hs hx).1 h)
  refine ⟨_, o, s', expulsion_run hs hx he hr, fun st => ?_, fun heq => ?_⟩
  · rw [List.foldl_append, hst]
  · have hmem : x ∈ (removeNode s.fileQueue x.addr).2.data := by
      rw [hq] at heq
      rw [show (removeNode s.fileQueue x.addr).2 = s.fileQueue from heq]
      exact hx
    exact ((mem_remove hs.toWF hx h0).1 hmem).2 rfl

end

/-- A file that the client has locked, but that it does not hold, is closed. -/
theorem closed_of_not_holds {q : Queue FileNode} (h : ¬ Holds q r)
    (hlock : hasFileLock q r.filepath r.clientId = 0) :
    ∃ f, getFileNode q r.filepath = some f ∧ f.isOpen = false := by
  obtain ⟨f, hf, hc⟩ := hasFileLock_iff.1 hlock
  refine ⟨f, hf, ?_⟩
  by_contra ho
  exact h ⟨f, hf, Bool.eq_true_of_not_eq_false ho, hc⟩

/-- Without the lock of an open file the request fails, if nothing else does. -/
theorem appendFileBody_refuses (h : ¬ Holds s.fileQueue r) :
    ∃ t o s', Runs (exec cfg) (appendFileBody r) s t o s' ∧
      (∀ st, t.foldl statusAfter st = some (-1)) ∧ s'.fileQueue = s.fileQueue := by
  let e : Env := ⟨true, [], 0, NULL⟩
  by_cases hlock : hasFileLock s.fileQueue r.filepath r.clientId = 0
  · obtain ⟨f, hf, ho⟩ := closed_of_not_holds h hlock
    have hres : appendVirtualFile s r.filepath (received r.fileSize []) r.fileSize = (-1, s) := by
      simp [appendVirtualFile, hf, ho]
    have hrun : run (exec cfg) (appendFileBody r) [e, e, e, e, e] s = some ([
        ⟨.call (.hasFileLock r.filepath r.clientId), (0 : ℤ)⟩,
        ⟨.write (respond 0 (str "Ready to receive file, client has lock")), true⟩,
        ⟨.read r.fileSize, some (received r.fileSize [])⟩,
        ⟨.call (.appendVirtualFile r.filepath (received r.fileSize []) r.fileSize), (-1 : ℤ)⟩,
        ⟨.write (respond (-1) (str "Errore scrittura file")), true⟩], .returned, s) := by
      simp [run, appendFileBody, exec, Call.exec, hlock, hres, e]
    exact ⟨_, _, s, run_sound hrun, fun st => rfl, rfl⟩
  · have hrun : run (exec cfg) (appendFileBody r) [e, e] s = some ([
        ⟨.call (.hasFileLock r.filepath r.clientId), hasFileLock s.fileQueue r.filepath r.clientId⟩,
        ⟨.write (respond (-1) (str "The client doesnt have lock, aborting")), true⟩], .returned, s) := by
      simp [run, appendFileBody, exec, Call.exec, hlock, e]
    exact ⟨_, _, s, run_sound hrun, fun st => rfl, rfl⟩

/-- Likewise for a write. -/
theorem writeFileBody_refuses (h : ¬ Holds s.fileQueue r) :
    ∃ t o s', Runs (exec cfg) (writeFileBody r) s t o s' ∧
      (∀ st, t.foldl statusAfter st = some (-1)) ∧ s'.fileQueue = s.fileQueue := by
  let e : Env := ⟨true, [], 0, NULL⟩
  by_cases hlock : hasFileLock s.fileQueue r.filepath r.clientId = 0
  · obtain ⟨f, hf, ho⟩ := closed_of_not_holds h hlock
    have hres : writeVirtualFile s r.filepath (received r.fileSize []) r.fileSize = (-1, s) := by
      simp [writeVirtualFile, hf, ho]
    obtain ⟨n, hn, hne⟩ : ∃ n : ℤ, (if r.fileSize = 0 then 0 else (0 : ℤ) % r.fileSize + 1) = n ∧ n ≠ -1 :=
      ⟨_, rfl, by split_ifs <;> simp⟩
    have hrun : run (exec cfg) (writeFileBody r) [e, e, e, e, e] s = some ([
        ⟨.call (.hasFileLock r.filepath r.clientId), (0 : ℤ)⟩,
        ⟨.write (respond 0 (str "Ready to receive file, client has lock")), true⟩,
        ⟨.readData r.fileSize, (received r.fileSize [], n)⟩,
        ⟨.call (.writeVirtualFile r.filepath (received r.fileSize []) r.fileSize), (-1 : ℤ)⟩,
        ⟨.write (respond (-1) (str "Errore scrittura file")), true⟩], .returned, s) := by
      simp only [run, writeFileBody, exec, Call.exec, hlock, e, hn, hne, Option.bind_some, if_true,
        ne_eq, not_false_eq_true, hres, Option.map_some]
      rfl
    exact ⟨_, _, s, run_sound hrun, fun st => rfl, rfl⟩
  · have hrun : run (exec cfg) (writeFileBody r) [e, e] s = some ([
        ⟨.call (.hasFileLock r.filepath r.clientId), hasFileLock s.fileQueue r.filepath r.clientId⟩,
        ⟨.write (respond (-1) (str "The client doesnt have lock, aborting")), true⟩], .returned, s) := by
      simp [run, writeFileBody, exec, Call.exec, hlock, e]
    exact ⟨_, _, s, run_sound hrun, fun st => rfl, rfl⟩

theorem storeBody_wp (hl : lastStatus t ≠ some (-1)) :
    wp (exec cfg) (OnFailure (Refused s r)) (storeBody r) t s := by
  unfold storeBody
  split_ifs
  · exact writeFileBody_wp hl
  · exact appendFileBody_wp hl

theorem expelledBody_wp (hl : lastStatus t ≠ some (-1)) :
    wp (exec cfg) (OnFailure (Refused s r)) (expelledBody r 0) t s := by
  unfold expelledBody
  split_ifs with hw h0
  · rw [wp_act (a := .incNumFileReplacement) (fun _ => ((), _)) fun _ => rfl]
    intro _
    exact writeFileBody_wp (by simpa [lastStatus_append, statusAfter] using hl)
  · exact writeFileBody_wp hl
  · exact appendFileBody_wp hl

theorem expelledBody_refuses (h : ¬ Holds s.fileQueue r) :
    ∃ t o s', Runs (exec cfg) (expelledBody r 0) s t o s' ∧
      (∀ st, t.foldl statusAfter st = some (-1)) ∧ s'.fileQueue = s.fileQueue := by
  unfold expelledBody
  split_ifs with hw h0
  · obtain ⟨t, o, s', hr, hst, hq⟩ := @writeFileBody_refuses cfg { s with stats :=
      { s.stats with numFileReplacement := i32 (s.stats.numFileReplacement + 1) } } r h
    exact ⟨_, o, s', .act (e := ⟨true, [], 0, NULL⟩) rfl hr, fun st => hst _, hq⟩
  · exact writeFileBody_refuses h
  · exact appendFileBody_refuses h

/-- A write or append that keeps its target. -/
theorem store_wp (hs : s.WF cfg) (hk : KeepsTarget cfg s.fileQueue r)
    (hop : r.operation = .OP_WRITE_FILE ∨ r.operation = .OP_APPEND_FILE) :
    wp (exec cfg) (OnFailure (Unchanged s)) (controller cfg r) [] s := by
  rw [controller_eq hop, wp_lock, wp_act (fun _ => (getFreeSpace cfg s.fileQueue, s)) fun _ => rfl]
  intro _
  rw [storeBranch]
  split_ifs with hbig hlt
  · rw [wp_write]
    exact fun _ _ => rfl
  · refine wp_complete _ _ _ fun t o s' hr hst => absurd hst ?_
    exact expulsion_succeeds hs expelledBody_wp (hk ⟨hop, hbig, hlt⟩) (by simp [lastStatus, statusAfter]) hr
  · rw [logRequest, wp_log]
    refine wp_mono (storeBody_wp (by simp [lastStatus, statusAfter])) fun t o s' h hst => ?_
    exact (h hst).1

/-- The first node that the controller may expel so that the request fails. -/
theorem exists_expelled {q : Queue FileNode}
    (hk : ¬ (q.data = [] ∨ ∃ x, victim cfg q (i32 r.fileSize) = some x ∧ x.pathname ≠ r.filepath ∧
      Holds q r)) :
    ∃ x ∈ q.data, ∃ u, expelFile cfg u q (i32 r.fileSize) = x.addr ∧
      ¬ (x.pathname ≠ r.filepath ∧ Holds q r) := by
  obtain ⟨hne, hk⟩ := not_or.1 hk
  cases hv : victim cfg q (i32 r.fileSize) with
  | some x => exact ⟨x, victim_mem hv, NULL, expelFile_eq hv, fun h => hk ⟨x, hv, h⟩⟩
  | none =>
    -- the unset pointer may point to any node
    cases hf : getFileNode q r.filepath with
    | some f => exact ⟨f, getFileNode_mem hf, f.addr, expelFile_unset hv, fun h =>
        h.1 (getFileNode_pathname hf)⟩
    | none =>
      obtain ⟨x, l, hl⟩ := List.exists_cons_of_ne_nil hne
      refine ⟨x, by simp [hl], x.addr, expelFile_unset hv, fun ⟨_, f, hf', _⟩ => ?_⟩
      rw [hf] at hf'
      cases hf'

/-- **When a failed request changes nothing.** -/
theorem failsUnchanged_iff (hs : Reachable cfg s) :
    FailsUnchanged cfg s r ↔ KeepsTarget cfg s.fileQueue r := by
  have hwf := hs.wf
  constructor
  · intro hu hneed
    by_contra hk
    obtain ⟨x, hx, u, he, hold⟩ := exists_expelled hk
    obtain ⟨t, o, s', hr, hst, hq⟩ := expulsion_fails hwf hx he (fun s₁ h₁ => expelledBody_refuses h₁) hold
    refine hq (hu _ o s' ((store_runs hneed.1).2 ⟨t, rfl, ?_⟩) (hst _))
    rw [storeBranch, if_neg hneed.2.1, if_pos hneed.2.2]
    exact hr
  · intro hk t o s' hr hst
    by_cases hop : r.operation = .OP_WRITE_FILE ∨ r.operation = .OP_APPEND_FILE
    · exact wp_iff.1 (store_wp hwf hk hop) t o s' hr hst
    · obtain ⟨hw, ha⟩ := not_or.1 hop
      exact wp_iff.1 (controller_wp hwf hw ha) t o s' hr hst

/-- A store of eight bytes in which client 1 has written five. -/
def crowded : Server where
  fileQueue := ⟨[⟨1, [47, 97], some [1, 2, 3, 4, 5], 5, 1, true⟩], 1⟩
  stats := ⟨1, 5, 0⟩
  log := [⟨⟨1, .OP_OPEN_FILE, [47, 97], O_CREATE ||| O_LOCK, 0⟩, 0, 0, none⟩,
    ⟨⟨1, .OP_WRITE_FILE, [47, 97], 0, 5⟩, 0, 5, none⟩]
  brk := 2

theorem crowded_reachable : Reachable ⟨8, 4⟩ crowded := by
  have h : Handled ⟨8, 4⟩ InBounds crowded := serve_handled Server.init [
    (⟨1, .OP_OPEN_FILE, [47, 97], O_CREATE ||| O_LOCK, 0⟩, .replicate 9 ⟨true, [], 0, NULL⟩),
    (⟨1, .OP_WRITE_FILE, [47, 97], 0, 5⟩, .replicate 9 ⟨true, [1, 2, 3, 4, 5], 0, NULL⟩)]
    (by decide +kernel) .init
  exact h.reachable

theorem failsUnchanged_crowded : FailsUnchanged ⟨8, 4⟩ crowded ⟨1, .OP_WRITE_FILE, [47, 97], 0, 3⟩ :=
  (failsUnchanged_iff crowded_reachable).2 fun h => absurd h.2.2 (by decide)

/-- Client 2, without a lock, writes four bytes: the file of client 1 is gone. -/
theorem not_failsUnchanged_crowded : Reachable ⟨8, 4⟩ crowded ∧
    ¬ FailsUnchanged ⟨8, 4⟩ crowded ⟨2, .OP_WRITE_FILE, [47, 97], 0, 4⟩ := by
  refine ⟨crowded_reachable, fun h => ?_⟩
  have hrun : (run (exec ⟨8, 4⟩) (controller ⟨8, 4⟩ ⟨2, .OP_WRITE_FILE, [47, 97], 0, 4⟩)
      (.replicate 15 ⟨true, [], 0, NULL⟩) crowded).map (fun y => (lastStatus y.1, y.2.2.fileQueue)) =
      some (some (-1), ⟨[], 0⟩) := by decide +kernel
  obtain ⟨⟨t, o, s'⟩, hr, he⟩ := Option.map_eq_some_iff.1 hrun
  obtain ⟨hst, hq⟩ := Prod.mk.inj he
  have := h t o s' (run_sound hr) hst
  rw [hq] at this
  exact absurd this (by decide)

end FileStorage
