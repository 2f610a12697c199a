/-
  The mutexes that a worker has given back when its controller returns.

  Two exits do not give `file_queue_mutex` back: that of
  `write_file_controller` for a file larger than the store, and that of
  `readn_file_controller` when there is no file to read.  Every other path
  does: `givesAllBack_iff` says so of one controller from any reachable state
  and of whole runs.
-/
import FileStorage.Expulsion
import FileStorage.Locking

namespace FileStorage

open Threads Prog

variable {W : Type} {cfg : Config} {s : Server} {q : Queue FileNode} {r : Request}

/-- The controller of `r` called in the state `s` returns without a mutex. -/
def GivesAllBack (cfg : Config) (s : Server) (r : Request) : Prop :=
  ∀ H, Returns (exec cfg) (controller cfg r) s ∅ H → H = ∅

/-- The two exits that keep `file_queue_mutex`. -/
def KeepsMutex (cfg : Config) (q : Queue FileNode) (r : Request) : Prop :=
  r.tooBig cfg ∨ r.operation = .OP_READ_N_FILES ∧ (r.flags.toInt = 0 ∨ q.data = [])

/-- Steps that do not lead to one of the two exits. -/
def AvoidsExits (cfg : Config) (c : Conf workerSig Server Request W) (_ : W) :
    Ev workerSig Request → Prop
  | .start r => ¬ r.tooBig cfg
  | .did (.call (.getNFileList N)) _ => N ≠ 0 ∧ c.st.fileQueue.data ≠ []
  | _ => True

/-- Answers after which the controllers give their mutexes back. -/
def Listed : (a : Act) → a.Ans → Prop
  | .call (.getNFileList N), res => -2147483648 ≤ N → N ≤ 2147483647 → res.1 ≠ 0
  | .crash, _ => False
  | _, _ => True

theorem getNFileList_eq_zero {N : ℤ} (hN : -2147483648 ≤ N ∧ N ≤ 2147483647)
    (hq : q.WF) (hl : q.len < 4294967296) : (getNFileList q N).1 = 0 ↔ N = 0 ∨ q.data = [] := by
  have hlen := hq.len
  rw [← List.length_eq_zero_iff]
  unfold getNFileList
  dsimp only
  split_ifs with h
  · have hi : (u64 (i32 (q.len : ℤ))).toNat = 0 ↔ q.len = 0 := by
      unfold u64 i32; rw [Int.bmod_def]; split <;> omega
    rw [hi, ← hlen]
    unfold u64 at h
    omega
  · unfold u64 at h ⊢
    omega

/-! ## The controllers -/

theorem readnFileBody_gives {m : Mutex} {code : ℤ} {fileList : Option CString} :
    Gives (S := workerSig) (fun a _ => a ≠ .crash) m (m = .fileQueueMutex)
      (readnFileBody code fileList) := by
  cases fileList with
  | none => simp [readnFileBody, Gives]
  | some l => cases m <;> simp [readnFileBody, Gives]

/-- Every controller but `readn_file_controller` gives its mutexes back. -/
theorem controller_gives (hb : ¬ r.tooBig cfg) (hn : r.operation ≠ .OP_READ_N_FILES) (m : Mutex) :
    Gives (S := workerSig) (fun a _ => a ≠ .crash) m False (controller cfg r) := by
  unfold controller
  cases hop : r.operation with
  | OP_OPEN_FILE => cases m <;> simp [openFileController, Gives, logRequest]
  | OP_APPEND_FILE =>
    cases m <;> simp [appendFileController, appendFileBody, sendBufferFileToClient, Gives, logRequest,
      Option.forall]
  | OP_READ_FILE =>
    cases m <;> simp [readFileController, sendFileToClient, Gives, logRequest, Option.forall]
  | OP_DELETE_FILE => cases m <;> simp [deleteFileController, Gives, logRequest]
  | OP_WRITE_FILE =>
    have hle : ¬ cfg.maxMemSize.toNat < r.fileSize := fun hlt => hb ⟨hop, hlt⟩
    cases m <;> simp [writeFileController, writeFileBody, sendBufferFileToClient, Gives, logRequest,
      hle]
  | OP_CLOSE_FILE => cases m <;> simp [closeFileController, Gives, logRequest]
  | OP_LOCK_FILE => cases m <;> simp [lockFileController, Gives, logRequest]
  | OP_UNLOCK_FILE => cases m <;> simp [unlockFileController, Gives, logRequest]
  | OP_READ_N_FILES => exact absurd hop hn
  | unknown n => exact id

/-- `readn_file_controller` does when there is a file to read. -/
theorem readnFileController_gives (m : Mutex) :
    Gives (S := workerSig) Listed m False (readnFileController r) := by
  simp only [readnFileController, logRequest, Gives]
  intro _ _ res hres
  have hlo := BitVec.le_toInt r.flags
  have hhi := BitVec.toInt_lt (x := r.flags)
  rw [if_neg (hres (by omega) (by omega))]
  refine (readnFileBody_gives.of_imp fun a x hx ha => ?_).mono fun hx => (hx.resolve_right id).symm
  subst ha; exact hx

theorem listed_crash {a : Act} {e : Env} {x : a.Ans} {s' : Server}
    (h : exec cfg a e s = some (x, s')) : a ≠ .crash := by
  rintro rfl; cases h

theorem getNFileList_flags (hs : s.WF cfg) :
    (getNFileList s.fileQueue r.flags.toInt).1 = 0 ↔ r.flags.toInt = 0 ∨ s.fileQueue.data = [] := by
  have hlo := BitVec.le_toInt r.flags
  have hhi := BitVec.toInt_lt (x := r.flags)
  have hcap := hs.cap
  have hlt := cfg.maxFile.toNat_lt
  exact getNFileList_eq_zero (by omega) hs.toWF (by omega)

/-- A controller that does not take one of the two exits gives its mutexes back. -/
theorem givesAllBack_of_not (hs : s.WF cfg) (hk : ¬ KeepsMutex cfg s.fileQueue r) :
    GivesAllBack cfg s r := by
  obtain ⟨hb, hn⟩ := not_or.1 hk
  intro H hr
  refine Set.eq_empty_iff_forall_notMem.2 fun m => ?_
  by_cases hop : r.operation = .OP_READ_N_FILES
  · have hn0 : (getNFileList s.fileQueue r.flags.toInt).1 ≠ 0 := fun h0 =>
      hn ⟨hop, (getNFileList_flags hs).1 h0⟩
    rw [controller, hop] at hr
    cases hr with
    | act hlog hr =>
      cases hlog
      cases hr with
      | lock hr =>
        cases hr with
        | act hlist hr =>
          cases hlist
          dsimp only at hr
          rw [if_neg hn0] at hr
          refine hr.gives (fun _ _ _ _ _ => listed_crash) (readnFileBody_gives.mono ?_)
          simp
  · exact hr.gives (fun _ _ _ _ _ => listed_crash) ((controller_gives hb hop m).mono id)

/-- The two exits return with `file_queue_mutex`. -/
theorem returns_keeping (hs : s.WF cfg) (hk : KeepsMutex cfg s.fileQueue r) :
    Returns (exec cfg) (controller cfg r) s ∅ {.fileQueueMutex} := by
  rcases hk with ⟨hop, hlt⟩ | ⟨hop, hn⟩
  · rw [controller, hop]
    refine .lock (.act (e := ⟨true, [], 0, NULL⟩) rfl ?_)
    rw [if_pos hlt]
    refine .act (e := ⟨true, [], 0, NULL⟩) rfl ?_
    rw [insert_empty_eq]
    exact .ret
  · rw [controller, hop]
    refine .act (e := ⟨true, [], 0, NULL⟩) rfl (.lock (.act (e := ⟨true, [], 0, NULL⟩) rfl ?_))
    dsimp only
    rw [if_pos ((getNFileList_flags hs).2 hn)]
    refine .act (e := ⟨true, [], 0, NULL⟩) rfl ?_
    rw [insert_empty_eq]
    exact .ret

theorem givesAllBack_iff (hs : s.WF cfg) : GivesAllBack cfg s r ↔ ¬ KeepsMutex cfg s.fileQueue r :=
  ⟨fun h hk => (Set.singleton_ne_empty Mutex.fileQueueMutex) (h _ (returns_keeping hs hk)),
    givesAllBack_of_not hs⟩

/-! ## Runs -/

section
variable [DecidableEq W] {c : Conf workerSig Server Request W}

/-- In runs that avoid the two exits only running workers own mutexes. -/
theorem reach_gives (h : Reach (exec cfg) (controller cfg) (AvoidsExits cfg) (Conf.init Server.init) c)
    (m : Mutex) (w : W) : (c.thr w).Gives Listed m (c.owner m = some w) := by
  have hr := h.strengthen fun c hc => (reach_reachable hc).wf
  refine hr.gives (fun c w r ho => ?_) (fun c w a e x s ⟨ho, hs⟩ hx => ?_) w
  · by_cases hop : r.operation = .OP_READ_N_FILES
    · rw [controller, hop]; exact readnFileController_gives m
    · refine (controller_gives ho.1 hop m).of_imp fun a x hx ha => ?_
      subst ha; exact hx
  · cases a with
    | call y =>
      cases y with
      | getNFileList N =>
        cases hx
        intro hlo hhi h0
        have hcap := hs.cap
        have hlt := cfg.maxFile.toNat_lt
        rcases (getNFileList_eq_zero ⟨hlo, hhi⟩ hs.toWF (by omega)).1 h0 with hN | hd
        · exact ho.1 hN
        · exact ho.2 hd
      | _ => trivial
    | crash => cases hx
    | _ => trivial

end

/-- **When the mutexes are given back.**  A controller returns without a mutex
    on every path exactly if it does not take one of the two exits; in runs that
    avoid them a worker that is idle or asleep owns no mutex, so that they are
    all free when no worker runs. -/
theorem gives_back (cfg : Config) :
    (∀ s r, Reachable cfg s → (GivesAllBack cfg s r ↔ ¬ KeepsMutex cfg s.fileQueue r)) ∧
    ∀ (W : Type) [DecidableEq W] (c : Conf workerSig Server Request W),
      Reach (exec cfg) (controller cfg) (AvoidsExits cfg) (Conf.init Server.init) c →
        (∀ w m, (∀ r p, c.thr w ≠ .run r p) → c.owner m ≠ some w) ∧
        ((∀ w r p, c.thr w ≠ .run r p) → ∀ m, c.owner m = none) := by
  refine ⟨fun s r hs => givesAllBack_iff hs.wf, fun W _ c h => ?_⟩
  have hfree : ∀ w m, (∀ r p, c.thr w ≠ .run r p) → c.owner m ≠ some w := by
    intro w m hw
    have hg := reach_gives h m w
    cases ht : c.thr w with
    | run r p => exact absurd ht (hw r p)
    | idle => rw [ht] at hg; exact hg
    | asleep r cd m' p => rw [ht] at hg; exact hg.1
    | woken r m' p => rw [ht] at hg; exact hg.1
  refine ⟨hfree, fun hw m => ?_⟩
  cases ho : c.owner m with
  | none => rfl
  | some w => exact absurd ho (hfree w m (hw w))

theorem gives_back_init : GivesAllBack ⟨8, 4⟩ Server.init ⟨1, .OP_WRITE_FILE, [47, 97], 0, 8⟩ ∧
    ∀ m, (Conf.init Server.init : Conf workerSig Server Request (Fin 2)).owner m = none :=
  ⟨((gives_back ⟨8, 4⟩).1 _ _ .init).2 fun h => h.elim (fun hb => absurd hb.2 (by decide))
      fun hn => absurd hn.1 (by decide),
    (((gives_back ⟨8, 4⟩).2 (Fin 2) _ .init).2 fun _ _ _ => nofun)⟩

/-- A file larger than the store, and a list of the files of an empty store:
    the worker returns with `file_queue_mutex`. -/
theorem not_gives_back : Reachable ⟨8, 4⟩ Server.init ∧
    ¬ GivesAllBack ⟨8, 4⟩ Server.init ⟨1, .OP_WRITE_FILE, [47, 97], 0, 9⟩ ∧
    ¬ GivesAllBack ⟨8, 4⟩ Server.init ⟨1, .OP_READ_N_FILES, [], 3, 0⟩ := by
  have hkeeps : ∀ r, KeepsMutex ⟨8, 4⟩ Server.init.fileQueue r → ¬ GivesAllBack ⟨8, 4⟩ Server.init r :=
    fun r hk h => (givesAllBack_iff (Reachable.wf .init)).1 h hk
  exact ⟨.init, hkeeps _ (Or.inl ⟨rfl, by decide⟩), hkeeps _ (Or.inr ⟨rfl, Or.inr rfl⟩)⟩

end FileStorage
