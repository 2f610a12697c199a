/-
  The authority of a lock.

  The calls on the store test the holder of a file themselves, except
  `writeVirtualFile` and `appendVirtualFile`: these rely on the `hasFileLock`
  before.  Likewise the answer to a lock request relies on the lock taken
  before.  As a worker that comes back from its sleep does not own
  `file_queue_mutex`, another worker may change the store in between; and an
  action that is not `InBounds` may change any file.  `lock_authority` holds in
  the runs in which neither happens.
-/
import FileStorage.Locking
import FileStorage.Threads.Reliance

namespace FileStorage

open Threads Prog

variable {cfg : Config} {s s' : Server} {q : Queue FileNode} {r : Request} {W : Type} [DecidableEq W]
  {ok : Conf workerSig Server Request W → W → Ev workerSig Request → Prop}
  {c c' : Conf workerSig Server Request W} {w : W} {ev : Ev workerSig Request}

/-! ## Checks and uses -/

/-- The request asks for the lock of its file. -/
def Request.asksLock (r : Request) : Prop :=
  r.operation = .OP_LOCK_FILE ∨ r.operation = .OP_OPEN_FILE ∧ r.flags.has O_LOCK

/-- The calls that find out whether the client holds the lock, or take it. -/
def ChecksLock (_ : Request) : Act → Prop
  | .call (.hasFileLock _ _) | .call (.openVirtualFile _ _ _) | .call (.lockVirtualFile _ _) => True
  | _ => False

/-- The actions for which the client has to hold the lock: to change the file, and
    to answer a request for the lock with success. -/
def UsesLock (r : Request) : Act → Prop
  | .call (.writeVirtualFile _ _ _) | .call (.appendVirtualFile _ _ _) => True
  | .write response => r.asksLock ∧ response.statusCode = 0
  | _ => False

/-- The client of the request holds the lock of its file. -/
def HoldsLock (r : Request) (s : Server) : Prop :=
  ∃ f, getFileNode s.fileQueue r.filepath = some f ∧ f.clientId = r.clientId

/-- The calls that the controller of the request may make. -/
def CallOf (r : Request) : Call → Prop
  | .hasFileLock p d | .unlockVirtualFile p d | .deleteVirtualFile p d | .closeVirtualFile p d =>
    p = r.filepath ∧ d = r.clientId
  | .lockVirtualFile p d => p = r.filepath ∧ d = r.clientId ∧ r.operation = .OP_LOCK_FILE
  | .openVirtualFile p flags d =>
    p = r.filepath ∧ flags = r.flags ∧ d = r.clientId ∧ r.operation = .OP_OPEN_FILE
  | .writeVirtualFile p _ _ | .appendVirtualFile p _ _ => p = r.filepath
  | .removeNode _ => r.operation = .OP_WRITE_FILE ∨ r.operation = .OP_APPEND_FILE
  | _ => True

/-- What the controller of the request does with an action. -/
def Obeys (cfg : Config) (r : Request) (a : Act) (k : a.Ans → Code) : Prop :=
  (∀ x, a = .call x → CallOf r x) ∧
    Secures (exec cfg) (Server.WF cfg) (ChecksLock r) (UsesLock r) (HoldsLock r) a k

/-! ## The calls that take the lock -/

theorem lockVirtualFile_holds (hq : q.WF) {p : CString} {d : ℤ} (h : (lockVirtualFile q p d).1 = 0) :
    ∃ f, getFileNode (lockVirtualFile q p d).2 p = some f ∧ f.clientId = d := by
  cases hf : getFileNode q p with
  | none => simp [lockVirtualFile, hf] at h
  | some f =>
    simp only [lockVirtualFile, hf] at h ⊢
    split_ifs at h ⊢ with h1 h2 h3
    · simp at h
    · exact ⟨f, hf, h2⟩
    · have hk : Keeps fun f : FileNode => { f with clientId := d } := ⟨fun _ => rfl, fun _ => rfl⟩
      refine ⟨{ f with clientId := d }, ?_, rfl⟩
      show getFileNode (q.modify f.addr _) p = _
      exact getFileNode_modified hk hq hf
    · simp at h

theorem openVirtualFile_holds (hs : s.WF cfg) {p : CString} {flags : Flags} {d : ℤ}
    (hl : flags.has O_LOCK) (h : (openVirtualFile cfg s p flags d).1 = 0) :
    ∃ f, getFileNode (openVirtualFile cfg s p flags d).2.fileQueue p = some f ∧ f.clientId = d := by
  cases hf : getFileNode s.fileQueue p with
  | none =>
    rw [openVirtualFile_none hs hf] at h ⊢
    split_ifs at h ⊢
    · simp at h
    · simp at h
    · refine ⟨newNode s.brk p flags d, ?_, if_pos hl⟩
      simp only [recordLen_queue]
      have hf' : getFileNode s.fileQueue (newNode s.brk p flags d).pathname = none := hf
      rw [push_lookup hf']; exact if_pos rfl
  | some f =>
    rw [openVirtualFile_some hf] at h ⊢
    split_ifs at h ⊢
    · simp at h
    · exact lockVirtualFile_holds hs.toWF h

/-! ## The controllers -/

theorem HoldsLock.of_queue (h : HoldsLock r s) (hq : s'.fileQueue = s.fileQueue) : HoldsLock r s' := by
  rw [HoldsLock, hq]; exact h

section
variable {a : Act} {k : a.Ans → Code}

theorem obeys_of_not (hx : ∀ x, a = .call x → CallOf r x)
    (hk : ∀ y, ¬ (k y).Relies (ChecksLock r) (UsesLock r)) : Obeys cfg r a k :=
  ⟨hx, fun _ _ y _ _ _ hr => absurd hr (hk y)⟩

/-- An action that leaves the queue as it is. -/
theorem obeys_of_same (hx : ∀ x, a = .call x → CallOf r x) (hc : ¬ ChecksLock r a)
    (hq : ∀ e s y s', exec cfg a e s = some (y, s') → s'.fileQueue = s.fileQueue) : Obeys cfg r a k :=
  ⟨hx, fun _ _ _ _ _ h _ hs => (hs.resolve_left hc).of_queue (hq _ _ _ _ h)⟩

end

/-- An action that is not a call. -/
@[simp] theorem obeys_other {a : Act} {k : a.Ans → Code} (ha : ∀ y, a ≠ .call y) :
    Obeys cfg r a k := by
  refine obeys_of_same (fun x h => absurd h (ha x)) (fun hc => ?_) fun _ _ _ _ h => exec_queue h ha
  cases a with
  | call y => exact ha y rfl
  | _ => exact hc

/-- The calls that read the queue only. -/
def Call.reads : Call → Bool
  | .getFreeSpace | .expelFile _ | .deref _ | .readVirtualFile _ | .getNFileList _ => true
  | _ => false

theorem obeys_reads {x : Call} {k : x.Ans → Code} (hx : x.reads = true) :
    Obeys cfg r (.call x) k := by
  refine obeys_of_same ?_ ?_ ?_
  · rintro _ ⟨⟩
    cases x with
    | getFreeSpace | expelFile | deref | readVirtualFile | getNFileList => trivial
    | _ => cases hx
  · intro hc
    cases x with
    | hasFileLock | openVirtualFile | lockVirtualFile => cases hx
    | _ => exact hc
  · intro e s y s' h
    cases x with
    | getFreeSpace | expelFile | readVirtualFile | getNFileList => cases h; rfl
    | deref node =>
      obtain ⟨f, -, h⟩ := Option.map_eq_some_iff.1 h
      cases h; rfl
    | _ => cases hx

theorem obeys_hasFileLock {k : ℤ → Code}
    (hk : ∀ res, res ≠ 0 → ¬ (k res).Relies (ChecksLock r) (UsesLock r)) :
    Obeys cfg r (.call (.hasFileLock r.filepath r.clientId)) k := by
  refine ⟨?_, fun e s y s' _ h hr _ => ?_⟩
  · rintro _ ⟨⟩; exact ⟨rfl, rfl⟩
  · have he : (hasFileLock s.fileQueue r.filepath r.clientId, s) = (y, s') := Option.some.inj h
    obtain ⟨rfl, rfl⟩ := Prod.mk.inj he
    exact hasFileLock_iff.1 (by_contra fun h0 => hk _ h0 hr)

theorem obeys_lock {k : ℤ → Code} (hop : r.operation = .OP_LOCK_FILE)
    (hk : ∀ res, res ≠ 0 → ¬ (k res).Relies (ChecksLock r) (UsesLock r)) :
    Obeys cfg r (.call (.lockVirtualFile r.filepath r.clientId)) k := by
  refine ⟨?_, fun e s y s' hs h hr _ => ?_⟩
  · rintro _ ⟨⟩; exact ⟨rfl, rfl, hop⟩
  · obtain ⟨h1, h2⟩ := exec_lock h
    have h0 : y = 0 := by_contra fun h0 => hk _ h0 hr
    rw [HoldsLock, ← h2]
    exact lockVirtualFile_holds hs.toWF (h1.trans h0)

theorem obeys_open {k : ℤ → Code} (hop : r.operation = .OP_OPEN_FILE)
    (hk : ∀ res, (k res).Relies (ChecksLock r) (UsesLock r) → res = 0 ∧ r.flags.has O_LOCK) :
    Obeys cfg r (.call (.openVirtualFile r.filepath r.flags r.clientId)) k := by
  refine ⟨?_, fun e s y s' hs h hr _ => ?_⟩
  · rintro _ ⟨⟩; exact ⟨rfl, rfl, rfl, hop⟩
  · have he : openVirtualFile cfg s r.filepath r.flags r.clientId = (y, s') := Option.some.inj h
    obtain ⟨h0, hl⟩ := hk _ hr
    have := openVirtualFile_holds hs hl (by rw [he]; exact h0)
    rw [he] at this
    exact this

/-- A call after which the controller does not rely on the lock. -/
theorem obeys_last {x : Call} {k : x.Ans → Code} (hx : CallOf r x)
    (hk : ∀ y, ¬ (k y).Relies (ChecksLock r) (UsesLock r)) : Obeys cfg r (.call x) k :=
  obeys_of_not (by rintro _ ⟨⟩; exact hx) hk

theorem not_asksLock {op : Operation} (hop : r.operation = op) (ho : op ≠ .OP_OPEN_FILE)
    (hl : op ≠ .OP_LOCK_FILE) : ¬ r.asksLock := by
  subst hop
  rintro (h | h)
  · exact hl h
  · exact ho h.1

theorem relies_ite {S : Sig} {check use : S.Act → Prop} {b : Prop} [Decidable b] {p q : Prog S} :
    (if b then p else q).Relies check use ↔ b ∧ p.Relies check use ∨ ¬ b ∧ q.Relies check use := by
  split_ifs <;> simp [*]

theorem writeFileBody_obeys (hop : r.operation = .OP_WRITE_FILE) :
    Shaped (S := workerSig) (Obeys cfg r) (LockLoop r) (writeFileBody r) := by
  have hask : ¬ r.asksLock := not_asksLock hop (by decide) (by decide)
  simp only [writeFileBody, ne_eq, ite_not, Shaped, shaped_ite, reduceCtorEq, not_false_eq_true,
    implies_true, obeys_other, and_self, and_true, true_and, Prod.forall, Bool.not_eq_true, forall_eq]
  refine ⟨obeys_hasFileLock fun res h0 => ?_, fun buf res _ => obeys_last rfl fun y => ?_⟩
  · simp [h0, Relies, UsesLock, hask]
  · simp [Relies, UsesLock, hask]

theorem appendFileBody_obeys (hop : r.operation = .OP_APPEND_FILE) :
    Shaped (S := workerSig) (Obeys cfg r) (LockLoop r) (appendFileBody r) := by
  have hask : ¬ r.asksLock := not_asksLock hop (by decide) (by decide)
  simp only [appendFileBody, ne_eq, Shaped, shaped_ite, reduceCtorEq, not_false_eq_true, implies_true,
    obeys_other, Option.forall, ite_not, and_self, and_true, true_and, Bool.not_eq_true, forall_eq]
  refine ⟨obeys_hasFileLock fun res h0 => ?_, fun buf => obeys_last rfl fun y => ?_⟩
  · simp [h0, Relies, UsesLock, hask]
  · simp [Relies, UsesLock, hask]

/-- The lock check comes first. -/
theorem writeFileBody_not_relies : ¬ (writeFileBody r).Relies (ChecksLock r) (UsesLock r) :=
  fun h => h.1 trivial

theorem appendFileBody_not_relies : ¬ (appendFileBody r).Relies (ChecksLock r) (UsesLock r) :=
  fun h => h.1 trivial

/-- What the controllers that expel a file do before the lock check. -/
theorem sendBufferFileToClient_obeys {file : Ptr} {code : ℤ} {k : Code}
    (hk : Shaped (S := workerSig) (Obeys cfg r) (LockLoop r) k) :
    Shaped (S := workerSig) (Obeys cfg r) (LockLoop r) (sendBufferFileToClient file code k) := by
  simp [sendBufferFileToClient, Shaped, obeys_reads (x := .deref file) rfl, hk]

theorem controller_obeys (r : Request) :
    Shaped (S := workerSig) (Obeys cfg r) (LockLoop r) (controller cfg r) := by
  unfold controller
  cases hop : r.operation with
  | OP_OPEN_FILE =>
    simp only [openFileController, logRequest, Shaped, ne_eq, reduceCtorEq, not_false_eq_true,
      implies_true, obeys_other, LockLoop.opens hop, and_self, and_true, true_and, forall_const]
    refine obeys_open hop fun res hr => ?_
    obtain ⟨-, ⟨hask, hst⟩ | ⟨_, hr⟩⟩ := hr
    · refine ⟨by_contra fun h0 => ?_, ?_⟩
      · rw [if_neg h0] at hst; cases hst
      · rcases hask with hl | hl
        · rw [hop] at hl; cases hl
        · exact hl.2
    · cases hr
  | OP_APPEND_FILE =>
    simp only [appendFileController, logRequest, Shaped, obeys_reads (x := .getFreeSpace) rfl, shaped_ite,
      obeys_reads (x := .expelFile (i32 r.fileSize)) rfl, true_and, not_lt, ne_eq, reduceCtorEq,
      not_false_eq_true, implies_true, obeys_other, appendFileBody_obeys hop, and_self, and_true]
    intro _ _ data
    refine sendBufferFileToClient_obeys ?_
    simp only [Shaped, obeys_reads (x := .deref data) rfl, ne_eq, reduceCtorEq, not_false_eq_true,
      implies_true, obeys_other, appendFileBody_obeys hop, and_true, forall_const, true_and]
    exact fun _ => obeys_last (Or.inr hop) fun _ => appendFileBody_not_relies
  | OP_READ_FILE =>
    simp [readFileController, sendFileToClient, Shaped, logRequest, Option.forall,
      obeys_reads (x := .readVirtualFile r.filepath) rfl]
  | OP_DELETE_FILE =>
    have hask : ¬ r.asksLock := not_asksLock hop (by decide) (by decide)
    simp only [deleteFileController, logRequest, Shaped, ne_eq, reduceCtorEq, not_false_eq_true,
      implies_true, obeys_other, and_self, and_true, forall_const, true_and]
    refine obeys_last ⟨rfl, rfl⟩ fun res => ?_
    simp [Relies, UsesLock, hask]
  | OP_WRITE_FILE =>
    simp only [writeFileController, logRequest, ne_eq, ite_not, Shaped,
      obeys_reads (x := .getFreeSpace) rfl, shaped_ite, reduceCtorEq, not_false_eq_true, implies_true,
      obeys_other, and_self, not_lt, obeys_reads (x := .expelFile (i32 r.fileSize)) rfl, true_and,
      writeFileBody_obeys hop, and_true]
    intro _ _ _ data
    refine sendBufferFileToClient_obeys ?_
    simp only [Shaped, obeys_reads (x := .deref data) rfl, ne_eq, reduceCtorEq, not_false_eq_true,
      implies_true, obeys_other, shaped_ite, writeFileBody_obeys hop, and_self, and_true, forall_const,
      true_and]
    refine fun _ => obeys_last (Or.inl hop) fun res => ?_
    simp [relies_ite, Relies, UsesLock, writeFileBody_not_relies]
  | OP_CLOSE_FILE =>
    have hask : ¬ r.asksLock := not_asksLock hop (by decide) (by decide)
    simp only [closeFileController, logRequest, Shaped, ne_eq, reduceCtorEq, not_false_eq_true,
      implies_true, obeys_other, and_self, and_true, forall_const, true_and]
    refine obeys_last ⟨rfl, rfl⟩ fun res => ?_
    simp [Relies, UsesLock, hask]
  | OP_LOCK_FILE =>
    simp only [lockFileController, logRequest, Shaped, ne_eq, reduceCtorEq, not_false_eq_true,
      implies_true, obeys_other, LockLoop.locks hop, and_self, and_true, true_and, forall_const]
    refine obeys_lock hop fun res h0 => ?_
    simp [Relies, UsesLock, h0, respond]
  | OP_UNLOCK_FILE =>
    have hask : ¬ r.asksLock := not_asksLock hop (by decide) (by decide)
    simp only [unlockFileController, logRequest, Shaped, ne_eq, reduceCtorEq, not_false_eq_true,
      implies_true, obeys_other, shaped_ite, and_self, and_true, forall_const, true_and]
    refine obeys_last ⟨rfl, rfl⟩ fun res => ?_
    split_ifs <;> simp [Relies, UsesLock, hask]
  | OP_READ_N_FILES =>
    simp [readnFileController, readnFileBody, Shaped, logRequest, Option.forall,
      obeys_reads (x := .getNFileList r.flags.toInt) rfl]
  | unknown n => trivial

/-- A controller relies on nothing when it starts. -/
theorem controller_not_relies (r : Request) :
    ¬ (controller cfg r).Relies (ChecksLock r) (UsesLock r) := by
  unfold controller
  by_cases hask : r.asksLock
  · -- such a request takes the lock before it is answered
    rcases hask with hop | ⟨hop, -⟩
    · simp [hop, lockFileController, logRequest, Relies, ChecksLock, UsesLock]
    · simp [hop, openFileController, logRequest, Relies, ChecksLock, UsesLock]
  · cases r.operation with
    | OP_OPEN_FILE => simp [openFileController, logRequest, Relies, ChecksLock, UsesLock]
    | OP_APPEND_FILE =>
      simp [appendFileController, logRequest, sendBufferFileToClient, relies_ite, Relies, UsesLock, hask,
        appendFileBody_not_relies]
    | OP_READ_FILE =>
      simp [readFileController, sendFileToClient, logRequest, relies_ite, Relies, UsesLock, hask,
        Option.exists]
    | OP_DELETE_FILE => simp [deleteFileController, logRequest, Relies, UsesLock, hask]
    | OP_WRITE_FILE =>
      simp [writeFileController, logRequest, sendBufferFileToClient, relies_ite, Relies, UsesLock, hask,
        writeFileBody_not_relies]
    | OP_CLOSE_FILE => simp [closeFileController, logRequest, Relies, UsesLock, hask]
    | OP_LOCK_FILE => simp [lockFileController, logRequest, Relies, ChecksLock, UsesLock]
    | OP_UNLOCK_FILE => simp [unlockFileController, logRequest, relies_ite, Relies, UsesLock, hask]
    | OP_READ_N_FILES =>
      simp [readnFileController, readnFileBody, logRequest, relies_ite, Relies, UsesLock, hask,
        Option.exists]
    | unknown n => exact id

/-! ## Calls and files -/

/-- What a call of the controller of `r`, with the lock where it needs it, does
    to a file: nothing, unless the client holds it, takes its lock, or expels it. -/
theorem Call.authority (hs : s.WF cfg) {x : Call} {e : Env} {y : x.Ans}
    (hx : x.exec cfg e s = some (y, s')) (hc : CallOf r x)
    (hu : UsesLock r (.call x) → HoldsLock r s) {p : CString} {f : FileNode}
    (hf : getFileNode s.fileQueue p = some f) :
    getFileNode s'.fileQueue p = some f ∨ r.clientId = f.clientId ∨
      (f.clientId = 0 ∧ r.asksLock ∧ r.filepath = p ∧
        getFileNode s'.fileQueue p = some { f with clientId := r.clientId }) ∨
      (r.operation = .OP_WRITE_FILE ∨ r.operation = .OP_APPEND_FILE) ∧ x = .removeNode f.addr := by
  have hfile := (Call.effect hx).file hs hf
  -- the client has the lock of the file that it writes
  have hholds : r.filepath = p → UsesLock r (.call x) → r.clientId = f.clientId := by
    rintro rfl hux
    obtain ⟨g, hg, hgc⟩ := hu hux
    cases hf.symm.trans hg
    exact hgc.symm
  generalize getFileNode s'.fileQueue p = o at hfile ⊢
  cases hfile with
  | same => exact Or.inl rfl
  | opened hl _ hz =>
    obtain ⟨rfl, rfl, rfl, hop⟩ := hc
    exact Or.inr (Or.inr (Or.inl ⟨hz, Or.inr ⟨hop, hl⟩, rfl, rfl⟩))
  | locked _ hz =>
    obtain ⟨rfl, rfl, hop⟩ := hc
    exact Or.inr (Or.inr (Or.inl ⟨hz, Or.inl hop, rfl, rfl⟩))
  | unlocked | closed | deleted => exact Or.inr (Or.inl hc.2.symm)
  | written | appended =>
    have hp : p = r.filepath := hc
    exact Or.inr (Or.inl (hholds hp.symm trivial))
  | removed => exact Or.inr (Or.inr (Or.inr ⟨hc, rfl⟩))

/-! ## Runs -/

/-- The step is the expulsion of the file by a write or append. -/
def Expels (r : Request) (ev : Ev workerSig Request) (f : FileNode) : Prop :=
  (r.operation = .OP_WRITE_FILE ∨ r.operation = .OP_APPEND_FILE) ∧
    ∃ x, ev = .did (.call (.removeNode f.addr)) x

/-- The step of `w` from `c` to `c'` respects the locks. -/
structure Authority (c : Conf workerSig Server Request W) (w : W) (ev : Ev workerSig Request)
    (c' : Conf workerSig Server Request W) : Prop where
  /-- a file that is held stays as it is, but for its holder and for an expulsion -/
  held : ∀ p f, getFileNode c.st.fileQueue p = some f → f.clientId ≠ 0 →
    getFileNode c'.st.fileQueue p = some f ∨
      ∃ r, (c.thr w).task = some r ∧ (r.clientId = f.clientId ∨ Expels r ev f)
  /-- a file that nobody holds stays as it is, but for who asks for its lock and
      for an expulsion -/
  free : ∀ p f, getFileNode c.st.fileQueue p = some f → f.clientId = 0 →
    getFileNode c'.st.fileQueue p = some f ∨
      ∃ r, (c.thr w).task = some r ∧
        (r.asksLock ∧ r.filepath = p ∧
          getFileNode c'.st.fileQueue p = some { f with clientId := r.clientId } ∨ Expels r ev f)
  /-- a request for a lock is answered with success only if the client holds it -/
  granted : ∀ r response x, (c.thr w).task = some r → r.asksLock →
    ev = .did (.write response) x → response.statusCode = 0 → HoldsLock r c.st

/-- The clients have ids, no call on the store is made while another worker is
    between its check, or its lock, and what relies on it, and no action runs past
    its block. -/
structure Orderly (c : Conf workerSig Server Request W) (w : W) (ev : Ev workerSig Request) : Prop where
  identified : ∀ r, ev = .start r → r.clientId ≠ 0
  undisturbed : Undisturbed (S := workerSig) IsCall ChecksLock UsesLock c w ev
  inBounds : ev.DefinedOn InBounds c.st

/-- **Lock authority.**  Every step of an orderly run respects the locks. -/
theorem lock_authority (h : Reach (execHeap cfg) (controller cfg) Orderly (Conf.init Server.init) c)
    (hst : Step (execHeap cfg) (controller cfg) w c ev c') (hb : ev.DefinedOn InBounds c.st) :
    Authority c w ev c' := by
  replace h := h.defined fun _ _ _ ho => ho.inBounds
  replace hst := hst.defined hb
  have hwf := (reach_reachable h).wf
  have hsh := h.shaped controller_obeys w
  have hid : ∀ {r}, (c.thr w).task = some r → r.clientId ≠ 0 :=
    h.task fun c w r ho => ho.identified r rfl
  have hassured := h.assured controller_not_relies controller_obeys (fun _ _ _ hk => hk.2)
    (fun _ _ _ _ _ _ hl => by cases hl <;> trivial) (fun c hc => (reach_reachable hc).wf)
    (fun a e s x s' r ha hx hs => hs.of_queue (exec_queue hx fun y he => ha (he ▸ trivial)))
    (fun _ _ _ ho => ho.undisturbed) w
  have hfile : ∀ p f, getFileNode c.st.fileQueue p = some f →
      getFileNode c'.st.fileQueue p = some f ∨ ∃ r, (c.thr w).task = some r ∧
        (r.clientId = f.clientId ∨ (f.clientId = 0 ∧ r.asksLock ∧ r.filepath = p ∧
          getFileNode c'.st.fileQueue p = some { f with clientId := r.clientId }) ∨ Expels r ev f) := by
    intro p f hf
    rcases hst.st_cases with he | ⟨a, e, x, rfl, hx⟩
    · rw [he]; exact Or.inl hf
    · obtain ⟨r, k, hr, hcall, -⟩ := hst.did_shaped hsh
      by_cases ha : ∃ y, a = .call y
      · obtain ⟨y, rfl⟩ := ha
        have huse : UsesLock r (.call y) → HoldsLock r c.st := fun hu =>
          hassured.of_nextAct hr hst.nextAct_did (fun hc => by cases y <;> first | exact hu | exact hc) hu
        rcases Call.authority hwf hx (hcall y rfl) huse hf with h | h | h | ⟨hop, rfl⟩
        · exact Or.inl h
        · exact Or.inr ⟨r, hr, Or.inl h⟩
        · exact Or.inr ⟨r, hr, Or.inr (Or.inl h)⟩
        · exact Or.inr ⟨r, hr, Or.inr (Or.inr ⟨hop, x, rfl⟩)⟩
      · rw [exec_queue hx fun y he => ha ⟨y, he⟩]; exact Or.inl hf
  refine ⟨fun p f hf h0 => ?_, fun p f hf h0 => ?_, ?_⟩
  · rcases hfile p f hf with h | ⟨r, hr, hc | ⟨hz, -⟩ | hx⟩
    · exact Or.inl h
    · exact Or.inr ⟨r, hr, Or.inl hc⟩
    · exact absurd hz h0
    · exact Or.inr ⟨r, hr, Or.inr hx⟩
  · rcases hfile p f hf with h | ⟨r, hr, hc | ⟨-, hl⟩ | hx⟩
    · exact Or.inl h
    · exact absurd (hc.trans h0) (hid hr)
    · exact Or.inr ⟨r, hr, Or.inl hl⟩
    · exact Or.inr ⟨r, hr, Or.inr hx⟩
  · rintro r response x hr hask rfl h0
    exact hassured.of_nextAct hr hst.nextAct_did id ⟨hask, h0⟩

/-! ## Orderly and disorderly runs -/

/-- A step of two workers that makes a call, within its block, only if the other
    one is idle, or on its way out of a sleep. -/
def oneAtATime (c : Conf workerSig Server Request (Fin 2)) (w : Fin 2) :
    Ev workerSig Request → Bool
  | .start r => r.clientId ≠ 0
  | .did (.call y) _ =>
    (∀ v, v ≠ w → (c.thr v).atRest || (c.thr v).isWoken) ∧ InBounds (.call y) c.st
  | _ => true

theorem orderly_of_oneAtATime {c : Conf workerSig Server Request (Fin 2)} {w : Fin 2}
    {ev : Ev workerSig Request} (hsh : ∀ v, (c.thr v).Shaped (Obeys cfg) LockLoop)
    (h : oneAtATime c w ev = true) : Orderly c w ev := by
  constructor
  · rintro r rfl
    simpa [oneAtATime] using h
  · cases ev with
    | start | sync => trivial
    | did a x =>
      intro ha v hv
      refine (hsh _).not_relies (fun _ _ _ _ _ _ hl => by cases hl <;> trivial) fun l p he => ?_
      cases a with
      | call y =>
        have hv' := (of_decide_eq_true h).1 v hv
        rw [he] at hv'
        cases hv'
      | _ => exact ha
  · cases ev with
    | start | sync => trivial
    | did a x =>
      cases a with
      | call y => exact (of_decide_eq_true h).2
      | _ => trivial

/-- The answer to a lock request that succeeds. -/
def lockGranted : Response := respond 0 (str "Lock correttamente acquisito sul file!")

/-- Client 2 gets the lock when client 1 has got its answer. -/
theorem lock_authority_handOver : ∃ c : Conf workerSig Server Request (Fin 2),
    (c.thr 1).nextAct = some (.write lockGranted) ∧
    ∃ ev c', Step (execHeap ⟨8, 4⟩) (controller ⟨8, 4⟩) 1 c ev c' ∧ Authority c 1 ev c' := by
  have hrun : (sched (exec ⟨8, 4⟩) (controller ⟨8, 4⟩) oneAtATime (handOver ++ steps 0 3 ++ steps 1 3)
      (Conf.init Server.init)).map (fun c => (c.thr 1).nextAct) =
      some (some (.write lockGranted)) := by decide +kernel
  obtain ⟨c, hc, hact⟩ := Option.map_eq_some_iff.1 hrun
  have hr : Reach (exec ⟨8, 4⟩) (controller ⟨8, 4⟩) (fun c w ev => oneAtATime c w ev = true)
      (Conf.init Server.init) c := sched_reach _ .init hc
  have ho := (hr.strengthen fun c h w => h.shaped controller_obeys w).mono
    fun _ _ _ ho => orderly_of_oneAtATime ho.2 ho.1
  obtain ⟨c', hst⟩ : ∃ c', Step (exec ⟨8, 4⟩) (controller ⟨8, 4⟩) 1 c
      (.did (.write lockGranted) (true : Bool)) c' :=
    Step.exists_did hact (show exec ⟨8, 4⟩ _ ⟨true, [], 0, NULL⟩ _ = _ from rfl)
  exact ⟨c, hact, _, c', hst.to_definedOn, lock_authority ho.to_definedOn hst.to_definedOn trivial⟩

/-- Client 2 gets the lock as before, but client 3 expels the file before the
    answer. -/
def expelledLock (u v : Fin 2) : List (Fin 2 × Choice Request Env (Fin 2)) :=
  (u, .start ⟨1, .OP_OPEN_FILE, [47, 97], O_CREATE ||| O_LOCK, 0⟩) :: steps u 8 ++
  (u, .start ⟨1, .OP_WRITE_FILE, [47, 97], 0, 5⟩) :: steps u 10 ++
  (v, .start ⟨2, .OP_LOCK_FILE, [47, 97], 0, 0⟩) :: steps v 6 ++
  (u, .start ⟨1, .OP_UNLOCK_FILE, [47, 97], 0, 0⟩) :: steps u 9 ++ steps v 3 ++
  (u, .start ⟨3, .OP_APPEND_FILE, [47, 98], 0, 4⟩) :: steps u 9

/-- The client of a request that is started has an identifier. -/
def identified : Ev workerSig Request → Bool
  | .start r => r.clientId ≠ 0
  | _ => true

theorem not_lock_authority : ∃ (c c' : Conf workerSig Server Request (Fin 2)) (w : Fin 2)
    (ev : Ev workerSig Request),
    Reach (execHeap ⟨8, 4⟩) (controller ⟨8, 4⟩)
      (fun _ _ ev => ∀ r, ev = .start r → r.clientId ≠ 0) (Conf.init Server.init) c ∧
    Step (execHeap ⟨8, 4⟩) (controller ⟨8, 4⟩) w c ev c' ∧ ¬ Authority c w ev c' := by
  have hrun : (sched (exec ⟨8, 4⟩) (controller ⟨8, 4⟩)
      (fun _ _ ev => identified ev) (expelledLock 0 1)
      (Conf.init Server.init)).map (fun c => ((c.thr 1).task, (c.thr 1).nextAct,
        getFileNode c.st.fileQueue [47, 97])) =
      some (some ⟨2, .OP_LOCK_FILE, [47, 97], 0, 0⟩, some (.write lockGranted), none) := by
    decide +kernel
  obtain ⟨c, hc, he⟩ := Option.map_eq_some_iff.1 hrun
  obtain ⟨htask, he⟩ := Prod.mk.inj he
  obtain ⟨hact, hnone⟩ := Prod.mk.inj he
  have hr : Reach (exec ⟨8, 4⟩) (controller ⟨8, 4⟩) (fun _ _ ev => identified ev = true)
      (Conf.init Server.init) c := sched_reach _ .init hc
  obtain ⟨c', hst⟩ : ∃ c', Step (exec ⟨8, 4⟩) (controller ⟨8, 4⟩) 1 c
      (.did (.write lockGranted) (true : Bool)) c' :=
    Step.exists_did hact (show exec ⟨8, 4⟩ _ ⟨true, [], 0, NULL⟩ _ = _ from rfl)
  refine ⟨c, c', 1, _, (hr.mono ?_).to_definedOn, hst.to_definedOn, fun h => ?_⟩
  · rintro _ _ _ ho r rfl
    exact of_decide_eq_true ho
  · -- the answer is a success, and the file is not in the store any more
    obtain ⟨f, hf, -⟩ := h.granted _ _ _ htask (Or.inl rfl) rfl rfl
    rw [show getFileNode c.st.fileQueue _ = none from hnone] at hf
    cases hf

end FileStorage
