/-
  The store as a map from pathnames to contents.

  `view q` is the map that `readVirtualFile` gives access to: the open files
  with their contents.  The operations on the store other than appends make
  events on this map (`Call.event`): a file is created empty, written, and
  dropped by its deletion, its closing or its expulsion.  Each call is
  simulated by its event (`view_step`), so that a run makes the map of its
  history (`StoreRun.view`) and a read is answered from the history
  (`read_back`).
-/
import FileStorage.Effects
import FileStorage.Lib.History

namespace FileStorage

open History

variable {cfg : Config} {s s' : Server} {q : Queue FileNode} {p : CString}

/-- The open files with their contents. -/
def view (q : Queue FileNode) (p : CString) : Option (List Byte) :=
  (getFileNode q p).bind fun f => if f.isOpen then some f.content else none

/-- `readVirtualFile` reads the view. -/
theorem readVirtualFile_eq (hq : q.WF) :
    readVirtualFile q p = (view q p).map fun buf => (buf, buf.length) := by
  rw [readVirtualFile, view]
  cases hf : getFileNode q p with
  | none => rfl
  | some f =>
    have hsize : f.size = (f.file.getD []).length := hq.size f (getFileNode_mem hf)
    cases ho : f.isOpen with
    | false => simp [ho]
    | true =>
      have htake : (f.file.getD []).take f.size = f.file.getD [] := by rw [hsize, List.take_length]
      simp only [ho, htake, memcpy_calloc hsize.symm, FileNode.content, Option.bind_some, if_true,
        Option.map_some, Bool.not_true, Bool.false_eq_true, if_false]
      rw [hsize]

/-! ## The operations and their events -/

/-- The operations on the store other than appends.  The buffer of a write has
    the given size. -/
inductive StoreOp : Call → Prop
  | openVirtualFile (p flags c) : StoreOp (.openVirtualFile p flags c)
  | writeVirtualFile (p buf) : StoreOp (.writeVirtualFile p buf buf.length)
  | lockVirtualFile (p c) : StoreOp (.lockVirtualFile p c)
  | unlockVirtualFile (p c) : StoreOp (.unlockVirtualFile p c)
  | closeVirtualFile (p c) : StoreOp (.closeVirtualFile p c)
  | deleteVirtualFile (p c) : StoreOp (.deleteVirtualFile p c)
  | removeNode (a) : StoreOp (.removeNode a)

/-- The event of a call on the queue `q`, with its result. -/
def Call.event (q : Queue FileNode) : (c : Call) → c.Ans → Option (Event CString (List Byte))
  | .openVirtualFile p _ _, res =>
    if findFileNode q p = -1 ∧ res = 0 then some (.create p []) else none
  | .writeVirtualFile p buf _, res => if res = 0 then some (.put p buf) else none
  | .deleteVirtualFile p _, res => if res = 0 then some (.drop p) else none
  | .closeVirtualFile p c, _ => if FileStorage.hasFileLock q p c = 0 then some (.drop p) else none
  | .removeNode a, res => if res = 0 then (q.deref a).map fun f => .drop f.pathname else none
  | _, _ => none

/-- The file that a call is about. -/
def Call.target (q : Queue FileNode) : Call → Option CString
  | .openVirtualFile p _ _ | .writeVirtualFile p _ _ | .lockVirtualFile p _ | .unlockVirtualFile p _
  | .closeVirtualFile p _ | .deleteVirtualFile p _ => some p
  | .removeNode a => (q.deref a).map (·.pathname)
  | _ => none

/-- The runs of operations, with their histories. -/
inductive StoreRun (cfg : Config) : List (Event CString (List Byte)) → Server → Prop
  | init : StoreRun cfg [] Server.init
  | step {h s c e x s'} : StoreRun cfg h s → StoreOp c → c.exec cfg e s = some (x, s') →
      StoreRun cfg (h ++ (c.event s.fileQueue x).toList) s'

/-! ## The views after a change of the queue -/

/-- The map after an event, if there is one. -/
def afterEvent (e : Option (Event CString (List Byte))) (m : CString → Option (List Byte)) :
    CString → Option (List Byte) := e.elim m fun e => e.apply m

theorem view_modify {f : FileNode} {g : FileNode → FileNode} (hg : Keeps g) (hq : q.WF)
    (hf : getFileNode q p = some f) : view (q.modify f.addr g) =
      Function.update (view q) p (if (g f).isOpen then some (g f).content else none) := by
  funext p'
  rw [view, getFileNode_modify hg hq (getFileNode_mem hf), getFileNode_pathname hf]
  by_cases hp : p' = p
  · subst hp; simp
  · rw [if_neg hp, Function.update_of_ne hp]; rfl

theorem view_remove {f : FileNode} (hs : s.WF cfg) (hf : f ∈ s.fileQueue.data) :
    view (removeNode s.fileQueue f.addr).2 = Function.update (view s.fileQueue) f.pathname none := by
  funext p'
  rw [view, getFileNode_remove hs.toWF hf (Nat.pos_iff_ne_zero.1 (hs.addr f hf).1)]
  by_cases hp : p' = f.pathname
  · subst hp; simp
  · rw [if_neg hp, Function.update_of_ne hp]; rfl

/-- A change of a node that keeps what can be read. -/
theorem view_modify_same {f : FileNode} {g : FileNode → FileNode} (hg : Keeps g) (hq : q.WF)
    (hf : getFileNode q p = some f) (ho : (g f).isOpen = f.isOpen) (hc : (g f).content = f.content) :
    view (q.modify f.addr g) = view q := by
  rw [view_modify hg hq hf, ho, hc, Function.update_eq_self_iff, view, hf]
  rfl

/-! ## Each call is simulated by its event -/

section
variable (hs : s.WF cfg)
include hs

theorem lockVirtualFile_view (c : ℤ) : view (lockVirtualFile s.fileQueue p c).2 = view s.fileQueue := by
  rw [lockVirtualFile]
  split
  · rfl
  · split_ifs
    · rfl
    · rfl
    · exact view_modify_same ⟨fun _ => rfl, fun _ => rfl⟩ hs.toWF ‹_› rfl rfl
    · rfl

theorem unlockVirtualFile_view (c : ℤ) : view (unlockVirtualFile s.fileQueue p c).2 = view s.fileQueue := by
  rw [unlockVirtualFile]
  split
  · rfl
  · split_ifs
    · rfl
    · exact view_modify_same ⟨fun _ => rfl, fun _ => rfl⟩ hs.toWF ‹_› rfl rfl
    · rfl
    · rfl

theorem openVirtualFile_view (flags : Flags) (c : ℤ) :
    view (openVirtualFile cfg s p flags c).2.fileQueue = afterEvent (Call.event s.fileQueue
      (.openVirtualFile p flags c) (openVirtualFile cfg s p flags c).1) (view s.fileQueue) := by
  have hfind : findFileNode s.fileQueue p = if (getFileNode s.fileQueue p).isSome then 0 else -1 :=
    findFileNode_eq
  cases hf : getFileNode s.fileQueue p with
  | some f =>
    -- the file exists: at most its lock is taken
    have hnone : ∀ res, Call.event s.fileQueue (.openVirtualFile p flags c) res = none := fun res => by
      simp [Call.event, hfind, hf]
    rw [hnone, openVirtualFile_some hf]
    split_ifs
    · rfl
    · exact lockVirtualFile_view hs c
    · rfl
  | none =>
    rw [openVirtualFile_none hs hf]
    split_ifs with h1 h2
    · simp [Call.event, afterEvent]
    · simp [Call.event, afterEvent]
    · funext p'
      have hp : getFileNode s.fileQueue (newNode s.brk p flags c).pathname = none := hf
      simp only [Call.event, afterEvent, hfind, hf, Option.isSome_none, Bool.false_eq_true, if_false,
        and_self, if_true, Option.elim_some, Event.apply, recordLen_queue, view, push_lookup hp]
      by_cases h : p' = p
      · subst h; simp [newNode, FileNode.content]
      · simp only [newNode, h, if_false, Function.update_of_ne, ne_eq, not_false_eq_true]
        rfl

theorem writeVirtualFile_view (buf : List Byte) :
    view (writeVirtualFile s p buf buf.length).2.fileQueue = afterEvent (Call.event s.fileQueue
      (.writeVirtualFile p buf buf.length) (writeVirtualFile s p buf buf.length).1) (view s.fileQueue) := by
  rw [writeVirtualFile]
  split
  · simp [Call.event, afterEvent]
  · rename_i f hf
    split_ifs with ho
    · simp [Call.event, afterEvent]
    · have hopen : f.isOpen := by simpa using ho
      have hview : view s.fileQueue p = some f.content := by rw [view, hf]; simp [hopen]
      have hk : Keeps fun f : FileNode =>
          { f with file := some (memcpy (calloc buf.length) 0 (buf.take buf.length)), size := buf.length } :=
        ⟨fun _ => rfl, fun _ => rfl⟩
      rw [recordSize_queue, view_modify hk hs.toWF hf]
      simp [Call.event, afterEvent, Event.apply, hview, hopen, FileNode.content, memcpy_calloc]

theorem closeVirtualFile_view (u c : ℤ) :
    view (closeVirtualFile u s.fileQueue p c).2 = afterEvent (Call.event s.fileQueue
      (.closeVirtualFile p c) (closeVirtualFile u s.fileQueue p c).1) (view s.fileQueue) := by
  rw [closeVirtualFile, Call.event, hasFileLock]
  cases hf : getFileNode s.fileQueue p with
  | none => rfl
  | some f =>
    by_cases hc : f.clientId = c
    · by_cases ho : f.isOpen
      · simp only [ho, hc, Bool.not_true, Bool.false_eq_true, if_false, if_true]
        have hk : Keeps fun f : FileNode => { f with isOpen := false } := ⟨fun _ => rfl, fun _ => rfl⟩
        rw [view_modify hk hs.toWF hf]
        rfl
      · -- closed before
        have hview : view s.fileQueue p = none := by rw [view, hf]; simpa using ho
        simp only [ho, hc, Bool.not_false, if_true]
        rw [afterEvent, Option.elim_some, Event.apply, ← hview, Function.update_eq_self]
    · by_cases ho : f.isOpen <;> simp [ho, hc, afterEvent]

theorem removeNode_view (a : Ptr) :
    view (removeNode s.fileQueue a).2 = afterEvent (Call.event s.fileQueue
      (.removeNode a) (removeNode s.fileQueue a).1) (view s.fileQueue) := by
  cases hd : s.fileQueue.deref a with
  | none =>
    have hany : s.fileQueue.data.any (·.addr = a) = false := by
      rw [List.any_eq_false]
      simpa using fun f hf => Keyed.lookup_eq_none.1 hd f hf
    have hrem : removeNode s.fileQueue a = (-1, s.fileQueue) := by
      simp [removeNode, hany]
    simp [hrem, Call.event, afterEvent]
  | some f =>
    have hf : f ∈ s.fileQueue.data := Keyed.lookup_mem hd
    obtain rfl : f.addr = a := Keyed.lookup_key (k := FileNode.addr) hd
    rw [view_remove hs hf, removeNode_data hs.toWF hf (Nat.pos_iff_ne_zero.1 (hs.addr f hf).1)]
    simp [Call.event, afterEvent, hd, Event.apply]

theorem deleteVirtualFile_view (c : ℤ) :
    view (deleteVirtualFile s.fileQueue p c).2 = afterEvent (Call.event s.fileQueue
      (.deleteVirtualFile p c) (deleteVirtualFile s.fileQueue p c).1) (view s.fileQueue) := by
  rw [deleteVirtualFile]
  cases hf : getFileNode s.fileQueue p with
  | none => simp [Call.event, afterEvent]
  | some f =>
    have hmem := getFileNode_mem hf
    dsimp only
    split_ifs with ho hc h0
    · simp [Call.event, afterEvent]
    · rw [view_remove hs hmem, getFileNode_pathname hf]
      rfl
    · rw [removeNode_data hs.toWF hmem (Nat.pos_iff_ne_zero.1 (hs.addr f hmem).1)] at h0
      exact absurd rfl h0
    · simp [Call.event, afterEvent]

/-- **Each operation is simulated by its event.** -/
theorem view_step {c : Call} {e : Env} {x : c.Ans} (hc : StoreOp c)
    (h : c.exec cfg e s = some (x, s')) :
    view s'.fileQueue = afterEvent (c.event s.fileQueue x) (view s.fileQueue) := by
  cases hc with
  | openVirtualFile p flags c =>
    have he : openVirtualFile cfg s p flags c = (x, s') := Option.some.inj h
    have hv := openVirtualFile_view (p := p) hs flags c
    rwa [he] at hv
  | writeVirtualFile p buf =>
    have he : writeVirtualFile s p buf buf.length = (x, s') := Option.some.inj h
    have hv := writeVirtualFile_view (p := p) hs buf
    rwa [he] at hv
  | lockVirtualFile p c => cases h; exact lockVirtualFile_view hs c
  | unlockVirtualFile p c => cases h; exact unlockVirtualFile_view hs c
  | closeVirtualFile p c => cases h; exact closeVirtualFile_view hs _ c
  | deleteVirtualFile p c => cases h; exact deleteVirtualFile_view hs c
  | removeNode a => cases h; exact removeNode_view hs a

end

/-! ## Runs -/

theorem StoreRun.wf {h : List (Event CString (List Byte))} (hr : StoreRun cfg h s) : s.WF cfg := by
  induction hr with
  | init => exact .init cfg
  | step _ _ hx ih => exact Call.exec_wf ih hx

theorem StoreRun.step_eq {h h' : List (Event CString (List Byte))} {c : Call} {x : c.Ans} (e : Env)
    (hr : StoreRun cfg h s) (hc : StoreOp c) (hx : c.exec cfg e s = some (x, s'))
    (hh : h ++ (c.event s.fileQueue x).toList = h') : StoreRun cfg h' s' := hh ▸ hr.step hc hx

/-- **A run makes the map of its history.** -/
theorem StoreRun.view {h : List (Event CString (List Byte))} (hr : StoreRun cfg h s) :
    view s.fileQueue = replay h := by
  induction hr with
  | init => rfl
  | @step h s c e x s' hr hc hx ih =>
    rw [view_step hr.wf hc hx, ih]
    cases c.event s.fileQueue x with
    | none => simp [afterEvent]
    | some e => simp [afterEvent]

/-- The pathname of the event of a call is the file that the call is about. -/
theorem Call.event_key {c : Call} {x : c.Ans} {e : Event CString (List Byte)}
    (h : c.event q x = some e) : c.target q = some e.key := by
  cases c with
  | openVirtualFile p flags c =>
    simp only [Call.event] at h
    split_ifs at h
    cases h; rfl
  | writeVirtualFile p buf size =>
    simp only [Call.event] at h
    split_ifs at h
    cases h; rfl
  | deleteVirtualFile p c =>
    simp only [Call.event] at h
    split_ifs at h
    cases h; rfl
  | closeVirtualFile p c =>
    simp only [Call.event] at h
    split_ifs at h
    cases h; rfl
  | removeNode a =>
    simp only [Call.event] at h
    split_ifs at h
    obtain ⟨f, hf, rfl⟩ := Option.map_eq_some_iff.1 h
    simp [Call.target, hf, Event.key]
  | _ => cases h

/-- **Reading back.**  After a run with the history `h`, a read of `p` succeeds
    if and only if `p` was created and not dropped since, and then gives the
    bytes written last; and an operation on another file does not change what
    is read. -/
theorem read_back {h : List (Event CString (List Byte))} (hr : StoreRun cfg h s) (p : CString) :
    (∀ buf size, readVirtualFile s.fileQueue p = some (buf, size) ↔
      Live p h ∧ latest p h = some buf ∧ size = buf.length) ∧
    (readVirtualFile s.fileQueue p = none ↔ ¬ Live p h) ∧
    ∀ (c : Call) (e : Env) (x : c.Ans) (s' : Server), StoreOp c → c.exec cfg e s = some (x, s') →
      c.target s.fileQueue ≠ some p →
      readVirtualFile s'.fileQueue p = readVirtualFile s.fileQueue p := by
  have hwf := hr.wf
  have hview : view s.fileQueue p = replay h p := by rw [hr.view]
  refine ⟨fun buf size => ?_, ?_, fun c e x s' hc hx hp => ?_⟩
  · rw [readVirtualFile_eq hwf.toWF, hview, Option.map_eq_some_iff, ← and_assoc, ← replay_eq_some]
    constructor
    · rintro ⟨b, hb, he⟩
      cases he
      exact ⟨hb, rfl⟩
    · rintro ⟨hb, rfl⟩
      exact ⟨buf, hb, rfl⟩
  · rw [readVirtualFile_eq hwf.toWF, hview, Option.map_eq_none_iff, ← isSome_replay,
      Option.not_isSome_iff_eq_none]
  · rw [readVirtualFile_eq hwf.toWF, readVirtualFile_eq (Call.exec_wf hwf hx).toWF, view_step hwf hc hx]
    cases he : c.event s.fileQueue x with
    | none => rfl
    | some e =>
      have hne : e.key ≠ p := fun hk => hp (by rw [Call.event_key he, hk])
      rw [afterEvent, Option.elim_some, Event.apply_ne hne]

/-- A file is created and written. -/
theorem read_back_written : ∃ s, StoreRun ⟨10, 2⟩ [.create [47, 102] [], .put [47, 102] [7, 8]] s ∧
    (readVirtualFile s.fileQueue [47, 102] = some ([7, 8], 2) ↔
      Live ([47, 102] : CString) [.create [47, 102] [], .put [47, 102] ([7, 8] : List Byte)] ∧
      latest ([47, 102] : CString) [.create [47, 102] [], .put [47, 102] ([7, 8] : List Byte)] =
        some [7, 8] ∧ 2 = ([7, 8] : List Byte).length) := by
  have h₁ : StoreRun ⟨10, 2⟩ [.create [47, 102] []]
      ⟨⟨[⟨1, [47, 102], none, 0, 1, true⟩], 1⟩, ⟨1, 0, 0⟩, [], 2⟩ :=
    StoreRun.init.step_eq ⟨true, [], 0, NULL⟩ (.openVirtualFile [47, 102] (O_CREATE ||| O_LOCK) 1)
      (x := (0 : ℤ)) (by decide +kernel) (by decide +kernel)
  have h₂ : StoreRun ⟨10, 2⟩ [.create [47, 102] [], .put [47, 102] [7, 8]]
      ⟨⟨[⟨1, [47, 102], some [7, 8], 2, 1, true⟩], 1⟩, ⟨1, 2, 0⟩, [], 2⟩ :=
    h₁.step_eq ⟨true, [], 0, NULL⟩ (.writeVirtualFile [47, 102] [7, 8]) (x := (0 : ℤ))
      (by decide +kernel) (by decide +kernel)
  exact ⟨_, h₂, (read_back h₂ [47, 102]).1 [7, 8] 2⟩

end FileStorage
