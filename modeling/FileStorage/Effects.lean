/-
  What a call on the store can do: `Effect` lists the changes of the queue with
  their conditions, and every call performs one of them (`Call.effect`); seen
  from one file they are the `FileEffect`s (`Effect.file`).  The invariants of
  the store are derived from these lists; every reachable state is well formed
  (`Reachable.wf`).
-/
import FileStorage.Actions
import FileStorage.StoreFacts

namespace FileStorage

/-- The changes of the queue, and of the next address, that the calls make. -/
inductive Effect (cfg : Config) (s : Server) : Call → Queue FileNode → Ptr → Prop
  | same {c} : Effect cfg s c s.fileQueue s.brk
  /-- `openVirtualFile` creates the file -/
  | created {p flags c} : getFileNode s.fileQueue p = none →
      s.fileQueue.len ≠ cfg.maxFile.toNat →
      Effect cfg s (.openVirtualFile p flags c) (push s.fileQueue (newNode s.brk p flags c)).2
        (s.brk + 1)
  /-- `openVirtualFile` locks the file -/
  | opened {p flags c f} : flags.has O_LOCK → getFileNode s.fileQueue p = some f → f.isOpen →
      f.clientId = 0 →
      Effect cfg s (.openVirtualFile p flags c)
        (s.fileQueue.modify f.addr fun f => { f with clientId := c }) s.brk
  | locked {p c f} : getFileNode s.fileQueue p = some f → f.isOpen → f.clientId = 0 →
      Effect cfg s (.lockVirtualFile p c)
        (s.fileQueue.modify f.addr fun f => { f with clientId := c }) s.brk
  | unlocked {p c f} : getFileNode s.fileQueue p = some f → f.isOpen → f.clientId = c →
      Effect cfg s (.unlockVirtualFile p c)
        (s.fileQueue.modify f.addr fun f => { f with clientId := 0 }) s.brk
  | closed {p c f} : getFileNode s.fileQueue p = some f → f.isOpen → f.clientId = c →
      Effect cfg s (.closeVirtualFile p c)
        (s.fileQueue.modify f.addr fun f => { f with isOpen := false }) s.brk
  | written {p buf size f} : getFileNode s.fileQueue p = some f → f.isOpen →
      Effect cfg s (.writeVirtualFile p buf size) (s.fileQueue.modify f.addr fun f =>
        { f with file := some (memcpy (calloc size) 0 (buf.take size)), size := size }) s.brk
  | appended {p buf size f} : getFileNode s.fileQueue p = some f → f.isOpen →
      Effect cfg s (.appendVirtualFile p buf size) (s.fileQueue.modify f.addr fun f => match f.file with
        | none => { f with file := some (memcpy (calloc size) 0 (buf.take size)), size := size }
        | some old => { f with file := some (appendBuffer old f.size buf size), size := f.size + size }) s.brk
  | deleted {p c f} : getFileNode s.fileQueue p = some f → f.isOpen → f.clientId = c →
      Effect cfg s (.deleteVirtualFile p c) (removeNode s.fileQueue f.addr).2 s.brk
  | removed {a} : Effect cfg s (.removeNode a) (removeNode s.fileQueue a).2 s.brk

/-- The effects of the calls on the file `f` with the pathname `p`, and the file
    afterwards. -/
inductive FileEffect (p : CString) (f : FileNode) : Call → Option FileNode → Prop
  | same {call} : FileEffect p f call (some f)
  | opened {flags c} : flags.has O_LOCK → f.isOpen → f.clientId = 0 →
      FileEffect p f (.openVirtualFile p flags c) (some { f with clientId := c })
  | locked {c} : f.isOpen → f.clientId = 0 →
      FileEffect p f (.lockVirtualFile p c) (some { f with clientId := c })
  | unlocked : f.isOpen →
      FileEffect p f (.unlockVirtualFile p f.clientId) (some { f with clientId := 0 })
  | closed : f.isOpen →
      FileEffect p f (.closeVirtualFile p f.clientId) (some { f with isOpen := false })
  | written {buf size file n} : f.isOpen →
      FileEffect p f (.writeVirtualFile p buf size) (some { f with file := file, size := n })
  | appended {buf size file n} : f.isOpen →
      FileEffect p f (.appendVirtualFile p buf size) (some { f with file := file, size := n })
  | deleted : f.isOpen → FileEffect p f (.deleteVirtualFile p f.clientId) none
  | removed : FileEffect p f (.removeNode f.addr) none

section
variable {cfg : Config} {s : Server} {p : CString} {c : ℤ}

/-- **What a call does to a file.** -/
theorem Effect.file {call : Call} {q : Queue FileNode} {b : Ptr} {f : FileNode}
    (h : Effect cfg s call q b) (hs : s.WF cfg) (hf : getFileNode s.fileQueue p = some f) :
    FileEffect p f call (getFileNode q p) := by
  have hq : s.fileQueue.WF := hs.toWF
  have hfm := getFileNode_mem hf
  have hf0 : f.addr ≠ NULL := Nat.pos_iff_ne_zero.1 (hs.addr f hfm).1
  -- a node that changes is another one or the one of the file
  have hnode : ∀ {p' n}, getFileNode s.fileQueue p' = some n → p ≠ n.pathname ∨ p' = p ∧ n = f := by
    intro p' n hn
    by_cases hp : p = n.pathname
    · have hpp : p' = p := (getFileNode_pathname hn).symm.trans hp.symm
      subst hpp
      exact Or.inr ⟨rfl, Option.some.inj (hn.symm.trans hf)⟩
    · exact Or.inl hp
  have hmod : ∀ {p' n} {g : FileNode → FileNode}, getFileNode s.fileQueue p' = some n → Keeps g →
      (p' = p → n = f → FileEffect p f call (some (g f))) →
      FileEffect p f call (getFileNode (s.fileQueue.modify n.addr g) p) := by
    intro p' n g hn hg he
    rcases hnode hn with hp | ⟨hpp, rfl⟩
    · rw [getFileNode_modify hg hq (getFileNode_mem hn), if_neg hp, hf]
      exact .same
    · rw [getFileNode_modified hg hq hf]
      exact he hpp rfl
  cases h with
  | same =>
    rw [hf]
    exact .same
  | @created p' flags c hn =>
    have hpush := push_lookup (p := p) (n := newNode s.brk p' flags c) hn
    have hp : p ≠ (newNode s.brk p' flags c).pathname := by
      rintro rfl
      cases hn.symm.trans hf
    rw [hpush, if_neg hp, hf]
    exact .same
  | opened hl hn ho hz =>
    refine hmod hn ⟨fun _ => rfl, fun _ => rfl⟩ ?_
    rintro rfl rfl
    exact .opened hl ho hz
  | locked hn ho hz =>
    refine hmod hn ⟨fun _ => rfl, fun _ => rfl⟩ ?_
    rintro rfl rfl
    exact .locked ho hz
  | unlocked hn ho hz =>
    refine hmod hn ⟨fun _ => rfl, fun _ => rfl⟩ ?_
    rintro rfl rfl
    exact hz ▸ .unlocked ho
  | closed hn ho hz =>
    refine hmod hn ⟨fun _ => rfl, fun _ => rfl⟩ ?_
    rintro rfl rfl
    exact hz ▸ .closed ho
  | written hn ho =>
    refine hmod hn ⟨fun _ => rfl, fun _ => rfl⟩ ?_
    rintro rfl rfl
    exact .written ho
  | @appended _ _ _ n hn ho =>
    refine hmod hn ⟨fun n => by cases n.file <;> rfl, fun n => by cases n.file <;> rfl⟩ ?_
    rintro rfl rfl
    cases n.file <;> exact .appended ho
  | deleted hn ho hz =>
    rcases hnode hn with hp | ⟨rfl, rfl⟩
    · have hne := fun ha => hp (by rw [hq.eq_of_addr (getFileNode_mem hn) hfm ha, getFileNode_pathname hf])
      rw [getFileNode_remove_ne hq hf fun ha => hne ha.symm]
      exact .same
    · rw [getFileNode_remove hq hfm hf0, if_pos (getFileNode_pathname hf).symm]
      exact hz ▸ .deleted ho
  | @removed a =>
    by_cases ha : f.addr = a
    · subst ha
      rw [getFileNode_remove hq hfm hf0, if_pos (getFileNode_pathname hf).symm]
      exact .removed
    · rw [getFileNode_remove_ne hq hf ha]
      exact .same

@[simp] theorem recordSize_queue : s.recordSize.fileQueue = s.fileQueue := by
  unfold Server.recordSize; dsimp only; split_ifs <;> rfl

@[simp] theorem recordSize_brk : s.recordSize.brk = s.brk := by
  unfold Server.recordSize; dsimp only; split_ifs <;> rfl

@[simp] theorem recordLen_queue : s.recordLen.fileQueue = s.fileQueue := by
  unfold Server.recordLen; split_ifs <;> rfl

@[simp] theorem recordLen_brk : s.recordLen.brk = s.brk := by
  unfold Server.recordLen; split_ifs <;> rfl

/-- `setMaxNumFile` under a condition. -/
theorem stats_setMaxNumFile (s : Server) (n : ℤ) (p : Prop) [Decidable p] :
    (if p then { s with stats := { s.stats with maxNumFile := n } } else s).stats =
      ⟨if p then n else s.stats.maxNumFile, s.stats.maxFileStorageSize, s.stats.numFileReplacement⟩ := by
  split_ifs <;> rfl

theorem recordLen_stats : s.recordLen.stats =
    ⟨if u64 s.stats.maxNumFile < s.fileQueue.len then i32 s.fileQueue.len else s.stats.maxNumFile,
      s.stats.maxFileStorageSize, s.stats.numFileReplacement⟩ := by
  rw [Server.recordLen]
  exact stats_setMaxNumFile s _ _

theorem recordSize_stats : s.recordSize.stats =
    ⟨s.stats.maxNumFile, max s.stats.maxFileStorageSize (getStorageSize s.fileQueue),
      s.stats.numFileReplacement⟩ := by
  unfold Server.recordSize
  dsimp only
  split_ifs with hlt
  · rw [max_eq_right hlt.le]
  · rw [max_eq_left (not_lt.1 hlt)]

@[simp] theorem recordLen_log : s.recordLen.log = s.log := by
  unfold Server.recordLen; split_ifs <;> rfl

@[simp] theorem recordSize_log : s.recordSize.log = s.log := by
  unfold Server.recordSize; dsimp only; split_ifs <;> rfl

theorem lockVirtualFile_fails {q : Queue FileNode}
    (h : (lockVirtualFile q p c).1 ≠ 0) : (lockVirtualFile q p c).2 = q := by
  unfold lockVirtualFile at h ⊢
  split
  · rfl
  · split_ifs <;> simp_all

theorem unlockVirtualFile_fails {q : Queue FileNode}
    (h : (unlockVirtualFile q p c).1 ≠ 0) : (unlockVirtualFile q p c).2 = q := by
  unfold unlockVirtualFile at h ⊢
  split
  · rfl
  · split_ifs <;> simp_all

theorem hasFileLock_iff {q : Queue FileNode} {r : Request} : hasFileLock q r.filepath r.clientId = 0 ↔
    ∃ f, getFileNode q r.filepath = some f ∧ f.clientId = r.clientId := by
  rw [hasFileLock]
  cases getFileNode q r.filepath with
  | none => simp
  | some f => by_cases hc : f.clientId = r.clientId <;> simp [hc]

theorem exec_lock {e : Env} {x : ℤ} {s' : Server}
    (h : exec cfg (.call (.lockVirtualFile p c)) e s = some (x, s')) :
    (lockVirtualFile s.fileQueue p c).1 = x ∧ (lockVirtualFile s.fileQueue p c).2 = s'.fileQueue := by
  have he : ((lockVirtualFile s.fileQueue p c).1,
      { s with fileQueue := (lockVirtualFile s.fileQueue p c).2 }) = (x, s') := Option.some.inj h
  exact ⟨congrArg Prod.fst he, congrArg (fun y => y.2.fileQueue) he⟩

theorem exec_unlock {e : Env} {x : ℤ} {s' : Server}
    (h : exec cfg (.call (.unlockVirtualFile p c)) e s = some (x, s')) :
    (unlockVirtualFile s.fileQueue p c).1 = x ∧
      (unlockVirtualFile s.fileQueue p c).2 = s'.fileQueue := by
  have he : ((unlockVirtualFile s.fileQueue p c).1,
      { s with fileQueue := (unlockVirtualFile s.fileQueue p c).2 }) = (x, s') := Option.some.inj h
  exact ⟨congrArg Prod.fst he, congrArg (fun y => y.2.fileQueue) he⟩

theorem deleteVirtualFile_eq {f : FileNode} (hf : getFileNode s.fileQueue p = some f)
    (ho : f.isOpen) (hc : f.clientId = c) :
    (deleteVirtualFile s.fileQueue p c).2 = (removeNode s.fileQueue f.addr).2 := by
  simp only [deleteVirtualFile, hf, ho, hc, Bool.not_true, Bool.false_eq_true, if_false, if_true]
  split_ifs <;> rfl

/-- `openVirtualFile` on a file that exists. -/
theorem openVirtualFile_some {flags : Flags} {f : FileNode} (hf : getFileNode s.fileQueue p = some f) :
    openVirtualFile cfg s p flags c =
      if flags.has O_CREATE then (-1, s)
      else if flags.has O_LOCK then
        ((lockVirtualFile s.fileQueue p c).1, { s with fileQueue := (lockVirtualFile s.fileQueue p c).2 })
      else (0, s) := by
  simp only [openVirtualFile, findFileNode_eq, hf, Option.isSome_some, ↓reduceIte]
  split_ifs <;> first | rfl | simp_all

/-- `openVirtualFile` on a file that does not exist; `push` gives a length that is
    not zero, as there are less than `2^32` files. -/
theorem openVirtualFile_none {flags : Flags} (hs : s.WF cfg) (hf : getFileNode s.fileQueue p = none) :
    openVirtualFile cfg s p flags c =
      if flags.has O_LOCK ∧ ¬ flags.has O_CREATE then (-1, s)
      else if s.fileQueue.len = cfg.maxFile.toNat then (-1, s)
      else (0, Server.recordLen { s with fileQueue := (push s.fileQueue (newNode s.brk p flags c)).2,
                                         brk := s.brk + 1 }) := by
  have hfind : findFileNode s.fileQueue p = -1 := by rw [findFileNode_eq, hf]; rfl
  have hpush : s.fileQueue.len ≠ cfg.maxFile.toNat →
      (push s.fileQueue (newNode s.brk p flags c)).1 ≠ 0 := by
    intro hne
    have hcap := hs.cap
    have hlt := cfg.maxFile.toNat_lt
    rw [push, i32, Int.bmod_def]
    push_cast
    split <;> omega
  rw [openVirtualFile, hfind]
  simp only [ne_eq, not_true_eq_false, false_and, true_and, if_false, Int.reduceNeg, Int.reduceEq]
  split_ifs with h1 h2 h3
  · rfl
  · rfl
  · exact absurd h3 (hpush h2)
  · rfl

theorem openVirtualFile_effect {flags : Flags} :
    Effect cfg s (.openVirtualFile p flags c) (openVirtualFile cfg s p flags c).2.fileQueue
      (openVirtualFile cfg s p flags c).2.brk := by
  simp only [openVirtualFile, findFileNode_eq]
  cases hf : getFileNode s.fileQueue p with
  | none =>
    simp only [Option.isSome_none, Bool.false_eq_true, ↓reduceIte, Int.reduceNeg, Int.reduceEq]
    split_ifs with h1 h2 h3
    · exact .same
    · exact .same
    · exact .same
    · simpa using .created hf h3
    · exact .created hf h3
  | some f =>
    simp only [Option.isSome_some, ↓reduceIte]
    split_ifs with h1 h2 h3
    · exact .same
    · exact .same
    · simp only [lockVirtualFile, hf]
      split_ifs with h4 h5 h6
      · exact .same
      · exact .same
      · exact .opened h3 hf (by simpa using h4) h6
      · exact .same
    · exact .same

/-- **Every call has one of the effects.** -/
theorem Call.effect {e : Env} {call : Call} {r : call.Ans} {s' : Server}
    (h : call.exec cfg e s = some (r, s')) : Effect cfg s call s'.fileQueue s'.brk := by
  cases call with
  | getFreeSpace | expelFile | hasFileLock | readVirtualFile | getNFileList => cases h; exact .same
  | deref node =>
    obtain ⟨f, -, h⟩ := Option.map_eq_some_iff.1 h
    cases h; exact .same
  | removeNode a => cases h; exact .removed
  | openVirtualFile p flags c =>
    obtain rfl : (FileStorage.openVirtualFile cfg s p flags c).2 = s' :=
      congrArg Prod.snd (Option.some.inj h)
    exact openVirtualFile_effect
  | writeVirtualFile p buf size =>
    obtain rfl : (FileStorage.writeVirtualFile s p buf size).2 = s' :=
      congrArg Prod.snd (Option.some.inj h)
    simp only [FileStorage.writeVirtualFile]
    split
    · simpa using .same
    · split_ifs with h1
      · exact .same
      · simpa using .written ‹_› (by simpa using h1)
  | appendVirtualFile p buf size =>
    obtain rfl : (FileStorage.appendVirtualFile s p buf size).2 = s' :=
      congrArg Prod.snd (Option.some.inj h)
    simp only [FileStorage.appendVirtualFile]
    split
    · simpa using .same
    · split_ifs with h1
      · exact .same
      · simpa using .appended ‹_› (by simpa using h1)
  | lockVirtualFile p c =>
    cases h
    dsimp only [FileStorage.lockVirtualFile]
    split
    · exact .same
    · split_ifs with h1 h2 h3
      · exact .same
      · exact .same
      · exact .locked ‹_› (by simpa using h1) h3
      · exact .same
  | unlockVirtualFile p c =>
    cases h
    dsimp only [FileStorage.unlockVirtualFile]
    split
    · exact .same
    · split_ifs with h1 h2 h3
      · exact .same
      · exact .unlocked ‹_› (by simpa using h1) h2
      · exact .same
      · exact .same
  | deleteVirtualFile p c =>
    have hs : s'.fileQueue = (FileStorage.deleteVirtualFile s.fileQueue p c).2 := by cases h; rfl
    have hb : s'.brk = s.brk := by cases h; rfl
    rw [hs, hb]
    cases hf : getFileNode s.fileQueue p with
    | none => simp only [FileStorage.deleteVirtualFile, hf]; exact .same
    | some f =>
      by_cases ho : f.isOpen
      · by_cases hc : f.clientId = c
        · rw [deleteVirtualFile_eq hf ho hc]; exact .deleted hf ho hc
        · simp only [FileStorage.deleteVirtualFile, hf, ho, hc]; exact .same
      · simp only [FileStorage.deleteVirtualFile, hf, ho]; exact .same
  | closeVirtualFile p c =>
    cases h
    dsimp only [FileStorage.closeVirtualFile]
    split
    · exact .same
    · split_ifs with h1 h2
      · exact .same
      · exact .closed ‹_› (by simpa using h1) h2
      · exact .same

/-- **Every call keeps the state well formed.** -/
theorem Call.exec_wf {e : Env} {call : Call} {r : call.Ans} {s' : Server} (hs : s.WF cfg)
    (h : call.exec cfg e s = some (r, s')) : s'.WF cfg := by
  have hq : s.fileQueue.WF := hs.toWF
  -- a change of one node in place
  have hmod : ∀ {f : FileNode} {g : FileNode → FileNode}, f ∈ s.fileQueue.data →
      s'.fileQueue = s.fileQueue.modify f.addr g → s'.brk = s.brk → Keeps g →
      (g f).size = (g f).content.length → s'.WF cfg := by
    intro f g hf hq' hb hg hsz
    refine ⟨hq' ▸ WF_modify hg hq hf hsz, fun n hn => ?_, by rw [hb]; exact hs.brk,
      by rw [hq']; exact hs.cap⟩
    rw [hq'] at hn
    rw [hb]
    rcases (mem_modify hq hf).1 hn with rfl | ⟨hn, -⟩
    · rw [hg.addr]; exact hs.addr f hf
    · exact hs.addr n hn
  -- the removal of a node
  have hrem : ∀ a, s'.fileQueue = (FileStorage.removeNode s.fileQueue a).2 → s'.brk = s.brk →
      s'.WF cfg := by
    intro a hq' hb
    by_cases ha : ∃ f ∈ s.fileQueue.data, f.addr = a
    · obtain ⟨f, hf, rfl⟩ := ha
      have h0 : f.addr ≠ NULL := Nat.pos_iff_ne_zero.1 (hs.addr f hf).1
      refine ⟨hq' ▸ WF_remove hq hf h0, fun n hn => ?_, by rw [hb]; exact hs.brk, ?_⟩
      · rw [hq', mem_remove hq hf h0] at hn
        rw [hb]; exact hs.addr n hn.1
      · rw [hq', removeNode_data hq hf h0]
        exact (Nat.sub_le _ _).trans hs.cap
    · have : s'.fileQueue = s.fileQueue := by
        have hany : s.fileQueue.data.any (·.addr = a) = false := by
          simpa using fun f hf he => ha ⟨f, hf, he⟩
        rw [hq', FileStorage.removeNode]; split_ifs <;> simp_all
      exact ⟨this ▸ hq, by rw [this, hb]; exact hs.addr, hb ▸ hs.brk, by rw [this]; exact hs.cap⟩
  have heff := Call.effect h
  generalize hq' : s'.fileQueue = q' at heff
  generalize hb : s'.brk = b at heff
  cases heff with
  | same => exact ⟨hq' ▸ hq, by rw [hq', hb]; exact hs.addr, hb ▸ hs.brk, by rw [hq']; exact hs.cap⟩
  | created hn hlen =>
    refine ⟨hq' ▸ WF_push hq hn (fun f hf => (hs.addr f hf).2.ne) rfl, fun n hmem => ?_,
      hb ▸ Nat.succ_pos _, ?_⟩
    · rw [hq'] at hmem
      rw [hb]
      rcases List.mem_append.1 hmem with hmem | hmem
      · exact ⟨(hs.addr n hmem).1, (hs.addr n hmem).2.trans (Nat.lt_succ_self _)⟩
      · rw [List.mem_singleton.1 hmem]; exact ⟨hs.brk, Nat.lt_succ_self _⟩
    · rw [hq']; exact Nat.lt_of_le_of_ne hs.cap hlen
  | opened _ hf | locked hf | unlocked hf | closed hf =>
    have hm := getFileNode_mem hf
    refine hmod hm hq' hb ?_ ?_
    · exact ⟨fun _ => rfl, fun _ => rfl⟩
    · have := hq.size _ hm
      exact this
  | written hf =>
    have hm := getFileNode_mem hf
    refine hmod hm hq' hb ?_ ?_
    · exact ⟨fun _ => rfl, fun _ => rfl⟩
    · simp [FileNode.content]
  | @appended _ _ _ f hf =>
    have hm := getFileNode_mem hf
    refine hmod hm hq' hb ?_ ?_
    · exact ⟨fun n => by cases n.file <;> rfl, fun n => by cases n.file <;> rfl⟩
    · cases hfile : f.file <;> simp [FileNode.content, appendBuffer]
  | deleted => exact hrem _ hq' hb
  | removed => exact hrem _ hq' hb

/-- An action that is not a call leaves the store alone. -/
theorem exec_queue {a : Act} {e : Env} {x : a.Ans} {s' : Server}
    (h : exec cfg a e s = some (x, s'))
    (ha : ∀ y, a ≠ .call y) : s'.fileQueue = s.fileQueue := by
  cases a with
  | call y => exact absurd rfl (ha y)
  | crash => cases h
  | _ => cases h; rfl

theorem exec_wf {a : Act} {e : Env} {x : a.Ans} {s' : Server} (hs : s.WF cfg)
    (h : exec cfg a e s = some (x, s')) : s'.WF cfg := by
  cases a with
  | call c => exact Call.exec_wf hs h
  | crash => cases h
  | _ => cases h; exact ⟨hs.toWF, hs.addr, hs.brk, hs.cap⟩

end

/-! ## Weakest preconditions of the actions -/

section
open Threads Prog

variable {cfg : Config} {s : Server} {Q : List (Done workerSig) → Outcome → Server → Prop}
  {t : List (Done workerSig)}

instance : Nonempty Env := ⟨⟨true, [], 0, NULL⟩⟩

/-- An action that is always performed. -/
theorem wp_act {a : Act} {k : a.Ans → Prog workerSig} (g : Env → a.Ans × Server)
    (h : ∀ e, exec cfg a e s = some (g e)) : wp (exec cfg) Q (.act a k) t s ↔
      ∀ e, wp (exec cfg) Q (k (g e).1) (t ++ [⟨a, (g e).1⟩]) (g e).2 := by
  rw [wp]
  constructor
  · rintro ⟨h1, -⟩ e
    exact h1 e _ _ (h e)
  · intro h1
    refine ⟨fun e r s' hx => ?_, fun hx => ?_⟩
    · obtain ⟨rfl, rfl⟩ := Prod.mk.inj (Option.some.inj ((h e).symm.trans hx))
      exact h1 e
    · obtain ⟨e⟩ := (inferInstance : Nonempty Env)
      cases (h e).symm.trans (hx e)

@[simp] theorem wp_log {r : LogRecord} {k : Unit → Prog workerSig} :
    wp (exec cfg) Q (.act (.log r) k) t s ↔
      wp (exec cfg) Q (k ()) (t ++ [⟨.log r, ()⟩]) { s with log := s.log ++ [r] } := by
  rw [wp_act (fun _ => ((), { s with log := s.log ++ [r] })) fun _ => rfl, forall_const]

@[simp] theorem wp_write {x : Response} {k : Bool → Prog workerSig} :
    wp (exec cfg) Q (.act (.write x) k) t s ↔
      ∀ ok, wp (exec cfg) Q (k ok) (t ++ [⟨.write x, ok⟩]) s := by
  rw [wp_act (fun e => (e.ok, s)) fun _ => rfl]
  exact ⟨fun h ok => h ⟨ok, [], 0, NULL⟩, fun h e => h e.ok⟩

@[simp] theorem wp_writeBytes {x : List Byte} {k : Bool → Prog workerSig} :
    wp (exec cfg) Q (.act (.writeBytes x) k) t s ↔
      ∀ ok, wp (exec cfg) Q (k ok) (t ++ [⟨.writeBytes x, ok⟩]) s := by
  rw [wp_act (fun e => (e.ok, s)) fun _ => rfl]
  exact ⟨fun h ok => h ⟨ok, [], 0, NULL⟩, fun h e => h e.ok⟩

@[simp] theorem wp_readData {n : ℕ} {k : List Byte × ℤ → Prog workerSig} :
    wp (exec cfg) Q (.act (.readData n) k) t s ↔ ∀ bytes (u : ℤ),
      wp (exec cfg) Q (k (received n bytes, if n = 0 then u else u % n + 1))
        (t ++ [⟨.readData n, (received n bytes, if n = 0 then u else u % n + 1)⟩]) s := by
  rw [wp_act (fun e => ((received n e.bytes, if n = 0 then e.unset else e.unset % n + 1), s))
    fun _ => rfl]
  exact ⟨fun h bytes u => h ⟨true, bytes, u, NULL⟩, fun h e => h e.bytes e.unset⟩

@[simp] theorem wp_read {n : ℕ} {k : Option (List Byte) → Prog workerSig} :
    wp (exec cfg) Q (.act (.read n) k) t s ↔
      wp (exec cfg) Q (k none) (t ++ [⟨.read n, none⟩]) s ∧
      ∀ bytes, wp (exec cfg) Q (k (some (received n bytes)))
        (t ++ [⟨.read n, some (received n bytes)⟩]) s := by
  rw [wp_act (fun e => (if e.ok then some (received n e.bytes) else none, s)) fun _ => rfl]
  constructor
  · intro h
    exact ⟨h ⟨false, [], 0, NULL⟩, fun bytes => h ⟨true, bytes, 0, NULL⟩⟩
  · rintro ⟨h1, h2⟩ ⟨_ | _, bytes, _, _⟩
    · exact h1
    · exact h2 bytes

end

/-! ## Reachable states -/

/-- The states reached by actions of workers, in any order. -/
inductive Reachable (cfg : Config) : Server → Prop
  | init : Reachable cfg Server.init
  | step {s a e x s'} : Reachable cfg s → exec cfg a e s = some (x, s') → Reachable cfg s'

theorem Reachable.wf {cfg : Config} {s : Server} (h : Reachable cfg s) : s.WF cfg := by
  induction h with
  | init => exact .init cfg
  | step _ hx ih => exact exec_wf ih hx

end FileStorage
