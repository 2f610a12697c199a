/-
  The target of a write or append.

  `expelFile` chooses its victim by size alone, so that the victim may be the
  file the request is about; the write then fails for want of the file it has
  just expelled.  `safeTarget_iff` says exactly when a request is safe.
-/
import FileStorage.Failure
import FileStorage.Room

namespace FileStorage

open Threads Prog

variable {cfg : Config} {s : Server} {r : Request} {f : FileNode} {body : List Byte}

/-- The socket works, and the client sends `body` when it is asked for it. -/
def Delivers (body : List Byte) : Done workerSig → Prop
  | ⟨.write _, ok⟩ | ⟨.writeBytes _, ok⟩ => ok = true
  | ⟨.readData _, buf⟩ => buf.1 = body
  | _ => True

/-- A write or append to the file `f` does not remove it, and a write of which
    nothing fails on the socket ends with the status `0` and leaves the file with
    the body and its holder. -/
structure SafeTarget (cfg : Config) (s : Server) (r : Request) (f : FileNode) (body : List Byte) :
    Prop where
  kept : ∀ t o s', Runs (exec cfg) (controller cfg r) s t o s' →
    ∃ f', getFileNode s'.fileQueue r.filepath = some f' ∧ f'.addr = f.addr
  written : r.operation = .OP_WRITE_FILE → ∀ t o s', Runs (exec cfg) (controller cfg r) s t o s' →
    (∀ d ∈ t, Delivers body d) → o = .returned ∧ lastStatus t = some 0 ∧
      ∃ f', getFileNode s'.fileQueue r.filepath = some f' ∧ f'.content = body ∧
        f'.size = body.length ∧ f'.clientId = r.clientId

/-- If a file is expelled, then it is another one. -/
def SparesTarget (cfg : Config) (q : Queue FileNode) (r : Request) : Prop :=
  NeedsExpulsion cfg q r → ∀ x, victim cfg q (i32 r.fileSize) = some x → x.pathname ≠ r.filepath

/-! ## From the lock check on -/

theorem length_received (n : ℕ) (bytes : List Byte) : (received n bytes).length = n := by
  simp [received]

theorem writeVirtualFile_open {p : CString} {buf : List Byte} {n : ℕ}
    (hf : getFileNode s.fileQueue p = some f) (ho : f.isOpen) (hb : buf.length = n) :
    writeVirtualFile s p buf n = (0, Server.recordSize { s with
      fileQueue := s.fileQueue.modify f.addr fun f => { f with file := some buf, size := n } }) := by
  have hcopy : memcpy (calloc n) 0 (buf.take n) = buf := by
    rw [← hb, List.take_length, memcpy_calloc rfl]
  simp only [writeVirtualFile, hf, ho, Bool.not_true, Bool.false_eq_true, if_false, hcopy]

/-- The file of the request keeps its node. -/
def Kept (r : Request) (f : FileNode) (s : Server) : Prop :=
  ∃ f', getFileNode s.fileQueue r.filepath = some f' ∧ f'.addr = f.addr

/-- The file of the request is held by the client and has the contents `body`. -/
def Stored (r : Request) (body : List Byte) (s : Server) : Prop :=
  ∃ f', getFileNode s.fileQueue r.filepath = some f' ∧ f'.content = body ∧
    f'.size = body.length ∧ f'.clientId = r.clientId

/-- The outcome of a write of which nothing fails. -/
def Written (r : Request) (body : List Byte) (t : List (Done workerSig)) (o : Outcome) (s' : Server) :
    Prop :=
  (∀ d ∈ t, Delivers body d) → o = .returned ∧ (∀ st, t.foldl statusAfter st = some 0) ∧
    Stored r body s'

section
variable (hs : s.WF cfg) (hf : getFileNode s.fileQueue r.filepath = some f) (ho : f.isOpen)
  (hc : f.clientId = r.clientId)
include hs hf ho hc

/-- The write of the holder of an open file. -/
theorem writeFileBody_held (hn : 1 ≤ r.fileSize) :
    wp (exec cfg) (fun t o s' => Kept r f s' ∧ Written r body t o s') (writeFileBody r) [] s := by
  have hlock : hasFileLock s.fileQueue r.filepath r.clientId = 0 := hasFileLock_iff.2 ⟨f, hf, hc⟩
  rw [writeFileBody, wp_act (fun _ => (hasFileLock s.fileQueue r.filepath r.clientId, s)) fun _ => rfl]
  intro _
  dsimp only
  rw [if_pos hlock, wp_write]
  rintro (_ | _)
  · refine ⟨⟨f, hf, rfl⟩, fun h => ?_⟩
    have hok := h ⟨.write (respond 0 (str "Ready to receive file, client has lock")), false⟩ (by simp)
    cases hok
  rw [if_pos rfl, wp_readData]
  intro bytes u
  have hpos : 0 ≤ u % r.fileSize := Int.emod_nonneg _ (by omega)
  have hread : (if r.fileSize = 0 then u else u % r.fileSize + 1) ≠ -1 := by split_ifs <;> omega
  generalize (if r.fileSize = 0 then u else u % r.fileSize + 1) = m at hread ⊢
  rw [if_pos hread, wp_act (a := .call (.writeVirtualFile r.filepath (received r.fileSize bytes)
    r.fileSize)) (fun _ => writeVirtualFile s r.filepath (received r.fileSize bytes) r.fileSize)
    fun _ => rfl]
  intro _
  rw [writeVirtualFile_open hf ho (length_received _ _), wp_write]
  intro ok
  rw [wp_unlock, wp_ret]
  have hfile : getFileNode (Server.recordSize { s with fileQueue := s.fileQueue.modify f.addr fun f =>
      { f with file := some (received r.fileSize bytes), size := r.fileSize } }).fileQueue r.filepath =
      some { f with file := some (received r.fileSize bytes), size := r.fileSize } := by
    rw [recordSize_queue]
    exact getFileNode_modified ⟨fun _ => rfl, fun _ => rfl⟩ hs.toWF hf
  refine ⟨⟨_, hfile, rfl⟩, fun h => ?_⟩
  have hok : ok = true :=
    h ⟨.write (respond 0 (str "File scritto correttamente!")), ok⟩ (by simp)
  have hbody : received r.fileSize bytes = body :=
    h ⟨.readData r.fileSize, (received r.fileSize bytes, m)⟩ (by simp)
  subst hok hbody
  exact ⟨rfl, fun st => rfl, _, hfile, rfl, (length_received _ _).symm, hc⟩

omit ho in
/-- The append of the holder of a file. -/
theorem appendFileBody_held :
    wp (exec cfg) (fun _ _ s' => Kept r f s') (appendFileBody r) [] s := by
  have hlock : hasFileLock s.fileQueue r.filepath r.clientId = 0 := hasFileLock_iff.2 ⟨f, hf, hc⟩
  rw [appendFileBody, wp_act (fun _ => (hasFileLock s.fileQueue r.filepath r.clientId, s)) fun _ => rfl]
  intro _
  dsimp only
  rw [if_pos hlock, wp_write]
  rintro (_ | _)
  · exact ⟨f, hf, rfl⟩
  rw [if_pos rfl, wp_read]
  refine ⟨⟨f, hf, rfl⟩, fun bytes => ?_⟩
  rw [wp_act (a := .call (.appendVirtualFile r.filepath (received r.fileSize bytes) r.fileSize))
    (fun _ => appendVirtualFile s r.filepath (received r.fileSize bytes) r.fileSize) fun _ => rfl]
  intro _
  rw [wp_write]
  intro ok
  rw [wp_unlock, wp_ret]
  have heff : Effect cfg s (.appendVirtualFile r.filepath (received r.fileSize bytes) r.fileSize)
      (appendVirtualFile s r.filepath (received r.fileSize bytes) r.fileSize).2.fileQueue
      (appendVirtualFile s r.filepath (received r.fileSize bytes) r.fileSize).2.brk :=
    Call.effect (e := ⟨true, [], 0, NULL⟩) rfl
  have hfile := heff.file hs hf
  rw [Kept]
  generalize getFileNode (appendVirtualFile s r.filepath (received r.fileSize bytes) r.fileSize).2.fileQueue
    r.filepath = file at hfile ⊢
  cases hfile with
  | same => exact ⟨f, rfl, rfl⟩
  | appended => exact ⟨_, rfl, rfl⟩

theorem storeBody_held (hn : 1 ≤ r.fileSize) {t : List (Done workerSig)} {o : Outcome} {s' : Server}
    (h : Runs (exec cfg) (storeBody r) s t o s') :
    Kept r f s' ∧ (r.operation = .OP_WRITE_FILE → Written r body t o s') := by
  rw [storeBody] at h
  split_ifs at h with hw
  · obtain ⟨hk, hwr⟩ := wp_iff.1 (writeFileBody_held hs hf ho hc hn) t o s' h
    exact ⟨hk, fun _ => hwr⟩
  · exact ⟨wp_iff.1 (appendFileBody_held hs hf hc) t o s' h, fun h => absurd h hw⟩

end

theorem Written.append {u t : List (Done workerSig)} {o : Outcome} {s' : Server}
    (h : Written r body t o s') : Written r body (u ++ t) o s' := by
  intro hd
  obtain ⟨ho, hst, hstored⟩ := h fun d hmem => hd d (List.mem_append_right _ hmem)
  exact ⟨ho, fun st => by rw [List.foldl_append, hst], hstored⟩

theorem expelledBody_held (hs : s.WF cfg) (hf : getFileNode s.fileQueue r.filepath = some f)
    (ho : f.isOpen) (hc : f.clientId = r.clientId) (hn : 1 ≤ r.fileSize) {t : List (Done workerSig)}
    {o : Outcome} {s' : Server} (h : Runs (exec cfg) (expelledBody r 0) s t o s') :
    Kept r f s' ∧ (r.operation = .OP_WRITE_FILE → Written r body t o s') := by
  rw [expelledBody] at h
  split_ifs at h with hw h0
  · obtain ⟨_, _, s₁, t₁, hx, rfl, h⟩ | ⟨hx, -⟩ := h.act_cases
    swap; · cases hx ⟨true, [], 0, NULL⟩
    have hs₁ : s₁.WF cfg := exec_wf hs hx
    cases hx
    obtain ⟨hk, hwr⟩ := wp_iff.1 (writeFileBody_held hs₁ hf ho hc hn) t₁ o s' h
    exact ⟨hk, fun _ => hwr.append (u := [_])⟩
  · exact absurd (by decide) h0
  · exact ⟨wp_iff.1 (appendFileBody_held hs hf hc) t o s' h, fun h => absurd h hw⟩

/-! ## When the target is safe -/

/-- The expulsion of the target. -/
theorem expelled_not_kept (hs : s.WF cfg) (hn : NeedsExpulsion cfg s.fileQueue r) {x : FileNode}
    (hx : victim cfg s.fileQueue (i32 r.fileSize) = some x) (hp : x.pathname = r.filepath) :
    ∃ t o s', Runs (exec cfg) (controller cfg r) s t o s' ∧
      getFileNode s'.fileQueue r.filepath = none := by
  have hmem := victim_mem hx
  have hgone : getFileNode (expelled s r x).fileQueue r.filepath = none := by
    rw [expelled, getFileNode_remove hs.toWF hmem (Nat.pos_iff_ne_zero.1 (hs.addr x hmem).1), if_pos hp.symm]
  obtain ⟨t, o, s', hr, -, hq⟩ := @expelledBody_refuses cfg (expelled s r x) r fun h =>
    ((holds_expelled hs hmem).1 h).1 hp
  have hrun : Runs (exec cfg) (storeBranch cfg r (getFreeSpace cfg s.fileQueue)) s
      (expulsionTrace r x (true, true) ++ t) o s' := by
    rw [storeBranch, if_neg hn.2.1, if_pos hn.2.2]
    exact expulsion_run (u := NULL) hs hmem (expelFile_eq hx) hr
  exact ⟨_, o, s', (store_runs hn.1).2 ⟨_, rfl, hrun⟩, by rw [hq, hgone]⟩

/-- **When a write or append keeps its target.**  The request is one of the holder
    of an open file, of at least one byte and not larger than the capacity, and
    `expelFile` finds a file if it is called. -/
theorem safeTarget_iff (hs : Reachable cfg s)
    (hop : r.operation = .OP_WRITE_FILE ∨ r.operation = .OP_APPEND_FILE)
    (hf : getFileNode s.fileQueue r.filepath = some f) (ho : f.isOpen) (hc : f.clientId = r.clientId)
    (hn : 1 ≤ r.fileSize) (hle : r.fileSize ≤ cfg.maxMemSize.toNat)
    (hv : HasVictim cfg s.fileQueue r) :
    SafeTarget cfg s r f body ↔ SparesTarget cfg s.fileQueue r := by
  have hwf := hs.wf
  constructor
  · intro h hneed x hx hp
    obtain ⟨t, o, s', hr, hgone⟩ := expelled_not_kept hwf hneed hx hp
    obtain ⟨f', hf', -⟩ := h.kept t o s' hr
    rw [hgone] at hf'
    cases hf'
  · intro hspare
    have hboth : ∀ t o s', Runs (exec cfg) (controller cfg r) s t o s' →
        Kept r f s' ∧ (r.operation = .OP_WRITE_FILE → Written r body t o s') := by
      intro t o s' hr
      obtain ⟨t', rfl, hr'⟩ := (store_runs hop).1 hr
      have hbig : ¬ r.tooBig cfg := fun hb => absurd hb.2 (not_lt.2 hle)
      rw [storeBranch, if_neg hbig] at hr'
      split_ifs at hr' with hfree
      · -- the victim is another file
        have hneed : NeedsExpulsion cfg s.fileQueue r := ⟨hop, hbig, hfree⟩
        obtain ⟨x, hx⟩ := Option.isSome_iff_exists.1 (hv hneed)
        have hmem := victim_mem hx
        obtain ⟨u, ⟨hd, -⟩ | ⟨g, hg, he, sent, t₁, rfl, hr₁⟩⟩ := expulsion_runs hwf hr'
        · rw [expelFile_eq hx, hwf.toWF.deref_of_mem hmem] at hd
          cases hd
        · rw [expelFile_eq hx] at he
          obtain rfl := hwf.toWF.eq_of_addr hmem hg he
          have hne : f.addr ≠ x.addr := by
            intro ha
            obtain rfl := hwf.toWF.eq_of_addr (getFileNode_mem hf) hmem ha
            exact hspare hneed f hx (getFileNode_pathname hf)
          obtain ⟨hk, hw⟩ : Kept r f s' ∧ (r.operation = .OP_WRITE_FILE → Written r body t₁ o s') :=
            expelledBody_held (expelled_wf hwf) (getFileNode_remove_ne hwf.toWF hf hne) ho hc hn hr₁
          refine ⟨hk, fun hop => ?_⟩
          have htrace : Written r body (expulsionTrace r x sent ++ t₁) o s' := (hw hop).append
          exact htrace.append (u := [_])
      · obtain ⟨_, _, s₁, t₁, hx, rfl, hr₁⟩ | ⟨hx, -⟩ := hr'.act_cases
        swap; · cases hx ⟨true, [], 0, NULL⟩
        have hs₁ : s₁.WF cfg := exec_wf hwf hx
        cases hx
        obtain ⟨hk, hw⟩ := storeBody_held hs₁ hf ho hc hn hr₁
        exact ⟨hk, fun hop => (hw hop).append (u := [_, _])⟩
    constructor
    · intro t o s' hr
      exact (hboth t o s' hr).1
    · intro hop t o s' hr hd
      obtain ⟨hret, hst, hstored⟩ := (hboth t o s' hr).2 hop hd
      exact ⟨hret, hst none, hstored⟩

/-- Three bytes fit beside the five. -/
theorem safeTarget_crowded : SafeTarget ⟨8, 4⟩ crowded ⟨1, .OP_WRITE_FILE, [47, 97], 0, 3⟩
    ⟨1, [47, 97], some [1, 2, 3, 4, 5], 5, 1, true⟩ [6, 7, 8] :=
  (safeTarget_iff crowded_reachable (Or.inl rfl) rfl rfl rfl (by decide) (by decide) (by decide)).2
    fun h => absurd h.2.2 (by decide)

/-- Client 1 writes four bytes over its five: it loses the file. -/
theorem not_safeTarget_crowded : Reachable ⟨8, 4⟩ crowded ∧
    HasVictim ⟨8, 4⟩ crowded.fileQueue ⟨1, .OP_WRITE_FILE, [47, 97], 0, 4⟩ ∧
    ∃ f, getFileNode crowded.fileQueue [47, 97] = some f ∧ f.isOpen ∧ f.clientId = 1 ∧
      ¬ SafeTarget ⟨8, 4⟩ crowded ⟨1, .OP_WRITE_FILE, [47, 97], 0, 4⟩ f [6, 7, 8, 9] := by
  refine ⟨crowded_reachable, by decide, _, rfl, rfl, rfl, fun h => ?_⟩
  obtain ⟨t, o, s', hr, hgone⟩ := expelled_not_kept (r := ⟨1, .OP_WRITE_FILE, [47, 97], 0, 4⟩)
    crowded_reachable.wf (by decide) (x := ⟨1, [47, 97], some [1, 2, 3, 4, 5], 5, 1, true⟩)
    (by decide) rfl
  obtain ⟨f', hf', -⟩ := h.kept t o s' hr
  rw [hgone] at hf'
  cases hf'

end FileStorage
