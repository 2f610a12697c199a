/-
  The contract of `openVirtualFile`.

  Without `O_LOCK` a file that exists is not looked at, so that a closed file
  stays closed; without `O_CREATE` an absent file is refused only if `O_LOCK` is
  given.  `openContract_iff` says exactly when the contract is met.
-/
import FileStorage.Capacity

namespace FileStorage

variable {cfg : Config} {s : Server} {p : CString} {flags : Flags} {c : ℤ}

/-- What is required of a call of `openVirtualFile`. -/
structure OpenContract (cfg : Config) (s : Server) (p : CString) (flags : Flags) (c : ℤ) : Prop where
  /-- after a success the file is there and open, is held by the client if
      `O_LOCK` is given, and has the contents it had -/
  opened : (openVirtualFile cfg s p flags c).1 = 0 →
    ∃ f', getFileNode (openVirtualFile cfg s p flags c).2.fileQueue p = some f' ∧ f'.isOpen ∧
      (readVirtualFile (openVirtualFile cfg s p flags c).2.fileQueue p).isSome ∧
      (flags.has O_LOCK → f'.clientId = c) ∧
      ∀ f, getFileNode s.fileQueue p = some f → f'.content = f.content ∧ f'.size = f.size
  /-- a node is added only on request, for an absent file, and if there is room -/
  added : ∀ n ∈ (openVirtualFile cfg s p flags c).2.fileQueue.data,
    (∀ m ∈ s.fileQueue.data, m.addr ≠ n.addr) → flags.has O_CREATE ∧
      getFileNode s.fileQueue p = none ∧ s.fileQueue.data.length < cfg.maxFile.toNat
  /-- a failure changes nothing -/
  refused : (openVirtualFile cfg s p flags c).1 ≠ 0 → (openVirtualFile cfg s p flags c).2 = s

/-- A flag is given; or the file is open; or it is absent and the store is full. -/
def OpensRight (cfg : Config) (q : Queue FileNode) (p : CString) (flags : Flags) : Prop :=
  flags.has O_CREATE ∨ flags.has O_LOCK ∨ (∃ f, getFileNode q p = some f ∧ f.isOpen) ∨
    (getFileNode q p = none ∧ q.data.length = cfg.maxFile.toNat)

/-- A call that answers without a change. -/
theorem OpenContract.of_same {res : ℤ} (h : openVirtualFile cfg s p flags c = (res, s))
    (hres : res = 0 → ∃ f, getFileNode s.fileQueue p = some f ∧ f.isOpen ∧
      (flags.has O_LOCK → f.clientId = c)) : OpenContract cfg s p flags c where
  opened h0 := by
    rw [h] at h0 ⊢
    obtain ⟨f, hf, ho, hc⟩ := hres h0
    refine ⟨f, hf, ho, by simp [readVirtualFile, hf, ho], hc, fun f' hf' => ?_⟩
    obtain rfl : f = f' := Option.some.inj (hf.symm.trans hf')
    exact ⟨rfl, rfl⟩
  added n hn hnew := by
    rw [h] at hn
    exact absurd rfl (hnew n hn)
  refused _ := by rw [h]

/-! ## The file exists -/

section
variable {f : FileNode} (hs : s.WF cfg) (hf : getFileNode s.fileQueue p = some f)
include hs hf

/-- The lock of a free open file is taken. -/
theorem openContract_locks (hcr : ¬ flags.has O_CREATE) (hl : flags.has O_LOCK) (ho : f.isOpen)
    (hc : f.clientId ≠ c) (h0 : f.clientId = 0) : OpenContract cfg s p flags c := by
  have hopen : openVirtualFile cfg s p flags c =
      (0, { s with fileQueue := s.fileQueue.modify f.addr fun f => { f with clientId := c } }) := by
    rw [openVirtualFile_some hf, if_neg hcr, if_pos hl, lockVirtualFile, hf]
    simp only [ho, h0, Bool.not_true, Bool.false_eq_true, if_false, if_true]
    rw [if_neg (h0 ▸ hc)]
  have hk : Keeps fun f : FileNode => { f with clientId := c } := ⟨fun _ => rfl, fun _ => rfl⟩
  have hfile : getFileNode (openVirtualFile cfg s p flags c).2.fileQueue p =
      some { f with clientId := c } := by
    rw [hopen, getFileNode_modified hk hs.toWF hf]
  constructor
  · intro _
    refine ⟨_, hfile, ho, by simp [readVirtualFile, hfile, ho], fun _ => rfl, fun f' hf' => ?_⟩
    obtain rfl : f = f' := Option.some.inj (hf.symm.trans hf')
    exact ⟨rfl, rfl⟩
  · intro n hn hnew
    rw [hopen, mem_modify hs.toWF (getFileNode_mem hf)] at hn
    rcases hn with rfl | ⟨hn, -⟩
    · exact absurd rfl (hnew f (getFileNode_mem hf))
    · exact absurd rfl (hnew n hn)
  · intro h
    rw [hopen] at h
    exact absurd rfl h

theorem openContract_some_iff :
    OpenContract cfg s p flags c ↔ flags.has O_CREATE ∨ flags.has O_LOCK ∨ f.isOpen := by
  by_cases hcr : flags.has O_CREATE
  · have hopen : openVirtualFile cfg s p flags c = (-1, s) := by
      rw [openVirtualFile_some hf, if_pos hcr]
    exact ⟨fun _ => Or.inl hcr, fun _ => .of_same hopen fun h => by cases h⟩
  by_cases hl : flags.has O_LOCK
  · refine ⟨fun _ => Or.inr (Or.inl hl), fun _ => ?_⟩
    have hopen : openVirtualFile cfg s p flags c = ((lockVirtualFile s.fileQueue p c).1,
        { s with fileQueue := (lockVirtualFile s.fileQueue p c).2 }) := by
      rw [openVirtualFile_some hf, if_neg hcr, if_pos hl]
    simp only [lockVirtualFile, hf] at hopen
    by_cases ho : f.isOpen
    · by_cases hc : f.clientId = c
      · refine .of_same (by simpa [ho, hc] using hopen) fun _ => ⟨f, hf, ho, fun _ => hc⟩
      · by_cases h0 : f.clientId = 0
        · exact openContract_locks hs hf hcr hl ho hc h0
        · exact .of_same (by simpa [ho, hc, h0] using hopen) fun h => by cases h
    · exact .of_same (by simpa [ho] using hopen) fun h => by cases h
  · have hopen : openVirtualFile cfg s p flags c = (0, s) := by
      rw [openVirtualFile_some hf, if_neg hcr, if_neg hl]
    constructor
    · intro h
      obtain ⟨f', hf', ho, -⟩ := h.opened (by rw [hopen])
      rw [hopen] at hf'
      obtain rfl : f = f' := Option.some.inj (hf.symm.trans hf')
      exact Or.inr (Or.inr ho)
    · rintro (h | h | h)
      · exact absurd h hcr
      · exact absurd h hl
      · exact .of_same hopen fun _ => ⟨f, hf, h, fun h => absurd h hl⟩

end

/-! ## The file is absent -/

theorem openContract_none_iff (hs : s.WF cfg) (hf : getFileNode s.fileQueue p = none) :
    OpenContract cfg s p flags c ↔ flags.has O_CREATE ∨ flags.has O_LOCK ∨
      s.fileQueue.data.length = cfg.maxFile.toNat := by
  have hlen := hs.len
  have hcap := hs.cap
  have hopen := @openVirtualFile_none cfg s p c flags hs hf
  split_ifs at hopen with h1 h2
  · exact ⟨fun _ => Or.inr (Or.inl h1.1), fun _ => .of_same hopen fun h => by cases h⟩
  · exact ⟨fun _ => Or.inr (Or.inr (hlen ▸ h2)), fun _ => .of_same hopen fun h => by cases h⟩
  · have hfile : getFileNode (openVirtualFile cfg s p flags c).2.fileQueue p =
        some (newNode s.brk p flags c) := by
      rw [hopen, recordLen_queue]
      exact (push_lookup (n := newNode s.brk p flags c) hf).trans (if_pos rfl)
    constructor
    · intro h
      -- the new node must have been asked for
      refine Or.inl (h.added _ (getFileNode_mem hfile) fun m hm => ?_).1
      exact (hs.addr m hm).2.ne
    · intro h
      have hcr : flags.has O_CREATE := by
        rcases h with h | h | h
        · exact h
        · by_contra hcr
          exact h1 ⟨h, hcr⟩
        · exact absurd (hlen.trans h) h2
      constructor
      · intro _
        refine ⟨_, hfile, rfl, by simp [readVirtualFile, hfile, newNode], fun hl => ?_, fun f hf' => ?_⟩
        · simp [newNode, hl]
        · rw [hf] at hf'
          cases hf'
      · intro n _ _
        exact ⟨hcr, hf, by omega⟩
      · intro hres
        rw [hopen] at hres
        exact absurd rfl hres

/-- **When an open meets its contract.** -/
theorem openContract_iff (hs : Reachable cfg s) :
    OpenContract cfg s p flags c ↔ OpensRight cfg s.fileQueue p flags := by
  rw [OpensRight]
  cases hf : getFileNode s.fileQueue p with
  | some f => simp [openContract_some_iff hs.wf hf]
  | none => simp [openContract_none_iff hs.wf hf]

/-- A client has created a file with the lock and closed it. -/
def shut : Server where
  fileQueue := ⟨[⟨1, [47, 97], none, 0, 1, false⟩], 1⟩
  stats := ⟨1, 0, 0⟩
  log := [⟨⟨1, .OP_OPEN_FILE, [47, 97], O_CREATE ||| O_LOCK, 0⟩, 0, 0, none⟩,
    ⟨⟨1, .OP_CLOSE_FILE, [47, 97], 0, 0⟩, 0, 0, none⟩]
  brk := 2

theorem shut_reachable : Reachable ⟨8, 4⟩ shut := by
  have h : Handled ⟨8, 4⟩ InBounds shut := serve_handled Server.init [
    (⟨1, .OP_OPEN_FILE, [47, 97], O_CREATE ||| O_LOCK, 0⟩, .replicate 9 ⟨true, [], 0, NULL⟩),
    (⟨1, .OP_CLOSE_FILE, [47, 97], 0, 0⟩, .replicate 9 ⟨true, [], 0, NULL⟩)]
    (by decide +kernel) .init
  exact h.reachable

theorem openContract_shut : OpenContract ⟨8, 4⟩ shut [47, 97] O_LOCK 2 :=
  (openContract_iff shut_reachable).2 (Or.inr (Or.inl (by decide)))

/-- An open without flags answers `0` and leaves the file closed. -/
theorem not_openContract_shut : Reachable ⟨8, 4⟩ shut ∧
    (openVirtualFile ⟨8, 4⟩ shut [47, 97] 0 2).1 = 0 ∧ ¬ OpenContract ⟨8, 4⟩ shut [47, 97] 0 2 := by
  refine ⟨shut_reachable, by decide, fun h => ?_⟩
  obtain ⟨f', hf', ho, -⟩ := h.opened (by decide)
  have he : getFileNode (openVirtualFile ⟨8, 4⟩ shut [47, 97] 0 2).2.fileQueue [47, 97] =
      some ⟨1, [47, 97], none, 0, 1, false⟩ := by decide
  cases he.symm.trans hf'
  exact absurd ho (by decide)

end FileStorage
