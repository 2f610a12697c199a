/-
  The high-water marks `max_num_file` and `max_file_storage_size`.

  A run of calls keeps the states after its calls, and the marks of the last
  state are compared with the maxima over the run (`ExactMarks`).  A call either
  leaves the marks and lets neither figure grow, or makes a file, or stores
  bytes (`Figures`); the marks are raised by the last two.

  `setMaxNumFile` takes an `int` but the length is an `unsigned long`: the marks
  are exact as long as no file is made where there are `INT_MAX` already
  (`exactMarks_iff`).
-/
import FileStorage.Capacity
import FileStorage.Decimal

namespace FileStorage

variable {cfg : Config} {s s' : Server} {h : List (Call × Server)}

/-! ## Runs of calls -/

/-- The state after a run, given as its calls with the states after them, the
    last one first. -/
def lastState : List (Call × Server) → Server
  | [] => Server.init
  | (_, s) :: _ => s

/-- The runs of calls from the initial state. -/
inductive Played (cfg : Config) : List (Call × Server) → Prop
  | nil : Played cfg []
  | call {h c e x s} : Played cfg h → Call.exec cfg e (lastState h) c = some (x, s) →
      Played cfg ((c, s) :: h)

theorem Played.wf (hp : Played cfg h) : (lastState h).WF cfg := by
  induction hp with
  | nil => exact .init cfg
  | call _ hx ih => exact Call.exec_wf ih hx

/-- The greatest number of files in a run. -/
def mostFiles (h : List (Call × Server)) : ℕ := (h.map (·.2.fileQueue.len)).foldr max 0

/-- The greatest number of stored bytes in a run. -/
def mostBytes (h : List (Call × Server)) : ℕ := (h.map (·.2.fileQueue.total)).foldr max 0

/-- The marks of the last state are the maxima over the run. -/
structure ExactMarks (h : List (Call × Server)) : Prop where
  files : (lastState h).stats.maxNumFile = mostFiles h
  bytes : (lastState h).stats.maxFileStorageSize = mostBytes h

/-- The stored total fits in an `int` in every state of the run. -/
def TotalFits (h : List (Call × Server)) : Prop := ∀ x ∈ h, x.2.fileQueue.total ≤ INT_MAX

instance : Decidable (TotalFits h) := inferInstanceAs (Decidable (∀ x ∈ h, _))

theorem lastState_len_le : (lastState h).fileQueue.len ≤ mostFiles h := by
  cases h with
  | nil => exact Nat.zero_le _
  | cons x h => exact le_max_left _ _

theorem lastState_total_le : (lastState h).fileQueue.total ≤ mostBytes h := by
  cases h with
  | nil => exact Nat.zero_le _
  | cons x h => exact le_max_left _ _

/-! ## What a call does to the figures -/

/-- The call makes a file. -/
def Creates (cfg : Config) (s : Server) : Call → Prop
  | .openVirtualFile p flags _ => getFileNode s.fileQueue p = none ∧
      s.fileQueue.len ≠ cfg.maxFile.toNat ∧ (flags.has O_LOCK → flags.has O_CREATE)
  | _ => False

/-- The calls, by what they do to the number of files, the stored bytes and the
    statistics. -/
inductive Figures (cfg : Config) (s : Server) : Call → Server → Prop
  | kept {c} {s' : Server} : s'.stats = s.stats → s'.fileQueue.len ≤ s.fileQueue.len →
      s'.fileQueue.total ≤ s.fileQueue.total → Figures cfg s c s'
  | created {c} {t : Server} : Creates cfg s c → t.stats = s.stats → t.fileQueue.len = s.fileQueue.len + 1 →
      t.fileQueue.total = s.fileQueue.total → Figures cfg s c t.recordLen
  | stored {c} {t : Server} : t.stats = s.stats → t.fileQueue.len = s.fileQueue.len →
      Figures cfg s c t.recordSize

theorem removeNode_len_le {q : Queue FileNode} {a : Ptr} : (removeNode q a).2.len ≤ q.len := by
  rw [removeNode]
  split_ifs
  · exact le_rfl
  · exact Nat.sub_le _ _
  · exact le_rfl

/-- A change that keeps the size of a node keeps the stored bytes. -/
theorem total_modify_eq {q : Queue FileNode} {f : FileNode} {g : FileNode → FileNode} (hq : q.WF)
    (hf : f ∈ q.data) (hg : (g f).size = f.size) : (q.modify f.addr g).total = q.total := by
  have := total_modify (g := g) hq hf
  omega

/-- A call that only reads or changes the queue lets neither figure grow. -/
theorem Effect.figures {c : Call} {q : Queue FileNode} {b : Ptr} (hs : s.WF cfg)
    (he : Effect cfg s c q b) (ho : ∀ p flags id, c ≠ .openVirtualFile p flags id)
    (hw : ∀ p buf n, c ≠ .writeVirtualFile p buf n)
    (ha : ∀ p buf n, c ≠ .appendVirtualFile p buf n) :
    q.len ≤ s.fileQueue.len ∧ q.total ≤ s.fileQueue.total := by
  cases he with
  | same => exact ⟨le_rfl, le_rfl⟩
  | created => exact absurd rfl (ho _ _ _)
  | opened => exact absurd rfl (ho _ _ _)
  | written => exact absurd rfl (hw _ _ _)
  | appended => exact absurd rfl (ha _ _ _)
  | locked hf | unlocked hf | closed hf =>
    exact ⟨le_rfl, (total_modify_eq hs.toWF (getFileNode_mem hf) rfl).le⟩
  | deleted | removed => exact ⟨removeNode_len_le, total_remove_le _⟩

theorem lockVirtualFile_figures {p : CString} {id : ℤ} (hs : s.WF cfg) :
    (lockVirtualFile s.fileQueue p id).2.len = s.fileQueue.len ∧
      (lockVirtualFile s.fileQueue p id).2.total = s.fileQueue.total := by
  rw [lockVirtualFile]
  split
  · exact ⟨rfl, rfl⟩
  · split_ifs
    · exact ⟨rfl, rfl⟩
    · exact ⟨rfl, rfl⟩
    · exact ⟨rfl, total_modify_eq hs.toWF (getFileNode_mem ‹_›) rfl⟩
    · exact ⟨rfl, rfl⟩

theorem openVirtualFile_figures {p : CString} {flags : Flags} {id : ℤ} (hs : s.WF cfg) :
    Figures cfg s (.openVirtualFile p flags id) (openVirtualFile cfg s p flags id).2 := by
  cases hf : getFileNode s.fileQueue p with
  | some f =>
    rw [openVirtualFile_some hf]
    split_ifs
    · exact .kept rfl le_rfl le_rfl
    · obtain ⟨h1, h2⟩ := @lockVirtualFile_figures _ _ p id hs
      exact .kept rfl h1.le h2.le
    · exact .kept rfl le_rfl le_rfl
  | none =>
    rw [openVirtualFile_none hs hf]
    split_ifs with h1 h2
    · exact .kept rfl le_rfl le_rfl
    · exact .kept rfl le_rfl le_rfl
    · refine .created ⟨hf, h2, fun hl => ?_⟩ rfl rfl ?_
      · exact not_not.1 fun hc => h1 ⟨hl, hc⟩
      · simp [Queue.total, push, newNode]

theorem writeVirtualFile_figures {p : CString} {buf : List Byte} {n : ℕ} :
    Figures cfg s (.writeVirtualFile p buf n) (writeVirtualFile s p buf n).2 := by
  rw [writeVirtualFile]
  split
  · exact .stored rfl rfl
  · split_ifs
    · exact .kept rfl le_rfl le_rfl
    · exact .stored rfl rfl

theorem appendVirtualFile_figures {p : CString} {buf : List Byte} {n : ℕ} :
    Figures cfg s (.appendVirtualFile p buf n) (appendVirtualFile s p buf n).2 := by
  rw [appendVirtualFile]
  split
  · exact .stored rfl rfl
  · split_ifs
    · exact .kept rfl le_rfl le_rfl
    · exact .stored rfl rfl

/-- **What a call does to the figures.** -/
theorem Call.exec_figures {e : Env} {c : Call} {x : c.Ans} (hs : s.WF cfg)
    (hx : c.exec cfg e s = some (x, s')) : Figures cfg s c s' := by
  have heff := Call.effect hx
  -- the calls that do not touch the statistics
  have hkept : s'.stats = s.stats → (∀ p flags id, c ≠ .openVirtualFile p flags id) →
      (∀ p buf n, c ≠ .writeVirtualFile p buf n) → (∀ p buf n, c ≠ .appendVirtualFile p buf n) →
      Figures cfg s c s' := by
    intro hst ho hw ha
    obtain ⟨h1, h2⟩ := heff.figures hs ho hw ha
    exact .kept hst h1 h2
  cases c with
  | openVirtualFile p flags id =>
    obtain rfl : (FileStorage.openVirtualFile cfg s p flags id).2 = s' :=
      congrArg Prod.snd (Option.some.inj hx)
    exact openVirtualFile_figures hs
  | writeVirtualFile p buf n =>
    obtain rfl : (FileStorage.writeVirtualFile s p buf n).2 = s' :=
      congrArg Prod.snd (Option.some.inj hx)
    exact writeVirtualFile_figures
  | appendVirtualFile p buf n =>
    obtain rfl : (FileStorage.appendVirtualFile s p buf n).2 = s' :=
      congrArg Prod.snd (Option.some.inj hx)
    exact appendVirtualFile_figures
  | deref node =>
    obtain ⟨f, -, hx⟩ := Option.map_eq_some_iff.1 hx
    cases hx
    exact .kept rfl le_rfl le_rfl
  | _ => cases hx; exact hkept rfl (by simp) (by simp) (by simp)

/-! ## The marks -/

/-- The mark of the files is an `int`. -/
theorem Played.maxNumFile_le (hp : Played cfg h) : (lastState h).stats.maxNumFile ≤ INT_MAX := by
  induction hp with
  | nil => decide
  | @call h c e x s hp hx ih =>
    change s.stats.maxNumFile ≤ INT_MAX
    cases Call.exec_figures hp.wf hx with
    | kept hst => rw [hst]; exact ih
    | created _ hst =>
      rw [recordLen_stats]
      dsimp only
      split_ifs
      · exact (i32_bounds _).2
      · rw [hst]; exact ih
    | stored hst => rw [recordSize_stats, hst]; exact ih

/-- Where the marks are exact, there have been at most `INT_MAX` files. -/
theorem ExactMarks.mostFiles_le (hm : ExactMarks h) (hp : Played cfg h) : mostFiles h ≤ INT_MAX := by
  have hle := hp.maxNumFile_le
  rw [hm.files] at hle
  exact_mod_cast hle

/-- A new file raises the mark of the files. -/
theorem recordLen_files {m : ℕ} (hm : s.stats.maxNumFile = m) (hm' : m ≤ INT_MAX)
    (hl : s.fileQueue.len ≤ INT_MAX) :
    s.recordLen.stats.maxNumFile = (max s.fileQueue.len m : ℕ) := by
  rw [INT_MAX] at hm' hl
  have hu : u64 m = m := u64_eq (by omega) (by omega)
  have hi : i32 s.fileQueue.len = s.fileQueue.len := i32_eq (by omega) (by omega)
  rw [recordLen_stats, hm, hu, hi]
  dsimp only
  split_ifs <;> omega

/-- Stored bytes raise the mark of the bytes. -/
theorem recordSize_bytes {m : ℕ} (hm : s.stats.maxFileStorageSize = m)
    (ht : s.fileQueue.total ≤ INT_MAX) :
    s.recordSize.stats.maxFileStorageSize = (max s.fileQueue.total m : ℕ) := by
  rw [INT_MAX] at ht
  have hi : i32 s.fileQueue.total = s.fileQueue.total := i32_eq (by omega) (by omega)
  rw [recordSize_stats, getStorageSize_eq, hi, hm]
  dsimp only
  omega

/-- **One call keeps the marks exact**, unless it makes a file too many. -/
theorem ExactMarks.call {c : Call} {e : Env} {x : c.Ans} (hm : ExactMarks h) (hp : Played cfg h)
    (hx : c.exec cfg e (lastState h) = some (x, s)) (ht : s.fileQueue.total ≤ INT_MAX)
    (hc : Creates cfg (lastState h) c → (lastState h).fileQueue.len < INT_MAX) :
    ExactMarks ((c, s) :: h) := by
  have hlen : (lastState h).fileQueue.len ≤ mostFiles h := lastState_len_le
  have htot : (lastState h).fileQueue.total ≤ mostBytes h := lastState_total_le
  refine ⟨?_, ?_⟩
  · change s.stats.maxNumFile = (max s.fileQueue.len (mostFiles h) : ℕ)
    cases Call.exec_figures hp.wf hx with
    | kept hst hl =>
      rw [hst, hm.files, max_eq_right (hl.trans hlen)]
    | created hcr hst hl =>
      have hlt := hc hcr
      rw [recordLen_files (hst ▸ hm.files) (hm.mostFiles_le hp) (by omega), recordLen_queue]
    | stored hst hl =>
      rw [recordSize_stats, recordSize_queue, hst, hl, max_eq_right hlen]
      exact hm.files
  · change s.stats.maxFileStorageSize = (max s.fileQueue.total (mostBytes h) : ℕ)
    cases Call.exec_figures hp.wf hx with
    | kept hst _ hl =>
      rw [hst, hm.bytes, max_eq_right (hl.trans htot)]
    | created _ hst _ hl =>
      rw [recordLen_stats, recordLen_queue, hst, hl, max_eq_right htot]
      exact hm.bytes
    | stored hst =>
      rw [recordSize_queue] at ht ⊢
      rw [recordSize_bytes (hst ▸ hm.bytes) ht]

/-- No file is made where there are `INT_MAX` already. -/
def CreatesBelow (cfg : Config) (h : List (Call × Server)) : Prop :=
  ∀ c s h', (c, s) :: h' <:+ h → Creates cfg (lastState h') c → (lastState h').fileQueue.len < INT_MAX

theorem Played.suffix {h' : List (Call × Server)} (hp : Played cfg h) (hs : h' <:+ h) :
    Played cfg h' := by
  induction hp with
  | nil => rw [List.suffix_nil.1 hs]; exact .nil
  | call hp hx ih =>
    rcases List.suffix_cons_iff.1 hs with rfl | hs
    · exact hp.call hx
    · exact ih hs

theorem Played.exactMarks (hp : Played cfg h) (ht : TotalFits h) (hc : CreatesBelow cfg h) :
    ExactMarks h := by
  induction hp with
  | nil => exact ⟨rfl, rfl⟩
  | call hp hx ih =>
    have hm := ih (fun x hx => ht x (List.mem_cons_of_mem _ hx)) fun c s h' hs =>
      hc c s h' (hs.trans (List.suffix_cons _ _))
    exact hm.call hp hx (ht _ List.mem_cons_self) (hc _ _ _ (List.suffix_refl _))

/-- The length after a call that makes a file. -/
theorem Played.created_len {c : Call} (hp : Played cfg ((c, s) :: h))
    (hc : Creates cfg (lastState h) c) : s.fileQueue.len = (lastState h).fileQueue.len + 1 := by
  cases hp with
  | call hp hx =>
    cases c with
    | openVirtualFile p flags id =>
      obtain ⟨hn, hl, hf⟩ := hc
      have hx' := congrArg Prod.snd (Option.some.inj hx)
      rw [openVirtualFile_none hp.wf hn, if_neg fun ho => ho.2 (hf ho.1), if_neg hl] at hx'
      obtain rfl : Server.recordLen _ = s := hx'
      exact congrArg Queue.len recordLen_queue
    | _ => exact hc.elim

/-- **The marks are exact throughout a run, if and only if no file is made where
    there are `INT_MAX` already.** -/
theorem exactMarks_iff (hp : Played cfg h) (ht : TotalFits h) :
    (∀ h', h' <:+ h → ExactMarks h') ↔ CreatesBelow cfg h := by
  constructor
  · intro hm c s h' hs hc
    have hmost := (hm _ hs).mostFiles_le (hp.suffix hs)
    have hlen := lastState_len_le (h := (c, s) :: h')
    have hnew := (hp.suffix hs).created_len hc
    rw [lastState] at hlen
    omega
  · intro hc h' hs
    refine (hp.suffix hs).exactMarks (fun x hx => ht x (hs.subset hx)) fun c s h'' hs' => ?_
    exact hc c s h'' (hs'.trans hs)

theorem Played.openVirtualFile (hp : Played cfg h) (p : CString) (flags : Flags) (id : ℤ) :
    Played cfg ((.openVirtualFile p flags id,
      (FileStorage.openVirtualFile cfg (lastState h) p flags id).2) :: h) :=
  hp.call (e := ⟨true, [], 0, NULL⟩) rfl

/-- Two files are made in a store for ten. -/
theorem exactMarks_two :
    let s₁ := (openVirtualFile ⟨1000, 10⟩ Server.init (str "a") O_CREATE 1).2
    let s₂ := (openVirtualFile ⟨1000, 10⟩ s₁ (str "b") O_CREATE 1).2
    let h : List (Call × Server) :=
      [(.openVirtualFile (str "b") O_CREATE 1, s₂), (.openVirtualFile (str "a") O_CREATE 1, s₁)]
    (∀ h', h' <:+ h → ExactMarks h') ↔ CreatesBelow ⟨1000, 10⟩ h :=
  exactMarks_iff ((Played.nil.openVirtualFile _ _ _).openVirtualFile _ _ _) (by decide +kernel)

/-! ## A run that makes files -/

/-- `n` files made one after the other, named by their numbers. -/
def makeFiles (cfg : Config) : ℕ → List (Call × Server)
  | 0 => []
  | n + 1 => (.openVirtualFile (Logger.decimal n) O_CREATE 1,
      (openVirtualFile cfg (lastState (makeFiles cfg n)) (Logger.decimal n) O_CREATE 1).2) ::
        makeFiles cfg n

theorem makeFiles_played (n : ℕ) : Played cfg (makeFiles cfg n) := by
  induction n with
  | zero => exact .nil
  | succ n ih => exact ih.openVirtualFile _ _ _

/-- The queue after the files have been made. -/
structure Made (n : ℕ) (q : Queue FileNode) : Prop where
  len : q.len = n
  total : q.total = 0
  names : ∀ m : ℕ, getFileNode q (Logger.decimal m) ≠ none → m < n

theorem makeFiles_made {n : ℕ} (hn : n ≤ cfg.maxFile.toNat) :
    Made n (lastState (makeFiles cfg n)).fileQueue := by
  induction n with
  | zero => exact ⟨rfl, rfl, fun m hm => absurd rfl hm⟩
  | succ n ih =>
    have hmade := ih (by omega)
    generalize hs : lastState (makeFiles cfg n) = s at hmade
    have hwf : s.WF cfg := hs ▸ (makeFiles_played n).wf
    have hnew : getFileNode s.fileQueue (Logger.decimal n) = none := by
      by_contra hne
      exact absurd (hmade.names n hne) (lt_irrefl n)
    have hlen : s.fileQueue.len ≠ cfg.maxFile.toNat := by
      have := hmade.len
      omega
    have hq : (lastState (makeFiles cfg (n + 1))).fileQueue =
        (push s.fileQueue (newNode s.brk (Logger.decimal n) O_CREATE 1)).2 := by
      rw [makeFiles, lastState, hs, openVirtualFile_none hwf hnew, if_neg (by decide), if_neg hlen]
      exact recordLen_queue
    rw [hq]
    refine ⟨congrArg (· + 1) hmade.len, ?_, fun m hm => ?_⟩
    · have := hmade.total
      rw [Queue.total] at this
      simp [Queue.total, push, newNode, this]
    · rw [push_lookup (n := newNode s.brk (Logger.decimal n) O_CREATE 1) hnew] at hm
      split_ifs at hm with heq
      · obtain rfl : m = n := Logger.decimal_injective heq
        exact Nat.lt_succ_self m
      · exact (hmade.names m hm).trans (Nat.lt_succ_self n)

theorem makeFiles_fits {n : ℕ} (hn : n ≤ cfg.maxFile.toNat) : TotalFits (makeFiles cfg n) := by
  induction n with
  | zero => exact fun x hx => absurd hx List.not_mem_nil
  | succ n ih =>
    intro x hx
    rcases List.mem_cons.1 hx with rfl | hx
    · exact (makeFiles_made hn).total.le.trans (Nat.zero_le _)
    · exact ih (by omega) x hx

/-- With more than `INT_MAX` files the mark of the files is wrong. -/
theorem makeFiles_not_exact {n : ℕ} (hn : n ≤ cfg.maxFile.toNat) (hmax : INT_MAX < n) :
    ¬ ExactMarks (makeFiles cfg n) := by
  intro hm
  have hmost := hm.mostFiles_le (makeFiles_played n)
  have hlen := lastState_len_le (h := makeFiles cfg n)
  have := (makeFiles_made hn).len
  omega

/-- A store that takes `UINT_MAX` files. -/
def wideConfig : Config := ⟨1000, 4294967295⟩

/-- One file more than an `int` can count. -/
theorem not_exactMarks_wide :
    Played wideConfig (makeFiles wideConfig (INT_MAX + 1)) ∧
      TotalFits (makeFiles wideConfig (INT_MAX + 1)) ∧
      ¬ ExactMarks (makeFiles wideConfig (INT_MAX + 1)) :=
  have hn : INT_MAX + 1 ≤ wideConfig.maxFile.toNat := by decide
  ⟨makeFiles_played _, makeFiles_fits hn, makeFiles_not_exact hn (Nat.lt_succ_self _)⟩

end FileStorage
