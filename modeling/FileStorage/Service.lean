/-
  The workers' part in the conversations with their clients.

  A worker relies on what its calls tell it: the contents that it reads and
  stores are genuine.  Its ghost value bounds the files that its client holds,
  by the results of the calls; the client has not yet got these results.

  * `answers_controller`: every controller keeps to the protocol of its client;
  * `Tended`: what is stored is genuine, and every file that a client holds is
    within the bound of its worker;
  * `Tended.act`, `Tended.told`: an action of a worker keeps this, and what it reads is
    genuine.
-/
import FileStorage.Conversation
import FileStorage.Refinement

namespace FileStorage

open Threads Duplex

/-- What a worker's action sends or takes. -/
def workerTells : (a : Act) → a.Ans → Option (Label ToClient ToServer)
  | .write response, ok => if ok then some (.snd (.response response)) else none
  | .writeBytes buf, ok => if ok then some (sends .bytes buf) else none
  | .readData size, x => takes .bytes size x.1
  | .read size, buf => buf.bind fun buf => takes .bytes size buf
  | _, _ => some .tau

/-! ## The calls -/

/-- The files that the client may hold after a call. -/
def Call.held : (x : Call) → x.Ans → Set CString → Set CString
  | .lockVirtualFile p _, status, g => if status = 0 then insert p g else g
  | .openVirtualFile p flags _, status, g => if status = -2 then g else opened flags p status g
  | .unlockVirtualFile p _, _, g | .deleteVirtualFile p _, _, g => g \ {p}
  | _, _, g => g

section
variable (genuine : CString → List Byte → Prop) (pid : ℤ) (L : Set CString) (R : Prop)

/-- What a worker has to know for a call: it speaks for its client, takes a lock
    only while the client holds no files but those of `L`, and stores genuine
    contents.  No file is appended to or closed. -/
def Call.Needs (g : Set CString) : Call → Prop
  | .lockVirtualFile _ d => d = pid ∧ g ⊆ L
  | .openVirtualFile _ flags d => d = pid ∧ flags.has O_LOCK ∧ g ⊆ L
  | .unlockVirtualFile _ d | .deleteVirtualFile _ d => d = pid
  | .writeVirtualFile p buf size => genuine p buf ∧ buf.length = size
  | .appendVirtualFile _ _ _ | .closeVirtualFile _ _ => False
  | _ => True

/-- The call takes a lock, or waits for it. -/
def Call.takesLock : Call → Prop
  | .lockVirtualFile _ _ => True
  | .openVirtualFile _ flags _ => flags.has O_LOCK
  | _ => False

/-- The unset result of `readData` is not the one of an error. -/
def Replies : Ev workerSig Request → Prop
  | .did (.readData _) x => x.2 ≠ -1
  | _ => True

/-- What a call tells: the contents that it gives are genuine, and an expelled
    file is not empty. -/
def Call.Told : (x : Call) → x.Ans → Prop
  | .readVirtualFile p, res => ∀ buf size, res = some (buf, size) → buf.length = size ∧ genuine p buf
  | .deref _, f => f.size ≠ 0 ∧ (f.file.getD []).length = f.size ∧ genuine f.pathname (f.file.getD [])
  | _, _ => True

/-- The worker answers when its client may hold what it does, and returns after
    the answer or, unless `R`, with an unanswered write of no bytes. -/
def workerManners : Manners workerSig Talk (Set CString) where
  need a q g := match a with
    | .call x => (∃ r, q.stage = .asked r ∨ q.stage = .again r ∨ q.stage = .stored r) ∧
        x.Needs genuine pid L g
    | .write response => ∀ q', Talk.Down genuine q (.response response) q' → g ⊆ q'.held
    | .writeBytes buf => ∀ q', Talk.Down genuine q (.bytes buf) q' → g ⊆ q'.held
    | _ => True
  next a x g g' := match a, x with
    | .call x, y => g' = x.held y g ∧ x.Told genuine y
    | .readData size, x => g' = g ∧ x.1.length = size ∧ (R → x.2 ≠ -1)
    | .crash, _ => False
    | _, _ => g' = g
  post q g := (q.stage = .between ∨ ¬ R ∧ ∃ r, q.stage = .stored r) ∧ g ⊆ q.held

end

variable {genuine : CString → List Byte → Prop} {pid : ℤ} {L H g g' : Set CString} {q q' : Talk} {r : Request}
  {p : CString} {buf : List Byte} {n : ℕ} {cfg : Config}

theorem Call.Needs.lock {x : Call} (h : x.Needs genuine pid L g) (hx : x.takesLock) : g ⊆ L := by
  cases x with
  | lockVirtualFile => exact h.2
  | openVirtualFile => exact h.2.2
  | _ => exact hx.elim

section
variable {a : Act} {y : a.Ans}

/-- Only a call changes the bound. -/
theorem bound_eq (h : (workerManners genuine pid L R).next a y g g') (ha : ∀ x, a ≠ .call x) : g' = g := by
  cases a with
  | call x => exact absurd rfl (ha x)
  | readData => exact h.1
  | crash => exact h.elim
  | log | incNumFileReplacement | write | writeBytes | read => exact h

/-- What an action sends is no news to the worker. -/
theorem need_sends {m : ToClient} (hn : (workerManners genuine pid L R).need a q g)
    (hl : workerTells a y = some (.snd m)) (hq : Talk.Down genuine q m q') : g ⊆ q'.held := by
  cases a with
  | write response =>
    simp only [workerTells] at hl
    split_ifs at hl
    cases hl
    exact hn q' hq
  | writeBytes buf =>
    simp only [workerTells, sends] at hl
    split_ifs at hl
    · cases hl
    · cases hl
      exact hn q' hq
  | readData size =>
    simp only [workerTells, takes] at hl
    split_ifs at hl
    · cases hl
    · cases hl
  | read size =>
    obtain ⟨buf, -, hl⟩ := Option.bind_eq_some_iff.1 hl
    simp only [takes] at hl
    split_ifs at hl
    · cases hl
    · cases hl
  | call | log | incNumFileReplacement | crash => cases hl

end

/-- A program of the worker keeps to the protocol. -/
abbrev Answers (genuine : CString → List Byte → Prop) (pid : ℤ) (L : Set CString) (R : Prop) (q : Talk)
    (g : Set CString) (p : Code) : Prop :=
  p.Converses (talk genuine pid L).swap workerTells (workerManners genuine pid L R) q g

/-! ## The actions of a worker -/

theorem answers_call {x : Call} {k : x.Ans → Code}
    (hq : ∃ r, q.stage = .asked r ∨ q.stage = .again r ∨ q.stage = .stored r) (hn : x.Needs genuine pid L g)
    (h : ∀ y, x.Told genuine y → Answers genuine pid L R q (x.held y g) (k y)) :
    Answers genuine pid L R q g (.act (.call x) k) := by
  refine .silent (fun _ _ hl => (Option.some.inj hl).symm) ⟨hq, hn⟩ fun y g' _ hx => ?_
  obtain ⟨rfl, ht⟩ := hx
  exact h y ht

theorem answers_log {rd wr : ℤ} {rep : Option CString} {k : Code} (h : Answers genuine pid L R q g k) :
    Answers genuine pid L R q g (logRequest r rd wr rep k) := by
  refine .silent (fun _ _ hl => (Option.some.inj hl).symm) trivial fun _ g' _ hx => ?_
  cases hx
  exact h

theorem answers_count {k : Code} (h : Answers genuine pid L R q g k) :
    Answers genuine pid L R q g (.act .incNumFileReplacement fun _ => k) := by
  refine .silent (fun _ _ hl => (Option.some.inj hl).symm) trivial fun _ g' _ hx => ?_
  cases hx
  exact h

theorem workerTells_write {x : Response} {ok : Bool} {l : Label ToClient ToServer}
    (hl : workerTells (.write x) ok = some l) : ok = true ∧ l = .snd (.response x) := by
  rw [workerTells] at hl
  split_ifs at hl with hok
  exact ⟨hok, (Option.some.inj hl).symm⟩

theorem workerTells_writeBytes {ok : Bool} {l : Label ToClient ToServer}
    (hl : workerTells (.writeBytes buf) ok = some l) : ok = true ∧ l = sends .bytes buf := by
  rw [workerTells] at hl
  split_ifs at hl with hok
  exact ⟨hok, (Option.some.inj hl).symm⟩

theorem answers_response {x : Response} {k : Bool → Code} (hm : ∃ q', Talk.Down genuine q (.response x) q')
    (h : ∀ q', Talk.Down genuine q (.response x) q' → g ⊆ q'.held ∧ Answers genuine pid L R q' g (k true)) :
    Answers genuine pid L R q g (.act (.write x) k) := by
  refine .sends (fun _ _ hl => (workerTells_write hl).2) hm (fun q' hq => (h q' hq).1) fun ok q' g' hl hq hx => ?_
  obtain ⟨rfl, -⟩ := workerTells_write hl
  cases hx
  exact (h q' hq).2

/-- The worker sends a block that is not empty. -/
theorem answers_bytes {k : Bool → Code} (hne : buf ≠ []) (hm : ∃ q', Talk.Down genuine q (.bytes buf) q')
    (h : ∀ q', Talk.Down genuine q (.bytes buf) q' → g ⊆ q'.held ∧ Answers genuine pid L R q' g (k true)) :
    Answers genuine pid L R q g (.act (.writeBytes buf) k) := by
  have hsends : sends (I := ToServer) ToClient.bytes buf = .snd (.bytes buf) :=
    if_neg fun h0 => hne (List.length_eq_zero_iff.1 h0)
  refine .sends (fun _ _ hl => (workerTells_writeBytes hl).2.trans hsends) hm (fun q' hq => (h q' hq).1)
    fun ok q' g' hl hq hx => ?_
  obtain ⟨rfl, -⟩ := workerTells_writeBytes hl
  cases hx
  exact (h q' hq).2

/-- Sending no bytes is silent. -/
theorem answers_noBytes {k : Bool → Code} (h : Answers genuine pid L R q g (k true)) :
    Answers genuine pid L R q g (.act (.writeBytes []) k) := by
  have hno : ∀ q', ¬ Talk.Down genuine q (.bytes []) q' := fun q' hq => by
    cases hq with
    | body _ hne | expelled _ hne => exact hne rfl
  refine .silent (fun _ _ hl => (workerTells_writeBytes hl).2) (fun q' hq => absurd hq (hno q'))
    fun ok g' hl hx => ?_
  obtain ⟨rfl, -⟩ := workerTells_writeBytes hl
  cases hx
  exact h

/-- The worker reads the contents to be stored. -/
theorem answers_content {k : List Byte × ℤ → Code} (hsize : SizeOf genuine r.filepath r.fileSize)
    (hnil : ∀ p, genuine p [])
    (h : ∀ x, x.1.length = r.fileSize → genuine r.filepath x.1 → (R → x.2 ≠ -1) →
      Answers genuine pid L R ⟨.stored r, H⟩ g (k x)) :
    Answers genuine pid L R ⟨.content r, H⟩ g (.act (.readData r.fileSize) k) := by
  by_cases h0 : r.fileSize = 0
  · have hstage : Stage.content r = .stored r := if_pos h0
    have htells : ∀ (x : List Byte × ℤ) l, workerTells (.readData r.fileSize) x = some l → l = .tau := by
      intro x l hl
      rw [workerTells, takes, if_pos h0] at hl
      exact (Option.some.inj hl).symm
    rw [hstage]
    refine .silent htells trivial fun x g' _ hx => ?_
    obtain ⟨rfl, hlen, hR⟩ := hx
    exact h x hlen (List.length_eq_zero_iff.1 (hlen.trans h0) ▸ hnil _) hR
  · have hstage : Stage.content r = .receiving r := if_neg h0
    have htells : ∀ (x : List Byte × ℤ) l, workerTells (.readData r.fileSize) x = some l →
        l = .rcv (.bytes x.1) := by
      intro x l hl
      rw [workerTells, takes, if_neg h0] at hl
      split_ifs at hl
      exact (Option.some.inj hl).symm
    obtain ⟨content, hlen, hg⟩ := hsize
    have hne : content ≠ [] := fun he => h0 (by rw [← hlen, he]; rfl)
    rw [hstage]
    refine .reads (fun x l hl => ⟨_, htells x l hl⟩) ⟨_, _, Talk.Up.content hlen hne hg⟩ (fun m q' hm => ?_)
      trivial fun x m q' g' hl hq hx => ?_
    · cases hm with
      | @content _ _ buf hlen => exact ⟨(buf, 0), by rw [workerTells, takes_self hlen, if_neg h0]⟩
    · obtain ⟨rfl, -, hR⟩ := hx
      cases htells x _ hl
      cases hq with
      | content hlen _ hg => exact h x hlen hg hR

/-- The last answer. -/
theorem answers_last {x : Response} {k : Bool → Code} (hret : k true = .ret ∨ ∃ m, k true = .unlock m .ret)
    (hm : ∃ q', Talk.Down genuine q (.response x) q')
    (h : ∀ q', Talk.Down genuine q (.response x) q' → q'.stage = .between ∧ g ⊆ q'.held) :
    Answers genuine pid L R q g (.act (.write x) k) := by
  refine answers_response hm fun q' hq => ?_
  obtain ⟨hstage, hg⟩ := h q' hq
  refine ⟨hg, ?_⟩
  rcases hret with he | ⟨m, he⟩ <;> rw [he] <;> exact ⟨.inl hstage, hg⟩

/-- The answer to a request that is not about contents. -/
theorem answers_plain {x : Response} {k : Bool → Code} (hret : k true = .ret ∨ ∃ m, k true = .unlock m .ret)
    (hread : r.operation ≠ .OP_READ_FILE) (hwrite : r.operation ≠ .OP_WRITE_FILE)
    (hg : g ⊆ r.held x.statusCode H) : Answers genuine pid L R ⟨.asked r, H⟩ g (.act (.write x) k) := by
  refine answers_last hret ⟨_, .answer hread hwrite⟩ fun q' hq => ?_
  cases hq with
  | answer => exact ⟨rfl, hg⟩
  | refused ho => exact absurd ho (not_or.2 ⟨hread, hwrite⟩)
  | found ho => exact absurd ho hread
  | ready ho | expels ho => exact absurd ho hwrite

/-! ## The controllers -/

section
variable (hg : g ⊆ H)
include hg

theorem answers_openFile (hop : r.operation = .OP_OPEN_FILE) (hid : r.clientId = pid) (hlock : r.flags.has O_LOCK)
    (hask : r.asksLock → H ⊆ L) :
    Answers genuine pid L R ⟨.asked r, H⟩ g (openFileController r) := by
  refine answers_log (.lock (.lock ?_))
  refine .silentAwait (fun _ _ hl => (Option.some.inj hl).symm)
    ⟨⟨r, .inl rfl⟩, hid, hlock, hg.trans (hask (.inr ⟨hop, hlock⟩))⟩ fun status g' hx => ?_
  obtain ⟨rfl, -⟩ := hx
  by_cases hblocked : status = -2
  · rw [if_pos (decide_eq_true hblocked)]
    exact if_pos hblocked
  · rw [if_neg (by simpa using hblocked)]
    refine .unlock (answers_plain (.inr ⟨_, rfl⟩) (by rw [hop]; nofun) (by rw [hop]; nofun) ?_)
    show (if status = -2 then g else opened r.flags r.filepath status g) ⊆ _
    simp only [Request.held, hop, opened, if_neg hblocked]
    by_cases h0 : status = 0
    · simp only [h0, if_true, respond]
      exact Set.insert_subset_insert hg
    · simp only [h0, if_false, respond, show ¬ (-1 : ℤ) = 0 by decide]
      split_ifs
      · exact hg
      · exact Set.sdiff_subset_sdiff_left hg

theorem answers_lockFile (hop : r.operation = .OP_LOCK_FILE) (hid : r.clientId = pid)
    (hask : r.asksLock → H ⊆ L) :
    Answers genuine pid L R ⟨.asked r, H⟩ g (lockFileController r) := by
  refine answers_log (.lock (.lock ?_))
  refine .silentAwait (fun _ _ hl => (Option.some.inj hl).symm)
    ⟨⟨r, .inl rfl⟩, hid, hg.trans (hask (.inl hop))⟩ fun status g' hx => ?_
  obtain ⟨rfl, -⟩ := hx
  by_cases hblocked : status = -2
  · subst hblocked
    exact rfl
  · rw [if_neg (by simpa using hblocked)]
    refine .unlock (answers_plain (.inr ⟨_, rfl⟩) (by rw [hop]; nofun) (by rw [hop]; nofun) ?_)
    simp only [Request.held, hop, Call.held]
    by_cases h0 : status = 0
    · simp only [h0, if_true, respond]
      exact Set.insert_subset_insert hg
    · simp only [h0, if_false, respond, show ¬ (-1 : ℤ) = 0 by decide]
      exact hg

theorem answers_unlockFile (hop : r.operation = .OP_UNLOCK_FILE) (hid : r.clientId = pid) :
    Answers genuine pid L R ⟨.asked r, H⟩ g (unlockFileController r) := by
  have hread : r.operation ≠ .OP_READ_FILE := by rw [hop]; nofun
  have hwrite : r.operation ≠ .OP_WRITE_FILE := by rw [hop]; nofun
  have hsub : ∀ status, g \ {r.filepath} ⊆ r.held status H := fun status => by
    rw [Request.held, hop]
    exact Set.sdiff_subset_sdiff_left hg
  refine answers_log (.lock (answers_call ⟨r, .inl rfl⟩ hid fun y _ => ?_))
  split_ifs
  · exact .lock (.broadcast (.unlock (answers_plain (.inr ⟨_, rfl⟩) hread hwrite (hsub _))))
  · exact answers_plain (.inr ⟨_, rfl⟩) hread hwrite (hsub _)

theorem answers_deleteFile (hop : r.operation = .OP_DELETE_FILE) (hid : r.clientId = pid) :
    Answers genuine pid L R ⟨.asked r, H⟩ g (deleteFileController r) := by
  refine answers_log (.lock (answers_call ⟨r, .inl rfl⟩ hid fun y _ => ?_))
  refine answers_plain (.inr ⟨_, rfl⟩) (by rw [hop]; nofun) (by rw [hop]; nofun) ?_
  simp only [Request.held, hop]
  exact Set.sdiff_subset_sdiff_left hg

theorem answers_readNFiles (hop : r.operation = .OP_READ_N_FILES) :
    Answers genuine pid L R ⟨.asked r, H⟩ g (readnFileController r) := by
  have hread : r.operation ≠ .OP_READ_FILE := by rw [hop]; nofun
  have hwrite : r.operation ≠ .OP_WRITE_FILE := by rw [hop]; nofun
  have hsub : ∀ status, g ⊆ r.held status H := fun status => by
    rw [Request.held, hop]
    exact hg
  refine answers_log (.lock (answers_call ⟨r, .inl rfl⟩ trivial fun y _ => ?_))
  split_ifs
  · exact answers_plain (.inl rfl) hread hwrite (hsub _)
  · unfold readnFileBody
    cases y.2 with
    | none => exact .silent (fun _ _ hl => (Option.some.inj hl).symm) trivial fun _ _ _ hx => hx.elim
    | some fileList => exact answers_plain (.inr ⟨_, rfl⟩) hread hwrite (hsub _)

theorem answers_sendFile (hop : r.operation = .OP_READ_FILE) {k : ℤ → Code}
    (hk : ∀ res, Answers genuine pid L R ⟨.between, H⟩ g (k res)) :
    Answers genuine pid L R ⟨.asked r, H⟩ g (sendFileToClient r.filepath 0 k) := by
  refine answers_call ⟨r, .inl rfl⟩ trivial fun y hy => ?_
  cases y with
  | none =>
    refine answers_response ⟨_, .refused (.inl hop) rfl⟩ fun q' hq => ?_
    cases hq with
    | refused => exact ⟨hg, hk _⟩
    | answer ho => exact absurd hop ho
    | found _ hne => exact absurd rfl hne
    | ready ho | expels ho => rw [hop] at ho; cases ho
  | some y =>
    obtain ⟨hlen, hgen⟩ := hy y.1 y.2 rfl
    refine answers_response ⟨_, .found hop (by show (0 : ℤ) ≠ -1; decide) ⟨_, hlen, hgen⟩⟩ fun q' hq => ?_
    cases hq with
    | refused _ h0 => cases h0
    | answer ho => exact absurd hop ho
    | ready ho | expels ho => rw [hop] at ho; cases ho
    | found =>
      refine ⟨hg, ?_⟩
      show Answers genuine pid L R ⟨.body r.filepath y.2, H⟩ g (.act (.writeBytes y.1) _)
      by_cases h0 : y.2 = 0
      · have hstage : Stage.body r.filepath y.2 = .between := if_pos h0
        have hnil : y.1 = [] := List.length_eq_zero_iff.1 (hlen.trans h0)
        rw [hstage, hnil]
        exact answers_noBytes (hk _)
      · have hstage : Stage.body r.filepath y.2 = .fetching r.filepath y.2 := if_neg h0
        have hne : y.1 ≠ [] := fun he => h0 (by rw [← hlen, he]; rfl)
        rw [hstage]
        refine answers_bytes hne ⟨_, .body hlen hne hgen⟩ fun q' hq => ?_
        cases hq with
        | body => exact ⟨hg, hk _⟩

theorem answers_readFile (hop : r.operation = .OP_READ_FILE) :
    Answers genuine pid L R ⟨.asked r, H⟩ g (readFileController r) := by
  refine .lock (answers_sendFile hg hop fun res => ?_)
  split_ifs
  · exact answers_log ⟨.inl rfl, hg⟩
  · exact ⟨.inl rfl, hg⟩

omit hg in
/-- The first or second answer to a write: the worker is ready. -/
theorem down_ready {x : Response} {q' : Talk} (hop : r.operation = .OP_WRITE_FILE)
    (hq : q = ⟨.asked r, H⟩ ∨ q = ⟨.again r, H⟩) (hx : x.statusCode = 0) :
    Talk.Down genuine q (.response x) q' ↔ q' = ⟨.content r, H⟩ := by
  constructor
  · intro hd
    rcases hq with rfl | rfl
    · cases hd with
      | ready => rfl
      | answer _ ho => exact absurd hop ho
      | found ho => rw [hop] at ho; cases ho
      | refused _ h0 | expels _ h0 => rw [hx] at h0; cases h0
    · cases hd with
      | readyAgain => rfl
      | refusedAgain h0 => rw [hx] at h0; cases h0
  · rintro rfl
    rcases hq with rfl | rfl
    · exact .ready hop hx
    · exact .readyAgain hx

omit hg in
/-- It is a refusal. -/
theorem down_refused {x : Response} {q' : Talk} (hop : r.operation = .OP_WRITE_FILE)
    (hq : q = ⟨.asked r, H⟩ ∨ q = ⟨.again r, H⟩) (hx : x.statusCode = -1) :
    Talk.Down genuine q (.response x) q' ↔ q' = ⟨.between, H⟩ := by
  constructor
  · intro hd
    rcases hq with rfl | rfl
    · cases hd with
      | refused => rfl
      | answer _ ho => exact absurd hop ho
      | found ho => rw [hop] at ho; cases ho
      | ready _ h0 | expels _ h0 => rw [hx] at h0; cases h0
    · cases hd with
      | refusedAgain => rfl
      | readyAgain h0 => rw [hx] at h0; cases h0
  · rintro rfl
    rcases hq with rfl | rfl
    · exact .refused (.inr hop) hx
    · exact .refusedAgain hx

theorem answers_refusal {x : Response} {k : Bool → Code} (hret : k true = .ret ∨ ∃ m, k true = .unlock m .ret)
    (hop : r.operation = .OP_WRITE_FILE) (hq : q = ⟨.asked r, H⟩ ∨ q = ⟨.again r, H⟩)
    (hx : x.statusCode = -1) : Answers genuine pid L R q g (.act (.write x) k) := by
  refine answers_last hret ⟨_, (down_refused hop hq hx).2 rfl⟩ fun q' hd => ?_
  rw [(down_refused hop hq hx).1 hd]
  exact ⟨rfl, hg⟩

/-- `write_file_controller` from the lock check on. -/
theorem answers_writeFileBody (hnil : ∀ p, genuine p []) (hop : r.operation = .OP_WRITE_FILE)
    (hsize : SizeOf genuine r.filepath r.fileSize) (hq : q = ⟨.asked r, H⟩ ∨ q = ⟨.again r, H⟩) :
    Answers genuine pid L R q g (writeFileBody r) := by
  have hstage : ∃ r, q.stage = .asked r ∨ q.stage = .again r ∨ q.stage = .stored r := by
    rcases hq with rfl | rfl
    · exact ⟨r, .inl rfl⟩
    · exact ⟨r, .inr (.inl rfl)⟩
  refine answers_call hstage trivial fun y _ => ?_
  split_ifs
  · -- the client has the lock
    refine answers_response ⟨_, (down_ready hop hq rfl).2 rfl⟩ fun q' hd => ?_
    rw [(down_ready hop hq rfl).1 hd]
    refine ⟨hg, answers_content hsize hnil fun x hlen hgen hR => ?_⟩
    show Answers _ _ _ _ _ _ (if x.2 ≠ -1 then _ else _)
    split_ifs with hx
    · refine answers_call ⟨r, .inr (.inr rfl)⟩ ⟨hgen, hlen⟩ fun z _ => answers_last (.inr ⟨_, rfl⟩) ⟨_, .done⟩
        fun q' hd => ?_
      cases hd with
      | done => exact ⟨rfl, hg⟩
    · -- an unset result of `readData`: no answer
      exact ⟨.inr ⟨fun h => hx (hR h), r, rfl⟩, hg⟩
  · exact answers_refusal hg (.inr ⟨_, rfl⟩) hop hq rfl

/-- The worker sends the expelled file. -/
theorem answers_sendBuffer (hop : r.operation = .OP_WRITE_FILE) {data : Ptr} {k : Code}
    (hk : Answers genuine pid L R ⟨.again r, H⟩ g k) :
    Answers genuine pid L R ⟨.asked r, H⟩ g (sendBufferFileToClient data 1 k) := by
  refine answers_call ⟨r, .inl rfl⟩ trivial fun f hf => ?_
  obtain ⟨hsize, hlen, hgen⟩ := hf
  have hne : f.file.getD [] ≠ [] := fun he => hsize (by rw [← hlen, he]; rfl)
  have htake : (f.file.getD []).take f.size = f.file.getD [] := by rw [← hlen, List.take_length]
  refine answers_response ⟨_, .expels hop rfl hsize ⟨_, hlen, hgen⟩⟩ fun q' hd => ?_
  cases hd with
  | answer _ ho => exact absurd hop ho
  | refused _ h0 => cases h0
  | found ho => rw [hop] at ho; cases ho
  | ready _ h0 => cases h0
  | expels =>
    refine ⟨hg, ?_⟩
    rw [if_pos rfl, htake]
    refine answers_bytes hne ⟨_, .expelled hlen hne hgen⟩ fun q' hd => ?_
    cases hd with
    | expelled => exact ⟨hg, hk⟩

theorem answers_writeFile (hnil : ∀ p, genuine p []) (hop : r.operation = .OP_WRITE_FILE)
    (hsize : SizeOf genuine r.filepath r.fileSize) :
    Answers genuine pid L R ⟨.asked r, H⟩ g (writeFileController cfg r) := by
  refine .lock (answers_call ⟨r, .inl rfl⟩ trivial fun free _ => ?_)
  split_ifs with hbig hfree
  · exact answers_refusal hg (.inl rfl) hop (.inl rfl) rfl
  · refine answers_call ⟨r, .inl rfl⟩ trivial fun data _ => answers_sendBuffer hg hop ?_
    refine answers_call ⟨r, .inr (.inl rfl)⟩ trivial fun f _ => answers_log ?_
    refine answers_call ⟨r, .inr (.inl rfl)⟩ trivial fun res _ => ?_
    split_ifs
    · exact answers_count (answers_writeFileBody hg hnil hop hsize (.inr rfl))
    · exact answers_writeFileBody hg hnil hop hsize (.inr rfl)
  · exact answers_log (answers_writeFileBody hg hnil hop hsize (.inl rfl))

/-- **The controllers keep to the protocol.** -/
theorem answers_controller (hnil : ∀ p, genuine p []) (hid : r.clientId = pid) (hin : r.inSession)
    (hask : r.asksLock → H ⊆ L) (hsize : r.operation = .OP_WRITE_FILE → SizeOf genuine r.filepath r.fileSize) :
    Answers genuine pid L R ⟨.asked r, H⟩ g (controller cfg r) := by
  unfold controller
  unfold Request.inSession at hin
  cases hop : r.operation with
  | OP_OPEN_FILE =>
    rw [hop] at hin
    exact answers_openFile hg hop hid hin hask
  | OP_READ_FILE => exact answers_readFile hg hop
  | OP_DELETE_FILE => exact answers_deleteFile hg hop hid
  | OP_WRITE_FILE => exact answers_writeFile hg hnil hop (hsize hop)
  | OP_LOCK_FILE => exact answers_lockFile hg hop hid hask
  | OP_UNLOCK_FILE => exact answers_unlockFile hg hop hid
  | OP_READ_N_FILES => exact answers_readNFiles hg hop
  | OP_APPEND_FILE | OP_CLOSE_FILE | unknown =>
    rw [hop] at hin
    exact hin.elim

end

/-! ## The store -/

/-- A file of the store: open, with genuine contents, and held by a client within
    the bound of its worker, or by nobody. -/
structure Vouched {W : Type} (genuine : CString → List Byte → Prop) (pid : W → ℤ) (held : W → Set CString)
    (f : FileNode) : Prop where
  isOpen : f.isOpen
  genuine : genuine f.pathname f.content
  owned : f.clientId = 0 ∨ ∃ w, f.clientId = pid w
  held : ∀ w, f.clientId = pid w → f.pathname ∈ held w

section
variable {W : Type} [DecidableEq W] {ids : W → ℤ} {held : W → Set CString} {w : W} {f : FileNode}
  {qu : Queue FileNode} {s s' : Server} {G : Set CString}

/-- The bound of one worker has changed. -/
theorem Vouched.update (h : Vouched genuine ids held f) (hw : f.clientId = ids w → f.pathname ∈ G) :
    Vouched genuine ids (Function.update held w G) f := by
  refine ⟨h.isOpen, h.genuine, h.owned, fun u hu => ?_⟩
  by_cases huw : u = w
  · subst huw
    rw [Function.update_self]
    exact hw hu
  · rw [Function.update_of_ne huw]
    exact h.held u hu

theorem Vouched.grow (h : Vouched genuine ids held f) (hG : held w ⊆ G) :
    Vouched genuine ids (Function.update held w G) f :=
  h.update fun hf => hG (h.held w hf)

/-- The client of `w` does not hold the file `p`. -/
theorem Vouched.shrink (h : Vouched genuine ids held f) (hp : f.clientId = ids w → f.pathname ≠ p) :
    Vouched genuine ids (Function.update held w (held w \ {p})) f :=
  h.update fun hf => ⟨h.held w hf, hp hf⟩

/-- The file has been given to the client of `w`. -/
theorem Vouched.give (hinj : Function.Injective ids) (h : Vouched genuine ids held f) :
    Vouched genuine ids (Function.update held w (insert f.pathname (held w)))
      { f with clientId := ids w } := by
  refine ⟨h.isOpen, h.genuine, .inr ⟨w, rfl⟩, fun u hu => ?_⟩
  rw [hinj hu, Function.update_self]
  exact Set.mem_insert _ _

/-- The file is one of the queue, and not held by the client of `w` if it is `p`. -/
theorem vouched_without {qu' : Queue FileNode} (hkept : ∀ f ∈ qu.data, Vouched genuine ids held f)
    (h : ∀ n ∈ qu'.data, n ∈ qu.data ∧ (n.clientId = ids w → n.pathname ≠ p)) :
    ∀ n ∈ qu'.data, Vouched genuine ids (Function.update held w (held w \ {p})) n := fun n hn =>
  (hkept n (h n hn).1).shrink (h n hn).2

theorem vouched_lock (hinj : Function.Injective ids) (hq : qu.WF)
    (hkept : ∀ f ∈ qu.data, Vouched genuine ids held f) :
    ∀ f ∈ (lockVirtualFile qu p (ids w)).2.data, Vouched genuine ids (Function.update held w
      ((Call.lockVirtualFile p (ids w)).held (lockVirtualFile qu p (ids w)).1 (held w))) f := by
  have hgrow : held w ⊆ (Call.lockVirtualFile p (ids w)).held (lockVirtualFile qu p (ids w)).1 (held w) := by
    rw [Call.held]
    split_ifs
    · exact Set.subset_insert _ _
    · exact subset_rfl
  unfold lockVirtualFile at hgrow ⊢
  cases hf : getFileNode qu p with
  | none => exact fun n hn => (hkept n hn).grow (by simp only [hf] at hgrow; exact hgrow)
  | some f =>
    have hm := getFileNode_mem hf
    obtain rfl := getFileNode_pathname hf
    simp only [hf] at hgrow ⊢
    split_ifs at hgrow ⊢ with h1 h2 h3
    · exact fun n hn => (hkept n hn).grow hgrow
    · exact fun n hn => (hkept n hn).grow hgrow
    · intro n hn
      rcases (mem_modify hq hm).1 hn with rfl | ⟨hn, -⟩
      · exact (hkept f hm).give hinj
      · exact (hkept n hn).grow hgrow
    · exact fun n hn => (hkept n hn).grow hgrow

omit [DecidableEq W] in
/-- All files are open, so that a lock is refused only by `-2`, or as there is no
    such file. -/
theorem lockVirtualFile_open (hkept : ∀ f ∈ qu.data, Vouched genuine ids held f) {c : ℤ}
    (hf : getFileNode qu p = some f) :
    (lockVirtualFile qu p c).1 = 0 ∨ (lockVirtualFile qu p c).1 = -2 := by
  have ho := (hkept f (getFileNode_mem hf)).isOpen
  simp only [lockVirtualFile, hf, ho, Bool.not_true, Bool.false_eq_true, if_false]
  split_ifs <;> simp

/-- A file that the client of `w` creates. -/
theorem vouched_newNode (hinj : Function.Injective ids) (hne : ∀ w, ids w ≠ 0) {a : Ptr} {flags : Flags}
    (hnil : genuine p []) :
    Vouched genuine ids (Function.update held w (insert p (held w))) (newNode a p flags (ids w)) := by
  have hid : (newNode a p flags (ids w)).clientId = if flags.has O_LOCK then ids w else 0 := rfl
  refine ⟨rfl, hnil, ?_, fun u hu => ?_⟩
  · rw [hid]
    split_ifs
    · exact .inr ⟨w, rfl⟩
    · exact .inl rfl
  · rw [hid] at hu
    split_ifs at hu
    · rw [hinj hu, Function.update_self]
      exact Set.mem_insert _ _
    · exact absurd hu.symm (hne u)

theorem vouched_open (hinj : Function.Injective ids) (hne : ∀ w, ids w ≠ 0) (hnil : ∀ p, genuine p [])
    (hs : s.WF cfg)
    (hkept : ∀ f ∈ s.fileQueue.data, Vouched genuine ids held f) {flags : Flags} :
    ∀ f ∈ (openVirtualFile cfg s p flags (ids w)).2.fileQueue.data, Vouched genuine ids
      (Function.update held w ((Call.openVirtualFile p flags (ids w)).held
        (openVirtualFile cfg s p flags (ids w)).1 (held w))) f := by
  have hsame : ∀ n ∈ s.fileQueue.data, Vouched genuine ids (Function.update held w (held w)) n := fun n hn =>
    (hkept n hn).grow subset_rfl
  have hins : ∀ n ∈ s.fileQueue.data, Vouched genuine ids (Function.update held w (insert p (held w))) n :=
    fun n hn => (hkept n hn).grow (Set.subset_insert _ _)
  cases hf : getFileNode s.fileQueue p with
  | none =>
    have hnone : ∀ n ∈ s.fileQueue.data, n.pathname ≠ p := Keyed.lookup_eq_none.1 hf
    have hfail : ∀ n ∈ s.fileQueue.data, Vouched genuine ids
        (Function.update held w (opened flags p (-1) (held w))) n := by
      unfold opened
      rw [if_neg (by decide)]
      split_ifs
      · exact hsame
      · exact vouched_without hkept fun n hn => ⟨hn, fun _ => hnone n hn⟩
    rw [openVirtualFile_none hs hf]
    split_ifs
    · exact hfail
    · exact hfail
    · -- a new file
      rw [recordLen_queue]
      intro n hn
      rcases List.mem_append.1 hn with hn | hn
      · exact hins n hn
      · rw [List.mem_singleton.1 hn]
        exact vouched_newNode hinj hne (hnil p)
  | some f =>
    rw [openVirtualFile_some hf]
    split_ifs with hc hl
    · show ∀ n ∈ s.fileQueue.data, Vouched genuine ids (Function.update held w (opened flags p (-1) (held w))) n
      rw [opened, if_neg (by decide), if_pos hc]
      exact hsame
    · have hlock := vouched_lock (w := w) (p := p) hinj hs.toWF hkept
      rcases lockVirtualFile_open (c := ids w) hkept hf with h0 | h2
      · rw [h0] at hlock ⊢
        exact hlock
      · rw [h2] at hlock ⊢
        exact hlock
    · exact hins

/-- The client of `w` does not hold the file `p`. -/
theorem vouched_other (hq : qu.WF) (hkept : ∀ f ∈ qu.data, Vouched genuine ids held f)
    (h : ∀ f, getFileNode qu p = some f → f.clientId ≠ ids w) :
    ∀ n ∈ qu.data, Vouched genuine ids (Function.update held w (held w \ {p})) n :=
  vouched_without hkept fun n hn => ⟨hn, fun hw hp => h n (hq.getFileNode_iff.2 ⟨hn, hp⟩) hw⟩

/-- The file that a client unlocks or deletes. -/
theorem vouched_unlock (hne : ∀ w, ids w ≠ 0) (hq : qu.WF) (hkept : ∀ f ∈ qu.data, Vouched genuine ids held f) :
    ∀ f ∈ (unlockVirtualFile qu p (ids w)).2.data,
      Vouched genuine ids (Function.update held w (held w \ {p})) f := by
  unfold unlockVirtualFile
  cases hf : getFileNode qu p with
  | none => exact vouched_other hq hkept fun f hf' => by rw [hf] at hf'; cases hf'
  | some f =>
    have hm := getFileNode_mem hf
    have ho := (hkept f hm).isOpen
    simp only [ho, Bool.not_true, Bool.false_eq_true, if_false]
    by_cases hw : f.clientId = ids w
    · rw [if_pos hw]
      intro n hn
      rcases (mem_modify hq hm).1 hn with rfl | ⟨hn, ha⟩
      · exact ⟨ho, (hkept f hm).genuine, .inl rfl, fun u hu => absurd hu.symm (hne u)⟩
      · refine (hkept n hn).shrink fun _ hp => ha ?_
        rw [hq.getFileNode_iff.2 ⟨hn, hp⟩] at hf
        rw [Option.some.inj hf]
    · rw [if_neg hw]
      have h := vouched_other (w := w) hq hkept fun f' hf' => by rw [hf] at hf'; cases hf'; exact hw
      split_ifs <;> exact h

theorem vouched_delete (hs : s.WF cfg) (hkept : ∀ f ∈ s.fileQueue.data, Vouched genuine ids held f) :
    ∀ f ∈ (deleteVirtualFile s.fileQueue p (ids w)).2.data,
      Vouched genuine ids (Function.update held w (held w \ {p})) f := by
  have hq := hs.toWF
  cases hf : getFileNode s.fileQueue p with
  | none =>
    simp only [deleteVirtualFile, hf]
    exact vouched_other hq hkept fun f hf' => by rw [hf] at hf'; cases hf'
  | some f =>
    have hm := getFileNode_mem hf
    have ho := (hkept f hm).isOpen
    by_cases hw : f.clientId = ids w
    · rw [deleteVirtualFile_eq hf ho hw]
      refine vouched_without hkept fun n hn => ?_
      obtain ⟨hn, ha⟩ := (mem_remove hq hm (hs.addr f hm).1.ne').1 hn
      refine ⟨hn, fun _ hp => ha ?_⟩
      rw [hq.getFileNode_iff.2 ⟨hn, hp⟩] at hf
      rw [Option.some.inj hf]
    · simp only [deleteVirtualFile, hf, ho, hw, Bool.not_true, Bool.false_eq_true, if_false]
      exact vouched_other hq hkept fun f' hf' => by rw [hf] at hf'; cases hf'; exact hw

omit [DecidableEq W] in
theorem removeNode_subset {a : Ptr} (h : f ∈ (removeNode qu a).2.data) : f ∈ qu.data := by
  rw [removeNode] at h
  split_ifs at h
  · exact h
  · exact List.mem_of_mem_eraseP h
  · exact h

/-- Files of the queue, when the bound stays. -/
theorem vouched_subset {qu' : Queue FileNode} (hkept : ∀ f ∈ qu.data, Vouched genuine ids held f)
    (h : ∀ n ∈ qu'.data, n ∈ qu.data) :
    ∀ n ∈ qu'.data, Vouched genuine ids (Function.update held w (held w)) n := fun n hn =>
  (hkept n (h n hn)).grow subset_rfl

/-- The file that is written has the contents sent. -/
theorem vouched_write (hs : s.WF cfg) (hkept : ∀ f ∈ s.fileQueue.data, Vouched genuine ids held f)
    (hbuf : genuine p buf) :
    ∀ f ∈ (writeVirtualFile s p buf buf.length).2.fileQueue.data,
      Vouched genuine ids (Function.update held w (held w)) f := by
  unfold writeVirtualFile
  cases hf : getFileNode s.fileQueue p with
  | none =>
    simp only [recordSize_queue]
    exact vouched_subset hkept fun _ hn => hn
  | some f =>
    have hm := getFileNode_mem hf
    obtain rfl := getFileNode_pathname hf
    have hkf := hkept f hm
    simp only [hkf.isOpen, Bool.not_true, Bool.false_eq_true, if_false, recordSize_queue]
    intro n hn
    rcases (mem_modify hs.toWF hm).1 hn with rfl | ⟨hn, -⟩
    · refine Vouched.grow ⟨hkf.isOpen, ?_, hkf.owned, hkf.held⟩ subset_rfl
      show genuine f.pathname (memcpy (calloc buf.length) 0 (buf.take buf.length))
      rw [List.take_length, memcpy_calloc rfl]
      exact hbuf
    · exact (hkept n hn).grow subset_rfl

/-! ## The state -/

/-- The state is well formed, and all its files are kept. -/
structure Tended (cfg : Config) (genuine : CString → List Byte → Prop) (ids : W → ℤ)
    (held : W → Set CString) (s : Server) : Prop where
  wf : s.WF cfg
  kept : ∀ f ∈ s.fileQueue.data, Vouched genuine ids held f

/-- **A call of a worker.** -/
theorem Tended.call (hinj : Function.Injective ids) (hne : ∀ w, ids w ≠ 0) (hnil : ∀ p, genuine p [])
    (h : Tended cfg genuine ids held s) {x : Call} {e : Env} {y : x.Ans}
    (hn : x.Needs genuine (ids w) L (held w)) (hx : x.exec cfg e s = some (y, s')) :
    Tended cfg genuine ids (Function.update held w (x.held y (held w))) s' := by
  refine ⟨Call.exec_wf h.wf hx, ?_⟩
  have hq := h.wf.toWF
  have hsame : s'.fileQueue = s.fileQueue →
      ∀ f ∈ s'.fileQueue.data, Vouched genuine ids (Function.update held w (held w)) f := by
    intro he
    rw [he]
    exact vouched_subset h.kept fun _ hn => hn
  cases x with
  | getFreeSpace | expelFile | hasFileLock | readVirtualFile | getNFileList =>
    cases hx
    exact hsame rfl
  | deref a =>
    obtain ⟨f, -, hx⟩ := Option.map_eq_some_iff.1 hx
    cases hx
    exact hsame rfl
  | removeNode a =>
    cases hx
    exact vouched_subset h.kept fun n hn => removeNode_subset hn
  | openVirtualFile p flags d =>
    obtain ⟨rfl, -⟩ := hn
    obtain ⟨rfl, rfl⟩ := Prod.mk.inj (Option.some.inj hx)
    exact vouched_open hinj hne hnil h.wf h.kept
  | writeVirtualFile p buf size =>
    obtain ⟨hbuf, rfl⟩ := hn
    obtain ⟨rfl, rfl⟩ := Prod.mk.inj (Option.some.inj hx)
    exact vouched_write h.wf h.kept hbuf
  | lockVirtualFile p d =>
    obtain ⟨rfl, -⟩ := hn
    cases hx
    exact vouched_lock hinj hq h.kept
  | unlockVirtualFile p d =>
    cases hn
    cases hx
    exact vouched_unlock hne hq h.kept
  | deleteVirtualFile p d =>
    cases hn
    cases hx
    exact vouched_delete h.wf h.kept
  | appendVirtualFile | closeVirtualFile => exact hn.elim

omit [DecidableEq W] in
/-- **What a worker reads is genuine.** -/
theorem Tended.told (h : Tended cfg genuine ids held s) {x : Call} {e : Env} {y : x.Ans}
    (hx : x.exec cfg e s = some (y, s'))
    (hsize : ∀ a, x = .deref a → ∀ f, s.fileQueue.deref a = some f → f.size ≠ 0) :
    x.Told genuine y := by
  cases x with
  | deref a =>
    obtain ⟨f, hf, he⟩ := Option.map_eq_some_iff.1 hx
    obtain rfl := congrArg Prod.fst he
    have hm : f ∈ s.fileQueue.data := Keyed.lookup_mem hf
    exact ⟨hsize a rfl f hf, (h.wf.size f hm).symm, (h.kept f hm).genuine⟩
  | readVirtualFile p =>
    cases hx
    intro buf size hres
    rw [readVirtualFile_eq h.wf.toWF] at hres
    obtain ⟨content, hview, hpair⟩ := Option.map_eq_some_iff.1 hres
    cases hpair
    obtain ⟨f, hf, hopen⟩ := Option.bind_eq_some_iff.1 hview
    split_ifs at hopen
    cases hopen
    exact ⟨rfl, getFileNode_pathname hf ▸ (h.kept f (getFileNode_mem hf)).genuine⟩
  | _ => trivial

/-- **An action of a worker.** -/
theorem Tended.act (hinj : Function.Injective ids) (hne : ∀ w, ids w ≠ 0) (hnil : ∀ p, genuine p [])
    (h : Tended cfg genuine ids held s) {a : Act} {e : Env} {y : a.Ans}
    (hn : (workerManners genuine (ids w) L R).need a q (held w)) (hx : exec cfg a e s = some (y, s'))
    (hsize : ∀ b, a = .call (.deref b) → ∀ f, s.fileQueue.deref b = some f → f.size ≠ 0)
    (hR : R → Replies (.did a y)) :
    ∃ g', (workerManners genuine (ids w) L R).next a y (held w) g' ∧
      Tended cfg genuine ids (Function.update held w g') s' := by
  have hsame : (∀ x, a ≠ .call x) → Tended cfg genuine ids (Function.update held w (held w)) s' := fun ha => by
    rw [Function.update_eq_self]
    exact ⟨exec_wf h.wf hx, fun f hf => h.kept f (exec_queue hx ha ▸ hf)⟩
  cases a with
  | call x =>
    have hsize : ∀ b, x = .deref b → ∀ f, s.fileQueue.deref b = some f → f.size ≠ 0 := fun b hb =>
      hsize b (congrArg Act.call hb)
    exact ⟨_, ⟨rfl, h.told hx hsize⟩, h.call hinj hne hnil hn.2 hx⟩
  | readData size =>
    have hlen : y.1.length = size := by
      cases hx
      simp [received]
    exact ⟨_, ⟨rfl, hlen, hR⟩, hsame fun x hx => by cases hx⟩
  | crash => cases hx
  | log | incNumFileReplacement | write | writeBytes | read => exact ⟨_, rfl, hsame fun x hx => by cases hx⟩

end

end FileStorage
