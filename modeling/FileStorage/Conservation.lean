/-
  Conservation of files.

  A file that has been created is in the queue until a delete request of its
  holder removes it, or until it is expelled by a write or append, whose client
  gets it first.  A node is known by its address.

  * `Change` lists what a request does to the nodes; `controller_change` says
    that every request does one of these.
  * `conservation` follows each node through a run of requests whose actions are
    `InBounds`; one that runs past its block may overwrite a node.
-/
import FileStorage.Capacity

namespace FileStorage

open Threads Prog

variable {cfg : Config} {s s' : Server} {r : Request} {t : List (Done workerSig)} {o : Outcome}

/-- The addresses of the nodes in the queue, in their order. -/
def addrs (s : Server) : List Ptr := s.fileQueue.data.map (·.addr)

theorem addrs_lt (hs : s.WF cfg) {a : Ptr} (ha : a ∈ addrs s) : NULL < a ∧ a < s.brk := by
  obtain ⟨f, hf, rfl⟩ := List.mem_map.1 ha
  exact hs.addr f hf

/-! ## Actions that keep the nodes -/

/-- The actions that add or remove a node. -/
def Act.relinks : Act → ℕ
  | .call (.openVirtualFile _ _ _) | .call (.deleteVirtualFile _ _) | .call (.removeNode _) => 1
  | _ => 0

theorem Act.relinks_of_calm (a : Act) (ha : a.calm = true) : a.relinks = 0 := by
  unfold Act.relinks
  split
  · cases ha
  · cases ha
  · cases ha
  · rfl

theorem exec_effect {c : Call} {e : Env} {x : c.Ans} (h : exec cfg (.call c) e s = some (x, s')) :
    Effect cfg s c s'.fileQueue s'.brk := Call.effect h

theorem addrs_modify {q : Queue FileNode} {a : Ptr} {g : FileNode → FileNode} (hg : Keeps g) :
    (q.modify a g).data.map (·.addr) = q.data.map (·.addr) :=
  Keyed.map_key_map fun n => by split_ifs; exacts [hg.addr n, rfl]

theorem exec_addrs {a : Act} {e : Env} {x : a.Ans} (ha : a.relinks = 0)
    (h : exec cfg a e s = some (x, s')) : addrs s' = addrs s ∧ s'.brk = s.brk := by
  cases a with
  | call c =>
    have heff := Call.effect h
    rw [addrs, addrs]
    generalize s'.fileQueue = q' at heff ⊢
    generalize s'.brk = b at heff ⊢
    cases heff with
    | same => exact ⟨rfl, rfl⟩
    | locked | unlocked | closed | written => exact ⟨addrs_modify ⟨fun _ => rfl, fun _ => rfl⟩, rfl⟩
    | appended => exact ⟨addrs_modify
        ⟨fun n => by cases n.file <;> rfl, fun n => by cases n.file <;> rfl⟩, rfl⟩
    | created | opened | deleted | removed => cases ha
  | crash => cases h
  | _ => cases h; exact ⟨rfl, rfl⟩

open Classical in
/-- A program without such actions keeps the nodes. -/
theorem runs_addrs {p : Code} (h : Runs (exec cfg) p s t o s') (hp : Budget Act.relinks p 0) :
    addrs s' = addrs s ∧ s'.brk = s.brk := by
  let m : Server → ℕ := fun s₁ => if addrs s₁ = addrs s ∧ s₁.brk = s.brk then 0 else 1
  have hstep : ∀ a e s₁ x s₂, True → exec cfg a e s₁ = some (x, s₂) → True ∧ m s₂ ≤ m s₁ + a.relinks := by
    intro a e s₁ x s₂ _ hx
    refine ⟨trivial, ?_⟩
    have hle : m s₂ ≤ 1 := by simp only [m]; split_ifs <;> omega
    by_cases ha : a.relinks = 0
    · obtain ⟨h1, h2⟩ := exec_addrs ha hx
      simp only [m, h1, h2]
      omega
    · omega
  have hm := (h.budget hstep trivial 0 hp).2
  have hm₀ : m s = 0 := if_pos ⟨rfl, rfl⟩
  by_contra hne
  have hm₁ : m s' = 1 := if_neg hne
  omega

/-! ## The further attempts of a request -/

/-- The part of a controller that a worker repeats when it is woken. -/
def attempt (r : Request) : Code :=
  match r.operation with
  | .OP_OPEN_FILE =>
    .await (.call (.openVirtualFile r.filepath r.flags r.clientId))
      (fun status : ℤ => status = -2) [.fileQueueMutex] .fileLockCond .fileLockMutex
      fun status : ℤ =>
    .unlock .fileLockMutex <|
    .act (.write (if status = 0 then respond 0 (str "File opened!")
      else respond (-1) (str "Impossibile aprire il file!"))) fun _ =>
    .unlock .fileQueueMutex .ret
  | .OP_LOCK_FILE =>
    .await (.call (.lockVirtualFile r.filepath r.clientId))
      (fun status : ℤ => status = -2) [.fileQueueMutex] .fileLockCond .fileLockMutex
      fun status : ℤ =>
    .unlock .fileLockMutex <|
    .act (.write (if status = 0 then respond 0 (str "Lock correttamente acquisito sul file!")
      else respond (-1) (str "Impossible acquisire il lock sul file"))) fun _ =>
    .unlock .fileQueueMutex .ret
  | _ => .ret

/-- The controllers that wait. -/
theorem controller_attempt (h : r.operation = .OP_OPEN_FILE ∨ r.operation = .OP_LOCK_FILE) :
    controller cfg r =
      logRequest r 0 0 none (.lock .fileQueueMutex (.lock .fileLockMutex (attempt r))) := by
  rcases h with h | h <;> rw [controller, attempt, h] <;> rfl

/-! ## What a request does to the nodes -/

/-- The write on the socket completes. -/
def completes : Done workerSig → Bool
  | ⟨.write _, ok⟩ | ⟨.writeBytes _, ok⟩ => ok
  | _ => true

/-- What a request may do to the nodes. -/
inductive Change (cfg : Config) (s : Server) (r : Request) (t : List (Done workerSig)) (s' : Server) :
    Prop
  | same : addrs s' = addrs s → s'.brk = s.brk → Change cfg s r t s'
  | created : addrs s' = addrs s ++ [s.brk] → s'.brk = s.brk + 1 → Change cfg s r t s'
  | deleted {f : FileNode} : r.operation = .OP_DELETE_FILE →
      getFileNode s.fileQueue r.filepath = some f → f.clientId = r.clientId →
      addrs s' = (addrs s).filter (· ≠ f.addr) → s'.brk = s.brk → Change cfg s r t s'
  | expelled {f : FileNode} {free : ℤ} {t' : List (Done workerSig)} :
      r.operation = .OP_WRITE_FILE ∨ r.operation = .OP_APPEND_FILE → r.fileSize ≤ INT_MAX →
      NeedsExpulsion cfg s.fileQueue r → victim cfg s.fileQueue (i32 r.fileSize) = some f →
      t = ⟨.call .getFreeSpace, free⟩ :: (expulsionTrace r f (true, true) ++ t') →
      addrs s' = (addrs s).filter (· ≠ f.addr) → s'.brk = s.brk → Change cfg s r t s'

theorem addrs_remove {f : FileNode} (hs : s.WF cfg) (hf : f ∈ s.fileQueue.data) :
    (removeNode s.fileQueue f.addr).2.data.map (·.addr) = (addrs s).filter (· ≠ f.addr) := by
  rw [removeNode_data hs.toWF hf (Nat.pos_iff_ne_zero.1 (hs.addr f hf).1), addrs, List.filter_map]
  rfl

/-- A write or append. -/
theorem store_change (hs : s.WF cfg) (hr : r.fileSize ≤ INT_MAX)
    (hv : HasVictim cfg s.fileQueue r)
    (hop : r.operation = .OP_WRITE_FILE ∨ r.operation = .OP_APPEND_FILE)
    (h : Runs (exec cfg) (controller cfg r) s t o s') (hc : ∀ d ∈ t, completes d) :
    Change cfg s r t s' := by
  obtain ⟨t', rfl, h'⟩ := (store_runs hop).1 h
  rw [storeBranch] at h'
  split_ifs at h' with hbig hfree
  · obtain ⟨h1, h2⟩ := runs_addrs h' ⟨le_rfl, fun _ => trivial⟩
    exact .same h1 h2
  · have hneed : NeedsExpulsion cfg s.fileQueue r := ⟨hop, hbig, hfree⟩
    obtain ⟨f, hf⟩ := Option.isSome_iff_exists.1 (hv hneed)
    have hmem := victim_mem hf
    obtain ⟨u, ⟨hd, -⟩ | ⟨g, hg, he, sent, t₁, rfl, h₁⟩⟩ := expulsion_runs hs h'
    · rw [expelFile_eq hf, hs.toWF.deref_of_mem hmem] at hd
      cases hd
    · rw [expelFile_eq hf] at he
      obtain rfl := hs.toWF.eq_of_addr hmem hg he
      have hp := expelledBody_costs (r := r) Act.relinks_of_calm (fun _ => le_rfl) fun _ => le_rfl
      obtain ⟨h1, h2⟩ := runs_addrs h₁ hp
      -- the response and the contents were sent
      obtain ⟨ok₁, ok₂⟩ := sent
      obtain rfl : ok₁ = true := hc ⟨.write ⟨1, f.size, str "Ready to send file", f.pathname⟩, ok₁⟩
        (by simp [expulsionTrace])
      obtain rfl : ok₂ = true := hc ⟨.writeBytes ((f.file.getD []).take f.size), ok₂⟩
        (by simp [expulsionTrace])
      exact .expelled hop hr hneed hf rfl (h1.trans (addrs_remove hs hmem)) h2
  · have hp := storeBody_costs (r := r) Act.relinks_of_calm (fun _ => le_rfl) fun _ => le_rfl
    obtain ⟨h1, h2⟩ := runs_addrs h' (logRequest_costs Act.relinks_of_calm hp)
    exact .same h1 h2

/-- A delete request. -/
theorem delete_change (hs : s.WF cfg) (hop : r.operation = .OP_DELETE_FILE)
    (h : Runs (exec cfg) (controller cfg r) s t o s') : Change cfg s r t s' := by
  have e₀ : Env := ⟨true, [], 0, 0⟩
  rw [controller, hop] at h
  obtain ⟨_, _, s₁, t₁, hx, rfl, h₁⟩ | ⟨hx, -⟩ := h.act_cases
  swap; · cases hx e₀
  have hs₁ : s₁.WF cfg := exec_wf hs hx
  obtain ⟨hq, hb⟩ : s₁.fileQueue = s.fileQueue ∧ s₁.brk = s.brk := by cases hx; exact ⟨rfl, rfl⟩
  cases h₁ with
  | lock h₁ =>
    obtain ⟨_, _, s₂, t₂, hx, rfl, h₂⟩ | ⟨hx, -⟩ := h₁.act_cases
    swap; · cases hx e₀
    obtain ⟨h1, h2⟩ := runs_addrs h₂ ⟨le_rfl, fun _ => trivial⟩
    have heff := exec_effect hx
    rw [addrs, addrs] at h1
    generalize s₂.fileQueue = q at heff h1
    generalize s₂.brk = b at heff h2
    cases heff with
    | same => exact .same (by rw [addrs, addrs, h1, hq]) (h2.trans hb)
    | deleted hf _ hc =>
      rw [hq] at hf h1
      exact .deleted hop hf hc (h1.trans (addrs_remove hs (getFileNode_mem hf))) (h2.trans hb)

/-- The further attempts of a request. -/
theorem attempt_change (h : Runs (exec cfg) (attempt r) s t o s') : Change cfg s r t s' := by
  have e₀ : Env := ⟨true, [], 0, 0⟩
  by_cases hop : r.operation = .OP_OPEN_FILE
  · -- the state after the attempt
    obtain ⟨s₁, heff, h2, h3⟩ : ∃ s₁ : Server, Effect cfg s
        (.openVirtualFile r.filepath r.flags r.clientId) s₁.fileQueue s₁.brk ∧
        addrs s' = addrs s₁ ∧ s'.brk = s₁.brk := by
      rw [attempt, hop] at h
      cases h with
      | park hx => exact ⟨_, exec_effect hx, rfl, rfl⟩
      | pass hx _ h' => exact ⟨_, exec_effect hx, runs_addrs h' ⟨le_rfl, fun _ => trivial⟩⟩
      | failsAwait hx => cases hx e₀
    rw [addrs, addrs] at h2
    generalize s₁.fileQueue = q at heff h2
    generalize s₁.brk = b at heff h3
    cases heff with
    | same => exact .same h2 h3
    | created => exact .created (h2.trans (by simp [push, addrs, newNode])) h3
    | opened => exact .same (h2.trans (addrs_modify ⟨fun _ => rfl, fun _ => rfl⟩)) h3
  · have hb : Budget Act.relinks (attempt r) 0 := by
      rw [attempt]
      split
      · exact absurd ‹_› hop
      · exact ⟨le_rfl, fun _ => ⟨le_rfl, fun _ => trivial⟩⟩
      · trivial
    obtain ⟨h1, h2⟩ := runs_addrs h hb
    exact .same h1 h2

/-- A request that waits. -/
theorem waits_change (hop : r.operation = .OP_OPEN_FILE ∨ r.operation = .OP_LOCK_FILE)
    (h : Runs (exec cfg) (controller cfg r) s t o s') : Change cfg s r t s' := by
  rw [controller_attempt hop] at h
  obtain ⟨_, _, s₁, t₁, hx, rfl, h₁⟩ | ⟨hx, -⟩ := h.act_cases
  swap; · cases hx ⟨true, [], 0, 0⟩
  cases hx
  cases h₁ with
  | lock h₁ => cases h₁ with
    | lock h₁ =>
      cases attempt_change h₁ with
      | same h1 h2 => exact .same h1 h2
      | created h1 h2 => exact .created h1 h2
      | deleted hd => rcases hop with h | h <;> cases h.symm.trans hd
      | expelled hw => rcases hop with h | h <;> rcases hw with hw | hw <;> cases h.symm.trans hw

/-- **Every request does one of the changes.** -/
theorem controller_change (hs : s.WF cfg) (hr : r.fileSize ≤ INT_MAX)
    (hv : HasVictim cfg s.fileQueue r)
    (h : Runs (exec cfg) (controller cfg r) s t o s') (hc : ∀ d ∈ t, completes d) :
    Change cfg s r t s' := by
  by_cases hw : r.operation = .OP_WRITE_FILE
  · exact store_change hs hr hv (Or.inl hw) h hc
  by_cases ha : r.operation = .OP_APPEND_FILE
  · exact store_change hs hr hv (Or.inr ha) h hc
  by_cases ho : r.operation = .OP_OPEN_FILE
  · exact waits_change (Or.inl ho) h
  by_cases hd : r.operation = .OP_DELETE_FILE
  · exact delete_change hs hd h
  -- the other controllers neither add nor remove nodes
  obtain ⟨h1, h2⟩ := runs_addrs h (controller_costs Act.relinks_of_calm hw ha ho hd)
  exact .same h1 h2

/-! ## Runs of requests -/

/-- A request, or a further attempt of one, with what the worker did. -/
structure Round where
  request : Request
  trace : List (Done workerSig)
  before : Server
  after : Server

section
variable {ok : Act → Server → Prop} [∀ a s, Decidable (ok a s)]

/-- The runs of requests handled one after the other, in which the writes on the
    socket complete, `expelFile` has a sufficient file whenever it is called, and
    the actions satisfy `ok`.  A request that waits makes its further attempts
    between the others. -/
inductive Rounds (cfg : Config) (ok : Act → Server → Prop) [∀ a s, Decidable (ok a s)] :
    List Round → Server → Prop
  | init : Rounds cfg ok [] Server.init
  | request {h s r t o s'} : Rounds cfg ok h s → r.fileSize ≤ INT_MAX → HasVictim cfg s.fileQueue r →
      RunsWith (execHeap cfg) ok (controller cfg r) s t o s' → (∀ d ∈ t, completes d) →
      Rounds cfg ok (h ++ [⟨r, t, s, s'⟩]) s'
  | again {h s r t o s'} : Rounds cfg ok h s → RunsWith (execHeap cfg) ok (attempt r) s t o s' →
      (∀ d ∈ t, completes d) → Rounds cfg ok (h ++ [⟨r, t, s, s'⟩]) s'

/-- Serves requests one after the other, with the given outcomes of their calls;
    `junk` is the state after an action that is not `InBounds`. -/
def serveRounds (cfg : Config) (ok : Act → Server → Prop) [∀ a s, Decidable (ok a s)] (junk : Server) :
    List (Request × List Env) → List Round × Server → Option (List Round × Server)
  | [], y => some y
  | (r, es) :: rs, (h, s) => if r.fileSize ≤ INT_MAX ∧ HasVictim cfg s.fileQueue r then
      (run (noting ok (execHeap cfg)) (controller cfg r) (es.map (·, junk)) (s, true)).bind fun x =>
        if x.2.2.2 ∧ x.1.all completes then
          serveRounds cfg ok junk rs (h ++ [⟨r, x.1, s, x.2.2.1⟩], x.2.2.1)
        else none
    else none

theorem serveRounds_rounds (junk : Server) (rs : List (Request × List Env)) {h h' : List Round}
    {s s' : Server} (he : serveRounds cfg ok junk rs (h, s) = some (h', s')) (hr : Rounds cfg ok h s) :
    Rounds cfg ok h' s' := by
  induction rs generalizing h s with
  | nil => cases he; exact hr
  | cons x rs ih =>
    rw [serveRounds] at he
    split_ifs at he with hc
    obtain ⟨⟨t, o, s₁, b⟩, hrun, he⟩ := Option.bind_eq_some_iff.1 he
    dsimp only at he
    split_ifs at he with hall
    obtain ⟨rfl, hall⟩ := hall
    exact ih he (hr.request hc.1 hc.2 (run_sound hrun) (List.all_eq_true.1 hall))

end

/-- The node is new after the round. -/
def Round.Creates (R : Round) (a : Ptr) : Prop := a ∉ addrs R.before ∧ a ∈ addrs R.after

/-- The node has been created in one of the rounds. -/
def Created (h : List Round) (a : Ptr) : Prop := ∃ R ∈ h, R.Creates a

/-- The round is a delete request of the holder of the file, which removes its node. -/
structure Round.Deletes (R : Round) (f : FileNode) : Prop where
  operation : R.request.operation = .OP_DELETE_FILE
  file : getFileNode R.before.fileQueue R.request.filepath = some f
  holder : f.clientId = R.request.clientId
  order : addrs R.after = (addrs R.before).filter (· ≠ f.addr)

/-- The removal of the node alone makes room for the new bytes. -/
def Round.Suffices (cfg : Config) (R : Round) (f : FileNode) : Prop :=
  R.before.fileQueue.total - f.size + R.request.fileSize ≤ cfg.maxMemSize.toNat

/-- The round after the rounds `h` is a write or append that expels the node. -/
structure ExpelsAfter (cfg : Config) (h : List Round) (R : Round) (f : FileNode) : Prop where
  operation : R.request.operation = .OP_WRITE_FILE ∨ R.request.operation = .OP_APPEND_FILE
  mem : f ∈ R.before.fileQueue.data
  nonempty : f.content ≠ []
  /-- before the removal the client has been sent the file -/
  sent : ∃ t₁ t₂ t₃, R.trace = t₁ ++ [⟨.write ⟨1, f.size, str "Ready to send file", f.pathname⟩, true⟩,
    ⟨.writeBytes f.content, true⟩] ++ t₂ ++ ⟨.call (.removeNode f.addr), (0 : ℤ)⟩ :: t₃
  enough : R.Suffices cfg f
  /-- any other node that would do was created later -/
  earliest : ∀ g ∈ R.before.fileQueue.data, R.Suffices cfg g → g.addr ≠ f.addr →
    ∃ h₁ h₂, h = h₁ ++ h₂ ∧ Created h₁ f.addr ∧ ¬ Created h₁ g.addr
  order : addrs R.after = (addrs R.before).filter (· ≠ f.addr)

def Deleted (h : List Round) (a : Ptr) : Prop := ∃ R ∈ h, ∃ f, f.addr = a ∧ R.Deletes f

def Expelled (cfg : Config) (h : List Round) (a : Ptr) : Prop :=
  ∃ h₁ R h₂ f, h = h₁ ++ R :: h₂ ∧ f.addr = a ∧ ExpelsAfter cfg h₁ R f

/-- Exactly one of three. -/
def ExactlyOne (A B C : Prop) : Prop := A ∧ ¬ B ∧ ¬ C ∨ ¬ A ∧ B ∧ ¬ C ∨ ¬ A ∧ ¬ B ∧ C

variable {h : List Round} {R : Round} {a b : Ptr}

/-! ## The last round -/

theorem created_snoc : Created (h ++ [R]) a ↔ Created h a ∨ R.Creates a := by
  simp only [Created, List.mem_append, List.mem_singleton]
  constructor
  · rintro ⟨R', hR' | rfl, hc⟩
    · exact Or.inl ⟨R', hR', hc⟩
    · exact Or.inr hc
  · rintro (⟨R', hR', hc⟩ | hc)
    · exact ⟨R', Or.inl hR', hc⟩
    · exact ⟨R, Or.inr rfl, hc⟩

theorem deleted_snoc : Deleted (h ++ [R]) a ↔ Deleted h a ∨ ∃ f, f.addr = a ∧ R.Deletes f := by
  simp only [Deleted, List.mem_append, List.mem_singleton]
  constructor
  · rintro ⟨R', hR' | rfl, hd⟩
    · exact Or.inl ⟨R', hR', hd⟩
    · exact Or.inr hd
  · rintro (⟨R', hR', hd⟩ | hd)
    · exact ⟨R', Or.inl hR', hd⟩
    · exact ⟨R, Or.inr rfl, hd⟩

theorem expelled_snoc :
    Expelled cfg (h ++ [R]) a ↔ Expelled cfg h a ∨ ∃ f, f.addr = a ∧ ExpelsAfter cfg h R f := by
  constructor
  · rintro ⟨h₁, R', h₂, f, he, hf, hx⟩
    rcases List.eq_nil_or_concat h₂ with rfl | ⟨l, x, rfl⟩
    · obtain ⟨rfl, h1⟩ := List.append_inj' he rfl
      cases h1
      exact Or.inr ⟨f, hf, hx⟩
    · rw [List.concat_eq_append, ← List.cons_append, ← List.append_assoc] at he
      obtain ⟨rfl, -⟩ := List.append_inj' he rfl
      exact Or.inl ⟨h₁, R', l, f, rfl, hf, hx⟩
  · rintro (⟨h₁, R', h₂, f, rfl, hf, hx⟩ | ⟨f, hf, hx⟩)
    · exact ⟨h₁, R', h₂ ++ [R], f, by simp, hf, hx⟩
    · exact ⟨h, R, [], f, rfl, hf, hx⟩

/-- A round that deletes or expels a node removes it. -/
theorem Round.Deletes.removes {f : FileNode} (hd : R.Deletes f) :
    f.addr ∈ addrs R.before ∧ f.addr ∉ addrs R.after := by
  rw [hd.order]
  exact ⟨List.mem_map_of_mem (getFileNode_mem hd.file), by simp⟩

theorem ExpelsAfter.removes {f : FileNode} (hx : ExpelsAfter cfg h R f) :
    f.addr ∈ addrs R.before ∧ f.addr ∉ addrs R.after := by
  rw [hx.order]
  exact ⟨List.mem_map_of_mem hx.mem, by simp⟩

/-! ## Invariants of the runs -/

theorem attempt_budget : Budget Act.added (attempt r) 0 := by
  rw [attempt]
  split
  · exact ⟨le_rfl, fun _ => ⟨le_rfl, fun _ => trivial⟩⟩
  · exact ⟨le_rfl, fun _ => ⟨le_rfl, fun _ => trivial⟩⟩
  · trivial

section
variable (hM : cfg.maxMemSize.toNat ≤ INT_MAX)
include hM

theorem Rounds.fits (hr : Rounds cfg InBounds h s) : Fits cfg s := by
  induction hr with
  | init => exact .init
  | request _ hn hv hrun _ ih => exact ih.controller hM hn hv hrun.defined
  | again _ hrun _ ih => exact .of_budget hrun.defined attempt_budget ih.wf ih.total

/-- What holds of the initial state and is kept by every change holds of all runs. -/
theorem Rounds.induct {P : List Round → Server → Prop} (h₀ : P [] Server.init)
    (hstep : ∀ {h s r t s'}, Rounds cfg InBounds h s → Fits cfg s → P h s → Change cfg s r t s' →
      P (h ++ [⟨r, t, s, s'⟩]) s') (hr : Rounds cfg InBounds h s) : P h s := by
  induction hr with
  | init => exact h₀
  | request hr hn hv hrun hc ih =>
    have hf := hr.fits hM
    exact hstep hr hf ih (controller_change hf.wf hn hv hrun.defined hc)
  | again hr hrun _ ih => exact hstep hr (hr.fits hM) ih (attempt_change hrun.defined)

/-- The nodes are in the order of their creation. -/
theorem Rounds.sorted (hr : Rounds cfg InBounds h s) : (addrs s).Pairwise (· < ·) := by
  refine hr.induct hM (P := fun _ s => (addrs s).Pairwise (· < ·)) List.Pairwise.nil ?_
  intro h s r t s' _ hf ih hc
  cases hc with
  | same h1 => rwa [h1]
  | created h1 =>
    rw [h1, List.pairwise_append]
    refine ⟨ih, List.pairwise_singleton _ _, fun a ha b hb => ?_⟩
    obtain rfl := List.mem_singleton.1 hb
    exact (addrs_lt hf.wf ha).2
  | deleted _ _ _ h1 | expelled _ _ _ _ _ h1 =>
    rw [h1]
    exact ih.filter _

/-- The nodes that have been created have the addresses that have been handed out. -/
theorem Rounds.created_iff (hr : Rounds cfg InBounds h s) : ∀ a, Created h a ↔ NULL < a ∧ a < s.brk := by
  refine hr.induct hM (P := fun h s => ∀ a, Created h a ↔ NULL < a ∧ a < s.brk) ?_ ?_
  · intro a
    constructor
    · rintro ⟨R, hR, -⟩
      cases hR
    · rintro ⟨h0, h1⟩
      exact absurd (h0.trans_le (Nat.lt_succ_iff.1 h1)) (lt_irrefl _)
  · intro h s r t s' _ hf ih hc a
    have hlt : a ∈ addrs s → a < s.brk := fun ha => (addrs_lt hf.wf ha).2
    have hbrk := hf.wf.brk
    rw [created_snoc, ih a]
    simp only [Round.Creates]
    cases hc with
    | same h1 h2 =>
      rw [h1, h2]
      exact or_iff_left fun h => h.1 h.2
    | created h1 h2 =>
      rw [h1, h2, List.mem_append, List.mem_singleton]
      constructor
      · rintro (⟨h0, h⟩ | ⟨hn, h | rfl⟩)
        · exact ⟨h0, h.trans (Nat.lt_succ_self _)⟩
        · exact absurd h hn
        · exact ⟨hbrk, Nat.lt_succ_self _⟩
      · rintro ⟨h0, h⟩
        rcases (Nat.lt_succ_iff.1 h).lt_or_eq with h | rfl
        · exact Or.inl ⟨h0, h⟩
        · exact Or.inr ⟨fun ha => (hlt ha).ne rfl, Or.inr rfl⟩
    | deleted _ _ _ h1 h2 | expelled _ _ _ _ _ h1 h2 =>
      rw [h1, h2]
      exact or_iff_left fun h => h.1 (List.mem_of_mem_filter h.2)

/-- A node that has been deleted or expelled has been created before. -/
theorem Rounds.created_of_gone (hr : Rounds cfg InBounds h s) :
    ∀ a, Deleted h a ∨ Expelled cfg h a → Created h a := by
  refine hr.induct hM (P := fun h _ => ∀ a, Deleted h a ∨ Expelled cfg h a → Created h a) ?_ ?_
  · rintro a (⟨R, hR, -⟩ | ⟨h₁, R, h₂, f, he, -⟩)
    · cases hR
    · cases h₁ <;> cases he
  · intro h s r t s' hr hf ih _ a hg
    -- the nodes of the queue before the round have been created
    have hqueue : a ∈ addrs s → Created h a := fun ha => (hr.created_iff hM a).2 (addrs_lt hf.wf ha)
    rw [deleted_snoc, expelled_snoc] at hg
    rw [created_snoc]
    rcases hg with (hd | ⟨f, rfl, hd⟩) | (hx | ⟨f, rfl, hx⟩)
    · exact Or.inl (ih a (Or.inl hd))
    · exact Or.inl (hqueue hd.removes.1)
    · exact Or.inl (ih a (Or.inr hx))
    · exact Or.inl (hqueue hx.removes.1)

/-- Of two nodes the one with the smaller address was created earlier. -/
theorem Rounds.earlier (hr : Rounds cfg InBounds h s) : ∀ a b, NULL < a → a < b → Created h b →
    ∃ h₁ h₂, h = h₁ ++ h₂ ∧ Created h₁ a ∧ ¬ Created h₁ b := by
  refine hr.induct hM (P := fun h _ => ∀ a b, NULL < a → a < b → Created h b →
    ∃ h₁ h₂, h = h₁ ++ h₂ ∧ Created h₁ a ∧ ¬ Created h₁ b) ?_ ?_
  · rintro a b - - ⟨R, hR, -⟩
    cases hR
  · intro h s r t s' hr hf ih hc a b ha hab hb
    by_cases hold : Created h b
    · obtain ⟨h₁, h₂, rfl, h1, h2⟩ := ih a b ha hab hold
      exact ⟨h₁, h₂ ++ [⟨r, t, s, s'⟩], List.append_assoc _ _ _, h1, h2⟩
    · -- the last round has created `b`, so that `a` was there
      refine ⟨h, _, rfl, (hr.created_iff hM a).2 ⟨ha, ?_⟩, hold⟩
      obtain ⟨hn, hmem⟩ : b ∉ addrs s ∧ b ∈ addrs s' := (created_snoc.1 hb).resolve_left hold
      cases hc with
      | same h1 => exact absurd (h1 ▸ hmem) hn
      | created h1 =>
        rw [h1, List.mem_append, List.mem_singleton] at hmem
        exact hab.trans_eq (hmem.resolve_left hn)
      | deleted _ _ _ h1 | expelled _ _ _ _ _ h1 =>
        rw [h1] at hmem
        exact absurd (List.mem_of_mem_filter hmem) hn

/-- An expulsion. -/
theorem Rounds.expels {f : FileNode} {free : ℤ} {t' : List (Done workerSig)} (hr : Rounds cfg InBounds h s)
    (hop : r.operation = .OP_WRITE_FILE ∨ r.operation = .OP_APPEND_FILE) (hn : r.fileSize ≤ INT_MAX)
    (hneed : NeedsExpulsion cfg s.fileQueue r)
    (hv : victim cfg s.fileQueue (i32 r.fileSize) = some f)
    (ht : t = ⟨.call .getFreeSpace, free⟩ :: (expulsionTrace r f (true, true) ++ t'))
    (ho : addrs s' = (addrs s).filter (· ≠ f.addr)) : ExpelsAfter cfg h ⟨r, t, s, s'⟩ f := by
  have hf := hr.fits hM
  have hle := hf.total
  have hmem := victim_mem hv
  have hsize : f.size = f.content.length := hf.wf.size f hmem
  have hpass : s.fileQueue.total - f.size + r.fileSize ≤ cfg.maxMemSize.toNat :=
    (makesRoom_exact hM hle hn (size_le_total hmem)).1 (List.find?_some hv)
  have hfree : cfg.maxMemSize.toNat < s.fileQueue.total + r.fileSize := by
    have hlt := hneed.2.2
    unfold INT_MAX at hM
    rw [getFreeSpace_exact hM hle, u64_eq (by omega) (by omega)] at hlt
    omega
  refine ⟨hop, hmem, fun hnil => ?_, ?_, hpass, fun g hg hgpass hne => ?_, ho⟩
  · rw [hnil] at hsize
    simp only [List.length_nil] at hsize
    omega
  · refine ⟨[⟨.call .getFreeSpace, free⟩, ⟨.call (.expelFile (i32 r.fileSize)), f.addr⟩,
      ⟨.call (.deref f.addr), f⟩], [⟨.call (.deref f.addr), f⟩,
      ⟨.log ⟨r, 0, i32 r.fileSize, some f.pathname⟩, ()⟩], t', ?_⟩
    have hcontent : (f.file.getD []).take f.size = f.content := by
      rw [hsize]
      exact List.take_length
    simp [ht, expulsionTrace, hcontent]
  · -- the first node that passes the test is the oldest one
    obtain ⟨-, l₁, l₂, hl, hno⟩ := List.find?_eq_some_iff_append.1 hv
    have hgtest : makesRoom (getFreeSpace cfg s.fileQueue) (i32 r.fileSize) g = true :=
      (makesRoom_exact hM hle hn (size_le_total hg)).2 hgpass
    have hlater : g ∈ l₂ := by
      have hg' := hg
      simp only [hl, List.mem_append, List.mem_cons] at hg'
      rcases hg' with h | rfl | h
      · have := hno g h
        rw [hgtest] at this
        cases this
      · exact absurd rfl hne
      · exact h
    have hsorted := hr.sorted hM
    rw [addrs, hl, List.map_append, List.map_cons, List.pairwise_append, List.pairwise_cons] at hsorted
    have hlt : f.addr < g.addr := hsorted.2.1.1 _ (List.mem_map_of_mem hlater)
    refine hr.earlier hM _ _ (hf.wf.addr f hmem).1 hlt ((hr.created_iff hM _).2 (hf.wf.addr g hg))

end

/-! ## Conservation -/

/-- A round keeps the account of a node. -/
theorem exactlyOne_snoc (hR : R.before = s) (hR' : R.after = s')
    (hstays : a ∈ addrs s → a ∉ addrs s' → ((∃ f, f.addr = a ∧ R.Deletes f) ∧
      ¬ ∃ f, f.addr = a ∧ ExpelsAfter cfg h R f) ∨ ((∃ f, f.addr = a ∧ ExpelsAfter cfg h R f) ∧
      ¬ ∃ f, f.addr = a ∧ R.Deletes f))
    (hnew : a ∉ addrs s → a ∉ addrs s')
    (ih : ExactlyOne (a ∈ addrs s) (Deleted h a) (Expelled cfg h a)) :
    ExactlyOne (a ∈ addrs s') (Deleted (h ++ [R]) a) (Expelled cfg (h ++ [R]) a) := by
  subst hR hR'
  rw [deleted_snoc, expelled_snoc]
  by_cases hin : a ∈ addrs R.before
  · obtain ⟨-, hd, hx⟩ : a ∈ addrs R.before ∧ ¬ Deleted h a ∧ ¬ Expelled cfg h a := by
      rcases ih with ih | ih | ih
      · exact ih
      · exact absurd hin ih.1
      · exact absurd hin ih.1
    by_cases hout : a ∈ addrs R.after
    · refine Or.inl ⟨hout, ?_, ?_⟩
      · rintro (h | ⟨f, rfl, h⟩)
        exacts [hd h, h.removes.2 hout]
      · rintro (h | ⟨f, rfl, h⟩)
        exacts [hx h, h.removes.2 hout]
    · rcases hstays hin hout with ⟨h1, h2⟩ | ⟨h1, h2⟩
      · exact Or.inr (Or.inl ⟨hout, Or.inr h1, not_or.2 ⟨hx, h2⟩⟩)
      · exact Or.inr (Or.inr ⟨hout, not_or.2 ⟨hd, h2⟩, Or.inr h1⟩)
  · have hout := hnew hin
    have hd : ¬ ∃ f, f.addr = a ∧ R.Deletes f := by
      rintro ⟨f, rfl, h⟩
      exact hin h.removes.1
    have hx : ¬ ∃ f, f.addr = a ∧ ExpelsAfter cfg h R f := by
      rintro ⟨f, rfl, h⟩
      exact hin h.removes.1
    rcases ih with ih | ih | ih
    · exact absurd ih.1 hin
    · exact Or.inr (Or.inl ⟨hout, Or.inl ih.2.1, not_or.2 ⟨ih.2.2, hx⟩⟩)
    · exact Or.inr (Or.inr ⟨hout, not_or.2 ⟨ih.2.1, hd⟩, Or.inl ih.2.2⟩)

/-- **Conservation of files.**  In every run of requests that keep inside their
    blocks each node that has been created is in the queue, or has been deleted by
    its holder, or has been expelled. -/
theorem conservation (hM : cfg.maxMemSize.toNat ≤ INT_MAX) (hr : Rounds cfg InBounds h s)
    (ha : Created h a) : ExactlyOne (a ∈ addrs s) (Deleted h a) (Expelled cfg h a) := by
  refine hr.induct hM (P := fun h s => ∀ a, Created h a →
    ExactlyOne (a ∈ addrs s) (Deleted h a) (Expelled cfg h a)) ?_ ?_ a ha
  · rintro a ⟨R, hR, -⟩
    cases hR
  intro h s r t s' hr hf ih hc a ha
  by_cases hold : Created h a
  · -- the node was there before the round
    have hlt : a < s.brk := ((hr.created_iff hM a).1 hold).2
    refine exactlyOne_snoc rfl rfl (fun hin hout => ?_) (fun hin hout => ?_) (ih a hold)
    · cases hc with
      | same h1 => exact absurd (h1 ▸ hin) hout
      | created h1 =>
        rw [h1] at hout
        exact absurd (List.mem_append_left _ hin) hout
      | @deleted f hop hfile hc h1 =>
        obtain rfl : a = f.addr := by
          by_contra hne
          rw [h1] at hout
          exact hout (List.mem_filter.2 ⟨hin, by simpa using hne⟩)
        refine Or.inl ⟨⟨f, rfl, hop, hfile, hc, h1⟩, ?_⟩
        rintro ⟨g, -, hx⟩
        rcases hx.operation with hw | hw <;> cases hop.symm.trans hw
      | @expelled f free t' hop hn hneed hv ht h1 =>
        obtain rfl : a = f.addr := by
          by_contra hne
          rw [h1] at hout
          exact hout (List.mem_filter.2 ⟨hin, by simpa using hne⟩)
        refine Or.inr ⟨⟨f, rfl, hr.expels hM hop hn hneed hv ht h1⟩, ?_⟩
        rintro ⟨g, -, hd⟩
        rcases hop with hw | hw <;> cases hd.operation.symm.trans hw
    · cases hc with
      | same h1 => exact hin (h1 ▸ hout)
      | created h1 =>
        rw [h1, List.mem_append, List.mem_singleton] at hout
        exact hlt.ne (hout.resolve_left hin)
      | deleted _ _ _ h1 | expelled _ _ _ _ _ h1 =>
        rw [h1] at hout
        exact hin (List.mem_of_mem_filter hout)
  · -- the round has created it: nothing has removed it so far
    obtain ⟨hin, hout⟩ : a ∉ addrs s ∧ a ∈ addrs s' := (created_snoc.1 ha).resolve_left hold
    have hgone : ¬ Deleted h a ∧ ¬ Expelled cfg h a :=
      not_or.1 fun hg => hold (hr.created_of_gone hM a hg)
    refine Or.inl ⟨hout, ?_, ?_⟩
    · rw [deleted_snoc]
      rintro (hd | ⟨f, rfl, hd⟩)
      exacts [hgone.1 hd, hd.removes.2 hout]
    · rw [expelled_snoc]
      rintro (hx | ⟨f, rfl, hx⟩)
      exacts [hgone.2 hx, hx.removes.2 hout]

/-- A client writes a file, and another client writes a second one for which
    there is no room. -/
theorem conservation_expelled : ∃ h s, Rounds ⟨8, 4⟩ InBounds h s ∧ Created h 1 ∧ addrs s = [2] ∧
    ExactlyOne (1 ∈ addrs s) (Deleted h 1) (Expelled ⟨8, 4⟩ h 1) := by
  obtain ⟨⟨h, s⟩, hx, hnew, hs⟩ : ∃ y ∈ serveRounds ⟨8, 4⟩ InBounds Server.init [
      (⟨1, .OP_OPEN_FILE, [47, 97], O_CREATE ||| O_LOCK, 0⟩, .replicate 20 ⟨true, [], 0, NULL⟩),
      (⟨1, .OP_WRITE_FILE, [47, 97], 0, 5⟩, .replicate 20 ⟨true, [1, 2, 3, 4, 5], 0, NULL⟩),
      (⟨2, .OP_OPEN_FILE, [47, 98], O_CREATE ||| O_LOCK, 0⟩, .replicate 20 ⟨true, [], 0, NULL⟩),
      (⟨2, .OP_WRITE_FILE, [47, 98], 0, 4⟩, .replicate 20 ⟨true, [6, 7, 8, 9], 0, NULL⟩)]
      ([], Server.init), (∃ R ∈ y.1, 1 ∉ addrs R.before ∧ 1 ∈ addrs R.after) ∧ addrs y.2 = [2] := by
    decide +kernel
  have hr : Rounds ⟨8, 4⟩ InBounds h s := serveRounds_rounds _ _ hx .init
  exact ⟨h, s, hr, hnew, hs, conservation (by decide) hr hnew⟩

/-- Neither a delete request nor a removal. -/
def Round.harmless (R : Round) : Bool :=
  R.request.operation ≠ .OP_DELETE_FILE ∧ R.trace.all fun d => match d.1 with
    | .call (.removeNode _) => false
    | _ => true

theorem Round.harmless_deletes {f : FileNode} (hR : R.harmless = true) : ¬ R.Deletes f :=
  fun hd => (of_decide_eq_true hR).1 hd.operation

theorem Round.harmless_expels {f : FileNode} (hR : R.harmless = true) : ¬ ExpelsAfter cfg h R f := by
  intro hx
  obtain ⟨t₁, t₂, t₃, ht⟩ := hx.sent
  have hall := (of_decide_eq_true hR).2
  rw [ht] at hall
  simp at hall

/-- After the append of `overlong` the node of `/b` is gone. -/
theorem not_conservation : ∃ h s, Rounds ⟨64, 4⟩ (fun _ _ => True) h s ∧ Created h 2 ∧
    ¬ ExactlyOne (2 ∈ addrs s) (Deleted h 2) (Expelled ⟨64, 4⟩ h 2) := by
  obtain ⟨⟨h, s⟩, hx, hnew, hs, hno⟩ :
      ∃ y ∈ serveRounds ⟨64, 4⟩ (fun _ _ => True) overrun overlong ([], Server.init),
        (∃ R ∈ y.1, 2 ∉ addrs R.before ∧ 2 ∈ addrs R.after) ∧ 2 ∉ addrs y.2 ∧
        ∀ R ∈ y.1, R.harmless = true := by
    decide +kernel
  refine ⟨h, s, serveRounds_rounds _ _ hx .init, hnew, ?_⟩
  rintro (⟨hin, -⟩ | ⟨-, ⟨R, hR, f, -, hd⟩, -⟩ | ⟨-, -, h₁, R, h₂, f, rfl, -, hexp⟩)
  · exact hs hin
  · exact Round.harmless_deletes (hno R hR) hd
  · exact Round.harmless_expels (hno R (by simp)) hexp

end FileStorage
