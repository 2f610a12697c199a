/-
  The invariant of the store over whole runs of requests.

  A request is handled atomically by its controller; the reads and writes on
  the socket may fail, and the body received is arbitrary.  A run goes on as
  long as `expelFile` has a sufficient file whenever it is called (`Handled`).
  The invariant holds as long as every action is `InBounds`
  (`store_invariant`): one that runs past its block may leave any state.

  Each call adds at most the bytes it is given (`Call.exec_total`), so that a
  controller adds nothing, or, from the lock check on, at most the size in the
  request (`Budget`); the expulsion before it makes room for just that.
-/
import FileStorage.Expulsion

namespace FileStorage

open Threads Prog

variable {cfg : Config} {s : Server} {r : Request}

/-- If the request needs an expulsion, `expelFile` finds a sufficient file. -/
def HasVictim (cfg : Config) (q : Queue FileNode) (r : Request) : Prop :=
  NeedsExpulsion cfg q r → (victim cfg q (i32 r.fileSize)).isSome

/-- The states reached by requests handled one after the other, whose actions
    satisfy `ok`. -/
inductive Handled (cfg : Config) (ok : Act → Server → Prop) [∀ a s, Decidable (ok a s)] : Server → Prop
  | init : Handled cfg ok Server.init
  | step {s r t o s'} : Handled cfg ok s → r.fileSize ≤ INT_MAX → HasVictim cfg s.fileQueue r →
      RunsWith (execHeap cfg) ok (controller cfg r) s t o s' → Handled cfg ok s'

theorem Handled.reachable (h : Handled cfg InBounds s) : Reachable cfg s := by
  induction h with
  | init => exact .init
  | step _ _ _ h ih => exact h.defined.invariant (fun _ _ _ _ _ hs hx => hs.step hx) ih

instance {q : Queue FileNode} : Decidable (HasVictim cfg q r) := inferInstanceAs (Decidable (_ → _))

section
variable {ok : Act → Server → Prop} [∀ a s, Decidable (ok a s)]

/-- Handle the requests one after the other, each with the environments of its
    actions; `junk` is the state after an action that is not `InBounds`. -/
def serve (cfg : Config) (ok : Act → Server → Prop) [∀ a s, Decidable (ok a s)] (junk : Server) :
    List (Request × List Env) → Server → Option Server
  | [], s => some s
  | (r, es) :: rs, s => if r.fileSize ≤ INT_MAX ∧ HasVictim cfg s.fileQueue r then
      (run (noting ok (execHeap cfg)) (controller cfg r) (es.map (·, junk)) (s, true)).bind fun x =>
        if x.2.2.2 then serve cfg ok junk rs x.2.2.1 else none
    else none

theorem serve_handled (junk : Server) (rs : List (Request × List Env)) {s' : Server}
    (h : serve cfg ok junk rs s = some s') (hs : Handled cfg ok s) : Handled cfg ok s' := by
  induction rs generalizing s with
  | nil => cases h; exact hs
  | cons x rs ih =>
    rw [serve] at h
    split_ifs at h with hc
    obtain ⟨⟨t, o, s₁, b⟩, hr, h⟩ := Option.bind_eq_some_iff.1 h
    dsimp only at h
    split_ifs at h with hb
    subst hb
    exact ih h (hs.step hc.1 hc.2 (run_sound hr))

end

/-! ## The bytes a call adds -/

/-- The bytes given to a call. -/
def Act.added : Act → ℕ
  | .call (.writeVirtualFile _ _ size) | .call (.appendVirtualFile _ _ size) => size
  | _ => 0

theorem total_remove_le {q : Queue FileNode} (a : Ptr) : (removeNode q a).2.total ≤ q.total := by
  rw [removeNode]
  split_ifs
  · exact le_rfl
  · exact (List.eraseP_sublist.map _).sum_le_sum (by simp)
  · exact le_rfl

/-- **No call adds more bytes than it is given.** -/
theorem Call.exec_total {c : Call} {e : Env} {x : c.Ans} {s' : Server} (hs : s.WF cfg)
    (h : c.exec cfg e s = some (x, s')) :
    s'.fileQueue.total ≤ s.fileQueue.total + (Act.call c).added := by
  have hq : s.fileQueue.WF := hs.toWF
  -- a change of one node in place
  have hmod : ∀ {f : FileNode} {g : FileNode → FileNode} {n : ℕ}, f ∈ s.fileQueue.data →
      (g f).size ≤ f.size + n → (s.fileQueue.modify f.addr g).total ≤ s.fileQueue.total + n := by
    intro f g n hf hg
    have := total_modify (g := g) hq hf
    omega
  have heff := Call.effect h
  generalize s'.fileQueue = q' at heff
  generalize s'.brk = b at heff
  cases heff with
  | same => exact Nat.le_add_right _ _
  | created => simp [Queue.total, push, newNode]
  | opened _ hf | locked hf | unlocked hf | closed hf =>
    exact hmod (getFileNode_mem hf) le_rfl
  | written hf => exact hmod (getFileNode_mem hf) (Nat.le_add_left _ _)
  | @appended _ _ _ f hf =>
    refine hmod (getFileNode_mem hf) ?_
    cases f.file
    · exact Nat.le_add_left _ _
    · exact le_rfl
  | deleted => exact (total_remove_le _).trans (Nat.le_add_right _ _)
  | removed => exact (total_remove_le _).trans (Nat.le_add_right _ _)

theorem exec_total {a : Act} {e : Env} {x : a.Ans} {s' : Server} (hs : s.WF cfg)
    (h : exec cfg a e s = some (x, s')) :
    s'.WF cfg ∧ s'.fileQueue.total ≤ s.fileQueue.total + a.added := by
  refine ⟨exec_wf hs h, ?_⟩
  cases a with
  | call c => exact Call.exec_total hs h
  | crash => cases h
  | _ => cases h; exact Nat.le_add_right _ _

/-! ## The costs of the controllers -/

/-- The action neither stores bytes nor adds or removes a node. -/
def Act.calm : Act → Bool
  | .call (.writeVirtualFile _ _ _) | .call (.appendVirtualFile _ _ _)
  | .call (.openVirtualFile _ _ _) | .call (.deleteVirtualFile _ _) | .call (.removeNode _) => false
  | _ => true

section
variable {cost : Act → ℕ} {n : ℕ} (hcalm : ∀ a : Act, a.calm = true → cost a = 0)
include hcalm

theorem calm_costs {a : Act} {k : a.Ans → Code} (ha : a.calm = true) (hk : ∀ x, Budget cost (k x) n) :
    Budget cost (Prog.act a k : Code) n := by
  rw [Budget, hcalm a ha]
  exact ⟨Nat.zero_le _, hk⟩

theorem logRequest_costs {rb wb : ℤ} {f : Option CString} {k : Code} (hk : Budget cost k n) :
    Budget cost (logRequest r rb wb f k) n :=
  calm_costs hcalm rfl fun _ => hk

/-- From the lock check on, an append costs what its call on the store costs. -/
theorem appendFileBody_costs
    (ha : ∀ buf, cost (.call (.appendVirtualFile r.filepath buf r.fileSize)) ≤ n) :
    Budget cost (appendFileBody r) n := by
  refine calm_costs hcalm rfl fun res => ?_
  dsimp only
  split_ifs
  · refine calm_costs hcalm rfl fun ok => ?_
    cases ok
    · trivial
    · refine calm_costs hcalm rfl fun buf => ?_
      cases buf with
      | none => trivial
      | some buf => exact ⟨ha buf, fun _ => calm_costs hcalm rfl fun _ => trivial⟩
  · exact calm_costs hcalm rfl fun _ => trivial

/-- From the lock check on, a write costs what its call on the store costs. -/
theorem writeFileBody_costs
    (hw : ∀ buf, cost (.call (.writeVirtualFile r.filepath buf r.fileSize)) ≤ n) :
    Budget cost (writeFileBody r) n := by
  refine calm_costs hcalm rfl fun res => ?_
  dsimp only
  split_ifs
  · refine calm_costs hcalm rfl fun ok => ?_
    cases ok
    · trivial
    · refine calm_costs hcalm rfl fun buf => ?_
      split_ifs
      · exact ⟨hw _, fun _ => calm_costs hcalm rfl fun _ => trivial⟩
      · trivial
  · exact calm_costs hcalm rfl fun _ => trivial

section
variable (hw : ∀ buf, cost (.call (.writeVirtualFile r.filepath buf r.fileSize)) ≤ n)
  (ha : ∀ buf, cost (.call (.appendVirtualFile r.filepath buf r.fileSize)) ≤ n)
include hw ha

theorem storeBody_costs : Budget cost (storeBody r) n := by
  unfold storeBody
  split_ifs
  · exact writeFileBody_costs hcalm hw
  · exact appendFileBody_costs hcalm ha

theorem expelledBody_costs : Budget cost (expelledBody r 0) n := by
  unfold expelledBody
  split_ifs
  · exact calm_costs hcalm rfl fun _ => writeFileBody_costs hcalm hw
  · exact writeFileBody_costs hcalm hw
  · exact appendFileBody_costs hcalm ha

end

theorem readFileController_costs : Budget cost (readFileController r) n := by
  -- the end of the controller, after the transfer of the file
  have hend : ∀ rbyte : ℤ, Budget cost (if rbyte = 0 then
      logRequest r rbyte 0 none (.unlock .fileQueueMutex .ret) else .unlock .fileQueueMutex .ret) n := by
    intro rbyte
    split_ifs
    · exact logRequest_costs hcalm trivial
    · trivial
  refine calm_costs hcalm rfl fun res => ?_
  rcases res with _ | ⟨buf, size⟩
  · exact calm_costs hcalm rfl fun _ => hend _
  · refine calm_costs hcalm rfl fun ok => ?_
    cases ok
    · exact hend (-1)
    · exact calm_costs hcalm rfl fun _ => hend _

theorem unlockFileController_costs : Budget cost (unlockFileController r) n := by
  refine logRequest_costs hcalm <| calm_costs hcalm rfl fun res => ?_
  dsimp only
  split_ifs
  · exact calm_costs hcalm rfl fun _ => trivial
  · exact calm_costs hcalm rfl fun _ => trivial

theorem readnFileController_costs : Budget cost (readnFileController r) n := by
  refine logRequest_costs hcalm <| calm_costs hcalm rfl fun res => ?_
  have hbody : ∀ st, Budget cost (readnFileBody st res.2) n := fun st => by
    cases res.2
    · exact calm_costs hcalm rfl fun _ => trivial
    · exact calm_costs hcalm rfl fun _ => trivial
  split_ifs
  · refine calm_costs hcalm rfl fun ok => ?_
    cases ok
    · exact hbody _
    · trivial
  · exact hbody _

/-- The controllers that are no write or append, and neither create nor delete a
    file, cost nothing. -/
theorem controller_costs (hw : r.operation ≠ .OP_WRITE_FILE) (ha : r.operation ≠ .OP_APPEND_FILE)
    (ho : r.operation ≠ .OP_OPEN_FILE) (hd : r.operation ≠ .OP_DELETE_FILE) :
    Budget cost (controller cfg r) n := by
  unfold controller
  split
  · exact absurd ‹_› ho
  · exact absurd ‹_› ha
  · exact readFileController_costs hcalm
  · exact absurd ‹_› hd
  · exact absurd ‹_› hw
  · exact logRequest_costs hcalm <| calm_costs hcalm rfl fun _ => calm_costs hcalm rfl fun _ => trivial
  · exact logRequest_costs hcalm <| calm_costs hcalm rfl fun _ => calm_costs hcalm rfl fun _ => trivial
  · exact unlockFileController_costs hcalm
  · exact readnFileController_costs hcalm
  · trivial

end

theorem Act.added_of_calm (a : Act) (ha : a.calm = true) : a.added = 0 := by
  unfold Act.added
  split
  · cases ha
  · cases ha
  · rfl

/-- The controllers that store nothing add nothing. -/
theorem controller_budget (hw : r.operation ≠ .OP_WRITE_FILE) (ha : r.operation ≠ .OP_APPEND_FILE) :
    Budget Act.added (controller cfg r) 0 := by
  by_cases ho : r.operation = .OP_OPEN_FILE
  · rw [controller, ho]
    refine logRequest_costs Act.added_of_calm ⟨le_rfl, fun _ => ?_⟩
    exact calm_costs Act.added_of_calm rfl fun _ => trivial
  by_cases hd : r.operation = .OP_DELETE_FILE
  · rw [controller, hd]
    refine logRequest_costs Act.added_of_calm ⟨le_rfl, fun _ => ?_⟩
    exact calm_costs Act.added_of_calm rfl fun _ => trivial
  exact controller_costs Act.added_of_calm hw ha ho hd

/-! ## Runs of requests -/

/-- The invariant of the store. -/
structure Fits (cfg : Config) (s : Server) : Prop where
  wf : s.WF cfg
  total : s.fileQueue.total ≤ cfg.maxMemSize.toNat

theorem Fits.of_budget {p : Code} {t : List (Done workerSig)} {o : Outcome} {s' : Server} {n : ℕ}
    (h : Runs (exec cfg) p s t o s') (hp : Budget Act.added p n) (hs : s.WF cfg)
    (hn : s.fileQueue.total + n ≤ cfg.maxMemSize.toNat) : Fits cfg s' := by
  obtain ⟨h1, h2⟩ := h.budget (I := fun s => s.WF cfg) (m := fun s => s.fileQueue.total)
    (fun _ _ _ _ _ hI hx => exec_total hI hx) hs n hp
  exact ⟨h1, h2.trans hn⟩

section
variable (hM : cfg.maxMemSize.toNat ≤ INT_MAX) (hs : Fits cfg s)
  {t : List (Done workerSig)} {o : Outcome} {s' : Server}
include hM hs

/-- Without an expulsion there is room for the new bytes as it is. -/
theorem Fits.no_expulsion {p : Code} {log : ℤ} (hfree : ¬ u64 (getFreeSpace cfg s.fileQueue) < r.fileSize)
    (hp : Budget Act.added p r.fileSize) (h : Runs (exec cfg) (logRequest r 0 log none p) s t o s') :
    Fits cfg s' := by
  have hle := hs.total
  unfold INT_MAX at hM
  rw [getFreeSpace_exact hM hle, u64_eq (by omega) (by omega)] at hfree
  refine .of_budget h (n := r.fileSize) ?_ hs.wf (by omega)
  exact ⟨Nat.zero_le _, fun _ => hp⟩

variable (hr : r.fileSize ≤ INT_MAX)
include hr

/-- After the expulsion of the victim there is room for the new bytes. -/
theorem Fits.expulsion {k : ℤ → Code} (hv : (victim cfg s.fileQueue (i32 r.fileSize)).isSome)
    (hk : Budget Act.added (k 0) r.fileSize) (h : Runs (exec cfg) (expulsion r k) s t o s') :
    Fits cfg s' := by
  obtain ⟨f, hf⟩ := Option.isSome_iff_exists.1 hv
  have hmem := victim_mem hf
  obtain ⟨u, ⟨hd, -⟩ | ⟨g, hg, he, sent, t', rfl, h'⟩⟩ := expulsion_runs hs.wf h
  · rw [expelFile_eq hf, hs.wf.toWF.deref_of_mem hmem] at hd
    cases hd
  · rw [expelFile_eq hf] at he
    obtain rfl := hs.wf.toWF.eq_of_addr hmem hg he
    have hroom : makesRoom (getFreeSpace cfg s.fileQueue) (i32 r.fileSize) f = true :=
      List.find?_some hf
    rw [makesRoom_exact hM hs.total hr (size_le_total hmem)] at hroom
    have hrem := total_remove hs.wf.toWF hmem (Nat.pos_iff_ne_zero.1 (hs.wf.addr f hmem).1)
    refine .of_budget h' hk (expelled_wf hs.wf) ?_
    have htot : (expelled s r f).fileQueue.total + f.size = s.fileQueue.total := hrem
    omega

/-- **A request keeps the invariant.** -/
theorem Fits.controller (hv : HasVictim cfg s.fileQueue r)
    (h : Runs (exec cfg) (controller cfg r) s t o s') : Fits cfg s' := by
  by_cases hop : r.operation = .OP_WRITE_FILE ∨ r.operation = .OP_APPEND_FILE
  · obtain ⟨t', -, h'⟩ := (store_runs hop).1 h
    rw [storeBranch] at h'
    split_ifs at h' with hbig hfree
    · refine .of_budget h' (n := 0) ?_ hs.wf hs.total
      exact ⟨le_rfl, fun _ => trivial⟩
    · have hp := expelledBody_costs (r := r) Act.added_of_calm (fun _ => le_rfl) fun _ => le_rfl
      exact hs.expulsion hM hr (hv ⟨hop, hbig, hfree⟩) hp h'
    · exact hs.no_expulsion hM hfree (storeBody_costs Act.added_of_calm (fun _ => le_rfl) fun _ => le_rfl) h'
  · obtain ⟨hw, ha⟩ := not_or.1 hop
    exact .of_budget h (controller_budget hw ha) hs.wf hs.total

end

theorem Fits.init : Fits cfg Server.init := ⟨.init cfg, Nat.zero_le _⟩

theorem Handled.fits (hM : cfg.maxMemSize.toNat ≤ INT_MAX) (h : Handled cfg InBounds s) : Fits cfg s := by
  induction h with
  | init => exact .init
  | step _ hr hv h ih => exact ih.controller hM hr hv h.defined

/-- The store is as it should be: the pathnames are distinct, the stored length is
    the number of nodes and at most `max_file`, each size is the length of the
    buffer, and the sizes add up to at most `max_mem_size`, so that `getFreeSpace`
    is not negative. -/
structure StoreInvariant (cfg : Config) (s : Server) : Prop where
  names : (s.fileQueue.data.map (·.pathname)).Nodup
  len : s.fileQueue.len = s.fileQueue.data.length
  cap : s.fileQueue.len ≤ cfg.maxFile.toNat
  size : ∀ f ∈ s.fileQueue.data, f.size = (f.file.map List.length).getD 0
  total : (s.fileQueue.data.map (·.size)).sum ≤ cfg.maxMemSize.toNat
  free : 0 ≤ getFreeSpace cfg s.fileQueue

/-- **The store over whole runs.**  It is as it should be in every state reached
    by actions that keep inside their blocks. -/
theorem store_invariant (hM : cfg.maxMemSize.toNat ≤ INT_MAX) (h : Handled cfg InBounds s) :
    StoreInvariant cfg s := by
  have hf := h.fits hM
  have hle := hf.total
  refine ⟨hf.wf.names, hf.wf.len, hf.wf.cap, fun f hmem => ?_, hle, ?_⟩
  · rw [hf.wf.size f hmem, FileNode.content]
    cases f.file <;> rfl
  · rw [getFreeSpace_exact hM hle]
    omega

/-- A client creates a file with the lock, writes three bytes and appends two. -/
theorem store_invariant_written : ∃ s, Handled ⟨10, 2⟩ InBounds s ∧ s.fileQueue.total = 5 ∧
    StoreInvariant ⟨10, 2⟩ s := by
  obtain ⟨s, hs, ht⟩ : ∃ s ∈ serve ⟨10, 2⟩ InBounds Server.init [
      (⟨1, .OP_OPEN_FILE, [47, 102], O_CREATE ||| O_LOCK, 0⟩, .replicate 9 ⟨true, [], 0, NULL⟩),
      (⟨1, .OP_WRITE_FILE, [47, 102], 0, 3⟩, .replicate 9 ⟨true, [7, 8, 9], 0, NULL⟩),
      (⟨1, .OP_APPEND_FILE, [47, 102], 0, 2⟩, .replicate 9 ⟨true, [5, 6], 0, NULL⟩)] Server.init,
      s.fileQueue.total = 5 := by decide +kernel
  have h : Handled ⟨10, 2⟩ InBounds s := serve_handled _ _ hs .init
  exact ⟨s, h, ht, store_invariant (by decide) h⟩

/-- The 41 bytes that a client appends to a file of one byte.  The block has 42, and
    behind it and the header of the next block there may be the queue node of
    another file: this one now leads to the file at the address 0x5555555592a0, and
    no other comes after it. -/
def spill : List Byte :=
  .replicate 15 1 ++ [33, 0, 0, 0, 0, 0, 0, 0] ++ [160, 146, 85, 85, 85, 85, 0, 0] ++ .replicate 10 0

/-- A client writes one byte to `/a` and to `/b`, and appends 41 to `/a`. -/
def overlong : List (Request × List Env) := [
  (⟨1, .OP_OPEN_FILE, [47, 97], O_CREATE ||| O_LOCK, 0⟩, .replicate 9 ⟨true, [], 0, NULL⟩),
  (⟨1, .OP_WRITE_FILE, [47, 97], 0, 1⟩, .replicate 9 ⟨true, [1], 0, NULL⟩),
  (⟨1, .OP_OPEN_FILE, [47, 98], O_CREATE ||| O_LOCK, 0⟩, .replicate 9 ⟨true, [], 0, NULL⟩),
  (⟨1, .OP_WRITE_FILE, [47, 98], 0, 1⟩, .replicate 9 ⟨true, [2], 0, NULL⟩),
  (⟨1, .OP_APPEND_FILE, [47, 97], 0, 41⟩, .replicate 9 ⟨true, spill, 0, NULL⟩)]

/-- The store after the append, if the address is that of `/a`: the queue has this
    file twice, and `/b` no more. -/
def overrun : Server where
  fileQueue := ⟨.replicate 2 ⟨1, [47, 97], some (appendBuffer [1] 1 spill 41), 42, 1, true⟩, 2⟩
  stats := ⟨2, 84, 0⟩
  log := overlong.map fun x => ⟨x.1, 0, x.1.fileSize, none⟩
  brk := 3

theorem not_store_invariant : ∃ s, Handled ⟨64, 4⟩ (fun _ _ => True) s ∧ ¬ StoreInvariant ⟨64, 4⟩ s := by
  have h : Handled ⟨64, 4⟩ (fun _ _ => True) overrun :=
    serve_handled overrun overlong (by decide +kernel) .init
  exact ⟨overrun, h, fun hs => absurd hs.names (by decide)⟩

end FileStorage
