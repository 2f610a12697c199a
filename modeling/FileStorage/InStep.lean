/-
  Client and server stay in step.

  A client calls a function of the API and a worker serves its requests, over
  a stream on which each read and write transfers its full count; a read or
  write of no bytes is silent.  The mutexes are free: the worker is alone in
  its critical section, other workers run when it sleeps or has finished a
  request.

  The function and the controller agree in every branch (`Accord`), but for
  one: `readData` of no bytes returns an unset variable, and if that is `-1`
  `write_file_controller` does not answer.
-/
import FileStorage.Client
import FileStorage.Failure
import FileStorage.Threads.Dialogue

namespace FileStorage

open Threads Duplex

/-! ## The stream -/

/-- From the client to the server. -/
inductive ToServer where
  | request (request : Request)
  | bytes (buf : List Byte)

/-- From the server to the client. -/
inductive ToClient where
  | response (response : Response)
  | bytes (buf : List Byte)

/-- Sending a block. -/
def sends {O I : Type} (m : List Byte → O) (buf : List Byte) : Label O I :=
  if buf.length = 0 then .tau else .snd (m buf)

/-- Reading `size` bytes takes a block of this size. -/
def takes {O I : Type} (m : List Byte → I) (size : ℕ) (buf : List Byte) : Option (Label O I) :=
  if size = 0 then some .tau else if buf.length = size then some (.rcv (m buf)) else none

def workerLabels : Labels workerSig Env ToClient ToServer
  | .write response, e => if e.ok then some (.snd (.response response)) else none
  | .writeBytes buf, e => if e.ok then some (sends .bytes buf) else none
  | .readData size, e => takes .bytes size e.bytes
  | .read size, e => if e.ok then takes .bytes size e.bytes else none
  | _, _ => some .tau

def clientLabels : Labels clientSig ClientEnv ToServer ToClient
  | .write request, e => if e.ok then some (.snd (.request request)) else none
  | .readResponse, e => if e.ok then some (.rcv (.response e.response)) else none
  | .writeBytes buf, e => if e.ok then some (sends .bytes buf) else none
  | .readData size, e => takes .bytes size e.bytes
  | .read size, e => if e.ok then takes .bytes size e.bytes else none
  | _, _ => some .tau

/-- What other workers may do to the shared state. -/
def Later (cfg : Config) : Server → Server → Prop :=
  Relation.ReflTransGen fun s s' => ∃ a e x, exec cfg a e s = some (x, s')

/-- The process of the client; its state is the result of the API function. -/
def client : Peer (ClientCode × Option ℤ) ToServer ToClient := clientPeer clientExec clientLabels

/-- The worker that serves the connection. -/
def worker (cfg : Config) : Peer (Option Code × Server) ToClient ToServer :=
  serverPeer (exec cfg) workerLabels (Later cfg) .request (controller cfg)

/-- The call stays in step with the server, which serves its first request in
    the state `s`. -/
def StaysInStep (cfg : Config) (pid : ℤ) (disk : CString → Option LocalFile) (call : ApiCall)
    (s : Server) : Prop :=
  InStep client (worker cfg) (call.code pid disk, none) (none, s)

/-- The call writes an empty file whose lock the client holds. -/
def WritesEmpty (pid : ℤ) (disk : CString → Option LocalFile) (q : Queue FileNode) :
    ApiCall → Prop
  | .writeFile (some p) _ => (∃ file ∈ disk p, file.size = 0) ∧ hasFileLock q p pid = 0
  | _ => False

/-- The call sends the request to write or append. -/
def ApiCall.Stores (disk : CString → Option LocalFile) : ApiCall → Request → Prop
  | .writeFile (some p) _, r =>
    r.operation = .OP_WRITE_FILE ∧ ∃ file ∈ disk p, r.fileSize = file.size
  | .appendToFile (some _) (some buf) _, r => r.operation = .OP_APPEND_FILE ∧ r.fileSize = buf.length
  | _, _ => False

/-- An environment in which nothing fails. -/
def Env.fair (buf : List Byte) : Env := ⟨true, buf, 0, NULL⟩

/-- An environment in which nothing fails. -/
def ClientEnv.fair (response : Response) (buf : List Byte) : ClientEnv :=
  ⟨true, response, buf, 0, ⟨0, .OP_OPEN_FILE, [], 0, 0⟩⟩

section
variable {cfg : Config} {s s' : Server} {r : Request} {pid : ℤ}
  {disk : CString → Option LocalFile} {api : ApiCall} {t : Option ℤ}
  {c : ClientCode × Option ℤ} {d : Option Code × Server}

theorem Later.wf (h : Later cfg s s') (hs : s.WF cfg) : s'.WF cfg := by
  induction h with
  | refl => exact hs
  | tail _ hx ih => obtain ⟨a, e, x, hx⟩ := hx; exact exec_wf ih hx

/-- The client and the worker agree. -/
abbrev Accord (cfg : Config) : ClientCode × Option ℤ → Option Code × Server → Prop :=
  InAccord clientExec clientLabels (exec cfg) workerLabels (Later cfg) ToServer.request
    (controller cfg)

theorem Accord.staysInStep (h : Accord cfg (api.code pid disk, none) (none, s)) :
    StaysInStep cfg pid disk api s := h.inStep

/-! ## Silent actions -/

theorem silent_call (x : Call) : workerLabels.Silent (.call x) := by
  intro e l h; cases h; rfl

/-- A call on the store. -/
theorem Accord.call {x : Call} {k : x.Ans → Code} (hx : ∃ e y s', x.exec cfg e s = some (y, s'))
    (h : ∀ e y s', x.exec cfg e s = some (y, s') → Accord cfg c (some (k y), s')) :
    Accord cfg c (some (.act (.call x) k), s) := by
  obtain ⟨e, y, s', hx⟩ := hx
  exact InAccord.act (silent_call x) ⟨e, y, s', rfl, hx⟩ fun e y s' _ hx => h e y s' hx

/-- A call on the store with one result. -/
theorem Accord.call_eq {x : Call} {k : x.Ans → Code} {y : x.Ans}
    (hx : ∀ e, x.exec cfg e s = some (y, s')) (h : Accord cfg c (some (k y), s')) :
    Accord cfg c (some (.act (.call x) k), s) := by
  refine .call ⟨.fair [], y, s', hx _⟩ fun e y' s₁ hx' => ?_
  obtain ⟨rfl, rfl⟩ := Prod.mk.inj (Option.some.inj ((hx e).symm.trans hx'))
  exact h

theorem Accord.log {rd wr : ℤ} {rep : Option CString} {k : Code}
    (h : Accord cfg c (some k, { s with log := s.log ++ [⟨r, rd, wr, rep⟩] })) :
    Accord cfg c (some (logRequest r rd wr rep k), s) := by
  refine InAccord.act (fun e l h => by cases h; rfl) ⟨.fair [], (), _, rfl, rfl⟩ ?_
  intro e x s' _ hx
  cases hx
  exact h

theorem Accord.ret (h : ∀ s', Later cfg s s' → Accord cfg c (none, s')) :
    Accord cfg c (some .ret, s) :=
  InAccord.ret ⟨s, .refl⟩ h

theorem Accord.newRequest {k : Request → ClientCode} (h : ∀ r, Accord cfg (k r, t) d) :
    Accord cfg (.act .newRequest k, t) d := by
  refine InAccord.client (fun e l h => by cases h; rfl)
    ⟨.fair (respond 0 []) [], _, _, rfl, rfl⟩ ?_
  intro e x t' _ hx
  cases hx
  exact h _

theorem Accord.returns {k : Unit → ClientCode} {res : ℤ} (h : Accord cfg (k (), some res) d) :
    Accord cfg (.act (.returns res) k, t) d := by
  refine InAccord.client (fun e l h => by cases h; rfl)
    ⟨.fair (respond 0 []) [], (), _, rfl, rfl⟩ ?_
  intro e x t' _ hx
  cases hx
  exact h

/-- `saveFileDir` kills the client or goes on. -/
theorem Accord.saveFileDir {buf : List Byte} {dirname fileName : CString} {k : Unit → ClientCode}
    (h : Accord cfg (k (), t) d) : Accord cfg (.act (.saveFileDir buf dirname fileName) k, t) d := by
  by_cases hn : 47 ∈ fileName
  · have hx : ∀ e, clientExec (.saveFileDir buf dirname fileName) e t = some ((), t) := fun e =>
      if_pos hn
    refine InAccord.client (fun e l h => by cases h; rfl)
      ⟨.fair (respond 0 []) [], (), _, rfl, hx _⟩ ?_
    intro e x t' _ hx'
    rw [hx] at hx'
    cases hx'
    exact h
  · exact InAccord.killed fun e => if_neg hn

/-! ## Messages -/

theorem received_eq {buf : List Byte} {n : ℕ} (h : buf.length = n) : received n buf = buf := by
  subst h
  simp [received]

theorem Accord.request {k : Bool → ClientCode} (h : Accord cfg (k true, t) (some (controller cfg r), s)) :
    Accord cfg (.act (.write r) k, t) (none, s) := by
  refine InAccord.request (r := r) (fun r r' he => ToServer.request.inj he) (fun e l he => ?_)
    ⟨.fair (respond 0 []) [], true, t, rfl, rfl⟩ fun e x t' he hx => ?_
  · simp only [clientLabels] at he
    split_ifs at he
    cases he
    rfl
  · simp only [clientLabels] at he
    split_ifs at he with hok
    cases hx
    rw [hok]
    exact h

theorem Accord.response {response : Response} {k : Option Response → ClientCode} {k' : Bool → Code}
    (h : Accord cfg (k (some response), t) (some (k' true), s)) :
    Accord cfg (.act .readResponse k, t) (some (.act (.write response) k'), s) := by
  refine InAccord.answer ⟨.fair [], .response response, true, s, rfl, rfl⟩ (fun e l he => ?_)
    (fun e l he => ?_) (fun e m x s' he hx => ?_) fun e m x s' f y t' he hx hf hy => ?_
  · simp only [workerLabels] at he
    split_ifs at he
    exact ⟨_, (Option.some.inj he).symm⟩
  · simp only [clientLabels] at he
    split_ifs at he
    exact ⟨_, (Option.some.inj he).symm⟩
  · simp only [workerLabels] at he
    split_ifs at he
    cases he
    exact ⟨.fair response [], _, t, rfl, rfl⟩
  · simp only [workerLabels] at he
    split_ifs at he with hok
    simp only [clientLabels] at hf
    split_ifs at hf with hokf
    cases he
    have hr : ToClient.response f.response = .response response := by
      simpa using hf
    cases hx
    cases hy
    rw [hok, if_pos hokf, ToClient.response.inj hr]
    exact h

/-! ## Blocks -/

section
variable {O I : Type} {m : List Byte → I} {n : ℕ} {buf : List Byte} {l : Label O I}

theorem takes_self (h : buf.length = n) :
    takes m n buf = some (if n = 0 then (.tau : Label O I) else .rcv (m buf)) := by
  rw [takes]
  split_ifs
  · rfl
  · rfl

/-- The block taken, of which `received` keeps all. -/
theorem takes_received (h : takes m n buf = some l) : (received n buf).length = n ∧
    l = if n = 0 then .tau else .rcv (m (received n buf)) := by
  rw [takes] at h
  split_ifs at h with h0 hb
  · cases h
    simp [received, h0]
  · cases h
    rw [received_eq hb, if_neg h0]
    exact ⟨hb, rfl⟩

end

/-- The count that `readData` returns for a block that is not empty. -/
theorem readData_count {n : ℕ} {unset : ℤ} (h : n ≠ 0) :
    (if n = 0 then unset else unset % n + 1) ≠ -1 := by
  rw [if_neg h]
  have := Int.emod_nonneg unset (Int.natCast_ne_zero.2 h)
  omega

section
variable {S : Sig} {σ E O I : Type} {X : Exec S σ E} {lab : Labels S E O I} {a : S.Act}
  (ok : E → Bool)

/-- A write transfers its block in the environments in which it succeeds. -/
theorem writes_of_sends {m : List Byte → O} {buf : List Byte} {G : S.Ans a → Prop}
    (hl : ∀ e, lab a e = if ok e then some (sends m buf) else none) (hok : ∃ e, ok e = true)
    (hx : ∀ e s, ∃ x, X a e s = some (x, s) ∧ (ok e = true → G x)) : Writes X lab m a buf G where
  label e l h := by
    rw [hl] at h
    split_ifs at h
    exact (Option.some.inj h).symm
  can s := by
    obtain ⟨e, he⟩ := hok
    obtain ⟨x, hx, -⟩ := hx e s
    exact ⟨e, _, x, s, (hl e).trans (if_pos he), hx⟩
  ans e l x s s' h hx' := by
    rw [hl] at h
    split_ifs at h with he
    obtain ⟨y, hy, hG⟩ := hx e s
    cases hy.symm.trans hx'
    exact ⟨rfl, hG he⟩

/-- A read takes its block in the environments in which it succeeds. -/
theorem reads_of_takes {m : List Byte → I} {n : ℕ} {G : List Byte → S.Ans a → Prop}
    {bytes : E → List Byte} (hl : ∀ e, lab a e = if ok e then takes m n (bytes e) else none)
    (hok : ∀ buf, ∃ e, ok e = true ∧ bytes e = buf)
    (hx : ∀ e s, ∃ x, X a e s = some (x, s) ∧
      (ok e = true → (received n (bytes e)).length = n → G (received n (bytes e)) x)) :
    Reads X lab m a n G where
  label e l h := by
    rw [hl] at h
    split_ifs at h with he
    obtain ⟨h1, h2⟩ := takes_received h
    refine ⟨received n (bytes e), h1, h2, fun x s s' hx' => ?_⟩
    obtain ⟨y, hy, hG⟩ := hx e s
    cases hy.symm.trans hx'
    exact ⟨rfl, hG he h1⟩
  can buf s h := by
    obtain ⟨e, he, rfl⟩ := hok buf
    obtain ⟨x, hx, -⟩ := hx e s
    exact ⟨e, x, s, (hl e).trans ((if_pos he).trans (takes_self h)), hx⟩

end

theorem worker_writes (buf : List Byte) :
    Writes (exec cfg) workerLabels ToClient.bytes (.writeBytes buf) buf fun ok : Bool => ok = true :=
  writes_of_sends Env.ok (fun _ => rfl) ⟨.fair [], rfl⟩ fun e _ => ⟨e.ok, rfl, id⟩

theorem client_writes (buf : List Byte) : Writes clientExec clientLabels ToServer.bytes
    (.writeBytes buf) buf fun ok : Bool => ok = true :=
  writes_of_sends ClientEnv.ok (fun _ => rfl) ⟨.fair (respond 0 []) [], rfl⟩ fun e _ => ⟨e.ok, rfl, id⟩

/-- The buffer, and a count that is `-1` at most for no bytes. -/
def Filled (buf : List Byte) (x : List Byte × ℤ) : Prop := x.1 = buf ∧ (buf ≠ [] → x.2 ≠ -1)

theorem filled {n : ℕ} {unset : ℤ} {buf : List Byte} (h : (received n buf).length = n) :
    Filled (received n buf) (received n buf, if n = 0 then unset else unset % n + 1) := by
  refine ⟨rfl, fun hb => readData_count ?_⟩
  rintro rfl
  exact hb (List.length_eq_zero_iff.1 h)

theorem worker_readData (n : ℕ) :
    Reads (exec cfg) workerLabels ToServer.bytes (.readData n) n Filled :=
  reads_of_takes (fun _ => true) (fun _ => rfl) (fun buf => ⟨.fair buf, rfl, rfl⟩)
    fun _ _ => ⟨_, rfl, fun _ => filled⟩

theorem client_readData (n : ℕ) :
    Reads clientExec clientLabels ToClient.bytes (.readData n) n Filled :=
  reads_of_takes (fun _ => true) (fun _ => rfl)
    (fun buf => ⟨.fair (respond 0 []) buf, rfl, rfl⟩) fun _ _ => ⟨_, rfl, fun _ => filled⟩

theorem worker_read (n : ℕ) : Reads (exec cfg) workerLabels ToServer.bytes (.read n) n
    fun buf (x : Option (List Byte)) => x = some buf :=
  reads_of_takes Env.ok (fun _ => rfl) (fun buf => ⟨.fair buf, rfl, rfl⟩)
    fun _ _ => ⟨_, rfl, fun h _ => if_pos h⟩

theorem client_read (n : ℕ) : Reads clientExec clientLabels ToClient.bytes (.read n) n
    fun buf (x : Option (List Byte)) => x = some buf :=
  reads_of_takes ClientEnv.ok (fun _ => rfl) (fun buf => ⟨.fair (respond 0 []) buf, rfl, rfl⟩)
    fun _ _ => ⟨_, rfl, fun h _ => if_pos h⟩

theorem Accord.block {buf : List Byte} {n : ℕ} {k : List Byte × ℤ → ClientCode} {k' : Bool → Code}
    (hn : buf.length = n)
    (h : ∀ z : ℤ, (buf ≠ [] → z ≠ -1) → Accord cfg (k (buf, z), t) (some (k' true), s)) :
    Accord cfg (.act (.readData n) k, t) (some (.act (.writeBytes buf) k'), s) := by
  refine InAccord.block_down (fun _ _ => ToClient.bytes.inj) (worker_writes buf)
    (client_readData n) hn ?_
  rintro x ⟨b, z⟩ hx ⟨hb, hz⟩
  have hb' : b = buf := hb
  rw [hx, hb']
  exact h z hz

theorem Accord.block_read {buf : List Byte} {n : ℕ} {k : Option (List Byte) → ClientCode}
    {k' : Bool → Code} (hn : buf.length = n)
    (h : Accord cfg (k (some buf), t) (some (k' true), s)) :
    Accord cfg (.act (.read n) k, t) (some (.act (.writeBytes buf) k'), s) := by
  refine InAccord.block_down (fun _ _ => ToClient.bytes.inj) (worker_writes buf)
    (client_read n) hn ?_
  rintro x y hx hy
  rw [hx, hy]
  exact h

theorem Accord.content {buf : List Byte} {n : ℕ} {k : Bool → ClientCode} {k' : List Byte × ℤ → Code}
    (hn : buf.length = n)
    (h : ∀ z : ℤ, (buf ≠ [] → z ≠ -1) → Accord cfg (k true, t) (some (k' (buf, z)), s)) :
    Accord cfg (.act (.writeBytes buf) k, t) (some (.act (.readData n) k'), s) := by
  refine InAccord.block_up (fun _ _ => ToServer.bytes.inj) (client_writes buf)
    (worker_readData n) hn ?_
  rintro x ⟨b, z⟩ hx ⟨hb, hz⟩
  have hb' : b = buf := hb
  rw [hx, hb']
  exact h z hz

theorem Accord.content_read {buf : List Byte} {n : ℕ} {k : Bool → ClientCode}
    {k' : Option (List Byte) → Code} (hn : buf.length = n)
    (h : Accord cfg (k true, t) (some (k' (some buf)), s)) :
    Accord cfg (.act (.writeBytes buf) k, t) (some (.act (.read n) k'), s) := by
  refine InAccord.block_up (fun _ _ => ToServer.bytes.inj) (client_writes buf)
    (worker_read n) hn ?_
  rintro x y hx hy
  rw [hx, hy]
  exact h

/-! ## One response -/

theorem Server.WF.log (hs : s.WF cfg) {log : List LogRecord} :
    Server.WF cfg { s with log := log } := ⟨hs.toWF, hs.addr, hs.brk, hs.cap⟩

/-- The worker sends its last response and returns. -/
theorem Accord.last {response : Response} {k : Option Response → ClientCode} (hs : s.WF cfg)
    (h : ∀ s', s'.WF cfg → Accord cfg (k (some response), t) (none, s')) :
    Accord cfg (.act .readResponse k, t)
      (some (.act (.write response) fun _ => .unlock .fileQueueMutex .ret), s) :=
  Accord.response (InAccord.unlock (Accord.ret fun s' hl => h s' (hl.wf hs)))

/-- A call that does not wait. -/
theorem Accord.call_wf {x : Call} {k : x.Ans → Code} (hs : s.WF cfg)
    (hx : ∃ e y s', x.exec cfg e s = some (y, s'))
    (h : ∀ y s', s'.WF cfg → Accord cfg c (some (k y), s')) :
    Accord cfg c (some (.act (.call x) k), s) :=
  .call hx fun _ _ _ hx => h _ _ (Call.exec_wf hs hx)

/-- The loop around `openVirtualFile` or `lockVirtualFile`. -/
theorem Accord.await {x : Call} {b : x.Ans → Bool} {us : List Mutex} {cd : Cond} {m : Mutex}
    {k : x.Ans → Code} (hs : s.WF cfg) (hx : ∀ s, ∃ e y s', x.exec cfg e s = some (y, s'))
    (h : ∀ y s', s'.WF cfg → Accord cfg c (some (k y), s')) :
    Accord cfg c (some (.await (.call x) b us cd m k), s) := by
  refine InAccord.await (fun s => s.WF cfg) hs (silent_call x) (fun s hs => ?_)
    (fun e y s s' s'' hs _ hx hl => hl.wf (exec_wf hs hx))
    fun e y s s' hs _ hx _ => h y s' (exec_wf hs hx)
  obtain ⟨e, y, s', hx⟩ := hx s
  exact ⟨e, y, s', rfl, hx, s', .refl⟩

/-- The controllers that answer once. -/
theorem Accord.reply {k : Option Response → ClientCode} (hs : s.WF cfg)
    (hop : r.operation = .OP_OPEN_FILE ∨ r.operation = .OP_LOCK_FILE ∨
      r.operation = .OP_UNLOCK_FILE ∨ r.operation = .OP_DELETE_FILE ∨ r.operation = .OP_CLOSE_FILE)
    (h : ∀ response s', s'.WF cfg → Accord cfg (k (some response), t) (none, s')) :
    Accord cfg (.act .readResponse k, t) (some (controller cfg r), s) := by
  rcases hop with hop | hop | hop | hop | hop
  · rw [controller, hop]
    refine Accord.log (InAccord.lock (InAccord.lock (Accord.await hs.log (fun s => ⟨.fair [], _, _, rfl⟩) ?_)))
    exact fun y s' hs' => InAccord.unlock (Accord.last hs' (h _))
  · rw [controller, hop]
    refine Accord.log (InAccord.lock (InAccord.lock (Accord.await hs.log (fun s => ⟨.fair [], _, _, rfl⟩) ?_)))
    exact fun y s' hs' => InAccord.unlock (Accord.last hs' (h _))
  · rw [controller, hop]
    refine Accord.log (InAccord.lock (Accord.call_wf hs.log ⟨.fair [], _, _, rfl⟩ fun y s' hs' => ?_))
    split_ifs
    · exact InAccord.lock (InAccord.broadcast (InAccord.unlock (Accord.last hs' (h _))))
    · exact Accord.last hs' (h _)
  · rw [controller, hop]
    refine Accord.log (InAccord.lock (Accord.call_wf hs.log ⟨.fair [], _, _, rfl⟩ fun y s' hs' => ?_))
    exact Accord.last hs' (h _)
  · rw [controller, hop]
    refine Accord.log (InAccord.lock (Accord.call_wf hs.log ⟨.fair [], _, _, rfl⟩ fun y s' hs' => ?_))
    exact Accord.last hs' (h _)

/-- A function that sends a request which is answered once. -/
theorem Accord.sendPath {op : Operation} {pathname : Option CString} {k : ℤ → ClientCode}
    (hs : s.WF cfg) (hop : op = .OP_LOCK_FILE ∨ op = .OP_UNLOCK_FILE ∨ op = .OP_DELETE_FILE ∨
      op = .OP_CLOSE_FILE)
    (h : ∀ res s', s'.WF cfg → Accord cfg (k res, t) (none, s')) :
    Accord cfg (sendPath op pid pathname k, t) (none, s) := by
  cases pathname with
  | none => exact h _ s hs
  | some p =>
    refine Accord.newRequest fun r => Accord.request ?_
    exact Accord.reply hs (Or.inr hop) fun response s' hs' => h _ s' hs'

theorem Accord.openFile {p : CString} {flags : Flags} {k : ℤ → ClientCode} (hs : s.WF cfg)
    (h : ∀ res s', s'.WF cfg → Accord cfg (k res, t) (none, s')) :
    Accord cfg (openFile pid p flags k, t) (none, s) := by
  refine Accord.newRequest fun r => Accord.request ?_
  exact Accord.reply hs (Or.inl rfl) fun response s' hs' => h _ s' hs'

/-! ## Reading files -/

theorem readVirtualFile_length {q : Queue FileNode} {p : CString} {buf : List Byte}
    {n : ℕ} (h : readVirtualFile q p = some (buf, n)) : buf.length = n := by
  rw [readVirtualFile] at h
  split at h
  · cases h
  · split_ifs at h
    cases h
    simp

theorem Accord.readFile {p : CString} {k : ℤ → List Byte → ClientCode} (hs : s.WF cfg)
    (h : ∀ res buf s', s'.WF cfg → Accord cfg (k res buf, t) (none, s')) :
    Accord cfg (readFile pid p k, t) (none, s) := by
  -- the controller after the file, or the error, has been sent
  have hend : ∀ {res buf} (rbyte : ℤ) (r : Request), Accord cfg (k res buf, t)
      (some (if rbyte = 0 then logRequest r rbyte 0 none (.unlock .fileQueueMutex .ret)
        else .unlock .fileQueueMutex .ret), s) := by
    intro res buf rbyte r
    split_ifs
    · exact Accord.log (InAccord.unlock (Accord.ret fun s' hl => h _ _ s' (hl.wf hs.log)))
    · exact InAccord.unlock (Accord.ret fun s' hl => h _ _ s' (hl.wf hs))
  refine Accord.newRequest fun r => Accord.request (InAccord.lock ?_)
  refine Accord.call_eq (fun _ => rfl) ?_
  cases hr : readVirtualFile s.fileQueue p with
  | none => exact Accord.response (hend _ _)
  | some x =>
    obtain ⟨buf, n⟩ := x
    refine Accord.response (Accord.block (readVirtualFile_length hr) fun z _ => ?_)
    obtain ⟨res, hres⟩ : ∃ res, (if z ≠ -1 then k 0 buf else k (-1) buf) = k res buf := by
      split_ifs
      · exact ⟨0, rfl⟩
      · exact ⟨-1, rfl⟩
    show Accord cfg (if z ≠ -1 then k 0 buf else k (-1) buf, t) _
    rw [hres]
    exact hend _ _

theorem Accord.readTokens {dirname : CString} {k : ClientCode}
    (h : ∀ s', s'.WF cfg → Accord cfg (k, t) (none, s')) :
    ∀ (tokens : List CString) {s : Server}, s.WF cfg →
      Accord cfg (readTokens pid dirname k tokens, t) (none, s)
  | [], s, hs => h s hs
  | token :: tokens, s, hs => by
    refine Accord.readFile hs fun res buf s' hs' => ?_
    split_ifs
    · exact Accord.saveFileDir (Accord.readTokens h tokens hs')
    · exact Accord.readTokens h tokens hs'

theorem Accord.readnFileBody {st : ℤ} {fileList : Option CString} {k : Option Response → ClientCode}
    (hs : s.WF cfg) (h : ∀ response s', s'.WF cfg → Accord cfg (k (some response), t) (none, s')) :
    Accord cfg (.act .readResponse k, t) (some (readnFileBody st fileList), s) := by
  cases fileList with
  | some fileList => exact Accord.last hs (h _)
  | none => exact InAccord.crash fun _ => rfl

theorem Accord.readnFileController {k : Option Response → ClientCode} (hs : s.WF cfg)
    (h : ∀ response s', s'.WF cfg → Accord cfg (k (some response), t) (none, s')) :
    Accord cfg (.act .readResponse k, t) (some (readnFileController r), s) := by
  refine Accord.log (InAccord.lock (Accord.call_eq (fun _ => rfl) ?_))
  split_ifs
  · exact Accord.response (Accord.ret fun s' hl => h _ s' (hl.wf hs.log))
  · exact Accord.readnFileBody hs.log h

theorem Accord.readNFiles {N : ℤ} {dirname : Option CString} {k : ℤ → ClientCode} (hs : s.WF cfg)
    (h : ∀ res s', s'.WF cfg → Accord cfg (k res, t) (none, s')) :
    Accord cfg (readNFiles pid N dirname k, t) (none, s) := by
  cases dirname with
  | none => exact h _ s hs
  | some dirname =>
    refine Accord.newRequest fun r => Accord.request (Accord.readnFileController hs ?_)
    intro response s' hs'
    dsimp only
    split_ifs
    · exact h _ s' hs'
    · exact Accord.readTokens (fun s' hs' => h _ s' hs') _ hs'

/-! ## Writing files -/

section
variable {content : List Byte} {j : Option Response → ClientCode} {k : ℤ → ClientCode}

theorem sendContent_refused {response : Response} (h : response.statusCode = -1) :
    sendContent content response k = k (-1) := if_pos h

/-- A write from the lock check on. -/
theorem Accord.writeFileBody (hs : s.WF cfg) (hn : content.length = r.fileSize)
    (hj : ∀ response : Response, response.statusCode ≠ 1 →
      j (some response) = sendContent content response k)
    (hne : content = [] → hasFileLock s.fileQueue r.filepath r.clientId ≠ 0)
    (h : ∀ res s', s'.WF cfg → Accord cfg (k res, t) (none, s')) :
    Accord cfg (.act .readResponse j, t) (some (writeFileBody r), s) := by
  refine Accord.call_eq (fun _ => rfl) ?_
  by_cases hl : hasFileLock s.fileQueue r.filepath r.clientId = 0
  · rw [if_pos hl]
    refine Accord.response ?_
    rw [hj _ (by decide), sendContent, if_neg (by decide)]
    refine Accord.content hn fun z hz => ?_
    have hz' : z ≠ -1 := hz fun h0 => hne h0 hl
    show Accord cfg _ (some (if z ≠ -1 then _ else _), s)
    rw [if_pos hz']
    exact Accord.call_wf hs ⟨.fair [], _, _, rfl⟩ fun y s' hs' => Accord.last hs' fun s' hs' => h _ s' hs'
  · rw [if_neg hl]
    refine Accord.response ?_
    rw [hj _ (by decide), sendContent_refused rfl]
    exact InAccord.unlock (Accord.ret fun s' hl => h _ s' (hl.wf hs))

/-- An append from the lock check on. -/
theorem Accord.appendFileBody (hs : s.WF cfg) (hn : content.length = r.fileSize)
    (hj : ∀ response : Response, response.statusCode ≠ 1 →
      j (some response) = sendContent content response k)
    (h : ∀ res s', s'.WF cfg → Accord cfg (k res, t) (none, s')) :
    Accord cfg (.act .readResponse j, t) (some (appendFileBody r), s) := by
  refine Accord.call_eq (fun _ => rfl) ?_
  by_cases hl : hasFileLock s.fileQueue r.filepath r.clientId = 0
  · rw [if_pos hl]
    refine Accord.response ?_
    rw [hj _ (by decide), sendContent, if_neg (by decide)]
    refine Accord.content_read hn ?_
    exact Accord.call_wf hs ⟨.fair [], _, _, rfl⟩ fun y s' hs' => Accord.last hs' fun s' hs' => h _ s' hs'
  · rw [if_neg hl]
    refine Accord.response ?_
    rw [hj _ (by decide), sendContent_refused rfl]
    exact InAccord.unlock (Accord.ret fun s' hl => h _ s' (hl.wf hs))

/-- A file that a write expels is not empty. -/
theorem victim_size {q : Queue FileNode} {f : FileNode} (hop : r.operation = .OP_WRITE_FILE)
    (hneeds : NeedsExpulsion cfg q r) (hf : victim cfg q (i32 r.fileSize) = some f) : f.size ≠ 0 := by
  intro h0
  have hroom : makesRoom (getFreeSpace cfg q) (i32 r.fileSize) f = true := List.find?_some hf
  obtain ⟨-, hbig, hfree⟩ := hneeds
  have hle : r.fileSize ≤ cfg.maxMemSize.toNat := not_lt.1 fun hlt => hbig ⟨hop, hlt⟩
  have hmax := cfg.maxMemSize.toNat_lt
  rw [makesRoom, decide_eq_true_eq, h0] at hroom
  unfold u64 i32 at hroom
  unfold u64 at hfree
  rw [Int.bmod_def] at hroom
  split at hroom <;> omega

/-- The client takes the expelled file and waits for the second response. -/
def TakesExpelled (cfg : Config) (content : List Byte) (k : ℤ → ClientCode) (t : Option ℤ)
    (j : Option Response → ClientCode) (f : FileNode) : Prop :=
  ∀ (q : Code) (s : Server),
    (∀ j', (∀ response, j' (some response) = sendContent content response k) →
      Accord cfg (.act .readResponse j', t) (some q, s)) →
    Accord cfg (j (some ⟨1, f.size, str "Ready to send file", f.pathname⟩), t)
      (some (.act (.writeBytes ((f.file.getD []).take f.size)) fun _ => q), s)

theorem Accord.storeBody (hs : s.WF cfg) (hn : content.length = r.fileSize)
    (hj : ∀ response : Response, response.statusCode ≠ 1 →
      j (some response) = sendContent content response k)
    (hne : r.operation = .OP_WRITE_FILE → content = [] →
      hasFileLock s.fileQueue r.filepath r.clientId ≠ 0)
    (h : ∀ res s', s'.WF cfg → Accord cfg (k res, t) (none, s')) :
    Accord cfg (.act .readResponse j, t) (some (storeBody r), s) := by
  unfold FileStorage.storeBody
  split_ifs with hw
  · exact Accord.writeFileBody hs hn hj (hne hw) h
  · exact Accord.appendFileBody hs hn hj h

/-- After `removeNode`. -/
theorem Accord.expelledBody (hs : s.WF cfg) {res : ℤ} (hn : content.length = r.fileSize) (hne : content ≠ [])
    (hj : ∀ response : Response, j (some response) = sendContent content response k)
    (h : ∀ res s', s'.WF cfg → Accord cfg (k res, t) (none, s')) :
    Accord cfg (.act .readResponse j, t) (some (expelledBody r res), s) := by
  unfold FileStorage.expelledBody
  split_ifs
  · refine InAccord.act (fun e l h => by cases h; rfl) ⟨.fair [], (), _, rfl, rfl⟩ ?_
    intro e x s' _ hx
    exact Accord.writeFileBody (exec_wf hs hx) hn (fun x _ => hj x) (fun h0 => absurd h0 hne) h
  · exact Accord.writeFileBody hs hn (fun x _ => hj x) (fun h0 => absurd h0 hne) h
  · exact Accord.appendFileBody hs hn (fun x _ => hj x) h

/-- A write or append with an expulsion. -/
theorem Accord.expulsion (hs : s.WF cfg) (hn : content.length = r.fileSize) (hne : content ≠ []) {f : FileNode}
    (hf : victim cfg s.fileQueue (i32 r.fileSize) = some f) (hj : TakesExpelled cfg content k t j f)
    (h : ∀ res s', s'.WF cfg → Accord cfg (k res, t) (none, s')) :
    Accord cfg (.act .readResponse j, t) (some (expulsion r (FileStorage.expelledBody r)), s) := by
  have hd : s.fileQueue.deref f.addr = some f := hs.toWF.deref_of_mem (victim_mem hf)
  have hderef : ∀ {s' : Server}, s'.fileQueue = s.fileQueue →
      ∀ e, Call.exec cfg e s' (.deref f.addr) = some (f, s') := by
    intro s' hq e
    simp [Call.exec, hq, hd]
  refine Accord.call_eq (fun e => by simp only [Call.exec, expelFile_eq hf]; rfl) ?_
  refine Accord.call_eq (hderef rfl) (Accord.response (hj _ _ fun j' hj' => ?_))
  refine Accord.call_eq (hderef rfl) (Accord.log ?_)
  exact Accord.call_wf hs.log ⟨.fair [], _, _, rfl⟩ fun res s' hs' =>
    Accord.expelledBody hs' hn hne hj' h

/-- **A write or append agrees with its controller.** -/
theorem Accord.store (content : List Byte) (k : ℤ → ClientCode)
    (hop : r.operation = .OP_WRITE_FILE ∨ r.operation = .OP_APPEND_FILE)
    (hs : s.WF cfg) (hn : content.length = r.fileSize) (hv : HasVictim cfg s.fileQueue r)
    (hj : ∀ response : Response, response.statusCode ≠ 1 →
      j (some response) = sendContent content response k)
    (hexp : ∀ f ∈ s.fileQueue.data, (r.operation = .OP_WRITE_FILE → f.size ≠ 0) →
      TakesExpelled cfg content k t j f)
    (hne : r.operation = .OP_WRITE_FILE → content = [] →
      hasFileLock s.fileQueue r.filepath r.clientId ≠ 0)
    (h : ∀ res s', s'.WF cfg → Accord cfg (k res, t) (none, s')) :
    Accord cfg (.act .readResponse j, t) (some (controller cfg r), s) := by
  rw [controller_eq hop]
  refine InAccord.lock (Accord.call_eq (fun _ => rfl) ?_)
  unfold storeBranch
  split_ifs with hbig hfree
  · refine Accord.response ?_
    rw [hj _ (by decide), sendContent_refused rfl]
    exact Accord.ret fun s' hl => h _ s' (hl.wf hs)
  · have hneeds : NeedsExpulsion cfg s.fileQueue r := ⟨hop, hbig, hfree⟩
    obtain ⟨f, hf⟩ := Option.isSome_iff_exists.1 (hv hneeds)
    have hpos : content ≠ [] := by
      rintro rfl
      have h0 : (0 : ℤ) ≤ u64 (getFreeSpace cfg s.fileQueue) := by unfold u64; omega
      rw [List.length_nil] at hn
      omega
    exact Accord.expulsion hs hn hpos hf
      (hexp f (victim_mem hf) fun hw => victim_size hw hneeds hf) h
  · exact Accord.log (Accord.storeBody hs.log hn hj hne h)

end

/-! ### The functions of the client -/

theorem Accord.saveExpelled {buf : List Byte} {dirname : Option CString} {fileName : CString}
    {k : ClientCode} (h : Accord cfg (k, t) d) :
    Accord cfg (saveExpelled buf dirname fileName k, t) d := by
  cases dirname with
  | none => exact h
  | some dirname => exact Accord.saveFileDir h

/-- The block of an expelled file. -/
theorem expelled_length {f : FileNode} (hs : s.WF cfg) (hf : f ∈ s.fileQueue.data) :
    ((f.file.getD []).take f.size).length = f.size := by
  have hsize : f.size = (f.file.getD []).length := hs.toWF.size f hf
  simp [← hsize]

theorem Accord.writeFile {pathname dirname : Option CString} {k : ℤ → ClientCode} (hs : s.WF cfg)
    (hv : ∀ r, (ApiCall.writeFile pathname dirname).Stores disk r → HasVictim cfg s.fileQueue r)
    (hne : ¬ WritesEmpty pid disk s.fileQueue (.writeFile pathname dirname))
    (h : ∀ res s', s'.WF cfg → Accord cfg (k res, t) (none, s')) :
    Accord cfg (writeFile pid disk pathname dirname k, t) (none, s) := by
  cases pathname with
  | none => exact h _ s hs
  | some p =>
    unfold FileStorage.writeFile
    dsimp only
    cases hp : disk p with
    | none => exact h _ s hs
    | some file =>
      refine Accord.newRequest fun r => Accord.request ?_
      refine Accord.store file.buffer k (Or.inl rfl) hs file.length_buffer (hv _ ⟨rfl, file, hp, rfl⟩)
        ?_ ?_ ?_ h
      · intro response h1
        exact if_neg h1
      · intro f hf hsize q s₁ hq
        have hlen := expelled_length hs hf
        show Accord cfg (.act (.readData f.size) _, t) _
        refine Accord.block hlen fun z hz => ?_
        have hz' : z ≠ -1 := hz fun h0 => hsize rfl (by rw [← hlen, h0]; rfl)
        show Accord cfg (if z = -1 then _ else _, t) _
        rw [if_neg hz']
        exact Accord.saveExpelled (hq _ fun _ => rfl)
      · intro _ hnil hl
        have hsize : file.size = 0 := by rw [← file.length_buffer, hnil]; rfl
        exact hne ⟨⟨file, hp, hsize⟩, hl⟩

theorem Accord.appendToFile {pathname : Option CString} {buf : Option (List Byte)}
    {dirname : Option CString} {k : ℤ → ClientCode} (hs : s.WF cfg)
    (hv : ∀ r, (ApiCall.appendToFile pathname buf dirname).Stores disk r → HasVictim cfg s.fileQueue r)
    (h : ∀ res s', s'.WF cfg → Accord cfg (k res, t) (none, s')) :
    Accord cfg (appendToFile pid pathname buf dirname k, t) (none, s) := by
  cases pathname with
  | none => exact h _ s hs
  | some p =>
    cases buf with
    | none => exact h _ s hs
    | some buf =>
      refine Accord.newRequest fun r => Accord.request ?_
      refine Accord.store buf k (Or.inr rfl) hs rfl (hv _ ⟨rfl, rfl⟩) ?_ ?_ ?_ h
      · intro response h1
        exact if_neg h1
      · intro f hf _ q s₁ hq
        show Accord cfg (.act (.read f.size) _, t) _
        exact Accord.block_read (expelled_length hs hf) (Accord.saveExpelled (hq _ fun _ => rfl))
      · rintro ⟨⟩

/-- **The API functions agree with the controllers.** -/
theorem Accord.code (hs : s.WF cfg) (hv : ∀ r, api.Stores disk r → HasVictim cfg s.fileQueue r)
    (hne : ¬ WritesEmpty pid disk s.fileQueue api) :
    Accord cfg (api.code pid disk, none) (none, s) := by
  have hret : ∀ res s', s'.WF cfg → Accord cfg (returning res, none) (none, s') :=
    fun res s' _ => Accord.returns InAccord.done
  cases api with
  | openFile p flags => exact Accord.openFile hs hret
  | readFile p => exact Accord.readFile hs fun res _ => hret res
  | writeFile p dirname => exact Accord.writeFile hs hv hne hret
  | appendToFile p buf dirname => exact Accord.appendToFile hs hv hret
  | lockFile p => exact Accord.sendPath hs (Or.inl rfl) hret
  | unlockFile p => exact Accord.sendPath hs (Or.inr (Or.inl rfl)) hret
  | removeFile p => exact Accord.sendPath hs (Or.inr (Or.inr (Or.inl rfl))) hret
  | closeFile p => exact Accord.sendPath hs (Or.inr (Or.inr (Or.inr rfl))) hret
  | readNFiles N dirname => exact Accord.readNFiles hs hret

/-! ## The empty file -/

/-- The controller of a write of no bytes. -/
theorem controller_empty (hop : r.operation = .OP_WRITE_FILE) (h0 : r.fileSize = 0) :
    controller cfg r = .lock .fileQueueMutex (.act (.call .getFreeSpace) fun _ =>
      logRequest r 0 0 none (writeFileBody r)) := by
  have hb : storeBranch cfg r = fun _ => logRequest r 0 0 none (writeFileBody r) := by
    funext free
    have hu : ¬ u64 free < (0 : ℕ) := by unfold u64; omega
    rw [storeBranch, if_neg fun h => Nat.not_lt_zero _ (h0 ▸ h.2), h0, if_neg hu, storeBody, if_pos hop]
    rfl
  rw [controller_eq (Or.inl hop), hb]

/-- The client of a write waits for a response. -/
def waiting (response : Response) : ClientCode :=
  .act .readResponse fun final : Option Response => returning (final.getD response).statusCode

/-- The answer to a client that has the lock. -/
def ready : Response := respond 0 (str "Ready to receive file, client has lock")

/-- The client waits for an answer, and the worker for a request. -/
theorem empty_stuck (hw : WritesEmpty pid disk s.fileQueue api) : ∃ s' u d,
    Relation.ReflTransGen (Step client (worker cfg)) (.init (api.code pid disk, none) (none, s))
      ⟨(waiting ready, none), (none, s'), ⟨u, u⟩, ⟨d, d⟩⟩ := by
  obtain ⟨p, dirname, rfl, ⟨⟨size, contents⟩, hp, hsize⟩, hl⟩ : ∃ p dirname,
      api = .writeFile (some p) dirname ∧
      (∃ file ∈ disk p, file.size = 0) ∧ hasFileLock s.fileQueue p pid = 0 := by
    cases api with
    | writeFile p dirname =>
      cases p with
      | none => exact absurd hw id
      | some p => exact ⟨p, dirname, rfl, hw⟩
    | _ => exact absurd hw id
  obtain rfl : size = 0 := hsize
  have hbuffer : (⟨0, contents⟩ : LocalFile).buffer = [] :=
    List.eq_nil_of_length_eq_zero (LocalFile.length_buffer _)
  let r : Request := ⟨pid, .OP_WRITE_FILE, p, 0, 0⟩
  have hctl : controller cfg r = _ := controller_empty rfl rfl
  obtain ⟨j, hj, hcode⟩ : ∃ j : Option Response → ClientCode,
      (∀ x : Response, x.statusCode ≠ 1 → j (some x) = sendContent [] x returning) ∧
      (ApiCall.writeFile (some p) dirname).code pid disk = .act .newRequest fun q : Request =>
        .act (.write { q with
          operation := .OP_WRITE_FILE, filepath := p, clientId := pid, fileSize := 0 }) fun ok : Bool =>
        if ok then .act .readResponse j else returning (-1) := by
    have hp' : disk p = some ⟨0, contents⟩ := hp
    refine ⟨_, fun x h1 => ?_, by simp only [ApiCall.code, FileStorage.writeFile, hp', hbuffer]; rfl⟩
    exact if_neg h1
  let s₁ : Server := { s with log := s.log ++ [⟨r, 0, 0, none⟩] }
  refine ⟨s₁, [.request r], [.response ready], ?_⟩
  -- the request
  have h1 : Relation.ReflTransGen (Step client (worker cfg))
      (.init ((ApiCall.writeFile (some p) dirname).code pid disk, none) (none, s))
      ⟨(.act .readResponse j, none), (some (controller cfg r), s), ⟨[.request r], [.request r]⟩,
        ⟨[], []⟩⟩ := by
    rw [hcode]
    refine .head (.left (Speaks.act (e := .fair ready []) rfl rfl)) ?_
    refine .head (.leftSnd (Speaks.act (e := .fair ready []) rfl rfl)) ?_
    exact .single (.rightRcv Serves.accept rfl)
  have hlock : exec cfg (.call (.hasFileLock p pid)) (.fair []) s₁ = some ((0 : ℤ), s₁) := by
    show some (hasFileLock s.fileQueue p pid, s₁) = _
    rw [hl]
  refine h1.trans ?_
  rw [hctl]
  -- the first answer
  refine .head (.right (Serves.run .lock)) ?_
  refine .head (.right (Serves.run (Speaks.act (e := .fair []) rfl rfl))) ?_
  refine .head (.right (Serves.run (Speaks.act (e := .fair []) rfl rfl))) ?_
  refine .head (.right (Serves.run (Speaks.act rfl hlock))) ?_
  rw [if_pos rfl]
  refine .head (.rightSnd (Serves.run (Speaks.act (e := .fair []) rfl rfl))) ?_
  refine .head (.leftRcv (Speaks.act (e := .fair ready []) rfl rfl) rfl) ?_
  -- the client sends nothing and waits, and `readData` of nothing returns `-1`
  show Relation.ReflTransGen _ (Link.mk (j (some ready), none) _ _ _) _
  rw [hj ready (by decide)]
  refine .head (.left (Speaks.act (e := .fair ready []) rfl rfl)) ?_
  refine .head (.right (Serves.run (Speaks.act (e := ⟨true, [], -1, NULL⟩) rfl rfl))) ?_
  refine .head (.right (Serves.run Speaks.unlock)) ?_
  exact .single (.right (Serves.finish .refl))

theorem not_staysInStep (hw : WritesEmpty pid disk s.fileQueue api) :
    ¬ StaysInStep cfg pid disk api s := by
  intro h
  obtain ⟨s', u, d, hpath⟩ := @empty_stuck cfg s pid disk api hw
  rcases h _ hpath with ⟨c', hst⟩ | ⟨a, k, he, hx⟩ | ⟨a, k, he, -⟩ | hend
  · -- the client is at a read, the worker idle, and nothing is in flight
    have hnil : ∀ {M : Type} {m : M} {l ms : List M}, l ≠ l ++ m :: ms := fun hl => by
      simpa using congrArg List.length hl
    cases hst with
    | left hst => cases hst with
      | act hl => simp [clientLabels] at hl
    | leftSnd hst => cases hst with
      | act hl => simp [clientLabels] at hl
    | leftRcv _ hf => exact hnil hf
    | right hst | rightSnd hst => cases hst
    | rightRcv _ hf => exact hnil hf
  · cases he
    cases hx (.fair ready [])
  · cases he
  · cases hend.left

/-- **Client and server stay in step**, exactly if the call does not write an
    empty file whose lock the client holds. -/
theorem staysInStep_iff (hs : Reachable cfg s)
    (hv : ∀ r, api.Stores disk r → HasVictim cfg s.fileQueue r) :
    StaysInStep cfg pid disk api s ↔ ¬ WritesEmpty pid disk s.fileQueue api :=
  ⟨fun h hw => not_staysInStep hw h, fun hne => (Accord.code hs.wf hv hne).staysInStep⟩

end

/-- Client 2 writes four bytes without a lock: it gets the file of client 1,
    which is expelled, and then the refusal. -/
theorem staysInStep_crowded : StaysInStep ⟨8, 4⟩ 2 (fun _ => some (.steady [6, 7, 8, 9]))
    (.writeFile (some [47, 97]) none) crowded := by
  refine (staysInStep_iff crowded_reachable ?_).2 fun h => absurd h.1 (by decide)
  rintro r ⟨-, file, hc, hn⟩ -
  cases hc
  rw [hn]
  decide

/-- Client 1 writes an empty file. -/
theorem not_staysInStep_crowded : Reachable ⟨8, 4⟩ crowded ∧
    (∀ r, (ApiCall.writeFile (some [47, 97]) none).Stores (fun _ => some (.steady [])) r →
      HasVictim ⟨8, 4⟩ crowded.fileQueue r) ∧
    ¬ StaysInStep ⟨8, 4⟩ 1 (fun _ => some (.steady [])) (.writeFile (some [47, 97]) none) crowded := by
  refine ⟨crowded_reachable, ?_, not_staysInStep ⟨⟨_, rfl, rfl⟩, by decide⟩⟩
  rintro r ⟨-, file, hc, hn⟩ ⟨-, -, hneeds⟩
  cases hc
  rw [hn] at hneeds
  exact absurd hneeds (by decide)

end FileStorage
