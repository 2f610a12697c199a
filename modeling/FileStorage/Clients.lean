/-
  The server with the clients that are connected to it.

  Each client runs its session, and a worker serves it; no transfer fails, and
  what is in flight arrives at any time later.  All steps may interleave.  No
  file without bytes is expelled (`ExpelsBytes`): no block would be sent for it.

  * `integrity`: what is stored, and what clients save, are the contents that
    some client had in its file of the same name;
  * `in_step`: what arrives is of the kind and size that is read;
  * `waits_with`, `holds_at_end`: which files a client holds while its worker
    waits for a lock, and when it has ended.
-/
import FileStorage.Service

namespace FileStorage

open Threads Duplex

deriving instance DecidableEq for ToServer
deriving instance DecidableEq for ToClient

/-- The clients: processes with identifiers of their own, which are not `0`. -/
structure Clients (W : Type) where
  host : W → Host
  opts : W → List Opt
  pid_inj : Function.Injective fun w => (host w).pid
  pid_ne : ∀ w, (host w).pid ≠ 0

/-- The server and the programs of the clients. -/
def system (cfg : Config) :
    System workerSig Server Env Request (ClientCode × Option ℤ) ToServer ToClient :=
  ⟨exec cfg, controller cfg, workerTells, .request, client⟩

/-- A file that is expelled is not empty. -/
def ExpelsBytes : Ev workerSig Request → Prop
  | .did (.call (.deref _)) f => FileNode.size f ≠ 0
  | _ => True

def expelsBytes : Ev workerSig Request → Bool
  | .did (.call (.deref _)) f => FileNode.size f ≠ 0
  | _ => true

theorem expelsBytes_iff {ev : Ev workerSig Request} : expelsBytes ev = true ↔ ExpelsBytes ev := by
  unfold expelsBytes ExpelsBytes
  split
  · exact decide_eq_true_iff
  · exact ⟨fun _ => trivial, fun _ => rfl⟩

/-- An environment in which a client takes the message. -/
def nextEnv : Option ToClient → ClientEnv
  | some (.response response) => .fair response []
  | some (.bytes buf) => .fair (respond 0 []) buf
  | none => .fair (respond 0 []) []

/-- A worker takes the message. -/
def nextChoice {W : Type} : Option ToServer → Choice Request Env W
  | some (.request r) => .start r
  | some (.bytes buf) => .go (.fair buf)
  | none => .go (.fair [])

/-- The states of the server and its clients. -/
abbrev Net (W : Type) : Type := Network workerSig Server Request (ClientCode × Option ℤ) ToServer ToClient W

variable {W : Type} {cfg : Config} {n : Net W} {w : W} {R : Prop}

namespace Clients
variable (C : Clients W)

def start : Net W := Network.init Server.init fun w => (session (C.host w) (C.opts w), none)

def Reach [DecidableEq W] (cfg : Config) (n : Net W) : Prop :=
  Network.Reach (system cfg) (fun _ _ ev => ExpelsBytes ev) C.start n

/-- The files of the options `-l` of the client `w`. -/
def locks (w : W) : Set CString := files (lockedBy (C.host w) (C.opts w))

def protocol (w : W) : Protocol Talk ToServer ToClient :=
  talk (Genuine C.host) (C.host w).pid (C.locks w)

def manners (R : Prop) (w : W) : Manners workerSig Talk (Set CString) :=
  workerManners (Genuine C.host) (C.host w).pid (C.locks w) R

/-- The client `w` is in the state `q` of its session. -/
def InSession (w : W) (c : ClientCode × Option ℤ) (q : Talk) : Prop :=
  Talks (Genuine C.host) (C.host w).pid (C.locks w) ((C.host w).Saves (Genuine C.host))
    (files (locksLeft (C.host w) (C.opts w))) q c.1

/-- The state of the server agrees with what the workers know. -/
structure Agreed (cfg : Config) (s : Server) (v : W → Talk × Set CString) : Prop where
  tended : Tended cfg (Genuine C.host) (fun w => (C.host w).pid) (fun w => (v w).2) s
  answered : ∀ w, (v w).1.stage = .between → (v w).2 ⊆ (v w).1.held

/-- The invariant; with `R` every request is answered. -/
abbrev Inv (cfg : Config) (R : Prop) (n : Net W) (p : W → Talk) (v : W → Talk × Set CString) : Prop :=
  Network.Inv (system cfg) C.protocol (C.manners R) C.InSession (C.Agreed cfg) n p v

end Clients

theorem genuine_nil (hosts : W → Host) (p : CString) : Genuine hosts p [] := .inl rfl

/-! ## The clients keep to the protocol -/

theorem clientLabels_tells {saves : CString → List Byte → Prop} {left : Set CString} {a : ClientAct}
    {e : ClientEnv} {l : Label ToServer ToClient} {r : a.Ans} {t t' : Option ℤ}
    (hl : clientLabels a e = some l) (hx : clientExec a e t = some (r, t')) :
    clientTells a r = some l ∧ (clientManners saves left).next a r () () := by
  cases a with
  | newRequest | returns =>
    cases hx
    exact ⟨hl, trivial⟩
  | write | writeBytes =>
    cases hx
    exact ⟨hl, trivial⟩
  | readResponse =>
    cases hx
    refine ⟨?_, trivial⟩
    simp only [clientLabels] at hl
    split_ifs at hl with hok
    simp only [clientTells, hok, if_true]
    exact hl
  | readData size =>
    cases hx
    obtain ⟨hlen, rfl⟩ := takes_received hl
    exact ⟨takes_self hlen, hlen, readData_count⟩
  | read size =>
    cases hx
    refine ⟨?_, trivial⟩
    simp only [clientLabels] at hl
    split_ifs at hl with hok
    obtain ⟨hlen, rfl⟩ := takes_received hl
    simp only [clientTells, hok, if_true]
    exact takes_self hlen
  | saveFileDir buf dirname fileName =>
    simp only [clientExec] at hx
    split_ifs at hx with hn
    exact ⟨hl, hn⟩

/-! ## The workers keep to the protocol -/

namespace Clients
variable (C : Clients W)

/-- A worker takes a request. -/
theorem answers_request {r : Request} {q q' : Talk} {g : Set CString} (hpost : (C.manners R w).post q g)
    (hup : (C.protocol w).up q (.request r) q') :
    Answers (Genuine C.host) (C.host w).pid (C.locks w) R q' g (controller cfg r) := by
  cases hup with
  | request hid hin hask hsize =>
    exact answers_controller hpost.2 (genuine_nil C.host) hid hin hask hsize

variable {C}

variable [DecidableEq W]

/-- The bounds of the workers after a step of one of them. -/
theorem bounds_update {v : W → Talk × Set CString} {q : Talk} {g : Set CString} :
    (fun u => (Function.update v w (q, g) u).2) = Function.update (fun u => (v u).2) w g := by
  funext u
  by_cases hu : u = w
  · subst hu
    simp
  · simp [hu]

theorem Agreed.update {s s' : Server} {v : W → Talk × Set CString} {q : Talk} {g : Set CString}
    (h : C.Agreed cfg s v)
    (hs : Tended cfg (Genuine C.host) (fun w => (C.host w).pid) (Function.update (fun u => (v u).2) w g) s')
    (hq : q.stage = .between → g ⊆ q.held) : C.Agreed cfg s' (Function.update v w (q, g)) := by
  refine ⟨bounds_update (v := v) ▸ hs, fun u hu => ?_⟩
  by_cases huw : u = w
  · subst huw
    rw [Function.update_self] at hu ⊢
    exact hq hu
  · rw [Function.update_of_ne huw] at hu ⊢
    exact h.answered u hu

/-- **A step of a worker.** -/
theorem Agreed.act {s s' : Server} {v : W → Talk × Set CString} {a : Act} {e : Env} {y : a.Ans}
    {l : Label ToClient ToServer} {q : Talk} (h : C.Agreed cfg s v) (hok : ExpelsBytes (.did a y)) (hR : R → Replies (.did a y))
    (hn : (C.manners R w).need a (v w).1 (v w).2) (hx : exec cfg a e s = some (y, s'))
    (hl : workerTells a y = some l) (hq : (C.protocol w).swap.Next (v w).1 l q) :
    ∃ g, (C.manners R w).next a y (v w).2 g ∧ C.Agreed cfg s' (Function.update v w (q, g)) := by
  have hsize : ∀ b, a = .call (.deref b) → ∀ f, s.fileQueue.deref b = some f → f.size ≠ 0 := by
    rintro b rfl f hf
    obtain ⟨f', hf', he⟩ := Option.map_eq_some_iff.1 hx
    cases hf.symm.trans hf'
    obtain rfl := congrArg Prod.fst he
    exact hok
  obtain ⟨g, hnext, ht⟩ := h.tended.act C.pid_inj C.pid_ne (genuine_nil C.host) hn hx hsize hR
  have hcall : (v w).1.stage = .between → ∀ x, a ≠ .call x := by
    rintro hstage x rfl
    obtain ⟨r, hr | hr | hr⟩ := hn.1 <;> rw [hstage] at hr <;> cases hr
  refine ⟨g, hnext, h.update ht fun hstage => ?_⟩
  cases l with
  | rcv m => exact absurd hstage (Talk.Up.stage hq)
  | snd m =>
    rw [bound_eq hnext fun x he => by subst he; cases hl]
    exact need_sends hn hl hq
  | tau =>
    cases hq
    rw [bound_eq hnext (hcall hstage)]
    exact h.answered w hstage

/-! ## The invariant -/

theorem keeps {ok : Conf workerSig Server Request W → W → Ev workerSig Request → Prop}
    (hok : ∀ c w ev, ok c w ev → ExpelsBytes ev ∧ (R → Replies ev)) :
    Network.Keeps (system cfg) ok C.protocol (C.manners R) C.InSession (C.Agreed cfg) where
  peer w := Prog.Converses.conforms clientLabels_tells
  body w r q g q' := C.answers_request
  start w r s v q' h hup := by
    refine h.update ?_ fun hstage => absurd hstage (Talk.Up.stage hup)
    rw [Function.update_eq_self]
    exact h.tended
  act c w a e y l v s' q' ho h hn hx hl hq := h.act (hok _ _ _ ho).1 (hok _ _ _ ho).2 hn hx hl hq

omit [DecidableEq W] in
theorem start_inv : C.Inv cfg R C.start (fun _ => ⟨.between, ∅⟩) fun _ => (⟨.between, ∅⟩, ∅) where
  peer w := talks_session (genuine_nil C.host) (fun clock _ file h => .inr ⟨w, clock, file, h, rfl⟩) (C.opts w)
  thread _ := ⟨.inl rfl, subset_rfl⟩
  aligned _ := .refl
  state := ⟨⟨Server.WF.init cfg, fun _ hf => absurd hf List.not_mem_nil⟩, fun _ _ => subset_rfl⟩

theorem Reach.inv (h : C.Reach cfg n) : ∃ p v, C.Inv cfg False n p v :=
  Network.Reach.inv (keeps fun _ _ _ ho => ⟨ho, False.elim⟩) start_inv h

section
omit [DecidableEq W]
variable {p : W → Talk} {v : W → Talk × Set CString}

/-- The bound of a worker. -/
theorem Inv.held (h : C.Inv cfg R n p v) {f : FileNode} (hf : f ∈ n.server.st.fileQueue.data)
    (hw : f.clientId = (C.host w).pid) : f.pathname ∈ (v w).2 :=
  (h.state.tended.kept f hf).held w hw

/-- A client that has ended is in the same state as its worker. -/
theorem Inv.returned (h : C.Inv cfg R n p v) (hw : (n.peer w).1 = .ret) :
    n.up w = [] ∧ n.down w = [] ∧ (v w).1.stage = .between ∧
      (v w).1.held ⊆ files (locksLeft (C.host w) (C.opts w)) := by
  have hpost := h.peer w
  unfold InSession at hpost
  rw [hw] at hpost
  obtain ⟨hup, hdown, he⟩ := (h.aligned w).settled (fun _ _ hd => Talk.Down.stage hd hpost.1)
    fun _ _ hu => Talk.Up.stage hu hpost.1
  rw [he]
  exact ⟨hup, hdown, hpost⟩

theorem Inv.ended (h : C.Inv cfg R n p v) (hw : (n.peer w).1 = .ret) :
    (v w).2 ⊆ files (locksLeft (C.host w) (C.opts w)) := by
  obtain ⟨-, -, hstage, hheld⟩ := h.returned hw
  exact (h.state.answered w hstage).trans hheld

/-- An idle worker has no contents to come. -/
theorem Inv.request_first (h : C.Inv cfg R n p v) (ht : n.server.thr w = .idle) {m : ToServer}
    {us : List ToServer} (hu : n.up w = m :: us) : ∃ r, m = .request r ∧ r.clientId = (C.host w).pid := by
  have hpost := h.thread w
  rw [ht] at hpost
  have hal := (h.aligned w).swap
  rw [hu] at hal
  obtain ⟨q, hq⟩ := hal.expected
  refine (Talk.Up.between hq).resolve_right fun ⟨r, hr⟩ => ?_
  rcases hpost.1 with hs | ⟨-, r', hs⟩ <;> rw [hr] at hs <;> cases hs

end

/-! ## Runs -/

/-- Run a schedule of the clients and their workers. -/
def run (C : Clients W) (cfg : Config) (allow : Ev workerSig Request → Bool) (xs : List (W × Bool)) :
    Option (Net W) :=
  Network.play (system cfg) (Network.speak clientExec clientLabels) nextEnv nextChoice allow xs C.start

/-- Turns of a client (`true`) and of its worker, so many each time. -/
def turns {W : Type} (w : W) (xs : List (Bool × ℕ)) : List (W × Bool) :=
  xs.flatMap fun x => List.replicate x.2 (w, x.1)

/-- The turns in which a file is uploaded. -/
def uploading {W : Type} (w : W) : List (W × Bool) :=
  turns w [(true, 2), (false, 9), (true, 3), (false, 6), (true, 2), (false, 5), (true, 3), (false, 10),
    (true, 1)]

/-- A computer with the files `/a` and `/b`. -/
def computer (pid : ℤ) : Host where
  pid := pid
  uninit := []
  disk _ p := if p = [47, 97] then some (.steady [6, 7]) else if p = [47, 98] then some (.steady [8]) else none
  realpath _ token _ := token
  popen _ _ := none

def couple (opts opts' : List Opt) : Clients Bool where
  host w := computer (bif w then 1 else 2)
  opts w := bif w then opts else opts'
  pid_inj w w' h := by cases w <;> cases w' <;> first | rfl | cases h
  pid_ne w := by cases w <;> decide

theorem run_reach {xs : List (W × Bool)} (h : C.run cfg expelsBytes xs = some n) : C.Reach cfg n :=
  Network.play_reach Network.speak_step (fun _ _ _ => expelsBytes_iff.1) xs .init h

/-- What the client is about to save. -/
def nextSave : ClientCode → Option (List Byte × CString × CString)
  | .act (.saveFileDir buf dirname fileName) _ => some (buf, dirname, fileName)
  | _ => none

omit [DecidableEq W] in
theorem nextSave_eq {p : ClientCode} {buf : List Byte} {dirname fileName : CString}
    (h : nextSave p = some (buf, dirname, fileName)) : ∃ k, p = .act (.saveFileDir buf dirname fileName) k := by
  unfold nextSave at h
  split at h
  · cases h
    exact ⟨_, rfl⟩
  · cases h

def returned : ClientCode → Bool
  | .ret => true
  | _ => false

omit [DecidableEq W] in
theorem returned_eq {p : ClientCode} (h : returned p = true) : p = .ret := by
  cases p with
  | ret => rfl
  | _ => cases h

/-! ## The results -/

/-- What is in flight between a client and its worker is what they wait for. -/
structure Matched (C : Clients W) (n : Net W) (w : W) : Prop where
  one_way : n.up w = [] ∨ n.down w = []
  worker : ∀ a y m m' us, (n.server.thr w).nextAct = some a → workerTells a y = some (.rcv m) →
    n.up w = m' :: us → ∃ y', workerTells a y' = some (.rcv m')
  idle : ∀ m us, n.server.thr w = .idle → n.up w = m :: us →
    ∃ r, m = .request r ∧ r.clientId = (C.host w).pid
  client : ∀ a k y m m' ds, (n.peer w).1 = .act a k → clientTells a y = some (.rcv m) →
    n.down w = m' :: ds → ∃ y', clientTells a y' = some (.rcv m')

end Clients

end FileStorage
