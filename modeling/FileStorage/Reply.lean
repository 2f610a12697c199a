/-
  What the client is told.

  `sendRequest` looks whether a response has arrived, not at its status, so
  that `lockFile`, `unlockFile`, `removeFile` and `closeFile` return `0`
  whatever the server has answered.  `faithful_iff` says exactly when this is
  right: if the effect that is asked for is there already, or can be brought
  about at once.
-/
import FileStorage.Holding
import FileStorage.InStep

namespace FileStorage

open Threads Duplex Prog

/-! ## Calls with a pathname -/

inductive PathOp where
  | lockFile
  | unlockFile
  | removeFile
  | closeFile
  deriving DecidableEq, Repr

def PathOp.call (p : CString) : PathOp → ApiCall
  | .lockFile => .lockFile (some p)
  | .unlockFile => .unlockFile (some p)
  | .removeFile => .removeFile (some p)
  | .closeFile => .closeFile (some p)

def PathOp.operation : PathOp → Operation
  | .lockFile => .OP_LOCK_FILE
  | .unlockFile => .OP_UNLOCK_FILE
  | .removeFile => .OP_DELETE_FILE
  | .closeFile => .OP_CLOSE_FILE

/-- The effect that the client `pid` asks for: `s` is the state before the call,
    `s'` the one when the response is sent. -/
def PathOp.Granted (pid : ℤ) (p : CString) (s s' : Server) : PathOp → Prop
  | .lockFile => ∃ f, getFileNode s'.fileQueue p = some f ∧ f.clientId = pid
  | .unlockFile => ∃ f, getFileNode s'.fileQueue p = some f ∧ f.clientId = 0
  | .removeFile => (∃ f, getFileNode s.fileQueue p = some f ∧ f.clientId = pid) ∧
      getFileNode s'.fileQueue p = none
  | .closeFile => ∃ f, getFileNode s'.fileQueue p = some f ∧ f.isOpen = false

/-- The effect is there, or the controller brings it about without waiting. -/
def PathOp.Grantable (pid : ℤ) (p : CString) (q : Queue FileNode) : PathOp → Prop
  | .lockFile => ∃ f, getFileNode q p = some f ∧ (f.clientId = pid ∨ f.isOpen ∧ f.clientId = 0)
  | .unlockFile => ∃ f, getFileNode q p = some f ∧ (f.clientId = 0 ∨ f.isOpen ∧ f.clientId = pid)
  | .removeFile => ∃ f, getFileNode q p = some f ∧ f.isOpen ∧ f.clientId = pid
  | .closeFile => ∃ f, getFileNode q p = some f ∧ (f.isOpen = false ∨ f.clientId = pid)

/-- The client and the server go on until the call has returned, and it returns
    `0` if the effect is there when the response is sent, else a negative value. -/
structure Faithful (cfg : Config) (pid : ℤ) (disk : CString → Option LocalFile) (p : CString)
    (s : Server) (o : PathOp) : Prop where
  returns : StaysInStep cfg pid disk (o.call p) s
  result : ∀ c response k s₁, Relation.ReflTransGen (Step client (worker cfg))
      (.init ((o.call p).code pid disk, none) (none, s)) c →
    c.right = (some (.act (.write response) k), s₁) →
    ∀ c' res, Relation.ReflTransGen (Step client (worker cfg)) c c' → c'.left.2 = some res →
      (o.Granted pid p s s₁ → res = 0) ∧ (¬ o.Granted pid p s s₁ → res < 0)

variable {cfg : Config} {s s' : Server} {r : Request} {pid : ℤ} {p : CString} {o : PathOp}
  {disk : CString → Option LocalFile} {Q : Server → Prop}

/-- The request that the call sends. -/
structure Asks (o : PathOp) (pid : ℤ) (p : CString) (r : Request) : Prop where
  operation : r.operation = o.operation
  filepath : r.filepath = p
  clientId : r.clientId = pid

theorem PathOp.code_eq : (o.call p).code pid disk = .act .newRequest fun request : Request =>
    sendRequest { request with operation := o.operation, filepath := p, clientId := pid } returning := by
  cases o <;> rfl

/-! ## Programs that send one response -/

/-- The actions on the socket. -/
def Act.onSocket : Act → ℕ
  | .write _ | .writeBytes _ | .readData _ | .read _ => 1
  | _ => 0

theorem Act.silent {a : Act} (h : a.onSocket = 0) : workerLabels.Silent a := by
  intro e l hl
  cases a with
  | write | writeBytes | readData | read => cases h
  | _ => cases hl; rfl

/-- The program does not wait, and sends one response, in a state with `Q`. -/
def SendsOnce (cfg : Config) (Q : Server → Prop) : Code → Server → Prop
  | .act a k, s => (∃ response, a = .write response) ∧ Q s ∧ (∀ x, Budget Act.onSocket (k x) 0) ∨
      a.onSocket = 0 ∧ ∀ e x s', exec cfg a e s = some (x, s') → SendsOnce cfg Q (k x) s'
  | .lock _ k, s | .unlock _ k, s | .signal _ k, s | .broadcast _ k, s => SendsOnce cfg Q k s
  | .await a b _ _ _ k, s => a.onSocket = 0 ∧
      ∀ e x s', exec cfg a e s = some (x, s') → b x = false ∧ SendsOnce cfg Q (k x) s'
  | .wait _ _ _, _ | .ret, _ => False

/-- A step of a program that sends one response. -/
theorem SendsOnce.step {p q : Code} {l : Label ToClient ToServer} (h : SendsOnce cfg Q p s)
    (hs : Speaks (exec cfg) workerLabels (Later cfg) (p, s) l (q, s')) :
    l = .tau ∧ SendsOnce cfg Q q s' ∨
      ∃ response, l = .snd (.response response) ∧ Budget Act.onSocket q 0 := by
  cases hs with
  | act hl hx =>
    obtain ⟨⟨response, rfl⟩, -, hk⟩ | ⟨ha, hk⟩ := h
    · refine Or.inr ⟨response, ?_, hk _⟩
      simp only [workerLabels] at hl
      split_ifs at hl
      exact (Option.some.inj hl).symm
    · exact Or.inl ⟨Act.silent ha _ _ hl, hk _ _ _ hx⟩
  | lock | unlock | signal | broadcast => exact Or.inl ⟨rfl, h⟩
  | wait => exact h.elim
  | pass hl hx _ => exact Or.inl ⟨Act.silent h.1 _ _ hl, (h.2 _ _ _ hx).2⟩
  | park hl hx hb =>
    rw [(h.2 _ _ _ hx).1] at hb
    cases hb

/-- A step of a program that leaves the socket alone. -/
theorem mute_step {p q : Code} {l : Label ToClient ToServer} (h : Budget Act.onSocket p 0)
    (hs : Speaks (exec cfg) workerLabels (Later cfg) (p, s) l (q, s')) :
    l = .tau ∧ Budget Act.onSocket q 0 := by
  cases hs with
  | act hl hx => exact ⟨Act.silent (Nat.le_zero.1 h.1) _ _ hl, by simpa using h.2 _⟩
  | lock | unlock | signal | broadcast => exact ⟨rfl, h⟩
  | wait => exact ⟨rfl, h⟩
  | pass hl hx _ => exact ⟨Act.silent (Nat.le_zero.1 h.1) _ _ hl, by simpa using h.2 _⟩
  | park hl => exact ⟨Act.silent (Nat.le_zero.1 h.1) _ _ hl, h⟩

/-! ## The phases of a call -/

/-- The client waits for the response. -/
def reading : ClientCode :=
  .act .readResponse fun response : Option Response =>
  if response.isSome then returning 0 else returning (-1)

/-- The client at the end of the call. -/
inductive Ending : ClientCode × Option ℤ → Prop
  | reading : Ending (reading, none)
  | returning : Ending (returning 0, none)
  | ret : Ending (.ret, some 0)

/-- The phases of a call to a server in the state `s`. -/
inductive Phase (cfg : Config) (o : PathOp) (pid : ℤ) (p : CString) (s : Server) :
    Link (ClientCode × Option ℤ) (Option Code × Server) ToServer ToClient → Prop
  | start : Phase cfg o pid p s (.init (.act .newRequest fun request : Request =>
      sendRequest { request with operation := o.operation, filepath := p, clientId := pid } returning,
      none) (none, s))
  | asks {x : Request} : Asks o pid p x →
      Phase cfg o pid p s (.init (sendRequest x returning, none) (none, s))
  | asked {x : Request} : Asks o pid p x →
      Phase cfg o pid p s ⟨(reading, none), (none, s), ⟨[.request x], []⟩, ⟨[], []⟩⟩
  | served {x : Request} {code s₁} : SendsOnce cfg (o.Granted pid p s) code s₁ →
      Phase cfg o pid p s ⟨(reading, none), (some code, s₁), ⟨[.request x], [.request x]⟩, ⟨[], []⟩⟩
  | answered {a b up down} : Ending a → (∀ code, b.1 = some code → Budget Act.onSocket code 0) →
      up.Flight [] → Phase cfg o pid p s ⟨a, b, up, down⟩

theorem Ending.result {a : ClientCode × Option ℤ} {res : ℤ} (h : Ending a) (hr : a.2 = some res) :
    res = 0 := by
  cases h with
  | reading | returning => cases hr
  | ret => exact (Option.some.inj hr).symm

theorem Ending.step {a a' : ClientCode × Option ℤ} {l : Label ToServer ToClient} (h : Ending a)
    (hs : client.step a l a') : Ending a' ∧ ∀ m, l ≠ .snd m := by
  cases h with
  | reading =>
    cases hs with
    | @act _ _ e _ _ _ _ hl hx =>
      simp only [clientLabels] at hl
      split_ifs at hl with hok
      cases hl
      simp only [clientExec, hok, if_true] at hx
      cases hx
      exact ⟨.returning, fun _ he => by cases he⟩
  | returning =>
    cases hs with
    | act hl hx =>
      cases hl
      cases hx
      exact ⟨.ret, fun _ he => by cases he⟩
  | ret => cases hs

/-- A client that waits for the response makes no other step. -/
theorem reading_step {a' : ClientCode × Option ℤ} {l : Label ToServer ToClient}
    (hs : client.step (reading, none) l a') : ∃ m, l = .rcv m := by
  cases hs with
  | act hl =>
    simp only [clientLabels] at hl
    split_ifs at hl
    exact ⟨_, (Option.some.inj hl).symm⟩

/-- **Each step leads to a phase.** -/
theorem Phase.step {c c' : Link (ClientCode × Option ℤ) (Option Code × Server) ToServer ToClient}
    (hctl : ∀ r, Asks o pid p r → SendsOnce cfg (o.Granted pid p s) (controller cfg r) s)
    (h : Phase cfg o pid p s c) (hs : Step client (worker cfg) c c') : Phase cfg o pid p s c' := by
  cases h with
  | start =>
    cases hs with
    | left hst =>
      cases hst with
      | act hl hx => cases hx; exact .asks ⟨rfl, rfl, rfl⟩
    | leftSnd hst => cases hst with
      | act hl => cases hl
    | leftRcv hst => cases hst with
      | act hl => cases hl
    | right hst | rightSnd hst => cases hst
    | rightRcv _ hf => cases hf
  | asks hr =>
    cases hs with
    | left hst => cases hst with
      | act hl => simp [clientLabels] at hl
    | leftSnd hst =>
      cases hst with
      | act hl hx =>
        simp only [clientLabels] at hl
        split_ifs at hl with hok
        cases hl
        cases hx
        rw [hok]
        exact .asked hr
    | leftRcv _ hf => cases hf
    | right hst | rightSnd hst => cases hst
    | rightRcv _ hf => cases hf
  | asked hr =>
    cases hs with
    | left hst | leftSnd hst =>
      obtain ⟨m, hm⟩ := reading_step hst
      cases hm
    | leftRcv _ hf => cases hf
    | right hst | rightSnd hst => cases hst
    | rightRcv hst hf =>
      cases hst with
      | accept => cases hf; exact .served (hctl _ hr)
  | served hsend =>
    cases hs with
    | left hst | leftSnd hst =>
      obtain ⟨m, hm⟩ := reading_step hst
      cases hm
    | leftRcv _ hf => cases hf
    | right hst =>
      cases hst with
      | run hst =>
        obtain ⟨-, hsend'⟩ | ⟨_, hl, -⟩ := hsend.step hst
        · exact .served hsend'
        · cases hl
      | finish => exact hsend.elim
    | rightSnd hst =>
      cases hst with
      | run hst =>
        obtain ⟨hl, -⟩ | ⟨_, -, hmute⟩ := hsend.step hst
        · cases hl
        · refine .answered .reading (fun code hc => ?_) rfl
          obtain rfl := Option.some.inj hc
          exact hmute
    | rightRcv _ hf => cases hf
  | answered hend hmute hup =>
    cases hs with
    | left hst => exact .answered (hend.step hst).1 hmute hup
    | leftSnd hst => exact absurd rfl ((hend.step hst).2 _)
    | leftRcv hst => exact .answered (hend.step hst).1 hmute hup
    | right hst =>
      refine .answered hend (fun code hc => ?_) hup
      cases hst with
      | run hst =>
        obtain rfl := Option.some.inj hc
        exact (mute_step (hmute _ rfl) hst).2
      | finish => cases hc
    | rightSnd hst =>
      cases hst with
      | run hst => cases (mute_step (hmute _ rfl) hst).1
    | rightRcv _ hf => cases hup.unique hf

/-! ## The effect is brought about -/

section
variable {q : Queue FileNode} {f : FileNode}

theorem lockVirtualFile_grants (hq : q.WF) (hf : getFileNode q p = some f)
    (h : f.clientId = pid ∨ f.isOpen ∧ f.clientId = 0) : (lockVirtualFile q p pid).1 ≠ -2 ∧
      ∃ f', getFileNode (lockVirtualFile q p pid).2 p = some f' ∧ f'.clientId = pid := by
  simp only [lockVirtualFile, hf]
  by_cases ho : f.isOpen
  · by_cases hc : f.clientId = pid
    · simp [ho, hc, hf]
    · have h0 : f.clientId = 0 := (h.resolve_left hc).2
      have hk : Keeps fun f : FileNode => { f with clientId := pid } := ⟨fun _ => rfl, fun _ => rfl⟩
      rw [h0] at hc
      simp [ho, hc, h0, getFileNode_modified hk hq hf]
  · have hc : f.clientId = pid := h.resolve_right fun h => ho h.1
    simp [ho, hc, hf]

theorem unlockVirtualFile_grants (hq : q.WF) (hf : getFileNode q p = some f)
    (h : f.clientId = 0 ∨ f.isOpen ∧ f.clientId = pid) :
    ∃ f', getFileNode (unlockVirtualFile q p pid).2 p = some f' ∧ f'.clientId = 0 := by
  simp only [unlockVirtualFile, hf]
  by_cases ho : f.isOpen
  · by_cases hc : f.clientId = pid
    · have hk : Keeps fun f : FileNode => { f with clientId := 0 } := ⟨fun _ => rfl, fun _ => rfl⟩
      simp [ho, hc, getFileNode_modified hk hq hf]
    · have h0 : f.clientId = 0 := h.resolve_right fun h => hc h.2
      rw [h0] at hc
      simp [ho, hc, h0, hf]
  · have h0 : f.clientId = 0 := h.resolve_right fun h => ho h.1
    simp [ho, hf, h0]

theorem closeVirtualFile_grants {u : ℤ} (hq : q.WF) (hf : getFileNode q p = some f)
    (h : f.isOpen = false ∨ f.clientId = pid) :
    ∃ f', getFileNode (closeVirtualFile u q p pid).2 p = some f' ∧ f'.isOpen = false := by
  simp only [closeVirtualFile, hf]
  by_cases ho : f.isOpen
  · have hc : f.clientId = pid := h.resolve_left (by simp [ho])
    have hk : Keeps fun f : FileNode => { f with isOpen := false } := ⟨fun _ => rfl, fun _ => rfl⟩
    simp [ho, hc, getFileNode_modified hk hq hf]
  · simp [ho, hf]

end

theorem SendsOnce.log {rd wr : ℤ} {rep : Option CString} {k : Code}
    (h : SendsOnce cfg Q k { s with log := s.log ++ [⟨r, rd, wr, rep⟩] }) :
    SendsOnce cfg Q (logRequest r rd wr rep k) s := by
  refine Or.inr ⟨rfl, fun e x s' hx => ?_⟩
  cases hx
  exact h

theorem SendsOnce.lock {m : Mutex} {k : Code} (h : SendsOnce cfg Q k s) :
    SendsOnce cfg Q (.lock m k) s := h

theorem SendsOnce.unlock {m : Mutex} {k : Code} (h : SendsOnce cfg Q k s) :
    SendsOnce cfg Q (.unlock m k) s := h

theorem SendsOnce.call {x : Call} {k : x.Ans → Code}
    (h : ∀ e y s', x.exec cfg e s = some (y, s') → SendsOnce cfg Q (k y) s') :
    SendsOnce cfg Q (.act (.call x) k) s :=
  Or.inr ⟨rfl, h⟩

theorem SendsOnce.reply {response : Response} (h : Q s) :
    SendsOnce cfg Q (.act (.write response) fun _ => .unlock .fileQueueMutex .ret) s :=
  Or.inl ⟨⟨_, rfl⟩, h, fun _ => trivial⟩

/-- The controller of a call whose effect can be brought about. -/
theorem controller_sendsOnce (hs : s.WF cfg) (hr : Asks o pid p r)
    (hg : o.Grantable pid p s.fileQueue) :
    SendsOnce cfg (o.Granted pid p s) (controller cfg r) s := by
  obtain ⟨hop, rfl, rfl⟩ := hr
  cases o with
  | lockFile =>
    obtain ⟨f, hf, h⟩ := hg
    obtain ⟨hres, hlock⟩ := lockVirtualFile_grants hs.toWF hf h
    rw [controller, show r.operation = .OP_LOCK_FILE from hop]
    refine .log ⟨rfl, fun e x s' hx => ?_⟩
    obtain ⟨rfl, hq⟩ := exec_lock hx
    rw [hq] at hlock
    exact ⟨decide_eq_false hres, .unlock (.reply hlock)⟩
  | unlockFile =>
    obtain ⟨f, hf, h⟩ := hg
    have hunlock := unlockVirtualFile_grants hs.toWF hf h
    rw [controller, show r.operation = .OP_UNLOCK_FILE from hop]
    refine .log (.lock <| .call fun e x s' hx => ?_)
    obtain ⟨rfl, hq⟩ := exec_unlock (show exec cfg (.call _) e _ = _ from hx)
    rw [hq] at hunlock
    split_ifs
    · -- past the broadcast
      exact Or.inl ⟨⟨_, rfl⟩, hunlock, fun _ => trivial⟩
    · exact .reply hunlock
  | removeFile =>
    obtain ⟨f, hf, ho, hc⟩ := hg
    have hgone := (letsGo_of_open hs hf ho).gone
    rw [hc] at hgone
    rw [controller, show r.operation = .OP_DELETE_FILE from hop]
    refine .log (.lock <| .call fun e x s' hx => ?_)
    cases hx
    exact SendsOnce.reply ⟨⟨f, hf, hc⟩, hgone⟩
  | closeFile =>
    obtain ⟨f, hf, h⟩ := hg
    rw [controller, show r.operation = .OP_CLOSE_FILE from hop]
    refine .log (.lock <| .call fun e x s' hx => ?_)
    cases hx
    exact SendsOnce.reply (closeVirtualFile_grants hs.toWF hf h)

/-! ## When the result is right -/

theorem Phase.reach {c c' : Link (ClientCode × Option ℤ) (Option Code × Server) ToServer ToClient}
    (hctl : ∀ r, Asks o pid p r → SendsOnce cfg (o.Granted pid p s) (controller cfg r) s)
    (h : Phase cfg o pid p s c) (hs : Relation.ReflTransGen (Step client (worker cfg)) c c') :
    Phase cfg o pid p s c' := by
  induction hs with
  | refl => exact h
  | tail _ hst ih => exact ih.step hctl hst

/-- The result is `0`. -/
theorem Phase.result {c : Link (ClientCode × Option ℤ) (Option Code × Server) ToServer ToClient}
    {res : ℤ} (h : Phase cfg o pid p s c) (hr : c.left.2 = some res) : res = 0 := by
  cases h with
  | answered hend => exact hend.result hr
  | _ => cases hr

/-- The response is sent when the effect is there. -/
theorem Phase.granted {c : Link (ClientCode × Option ℤ) (Option Code × Server) ToServer ToClient}
    {response : Response} {k : Bool → Code} {s₁ : Server} (h : Phase cfg o pid p s c)
    (hr : c.right = (some (.act (.write response) k), s₁)) : o.Granted pid p s s₁ := by
  cases h with
  | served hsend =>
    obtain ⟨rfl, rfl⟩ := Prod.mk.inj hr |>.imp Option.some.inj id
    obtain ⟨-, hQ, -⟩ | ⟨ha, -⟩ := hsend
    · exact hQ
    · cases ha
  | answered _ hmute =>
    have hb := hmute _ (congrArg Prod.fst hr)
    cases hb.1
  | _ => cases hr

theorem faithful_of_grantable (hs : s.WF cfg) (hg : o.Grantable pid p s.fileQueue) :
    Faithful cfg pid disk p s o := by
  have hctl : ∀ r, Asks o pid p r → SendsOnce cfg (o.Granted pid p s) (controller cfg r) s :=
    fun r hr => controller_sendsOnce hs hr hg
  constructor
  · have hacc : Accord cfg ((o.call p).code pid disk, none) (none, s) := by
      refine Accord.code hs ?_ ?_
      · cases o <;> exact fun r hr => hr.elim
      · cases o <;> exact id
    exact hacc.staysInStep
  · intro c response k s₁ hc hright c' res hc' hres
    rw [PathOp.code_eq] at hc
    have hphase : Phase cfg o pid p s c := Phase.start.reach hctl hc
    refine ⟨fun _ => (hphase.reach hctl hc').result hres, fun hno => ?_⟩
    exact absurd (hphase.granted hright) hno

/-! ## When it is not -/

/-- Silent steps of the worker. -/
abbrev Silently (cfg : Config) : Code × Server → Code × Server → Prop :=
  Relation.ReflTransGen fun a b => Speaks (exec cfg) workerLabels (Later cfg) a .tau b

/-- The client gets `0` for any response. -/
theorem not_faithful_of_run {response : Response} {k : Bool → Code} {s₁ : Server}
    (h : Silently cfg (controller cfg ⟨pid, o.operation, p, 0, 0⟩, s) (.act (.write response) k, s₁))
    (hno : ¬ o.Granted pid p s s₁) : ¬ Faithful cfg pid disk p s o := by
  intro hf
  let r : Request := ⟨pid, o.operation, p, 0, 0⟩
  let link : Code × Server → Link (ClientCode × Option ℤ) (Option Code × Server) ToServer ToClient :=
    fun x => ⟨(reading, none), (some x.1, x.2), ⟨[.request r], [.request r]⟩, ⟨[], []⟩⟩
  have hserve : ∀ {x y}, Silently cfg x y →
      Relation.ReflTransGen (Step client (worker cfg)) (link x) (link y) := by
    intro x y hxy
    induction hxy with
    | refl => exact .refl
    | tail _ hst ih => exact ih.tail (.right (Serves.run hst))
  have hstart : Relation.ReflTransGen (Step client (worker cfg))
      (.init ((o.call p).code pid disk, none) (none, s)) (link (controller cfg r, s)) := by
    rw [PathOp.code_eq]
    refine .head (.left (Speaks.act (e := .fair response []) rfl rfl)) ?_
    refine .head (.leftSnd (Speaks.act (e := .fair response []) rfl rfl)) ?_
    exact .single (.rightRcv Serves.accept rfl)
  have hend : Relation.ReflTransGen (Step client (worker cfg)) (link (.act (.write response) k, s₁))
      ⟨(.ret, some 0), (some (k true), s₁), ⟨[.request r], [.request r]⟩,
        ⟨[.response response], [.response response]⟩⟩ := by
    refine .head (.rightSnd (Serves.run (Speaks.act (e := .fair []) rfl rfl))) ?_
    refine .head (.leftRcv (Speaks.act (e := .fair response []) rfl rfl) rfl) ?_
    exact .single (.left (Speaks.act (e := .fair response []) rfl rfl))
  have hneg := (hf.result _ _ _ _ (hstart.trans (hserve h)) rfl _ 0 hend rfl).2 hno
  exact absurd hneg (by decide)

/-- The worker gets to a response without the effect. -/
def Refusable (cfg : Config) (o : PathOp) (pid : ℤ) (p : CString) (s : Server) : Prop :=
  ∃ response k s₁, Silently cfg (controller cfg ⟨pid, o.operation, p, 0, 0⟩, s)
    (.act (.write response) k, s₁) ∧ ¬ o.Granted pid p s s₁

/-- The state after the log record of a request and a change of the queue. -/
def logged (s : Server) (r : Request) (q : Queue FileNode) : Server :=
  { s with fileQueue := q, log := s.log ++ [⟨r, 0, 0, none⟩] }

/-- The worker logs the request, takes the mutex and calls a function of the store. -/
theorem silently_call {x : Call} {k : x.Ans → Code} {y : x.Ans} {q : Queue FileNode}
    (hx : x.exec cfg (.fair []) (logged s r s.fileQueue) = some (y, logged s r q)) :
    Silently cfg (logRequest r 0 0 none (.lock .fileQueueMutex (.act (.call x) k)), s)
      (k y, logged s r q) := by
  refine .head (Speaks.act (e := .fair []) rfl rfl) ?_
  refine .head .lock ?_
  exact .single (Speaks.act rfl hx)

theorem unlock_refusable (hg : ¬ PathOp.unlockFile.Grantable pid p s.fileQueue) :
    Refusable cfg .unlockFile pid p s := by
  have hres : unlockVirtualFile s.fileQueue p pid = (-1, s.fileQueue) := by
    cases hf : getFileNode s.fileQueue p with
    | none => simp [unlockVirtualFile, hf]
    | some f =>
      obtain ⟨h0, hc⟩ := not_or.1 fun h => hg ⟨f, hf, h⟩
      by_cases ho : f.isOpen
      · have hne : f.clientId ≠ pid := fun h => hc ⟨ho, h⟩
        simp [unlockVirtualFile, hf, ho, h0, hne]
      · simp [unlockVirtualFile, hf, ho]
  refine ⟨respond (-1) (str "Impossible effettuare unlock"), fun _ => .unlock .fileQueueMutex .ret,
    logged s ⟨pid, .OP_UNLOCK_FILE, p, 0, 0⟩ s.fileQueue,
    silently_call (x := .unlockVirtualFile p pid) (y := (-1 : ℤ)) ?_, ?_⟩
  · show some ((unlockVirtualFile s.fileQueue p pid).1, logged s _ (unlockVirtualFile s.fileQueue p pid).2) = _
    rw [hres]
  · rintro ⟨f, hf, h0⟩
    exact hg ⟨f, hf, Or.inl h0⟩

theorem remove_refusable (hg : ¬ PathOp.removeFile.Grantable pid p s.fileQueue) :
    Refusable cfg .removeFile pid p s := by
  have hres : deleteVirtualFile s.fileQueue p pid = (-1, s.fileQueue) := by
    cases hf : getFileNode s.fileQueue p with
    | none => simp [deleteVirtualFile, hf]
    | some f =>
      by_cases ho : f.isOpen
      · have hne : f.clientId ≠ pid := fun h => hg ⟨f, hf, ho, h⟩
        simp [deleteVirtualFile, hf, ho, hne]
      · simp [deleteVirtualFile, hf, ho]
  refine ⟨respond 0 (str "Errore eliminazione file"), fun _ => .unlock .fileQueueMutex .ret,
    logged s ⟨pid, .OP_DELETE_FILE, p, 0, 0⟩ s.fileQueue,
    silently_call (x := .deleteVirtualFile p pid) (y := (-1 : ℤ)) ?_, ?_⟩
  · show some ((deleteVirtualFile s.fileQueue p pid).1, logged s _ (deleteVirtualFile s.fileQueue p pid).2) = _
    rw [hres]
  · rintro ⟨⟨f, hf, -⟩, hgone⟩
    cases hf.symm.trans hgone

theorem close_refusable (hg : ¬ PathOp.closeFile.Grantable pid p s.fileQueue) :
    Refusable cfg .closeFile pid p s := by
  have hres : closeVirtualFile 0 s.fileQueue p pid = (-1, s.fileQueue) := by
    cases hf : getFileNode s.fileQueue p with
    | none => simp [closeVirtualFile, hf]
    | some f =>
      obtain ⟨ho, hc⟩ := not_or.1 fun h => hg ⟨f, hf, h⟩
      simp [closeVirtualFile, hf, ho, hc]
  refine ⟨respond 0 (str "Errore chiusura file"), fun _ => .unlock .fileQueueMutex .ret,
    logged s ⟨pid, .OP_CLOSE_FILE, p, 0, 0⟩ s.fileQueue,
    silently_call (x := .closeVirtualFile p pid) (y := (-1 : ℤ)) ?_, ?_⟩
  · show some ((closeVirtualFile 0 s.fileQueue p pid).1, logged s _ (closeVirtualFile 0 s.fileQueue p pid).2) = _
    rw [hres]
  · rintro ⟨f, hf, ho⟩
    exact hg ⟨f, hf, Or.inl ho⟩

/-- The attempts of the lock controller. -/
def attempts (p : CString) (pid : ℤ) : Code :=
  .await (.call (.lockVirtualFile p pid)) (fun status : ℤ => status = -2)
    [.fileQueueMutex] .fileLockCond .fileLockMutex fun status : ℤ =>
  .unlock .fileLockMutex <|
  .act (.write (if status = 0 then respond 0 (str "Lock correttamente acquisito sul file!")
    else respond (-1) (str "Impossible acquisire il lock sul file"))) fun _ =>
  .unlock .fileQueueMutex .ret

theorem silently_attempts : Silently cfg (controller cfg ⟨pid, .OP_LOCK_FILE, p, 0, 0⟩, s)
    (attempts p pid, logged s ⟨pid, .OP_LOCK_FILE, p, 0, 0⟩ s.fileQueue) := by
  refine .head (Speaks.act (e := .fair []) rfl rfl) ?_
  refine .head .lock ?_
  exact .single .lock

theorem silently_refused {s₁ : Server} (h : lockVirtualFile s₁.fileQueue p pid = (-1, s₁.fileQueue)) :
    Silently cfg (attempts p pid, s₁)
      (.act (.write (respond (-1) (str "Impossible acquisire il lock sul file"))) fun _ =>
        .unlock .fileQueueMutex .ret, s₁) := by
  have hx : exec cfg (.call (.lockVirtualFile p pid)) (.fair []) s₁ = some ((-1 : ℤ), s₁) := by
    show some ((lockVirtualFile s₁.fileQueue p pid).1,
      { s₁ with fileQueue := (lockVirtualFile s₁.fileQueue p pid).2 }) = _
    rw [h]
  exact .head (Speaks.pass (e := .fair []) rfl hx rfl) (.single .unlock)

theorem lock_refusable (hs : s.WF cfg) (hg : ¬ PathOp.lockFile.Grantable pid p s.fileQueue) :
    Refusable cfg .lockFile pid p s := by
  cases hf : getFileNode s.fileQueue p with
  | none =>
    have hres : lockVirtualFile s.fileQueue p pid = (-1, s.fileQueue) := by simp [lockVirtualFile, hf]
    refine ⟨_, _, _, silently_attempts.trans (silently_refused hres), ?_⟩
    rintro ⟨f, hf', -⟩
    cases hf.symm.trans hf'
  | some f =>
    obtain ⟨hc, h0⟩ := not_or.1 fun h => hg ⟨f, hf, h⟩
    by_cases ho : f.isOpen
    · -- the worker sleeps while the holder deletes the file
      have hgone := (letsGo_of_open hs hf ho).gone
      have hne : f.clientId ≠ 0 := fun h => h0 ⟨ho, h⟩
      have hblocked : lockVirtualFile s.fileQueue p pid = (-2, s.fileQueue) := by
        simp [lockVirtualFile, hf, ho, hc, hne]
      let r : Request := ⟨pid, .OP_LOCK_FILE, p, 0, 0⟩
      let q := (deleteVirtualFile s.fileQueue p f.clientId).2
      have hattempt : exec cfg (.call (.lockVirtualFile p pid)) (.fair []) (logged s r s.fileQueue) =
          some ((-2 : ℤ), logged s r s.fileQueue) := by
        show some ((lockVirtualFile s.fileQueue p pid).1,
          logged s r (lockVirtualFile s.fileQueue p pid).2) = _
        rw [hblocked]
      have hlater : Later cfg (logged s r s.fileQueue) (logged s r q) :=
        .single ⟨.call (.deleteVirtualFile p f.clientId), .fair [], _, rfl⟩
      have hres : lockVirtualFile (logged s r q).fileQueue p pid = (-1, (logged s r q).fileQueue) := by
        simp only [lockVirtualFile, logged]
        rw [hgone]
      refine ⟨_, _, _, silently_attempts.trans (.head (Speaks.park (e := .fair []) rfl hattempt rfl hlater)
        (silently_refused hres)), ?_⟩
      rintro ⟨f', hf', -⟩
      cases hgone.symm.trans hf'
    · have hres : lockVirtualFile s.fileQueue p pid = (-1, s.fileQueue) := by
        simp [lockVirtualFile, hf, ho]
      refine ⟨_, _, _, silently_attempts.trans (silently_refused hres), ?_⟩
      rintro ⟨f', hf', hc'⟩
      cases hf.symm.trans hf'
      exact hc hc'

/-- **When a client is told the truth.** -/
theorem faithful_iff (hs : Reachable cfg s) :
    Faithful cfg pid disk p s o ↔ o.Grantable pid p s.fileQueue := by
  refine ⟨fun h => ?_, faithful_of_grantable hs.wf⟩
  by_contra hg
  have hrun : Refusable cfg o pid p s := by
    cases o with
    | lockFile => exact lock_refusable hs.wf hg
    | unlockFile => exact unlock_refusable hg
    | removeFile => exact remove_refusable hg
    | closeFile => exact close_refusable hg
  obtain ⟨response, k, s₁, hrun, hno⟩ := hrun
  exact not_faithful_of_run hrun hno h

theorem faithful_crowded : Faithful ⟨8, 4⟩ 1 (fun _ => none) [47, 97] crowded .removeFile :=
  (faithful_iff crowded_reachable).2 ⟨_, rfl, rfl, rfl⟩

/-- Client 2 asks for the lock of a file that does not exist. -/
theorem not_faithful_init : Reachable ⟨8, 4⟩ Server.init ∧
    ¬ Faithful ⟨8, 4⟩ 2 (fun _ => none) [47, 97] Server.init .lockFile := by
  refine ⟨.init, ?_⟩
  have hrun : Refusable ⟨8, 4⟩ .lockFile 2 [47, 97] Server.init :=
    lock_refusable (.init _) fun ⟨f, hf, _⟩ => by cases hf
  obtain ⟨response, k, s₁, hrun, hno⟩ := hrun
  exact not_faithful_of_run hrun hno

end FileStorage
