/-
  The whole server: `main`, the workers with the requests they serve, and
  `signalThreadHandler`.

  A worker is at the top of its loop, serves a connection, or has terminated;
  its tasks are a round of the loop up to the connection, a request that it
  has read, and what follows when there is nothing more to read.  `plays` says
  which task a thread may start.
-/
import FileStorage.Connection
import FileStorage.Locking
import FileStorage.Threads.Expand

namespace FileStorage

open Threads Prog

namespace Daemon

/-! ## The state -/

/-- Where a worker is between its tasks. -/
inductive Phase where
  | atTop
  /-- in the loop that reads the requests from a descriptor -/
  | serving (fdClientSkt : ℤ)
  | terminated
  deriving DecidableEq, Repr

structure State (W : Type) where
  conns : Connections
  store : Server
  nConnections : ℤ
  phase : W → Phase
  /-- the descriptors closed while `closeServer` was not set, so that all their
      requests have been served -/
  served : List ℤ
  /-- the descriptors accepted before `SIGHUP` -/
  before : Option (List ℤ)

def State.init (W : Type) (unset : ℤ) : State W :=
  ⟨Connections.init unset, Server.init, 0, fun _ => .atTop, [], none⟩

/-- `!acceptNewConnection || closeServer` -/
def State.stopped {W : Type} (s : State W) : Bool := !s.conns.acceptNewConnection || s.conns.closeServer

inductive Act (W : Type) where
  | conn (a : Connection.Act)
  /-- `fd_client_skt = *fd` in the worker `w`, which will read from it -/
  | deref (w : W) (fd : IntPtr)
  /-- the condition of the loop of `main` -/
  | testGo
  /-- `closeServer` -/
  | testClose
  | addConnectionCont
  | subConnectionCont
  /-- `close(fd_client_skt)` in the worker `w` -/
  | close (w : W)
  /-- the worker `w` leaves its loop -/
  | terminate (w : W)
  /-- an action of a controller -/
  | act (a : FileStorage.Act)
  deriving DecidableEq

@[reducible] def Act.Ans {W : Type} : Act W → Type
  | .conn a => a.Ans
  | .deref _ _ => ℤ
  | .testGo | .testClose => Bool
  | .act a => a.Ans
  | _ => Unit

inductive Mutex where
  | connectionQueueMutex
  | file (m : FileStorage.Mutex)
  deriving DecidableEq

inductive Cond where
  | connectionQueueCond
  | file (c : FileStorage.Cond)
  /-- `file_queue_cond`, on which nobody waits -/
  | fileQueueCond
  deriving DecidableEq

abbrev sig (W : Type) : Sig := ⟨Act W, Act.Ans, Mutex, Cond⟩

structure Env extends FileStorage.Env where
  /-- the descriptor that `accept` returns, `none` for an error -/
  fd : Option ℕ

def exec {W : Type} [DecidableEq W] (cfg : Config) : Exec (sig W) (State W) Env
  | .conn a, e, s => (Connection.exec a e.fd s.conns).map fun x => (x.1, { s with
      conns := x.2
      before := if a = .stop .SIGHUP then some s.conns.accepted else s.before })
  | .deref w fd, e, s => (Connection.exec (.deref fd) e.fd s.conns).map fun x => (x.1, { s with
      conns := x.2
      phase := Function.update s.phase w (.serving x.1) })
  | .testGo, _, s => some (!s.stopped, s)
  | .testClose, _, s => some (s.conns.closeServer, s)
  | .addConnectionCont, _, s => some ((), { s with nConnections := s.nConnections + 1 })
  | .subConnectionCont, _, s => some ((), { s with nConnections := s.nConnections - 1 })
  | .close w, _, s => match s.phase w with
    | .serving fd => some ((), { s with
        phase := Function.update s.phase w .atTop
        served := if s.conns.closeServer then s.served else s.served ++ [fd] })
    | _ => none
  | .terminate w, _, s => some ((), { s with phase := Function.update s.phase w .terminated })
  | .act a, e, s => (FileStorage.exec cfg a e.toEnv s.store).map fun x => (x.1, { s with store := x.2 })

/-! ## The programs -/

variable {W : Type}

abbrev Code (W : Type) : Type := Prog (sig W)

/-- A round of the loop of `main` in which the server socket is ready. -/
def main : Code W :=
  .act .testGo fun go : Bool =>
  if go then
    .act (.conn .accept) fun fd : ℤ =>
    if fd = -1 then .ret
    else
      .lock .connectionQueueMutex <|
      .act (.conn .push) fun _ =>
      .signal .connectionQueueCond <|
      .unlock .connectionQueueMutex .ret
  else .ret

/-- A round of the loop of `worker`, up to the loop that reads the requests. -/
def round (w : W) : Code W :=
  .lock .connectionQueueMutex <|
  .await (.conn .testQueue) (fun b : Bool => b) [] .connectionQueueCond .connectionQueueMutex fun _ =>
  .act (.conn .testStop) fun b : Bool =>
  if b then .unlock .connectionQueueMutex <| .act (.terminate w) fun _ => .ret
  else
    .act (.conn .pop) fun fd : IntPtr =>
    .act (.deref w fd) fun fdClientSkt : ℤ =>
    .unlock .connectionQueueMutex <|
    .act .addConnectionCont fun _ =>
    if fdClientSkt ≠ -1 then .ret else .act (.terminate w) fun _ => .ret

/-- `worker` from the end of the loop that reads the requests. -/
def hangup (w : W) : Code W :=
  .act (.close w) fun _ =>
  .act (.conn .testStop) fun b : Bool =>
  if b then .act (.terminate w) fun _ => .ret
  else .act .subConnectionCont fun _ => .ret

def into (W : Type) : Into workerSig (sig W) := ⟨.act, fun _ r => r, .file, .file⟩

/-- A request that `worker` has read. -/
def request (cfg : Config) (w : W) (r : Request) : Code W :=
  .act .testClose fun b : Bool =>
  if b then hangup w
  else expand (into W) (fun a k => .act (.act a) k) .ret (controller cfg r)

def signalThreadHandler (s : Signal) : Code W :=
  .act (.conn (.stop s)) fun _ =>
  .lock .connectionQueueMutex <|
  .broadcast .connectionQueueCond <|
  .unlock .connectionQueueMutex <|
  .lock (.file .fileQueueMutex) <|
  .broadcast .fileQueueCond <|
  .unlock (.file .fileQueueMutex) .ret

inductive Task (W : Type) where
  | main
  | signal (s : Signal)
  | round (w : W)
  | request (w : W) (r : Request)
  | hangup (w : W)
  deriving DecidableEq

def body (cfg : Config) : Task W → Code W
  | .main => main
  | .signal s => signalThreadHandler s
  | .round w => round w
  | .request w r => request cfg w r
  | .hangup w => hangup w

/-- The threads. -/
abbrev Tid (W : Type) : Type := Connection.Tid W

variable [DecidableEq W] {cfg : Config} {c c' : Conf (sig W) (State W) (Task W) (Tid W)}
  {t : Tid W} {ev : Ev (sig W) (Task W)}

/-- A thread starts its own tasks: the signal thread handles one signal, and a
    worker goes on from where it is. -/
def plays (c : Conf (sig W) (State W) (Task W) (Tid W)) (t : Tid W) : Ev (sig W) (Task W) → Bool
  | .start l => match t, l with
    | .main, .main => true
    | .signalThread, .signal _ => !c.st.stopped
    | .worker w, .round v => v = w && c.st.phase w = .atTop
    | .worker w, .request v _ | .worker w, .hangup v =>
      v = w && match c.st.phase w with
        | .serving _ => true
        | _ => false
    | _, _ => false
  | _ => true

/-- The configurations of the server. -/
abbrev Reached (cfg : Config) (unset : ℤ) (c : Conf (sig W) (State W) (Task W) (Tid W)) : Prop :=
  Reach (exec cfg) (body cfg) (fun c t ev => plays c t ev = true) (Conf.init (State.init W unset)) c

/-- The loops in which a thread sleeps: for a connection, and for a lock. -/
inductive Loop : (a : Act W) → (a.Ans → Bool) → List Mutex → Cond → Mutex → Prop
  | queue {us} : Loop (.conn .testQueue) (fun b : Bool => b) us .connectionQueueCond
      .connectionQueueMutex
  | lock {x b us} : Loop (.act (.call x)) b us (.file .fileLockCond) (.file .fileLockMutex)

/-! ## The actions -/

/-- The hand-off part of the state changes by its own actions only. -/
theorem exec_conns {a : Act W} {e : Env} {s s' : State W} {r : a.Ans}
    (hx : exec cfg a e s = some (r, s')) : s'.conns = s.conns ∨
      ∃ a' r', Connection.exec a' e.fd s.conns = some (r', s'.conns) := by
  cases a with
  | conn a =>
    obtain ⟨y, hy, he⟩ := Option.map_eq_some_iff.1 hx
    cases he
    exact Or.inr ⟨a, y.1, hy⟩
  | deref w fd =>
    rw [exec, Option.map_eq_some_iff] at hx
    obtain ⟨y, hy, he⟩ := hx
    cases he
    exact Or.inr ⟨.deref fd, y.1, hy⟩
  | close w =>
    simp only [exec] at hx
    split at hx
    · cases hx
      exact Or.inl rfl
    · cases hx
  | act a =>
    obtain ⟨y, -, he⟩ := Option.map_eq_some_iff.1 hx
    cases he
    exact Or.inl rfl
  | _ =>
    cases hx
    exact Or.inl rfl

/-- The flags are set once and for all. -/
theorem exec_stopped {a : Act W} {e : Env} {s s' : State W} {r : a.Ans}
    (hx : exec cfg a e s = some (r, s')) (hs : s.stopped = true) : s'.stopped = true := by
  rw [State.stopped] at hs ⊢
  rcases exec_conns hx with he | ⟨a', r', hx'⟩
  · rw [he, hs]
  · generalize s'.conns = k at hx' ⊢
    cases a' with
    | accept => cases hfd : e.fd <;> rw [hfd] at hx' <;> cases hx' <;> exact hs
    | pop =>
      obtain ⟨y, -, he⟩ := Option.map_eq_some_iff.1 hx'
      cases he
      exact hs
    | deref p => cases p; cases hx'; exact hs
    | stop sig => cases sig <;> cases hx' <;> simp
    | push =>
      obtain ⟨-, rfl⟩ := Prod.mk.inj (Option.some.inj hx')
      exact hs
    | testQueue | testStop => cases hx'; exact hs

/-- A handled signal sets a flag. -/
theorem exec_stop {sg : Signal} {e : Env} {s s' : State W} {r : Unit}
    (hx : exec cfg (.conn (.stop sg)) e s = some (r, s')) : s'.stopped = true := by
  rw [exec, Option.map_eq_some_iff] at hx
  obtain ⟨y, hy, he⟩ := hx
  obtain rfl := (Prod.mk.inj he).2
  rw [State.stopped]
  cases sg with
  | SIGHUP => cases hy; rfl
  | SIGINT | SIGQUIT => cases hy; exact Bool.or_true _

/-- Once a flag is set no worker waits for a connection. -/
theorem exec_testQueue {e : Env} {s s' : State W} {b : Bool}
    (hx : exec cfg (.conn .testQueue) e s = some (b, s')) (hs : s.stopped = true) : b = false := by
  rw [exec, Option.map_eq_some_iff] at hx
  obtain ⟨y, hy, he⟩ := hx
  cases he
  cases hy
  rw [State.stopped] at hs
  rcases Bool.or_eq_true_iff.1 hs with h | h
  · rw [Bool.not_eq_true'] at h
    simp [h]
  · simp [h]

/-! ## The programs -/

omit [DecidableEq W] in
/-- What a program does with its actions `A` is kept by the embedding of a controller. -/
theorem request_ind {Q : Code W → Prop} (r : Request) (hret : Q .ret)
    (hact : ∀ a k, (∀ x, Q (k x)) → Q (.act (.act a) k))
    (hlock : ∀ m k, Q k → Q (.lock (.file m) k)) (hunlock : ∀ m k, Q k → Q (.unlock (.file m) k))
    (hsignal : ∀ cd k, Q k → Q (.signal (.file cd) k))
    (hbroadcast : ∀ cd k, Q k → Q (.broadcast (.file cd) k))
    (hawait : ∀ x b k, (∀ y, Q (k y)) → Q (.await (.act (.call x)) b
      [.file .fileQueueMutex] (.file .fileLockCond) (.file .fileLockMutex) k)) :
    Q (expand (into W) (fun a k => .act (.act a) k) .ret (controller cfg r)) := by
  refine expand_ind (controller_shaped r) hret (fun a k _ _ hk => hact a k hk) hlock hunlock
    hsignal hbroadcast ?_
  intro a b us cd m k hP hk
  cases hP with
  | opens => exact hawait _ _ _ hk
  | locks => exact hawait _ _ _ hk

section
omit [DecidableEq W]

/-- `connection_queue_mutex` is owned at every notification of its condition and
    around every sleep on it. -/
theorem body_held (l : Task W) : Held (S := sig W) (fun _ => False)
    (· = Cond.connectionQueueCond) True Mutex.connectionQueueMutex False (body cfg l) := by
  cases l with
  | main => simp [body, main, Held]
  | signal => simp [body, signalThreadHandler, Held]
  | round w => simp [body, round, Held]
  | hangup w => simp [body, hangup, Held]
  | request w r =>
    refine ⟨False.elim, fun b => held_ite.2 ⟨fun _ => by simp [hangup, Held], fun _ => ?_⟩⟩
    refine request_ind r trivial ?_ ?_ ?_ ?_ ?_ ?_
    · exact fun a k hk => ⟨False.elim, hk⟩
    · exact fun m k hk => hk.congr (by simp)
    · exact fun m k hk => ⟨fun h => (by cases h), hk.congr (by simp)⟩
    · exact fun cd k hk => ⟨fun h => (by cases h), hk⟩
    · exact fun cd k hk => ⟨fun h => (by cases h), hk⟩
    · exact fun x b k hk => ⟨False.elim, hk, by simp⟩

theorem body_gives (l : Task W) : Gives (S := sig W) (fun _ _ => True)
    Mutex.connectionQueueMutex False (body cfg l) := by
  cases l with
  | main => simp [body, main, Gives]
  | signal => simp [body, signalThreadHandler, Gives]
  | round w => simp [body, round, Gives]
  | hangup w => simp [body, hangup, Gives]
  | request w r =>
    refine fun b _ => gives_ite.2 ⟨fun _ => by simp [hangup, Gives], fun _ => ?_⟩
    refine request_ind r id ?_ ?_ ?_ ?_ ?_ ?_
    · exact fun a k hk x _ => hk x
    · exact fun m k hk => hk.mono (by simp)
    · exact fun m k hk => hk.mono (by simp)
    · exact fun cd k hk => hk
    · exact fun cd k hk => hk
    · exact fun x b k hk => ⟨fun y _ => (hk y).mono (by simp), False.elim⟩

end

end Daemon

end FileStorage
