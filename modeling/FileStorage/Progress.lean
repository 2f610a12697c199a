/-
  The server does not come to a standstill.

  The threads take `file_queue_mutex` before `file_lock_mutex`, and
  `connection_queue_mutex` last.  They return and sleep without a mutex, but
  for the two exits that keep `file_queue_mutex`: `controller_ordered`,
  `body_ordered`.

  * `somebody_goes_on`: in every run a thread on its way can go on by itself, or one
    that it waits for, unless that one waits for a client, the process is killed
    or a worker keeps `file_queue_mutex`; in runs that avoid the two exits nobody
    keeps it.
  * `settles`: without new requests and spurious wake-ups the threads make a
    bounded number of steps, in any order, after which they are all idle or
    asleep, or one of the above is the case.

  A transfer that completes is one step, and so is an `accept` with the `select`
  before it.  Whether they complete is up to the clients, of which nothing is
  assumed (`AwaitsClient`).
-/
import FileStorage.Release
import FileStorage.Shutdown
import FileStorage.Threads.Order
import FileStorage.Threads.Potential
import Mathlib.Data.Fintype.Sum
import Mathlib.Tactic.DeriveFintype

namespace FileStorage

open Threads Prog

/-! ## The controllers -/

section
variable {cfg : Config} {r : Request}

/-- The order in which the controllers take their mutexes. -/
def Mutex.rank : Mutex → ℕ
  | .fileQueueMutex => 0
  | .fileLockMutex => 1

/-- Where no mutex may be kept, the answers after which the controllers give
    theirs back. -/
def Releasing (keep : Set Mutex) (a : Act) (x : a.Ans) : Prop := keep = ∅ → Listed a x

/-- The controllers take their mutexes in order, and keep at most `file_queue_mutex`. -/
theorem controller_ordered {keep : Set Mutex}
    (hk : keep = {.fileQueueMutex} ∨ keep = ∅ ∧ ¬ r.tooBig cfg) :
    Ordered (S := workerSig) (Releasing keep) Mutex.rank keep keep (controller cfg r) := by
  unfold controller
  cases hop : r.operation with
  | OP_OPEN_FILE =>
    rcases hk with rfl | ⟨rfl, -⟩ <;> simp [openFileController, Ordered, logRequest, Mutex.rank]
  | OP_APPEND_FILE =>
    rcases hk with rfl | ⟨rfl, -⟩ <;> simp [appendFileController, appendFileBody,
      sendBufferFileToClient, Ordered, logRequest, Mutex.rank, Option.forall]
  | OP_READ_FILE =>
    rcases hk with rfl | ⟨rfl, -⟩ <;>
      simp [readFileController, sendFileToClient, Ordered, logRequest, Mutex.rank, Option.forall]
  | OP_DELETE_FILE =>
    rcases hk with rfl | ⟨rfl, -⟩ <;> simp [deleteFileController, Ordered, logRequest, Mutex.rank]
  | OP_WRITE_FILE =>
    rcases hk with rfl | ⟨rfl, hb⟩
    · simp [writeFileController, writeFileBody, sendBufferFileToClient, Ordered, logRequest, Mutex.rank]
    · have hle : ¬ cfg.maxMemSize.toNat < r.fileSize := fun hlt => hb ⟨hop, hlt⟩
      simp [writeFileController, writeFileBody, sendBufferFileToClient, Ordered, logRequest, Mutex.rank,
        hle]
  | OP_CLOSE_FILE =>
    rcases hk with rfl | ⟨rfl, -⟩ <;> simp [closeFileController, Ordered, logRequest, Mutex.rank]
  | OP_LOCK_FILE =>
    rcases hk with rfl | ⟨rfl, -⟩ <;> simp [lockFileController, Ordered, logRequest, Mutex.rank]
  | OP_UNLOCK_FILE =>
    rcases hk with rfl | ⟨rfl, -⟩ <;> simp [unlockFileController, Ordered, logRequest, Mutex.rank]
  | OP_READ_N_FILES =>
    rcases hk with rfl | ⟨rfl, -⟩
    · simp [readnFileController, readnFileBody, Ordered, logRequest, Mutex.rank, Option.forall]
    · -- a list that is not empty leads to the exit that gives the mutex back
      have hlo := BitVec.le_toInt r.flags
      have hhi := BitVec.toInt_lt (x := r.flags)
      have hlisted : ∀ n : ℕ, (-2147483648 ≤ r.flags.toInt → r.flags.toInt ≤ 2147483647 → ¬ n = 0) →
          ¬ n = 0 := fun n hn => hn (by omega) (by omega)
      simpa [readnFileController, readnFileBody, Ordered, logRequest, Mutex.rank, Option.forall,
        Releasing, Listed] using hlisted
  | unknown n => rcases hk with rfl | ⟨rfl, -⟩ <;> simp [Ordered]

/-- Each step costs one, a notification `K`; a blocked attempt of a controller
    costs three. -/
def unitCosts (S : Sig) (K : ℕ) : Costs S := ⟨fun _ => 1, 1, K, 3⟩

/-- A controller makes at most twenty steps, one of them a broadcast. -/
theorem controller_weighs (K : ℕ) (r : Request) :
    Weighs (S := workerSig) (fun _ _ => True) (unitCosts _ K) (controller cfg r) (K + 20) := by
  unfold controller
  cases r.operation with
  | OP_OPEN_FILE => simp [openFileController, Weighs, logRequest, unitCosts, Costs.attempt]
  | OP_APPEND_FILE =>
    simp [appendFileController, appendFileBody, sendBufferFileToClient, Weighs, logRequest, weighs_ite,
      unitCosts, Option.forall]
  | OP_READ_FILE =>
    simp [readFileController, sendFileToClient, Weighs, logRequest, weighs_ite, unitCosts, Option.forall]
  | OP_DELETE_FILE => simp [deleteFileController, Weighs, logRequest, unitCosts]
  | OP_WRITE_FILE =>
    simp [writeFileController, writeFileBody, sendBufferFileToClient, Weighs, logRequest, weighs_ite,
      unitCosts]
  | OP_CLOSE_FILE => simp [closeFileController, Weighs, logRequest, unitCosts]
  | OP_LOCK_FILE => simp [lockFileController, Weighs, logRequest, unitCosts, Costs.attempt]
  | OP_UNLOCK_FILE => simp [unlockFileController, Weighs, logRequest, weighs_ite, unitCosts]
  | OP_READ_N_FILES =>
    simp [readnFileController, readnFileBody, Weighs, logRequest, weighs_ite, unitCosts, Option.forall]
  | unknown n => simp [Weighs, unitCosts]

end

namespace Daemon

variable {W : Type} [DecidableEq W] {cfg : Config} {unset : ℤ}
  {c c' : Conf (sig W) (State W) (Task W) (Tid W)} {t u : Tid W} {ev : Ev (sig W) (Task W)}

/-! ## The programs of the threads -/

/-- `connection_queue_mutex` is the last one to be taken. -/
def Mutex.rank : Mutex → ℕ
  | .file m => m.rank
  | .connectionQueueMutex => 2

/-- The answers that matter are those in the controllers. -/
def Releasing (keep : Set FileStorage.Mutex) : (a : Act W) → a.Ans → Prop
  | .act a, x => FileStorage.Releasing keep a x
  | _, _ => True

omit [DecidableEq W] in
theorem hangup_ordered {keep : Set FileStorage.Mutex} (w : W) :
    Ordered (S := sig W) (Releasing keep) Mutex.rank (Mutex.file '' keep) (Mutex.file '' keep)
      (hangup w) := by
  simp [hangup, Ordered]

omit [DecidableEq W] in
/-- **The threads take their mutexes in order**, and keep at most `file_queue_mutex`. -/
theorem body_ordered {keep : Set FileStorage.Mutex} (l : Task W)
    (hk : keep = {.fileQueueMutex} ∨ keep = ∅ ∧ ∀ w r, l = .request w r → ¬ r.tooBig cfg) :
    Ordered (S := sig W) (Releasing keep) Mutex.rank (Mutex.file '' keep) (Mutex.file '' keep)
      (body cfg l) := by
  cases l with
  | main =>
    rcases hk with rfl | ⟨rfl, -⟩ <;> simp [body, main, Ordered, Mutex.rank, FileStorage.Mutex.rank]
  | signal =>
    rcases hk with rfl | ⟨rfl, -⟩ <;>
      simp [body, signalThreadHandler, Ordered, Mutex.rank, FileStorage.Mutex.rank]
  | round w =>
    rcases hk with rfl | ⟨rfl, -⟩ <;> simp [body, round, Ordered, Mutex.rank, FileStorage.Mutex.rank]
  | hangup w => exact hangup_ordered w
  | request w r =>
    refine fun b _ => ordered_ite.2 ⟨fun _ => hangup_ordered w, fun _ => ?_⟩
    have hinj : Function.Injective Mutex.file := fun _ _ h => Mutex.file.inj h
    refine Ordered.expand (i := into W) (f := fun a k => .act (.act a) k) (q := .ret) hinj
      (fun _ => rfl) (fun m hm => Set.mem_image_of_mem _ hm) (fun _ _ h => h) (fun _ h => h)
      (fun _ _ _ h => h) (controller_ordered ?_)
    exact hk.imp_right fun h => ⟨h.1, h.2 w r rfl⟩

omit [DecidableEq W] in
/-- What a thread can do in one task. -/
theorem body_weighs (K : ℕ) (l : Task W) :
    Weighs (S := sig W) (fun _ _ => True) (unitCosts _ K) (body cfg l) (2 * K + 21) := by
  cases l with
  | main => simp [body, main, Weighs, weighs_ite, unitCosts]; omega
  | signal => simp [body, signalThreadHandler, Weighs, unitCosts]; omega
  | round w => simp [body, round, Weighs, weighs_ite, unitCosts, Costs.attempt]
  | hangup w => simp [body, hangup, Weighs, weighs_ite, unitCosts]
  | request w r =>
    refine ⟨by show 1 ≤ _; omega, fun b _ => weighs_ite.2 ⟨fun _ => ?_, fun _ => ?_⟩⟩
    · simp [hangup, Weighs, weighs_ite, unitCosts]
    · refine Weighs.expand (i := into W) (f := fun a k => .act (.act a) k) (q := .ret) (fun _ _ h => h)
        (fun _ h => h) (fun _ _ _ hn h => ⟨hn, h⟩) ((controller_weighs K r).mono ?_)
      show K + 20 ≤ 2 * K + 21 - 1
      omega

/-! ## The answers -/

section
variable {ok : Conf (sig W) (State W) (Task W) (Tid W) → Tid W → Ev (sig W) (Task W) → Prop}

/-- Steps that do not lead to one of the two exits that keep `file_queue_mutex`. -/
def AvoidsExits (cfg : Config) (c : Conf (sig W) (State W) (Task W) (Tid W)) :
    Ev (sig W) (Task W) → Prop
  | .start (.request _ r) => ¬ r.tooBig cfg
  | .did (.act (.call (.getNFileList N))) _ => N ≠ 0 ∧ c.st.store.fileQueue.data ≠ []
  | _ => True

/-- The configurations of the server in runs of such steps. -/
abbrev Avoiding (cfg : Config) (unset : ℤ) (c : Conf (sig W) (State W) (Task W) (Tid W)) : Prop :=
  Reach (exec cfg) (body cfg) (fun c t ev => plays c t ev = true ∧ AvoidsExits cfg c ev)
    (Conf.init (State.init W unset)) c

/-- The store changes by the actions of the controllers only. -/
theorem exec_store {a : Act W} {e : Env} {s s' : State W} {r : a.Ans}
    (hx : exec cfg a e s = some (r, s')) : s'.store = s.store ∨
      ∃ b x, a = .act b ∧ FileStorage.exec cfg b e.toEnv s.store = some (x, s'.store) := by
  cases a with
  | act a =>
    obtain ⟨y, hy, he⟩ := Option.map_eq_some_iff.1 hx
    cases he
    exact Or.inr ⟨a, y.1, rfl, hy⟩
  | conn a =>
    obtain ⟨y, -, he⟩ := Option.map_eq_some_iff.1 hx
    cases he
    exact Or.inl rfl
  | deref w fd =>
    rw [exec, Option.map_eq_some_iff] at hx
    obtain ⟨y, -, he⟩ := hx
    cases he
    exact Or.inl rfl
  | close w =>
    simp only [exec] at hx
    split at hx
    · cases hx
      exact Or.inl rfl
    · cases hx
  | _ =>
    cases hx
    exact Or.inl rfl

/-- The store of the server is reached by calls of the controllers. -/
theorem reach_reachable
    (h : Reach (exec cfg) (body cfg) ok (Conf.init (State.init W unset)) c) :
    Reachable cfg c.st.store := by
  induction h with
  | init => exact .init
  | step _ hst _ ih =>
    rcases hst.st_cases with he | ⟨a, e, r, -, hx⟩
    · rw [he]
      exact ih
    · rcases exec_store hx with he | ⟨b, x, -, hb⟩
      · rw [he]
        exact ih
      · exact .step ih hb

omit [DecidableEq W] in
/-- The actions of the controllers have answers after which the mutexes are given
    back, unless they list no file. -/
theorem listed_of_exec {a : FileStorage.Act} {e : FileStorage.Env} {s s' : Server} {x : a.Ans}
    (hs : s.WF cfg) (hx : FileStorage.exec cfg a e s = some (x, s'))
    (ha : ∀ N, a = .call (.getNFileList N) → N ≠ 0 ∧ s.fileQueue.data ≠ []) : Listed a x := by
  cases a with
  | call y =>
    cases y with
    | getNFileList N =>
      cases hx
      intro hlo hhi h0
      have hcap := hs.cap
      have hlt := cfg.maxFile.toNat_lt
      rcases (getNFileList_eq_zero ⟨hlo, hhi⟩ hs.toWF (by omega)).1 h0 with hN | hd
      · exact (ha N rfl).1 hN
      · exact (ha N rfl).2 hd
    | _ => trivial
  | crash => cases hx
  | _ => trivial

end

/-! ## Progress -/

/-- A worker at rest, or one that asks for it again, owns `file_queue_mutex`. -/
abbrev Leaks (c : Conf (sig W) (State W) (Task W) (Tid W)) : Prop :=
  Retained (S := sig W) {Mutex.file .fileQueueMutex} c

omit [DecidableEq W] in
theorem rank_lt (m : Mutex) : m.rank < 3 := by
  cases m with
  | file m => cases m <;> decide
  | connectionQueueMutex => decide

/-- In runs that may take the two exits. -/
theorem goes_on_or_retained (h : Reached cfg unset c) (ht : (c.thr t).atRest = false) :
    (∃ u, Relation.ReflTransGen (WaitsOn c) t u ∧
      (Goes (exec cfg) (body cfg) c u ∨ Stuck (exec cfg) c u)) ∨ Leaks c := by
  have hk : Mutex.file '' {FileStorage.Mutex.fileQueueMutex} = {Mutex.file .fileQueueMutex} :=
    Set.image_singleton
  rw [Leaks, ← hk]
  refine h.goes_on rank_lt (fun _ _ l _ => body_ordered l (Or.inl rfl)) ?_ ht
  intro c t a e r s _ _
  cases a with
  | act a => exact fun he => absurd he (Set.singleton_ne_empty _)
  | _ => trivial

/-- In runs that avoid them. -/
theorem goes_on_of_avoiding (h : Avoiding cfg unset c) (ht : (c.thr t).atRest = false) :
    ∃ u, Relation.ReflTransGen (WaitsOn c) t u ∧
      (Goes (exec cfg) (body cfg) c u ∨ Stuck (exec cfg) c u) := by
  have hr := h.strengthen fun c hc => (reach_reachable hc).wf
  have hprog : (∃ u, Relation.ReflTransGen (WaitsOn c) t u ∧
      (Goes (exec cfg) (body cfg) c u ∨ Stuck (exec cfg) c u)) ∨
      Retained (S := sig W) (Mutex.file '' ∅) c := by
    refine hr.goes_on rank_lt (fun c t l ho => body_ordered l (Or.inr ⟨rfl, fun w r he => ?_⟩))
      (fun c t a e r s ho hx => ?_) ht
    · subst he
      exact ho.1.2
    · cases a with
      | act a =>
        obtain ⟨y, hy, he⟩ := Option.map_eq_some_iff.1 hx
        cases he
        refine fun _ => listed_of_exec ho.2 hy fun N ha => ?_
        subst ha
        exact ho.1.2
      | _ => trivial
  refine hprog.resolve_right fun hkept => ?_
  obtain ⟨m, hm, -⟩ := hkept
  rw [Set.image_empty] at hm
  exact hm

/-- A thread at this action may wait for a client: `main` for a connection, and a
    worker for the other end of its own. -/
def Act.awaitsClient : Act W → Bool
  | .conn .accept => true
  | .act a => a.transfers
  | _ => false

def AwaitsClient (c : Conf (sig W) (State W) (Task W) (Tid W)) (u : Tid W) : Prop :=
  ∃ a : Act W, (c.thr u).nextAct = some a ∧ a.awaitsClient = true

/-- The thread can go on by itself. -/
def GoesAlone (cfg : Config) (c : Conf (sig W) (State W) (Task W) (Tid W)) (u : Tid W) : Prop :=
  Goes (exec cfg) (body cfg) c u ∧ ¬ AwaitsClient c u

/-- The thread, or one that it waits for, can go on by itself, or may wait for a
    client, or kills the process by an access through a pointer. -/
def HasWay (cfg : Config) (c : Conf (sig W) (State W) (Task W) (Tid W)) (t : Tid W) : Prop :=
  ∃ u, Relation.ReflTransGen (WaitsOn c) t u ∧
    (GoesAlone cfg c u ∨ AwaitsClient c u ∨ Stuck (exec cfg) c u)

theorem alone_or_awaits {u : Tid W} (h : Goes (exec cfg) (body cfg) c u ∨ Stuck (exec cfg) c u) :
    GoesAlone cfg c u ∨ AwaitsClient c u ∨ Stuck (exec cfg) c u := by
  rcases h with h | h
  · by_cases ht : AwaitsClient c u
    · exact Or.inr (Or.inl ht)
    · exact Or.inl ⟨h, ht⟩
  · exact Or.inr (Or.inr h)

/-- **No standstill.**  In every run of the server a thread that is on its way can
    go on by itself, or one that it waits for, directly or not; unless that one
    waits for a client, the process is killed by an access through a pointer, or
    a worker that is at rest, or that asks for it again, owns `file_queue_mutex`.
    The last does not happen in runs that avoid the two exits that do not give it
    back. -/
theorem somebody_goes_on (cfg : Config) (unset : ℤ) (W : Type) [DecidableEq W]
    (c : Conf (sig W) (State W) (Task W) (Tid W)) (t : Tid W) (ht : (c.thr t).atRest = false) :
    (Reached cfg unset c → HasWay cfg c t ∨ Leaks c) ∧ (Avoiding cfg unset c → HasWay cfg c t) := by
  have hway : (∃ u, Relation.ReflTransGen (WaitsOn c) t u ∧
      (Goes (exec cfg) (body cfg) c u ∨ Stuck (exec cfg) c u)) → HasWay cfg c t :=
    fun ⟨u, hu, hgo⟩ => ⟨u, hu, alone_or_awaits hgo⟩
  exact ⟨fun h => (goes_on_or_retained h ht).imp_left hway, fun h => hway (goes_on_of_avoiding h ht)⟩

/-- Client 1 sends a file that is too big, and worker `w` keeps `file_queue_mutex`;
    worker `v` is about to take it. -/
def keeping (w v : W) : List (Tid W × Choice (Task W) Env (Tid W)) :=
  awaiting w ++ connecting w 4 ++ awaiting v ++ connecting v 5 ++
    (.worker w, .start (.request w ⟨1, .OP_WRITE_FILE, [47, 97], 0, 9⟩)) :: steps (.worker w) 5 ++
    (.worker v, .start (.request v ⟨2, .OP_READ_FILE, [47, 97], 0, 0⟩)) :: steps (.worker v) 1

theorem keeping_reached : ∃ c : Conf (sig (Fin 2)) (State (Fin 2)) (Task (Fin 2)) (Tid (Fin 2)),
    Reached ⟨8, 4⟩ 0 c ∧ (c.thr (.worker 1)).wants = some (.file .fileQueueMutex) ∧
      c.owner (.file .fileQueueMutex) = some (.worker 0) ∧
      ∀ t, t ≠ .worker 1 → (c.thr t).atRest = true := by
  obtain ⟨c, hc, hw, ho, hm, hs, h0⟩ : ∃ c ∈ sched (exec ⟨8, 4⟩) (body ⟨8, 4⟩)
      (fun c t ev => plays c t ev) (keeping 0 1) (Conf.init (State.init (Fin 2) 0)),
      (c.thr (.worker 1)).wants = some (.file .fileQueueMutex) ∧
      c.owner (.file .fileQueueMutex) = some (.worker 0) ∧ (c.thr .main).atRest = true ∧
      (c.thr .signalThread).atRest = true ∧ (c.thr (.worker 0)).atRest = true := by decide +kernel
  refine ⟨c, sched_reach _ .init hc, hw, ho, fun t ht => ?_⟩
  cases t with
  | main => exact hm
  | signalThread => exact hs
  | worker w =>
    obtain rfl : w = 0 := by
      rcases Fin.eq_zero_or_eq_succ w with h | ⟨i, hi⟩
      · exact h
      · exact absurd (congrArg Connection.Tid.worker (hi.trans (by rw [Fin.eq_zero i]; rfl))) ht
    exact h0

/-- A transfer or an `accept` that completes is a step. -/
theorem AwaitsClient.goes {u : Tid W} (h : AwaitsClient c u) : Goes (exec cfg) (body cfg) c u := by
  obtain ⟨a, ha, hwait⟩ := h
  refine ⟨?_, ?_⟩
  · cases hu : c.thr u with
    | idle | asleep => rw [hu] at ha; cases ha
    | run | woken => rfl
  · obtain ⟨e, x, s, hx⟩ : ∃ e x s, exec cfg a e c.st = some (x, s) := by
      cases a with
      | conn a =>
        cases a with
        | accept => exact ⟨⟨⟨true, [], 0, NULL⟩, none⟩, _, _, rfl⟩
        | _ => cases hwait
      | act a =>
        cases a with
        | write | writeBytes | readData | read => exact ⟨⟨⟨true, [], 0, NULL⟩, none⟩, _, _, rfl⟩
        | _ => cases hwait
      | _ => cases hwait
    exact ⟨_, Step.exists_did ha hx⟩

/-- The exception is real: then nobody has a way to go on. -/
theorem not_goes_on : ∃ c : Conf (sig (Fin 2)) (State (Fin 2)) (Task (Fin 2)) (Tid (Fin 2)),
    Reached ⟨8, 4⟩ 0 c ∧ (c.thr (.worker 1)).atRest = false ∧ ∀ t, ¬ HasWay ⟨8, 4⟩ c t := by
  obtain ⟨c, hr, hw, ho, hrest⟩ := keeping_reached
  have hwait : ∀ u, ¬ (Goes (exec ⟨8, 4⟩) (body ⟨8, 4⟩) c u ∨ Stuck (exec ⟨8, 4⟩) c u) := by
    intro u
    by_cases hu : u = .worker 1
    · subst hu
      exact waits_of_wants hw (by rw [ho]; exact Option.some_ne_none _)
    · rintro (⟨hgo, -⟩ | ⟨a, ha, -⟩)
      · rw [hrest u hu] at hgo
        cases hgo
      · have hr := hrest u hu
        cases ht : c.thr u with
        | idle | asleep => rw [ht] at ha; cases ha
        | run | woken => rw [ht] at hr; cases hr
  refine ⟨c, hr, ?_, ?_⟩
  · cases ht : c.thr (.worker 1) with
    | idle | asleep => rw [ht] at hw; cases hw
    | run | woken => rfl
  · rintro t ⟨u, -, h | h | h⟩
    · exact hwait u (Or.inl h.1)
    · exact hwait u (Or.inl h.goes)
    · exact hwait u (Or.inr h)

theorem somebody_goes_on_keeping : ∃ c : Conf (sig (Fin 2)) (State (Fin 2)) (Task (Fin 2)) (Tid (Fin 2)),
    Reached ⟨8, 4⟩ 0 c ∧ (HasWay ⟨8, 4⟩ c (.worker 1) ∨ Leaks c) := by
  obtain ⟨c, hr, hw, -, -⟩ := keeping_reached
  refine ⟨c, hr, (somebody_goes_on ⟨8, 4⟩ 0 (Fin 2) c (.worker 1) ?_).1 hr⟩
  cases ht : c.thr (.worker 1) with
  | idle | asleep => rw [ht] at hw; cases hw
  | run | woken => rfl

/-! ## Settling -/

deriving instance Fintype for Connection.Tid

/-- Each thread is idle or asleep, or waits for a client, or for a thread that does,
    or for one that kills the process. -/
def Quiescent (cfg : Config) (c : Conf (sig W) (State W) (Task W) (Tid W)) : Prop :=
  ∀ t, (c.thr t).atRest = true ∨
    ∃ u, Relation.ReflTransGen (WaitsOn c) t u ∧ (AwaitsClient c u ∨ Stuck (exec cfg) c u)

/-- **The server settles.**  From every configuration of the server the threads
    on their way make at most `N` steps, in whatever order, as long as nobody
    starts a new task or wakes up by itself; and when none of them can go on by
    itself the server is quiescent, unless a worker keeps `file_queue_mutex`. -/
theorem settles [Fintype W] (h : Reached cfg unset c) : ∃ N, ∀ n c',
    Works (exec cfg) (body cfg) (fun c t ev => plays c t ev = true) c n c' →
      n ≤ N ∧ ((∀ u, ¬ GoesAlone cfg c' u) → Quiescent cfg c' ∨ Leaks c') := by
  -- a notification pays for another attempt of every thread
  obtain ⟨N, hN⟩ : ∃ N, Loaded (fun _ _ => True) (unitCosts (sig W) (1 + Fintype.card (Tid W) * 4)) c N :=
    h.exists_loaded le_rfl (fun _ _ => trivial) (body_weighs _)
  refine ⟨N, fun n c' hw => ?_⟩
  obtain ⟨N', -, hle⟩ := hw.le le_rfl le_rfl (fun _ => le_rfl) (fun _ _ => trivial) hN
  refine ⟨by omega, fun hno => ?_⟩
  by_cases hk : Leaks c'
  · exact Or.inr hk
  refine Or.inl fun t => ?_
  cases ht : (c'.thr t).atRest with
  | true => exact Or.inl rfl
  | false =>
    obtain ⟨u, hu, hgo⟩ := (goes_on_or_retained (h.trans hw.reach) ht).resolve_right hk
    exact Or.inr ⟨u, hu, (alone_or_awaits hgo).resolve_left (hno u)⟩

/-- Worker 1 waits for a mutex that is kept, and makes no step. -/
theorem settles_keeping : ∃ c : Conf (sig (Fin 2)) (State (Fin 2)) (Task (Fin 2)) (Tid (Fin 2)),
    Reached ⟨8, 4⟩ 0 c ∧ (c.thr (.worker 1)).wants = some (.file .fileQueueMutex) ∧
      ∃ N, ∀ n c', Works (exec ⟨8, 4⟩) (body ⟨8, 4⟩) (fun c t ev => plays c t ev = true) c n c' →
        n ≤ N ∧ ((∀ u, ¬ GoesAlone ⟨8, 4⟩ c' u) → Quiescent ⟨8, 4⟩ c' ∨ Leaks c') := by
  obtain ⟨c, hr, hw, -, -⟩ := keeping_reached
  exact ⟨c, hr, hw, settles hr⟩

end Daemon

end FileStorage
