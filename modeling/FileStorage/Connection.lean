/-
  The hand-off of connections from the main thread to the workers, in `main`
  and `worker` of `server.c`.

  `main` accepts a connection into its variable `fd_client_skt` and pushes a
  pointer to this variable; a worker pops a pointer and reads the descriptor
  through it.  All pointers in the queue are the same, so that a descriptor
  survives only until the next `accept`: `hand_off` is the exact statement.
-/
import FileStorage.Queue
import FileStorage.Threads.Discipline

namespace FileStorage

open Threads Prog

/-! ## The state -/

/-- The pointers that are pushed on `connectionQueue`. -/
inductive IntPtr where
  /-- `&fd_client_skt`, the variable of `main` -/
  | fdClientSkt
  deriving DecidableEq, Repr

structure Connections where
  /-- the variable `fd_client_skt` of `main` -/
  fdClientSkt : ℤ
  connectionQueue : Queue IntPtr
  acceptNewConnection : Bool
  closeServer : Bool
  /-- the descriptors accepted so far, in order -/
  accepted : List ℤ
  /-- the descriptors that the workers have obtained so far, in order -/
  obtained : List ℤ
  deriving DecidableEq, Repr

/-- The state when the workers start: `fd_client_skt` is not set. -/
def Connections.init (unset : ℤ) : Connections := ⟨unset, initQueue, true, false, [], []⟩

/-- The signals that end the server. -/
inductive Signal where
  | SIGHUP
  | SIGINT
  | SIGQUIT
  deriving DecidableEq, Repr

namespace Connection

inductive Act where
  /-- `fd_client_skt = accept(fd_server_skt, NULL, 0)` -/
  | accept
  /-- `push(connectionQueue, &fd_client_skt)` -/
  | push
  /-- the condition of the loop in which a worker waits -/
  | testQueue
  /-- `!acceptNewConnection || closeServer` -/
  | testStop
  | pop
  /-- `*fd` -/
  | deref (fd : IntPtr)
  | stop (sig : Signal)
  deriving DecidableEq

@[reducible] def Act.Ans : Act → Type
  | .accept | .push | .deref _ => ℤ
  | .testQueue | .testStop => Bool
  | .pop => IntPtr
  | .stop _ => Unit

inductive Mutex where
  | connectionQueueMutex
  deriving DecidableEq

inductive Cond where
  | connectionQueueCond
  deriving DecidableEq

abbrev sig : Sig := ⟨Act, Act.Ans, Mutex, Cond⟩

/-- Atomic execution of an action; the environment is the descriptor that
    `accept` returns, `none` for an error. -/
def exec : Exec sig Connections (Option ℕ)
  | .accept, e, s => match e with
    | some fd => some ((fd : ℤ), { s with fdClientSkt := fd, accepted := s.accepted ++ [(fd : ℤ)] })
    | none => some ((-1 : ℤ), { s with fdClientSkt := -1 })
  | .push, _, s =>
    let (len, queue) := FileStorage.push s.connectionQueue .fdClientSkt
    some (len, { s with connectionQueue := queue })
  | .testQueue, _, s =>
    some (!s.closeServer && s.acceptNewConnection && s.connectionQueue.len == 0, s)
  | .testStop, _, s => some (!s.acceptNewConnection || s.closeServer, s)
  | .pop, _, s => (FileStorage.pop s.connectionQueue).map fun x =>
      (x.1, { s with connectionQueue := x.2 })
  | .deref .fdClientSkt, _, s => some (s.fdClientSkt, { s with obtained := s.obtained ++ [s.fdClientSkt] })
  | .stop .SIGHUP, _, s => some ((), { s with acceptNewConnection := false })
  | .stop _, _, s => some ((), { s with closeServer := true })

/-! ## The programs -/

abbrev Code : Type := Prog sig

/-- A round of the loop of `main` in which the server socket is ready. -/
def main : Code :=
  .act .accept fun fd : ℤ =>
  if fd = -1 then .ret
  else
    .lock .connectionQueueMutex <|
    .act .push fun _ =>
    .signal .connectionQueueCond <|
    .unlock .connectionQueueMutex .ret

/-- A round of the loop of `worker`, up to the connection it will serve. -/
def worker : Code :=
  .lock .connectionQueueMutex <|
  .await .testQueue (fun b : Bool => b) [] .connectionQueueCond .connectionQueueMutex fun _ =>
  .act .testStop fun b : Bool =>
  if b then .unlock .connectionQueueMutex .ret
  else
    .act .pop fun fd : IntPtr =>
    .act (.deref fd) fun _ =>
    .unlock .connectionQueueMutex .ret

def signalThreadHandler (sig : Signal) : Code :=
  .act (.stop sig) fun _ =>
  .lock .connectionQueueMutex <|
  .broadcast .connectionQueueCond <|
  .unlock .connectionQueueMutex .ret

/-- The tasks of the threads. -/
inductive Task where
  | main
  | worker
  | signal (sig : Signal)
  deriving DecidableEq

def body : Task → Code
  | .main => main
  | .worker => worker
  | .signal sig => signalThreadHandler sig

/-- The threads. -/
inductive Tid (W : Type) where
  | main
  | signalThread
  | worker (w : W)
  deriving DecidableEq

/-- Each thread executes its own task. -/
def plays {W : Type} : Tid W → Ev sig Task → Bool
  | t, .start l => match t, l with
    | .main, .main | .signalThread, .signal _ | .worker _, .worker => true
    | _, _ => false
  | _, _ => true

/-! ## The hand-off -/

variable {W : Type} {c c' : Conf sig Connections Task (Tid W)}

/-- The descriptors obtained are the first of the accepted ones, in order; when
    no thread runs, the others are those for which a pointer is in the queue. -/
structure HandOff (c : Conf sig Connections Task (Tid W)) : Prop where
  order : c.st.obtained <+: c.st.accepted
  rest : (∀ t, (c.thr t).atRest) →
    c.st.accepted.length = c.st.obtained.length + c.st.connectionQueue.data.length

/-- The thread is between an `accept` and the `push`, or between a `pop` and
    the read through the pointer. -/
def carries (t : Thread sig Task) : Bool :=
  match t.upcoming with
  | some .push | some (.deref _) => true
  | _ => false

/-- `accept` returns only when no descriptor is on its way to a worker. -/
def AcceptsAlone (c : Conf sig Connections Task (Tid W)) : Ev sig Task → Prop
  | .did .accept _ => c.st.connectionQueue.data = [] ∧ ∀ t, carries (c.thr t) = false
  | _ => True

/-- What follows an action. -/
def Follows : (a : Act) → (a.Ans → Code) → Prop
  | .accept, k => (k (-1 : ℤ)).upcoming = none ∧ ∀ fd : ℕ, (k (fd : ℤ)).upcoming = some .push
  | .pop, k => ∀ fd : IntPtr, (k fd).upcoming = some (.deref fd)
  | .push, k => ∀ n : ℤ, (k n).upcoming = none
  | .deref _, k => ∀ fd : ℤ, (k fd).upcoming = none
  | .stop _, k => (k ()).upcoming = none
  | .testQueue, k => ∀ b : Bool, (k b).upcoming = some .testStop
  | .testStop, k => ∀ b : Bool, (k b).upcoming = if b then none else some .pop

/-- The loop in which the workers wait. -/
def QueueLoop (_ : Task) (a : Act) (_ : a.Ans → Bool) (_ : List Mutex) (_ : Cond) (_ : Mutex) : Prop :=
  a = .testQueue

theorem body_shaped (l : Task) : Shaped (S := sig) Follows (QueueLoop l) (body l) := by
  cases l with
  | main => simp [body, main, Shaped, Follows, Prog.upcoming]
  | worker => simp [body, worker, Shaped, QueueLoop, Follows, Prog.upcoming]
  | signal => simp [body, signalThreadHandler, Shaped, Follows, Prog.upcoming]

/-- At most one descriptor is on its way: carried by a thread, or through the
    pointer in the queue. -/
def OneOnItsWay (c : Conf sig Connections Task (Tid W)) : Prop :=
  (c.st.accepted = c.st.obtained ∧ c.st.connectionQueue.data = [] ∧ ∀ t, carries (c.thr t) = false) ∨
  c.st.accepted = c.st.obtained ++ [c.st.fdClientSkt] ∧
    ((∃ p, c.st.connectionQueue.data = [p] ∧ ∀ t, carries (c.thr t) = false) ∨
      c.st.connectionQueue.data = [] ∧
        ∃ t, carries (c.thr t) = true ∧ ∀ u, u ≠ t → carries (c.thr u) = false)

/-- The same of a state and the threads that carry a descriptor. -/
def OnItsWay {T : Type} (s : Connections) (b : T → Bool) : Prop :=
  (s.accepted = s.obtained ∧ s.connectionQueue.data = [] ∧ ∀ t, b t = false) ∨
  s.accepted = s.obtained ++ [s.fdClientSkt] ∧
    ((∃ p, s.connectionQueue.data = [p] ∧ ∀ t, b t = false) ∨
      s.connectionQueue.data = [] ∧ ∃ t, b t = true ∧ ∀ u, u ≠ t → b u = false)

/-- The thread about to perform the action carries a descriptor. -/
def Act.carrying : Act → Bool
  | .push | .deref _ => true
  | _ => false

/-- The thread carries a descriptor after the action. -/
def Act.carried : (a : Act) → a.Ans → Bool
  | .accept, fd => decide (fd ≠ -1)
  | .pop, _ => true
  | _, _ => false

theorem Act.carried_testQueue {a : Act} (h : a = .testQueue) (r : a.Ans) : a.carried r = a.carrying := by
  subst h
  rfl

theorem carries_eq_any (t : Thread sig Task) : carries t = t.upcoming.any Act.carrying := by
  rw [carries]
  cases t.upcoming with
  | none => rfl
  | some a => cases a <;> rfl

theorem Follows.carried {a : Act} {k : a.Ans → Code} (h : Follows a k) {e : Option ℕ} {s s' : Connections}
    {r : a.Ans} (hx : exec a e s = some (r, s')) : (k r).upcoming.any Act.carrying = a.carried r := by
  cases a with
  | accept =>
    cases e with
    | none =>
      cases hx
      rw [h.1]
      rfl
    | some fd =>
      cases hx
      rw [h.2]
      exact (decide_eq_true (by omega : (fd : ℤ) ≠ -1)).symm
  | testStop =>
    rw [h]
    split_ifs <;> rfl
  | stop =>
    rw [h]
    rfl
  | _ =>
    rw [h]
    rfl

theorem OnItsWay.obtained {T : Type} {s : Connections} {b : T → Bool} (hi : OnItsWay s b)
    (hd : s.connectionQueue.data = []) (hn : ∀ t, b t = false) : s.accepted = s.obtained := by
  rcases hi with ⟨h, -⟩ | ⟨-, ⟨p, hd', -⟩ | ⟨-, t, ht, -⟩⟩
  · exact h
  · rw [hd] at hd'; cases hd'
  · rw [hn t] at ht; cases ht

/-- What is known of the descriptors when `w` carries one. -/
theorem OnItsWay.carrier {T : Type} {s : Connections} {b : T → Bool} (hi : OnItsWay s b) {w : T}
    (hw : b w = true) : s.accepted = s.obtained ++ [s.fdClientSkt] ∧
      s.connectionQueue.data = [] ∧ ∀ u, u ≠ w → b u = false := by
  rcases hi with ⟨-, -, hn⟩ | ⟨h, ⟨p, -, hn⟩ | ⟨hd, t, -, ht⟩⟩
  · rw [hn w] at hw; cases hw
  · rw [hn w] at hw; cases hw
  · have hwt : w = t := by
      by_contra hne
      rw [ht w hne] at hw; cases hw
    exact ⟨h, hd, hwt ▸ ht⟩

/-- An action keeps the one descriptor that is on its way. -/
theorem OnItsWay.exec {T : Type} {s s' : Connections} {b b' : T → Bool} {w : T} {a : Act}
    {e : Option ℕ} {r : a.Ans} (hi : OnItsWay s b) (hx : exec a e s = some (r, s'))
    (hb : b w = a.carrying) (hb' : b' w = a.carried r) (hother : ∀ u, u ≠ w → b' u = b u)
    (ha : a = .accept → s.connectionQueue.data = [] ∧ ∀ t, b t = false) : OnItsWay s' b' := by
  have hall : b' w = false → (∀ u, u ≠ w → b u = false) → ∀ u, b' u = false := by
    intro hw hn u
    by_cases hu : u = w
    · rw [hu, hw]
    · rw [hother u hu, hn u hu]
  -- an action that does not concern the descriptor
  have hsame : b' w = b w → s'.accepted = s.accepted → s'.obtained = s.obtained →
      s'.fdClientSkt = s.fdClientSkt → s'.connectionQueue = s.connectionQueue → OnItsWay s' b' := by
    intro hw h1 h2 h3 h4
    have hbb : b' = b := by
      funext u
      by_cases hu : u = w
      · rw [hu, hw]
      · exact hother u hu
    rw [OnItsWay, hbb, h1, h2, h3, h4]
    exact hi
  cases a with
  | accept =>
    obtain ⟨hd, hn⟩ := ha rfl
    have hacc := hi.obtained hd hn
    cases e with
    | none =>
      cases hx
      exact Or.inl ⟨hacc, hd, hall hb' fun u _ => hn u⟩
    | some fd =>
      cases hx
      refine Or.inr ⟨by rw [hacc], Or.inr ⟨hd, w, ?_, fun u hu => by rw [hother u hu, hn u]⟩⟩
      rw [hb']
      exact decide_eq_true (by omega : (fd : ℤ) ≠ -1)
  | push =>
    obtain ⟨hacc, hd, hn⟩ := hi.carrier hb
    obtain ⟨-, rfl⟩ := Prod.mk.inj (Option.some.inj hx)
    refine Or.inr ⟨hacc, Or.inl ⟨.fdClientSkt, ?_, hall hb' hn⟩⟩
    show s.connectionQueue.data ++ _ = _
    rw [hd]; rfl
  | pop =>
    obtain ⟨⟨p, q⟩, hpop, hx⟩ := Option.map_eq_some_iff.1 hx
    cases hx
    have hd := pop_data hpop
    rcases hi with ⟨-, hd', -⟩ | ⟨hacc, ⟨p', hd', hn⟩ | ⟨hd', -⟩⟩
    · rw [hd] at hd'; cases hd'
    · rw [hd] at hd'
      obtain ⟨-, hq⟩ := List.cons.inj hd'
      exact Or.inr ⟨hacc, Or.inr ⟨hq, w, hb', fun u hu => by rw [hother u hu, hn u]⟩⟩
    · rw [hd] at hd'; cases hd'
  | deref p =>
    cases p
    obtain ⟨hacc, hd, hn⟩ := hi.carrier hb
    cases hx
    exact Or.inl ⟨hacc, hd, hall hb' hn⟩
  | testQueue | testStop =>
    cases hx
    exact hsame (hb'.trans hb.symm) rfl rfl rfl rfl
  | stop sig =>
    have hw := hb'.trans hb.symm
    cases sig <;> cases hx <;> exact hsame hw rfl rfl rfl rfl

theorem OneOnItsWay.handOff (h : OneOnItsWay c)
    (hs : ∀ t, (c.thr t).Shaped (fun _ => Follows) QueueLoop) : HandOff c := by
  have hrest : ∀ t, (c.thr t).atRest → carries (c.thr t) = false := by
    intro t ht
    have hsh := hs t
    cases hc : c.thr t with
    | idle => rfl
    | asleep l cd m p =>
      rw [hc] at hsh
      obtain ⟨a, b, us, k, rfl, ha⟩ := hsh
      have htest : a = .testQueue := ha.1
      simp [carries, Thread.upcoming, Prog.upcoming, htest]
    | _ => rw [hc] at ht; cases ht
  rcases h with ⟨ha, hd, -⟩ | ⟨ha, ⟨p, hd, -⟩ | ⟨-, t, ht, -⟩⟩
  · exact ⟨by rw [ha], fun _ => by rw [ha, hd]; rfl⟩
  · exact ⟨by rw [ha]; exact List.prefix_append _ _, fun _ => by rw [ha, hd]; simp⟩
  · refine ⟨by rw [ha]; exact List.prefix_append _ _, fun hat => ?_⟩
    rw [hrest t (hat t)] at ht; cases ht

section
variable [DecidableEq W] {w : Tid W} {ev : Ev sig Task}

theorem carries_eq {t t' : Thread sig Task} (h : t'.upcoming = t.upcoming) : carries t' = carries t := by
  rw [carries, carries, h]

/-- A step keeps the one descriptor that is on its way. -/
theorem step_oneOnItsWay (hst : Step exec body w c ev c')
    (hs : (c.thr w).Shaped (fun _ => Follows) QueueLoop) (ha : AcceptsAlone c ev) (hi : OneOnItsWay c) :
    OneOnItsWay c' := by
  have hi : OnItsWay c.st fun t => carries (c.thr t) := hi
  rcases hst.quiet (f := fun o => o.any Act.carrying) (fun l => by cases l <;> rfl) with
    ⟨a, r, rfl⟩ | ⟨hst', hall⟩
  · obtain ⟨e, hx⟩ := hst.exec_did
    obtain ⟨hup, hk⟩ := hst.upcoming_did hs
    refine OnItsWay.exec (w := w) hi hx (by rw [carries_eq_any, hup]; rfl) ?_
      (fun u hu => carries_eq (hst.upcoming_other hu)) ?_
    · -- what the thread carries after the action
      rcases hk with ⟨-, k, hk, hup'⟩ | ⟨⟨_, _, _, _, _, htest⟩, hup'⟩
      · rw [carries_eq_any, hup', hk.carried hx]
      · rw [carries_eq_any, hup', Act.carried_testQueue htest]
        rfl
    · rintro rfl
      exact ha
  · have hcarries : (fun t => carries (c'.thr t)) = fun t => carries (c.thr t) := by
      funext t
      rw [carries_eq_any, carries_eq_any, hall]
    show OnItsWay c'.st fun t => carries (c'.thr t)
    rw [hst', hcarries]
    exact hi

end

/-- **The hand-off.**  In runs in which `accept` returns only when no descriptor
    is on its way, the workers obtain the accepted descriptors, each once and in
    order. -/
theorem hand_off [DecidableEq W] {unset : ℤ}
    (h : Reach exec body (fun c t ev => plays t ev = true ∧ AcceptsAlone c ev)
      (Conf.init (Connections.init unset)) c) : HandOff c := by
  have hone : OneOnItsWay c := by
    refine Reach.invariant (I := OneOnItsWay) (Or.inl ⟨rfl, rfl, fun _ => rfl⟩) ?_ h
    intro c w ev c' hr hi hst ho
    exact step_oneOnItsWay hst (hr.shaped body_shaped w) ho.2 hi
  exact hone.handOff fun t => h.shaped body_shaped t

/-- `AcceptsAlone` for one worker. -/
def acceptsAlone (c : Conf sig Connections Task (Tid (Fin 1))) : Ev sig Task → Bool
  | .did .accept _ => c.st.connectionQueue.data.isEmpty && !carries (c.thr .main) &&
      !carries (c.thr .signalThread) && !carries (c.thr (.worker 0))
  | _ => true

theorem acceptsAlone_sound {c : Conf sig Connections Task (Tid (Fin 1))} {ev : Ev sig Task}
    (h : acceptsAlone c ev = true) : AcceptsAlone c ev := by
  cases ev with
  | did a r =>
    cases a with
    | accept =>
      simp only [acceptsAlone, Bool.and_eq_true, List.isEmpty_iff, Bool.not_eq_true'] at h
      obtain ⟨⟨⟨hd, hm⟩, hs⟩, hw⟩ := h
      refine ⟨hd, fun t => ?_⟩
      cases t with
      | main => exact hm
      | signalThread => exact hs
      | worker w => rw [Subsingleton.elim w 0]; exact hw
    | _ => trivial
  | _ => trivial

/-- The worker goes to sleep; the main thread accepts `fd` and wakes it up. -/
def accepting (fd : ℕ) : List (Tid (Fin 1) × Choice Task (Option ℕ) (Tid (Fin 1))) :=
  [(.worker 0, .start .worker), (.worker 0, .go none), (.worker 0, .go none), (.worker 0, .go none),
   (.main, .start .main), (.main, .go (some fd)), (.main, .go none), (.main, .go none),
   (.main, .pick (.worker 0)), (.main, .go none), (.main, .go none)]

/-- The worker obtains a descriptor. -/
def popping : List (Tid (Fin 1) × Choice Task (Option ℕ) (Tid (Fin 1))) :=
  .replicate 7 (.worker 0, .go none)

theorem hand_off_twice : ∃ c : Conf sig Connections Task (Tid (Fin 1)),
    c.st.obtained = [4, 5] ∧ HandOff c := by
  have hrun : (sched exec body (fun c t ev => plays t ev && acceptsAlone c ev)
      (accepting 4 ++ popping ++ accepting 5 ++ popping) (Conf.init (Connections.init 0))).map
      (fun c => c.st.obtained) = some [4, 5] := by decide +kernel
  obtain ⟨c, hc, ho⟩ := Option.map_eq_some_iff.1 hrun
  have hr : Reach exec body (fun c t ev => (plays t ev && acceptsAlone c ev) = true)
      (Conf.init (Connections.init 0)) c := sched_reach _ .init hc
  refine ⟨c, ho, hand_off (hr.mono fun c t ev h => ?_)⟩
  obtain ⟨hp, ha⟩ := Bool.and_eq_true_iff.1 h
  exact ⟨hp, acceptsAlone_sound ha⟩

/-- A second connection before the worker runs: the worker obtains it instead of
    the first. -/
theorem not_hand_off : ∃ c : Conf sig Connections Task (Tid (Fin 1)),
    Reach exec body (fun _ t ev => plays t ev = true) (Conf.init (Connections.init 0)) c ∧
      c.st.accepted = [4, 5] ∧ c.st.obtained = [5] ∧ ¬ HandOff c := by
  have hrun : (sched exec body (fun _ t ev => plays t ev)
      (accepting 4 ++ [(.main, .start .main), (.main, .go (some 5))] ++ popping)
      (Conf.init (Connections.init 0))).map (fun c => (c.st.accepted, c.st.obtained)) =
      some ([4, 5], [5]) := by decide +kernel
  obtain ⟨c, hc, ho⟩ := Option.map_eq_some_iff.1 hrun
  obtain ⟨ha, ho⟩ := Prod.mk.inj ho
  refine ⟨c, sched_reach _ .init hc, ha, ho, fun h => ?_⟩
  have := h.order
  rw [ha, ho] at this
  exact absurd this (by decide)

end Connection

end FileStorage
