/-
  The end of the server: who is woken up by `signalThreadHandler`.

  The handler sets a flag and wakes the workers up that wait for a connection;
  from then on none waits for one (`Awake`), since the broadcast is made with
  `connection_queue_mutex` held and the flag is tested before each sleep.  The
  workers that wait for a lock on a file sleep on `file_lock_cond`, but the
  handler broadcasts `file_queue_cond`: `wakesAll_iff`.
-/
import FileStorage.Daemon

namespace FileStorage

open Threads Prog

namespace Daemon

variable {W : Type} [DecidableEq W] {cfg : Config} {unset : ℤ}
  {c c' : Conf (sig W) (State W) (Task W) (Tid W)} {t u : Tid W} {ev : Ev (sig W) (Task W)}

/-- Nobody is asleep, and nobody will sleep for a connection. -/
structure WakesAll (cfg : Config) (c : Conf (sig W) (State W) (Task W) (Tid W)) : Prop where
  nobody : ∀ t l cd m p, c.thr t ≠ .asleep l cd m p
  ever : ∀ c', Reach (exec cfg) (body cfg) (fun c t ev => plays c t ev = true) c c' →
    ∀ t l m p, c'.thr t ≠ .asleep l .connectionQueueCond m p

/-- A flag is set, and nobody sleeps or is about to sleep for a connection. -/
structure Awake (c : Conf (sig W) (State W) (Task W) (Tid W)) : Prop where
  stopped : c.st.stopped = true
  nobody : ∀ t l, (c.thr t).waits ≠ some (l, .connectionQueueCond)

/-- The thread will make the first broadcast of the handler. -/
abbrev BeforeFirst (t : Thread (sig W) (Task W)) : Prop :=
  t.notifies Cond.connectionQueueCond [] = true

/-- The thread will make the second broadcast of the handler, and has made the first. -/
abbrev BetweenBoth (t : Thread (sig W) (Task W)) : Prop :=
  t.notifies Cond.fileQueueCond [Cond.connectionQueueCond] = true

omit [DecidableEq W] in
theorem not_rings {t : Thread (sig W) (Task W)} {A B : Prop}
    (h₁ : t.notifies Cond.connectionQueueCond [] = false)
    (h₂ : t.notifies Cond.fileQueueCond [Cond.connectionQueueCond] = false) :
    (BeforeFirst t → A) ∧ (BetweenBoth t → B) := by
  simp [BeforeFirst, BetweenBoth, h₁, h₂]

/-- Before the first broadcast a flag has been set, after it everybody is awake. -/
structure Handling (c : Conf (sig W) (State W) (Task W) (Tid W)) : Prop where
  stopped : ∀ t, BeforeFirst (c.thr t) → c.st.stopped = true
  awake : ∀ t, BetweenBoth (c.thr t) → Awake c

/-- The broadcasts of the handler come after the setting of a flag. -/
def Rings (a : Act W) (k : a.Ans → Code W) : Prop :=
  ∀ r, (k r).notifies Cond.fileQueueCond [Cond.connectionQueueCond] = false ∧
    ((∃ s, a = .conn (.stop s)) ∨ (k r).notifies Cond.connectionQueueCond [] = false)

/-- The program does not begin with a broadcast of the handler. -/
def Quiet (p : Code W) : Prop :=
  p.Shaped Rings Loop ∧ p.notifies Cond.fileQueueCond [Cond.connectionQueueCond] = false ∧
    p.notifies Cond.connectionQueueCond [] = false

omit [DecidableEq W] in
theorem hangup_quiet (w : W) : Quiet (hangup w) := by
  simp [Quiet, hangup, Shaped, Rings, notifies]

omit [DecidableEq W] in
theorem body_quiet (l : Task W) : Quiet (body cfg l) := by
  cases l with
  | main => simp [Quiet, body, main, Shaped, Rings, notifies]
  | signal => simp [Quiet, body, signalThreadHandler, Shaped, Rings, notifies]
  | round w => simp [Quiet, body, round, Shaped, Rings, notifies, Loop.queue]
  | hangup w => exact hangup_quiet w
  | request w r =>
    -- the controllers have no broadcast of the handler
    have hquiet : Quiet (expand (into W) (fun a k => .act (.act a) k) .ret (controller cfg r)) := by
      refine request_ind r ⟨trivial, rfl, rfl⟩ ?_ ?_ ?_ ?_ ?_ ?_
      · exact fun a k hk => ⟨⟨fun x => ⟨(hk x).2.1, Or.inr (hk x).2.2⟩, fun x => (hk x).1⟩, rfl, rfl⟩
      · exact fun m k hk => hk
      · exact fun m k hk => hk
      · exact fun cd k hk => hk
      · exact fun cd k hk => ⟨hk.1, hk.2⟩
      · exact fun x b k hk =>
          ⟨⟨.lock, fun y => ⟨(hk y).2.1, Or.inr (hk y).2.2⟩, fun y => (hk y).1⟩, rfl, rfl⟩
    have hbranch : ∀ b : Bool, Quiet (if b then hangup w else
        expand (into W) (fun a k => .act (.act a) k) .ret (controller cfg r)) := fun b => by
      cases b
      · exact hquiet
      · exact hangup_quiet w
    exact ⟨⟨fun b => ⟨(hbranch b).2.1, Or.inr (hbranch b).2.2⟩, fun b => (hbranch b).1⟩, rfl, rfl⟩

theorem reach_shaped (h : Reached cfg unset c) (t : Tid W) :
    (c.thr t).Shaped (fun _ => Rings) (fun _ => Loop) :=
  h.shaped (fun l => (body_quiet l).1) t

theorem reach_held (h : Reached cfg unset c) (t : Tid W) :
    (c.thr t).Held (fun _ => False) (· = Cond.connectionQueueCond) True Mutex.connectionQueueMutex
      (c.owner .connectionQueueMutex = some t) :=
  h.held_gives body_held body_gives (fun _ _ _ _ => Or.inl trivial) t

/-! ## The workers that wait for a connection -/

section
variable (h : Reached cfg unset c) (hst : Step (exec cfg) (body cfg) t c ev c')
include hst

theorem step_stopped (hs : c.st.stopped = true) : c'.st.stopped = true := by
  rcases hst.st_cases with he | ⟨a, e, r, -, hx⟩
  · rw [he, hs]
  · exact exec_stopped hx hs

include h

/-- After the broadcast nobody waits for a connection any more. -/
theorem Awake.step (ha : Awake c) : Awake c' := by
  refine ⟨step_stopped hst ha.stopped, fun u l hu => ?_⟩
  rcases hst.waits (fun l => (body_quiet l).1) (reach_shaped h t) hu with hu | ⟨a, b, us, m, e, r, hP, hx, hb⟩
  · exact ha.nobody u l hu
  · cases hP with
    | queue =>
      rw [exec_testQueue hx ha.stopped] at hb
      cases hb

/-- The broadcast of the handler wakes up the workers that wait for a connection:
    none is between its test of the flags and its sleep. -/
theorem awake_of_broadcast {l : Task W} {k : Code W} (hs : c.st.stopped = true)
    (ht : c.thr t = .run l (.broadcast .connectionQueueCond k)) : Awake c' := by
  have hown : c.owner .connectionQueueMutex = some t := by
    have := reach_held h t
    rw [ht] at this
    exact this.1 rfl
  have hk : k.Shaped Rings Loop := by
    have := reach_shaped h t
    rw [ht] at this
    exact this.shaped rfl
  refine ⟨step_stopped hst hs, fun u l' hu => ?_⟩
  cases hst with
  | broadcast ht' =>
    rw [ht] at ht'
    cases ht'
    by_cases hut : u = t
    · subst hut
      have hn := hk.parking
      rw [Prog.parking_eq, Option.isSome_eq_false_iff, Option.isNone_iff_eq_none] at hn
      rw [Conf.set_self, Thread.waits, hn] at hu
      cases hu
    · rw [Conf.set_ne _ _ hut] at hu
      cases hthr : c.thr u with
      | run l₁ p =>
        simp only [hthr, Thread.wake, Thread.waits, Option.map_eq_some_iff] at hu
        obtain ⟨cd, hcd, he⟩ := hu
        obtain rfl := (Prod.mk.inj he).2
        -- a worker on the way to its sleep would own the mutex
        have hheld := reach_held h u
        have hsh := reach_shaped h u
        rw [hthr] at hheld hsh
        have := hheld.of_parksOn hsh (fun a b us m' hP => by cases hP; rfl) hcd
        exact hut (Option.some.inj (hown.symm.trans this)).symm
      | asleep l₁ cd m p =>
        simp only [hthr, Thread.wake] at hu
        split_ifs at hu with hcd
        · cases hu
        · exact hcd (Prod.mk.inj (Option.some.inj hu)).2
      | _ =>
        simp only [hthr, Thread.wake] at hu
        cases hu
  | _ => simp_all

/-- A step keeps the stages of the handler. -/
theorem Handling.step (hi : Handling c) : Handling c' := by
  have hstop := step_stopped hst
  have hawake : Awake c → Awake c' := Awake.step h hst
  suffices hw : (BeforeFirst (c'.thr t) → c'.st.stopped = true) ∧ (BetweenBoth (c'.thr t) → Awake c') by
    constructor
    · intro u hu
      by_cases hut : u = t
      · exact hw.1 (hut ▸ hu)
      · rw [BeforeFirst, hst.notifies_other hut] at hu
        exact hstop (hi.stopped u hu)
    · intro u hu
      by_cases hut : u = t
      · exact hw.2 (hut ▸ hu)
      · rw [BetweenBoth, hst.notifies_other hut] at hu
        exact hawake (hi.awake u hu)
  have hsh := reach_shaped h t
  have h1 := fun hn => hstop (hi.stopped t hn)
  have h2 := fun hn => hawake (hi.awake t hn)
  have hset : ∀ s r, ev = .did (.conn (.stop s)) r → c'.st.stopped = true := by
    intro s r he
    subst he
    obtain ⟨e, hx⟩ := hst.exec_did
    exact exec_stop hx
  have hbroadcast : ∀ l k, c.thr t = .run l (.broadcast .connectionQueueCond k) →
      c.st.stopped = true → Awake c' := fun l k ht hs => awake_of_broadcast h hst hs ht
  have hm := hst.moves
  have hs₀ := hi.stopped t
  generalize c.thr t = t₀ at hm h1 h2 hsh hs₀ hbroadcast
  generalize c'.thr t = t₁ at hm ⊢
  generalize c'.st = s' at hm hset h1 ⊢
  generalize c'.owner = o' at hm
  -- an action, after which only a flag can be followed by the first broadcast
  have hact : ∀ {l a r} {k : (sig W).Ans a → Code W}, ev = .did a r → Rings a k →
      (BeforeFirst (.run l (k r)) → s'.stopped = true) ∧ (BetweenBoth (.run l (k r)) → Awake c') := by
    intro l a r k he hk
    rcases (hk r).2 with ⟨s, rfl⟩ | hno
    · exact ⟨fun _ => hset s r he, fun hn => absurd hn (by simp [BetweenBoth, Thread.notifies, (hk r).1])⟩
    · exact not_rings hno (hk r).1
  cases hm with
  | start l =>
    obtain ⟨-, hn, hn'⟩ := @body_quiet W cfg l
    exact not_rings hn' hn
  | act => exact hact rfl (hsh.shaped rfl).1
  | pass => exact hact rfl (hsh.shaped rfl).2.1
  | lock | unlock | signal => exact ⟨h1, h2⟩
  | @broadcast l cd k =>
    by_cases hcd : cd = .connectionQueueCond
    · subst hcd
      have hfirst : BeforeFirst (.run l (.broadcast .connectionQueueCond k)) := by
        simp [BeforeFirst, Thread.notifies, notifies]
      exact ⟨fun _ => h1 hfirst, fun _ => hbroadcast l k rfl (hs₀ hfirst)⟩
    · refine ⟨fun hn => h1 ?_, fun hn => h2 ?_⟩
      · simpa [BeforeFirst, Thread.notifies, notifies, hcd] using hn
      · simpa [BetweenBoth, Thread.notifies, notifies, hcd] using Or.inr hn
  | relock =>
    obtain ⟨a, b, us, cd, k, rfl, -⟩ := hsh
    exact not_rings rfl rfl
  | park => exact not_rings notifies_unlocks notifies_unlocks
  | _ => exact not_rings rfl rfl

end

/-- In every run a thread before the second broadcast of the handler has made the first. -/
theorem reach_handling (h : Reached cfg unset c) : Handling c := by
  have hinit : Handling (Conf.init (State.init W unset)) := ⟨fun t hn => (by cases hn),
    fun t hn => by cases hn⟩
  refine Reach.invariant hinit ?_ h
  intro c t ev c' hr hi hst _
  exact hi.step hr hst

/-- Nobody waits for a connection in any later configuration. -/
theorem Awake.reach (h : Reached cfg unset c) (ha : Awake c)
    (h' : Reach (exec cfg) (body cfg) (fun c t ev => plays c t ev = true) c c') : Awake c' := by
  refine Reach.invariant ha ?_ h'
  intro c₁ t ev c₂ hr hi hst _
  exact hi.step (h.trans hr) hst

/-! ## Who is woken up -/

/-- **Who is woken up at the end.**  After the last broadcast of the handler
    nobody is asleep and nobody will sleep for a connection, if and only if no
    worker waits for a lock. -/
theorem wakesAll_iff (h : Reached cfg unset c) (hst : Step (exec cfg) (body cfg) t c ev c')
    {l : Task W} {k : Code W} (ht : c.thr t = .run l (.broadcast .fileQueueCond k)) :
    WakesAll cfg c' ↔ ∀ u l m p, c.thr u ≠ .asleep l (.file .fileLockCond) m p := by
  obtain ⟨rfl, hself, hother⟩ : ev = .sync ∧ c'.thr t = .run l k ∧
      ∀ u, u ≠ t → c'.thr u = (c.thr u).wake Cond.fileQueueCond := by
    cases hst with
    | broadcast ht' =>
      rw [ht] at ht'
      cases ht'
      exact ⟨rfl, Conf.set_self _ _ _, fun u hu => Conf.set_ne _ _ hu⟩
    | _ => simp_all
  constructor
  · -- the broadcast does not concern the workers that wait for a lock
    intro hw u l' m p hu
    have hut : u ≠ t := fun he => by rw [he, ht] at hu; cases hu
    refine hw.nobody u l' (.file .fileLockCond) m p ?_
    rw [hother u hut, hu]
    rfl
  · intro hlock
    have hawake : Awake c := (reach_handling h).awake t (by rw [ht]; rfl)
    refine ⟨fun u l' cd m p hu => ?_, fun c₁ hr u l' m p hu => ?_⟩
    · have hut : u ≠ t := fun he => by rw [he, hself] at hu; cases hu
      have hu' : c.thr u = .asleep l' cd m p := hst.asleep_other hut hu
      have hsh := reach_shaped h u
      rw [hu'] at hsh
      obtain ⟨a, b, us, k', rfl, hP, -⟩ := hsh
      cases hP with
      | queue => exact hawake.nobody u l' (by rw [hu']; rfl)
      | lock => exact hlock u l' _ _ hu'
    · have hlater : Awake c₁ := (hawake.step h hst).reach (.step h hst rfl) hr
      exact hlater.nobody u l' (by rw [hu]; rfl)

/-- The thread is at the last broadcast of the handler. -/
def atLast : Thread (sig W) (Task W) → Bool
  | .run _ (.broadcast cd _) => cd = .fileQueueCond
  | _ => false

omit [DecidableEq W] in
theorem atLast_eq {t : Thread (sig W) (Task W)} (h : atLast t = true) :
    ∃ l k, t = .run l (.broadcast .fileQueueCond k) := by
  unfold atLast at h
  split at h
  · obtain rfl := of_decide_eq_true h
    exact ⟨_, _, rfl⟩
  · cases h

/-- The thread waits for a lock. -/
def waitsForLock : Thread (sig W) (Task W) → Bool
  | .asleep _ cd _ _ => cd = .file .fileLockCond
  | _ => false

/-- Thread `t` makes `n` steps in which its reads and writes succeed. -/
def steps (t : Tid W) (n : ℕ) : List (Tid W × Choice (Task W) Env (Tid W)) :=
  .replicate n (t, .go ⟨⟨true, [], 0, NULL⟩, none⟩)

/-- Worker `w` waits for a connection. -/
def awaiting (w : W) : List (Tid W × Choice (Task W) Env (Tid W)) :=
  (.worker w, .start (.round w)) :: steps (.worker w) 3

/-- The main thread accepts `fd` and wakes worker `w` up, which takes it. -/
def connecting (w : W) (fd : ℕ) : List (Tid W × Choice (Task W) Env (Tid W)) :=
  [(.main, .start .main), (.main, .go ⟨⟨true, [], 0, NULL⟩, none⟩),
    (.main, .go ⟨⟨true, [], 0, NULL⟩, some fd⟩)] ++ steps .main 2 ++
  (.main, .pick (.worker w)) :: steps .main 2 ++ steps (.worker w) 8

/-- The handler up to its last broadcast. -/
def handling (s : Signal) : List (Tid W × Choice (Task W) Env (Tid W)) :=
  (.signalThread, .start (.signal s)) :: steps .signalThread 5

/-- A worker waits for a connection when `SIGINT` arrives. -/
theorem wakesAll_awaiting : ∃ c c' : Conf (sig (Fin 2)) (State (Fin 2)) (Task (Fin 2)) (Tid (Fin 2)),
    Reached ⟨8, 4⟩ 0 c ∧ Step (exec ⟨8, 4⟩) (body ⟨8, 4⟩) .signalThread c .sync c' ∧
      (c.thr (.worker 0)).isWoken ∧ WakesAll ⟨8, 4⟩ c' := by
  obtain ⟨c, hc, hlast, hw, hm, h0, h1⟩ : ∃ c ∈ sched (exec ⟨8, 4⟩) (body ⟨8, 4⟩)
      (fun c t ev => plays c t ev) (awaiting (0 : Fin 2) ++ handling .SIGINT)
      (Conf.init (State.init (Fin 2) 0)), atLast (c.thr .signalThread) ∧ (c.thr (.worker 0)).isWoken ∧
      waitsForLock (c.thr .main) = false ∧ waitsForLock (c.thr (.worker 0)) = false ∧
      waitsForLock (c.thr (.worker 1)) = false := by decide +kernel
  obtain ⟨l, k, ht⟩ := atLast_eq hlast
  have hr : Reached ⟨8, 4⟩ 0 c := sched_reach _ .init hc
  refine ⟨c, _, hr, .broadcast ht, hw, (wakesAll_iff hr (.broadcast ht) ht).2 fun u l m p hu => ?_⟩
  have hwaits : waitsForLock (c.thr u) = true := by rw [hu]; rfl
  have hworker : ∀ w : Fin 2, waitsForLock (c.thr (.worker w)) = false :=
    Fin.forall_fin_two.2 ⟨h0, h1⟩
  have hno : waitsForLock (c.thr u) = false := by
    cases u with
    | main => exact hm
    | signalThread => rw [ht]; rfl
    | worker w => exact hworker w
  rw [hno] at hwaits
  cases hwaits

/-- Client 2 waits for the lock of client 1 when `SIGINT` arrives. -/
theorem not_wakesAll : ∃ c c' : Conf (sig (Fin 2)) (State (Fin 2)) (Task (Fin 2)) (Tid (Fin 2)),
    Reached ⟨8, 4⟩ 0 c ∧ Step (exec ⟨8, 4⟩) (body ⟨8, 4⟩) .signalThread c .sync c' ∧
      atLast (c.thr .signalThread) ∧ ¬ WakesAll ⟨8, 4⟩ c' := by
  obtain ⟨c, hc, hlast, hw⟩ : ∃ c ∈ sched (exec ⟨8, 4⟩) (body ⟨8, 4⟩) (fun c t ev => plays c t ev)
      (awaiting (0 : Fin 2) ++ connecting 0 4 ++ awaiting 1 ++ connecting 1 5 ++
        (.worker 0, .start (.request 0 ⟨1, .OP_OPEN_FILE, [47, 97], O_CREATE ||| O_LOCK, 0⟩)) ::
        steps (.worker 0) 9 ++
        (.worker 1, .start (.request 1 ⟨2, .OP_LOCK_FILE, [47, 97], 0, 0⟩)) :: steps (.worker 1) 7 ++
        handling .SIGINT)
      (Conf.init (State.init (Fin 2) 0)), atLast (c.thr .signalThread) ∧
      waitsForLock (c.thr (.worker 1)) := by decide +kernel
  obtain ⟨l, k, ht⟩ := atLast_eq hlast
  have hr : Reached ⟨8, 4⟩ 0 c := sched_reach _ .init hc
  refine ⟨c, _, hr, .broadcast ht, hlast, fun h => ?_⟩
  cases hthr : c.thr (.worker 1) with
  | asleep l' cd m p =>
    rw [hthr] at hw
    obtain rfl := of_decide_eq_true hw
    refine h.nobody (.worker 1) l' (.file .fileLockCond) m p ?_
    rw [Conf.set_ne _ _ (by decide)]
    show (c.thr (.worker 1)).wake _ = _
    rw [hthr]
    rfl
  | _ =>
    rw [hthr] at hw
    cases hw

end Daemon

end FileStorage
