/-
  `SIGHUP`: no new connections, but those that have been accepted are served.

  The workers test the flag before they take a descriptor from
  `connectionQueue`, so that a descriptor which is still in the queue when the
  flag is set is never served.  `drained`: when all workers have terminated,
  every descriptor accepted before `SIGHUP` has been obtained and served, in
  runs in which the flag is set only when nothing is left in the queue.

  * `View` are the typestates of the threads: the phase of a worker, and
    whether the signal has been handled.
  * `Accounts` relates the descriptors obtained to those served.
  * `Drains` says where the descriptors accepted before `SIGHUP` are.
-/
import FileStorage.Shutdown
import FileStorage.Threads.Typestate

namespace FileStorage

open Threads Prog

namespace Daemon

open Connection (OnItsWay)
open scoped List

variable {W : Type} [DecidableEq W] {cfg : Config} {unset : ℤ}
  {c c' : Conf (sig W) (State W) (Task W) (Tid W)} {t u : Tid W} {ev : Ev (sig W) (Task W)}
  {a : Act W} {e : Env} {s s' : State W} {r : a.Ans}

/-! ## The statement -/

/-- When all workers have terminated, the descriptors accepted before `SIGHUP`
    have been obtained, and those obtained have been served. -/
def Drained (c : Conf (sig W) (State W) (Task W) (Tid W)) : Prop :=
  ∀ b, c.st.before = some b → (∀ w, c.st.phase w = .terminated) →
    b <+: c.st.conns.obtained ∧ c.st.conns.obtained.Perm c.st.served ∧
      (c.st.conns.accepted = b → c.st.conns.connectionQueue.data = [])

/-- The thread about to perform the action carries a descriptor. -/
def Act.carrying : Act W → Bool
  | .conn a => a.carrying
  | .deref _ _ => true
  | _ => false

/-- The thread is between an `accept` and the `push`, or between a `pop` and
    the read through the pointer. -/
def carries (t : Thread (sig W) (Task W)) : Bool := t.upcoming.any Act.carrying

/-- `accept` returns only when no descriptor is on its way to a worker. -/
def AcceptsAlone (c : Conf (sig W) (State W) (Task W) (Tid W)) : Ev (sig W) (Task W) → Prop
  | .did (.conn .accept) _ => c.st.conns.connectionQueue.data = [] ∧ ∀ t, carries (c.thr t) = false
  | _ => True

/-- The flag of `SIGHUP` is set only when the accepted descriptors have been
    taken from the queue, or a worker is past its test of the flag and about to
    take one. -/
def HangsUpSettled (c : Conf (sig W) (State W) (Task W) (Tid W)) : Ev (sig W) (Task W) → Prop
  | .did (.conn (.stop .SIGHUP)) _ =>
    (c.st.conns.connectionQueue.data = [] ∧ ∀ t, (c.thr t).upcoming ≠ some (.conn .push)) ∨
      ∃ t, (c.thr t).upcoming = some (.conn .pop)
  | _ => True

/-- The configurations of the server in runs of such steps. -/
abbrev Settling (cfg : Config) (unset : ℤ) (c : Conf (sig W) (State W) (Task W) (Tid W)) : Prop :=
  Reach (exec cfg) (body cfg)
    (fun c t ev => plays c t ev = true ∧ AcceptsAlone c ev ∧ HangsUpSettled c ev)
    (Conf.init (State.init W unset)) c

/-! ## The actions -/

omit [DecidableEq W] in
/-- The thread carries a descriptor after the action. -/
def Act.carried : (a : Act W) → a.Ans → Bool
  | .conn a, r => a.carried r
  | _, _ => false

/-- The thread takes a descriptor from the queue, or reads the one that it took. -/
def Act.taking : Act W → Bool
  | .conn .pop | .conn (.deref _) | .deref _ _ => true
  | _ => false

/-- What follows an action. -/
def Follows (a : Act W) (k : a.Ans → Code W) : Prop :=
  ∀ r, (k r).upcoming.any Act.carrying = a.carried r ∧
    (a = .conn .pop → (k r).upcoming.any Act.taking = true)

/-- The program begins with no action on a descriptor. -/
def Starts (p : Code W) : Prop := p.Shaped Follows Loop ∧ p.upcoming.any Act.carrying = false

omit [DecidableEq W] in
theorem hangup_starts (w : W) : Starts (hangup w) := by
  refine ⟨?_, rfl⟩
  simp [hangup, Shaped, Follows, Prog.upcoming, Act.carrying, Act.carried,
    Connection.Act.carried, Connection.Act.carrying, apply_ite]

omit [DecidableEq W] in
theorem body_starts (l : Task W) : Starts (body cfg l) := by
  cases l with
  | main =>
    refine ⟨?_, rfl⟩
    simp [body, main, Shaped, Follows, Prog.upcoming, Act.carrying, Act.carried,
      Connection.Act.carried, Connection.Act.carrying, apply_ite]
  | signal =>
    refine ⟨?_, rfl⟩
    simp [body, signalThreadHandler, Shaped, Follows, Prog.upcoming, Act.carried,
      Connection.Act.carried]
  | round w =>
    refine ⟨?_, rfl⟩
    simp [body, round, Shaped, Follows, Prog.upcoming, Act.carrying, Act.carried,
      Connection.Act.carried, Connection.Act.carrying, apply_ite, Loop.queue, Act.taking]
  | hangup w => exact hangup_starts w
  | request w r =>
    -- the controllers have no action on a descriptor
    have hcontroller : Starts (expand (into W) (fun a k => .act (.act a) k) .ret (controller cfg r)) := by
      refine request_ind r ⟨trivial, rfl⟩ ?_ ?_ ?_ ?_ ?_ ?_
      · exact fun a k hk => ⟨⟨fun x => ⟨(hk x).2, fun he => by cases he⟩, fun x => (hk x).1⟩, rfl⟩
      · exact fun m k hk => hk
      · exact fun m k hk => hk
      · exact fun cd k hk => hk
      · exact fun cd k hk => hk
      · exact fun x b k hk =>
          ⟨⟨.lock, fun y => ⟨(hk y).2, fun he => by cases he⟩, fun y => (hk y).1⟩, rfl⟩
    have hbranch : ∀ b : Bool, Starts (if b then hangup w else
        expand (into W) (fun a k => .act (.act a) k) .ret (controller cfg r)) := fun b => by
      cases b
      · exact hcontroller
      · exact hangup_starts w
    exact ⟨⟨fun b => ⟨(hbranch b).2, fun he => by cases he⟩, fun b => (hbranch b).1⟩, rfl⟩

theorem reach_follows
    {ok : Conf (sig W) (State W) (Task W) (Tid W) → Tid W → Ev (sig W) (Task W) → Prop}
    (h : Reach (exec cfg) (body cfg) ok (Conf.init (State.init W unset)) c) (t : Tid W) :
    (c.thr t).Shaped (fun _ => Follows) (fun _ => Loop) :=
  h.shaped (fun l => (body_starts l).1) t

/-- A step keeps the one descriptor that is on its way. -/
theorem exec_onItsWay {T : Type} {b b' : T → Bool} {w : T} (hi : OnItsWay s.conns b)
    (hx : exec cfg a e s = some (r, s')) (hb : b w = a.carrying) (hb' : b' w = a.carried r)
    (hother : ∀ u, u ≠ w → b' u = b u)
    (ha : a = .conn .accept → s.conns.connectionQueue.data = [] ∧ ∀ t, b t = false) :
    OnItsWay s'.conns b' := by
  -- an action of the other parts of the server
  have hsame : s'.conns = s.conns → a.carrying = a.carried r → OnItsWay s'.conns b' := by
    intro hs hc
    have hbb : b' = b := by
      funext u
      by_cases hu : u = w
      · rw [hu, hb', hb, hc]
      · exact hother u hu
    rw [hs, hbb]
    exact hi
  cases a with
  | conn a =>
    rw [exec, Option.map_eq_some_iff] at hx
    obtain ⟨y, hy, he⟩ := hx
    cases he
    exact hi.exec hy hb hb' hother fun he => ha (by rw [he])
  | deref w' p =>
    rw [exec, Option.map_eq_some_iff] at hx
    obtain ⟨y, hy, he⟩ := hx
    cases he
    exact hi.exec hy hb hb' hother fun he => by cases he
  | close w' =>
    simp only [exec] at hx
    split at hx
    · cases hx
      exact hsame rfl rfl
    · cases hx
  | act a =>
    rw [exec, Option.map_eq_some_iff] at hx
    obtain ⟨y, -, he⟩ := hx
    cases he
    exact hsame rfl rfl
  | _ =>
    cases hx
    exact hsame rfl rfl

/-- The action changes nothing but the queue, the counter and the store. -/
def Act.minor : Act W → Bool
  | .conn .accept | .conn (.deref _) | .conn (.stop _) | .deref _ _ | .close _ | .terminate _ => false
  | _ => true

/-- The same apart from the queue, the counter and the store. -/
structure Same (s s' : State W) : Prop where
  fdClientSkt : s'.conns.fdClientSkt = s.conns.fdClientSkt
  acceptNewConnection : s'.conns.acceptNewConnection = s.conns.acceptNewConnection
  closeServer : s'.conns.closeServer = s.conns.closeServer
  accepted : s'.conns.accepted = s.conns.accepted
  obtained : s'.conns.obtained = s.conns.obtained
  phase : s'.phase = s.phase
  served : s'.served = s.served
  before : s'.before = s.before

/-- What an action does, apart from the queue, the counter and the store. -/
inductive Change (s : State W) : (a : Act W) → a.Ans → State W → Prop
  | minor {a : Act W} {r : a.Ans} {s' : State W} : a.minor = true → Same s s' → Change s a r s'
  | accept (fd : ℕ) : Change s (.conn .accept) (fd : ℤ)
      { s with conns := { s.conns with fdClientSkt := fd, accepted := s.conns.accepted ++ [(fd : ℤ)] } }
  | acceptFails : Change s (.conn .accept) (-1 : ℤ) { s with conns := { s.conns with fdClientSkt := -1 } }
  | read {p} : Change s (.conn (.deref p)) s.conns.fdClientSkt
      { s with conns := { s.conns with obtained := s.conns.obtained ++ [s.conns.fdClientSkt] } }
  | deref {w p} : Change s (.deref w p) s.conns.fdClientSkt
      { s with
        conns := { s.conns with obtained := s.conns.obtained ++ [s.conns.fdClientSkt] }
        phase := Function.update s.phase w (.serving s.conns.fdClientSkt) }
  | hangUp : Change s (.conn (.stop .SIGHUP)) ()
      { s with conns := { s.conns with acceptNewConnection := false }, before := some s.conns.accepted }
  | interrupt {sg} : sg ≠ .SIGHUP → Change s (.conn (.stop sg)) ()
      { s with conns := { s.conns with closeServer := true } }
  | close {w fd} : s.phase w = .serving fd → Change s (.close w) ()
      { s with
        phase := Function.update s.phase w .atTop
        served := if s.conns.closeServer then s.served else s.served ++ [fd] }
  | terminate {w} : Change s (.terminate w) () { s with phase := Function.update s.phase w .terminated }

theorem exec_change (hx : exec cfg a e s = some (r, s')) : Change s a r s' := by
  cases a with
  | conn a =>
    rw [exec, Option.map_eq_some_iff] at hx
    obtain ⟨⟨r', k⟩, hy, he⟩ := hx
    obtain ⟨rfl, rfl⟩ := Prod.mk.inj he
    cases a with
    | accept =>
      cases hfd : e.fd with
      | none =>
        rw [hfd] at hy
        cases hy
        exact .acceptFails
      | some fd =>
        rw [hfd] at hy
        cases hy
        exact .accept fd
    | push =>
      obtain ⟨-, rfl⟩ := Prod.mk.inj (Option.some.inj hy)
      exact .minor rfl ⟨rfl, rfl, rfl, rfl, rfl, rfl, rfl, rfl⟩
    | pop =>
      obtain ⟨y, -, he⟩ := Option.map_eq_some_iff.1 hy
      cases he
      exact .minor rfl ⟨rfl, rfl, rfl, rfl, rfl, rfl, rfl, rfl⟩
    | testQueue | testStop =>
      cases hy
      exact .minor rfl ⟨rfl, rfl, rfl, rfl, rfl, rfl, rfl, rfl⟩
    | deref p =>
      cases p
      cases hy
      exact .read
    | stop sg =>
      cases sg with
      | SIGHUP =>
        cases hy
        exact .hangUp
      | SIGINT | SIGQUIT =>
        cases hy
        exact .interrupt (by decide)
  | deref w p =>
    rw [exec, Option.map_eq_some_iff] at hx
    obtain ⟨y, hy, he⟩ := hx
    cases he
    cases p
    cases hy
    exact .deref
  | close w =>
    simp only [exec] at hx
    split at hx
    · cases hx
      exact .close ‹_›
    · cases hx
  | terminate w =>
    cases hx
    exact .terminate
  | act a =>
    rw [exec, Option.map_eq_some_iff] at hx
    obtain ⟨y, -, he⟩ := hx
    cases he
    exact .minor rfl ⟨rfl, rfl, rfl, rfl, rfl, rfl, rfl, rfl⟩
  | _ =>
    cases hx
    exact .minor rfl ⟨rfl, rfl, rfl, rfl, rfl, rfl, rfl, rfl⟩

/-! ## The typestates -/

/-- What a thread alone changes. -/
inductive View where
  | main
  /-- whether a signal has been handled -/
  | signalThread (stopped : Bool)
  | worker (phase : Phase)

def view : Tid W → State W → View
  | .main, _ => .main
  | .signalThread, s => .signalThread s.stopped
  | .worker w, s => .worker (s.phase w)

omit [DecidableEq W] in
/-- The view that a thread needs for an action. -/
def Need (t : Tid W) : Act W → View → Prop
  | .conn .pop, v => v = .worker .atTop
  | .conn (.deref _), _ => False
  | .conn (.stop _), v => v = .signalThread false
  | .deref w _, v | .terminate w, v => t = .worker w ∧ v = .worker .atTop
  | .close w, v => t = .worker w ∧ ∃ fd, v = .worker (.serving fd)
  | _, _ => True

omit [DecidableEq W] in
/-- How an action changes the view. -/
def Next : (a : Act W) → a.Ans → View → View → Prop
  | .conn (.stop _), _, _, v' => v' = .signalThread true
  | .deref _ _, fd, _, v' => fd ≠ -1 ∧ v' = .worker (.serving fd)
  | .close _, _, _, v' => v' = .worker .atTop
  | .terminate _, _, _, v' => v' = .worker .terminated
  | _, _, v, v' => v' = v

/-- Typestates of the thread `t`. -/
abbrev Typed (t : Tid W) (v : View) (p : Code W) : Prop := p.Obeys (Need t) Next v

omit [DecidableEq W] in
theorem hangup_typed {w : W} {fd : ℤ} : Typed (.worker w) (.worker (.serving fd)) (hangup w) := by
  simp [Typed, hangup, Prog.Obeys, Need, Next]

omit [DecidableEq W] in
theorem round_typed {w : W} : Typed (.worker w) (.worker .atTop) (round w) := by
  simp [Typed, round, Prog.Obeys, Need, Next]

omit [DecidableEq W] in
theorem request_typed {w : W} {fd : ℤ} {r : Request} :
    Typed (.worker w) (.worker (.serving fd)) (request cfg w r) := by
  have hcontroller : Typed (.worker w) (.worker (.serving fd))
      (expand (into W) (fun a k => .act (.act a) k) .ret (controller cfg r)) := by
    refine request_ind r trivial ?_ ?_ ?_ ?_ ?_ ?_
    · exact fun a k hk => ⟨trivial, fun x v' hv => hv ▸ hk x⟩
    · exact fun m k hk => hk
    · exact fun m k hk => hk
    · exact fun cd k hk => hk
    · exact fun cd k hk => hk
    · exact fun x b k hk => ⟨trivial, fun y v' hv => ⟨hv, hv ▸ hk y⟩⟩
  refine ⟨trivial, fun b v' hv => ?_⟩
  cases hv
  exact obeys_ite.2 ⟨fun _ => hangup_typed, fun _ => hcontroller⟩

/-- A worker reads requests, and closes its connection, while it serves one. -/
theorem serving_of_plays {p : Task W} {w : W} (hp : (∃ r, p = .request w r) ∨ p = .hangup w)
    (h : plays c t (.start p) = true) : t = .worker w ∧ ∃ fd, c.st.phase w = .serving fd := by
  cases t with
  | worker v =>
    cases hph : c.st.phase v with
    | serving fd =>
      have hw : w = v := by
        rcases hp with ⟨r, rfl⟩ | rfl
        · exact of_decide_eq_true (Bool.and_eq_true_iff.1 h).1
        · exact of_decide_eq_true (Bool.and_eq_true_iff.1 h).1
      subst hw
      exact ⟨rfl, fd, hph⟩
    | _ => rcases hp with ⟨r, rfl⟩ | rfl <;> simp [plays, hph] at h
  | _ => rcases hp with ⟨r, rfl⟩ | rfl <;> cases h

theorem body_typed {l : Task W} (h : plays c t (.start l) = true) : Typed t (view t c.st) (body cfg l) := by
  cases l with
  | main => simp [Typed, body, main, Prog.Obeys, Need, Next]
  | signal sg =>
    cases t with
    | signalThread =>
      have hs : c.st.stopped = false := by simpa [plays] using h
      simp [Typed, body, signalThreadHandler, Prog.Obeys, Need, Next, view, hs]
    | _ => cases h
  | round v =>
    cases t with
    | worker w =>
      obtain ⟨hw, hp⟩ := Bool.and_eq_true_iff.1 h
      obtain rfl := of_decide_eq_true hw
      rw [view, of_decide_eq_true hp]
      exact round_typed
    | _ => cases h
  | request v r =>
    obtain ⟨rfl, fd, hp⟩ := serving_of_plays (p := .request v r) (Or.inl ⟨r, rfl⟩) h
    rw [view, hp]
    exact request_typed
  | hangup v =>
    obtain ⟨rfl, fd, hp⟩ := serving_of_plays (p := .hangup v) (Or.inr rfl) h
    rw [view, hp]
    exact hangup_typed

omit [DecidableEq W] in
theorem Same.view (h : Same s s') (t : Tid W) : Daemon.view t s' = Daemon.view t s := by
  cases t with
  | main => rfl
  | signalThread => rw [Daemon.view, State.stopped, h.acceptNewConnection, h.closeServer]; rfl
  | worker w => rw [Daemon.view, h.phase]; rfl

/-- The other threads keep their typestates. -/
theorem Change.view_other (h : Change s a r s') (hn : Need t a (view t s)) (hu : u ≠ t) :
    view u s' = view u s := by
  cases h with
  | minor _ hs => exact hs.view u
  | accept | acceptFails | read => cases u <;> rfl
  | hangUp | interrupt =>
    -- only the signal thread sees the flags
    cases u with
    | signalThread =>
      cases t with
      | signalThread => exact absurd rfl hu
      | _ => cases hn
    | _ => rfl
  | deref | close | terminate =>
    -- only the worker itself sees its phase
    obtain ⟨rfl, -⟩ := hn
    cases u with
    | worker v =>
      have hv : v ≠ _ := fun he => hu (congrArg Connection.Tid.worker he)
      exact congrArg View.worker (Function.update_of_ne hv _ _)
    | _ => rfl

/-- An action changes the typestate of its thread as it should. -/
theorem Change.next (h : Change s a r s') (hn : Need t a (view t s))
    (hfd : ∀ w p, a = .deref w p → s.conns.fdClientSkt ≠ -1) : Next a r (view t s) (view t s') := by
  cases h with
  | minor ha hs =>
    rw [hs.view]
    cases a with
    | conn a => cases a <;> first | rfl | cases ha
    | deref | close | terminate => cases ha
    | _ => rfl
  | accept | acceptFails => cases t <;> rfl
  | read => exact hn.elim
  | hangUp | interrupt =>
    cases t with
    | signalThread => simp [Next, view, State.stopped]
    | _ => cases hn
  | deref =>
    obtain ⟨rfl, -⟩ := hn
    exact ⟨hfd _ _ rfl, congrArg View.worker (Function.update_self _ _ _)⟩
  | close | terminate =>
    obtain ⟨rfl, -⟩ := hn
    exact congrArg View.worker (Function.update_self _ _ _)

/-! ## The runs -/

/-- A step changes the state by an action. -/
theorem step_change (hst : Step (exec cfg) (body cfg) t c ev c') :
    c'.st = c.st ∨ ∃ a r, ev = .did a r ∧ Change c.st a r c'.st := by
  rcases hst.st_cases with he | ⟨a, e, r, he, hx⟩
  · exact Or.inl he
  · exact Or.inr ⟨a, r, he, exec_change hx⟩

section
variable (h : Settling cfg unset c)
include h

/-- At most one descriptor is on its way to a worker. -/
theorem reach_onItsWay : OnItsWay c.st.conns fun t => carries (c.thr t) := by
  refine Reach.invariant (I := fun c => OnItsWay c.st.conns fun t => carries (c.thr t))
    (Or.inl ⟨rfl, rfl, fun _ => rfl⟩) ?_ h
  intro c w ev c' hr hi hst ho
  rcases hst.quiet (f := fun o => o.any Act.carrying) (fun l => (body_starts l).2) with
    ⟨a, r, rfl⟩ | ⟨hs, hall⟩
  · obtain ⟨e, hx⟩ := hst.exec_did
    obtain ⟨hup, hk⟩ := hst.upcoming_did (reach_follows hr w)
    refine exec_onItsWay (w := w) hi hx (by rw [carries, hup]; rfl) ?_
      (fun u hu => by rw [carries, hst.upcoming_other hu]; rfl) ?_
    · rcases hk with ⟨-, k, hk, hup'⟩ | ⟨⟨_, _, _, _, _, hloop⟩, hup'⟩
      · rw [carries, hup', (hk r).1]
      · rw [carries, hup']
        cases hloop <;> rfl
    · rintro rfl
      exact ho.2.1
  · have hcarries : (fun t => carries (c'.thr t)) = fun t => carries (c.thr t) := funext hall
    rw [hs, hcarries]
    exact hi

/-- The accepted descriptors are none of the failures of `accept`. -/
theorem reach_accepted : ∀ fd ∈ c.st.conns.accepted, 0 ≤ fd := by
  refine Reach.invariant (I := fun c => ∀ fd ∈ c.st.conns.accepted, 0 ≤ fd)
    (fun _ hm => by cases hm) ?_ h
  intro c w ev c' _ hi hst _
  rcases step_change hst with he | ⟨a, r, -, hc⟩
  · rw [he]
    exact hi
  · generalize c'.st = s' at hc
    cases hc with
    | minor _ hs =>
      rw [hs.accepted]
      exact hi
    | accept fd =>
      intro fd' hm
      rcases List.mem_append.1 hm with hm | hm
      · exact hi fd' hm
      · rw [List.mem_singleton.1 hm]
        omega
    | _ => exact hi

/-- What a worker reads through its pointer is an accepted descriptor. -/
theorem fdClientSkt_ne (ht : carries (c.thr t) = true) : c.st.conns.fdClientSkt ≠ -1 := by
  have hacc : c.st.conns.accepted = c.st.conns.obtained ++ [c.st.conns.fdClientSkt] := by
    rcases reach_onItsWay h with ⟨-, -, hn⟩ | ⟨hacc, -⟩
    · have hn : carries (c.thr t) = false := hn t
      rw [hn] at ht
      cases ht
    · exact hacc
  have := reach_accepted h c.st.conns.fdClientSkt (by rw [hacc]; simp)
  omega

/-- The threads obey the typestates. -/
theorem reach_typed (t : Tid W) :
    (c.thr t).Obeys (Need t) Next (view t c.st) := by
  refine h.obeys view Need (fun _ => Next) ?_ ?_ ?_ t
  · exact fun c w l ho => body_typed ho.1
  · intro c w a r c' hr hst ho hn
    obtain ⟨e, hx⟩ := hst.exec_did
    refine (exec_change hx).next hn ?_
    rintro w' p rfl
    refine fdClientSkt_ne hr (t := w) ?_
    rw [carries, (hst.upcoming_did (reach_follows hr w)).1]
    rfl
  · exact fun w u a e s r s' hu hn hx => (exec_change hx).view_other hn hu

/-- What an action needs it finds. -/
theorem step_need {a : Act W} {r : a.Ans} (hst : Step (exec cfg) (body cfg) t c (.did a r) c') :
    Need t a (view t c.st) :=
  (reach_typed h t).of_upcoming (hst.upcoming_did (reach_follows h t)).1

end

/-! ## What has been served -/

/-- Until the server is closed, the descriptors obtained are those served and
    those that the workers serve, in the list `l`. -/
def Accounts (s : State W) : Prop :=
  s.conns.closeServer = false → ∃ l : List (W × ℤ), l.Nodup ∧
    (∀ w fd, s.phase w = .serving fd ↔ (w, fd) ∈ l) ∧
    s.conns.obtained.Perm (s.served ++ l.map Prod.snd)

theorem Change.accounts (h : Change s a r s') (hn : Need t a (view t s)) (hi : Accounts s) : Accounts s' := by
  intro hc'
  cases h with
  | minor _ hs =>
    rw [hs.phase, hs.obtained, hs.served]
    exact hi (hs.closeServer ▸ hc')
  | accept | acceptFails | hangUp => exact hi hc'
  | read => exact hn.elim
  | interrupt => cases hc'
  | @deref w p =>
    obtain ⟨l, hnd, hl, hp⟩ := hi hc'
    obtain ⟨rfl, hv⟩ := hn
    have hv : s.phase w = .atTop := View.worker.inj hv
    have hw : ∀ fd, (w, fd) ∉ l := fun fd hm => by
      rw [(hl w fd).2 hm] at hv
      cases hv
    refine ⟨(w, s.conns.fdClientSkt) :: l, List.nodup_cons.2 ⟨hw _, hnd⟩, fun v fd => ?_, ?_⟩
    · by_cases hvw : v = w
      · subst hvw
        simp [hw, eq_comm]
      · simp [hvw, hl]
    · calc (s.conns.obtained ++ [s.conns.fdClientSkt])
        _ ~ (s.served ++ l.map Prod.snd) ++ [s.conns.fdClientSkt] := hp.append_right _
        _ ~ s.conns.fdClientSkt :: (s.served ++ l.map Prod.snd) := List.perm_append_singleton _ _
        _ ~ s.served ++ s.conns.fdClientSkt :: l.map Prod.snd := List.perm_middle.symm
  | @close w fd hph =>
    have hc : s.conns.closeServer = false := hc'
    obtain ⟨l, hnd, hl, hp⟩ := hi hc
    have hm : (w, fd) ∈ l := (hl w fd).1 hph
    refine ⟨l.erase (w, fd), hnd.erase _, fun v fd' => ?_, ?_⟩
    · rw [hnd.mem_erase_iff, ← hl]
      by_cases hvw : v = w
      · subst hvw
        simp [hph, eq_comm]
      · simp [hvw]
    · have hperm : (l.map Prod.snd).Perm (fd :: (l.erase (w, fd)).map Prod.snd) :=
        (List.perm_cons_erase hm).map Prod.snd
      simp only [hc, Bool.false_eq_true, if_false]
      calc s.conns.obtained
        _ ~ s.served ++ l.map Prod.snd := hp
        _ ~ s.served ++ fd :: (l.erase (w, fd)).map Prod.snd := hperm.append_left _
        _ ~ (s.served ++ [fd]) ++ (l.erase (w, fd)).map Prod.snd := by simp
  | @terminate w =>
    obtain ⟨l, hnd, hl, hp⟩ := hi hc'
    obtain ⟨rfl, hv⟩ := hn
    have hv : s.phase w = .atTop := View.worker.inj hv
    refine ⟨l, hnd, fun v fd => ?_, hp⟩
    by_cases hvw : v = w
    · subst hvw
      simp [← hl, hv]
    · simp [hvw, hl]

omit [DecidableEq W] in
/-- The flags after `SIGHUP`. -/
def HungUp (s : State W) : Prop :=
  ∀ b, s.before = some b → s.stopped = true ∧ s.conns.closeServer = false

theorem Change.hungUp (h : Change s a r s') (hn : Need t a (view t s)) (hi : HungUp s) : HungUp s' := by
  -- no signal has been handled before a signal is
  have hfirst : ∀ sg, a = .conn (.stop sg) → s.stopped = false := by
    rintro sg rfl
    cases t with
    | signalThread => exact View.signalThread.inj hn
    | _ => cases hn
  intro b hb
  cases h with
  | minor _ hs =>
    rw [hs.before] at hb
    rw [State.stopped, hs.acceptNewConnection, hs.closeServer]
    exact hi b hb
  | hangUp =>
    have hs := hfirst _ rfl
    rw [State.stopped, Bool.or_eq_false_iff] at hs
    exact ⟨rfl, hs.2⟩
  | interrupt =>
    have hs := hfirst _ rfl
    rw [(hi b hb).1] at hs
    cases hs
  | _ => exact hi b hb

/-- What the actions keep holds in every run. -/
theorem reach_keeps {I : State W → Prop} (h₀ : I (State.init W unset))
    (hI : ∀ {t : Tid W} {a : Act W} {r : a.Ans} {s s'},
      Change s a r s' → Need t a (view t s) → I s → I s')
    (h : Settling cfg unset c) : I c.st := by
  refine Reach.invariant (I := fun c => I c.st) h₀ ?_ h
  intro c w ev c' hr hi hst _
  rcases step_change hst with he | ⟨a, r, rfl, hc⟩
  · rw [he]
    exact hi
  · exact hI hc (step_need hr hst) hi

/-! ## Where the descriptors are -/

/-- The thread is about to take a descriptor from the queue, or to read the one
    that it took. -/
def takes (t : Thread (sig W) (Task W)) : Bool := t.upcoming.any Act.taking

/-- The descriptors accepted before `SIGHUP` have been obtained, or only the
    last one has not, and one of the threads `b` will obtain it. -/
def Drains (s : State W) (b : Tid W → Bool) : Prop :=
  ∀ fds, s.before = some fds → fds <+: s.conns.obtained ∨
    fds = s.conns.accepted ∧ s.conns.accepted = s.conns.obtained ++ [s.conns.fdClientSkt] ∧
      ∃ t, b t = true

theorem Change.drains {b b' : Tid W → Bool} (h : Change s a r s') (hn : Need t a (view t s))
    (hi : Drains s b)
    (haccept : a = .conn .accept → s.conns.accepted = s.conns.obtained)
    (hhangUp : a = .conn (.stop .SIGHUP) → s.conns.accepted = s.conns.obtained ∨
      s.conns.accepted = s.conns.obtained ++ [s.conns.fdClientSkt] ∧ ∃ t, b' t = true)
    (hb : (∀ w p, a ≠ .deref w p) → (∃ t, b t = true) → ∃ t, b' t = true) : Drains s' b' := by
  intro fds hfds
  cases h with
  | minor ha hs =>
    rw [hs.before] at hfds
    rw [hs.obtained, hs.accepted, hs.fdClientSkt]
    refine (hi fds hfds).imp_right fun ⟨h1, h2, h3⟩ => ⟨h1, h2, hb ?_ h3⟩
    rintro w p rfl
    cases ha
  | accept | acceptFails =>
    -- nothing is on its way
    refine (hi fds hfds).imp_right fun ⟨_, h2, _⟩ => ?_
    rw [haccept rfl] at h2
    simp at h2
  | read => exact hn.elim
  | deref =>
    rcases hi fds hfds with h1 | ⟨h1, h2, -⟩
    · exact Or.inl (h1.trans (List.prefix_append _ _))
    · exact Or.inl (h1.trans h2 ▸ List.prefix_rfl)
  | hangUp =>
    cases hfds
    rcases hhangUp rfl with h1 | ⟨h1, h2⟩
    · exact Or.inl (h1 ▸ List.prefix_rfl)
    · exact Or.inr ⟨rfl, h1, h2⟩
  | interrupt | close | terminate =>
    exact (hi fds hfds).imp_right fun ⟨h1, h2, h3⟩ => ⟨h1, h2, hb (fun _ _ he => by cases he) h3⟩

omit [DecidableEq W] in
theorem Act.taking_of_carrying (hc : a.carrying = true) (hp : a ≠ .conn .push) : a.taking = true := by
  cases a with
  | conn a => cases a <;> first | rfl | exact absurd rfl hp | cases hc
  | deref => rfl
  | _ => cases hc

omit [DecidableEq W] in
theorem Act.taking_cases (h : a.taking = true) :
    a = .conn .pop ∨ (∃ p, a = .conn (.deref p)) ∨ ∃ w p, a = .deref w p := by
  unfold Act.taking at h
  split at h
  · exact Or.inl rfl
  · exact Or.inr (Or.inl ⟨_, rfl⟩)
  · exact Or.inr (Or.inr ⟨_, _, rfl⟩)
  · cases h

section
variable (h : Settling cfg unset c)
include h

/-- Only the read through its pointer keeps a thread from taking a descriptor. -/
theorem takes_step {w : Tid W} {a : Act W} {r : a.Ans}
    (hst : Step (exec cfg) (body cfg) w c (.did a r) c') (ha : ∀ v p, a ≠ .deref v p)
    (ht : takes (c.thr t) = true) : takes (c'.thr t) = true := by
  by_cases htw : t = w
  · subst htw
    obtain ⟨hup, hk⟩ := hst.upcoming_did (reach_follows h t)
    have htaking : a.taking = true := by
      rw [takes, hup] at ht
      exact ht
    rcases hk with ⟨-, k, hk, hup'⟩ | ⟨⟨_, _, _, _, _, hloop⟩, -⟩
    · -- the thread took a descriptor from the queue, and will read it
      have hpop : a = .conn .pop := by
        rcases Act.taking_cases htaking with he | ⟨p, rfl⟩ | ⟨v, p, he⟩
        · exact he
        · exact (step_need h hst).elim
        · exact absurd he (ha v p)
      rw [takes, hup']
      exact (hk r).2 hpop
    · cases hloop <;> cases htaking
  · rw [takes, hst.upcoming_other htw]
    exact ht

/-- The last accepted descriptor will be obtained in spite of `SIGHUP`. -/
theorem exists_takes {r : Unit} (hs : HangsUpSettled c (.did (.conn (.stop .SIGHUP)) r)) :
    c.st.conns.accepted = c.st.conns.obtained ∨
      c.st.conns.accepted = c.st.conns.obtained ++ [c.st.conns.fdClientSkt] ∧
        ∃ t, takes (c.thr t) = true := by
  refine (reach_onItsWay h).imp And.left fun ⟨hacc, hway⟩ => ⟨hacc, ?_⟩
  rcases hs with ⟨hd, hpush⟩ | ⟨t, ht⟩
  · -- the thread that carries the descriptor has popped it
    rcases hway with ⟨p, hd', -⟩ | ⟨-, t, ht, -⟩
    · rw [hd] at hd'; cases hd'
    · obtain ⟨a, ha, hc⟩ := (Option.any_eq_true _ _).1 ht
      refine ⟨t, ?_⟩
      rw [takes, ha]
      exact Act.taking_of_carrying hc fun he => hpush t (by rw [ha, he])
  · refine ⟨t, ?_⟩
    rw [takes, ht]
    rfl

end

theorem reach_drains (h : Settling cfg unset c) : Drains c.st fun t => takes (c.thr t) := by
  refine Reach.invariant (I := fun c => Drains c.st fun t => takes (c.thr t)) (fun _ he => by cases he) ?_ h
  intro c w ev c' hr hi hst ho
  rcases hst.quiet (f := fun o => o.any Act.taking) (fun l => by cases l <;> rfl) with
    ⟨a, r, rfl⟩ | ⟨hs, hall⟩
  · obtain ⟨e, hx⟩ := hst.exec_did
    refine (exec_change hx).drains (step_need hr hst) hi ?_ ?_ ?_
    · rintro rfl
      exact (reach_onItsWay hr).obtained ho.2.1.1 ho.2.1.2
    · rintro rfl
      refine (exists_takes hr ho.2.2).imp_right (And.imp_right ?_)
      rintro ⟨t, ht⟩
      exact ⟨t, takes_step hr hst (fun _ _ he => by cases he) ht⟩
    · rintro ha ⟨t, ht⟩
      exact ⟨t, takes_step hr hst ha ht⟩
  · have htakes : (fun t => takes (c'.thr t)) = fun t => takes (c.thr t) := funext hall
    rw [hs, htakes]
    exact hi

/-- A thread that takes a descriptor is a worker that has not terminated. -/
theorem atTop_of_takes (h : Settling cfg unset c) (ht : takes (c.thr t) = true) :
    ∃ w, c.st.phase w = .atTop := by
  obtain ⟨a, ha, htaking⟩ := (Option.any_eq_true _ _).1 ht
  have hneed := (reach_typed h t).of_upcoming ha
  have hv : view t c.st = .worker .atTop := by
    rcases Act.taking_cases htaking with rfl | ⟨p, rfl⟩ | ⟨w, p, rfl⟩
    · exact hneed
    · exact hneed.elim
    · exact hneed.2
  cases t with
  | worker w => exact ⟨w, View.worker.inj hv⟩
  | _ => cases hv

/-- **The end of the workers.**  In runs in which `accept` returns only when no
    descriptor is on its way, and the flag of `SIGHUP` is set only when nothing is
    left in the queue, the descriptors accepted before `SIGHUP` are served. -/
theorem drained (h : Settling cfg unset c) : Drained c := by
  intro fds hfds hall
  have htaken : fds <+: c.st.conns.obtained := by
    rcases reach_drains h fds hfds with hp | ⟨-, -, t, ht⟩
    · exact hp
    · obtain ⟨w, hw⟩ := atTop_of_takes h ht
      rw [hall w] at hw
      cases hw
  refine ⟨htaken, ?_, fun hacc => ?_⟩
  · -- no worker serves a descriptor any more
    have hopen := (reach_keeps (fun _ he => by cases he) Change.hungUp h fds hfds).2
    have hinit : Accounts (State.init W unset) := fun _ =>
      ⟨[], List.nodup_nil, by simp [State.init], by rfl⟩
    obtain ⟨l, -, hl, hp⟩ := reach_keeps hinit Change.accounts h hopen
    cases l with
    | nil => simpa using hp
    | cons x l =>
      have hs := (hl x.1 x.2).2 List.mem_cons_self
      rw [hall] at hs
      cases hs
  · rcases reach_onItsWay h with ⟨-, hd, -⟩ | ⟨he, -⟩
    · exact hd
    · have := (hacc ▸ htaken).length_le
      rw [he, List.length_append, List.length_singleton] at this
      omega

/-! ## One worker -/

section
variable {c : Conf (sig (Fin 1)) (State (Fin 1)) (Task (Fin 1)) (Tid (Fin 1))}
  {ev : Ev (sig (Fin 1)) (Task (Fin 1))}

/-- No descriptor is on its way to the worker. -/
def allTaken (c : Conf (sig (Fin 1)) (State (Fin 1)) (Task (Fin 1)) (Tid (Fin 1))) : Bool :=
  c.st.conns.connectionQueue.data.isEmpty && !carries (c.thr .main) && !carries (c.thr .signalThread) &&
    ∀ w, carries (c.thr (.worker w)) = false

theorem allTaken_sound (h : allTaken c = true) :
    c.st.conns.connectionQueue.data = [] ∧ ∀ t, carries (c.thr t) = false := by
  simp only [allTaken, Bool.and_eq_true, List.isEmpty_iff, Bool.not_eq_true', decide_eq_true_eq] at h
  obtain ⟨⟨⟨hd, hm⟩, hs⟩, hw⟩ := h
  refine ⟨hd, fun t => ?_⟩
  cases t with
  | main => exact hm
  | signalThread => exact hs
  | worker w => exact hw w

/-- `AcceptsAlone` for one worker. -/
def acceptsAlone (c : Conf (sig (Fin 1)) (State (Fin 1)) (Task (Fin 1)) (Tid (Fin 1))) :
    Ev (sig (Fin 1)) (Task (Fin 1)) → Bool
  | .did (.conn .accept) _ => allTaken c
  | _ => true

/-- A stronger form of `HangsUpSettled` for one worker. -/
def hangsUpSettled (c : Conf (sig (Fin 1)) (State (Fin 1)) (Task (Fin 1)) (Tid (Fin 1))) :
    Ev (sig (Fin 1)) (Task (Fin 1)) → Bool
  | .did (.conn (.stop .SIGHUP)) _ => allTaken c
  | _ => true

theorem acceptsAlone_of (h : acceptsAlone c ev = true) : AcceptsAlone c ev := by
  cases ev with
  | did a r =>
    cases a with
    | conn a =>
      cases a with
      | accept => exact allTaken_sound h
      | _ => trivial
    | _ => trivial
  | _ => trivial

theorem hangsUpSettled_of (h : hangsUpSettled c ev = true) : HangsUpSettled c ev := by
  cases ev with
  | did a r =>
    cases a with
    | conn a =>
      cases a with
      | stop sg =>
        cases sg with
        | SIGHUP =>
          obtain ⟨hd, hn⟩ := allTaken_sound h
          refine Or.inl ⟨hd, fun t ht => ?_⟩
          have hc := hn t
          rw [carries, ht] at hc
          cases hc
        | _ => trivial
      | _ => trivial
    | _ => trivial
  | _ => trivial

end

/-- `SIGHUP` arrives while the worker serves a connection. -/
theorem drained_serving : ∃ c : Conf (sig (Fin 1)) (State (Fin 1)) (Task (Fin 1)) (Tid (Fin 1)),
    c.st.before = some [4] ∧ c.st.served = [4] ∧ (∀ w, c.st.phase w = .terminated) ∧ Drained c := by
  obtain ⟨c, hc, hb, hs, hp⟩ : ∃ c ∈ sched (exec ⟨8, 4⟩) (body ⟨8, 4⟩)
      (fun c t ev => plays c t ev && (acceptsAlone c ev && hangsUpSettled c ev))
      (awaiting (0 : Fin 1) ++ connecting 0 4 ++ handling .SIGHUP ++
        (.worker 0, .start (.hangup 0)) :: steps (.worker 0) 3)
      (Conf.init (State.init (Fin 1) 0)),
      c.st.before = some [4] ∧ c.st.served = [4] ∧ c.st.phase 0 = .terminated := by decide +kernel
  have hr : Reach (exec ⟨8, 4⟩) (body ⟨8, 4⟩)
      (fun c t ev => (plays c t ev && (acceptsAlone c ev && hangsUpSettled c ev)) = true)
      (Conf.init (State.init (Fin 1) 0)) c := sched_reach _ .init hc
  refine ⟨c, hb, hs, fun w => by rw [Subsingleton.elim w 0, hp], drained (hr.mono fun c t ev h => ?_)⟩
  simp only [Bool.and_eq_true] at h
  exact ⟨h.1, acceptsAlone_of h.2.1, hangsUpSettled_of h.2.2⟩

/-- `SIGHUP` arrives between the `push` and the test of the flag by the worker. -/
theorem not_drained : ∃ c : Conf (sig (Fin 1)) (State (Fin 1)) (Task (Fin 1)) (Tid (Fin 1)),
    Reach (exec ⟨8, 4⟩) (body ⟨8, 4⟩) (fun c t ev => plays c t ev = true ∧ AcceptsAlone c ev)
      (Conf.init (State.init (Fin 1) 0)) c ∧ c.st.before = some [4] ∧
      (∀ w, c.st.phase w = .terminated) ∧ c.st.conns.obtained = [] ∧ ¬ Drained c := by
  obtain ⟨c, hc, hb, ho, hp⟩ : ∃ c ∈ sched (exec ⟨8, 4⟩) (body ⟨8, 4⟩)
      (fun c t ev => plays c t ev && acceptsAlone c ev)
      (awaiting (0 : Fin 1) ++ (connecting 0 4).take 8 ++ handling .SIGHUP ++ steps (.worker 0) 5)
      (Conf.init (State.init (Fin 1) 0)),
      c.st.before = some [4] ∧ c.st.conns.obtained = [] ∧ c.st.phase 0 = .terminated := by decide +kernel
  have hr : Reach (exec ⟨8, 4⟩) (body ⟨8, 4⟩) (fun c t ev => (plays c t ev && acceptsAlone c ev) = true)
      (Conf.init (State.init (Fin 1) 0)) c := sched_reach _ .init hc
  have hall : ∀ w, c.st.phase w = .terminated := fun w => by rw [Subsingleton.elim w 0, hp]
  refine ⟨c, hr.mono fun c t ev h => ?_, hb, hall, ho, fun h => ?_⟩
  · obtain ⟨hp, ha⟩ := Bool.and_eq_true_iff.1 h
    exact ⟨hp, acceptsAlone_of ha⟩
  · have := (h [4] hb hall).1
    rw [ho] at this
    exact absurd this (by decide)

end Daemon

end FileStorage
