/-
  The connection counter of `utils.c`, and the connections that are served.

  `worker` counts a connection after it has popped its descriptor, and counts
  it off at the end of the round.  Two of its exits lie between: it leaves its
  loop when it finds a flag set after it has closed the connection, and when it
  has read `-1` through its pointer.  The counter then stays too high for good.

  * `serves_iff`: a worker serves a connection from `addConnectionCont` until it
    counts the connection off or terminates.
  * `Account` are the typestates of the workers: the phase, and whether the
    connection is counted.
  * `getNumConnections_eq_iff`: the counter is the number of the workers that
    serve a connection if and only if no worker has taken one of these exits.
  * `getNumConnections_le_card`: it is never more than the number of the workers.
-/
import FileStorage.Sighup
import FileStorage.Lib.History
import Mathlib.Algebra.Order.BigOperators.Group.Finset

namespace FileStorage

open Threads Prog

namespace Daemon

variable {W : Type} [DecidableEq W] {cfg : Config} {unset : ℤ}
  {c c' : Conf (sig W) (State W) (Task W) (Tid W)} {t u : Tid W} {ev : Ev (sig W) (Task W)}
  {h : List (Tid W × Ev (sig W) (Task W))} {x : Tid W × Ev (sig W) (Task W)}
  {a : Act W} {e : Env} {s s' : State W} {r : a.Ans} {v w : W}

/-! ## The statement -/

omit [DecidableEq W] in
/-- The value that `getNumConnections` returns, and `logRequest` writes. -/
def getNumConnections (s : State W) : ℤ := s.nConnections

omit [DecidableEq W] in
/-- What a worker does to its place among those that serve a connection. -/
def tally : Tid W × Ev (sig W) (Task W) → Option (History.Event W Unit)
  | (.worker w, .did .addConnectionCont _) => some (.create w ())
  | (.worker w, .did .subConnectionCont _) => some (.drop w)
  | (.worker w, .did (.terminate _) _) => some (.drop w)
  | _ => none

/-- The worker has executed `addConnectionCont` for a connection and is not yet
    done with it: it has not counted it off, nor terminated. -/
def serves (h : List (Tid W × Ev (sig W) (Task W))) (w : W) : Bool :=
  (History.replay (h.filterMap tally) w).isSome

/-- The workers that serve a connection after the history `h`. -/
def serving [Fintype W] (h : List (Tid W × Ev (sig W) (Task W))) : Finset W :=
  Finset.univ.filter fun w => serves h w

/-- A worker leaves its loop only at the test of the flags before the `pop`. -/
def leavesAtTop (c : Conf (sig W) (State W) (Task W) (Tid W)) (t : Tid W) : Ev (sig W) (Task W) → Bool
  | .did (.terminate w) _ => (c.thr t).task = some (.round w) && c.st.phase w = .atTop
  | _ => true

/-- The runs of the server with their histories. -/
abbrev Played (cfg : Config) (unset : ℤ) (h : List (Tid W × Ev (sig W) (Task W)))
    (c : Conf (sig W) (State W) (Task W) (Tid W)) : Prop :=
  Run (exec cfg) (body cfg) (fun c t ev => plays c t ev = true) (Conf.init (State.init W unset)) h c

/-- The runs in which each worker that leaves its loop does so at the top. -/
abbrev Orderly (cfg : Config) (unset : ℤ) (h : List (Tid W × Ev (sig W) (Task W)))
    (c : Conf (sig W) (State W) (Task W) (Tid W)) : Prop :=
  Run (exec cfg) (body cfg) (fun c t ev => plays c t ev = true ∧ leavesAtTop c t ev = true)
    (Conf.init (State.init W unset)) h c

/-! ## The history -/

theorem serves_iff : serves h w = true ↔ History.Live w (h.filterMap tally) := History.isSome_replay

theorem serves_none (hx : tally x = none) : serves (h ++ [x]) w = serves h w := by
  rw [serves, List.filterMap_append, List.filterMap_cons_none hx]
  simp [serves]

theorem serves_some {y : History.Event W Unit} (hx : tally x = some y) :
    serves (h ++ [x]) w = (y.apply (History.replay (h.filterMap tally)) w).isSome := by
  rw [serves, List.filterMap_append, List.filterMap_cons_some hx, List.filterMap_nil,
    History.replay_append]

omit [DecidableEq W] in
theorem tally_key {y : History.Event W Unit} (hx : tally x = some y) : x.1 = .worker y.key := by
  unfold tally at hx
  split at hx <;> cases hx <;> rfl

/-- The place of a worker is changed by itself. -/
theorem serves_other (hx : x.1 ≠ .worker w) : serves (h ++ [x]) w = serves h w := by
  cases hy : tally x with
  | none => exact serves_none hy
  | some y =>
    have hkey : y.key ≠ w := fun he => hx (he ▸ tally_key hy)
    rw [serves_some hy, History.Event.apply_ne hkey]
    rfl

theorem serves_create (hx : tally x = some (.create w ())) : serves (h ++ [x]) w = true := by
  rw [serves_some hx]
  simp [History.Event.apply]

theorem serves_drop (hx : tally x = some (.drop w)) : serves (h ++ [x]) w = false := by
  rw [serves_some hx]
  simp [History.Event.apply]

section
variable [Fintype W]

theorem mem_serving : w ∈ serving h ↔ serves h w = true := by
  rw [serving, Finset.mem_filter, and_iff_right (Finset.mem_univ w)]

theorem notMem_serving : w ∉ serving h ↔ serves h w = false := by
  rw [mem_serving, Bool.not_eq_true]

theorem serving_none (hx : tally x = none) : serving (h ++ [x]) = serving h := by
  ext w
  rw [mem_serving, mem_serving, serves_none hx]

theorem serving_create (hx : tally x = some (.create w ())) : serving (h ++ [x]) = insert w (serving h) := by
  ext v
  rw [mem_serving, Finset.mem_insert, mem_serving, serves_some hx]
  by_cases hv : v = w
  · simp [History.Event.apply, hv]
  · simp [History.Event.apply, hv, serves]

theorem serving_drop (hx : tally x = some (.drop w)) : serving (h ++ [x]) = (serving h).erase w := by
  ext v
  rw [mem_serving, Finset.mem_erase, mem_serving, serves_some hx]
  by_cases hv : v = w
  · simp [History.Event.apply, hv]
  · simp [History.Event.apply, hv, serves]

end

/-- By how much the counter exceeds the number of connections that are served. -/
def excess [Fintype W] (h : List (Tid W × Ev (sig W) (Task W)))
    (c : Conf (sig W) (State W) (Task W) (Tid W)) : ℤ :=
  getNumConnections c.st - (serving h).card

/-! ## The actions -/

/-- The phases after an action. -/
def Act.phases : (a : Act W) → a.Ans → (W → Phase) → W → Phase
  | .deref w _, fd, f => Function.update f w (.serving fd)
  | .close w, _, f => Function.update f w .atTop
  | .terminate w, _, f => Function.update f w .terminated
  | _, _, f => f

omit [DecidableEq W] in
/-- What an action adds to the counter. -/
def Act.counts : Act W → ℤ
  | .addConnectionCont => 1
  | .subConnectionCont => -1
  | _ => 0

theorem exec_counts (hx : exec cfg a e s = some (r, s')) :
    s'.phase = a.phases r s.phase ∧ s'.nConnections = s.nConnections + a.counts := by
  cases a with
  | conn a | deref w p | act a =>
    rw [exec, Option.map_eq_some_iff] at hx
    obtain ⟨y, -, he⟩ := hx
    cases he
    exact ⟨rfl, (Int.add_zero _).symm⟩
  | close w =>
    simp only [exec] at hx
    split at hx
    · cases hx
      exact ⟨rfl, (Int.add_zero _).symm⟩
    · cases hx
  | testGo | testClose | terminate w =>
    cases hx
    exact ⟨rfl, (Int.add_zero _).symm⟩
  | addConnectionCont | subConnectionCont =>
    cases hx
    exact ⟨rfl, rfl⟩

/-! ## The typestates -/

omit [DecidableEq W] in
/-- A worker has found a flag set, or read `-1` through its pointer. -/
def alarm : Ev (sig W) (Task W) → Bool
  | .did (.conn .testStop) b => b
  | .did (.deref _ _) fd => fd = (-1 : ℤ)
  | _ => false

def alarmed (h : List (Tid W × Ev (sig W) (Task W))) (w : W) : Bool :=
  h.any fun x => x.1 = .worker w && alarm x.2

/-- What a worker alone changes: its phase, whether it serves a connection, and
    whether it has had a reason to leave its loop. -/
inductive Account where
  | other
  | worker (phase : Phase) (counted alarmed : Bool)

def account : Tid W → List (Tid W × Ev (sig W) (Task W)) → State W → Account
  | .worker w, h, s => .worker (s.phase w) (serves h w) (alarmed h w)
  | _, _, _ => .other

omit [DecidableEq W] in
/-- The account that a thread needs for an action of its task `l`. -/
def Admits (t : Tid W) (l : Task W) : Act W → Account → Prop
  | .deref w _, v => t = .worker w ∧ ∃ b d, v = .worker .atTop b d
  | .close w, v => t = .worker w ∧ ∃ fd b d, v = .worker (.serving fd) b d
  | .addConnectionCont, .worker p b _ => b = false ∧ p ≠ .terminated
  | .subConnectionCont, .worker p b _ => b = true ∧ p ≠ .terminated
  | .addConnectionCont, .other | .subConnectionCont, .other => False
  | .terminate w, v =>
    t = .worker w ∧ ∃ p b, v = .worker p b true ∧ (b = false ↔ l = .round w ∧ p = .atTop)
  | _, _ => True

omit [DecidableEq W] in
/-- The phase of a worker after its action. -/
def Act.phase : (a : Act W) → a.Ans → Phase → Phase
  | .deref _ _, fd, _ => .serving fd
  | .close _, _, _ => .atTop
  | .terminate _, _, _ => .terminated
  | _, _, p => p

omit [DecidableEq W] in
/-- Whether the worker serves a connection after its action. -/
def Act.counted : Act W → Bool → Bool
  | .addConnectionCont, _ => true
  | .subConnectionCont, _ | .terminate _, _ => false
  | _, b => b

omit [DecidableEq W] in
/-- How an action changes the account. -/
def Account.after : Account → (a : Act W) → a.Ans → Account
  | .other, _, _ => .other
  | .worker p b d, a, r => .worker (a.phase r p) (a.counted b) (alarm (.did a r) || d)

/-- Between its tasks a worker serves a connection just in this phase. -/
def Account.Balanced : Account → Prop
  | .worker (.serving _) b _ => b = true
  | .worker _ b _ => b = false
  | .other => True

/-- The program of task `l` of the thread `t` upholds the typestates. -/
abbrev Accounted (t : Tid W) (l : Task W) (v : Account) (p : Code W) : Prop :=
  p.Upholds (Admits t l) (fun a r v v' => v' = v.after a r) Account.Balanced v

omit [DecidableEq W] in
theorem hangup_accounted {fd : ℤ} {d : Bool} {l : Task W} (hl : l ≠ .round w) :
    Accounted (.worker w) l (.worker (.serving fd) true d) (hangup w) := by
  simp [Accounted, hangup, Upholds, Admits, Account.after, Act.phase, Act.counted, alarm,
    Account.Balanced, hl]

omit [DecidableEq W] in
theorem round_accounted {d : Bool} : Accounted (.worker w) (.round w) (.worker .atTop false d) (round w) := by
  simp [Accounted, round, Upholds, Admits, Account.after, Act.phase, Act.counted, alarm, Account.Balanced]

omit [DecidableEq W] in
theorem request_accounted {fd : ℤ} {d : Bool} {rq : Request} :
    Accounted (.worker w) (.request w rq) (.worker (.serving fd) true d) (request cfg w rq) := by
  have hcontroller : Accounted (.worker w) (.request w rq) (.worker (.serving fd) true d)
      (expand (into W) (fun a k => .act (.act a) k) .ret (controller cfg rq)) := by
    refine request_ind rq rfl ?_ ?_ ?_ ?_ ?_ ?_
    · exact fun a k hk => ⟨trivial, fun x v' hv => hv ▸ hk x⟩
    · exact fun m k hk => hk
    · exact fun m k hk => hk
    · exact fun cd k hk => hk
    · exact fun cd k hk => hk
    · exact fun x b k hk => ⟨trivial, fun y v' hv => ⟨hv, hk y⟩⟩
  refine ⟨trivial, fun b v' hv => ?_⟩
  cases hv
  exact upholds_ite.2 ⟨fun _ => hangup_accounted (by simp), fun _ => hcontroller⟩

theorem body_accounted {l : Task W} (hp : plays c t (.start l) = true)
    (hv : Account.Balanced (account t h c.st)) : Accounted t l (account t h c.st) (body cfg l) := by
  cases l with
  | main =>
    cases t with
    | main => simp [Accounted, body, main, Upholds, Admits, account, Account.after, Account.Balanced]
    | _ => cases hp
  | signal =>
    cases t with
    | signalThread =>
      simp [Accounted, body, signalThreadHandler, Upholds, Admits, account, Account.after, Account.Balanced]
    | _ => cases hp
  | round v =>
    cases t with
    | worker w =>
      obtain ⟨hw, hphase⟩ := Bool.and_eq_true_iff.1 hp
      obtain rfl := of_decide_eq_true hw
      rw [account, of_decide_eq_true hphase] at hv ⊢
      rw [show serves h v = false from hv]
      exact round_accounted
    | _ => cases hp
  | request v rq =>
    obtain ⟨rfl, fd, hphase⟩ := serving_of_plays (p := .request v rq) (Or.inl ⟨rq, rfl⟩) hp
    rw [account, hphase] at hv ⊢
    rw [show serves h v = true from hv]
    exact request_accounted
  | hangup v =>
    obtain ⟨rfl, fd, hphase⟩ := serving_of_plays (p := .hangup v) (Or.inr rfl) hp
    rw [account, hphase] at hv ⊢
    rw [show serves h v = true from hv]
    exact hangup_accounted (by simp)

theorem alarmed_concat : alarmed (h ++ [x]) w = (x.1 = .worker w && alarm x.2 || alarmed h w) := by
  rw [alarmed, List.any_append, Bool.or_comm, List.any_cons, List.any_nil, Bool.or_false]
  rfl

/-- An action changes the account of its thread as it should. -/
theorem account_after {l : Task W} (hn : Admits t l a (account t h s)) (hx : exec cfg a e s = some (r, s')) :
    account t (h ++ [(t, .did a r)]) s' = (account t h s).after a r := by
  cases t with
  | worker w =>
    obtain ⟨hphase, -⟩ := exec_counts hx
    rw [account, hphase, alarmed_concat, decide_eq_true rfl, Bool.true_and]
    cases a with
    | addConnectionCont =>
      rw [serves_create rfl]
      rfl
    | subConnectionCont =>
      rw [serves_drop rfl]
      rfl
    | deref v p | close v =>
      obtain ⟨hw, -⟩ := hn
      cases hw
      rw [serves_none rfl]
      exact congrArg (Account.worker · _ _) (Function.update_self _ _ _)
    | terminate v =>
      obtain ⟨hw, -⟩ := hn
      cases hw
      rw [serves_drop rfl]
      exact congrArg (Account.worker · _ _) (Function.update_self _ _ _)
    | conn a =>
      rw [serves_none rfl]
      cases a <;> rfl
    | _ =>
      rw [serves_none rfl]
      rfl
  | _ => rfl

/-- The other threads keep their accounts. -/
theorem account_other {l : Task W} (hu : u ≠ t) (hn : Admits t l a (account t h s))
    (hx : exec cfg a e s = some (r, s')) : account u (h ++ [(t, .did a r)]) s' = account u h s := by
  cases u with
  | worker w =>
    obtain ⟨hphase, -⟩ := exec_counts hx
    have hsame : s'.phase w = s.phase w := by
      rw [hphase]
      cases a with
      | deref v p | close v | terminate v =>
        obtain rfl : t = .worker v := hn.1
        exact Function.update_of_ne (fun he => hu (congrArg _ he)) _ _
      | _ => rfl
    rw [account, hsame, serves_other (Ne.symm hu), alarmed_concat, decide_eq_false (Ne.symm hu),
      Bool.false_and, Bool.false_or]
    rfl
  | _ => rfl

/-- Without an action the accounts are kept. -/
theorem account_quiet (hne : ∀ a r, ev ≠ .did a r) : account u (h ++ [(t, ev)]) s = account u h s := by
  cases u with
  | worker w =>
    cases ev with
    | did a r => exact absurd rfl (hne a r)
    | _ =>
      rw [account, serves_none (by cases t <;> rfl), alarmed_concat]
      simp [account, alarm]
  | _ => rfl

/-- What a worker has at most in the counter: also one that has terminated may be
    counted. -/
def Account.share : Account → ℤ
  | .worker p b _ => if b || p = .terminated then 1 else 0
  | .other => 0

theorem Account.share_le_one {v : Account} : v.share ≤ 1 := by
  cases v with
  | other => exact zero_le_one
  | worker p b d =>
    rw [share]
    split_ifs <;> decide

omit [DecidableEq W] in
/-- An action that needs the account adds to the counter no more than to the share. -/
theorem Admits.share_le {l : Task W} {v : Account} (hn : Admits t l a v) :
    v.share + a.counts ≤ (v.after a r).share := by
  cases v with
  | other =>
    cases a with
    | addConnectionCont | subConnectionCont => exact hn.elim
    | _ => exact le_rfl
  | worker p b d =>
    cases a with
    | addConnectionCont =>
      obtain ⟨rfl, hp⟩ := hn
      simp [Account.share, Account.after, Act.phase, Act.counted, Act.counts, hp]
    | subConnectionCont =>
      obtain ⟨rfl, hp⟩ := hn
      simp [Account.share, Account.after, Act.phase, Act.counted, Act.counts, hp]
    | deref w fd =>
      obtain ⟨-, b, d, hv⟩ := hn
      cases hv
      simp [Account.share, Account.after, Act.phase, Act.counted, Act.counts]
    | close w =>
      obtain ⟨-, fd, b, d, hv⟩ := hn
      cases hv
      simp [Account.share, Account.after, Act.phase, Act.counted, Act.counts]
    | terminate w => exact (Int.add_zero _).trans_le Account.share_le_one
    | _ => exact le_of_eq (Int.add_zero _)

def shares [Fintype W] (h : List (Tid W × Ev (sig W) (Task W))) (s : State W) : ℤ :=
  ∑ w, (account (.worker w) h s).share

omit [DecidableEq W] in
/-- A flag is set, or a worker has read `-1`. -/
def Ending (s : State W) : Prop := s.stopped = true ∨ (-1 : ℤ) ∈ s.conns.obtained

theorem Ending.exec (hd : Ending s) (hx : exec cfg a e s = some (r, s')) : Ending s' := by
  rcases hd with hs | hm
  · exact Or.inl (exec_stopped hx hs)
  · have hchange := exec_change hx
    cases hchange with
    | minor _ hs => exact Or.inr (hs.obtained ▸ hm)
    | read | deref => exact Or.inr (List.mem_append_left _ hm)
    | _ => exact Or.inr hm

theorem ending_of_alarm (hx : exec cfg a e s = some (r, s'))
    (ha : alarm (.did a r : Ev (sig W) (Task W)) = true) : Ending s' := by
  cases a with
  | conn a =>
    cases a with
    | testStop =>
      cases hx
      exact Or.inl ha
    | _ => cases ha
  | deref w p =>
    cases p
    cases hx
    exact Or.inr (List.mem_append_right _ (List.mem_singleton.2 (of_decide_eq_true ha).symm))
  | _ => cases ha

/-! ## The runs -/

section
variable (hr : Played cfg unset h c)
include hr

/-- The threads uphold the typestates. -/
theorem played_accounted (t : Tid W) : (c.thr t).Upholds (Admits t) (fun a r v v' => v' = v.after a r)
    Account.Balanced (account t h c.st) := by
  refine hr.upholds account Admits (fun _ a r v v' => v' = v.after a r) (fun _ => Account.Balanced)
    ?_ ?_ ?_ ?_ ?_ t
  · intro t
    cases t with
    | worker w => rfl
    | _ => trivial
  · exact fun h c t l ho hv => body_accounted ho hv
  · intro h c t l a r c' hr hst ho hn
    obtain ⟨e, hx⟩ := hst.exec_did
    exact account_after hn hx
  · exact fun h t u l a e s r s' hu hn hx => account_other hu hn hx
  · exact fun h t u ev s hne => account_quiet hne

/-- What an action of a task needs it finds. -/
theorem played_admits (hst : Step (exec cfg) (body cfg) t c (.did a r) c') :
    ∃ l, (c.thr t).task = some l ∧ Admits t l a (account t h c.st) :=
  (played_accounted hr t).of_upcoming (hst.upcoming_did (reach_follows hr.reach t)).1

/-- A worker that leaves its loop at another place than the top serves a connection. -/
theorem leavesAtTop_eq {r : Unit} (hst : Step (exec cfg) (body cfg) t c (.did (.terminate w) r) c') :
    t = .worker w ∧ alarmed h w = true ∧ leavesAtTop c t (.did (.terminate w) r) = !serves h w := by
  obtain ⟨l, hl, rfl, p, b, hv, hb⟩ := played_admits hr hst
  obtain ⟨rfl, rfl, hd⟩ := Account.worker.inj hv
  refine ⟨rfl, hd, ?_⟩
  rw [leavesAtTop, hl, Bool.eq_iff_iff]
  simp only [Option.some.injEq, Bool.and_eq_true, decide_eq_true_eq, Bool.not_eq_true', hb]

variable [Fintype W]

/-- A step makes the counter exceed by one more if a worker leaves its loop at
    another place than the top. -/
theorem step_excess (hst : Step (exec cfg) (body cfg) t c ev c') :
    excess (h ++ [(t, ev)]) c' = excess h c + if leavesAtTop c t ev then 0 else 1 := by
  cases ev with
  | did a r =>
    obtain ⟨e, hx⟩ := hst.exec_did
    obtain ⟨-, hcount⟩ := exec_counts hx
    obtain ⟨l, -, hn⟩ := played_admits hr hst
    rw [excess, excess, getNumConnections, getNumConnections, hcount]
    cases a with
    | addConnectionCont =>
      cases t with
      | worker w =>
        rw [serving_create rfl, Finset.card_insert_of_notMem (notMem_serving.2 hn.1)]
        simp only [Act.counts, leavesAtTop, if_true]
        omega
      | _ => exact hn.elim
    | subConnectionCont =>
      cases t with
      | worker w =>
        rw [serving_drop rfl, ← Finset.card_erase_add_one (mem_serving.2 hn.1)]
        simp only [Act.counts, leavesAtTop, if_true]
        omega
      | _ => exact hn.elim
    | terminate w =>
      obtain ⟨rfl, -, htop⟩ := leavesAtTop_eq hr hst
      have hsame : (Act.terminate w).counts = 0 := rfl
      rw [serving_drop rfl, htop, hsame]
      cases hw : serves h w with
      | true =>
        rw [← Finset.card_erase_add_one (mem_serving.2 hw)]
        simp only [Bool.not_true, Bool.false_eq_true, if_false]
        omega
      | false =>
        rw [Finset.erase_eq_of_notMem (notMem_serving.2 hw)]
        simp only [Bool.not_false, if_true]
        omega
    | _ =>
      rw [serving_none (by cases t <;> rfl)]
      simp [Act.counts, leavesAtTop]
  | _ =>
    rw [excess, excess, serving_none (by cases t <;> rfl)]
    rcases hst.st_cases with he | ⟨a, e, r, he, -⟩
    · simp [he, leavesAtTop]
    · cases he

/-- A step adds to the counter no more than to the shares. -/
theorem step_shares (hst : Step (exec cfg) (body cfg) t c ev c') :
    getNumConnections c'.st - shares (h ++ [(t, ev)]) c'.st ≤ getNumConnections c.st - shares h c.st := by
  have hsum : ∀ S : Finset W,
      (∀ v ∈ S, account (.worker v) (h ++ [(t, ev)]) c'.st = account (.worker v) h c.st) →
      ∑ v ∈ S, (account (.worker v) (h ++ [(t, ev)]) c'.st).share =
        ∑ v ∈ S, (account (.worker v) h c.st).share :=
    fun S hS => Finset.sum_congr rfl fun v hv => by rw [hS v hv]
  rw [shares, shares, getNumConnections, getNumConnections]
  cases ev with
  | did a r =>
    obtain ⟨e, hx⟩ := hst.exec_did
    obtain ⟨-, hcount⟩ := exec_counts hx
    obtain ⟨l, -, hn⟩ := played_admits hr hst
    have hshare := hn.share_le (r := r)
    rw [← account_after hn hx] at hshare
    rw [hcount]
    cases t with
    | worker w =>
      -- only the share of `w` changes
      have hrest := hsum (Finset.univ.erase w) fun v hv =>
        account_other (fun he => Finset.ne_of_mem_erase hv (Connection.Tid.worker.inj he)) hn hx
      rw [← Finset.add_sum_erase _ _ (Finset.mem_univ w), ← Finset.add_sum_erase _ _ (Finset.mem_univ w)]
      omega
    | _ =>
      have hall := hsum Finset.univ fun v _ => account_other (by simp) hn hx
      have hshare : 0 + a.counts ≤ 0 := hshare
      omega
  | _ =>
    rcases hst.st_cases with he | ⟨a, e, r, he, -⟩
    · have hall := hsum Finset.univ fun v _ => by
        rw [he]
        exact account_quiet fun a r hne => by cases hne
      rw [hall, he]
    · cases he

end

/-- Without a reason to leave its loop no worker does so. -/
theorem orderly_of_quiet (hr : Played cfg unset h c) (hq : ∀ x ∈ h, alarm x.2 = false) :
    Orderly cfg unset h c := by
  induction hr with
  | init => exact .init
  | @step h c c' t ev hr hst ho ih =>
    have hbefore : ∀ x ∈ h, alarm x.2 = false := fun x hx => hq x (List.mem_append_left _ hx)
    refine .step (ih hbefore) hst ⟨ho, ?_⟩
    cases ev with
    | did a r =>
      cases a with
      | terminate w =>
        obtain ⟨-, halarmed, -⟩ := leavesAtTop_eq hr hst
        obtain ⟨x, hx, hy⟩ := List.any_eq_true.1 halarmed
        rw [hbefore x hx, Bool.and_false] at hy
        cases hy
      | _ => rfl
    | _ => rfl

/-- A reason to leave the loop is a flag that is set, or a `-1` that has been read. -/
theorem played_ending (hr : Played cfg unset h c) (hx : x ∈ h) (ha : alarm x.2 = true) : Ending c.st := by
  induction hr with
  | init => cases hx
  | @step h c c' t ev hr hst ho ih =>
    rcases List.mem_append.1 hx with hx | hx
    · rcases hst.st_cases with he | ⟨a, e, r, -, hexec⟩
      · rw [he]
        exact ih hx
      · exact (ih hx).exec hexec
    · obtain rfl := List.mem_singleton.1 hx
      cases ev with
      | did a r =>
        obtain ⟨e, hexec⟩ := hst.exec_did
        exact ending_of_alarm hexec ha
      | _ => cases ha

/-- As long as no flag is set and no `-1` has been read, no worker leaves its loop. -/
theorem orderly_of_not_ending (hr : Played cfg unset h c) (hn : ¬ Ending c.st) : Orderly cfg unset h c := by
  refine orderly_of_quiet hr fun x hx => ?_
  by_contra ha
  exact hn (played_ending hr hx (Bool.eq_true_of_not_eq_false ha))

section
variable [Fintype W]

/-- The counter never falls short. -/
theorem excess_nonneg (hr : Played cfg unset h c) : 0 ≤ excess h c := by
  induction hr with
  | init => exact (by simp [excess, getNumConnections, Conf.init, State.init, serving, serves])
  | step hr hst _ ih =>
    rw [step_excess hr hst]
    split_ifs <;> omega

theorem Orderly.excess (hs : Orderly cfg unset h c) : excess h c = 0 := by
  induction hs with
  | init => simp [Daemon.excess, getNumConnections, Conf.init, State.init, serving, serves]
  | step hs hst ho ih => rw [step_excess (hs.mono fun _ _ _ ho => ho.1) hst, ih, if_pos ho.2, Int.add_zero]

theorem orderly_of_excess (hr : Played cfg unset h c) (h0 : excess h c = 0) : Orderly cfg unset h c := by
  induction hr with
  | init => exact .init
  | @step h c c' t ev hr hst ho ih =>
    have hnonneg := excess_nonneg hr
    rw [step_excess hr hst] at h0
    by_cases htop : leavesAtTop c t ev = true
    · rw [if_pos htop, Int.add_zero] at h0
      exact .step (ih h0) hst ⟨ho, htop⟩
    · -- the counter would have been too low before
      rw [if_neg htop] at h0
      omega

/-- **The connection counter.**  It is the number of the workers that serve a
    connection, if and only if each worker that has left its loop has done so
    at the top. -/
theorem getNumConnections_eq_iff (hr : Played cfg unset h c) :
    getNumConnections c.st = (serving h).card ↔ Orderly cfg unset h c := by
  have hexcess : excess h c = getNumConnections c.st - (serving h).card := rfl
  constructor
  · intro heq
    exact orderly_of_excess hr (by omega)
  · intro hs
    have hzero := hs.excess
    omega

/-- The count that is logged is not above the number of the connections under
    the same condition. -/
theorem getNumConnections_le_iff (hr : Played cfg unset h c) :
    getNumConnections c.st ≤ (serving h).card ↔ Orderly cfg unset h c := by
  have hexcess : excess h c = getNumConnections c.st - (serving h).card := rfl
  have hnonneg := excess_nonneg hr
  constructor
  · intro hle
    exact orderly_of_excess hr (by omega)
  · intro hs
    have hzero := hs.excess
    omega

/-- Until a flag is set or a `-1` has been read the counter is right. -/
theorem getNumConnections_eq (hr : Played cfg unset h c) (hn : ¬ Ending c.st) :
    getNumConnections c.st = (serving h).card :=
  sub_eq_zero.1 (orderly_of_not_ending hr hn).excess

/-- The counter is no more than the shares of the workers. -/
theorem getNumConnections_le_shares (hr : Played cfg unset h c) : getNumConnections c.st ≤ shares h c.st := by
  induction hr with
  | init => exact Finset.sum_nonneg fun w _ => le_rfl
  | step hr hst _ ih =>
    have hstep := step_shares hr hst
    omega

/-- The counter is never negative, and at most the number of the workers. -/
theorem getNumConnections_le_card (hr : Played cfg unset h c) :
    0 ≤ getNumConnections c.st ∧ getNumConnections c.st ≤ Fintype.card W := by
  have hexcess : excess h c = getNumConnections c.st - (serving h).card := rfl
  have hnonneg := excess_nonneg hr
  refine ⟨by omega, ?_⟩
  calc getNumConnections c.st
    _ ≤ ∑ w, (account (.worker w) h c.st).share := getNumConnections_le_shares hr
    _ ≤ ∑ _w : W, 1 := Finset.sum_le_sum fun w _ => Account.share_le_one
    _ = Fintype.card W := by simp

/-- The run of a schedule of a server with two workers. -/
def traced (xs : List (Tid (Fin 2) × Choice (Task (Fin 2)) Env (Tid (Fin 2)))) :
    Option (List (Tid (Fin 2) × Ev (sig (Fin 2)) (Task (Fin 2))) ×
      Conf (sig (Fin 2)) (State (Fin 2)) (Task (Fin 2)) (Tid (Fin 2))) :=
  trace (exec ⟨8, 4⟩) (body ⟨8, 4⟩) (fun c t ev => plays c t ev) xs [] (Conf.init (State.init (Fin 2) 0))

theorem traced_played {xs : List (Tid (Fin 2) × Choice (Task (Fin 2)) Env (Tid (Fin 2)))}
    {x : List (Tid (Fin 2) × Ev (sig (Fin 2)) (Task (Fin 2))) ×
      Conf (sig (Fin 2)) (State (Fin 2)) (Task (Fin 2)) (Tid (Fin 2))} (hx : x ∈ traced xs) :
    Played ⟨8, 4⟩ 0 x.1 x.2 :=
  trace_run xs .init hx

/-- A client closes its connection, and the worker counts it off. -/
theorem getNumConnections_hangup : ∃ h, ∃ c : Conf (sig (Fin 2)) (State (Fin 2)) (Task (Fin 2)) (Tid (Fin 2)),
    Played ⟨8, 4⟩ 0 h c ∧ getNumConnections c.st = 1 ∧ serving h = {1} ∧ Orderly ⟨8, 4⟩ 0 h c := by
  obtain ⟨⟨h, c⟩, hx, hn, hs⟩ : ∃ x ∈ traced (awaiting 0 ++ connecting 0 4 ++ awaiting 1 ++
        connecting 1 5 ++ (.worker 0, .start (.hangup 0)) :: steps (.worker 0) 4),
      getNumConnections x.2.st = 1 ∧ serving x.1 = {1} := by decide +kernel
  have hr : Played ⟨8, 4⟩ 0 h c := traced_played hx
  refine ⟨h, c, hr, hn, hs, (getNumConnections_eq_iff hr).1 ?_⟩
  rw [hn, hs]
  rfl

/-- The thread is about to write a line of the log. -/
def logs (t : Thread (sig W) (Task W)) : Bool :=
  match t.nextAct with
  | some (.act (.log _)) => true
  | _ => false

/-- After `SIGHUP` client 1 closes its connection, and the count written with
    the next request of client 2 is 2. -/
theorem getNumConnections_sighup :
    ∃ h, ∃ c : Conf (sig (Fin 2)) (State (Fin 2)) (Task (Fin 2)) (Tid (Fin 2)),
      Played ⟨8, 4⟩ 0 h c ∧ logs (c.thr (.worker 1)) = true ∧ getNumConnections c.st = 2 ∧
        serving h = {1} := by
  obtain ⟨⟨h, c⟩, hx, hp⟩ : ∃ x ∈ traced (awaiting 0 ++ connecting 0 4 ++ awaiting 1 ++ connecting 1 5 ++
        handling .SIGHUP ++ (.worker 0, .start (.hangup 0)) :: steps (.worker 0) 4 ++
        (.worker 1, .start (.request 1 ⟨2, .OP_OPEN_FILE, [47, 97], O_CREATE ||| O_LOCK, 0⟩)) ::
        steps (.worker 1) 1),
      logs (x.2.thr (.worker 1)) = true ∧ getNumConnections x.2.st = 2 ∧ serving x.1 = {1} := by
    decide +kernel
  exact ⟨h, c, traced_played hx, hp⟩

end

end Daemon

end FileStorage
