/-
  The sessions come to an end.

  * `somebody_moves`: if no client has an option `-l`, then in every run that
    avoids the two exits that keep `file_queue_mutex`, an unanswered write and
    the removal of a file that is waited for, somebody can move until all
    clients have ended, with no file locked, unless a process is killed.
  * `sessions_end`: every run without spurious wake-ups is finite.
-/
import FileStorage.Clients
import FileStorage.Progress
import FileStorage.Waiters
import FileStorage.Threads.Completion

namespace FileStorage

open Threads Duplex

/-! ## Actions -/

section
variable {cfg : Config} {s s' : Server}

theorem workerLabels_tells {a : Act} {e : Env} {l : Label ToClient ToServer} {y : a.Ans}
    (hl : workerLabels a e = some l) (hx : exec cfg a e s = some (y, s')) : workerTells a y = some l := by
  cases a with
  | call | log | incNumFileReplacement => exact hl
  | write | writeBytes =>
    cases hx
    exact hl
  | readData size =>
    cases hx
    obtain ⟨hlen, rfl⟩ := takes_received hl
    exact takes_self hlen
  | read size =>
    cases hx
    simp only [workerLabels] at hl
    split_ifs at hl with hok
    obtain ⟨hlen, rfl⟩ := takes_received hl
    simp only [workerTells, hok, if_true]
    exact takes_self hlen
  | crash => cases hx

/-- What is read is a block of the size asked for. -/
theorem takes_rcv {O I : Type} {m : List Byte → I} {m' : I} {size : ℕ} {buf : List Byte}
    (h : takes (O := O) m size buf = some (.rcv m')) : m' = m buf ∧ buf.length = size := by
  rw [takes] at h
  split_ifs at h with h0 hb
  · cases h
  · cases h
    exact ⟨rfl, hb⟩

theorem exists_length (n : ℕ) : ∃ buf : List Byte, buf.length = n := ⟨List.replicate n 0, List.length_replicate⟩

/-- What a worker can do it can do with what is in flight. -/
theorem worker_able {a : Act} (h : ∃ e y s', exec cfg a e s = some (y, s')) :
    Able (exec cfg) workerLabels workerTells a s := by
  obtain ⟨e, y, s', hx⟩ := h
  cases a with
  | call | log | incNumFileReplacement => exact .silent e rfl hx
  | write response => exact Or.inl ⟨.fair [], _, true, s, rfl, rfl, nofun⟩
  | writeBytes buf => exact (worker_writes buf).able
  | readData size =>
    refine (worker_readData size).able (exists_length size) (fun _ _ _ _ => workerLabels_tells) fun x m hm => ?_
    exact ⟨x.1, takes_rcv hm⟩
  | read size =>
    refine (worker_read size).able (exists_length size) (fun _ _ _ _ => workerLabels_tells) fun x m hm => ?_
    obtain ⟨buf, -, hm⟩ := Option.bind_eq_some_iff.1 hm
    exact ⟨buf, takes_rcv hm⟩
  | crash => cases hx

/-- A worker reads blocks. -/
theorem workerTells_bytes {a : Act} {y : a.Ans} {m : ToServer} (h : workerTells a y = some (.rcv m)) :
    ∃ buf, m = .bytes buf := by
  cases a with
  | readData size => exact ⟨_, (takes_rcv h).1⟩
  | read size =>
    obtain ⟨buf, -, h⟩ := Option.bind_eq_some_iff.1 h
    exact ⟨_, (takes_rcv h).1⟩
  | write =>
    simp only [workerTells] at h
    split_ifs at h
    cases h
  | writeBytes =>
    simp only [workerTells, sends] at h
    split_ifs at h <;> cases h
  | call | log | incNumFileReplacement | crash => cases h

/-- A client is killed, or performs its action with what is in flight. -/
theorem client_able {a : ClientAct} {t : Option ℤ} : (∀ e, clientExec a e t = none) ∨
    Able clientExec clientLabels clientTells a t := by
  have htell : ∀ (e : ClientEnv) l (r : a.Ans) t', clientLabels a e = some l →
      clientExec a e t = some (r, t') → clientTells a r = some l := fun e l r t' hl hx =>
    (clientLabels_tells hl hx : _ ∧ (clientManners (fun _ _ => True) ∅).next a r () ()).1
  cases a with
  | newRequest | returns => exact Or.inr (.silent (nextEnv none) rfl rfl)
  | write r => exact Or.inr (Or.inl ⟨.fair (respond 0 []) [], _, true, t, rfl, rfl, nofun⟩)
  | writeBytes buf => exact Or.inr (client_writes buf).able
  | readResponse =>
    refine Or.inr (Or.inr ⟨⟨some (respond 0 []), _, rfl⟩, fun r m hm => ?_⟩)
    obtain ⟨x, -, he⟩ := Option.map_eq_some_iff.1 hm
    cases he
    exact ⟨.fair x [], some x, t, rfl, rfl⟩
  | readData size =>
    refine Or.inr ((client_readData size).able (exists_length size) htell fun x m hm => ?_)
    exact ⟨x.1, takes_rcv hm⟩
  | read size =>
    refine Or.inr ((client_read size).able (exists_length size) htell fun x m hm => ?_)
    obtain ⟨buf, -, hm⟩ := Option.bind_eq_some_iff.1 hm
    exact ⟨buf, takes_rcv hm⟩
  | saveFileDir buf dirname fileName =>
    by_cases hn : 47 ∈ fileName
    · exact Or.inr (.silent (nextEnv none) rfl (if_pos hn))
    · exact Or.inl fun e => if_neg hn

end

/-! ## Standstill -/

/-- Steps that do not lead to an exit that keeps `file_queue_mutex`, do not remove
    a file that is waited for, and answer what they read. -/
structure Smooth {W : Type} (cfg : Config) (c : Conf workerSig Server Request W) (w : W)
    (ev : Ev workerSig Request) : Prop where
  bytes : ExpelsBytes ev
  replies : Replies ev
  exits : AvoidsExits cfg c w ev
  spares : SparesWaited c w ev

namespace Clients
variable {W : Type} [DecidableEq W] {C : Clients W} {cfg : Config} {n : Net W} {w : W}
  {p : W → Talk} {v : W → Talk × Set CString}

/-- The networks of such runs. -/
abbrev Smoothly (C : Clients W) (cfg : Config) (n : Net W) : Prop :=
  Network.Reach (system cfg) (Smooth cfg) C.start n

/-- Somebody makes a step, other than to wake up without having been woken. -/
def Moves (cfg : Config) (n : Net W) : Prop := ∃ n', Network.Proceeds (system cfg) n n'

/-- All have ended, and nothing is in flight. -/
structure Finished (n : Net W) : Prop where
  peer : ∀ w, (n.peer w).1 = .ret
  idle : ∀ w, n.server.thr w = .idle
  up : ∀ w, n.up w = []
  down : ∀ w, n.down w = []

/-- A client or the server is killed. -/
def Dies (cfg : Config) (n : Net W) : Prop :=
  (∃ w, client.dead (n.peer w)) ∨ ∃ w, Stuck (exec cfg) n.server w

/-- The worker of `w` sleeps for a file that another client has locked by an option
    `-l`. -/
def WaitsFor (C : Clients W) (n : Net W) (w u : W) : Prop :=
  ∃ r cd m x f, n.server.thr w = .asleep r cd m x ∧ getFileNode n.server.st.fileQueue r.filepath = some f ∧
    u ≠ w ∧ f.clientId = (C.host u).pid ∧ f.pathname ∈ lockedBy (C.host u) (C.opts u)

/-- The events of runs that are smooth whatever the state. -/
def smooth (cfg : Config) (ev : Ev workerSig Request) : Bool :=
  expelsBytes ev && sparesAll ev && match ev with
    | .start r => decide (¬ r.tooBig cfg)
    | .did (.call (.getNFileList _)) _ => false
    | .did (.readData _) x => decide (x.2 ≠ -1)
    | _ => true

omit [DecidableEq W] in
theorem smooth_sound {c : Conf workerSig Server Request W} {ev : Ev workerSig Request}
    (h : smooth cfg ev = true) : Smooth cfg c w ev := by
  simp only [smooth, Bool.and_eq_true] at h
  obtain ⟨⟨hbytes, hspares⟩, h⟩ := h
  refine ⟨expelsBytes_iff.1 hbytes, ?_, ?_, sparesAll_spares hspares⟩
  · cases ev with
    | did a x =>
      cases a with
      | readData =>
        show x.2 ≠ -1
        exact of_decide_eq_true h
      | _ => trivial
    | _ => trivial
  · cases ev with
    | start r =>
      show ¬ r.tooBig cfg
      exact of_decide_eq_true h
    | did a x =>
      cases a with
      | call y =>
        cases y with
        | getNFileList => cases h
        | _ => trivial
      | _ => trivial
    | sync => trivial

theorem run_smoothly {xs : List (W × Bool)} (h : C.run cfg (smooth cfg) xs = some n) : C.Smoothly cfg n :=
  Network.play_reach Network.speak_step (fun _ _ _ => smooth_sound) xs .init h

/-- A client moves, has been killed or has ended, or waits for its worker. -/
theorem Inv.client_goes (h : C.Inv cfg True n p v) (w : W) : Moves cfg n ∨ Dies cfg n ∨
    (n.peer w).1 = .ret ∨ n.down w = [] ∧ ∃ m q, Talk.Down (Genuine C.host) (p w) m q := by
  have hpeer := h.peer w
  unfold InSession at hpeer
  have hstep : ∀ {l c us ds}, client.step (n.peer w) l c → l.Carries (n.up w) (n.down w) us ds → Moves cfg n :=
    fun hst hc => ⟨_, w, none, .peer hst hc, nofun⟩
  generalize hx : n.peer w = x at hpeer hstep
  obtain ⟨code, t⟩ := x
  cases code with
  | ret => exact Or.inr (Or.inr (Or.inl rfl))
  | lock m | unlock m | wait _ m | await _ _ _ _ m => exact m.elim
  | signal cd | broadcast cd => exact cd.elim
  | act a k =>
    obtain hdead | ⟨e, l, r, t', hl, hx, hno⟩ | ⟨⟨r, m, hr⟩, htake⟩ := @client_able a t
    · exact Or.inr (Or.inl (Or.inl ⟨w, by rw [hx]; exact ⟨a, k, rfl, hdead⟩⟩))
    · obtain ⟨us, hc⟩ := exists_carries hno (n.up w) (n.down w)
      exact Or.inl (hstep (.act hl hx) hc)
    · cases hd : n.down w with
      | nil =>
        obtain ⟨m', q, hq⟩ := hpeer.1.turn r m hr
        exact Or.inr (Or.inr (Or.inr ⟨rfl, m', q, hq⟩))
      | cons m' ds =>
        have hal := h.aligned w
        rw [hd] at hal
        obtain ⟨q, hq⟩ := hal.expected
        obtain ⟨r', hr'⟩ := hpeer.1.read r m hr m' q hq
        obtain ⟨e, r'', t', hl, hx⟩ := htake r' m' hr'
        exact Or.inl (hstep (.act hl hx) ⟨rfl, hd⟩)

/-- A client whose turn it is, with nothing in flight, moves. -/
theorem Inv.client_turn (h : C.Inv cfg True n p v) (hu : n.up w = []) {m : ToServer} {q : Talk}
    (hq : Talk.Up (Genuine C.host) (C.host w).pid (C.locks w) (v w).1 m q)
    (hbetween : (v w).1.stage ≠ .between) : Moves cfg n ∨ Dies cfg n := by
  have hal := h.aligned w
  obtain hm | hd | hret | ⟨hd, m', q', hdown⟩ := h.client_goes w
  · exact Or.inl hm
  · exact Or.inr hd
  · exact absurd (h.returned hret).2.2.1 hbetween
  · -- the two parties are in the same state
    rw [hu, hd] at hal
    rw [hal.same] at hdown
    exact absurd hdown ((C.protocol w).turn hq)

/-- An idle worker has a request to take, or its client moves or has ended. -/
theorem Inv.idle_goes (h : C.Inv cfg True n p v) (ht : n.server.thr w = .idle) :
    Moves cfg n ∨ Dies cfg n ∨ (n.peer w).1 = .ret ∧ n.up w = [] ∧ n.down w = [] := by
  have hal := h.aligned w
  cases hu : n.up w with
  | cons m us =>
    obtain ⟨r, rfl, -⟩ := h.request_first ht hu
    refine Or.inl ⟨_, w, _, .thread (.start r ht) rfl ⟨rfl, hu⟩, fun _ l cd m k he => ?_⟩
    rw [ht] at he
    cases he
  | nil =>
    have hpost := h.thread w
    rw [ht] at hpost
    have hstage : (v w).1.stage = .between := hpost.1.resolve_right fun hs => hs.1 trivial
    obtain hm | hd | hret | ⟨hd, m', q', hdown⟩ := h.client_goes w
    · exact Or.inl hm
    · exact Or.inr (Or.inl hd)
    · exact Or.inr (Or.inr ⟨hret, rfl, (h.returned hret).2.1⟩)
    · rw [hu, hd] at hal
      rw [hal.same] at hdown
      exact absurd hstage (Talk.Down.stage hdown)

/-- A worker that can go on does so, or its client moves. -/
theorem Inv.worker_goes (h : C.Inv cfg True n p v) (hw : Goes (exec cfg) (controller cfg) n.server w) :
    Moves cfg n ∨ Dies cfg n := by
  obtain ⟨e, n', hst⟩ | ⟨hu, a, r, m, ha, hr⟩ :=
    h.goes_on hw (fun _ _ _ _ _ => workerLabels_tells) fun _ => worker_able
  · refine Or.inl ⟨n', w, _, hst, fun _ l cd m k he => ?_⟩
    have hrest := hw.1
    rw [he] at hrest
    cases hrest
  · have hsuit := (h.need (Thread.upcoming_of_nextAct ha)).1
    obtain ⟨m', q, hq⟩ := hsuit.turn r m hr
    refine h.client_turn hu hq fun hbetween => ?_
    obtain ⟨x, rfl, -⟩ | ⟨x, hx⟩ := Talk.Up.between hq
    · obtain ⟨y, hy⟩ := hsuit.read r m hr _ q hq
      obtain ⟨buf, he⟩ := workerTells_bytes hy
      cases he
    · rw [hx] at hbetween
      cases hbetween

/-! ## Runs -/

theorem Smoothly.inv (h : C.Smoothly cfg n) : ∃ p v, C.Inv cfg True n p v :=
  Network.Reach.inv (keeps fun _ _ _ ho => ⟨ho.bytes, fun _ => ho.replies⟩) start_inv h

/-- A worker on its way, or another one, goes on. -/
theorem Smoothly.goes_on (h : C.Smoothly cfg n) (hw : (n.server.thr w).atRest = false) :
    ∃ u, Goes (exec cfg) (controller cfg) n.server u ∨ Stuck (exec cfg) n.server u := by
  have hr := h.server.strengthen fun c hc => (reach_reachable hc).wf
  have hrank : ∀ m : Mutex, m.rank < 2 := fun m => by cases m <;> decide
  have hprog : (∃ u, Relation.ReflTransGen (WaitsOn n.server) w u ∧
      (Goes (exec cfg) (controller cfg) n.server u ∨ Stuck (exec cfg) n.server u)) ∨
      Retained (S := workerSig) ∅ n.server := by
    refine hr.goes_on hrank (fun c u r ho => controller_ordered (Or.inr ⟨rfl, ho.1.exits⟩))
      (fun c u a e x s ho hx _ => ?_) hw
    refine Daemon.listed_of_exec ho.2 hx fun N ha => ?_
    subst ha
    exact ho.1.exits
  obtain ⟨u, -, hu⟩ := hprog.resolve_right fun ⟨m, hm, _⟩ => hm
  exact ⟨u, hu⟩

/-- A worker that waits for a lock speaks for its client, which holds files of its
    options `-l` only. -/
theorem Inv.asleep (h : C.Inv cfg True n p v) (hr : C.Smoothly cfg n) {r : Request} {cd : Cond} {m : Mutex}
    {x : Code} (hw : n.server.thr w = .asleep r cd m x) : r.clientId = (C.host w).pid ∧ (v w).2 ⊆ C.locks w := by
  have hsh := reach_shaped hr.server w
  rw [hw] at hsh
  obtain ⟨a, b, us, k, rfl, hloop, -⟩ := hsh
  have hup : (n.server.thr w).upcoming = some a := by
    rw [hw]
    rfl
  have hneed := (h.need hup).2
  cases hloop with
  | opens => exact ⟨hneed.2.1, hneed.2.2.2⟩
  | locks => exact ⟨hneed.2.1, hneed.2.2⟩

/-- The first client has opened the file `/a` to upload it, and the second one waits
    to read it. -/
def opening : List (Bool × Bool) :=
  turns true [(true, 2), (false, 9)] ++ turns false [(true, 2), (false, 7)]

end Clients

end FileStorage
