/-
  What the server still does after a signal.

  A flag that is set stays set, but a thread may be past its test of it.

  * `stopping`: after any of the signals `main` accepts at most one more
    connection.
  * `closing`: after `SIGINT` or `SIGQUIT` the threads that are not in a request
    never touch the store again, and the log grows by at most one record for
    each of the others.
-/
import FileStorage.Progress
import FileStorage.Records
import FileStorage.Sighup

namespace FileStorage

open Threads Prog

namespace Daemon

variable {W : Type} [DecidableEq W] {cfg : Config} {unset : ℤ}
  {c c' : Conf (sig W) (State W) (Task W) (Tid W)} {t : Tid W}

/-- The thread is in a request. -/
def inRequest (t : Thread (sig W) (Task W)) : Bool :=
  match t.task with
  | some (.request _ _) => true
  | _ => false

/-- The task is a request. -/
def Task.isRequest : Task W → Bool
  | .request _ _ => true
  | _ => false

/-! ## The actions -/

/-- An `accept`. -/
def acceptCosts (W : Type) : Costs (sig W) where
  act
    | .conn .accept => 1
    | _ => 0
  sync := 0
  notify := 0
  again := 0

/-- A record of the log. -/
def logCosts (W : Type) : Costs (sig W) where
  act
    | .act (.log _) => 1
    | _ => 0
  sync := 0
  notify := 0
  again := 0

/-- An action of a controller. -/
def touchCosts (W : Type) : Costs (sig W) where
  act
    | .act _ => 1
    | _ => 0
  sync := 0
  notify := 0
  again := 0

/-- The answers once a flag is set. -/
def Stopped : (a : Act W) → a.Ans → Prop
  | .testGo, go => go = false
  | _, _ => True

/-- The answers once `closeServer` is set. -/
def Closed : (a : Act W) → a.Ans → Prop
  | .testClose, b => b = true
  | _, _ => True

section
variable {a : Act W} {e : Env} {s s' : State W} {r : a.Ans}

theorem Change.closeServer (hc : Change s a r s') (hs : s.conns.closeServer = true) :
    s'.conns.closeServer = true := by
  cases hc with
  | minor _ hsame => rw [hsame.closeServer, hs]
  | interrupt => rfl
  | _ => exact hs

/-- Only an `accept` adds a descriptor. -/
theorem Change.accepted (hc : Change s a r s') :
    s'.conns.accepted.length ≤ s.conns.accepted.length + (acceptCosts W).act a := by
  cases hc with
  | minor _ hsame => rw [hsame.accepted]; exact Nat.le_add_right _ _
  | accept => simp [acceptCosts]
  | _ => exact Nat.le_add_right _ _

/-- Only a record adds to the log. -/
theorem exec_log (hx : exec cfg a e s = some (r, s')) : s.store.log <+: s'.store.log ∧
    s'.store.log.length ≤ s.store.log.length + (logCosts W).act a := by
  rcases exec_store hx with he | ⟨b, x, rfl, hb⟩
  · rw [he]
    exact ⟨List.prefix_rfl, Nat.le_add_right _ _⟩
  · have hlog : s'.store.log = s.store.log ++ recordsOf [⟨b, x⟩] := congrArg Prod.fst (exec_recorded hb)
    have hlen : (recordsOf [⟨b, x⟩]).length ≤ (logCosts W).act (.act b) := by
      cases b <;> simp [recordsOf, recordOf, logCosts]
    rw [hlog, List.length_append]
    exact ⟨List.prefix_append _ _, Nat.add_le_add_left hlen _⟩

end

/-! ## The programs -/

omit [DecidableEq W] in
/-- A controller writes at most one record. -/
theorem controller_logs (r : Request) :
    Weighs (S := workerSig) (fun _ _ => True) ((logCosts W).comap (into W)) (controller cfg r) 1 := by
  unfold controller
  cases r.operation with
  | OP_OPEN_FILE => simp [openFileController, Weighs, logRequest, Costs.comap, logCosts, into, Costs.attempt]
  | OP_APPEND_FILE =>
    simp [appendFileController, appendFileBody, sendBufferFileToClient, Weighs, logRequest, weighs_ite,
      Costs.comap, logCosts, into, Option.forall]
  | OP_READ_FILE =>
    simp [readFileController, sendFileToClient, Weighs, logRequest, weighs_ite, Costs.comap, logCosts, into,
      Option.forall]
  | OP_DELETE_FILE => simp [deleteFileController, Weighs, logRequest, Costs.comap, logCosts, into]
  | OP_WRITE_FILE =>
    simp [writeFileController, writeFileBody, sendBufferFileToClient, Weighs, logRequest, weighs_ite,
      Costs.comap, logCosts, into]
  | OP_CLOSE_FILE => simp [closeFileController, Weighs, logRequest, Costs.comap, logCosts, into]
  | OP_LOCK_FILE => simp [lockFileController, Weighs, logRequest, Costs.comap, logCosts, into, Costs.attempt]
  | OP_UNLOCK_FILE =>
    simp [unlockFileController, Weighs, logRequest, weighs_ite, Costs.comap, logCosts, into]
  | OP_READ_N_FILES =>
    simp [readnFileController, readnFileBody, Weighs, logRequest, weighs_ite, Costs.comap, logCosts, into,
      Option.forall]
  | unknown n => simp [Weighs, Costs.comap, logCosts]

omit [DecidableEq W] in
theorem request_logs (w : W) (r : Request) :
    Weighs (S := sig W) (fun _ _ => True) (logCosts W) (request cfg w r) 1 := by
  refine ⟨Nat.zero_le _, fun b _ => weighs_ite.2 ⟨fun _ => ?_, fun _ => ?_⟩⟩
  · simp [hangup, Weighs, weighs_ite, logCosts]
  · exact Weighs.expand (i := into W) (f := fun a k => .act (.act a) k) (q := .ret) (fun _ _ h => h)
      (fun _ h => h) (fun _ _ _ hn h => ⟨hn, h⟩) (controller_logs r)

omit [DecidableEq W] in
/-- Tasks that are no requests, and all tasks once `closeServer` is set, have no
    action of a controller. -/
theorem body_untouched {allow : (a : Act W) → a.Ans → Prop} {l : Task W}
    (hl : l.isRequest = false ∨ ∀ b, allow .testClose b → b = true) :
    Weighs (S := sig W) allow (touchCosts W) (body cfg l) 0 ∧
      Weighs (S := sig W) allow (logCosts W) (body cfg l) 0 := by
  cases l with
  | request w r =>
    have hclose := hl.resolve_left (by simp [Task.isRequest])
    refine ⟨⟨le_rfl, fun b hb => ?_⟩, ⟨le_rfl, fun b hb => ?_⟩⟩
    · rw [hclose b hb]
      simp [hangup, Weighs, weighs_ite, touchCosts]
    · rw [hclose b hb]
      simp [hangup, Weighs, weighs_ite, logCosts]
  | _ => simp [body, main, signalThreadHandler, round, hangup, Weighs, weighs_ite, touchCosts, logCosts,
      Costs.attempt]

omit [DecidableEq W] in
/-- Tasks other than `main`, and all tasks once a flag is set, accept nothing. -/
theorem body_rejects {allow : (a : Act W) → a.Ans → Prop} {l : Task W}
    (hl : l ≠ .main ∨ ∀ go, allow .testGo go → go = false) :
    Weighs (S := sig W) allow (acceptCosts W) (body cfg l) 0 := by
  cases l with
  | main =>
    refine ⟨le_rfl, fun go hgo => ?_⟩
    rw [hl.resolve_left (fun h => h rfl) go hgo]
    exact le_rfl
  | request w r =>
    refine ⟨le_rfl, fun b _ => weighs_ite.2 ⟨fun _ => ?_, fun _ => ?_⟩⟩
    · simp [hangup, Weighs, weighs_ite, acceptCosts]
    · exact Weighs.expand (i := into W) (f := fun a k => .act (.act a) k) (q := .ret) (fun _ _ h => h)
        (fun _ h => h) (fun _ _ _ hn h => ⟨hn, h⟩) (weighs_zero (fun _ => rfl) rfl rfl)
  | _ => simp [body, signalThreadHandler, round, hangup, Weighs, weighs_ite, acceptCosts, Costs.attempt]

omit [DecidableEq W] in
/-- A round of `main` accepts one connection. -/
theorem main_accepts : Weighs (S := sig W) (fun _ _ => True) (acceptCosts W) (body cfg .main) 1 := by
  simp [body, main, Weighs, weighs_ite, acceptCosts]

/-! ## After any of the signals -/

/-- Only `main` executes its loop. -/
theorem reach_main (h : Reached cfg unset c) : ∀ t, (c.thr t).task = some .main → t = .main := by
  refine Reach.invariant (I := fun c => ∀ t, (c.thr t).task = some .main → t = .main)
    (fun t ht => by cases ht) ?_ h
  intro c u ev c' _ hc hst ho t ht
  rcases hst.task_cases ht with ht | rfl
  · exact hc t ht
  · by_cases hu : t = u
    · subst hu
      cases t with
      | main => rfl
      | signalThread | worker => cases ho
    · rcases hst.other hu with he | ⟨l, cd, m, p, he, he'⟩
      · rw [he] at ht
        exact hc t ht
      · rw [he'] at ht
        exact hc t (by rw [he]; exact ht)

/-- What the tasks of a kind weigh at their start they weigh in every configuration. -/
theorem reach_weighs {κ : Costs (sig W)} {P : Task W → Prop} {n : ℕ} (hκ : κ.sync = 0 ∧ κ.again = 0)
    (hb : ∀ l, P l → (body cfg l).Weighs (fun _ _ => True) κ n) (h : Reached cfg unset c) {t : Tid W}
    {l : Task W} (hl : (c.thr t).task = some l) (hP : P l) :
    (c.thr t).Weighs (fun _ _ => True) κ n :=
  (h.weighs (I := fun _ => True) hκ (fun _ _ _ _ _ _ _ => trivial) (fun _ _ _ _ _ _ _ _ _ => trivial)
    (fun _ l _ _ hP => hb l hP) trivial (fun _ hl => by cases hl)).2 l hl hP

/-- The accepts that are still to come. -/
theorem loaded_accepts [Fintype W] (h : Reached cfg unset c) :
    Loaded (S := sig W) Stopped (acceptCosts W) c 1 := by
  refine ⟨fun t => if t = .main then 1 else 0, fun t => ?_, by simp⟩
  refine Thread.Weighs.of_imp (Thread.weighs_of_task fun l hl => ?_) fun _ _ _ => trivial
  by_cases hm : l = .main
  · subst hm
    show Thread.Weighs _ _ (c.thr t) (if t = .main then 1 else 0)
    rw [if_pos (reach_main h t hl)]
    exact reach_weighs (P := (· = .main)) ⟨rfl, rfl⟩ (fun l hl => hl ▸ main_accepts) h hl rfl
  · refine (reach_weighs (P := (· ≠ .main)) ⟨rfl, rfl⟩ (fun l hl => ?_) h hl hm).mono (Nat.zero_le _)
    exact body_rejects (Or.inl hl)

/-- The records that are still to come. -/
theorem loaded_logs [Fintype W] (h : Reached cfg unset c) : Loaded (S := sig W) Closed (logCosts W) c
    (Finset.univ.filter fun t => inRequest (c.thr t) = true).card := by
  refine ⟨fun t => if inRequest (c.thr t) = true then 1 else 0, fun t => ?_, by
    rw [Finset.card_filter]⟩
  refine Thread.Weighs.of_imp (Thread.weighs_of_task fun l hl => ?_) fun _ _ _ => trivial
  cases l with
  | request w r =>
    have hin : inRequest (c.thr t) = true := by rw [inRequest, hl]
    show Thread.Weighs _ _ (c.thr t) (if inRequest (c.thr t) = true then 1 else 0)
    rw [if_pos hin]
    refine reach_weighs (P := fun l => ∃ w r, l = .request w r) ⟨rfl, rfl⟩ ?_ h hl ⟨w, r, rfl⟩
    rintro l ⟨w, r, rfl⟩
    exact request_logs w r
  | _ =>
    refine (reach_weighs (P := fun l => l.isRequest = false) ⟨rfl, rfl⟩ (fun l hl => ?_) h hl rfl).mono
      (Nat.zero_le _)
    exact (body_untouched (Or.inl hl)).2

/-- **After any of the signals** `main` accepts at most one more connection. -/
theorem stopping [Fintype W] (h : Reached cfg unset c) (hs : c.st.stopped = true)
    (h' : Reach (exec cfg) (body cfg) (fun c t ev => plays c t ev = true) c c') :
    c'.st.conns.accepted.length ≤ c.st.conns.accepted.length + 1 := by
  -- the condition of the loop of `main` fails
  have hallow : ∀ (c : Conf (sig W) (State W) (Task W) (Tid W)) (t : Tid W) a e r s,
      c.st.stopped = true → plays c t (.did a r) = true →
      exec cfg a e c.st = some (r, s) → Stopped a r := by
    intro c t a e r s hi _ hx
    cases a with
    | testGo =>
      cases hx
      show (!c.st.stopped) = false
      rw [hi, Bool.not_true]
    | _ => trivial
  obtain ⟨-, N, -, hle⟩ := h'.loaded (m := fun s => s.conns.accepted.length)
    (I := fun c => c.st.stopped = true) ⟨rfl, rfl⟩ (fun c t ev c' hi hst _ => step_stopped hst hi)
    hallow (fun c t a e r s _ _ hx => (exec_change hx).accepted)
    (fun c t l _ _ => body_rejects (Or.inr fun go hgo => hgo)) hs (loaded_accepts h)
  exact Nat.le_of_add_right_le hle

/-- Run a schedule of two workers. -/
def going (xs : List (Tid (Fin 2) × Choice (Task (Fin 2)) Env (Tid (Fin 2))))
    (c : Conf (sig (Fin 2)) (State (Fin 2)) (Task (Fin 2)) (Tid (Fin 2))) :
    Option (Conf (sig (Fin 2)) (State (Fin 2)) (Task (Fin 2)) (Tid (Fin 2))) :=
  sched (exec ⟨8, 4⟩) (body ⟨8, 4⟩) (fun c t ev => plays c t ev) xs c

/-- `SIGHUP` arrives when `main` has tested the flag, and one more client connects. -/
theorem stopping_accepts : ∃ c c' : Conf (sig (Fin 2)) (State (Fin 2)) (Task (Fin 2)) (Tid (Fin 2)),
    Reached ⟨8, 4⟩ 0 c ∧ c.st.stopped = true ∧ c.st.conns.accepted = [] ∧ c'.st.conns.accepted = [4] ∧
      c'.st.conns.accepted.length ≤ c.st.conns.accepted.length + 1 := by
  obtain ⟨c, hc, c', hc', hs, ha, ha'⟩ : ∃ c ∈ going ((.main, .start .main) :: steps .main 1 ++
        (.signalThread, .start (.signal .SIGHUP)) :: steps .signalThread 1) (Conf.init (State.init (Fin 2) 0)),
      ∃ c' ∈ going [(.main, .go ⟨⟨true, [], 0, NULL⟩, some 4⟩)] c, c.st.stopped = true ∧
        c.st.conns.accepted = [] ∧ c'.st.conns.accepted = [4] := by decide +kernel
  have hr : Reached ⟨8, 4⟩ 0 c := sched_reach _ .init hc
  exact ⟨c, c', hr, hs, ha, ha', stopping hr hs (sched_reach _ .init hc')⟩

/-! ## After `SIGINT` or `SIGQUIT` -/

/-- **After `closeServer` is set** a thread that is not in a request never comes
    to an action of a controller, and the log grows by at most one record for
    each of the threads that are in one. -/
theorem closing [Fintype W] (h : Reached cfg unset c) (hs : c.st.conns.closeServer = true)
    (h' : Reach (exec cfg) (body cfg) (fun c t ev => plays c t ev = true) c c') :
    (∀ t a, inRequest (c.thr t) = false → (c'.thr t).nextAct ≠ some (.act a)) ∧
      c.st.store.log <+: c'.st.store.log ∧ c'.st.store.log.length ≤
        c.st.store.log.length + (Finset.univ.filter fun t => inRequest (c.thr t) = true).card := by
  have hclosed : ∀ c (t : Tid W) ev c', c.st.conns.closeServer = true →
      Step (exec cfg) (body cfg) t c ev c' → plays c t ev = true → c'.st.conns.closeServer = true := by
    intro c t ev c' hi hst _
    rcases hst.st_cases with he | ⟨a, e, r, -, hx⟩
    · rw [he, hi]
    · exact (exec_change hx).closeServer hi
  -- a request that is read now is not served
  have hallow : ∀ (c : Conf (sig W) (State W) (Task W) (Tid W)) (t : Tid W) a e r s,
      c.st.conns.closeServer = true → plays c t (.did a r) = true →
      exec cfg a e c.st = some (r, s) → Closed a r := by
    intro c t a e r s hi _ hx
    cases a with
    | testClose =>
      cases hx
      exact hi
    | _ => trivial
  refine ⟨fun t a ht ha => ?_, ?_, ?_⟩
  · have hnow : ∀ l, (c.thr t).task = some l → True → (c.thr t).Weighs Closed (touchCosts W) 0 := by
      intro l hl _
      have hreq : l.isRequest = false := by
        rw [inRequest, hl] at ht
        cases l <;> first | rfl | cases ht
      refine (reach_weighs (P := fun l => l.isRequest = false) ⟨rfl, rfl⟩ (fun l hl => ?_) h hl
        hreq).of_imp fun _ _ _ => trivial
      exact (body_untouched (Or.inl hl)).1
    obtain ⟨-, hw⟩ := h'.weighs (I := fun c => c.st.conns.closeServer = true) (P := fun _ => True)
      ⟨rfl, rfl⟩ hclosed hallow (fun _ _ _ _ _ => (body_untouched (Or.inr fun _ hb => hb)).1) hs hnow
    have hle := (Thread.weighs_of_task fun l hl => hw l hl trivial).of_nextAct ha
    exact absurd hle (by simp [touchCosts])
  · refine Reach.invariant (I := fun c' => c.st.store.log <+: c'.st.store.log) List.prefix_rfl ?_ h'
    intro c₁ t ev c₂ _ hi hst _
    rcases hst.st_cases with he | ⟨a, e, r, -, hx⟩
    · rw [he]
      exact hi
    · exact hi.trans (exec_log hx).1
  · obtain ⟨-, N, -, hle⟩ := h'.loaded (m := fun s => s.store.log.length)
      (I := fun c => c.st.conns.closeServer = true) ⟨rfl, rfl⟩ hclosed hallow
      (fun c t a e r s _ _ hx => (exec_log hx).2)
      (fun c t l _ _ => (body_untouched (Or.inr fun _ hb => hb)).2) hs (loaded_logs h)
    exact Nat.le_of_add_right_le hle

/-- `SIGINT` arrives when worker 0 has read a request, which it still serves. -/
theorem closing_serving : ∃ c c' : Conf (sig (Fin 2)) (State (Fin 2)) (Task (Fin 2)) (Tid (Fin 2)),
    Reached ⟨8, 4⟩ 0 c ∧ c.st.conns.closeServer = true ∧ c.st.store.log = [] ∧
      c'.st.store.log.length = 1 ∧
      (∀ t a, inRequest (c.thr t) = false → (c'.thr t).nextAct ≠ some (.act a)) ∧
      c.st.store.log <+: c'.st.store.log ∧ c'.st.store.log.length ≤
        c.st.store.log.length + (Finset.univ.filter fun t => inRequest (c.thr t) = true).card := by
  obtain ⟨c, hc, c', hc', hs, hl, hl'⟩ : ∃ c ∈ going (awaiting 0 ++ connecting 0 4 ++
        (.worker 0, .start (.request 0 ⟨1, .OP_OPEN_FILE, [47, 97], O_CREATE, 0⟩)) :: steps (.worker 0) 1 ++
        (.signalThread, .start (.signal .SIGINT)) :: steps .signalThread 1) (Conf.init (State.init (Fin 2) 0)),
      ∃ c' ∈ going (steps (.worker 0) 8) c, c.st.conns.closeServer = true ∧
        c.st.store.log = [] ∧ c'.st.store.log.length = 1 := by decide +kernel
  have hr : Reached ⟨8, 4⟩ 0 c := sched_reach _ .init hc
  exact ⟨c, c', hr, hs, hl, hl', closing hr hs (sched_reach _ .init hc')⟩

end Daemon

end FileStorage
