/-
  Interleaved execution of thread programs.

  A configuration holds the shared state, the owner of each mutex and the state
  of each thread.  A thread between two tasks is `idle`; it starts the program
  of any task `l` and becomes idle again when the program returns.  Each step
  is one action or one operation on a mutex or a condition variable of one
  thread, so that a run of `Step`s is an arbitrary interleaving.

  `unlock` frees the mutex whoever owns it, as a mutex without owner check
  does.  A sleeping thread may wake up without having been signalled.

  * `Reach ok` are the configurations reached by steps that satisfy `ok`, a
    condition on the configuration before the step, the thread and the event.
  * `Reach.invariant` is the rule of invariants, `Step.other` is the frame of
    a step.
  * `fire` executes a step; `Sched` runs a schedule (`Sched.reach`).
-/
import FileStorage.Threads.Prog

namespace Threads

variable {S : Sig} {σ E L W : Type}

/-- The state of a thread with task `l`. -/
inductive Thread (S : Sig) (L : Type) where
  | idle
  | run (l : L) (p : Prog S)
  /-- asleep on `c`; it owned `m` and goes on with `p` -/
  | asleep (l : L) (c : S.Cond) (m : S.Mutex) (p : Prog S)
  /-- woken up, but `m` is not yet taken again -/
  | woken (l : L) (m : S.Mutex) (p : Prog S)

def Thread.isWoken : Thread S L → Bool
  | .woken _ _ _ => true
  | _ => false

/-- The thread is idle or asleep. -/
def Thread.atRest : Thread S L → Bool
  | .idle | .asleep _ _ _ _ => true
  | _ => false

/-- The task of a thread. -/
def Thread.task : Thread S L → Option L
  | .idle => none
  | .run l _ | .asleep l _ _ _ | .woken l _ _ => some l

/-- The action that the thread performs in its next step. -/
def Thread.nextAct : Thread S L → Option S.Act
  | .run _ (.act a _) | .run _ (.await a _ _ _ _ _) => some a
  | _ => none

/-- The next action of a program on the path it is on. -/
def Prog.upcoming : Prog S → Option S.Act
  | .ret => none
  | .act a _ | .await a _ _ _ _ _ => some a
  | .lock _ k | .unlock _ k | .signal _ k | .broadcast _ k | .wait _ _ k => upcoming k

/-- The next action of a thread. -/
def Thread.upcoming : Thread S L → Option S.Act
  | .idle => none
  | .run _ p | .asleep _ _ _ p | .woken _ _ p => p.upcoming

/-- What a step does. -/
inductive Ev (S : Sig) (L : Type) where
  | start (l : L)
  | did (a : S.Act) (r : S.Ans a)
  | sync

structure Conf (S : Sig) (σ L W : Type) where
  st : σ
  owner : S.Mutex → Option W
  thr : W → Thread S L

/-- All threads idle, no mutex taken. -/
def Conf.init (s : σ) : Conf S σ L W := ⟨s, fun _ => none, fun _ => .idle⟩

/-- A thread asleep on `c` wakes up. -/
def Thread.wake [DecidableEq S.Cond] (c : S.Cond) : Thread S L → Thread S L
  | .asleep l c' m p => if c' = c then .woken l m p else .asleep l c' m p
  | t => t

section
variable [DecidableEq W]

/-- Thread `w` is now in the state `t`. -/
def Conf.set (c : Conf S σ L W) (w : W) (t : Thread S L) : Conf S σ L W :=
  { c with thr := Function.update c.thr w t }

@[simp] theorem Conf.set_st (c : Conf S σ L W) (w : W) (t : Thread S L) : (c.set w t).st = c.st := rfl

@[simp] theorem Conf.set_owner (c : Conf S σ L W) (w : W) (t : Thread S L) :
    (c.set w t).owner = c.owner := rfl

@[simp] theorem Conf.set_self (c : Conf S σ L W) (w : W) (t : Thread S L) : (c.set w t).thr w = t := by
  simp [Conf.set]

@[simp] theorem Conf.set_ne (c : Conf S σ L W) {w v : W} (t : Thread S L) (h : v ≠ w) :
    (c.set w t).thr v = c.thr v := by
  simp [Conf.set, h]

variable [DecidableEq S.Mutex] [DecidableEq S.Cond]

/-- One step of thread `w`. -/
inductive Step (X : Exec S σ E) (body : L → Prog S) (w : W) :
    Conf S σ L W → Ev S L → Conf S σ L W → Prop
  | start {c} (l) : c.thr w = .idle → Step X body w c (.start l) (c.set w (.run l (body l)))
  | ret {c l} : c.thr w = .run l .ret → Step X body w c .sync (c.set w .idle)
  | act {c l a k e r s} : c.thr w = .run l (.act a k) → X a e c.st = some (r, s) →
      Step X body w c (.did a r) { c.set w (.run l (k r)) with st := s }
  | lock {c l m k} : c.thr w = .run l (.lock m k) → c.owner m = none →
      Step X body w c .sync
        { c.set w (.run l k) with owner := Function.update c.owner m (some w) }
  | unlock {c l m k} : c.thr w = .run l (.unlock m k) →
      Step X body w c .sync { c.set w (.run l k) with owner := Function.update c.owner m none }
  | signal {c l cd k v l' m p} : c.thr w = .run l (.signal cd k) → c.thr v = .asleep l' cd m p →
      Step X body w c .sync ((c.set w (.run l k)).set v (.woken l' m p))
  | signalNone {c l cd k} : c.thr w = .run l (.signal cd k) →
      (∀ v l' m p, c.thr v ≠ .asleep l' cd m p) → Step X body w c .sync (c.set w (.run l k))
  | broadcast {c l cd k} : c.thr w = .run l (.broadcast cd k) →
      Step X body w c .sync ({ c with thr := fun v => (c.thr v).wake cd }.set w (.run l k))
  | wait {c l cd m k} : c.thr w = .run l (.wait cd m k) →
      Step X body w c .sync
        { c.set w (.asleep l cd m k) with owner := Function.update c.owner m none }
  | spurious {c l cd m k} : c.thr w = .asleep l cd m k →
      Step X body w c .sync (c.set w (.woken l m k))
  | relock {c l m k} : c.thr w = .woken l m k → c.owner m = none →
      Step X body w c .sync
        { c.set w (.run l k) with owner := Function.update c.owner m (some w) }
  | pass {c l a b us cd m k e r s} : c.thr w = .run l (.await a b us cd m k) →
      X a e c.st = some (r, s) → b r = false →
      Step X body w c (.did a r) { c.set w (.run l (k r)) with st := s }
  | park {c l a b us cd m k e r s} : c.thr w = .run l (.await a b us cd m k) →
      X a e c.st = some (r, s) → b r = true →
      Step X body w c (.did a r)
        { c.set w (.run l (.unlocks us (.wait cd m (.await a b us cd m k)))) with st := s }

variable {X : Exec S σ E} {body : L → Prog S}

/-- The configurations reached from `c₀` by steps that satisfy `ok`. -/
inductive Reach (X : Exec S σ E) (body : L → Prog S) (ok : Conf S σ L W → W → Ev S L → Prop)
    (c₀ : Conf S σ L W) : Conf S σ L W → Prop
  | init : Reach X body ok c₀ c₀
  | step {c c' w ev} : Reach X body ok c₀ c → Step X body w c ev c' → ok c w ev →
      Reach X body ok c₀ c'

/-- **Invariants.**  What holds initially and is kept by every step holds in
    every reachable configuration. -/
theorem Reach.invariant {ok : Conf S σ L W → W → Ev S L → Prop} {c₀ c : Conf S σ L W}
    {I : Conf S σ L W → Prop} (h₀ : I c₀)
    (hs : ∀ c w ev c', Reach X body ok c₀ c → I c → Step X body w c ev c' → ok c w ev → I c')
    (h : Reach X body ok c₀ c) : I c := by
  induction h with
  | init => exact h₀
  | step hr hst hok ih => exact hs _ _ _ _ hr ih hst hok

theorem Reach.mono {ok ok' : Conf S σ L W → W → Ev S L → Prop} {c₀ c : Conf S σ L W}
    (hok : ∀ c w ev, ok c w ev → ok' c w ev) (h : Reach X body ok c₀ c) : Reach X body ok' c₀ c := by
  induction h with
  | init => exact .init
  | step _ hst ho ih => exact .step ih hst (hok _ _ _ ho)

theorem Reach.trans {ok : Conf S σ L W → W → Ev S L → Prop} {c₀ c c' : Conf S σ L W}
    (h : Reach X body ok c₀ c) (h' : Reach X body ok c c') : Reach X body ok c₀ c' := by
  induction h' with
  | init => exact h
  | step _ hst ho ih => exact .step ih hst ho

/-- Steps from reachable configurations satisfy the invariants. -/
theorem Reach.strengthen {ok : Conf S σ L W → W → Ev S L → Prop} {c₀ c : Conf S σ L W}
    {I : Conf S σ L W → Prop} (hI : ∀ c, Reach X body ok c₀ c → I c) (h : Reach X body ok c₀ c) :
    Reach X body (fun c w ev => ok c w ev ∧ I c) c₀ c := by
  induction h with
  | init => exact .init
  | step hr hst ho ih => exact .step ih hst ⟨ho, hI _ hr⟩

/-! ## The frame of a step -/

/-- A step changes the state by an action only. -/
theorem Step.st_cases {w : W} {c c' : Conf S σ L W} {ev : Ev S L} (h : Step X body w c ev c') :
    c'.st = c.st ∨ ∃ a e r, ev = .did a r ∧ X a e c.st = some (r, c'.st) := by
  cases h with
  | act _ hx | pass _ hx _ | park _ hx _ => exact Or.inr ⟨_, _, _, rfl, hx⟩
  | _ => exact Or.inl rfl

omit [DecidableEq W] [DecidableEq S.Mutex] in
theorem Thread.wake_cases (cd : S.Cond) (t : Thread S L) :
    t.wake cd = t ∨ ∃ l m p, t = .asleep l cd m p ∧ t.wake cd = .woken l m p := by
  cases t with
  | asleep l c m p =>
    by_cases h : c = cd
    · subst h; exact Or.inr ⟨l, m, p, rfl, by simp [Thread.wake]⟩
    · exact Or.inl (by simp [Thread.wake, h])
  | _ => exact Or.inl rfl

/-- A step of `w` leaves the other threads as they are or wakes them up. -/
theorem Step.other {w v : W} {c c' : Conf S σ L W} {ev : Ev S L} (h : Step X body w c ev c')
    (hv : v ≠ w) : c'.thr v = c.thr v ∨
      ∃ l cd m p, c.thr v = .asleep l cd m p ∧ c'.thr v = .woken l m p := by
  cases h with
  | @signal _ cd _ u l' m p _ hu =>
    by_cases huv : v = u
    · subst huv; exact Or.inr ⟨l', cd, m, p, hu, by simp⟩
    · exact Or.inl (by simp [huv, hv])
  | @broadcast _ cd _ _ =>
    simp only [Conf.set_ne _ _ hv]
    rcases Thread.wake_cases cd (c.thr v) with h | ⟨l, m, p, h1, h2⟩
    · exact Or.inl h
    · exact Or.inr ⟨l, cd, m, p, h1, h2⟩
  | _ => exact Or.inl (by simp [Conf.set, hv])

/-- A step of thread `w` as it changes the thread itself, the state and the owners. -/
inductive Moves (X : Exec S σ E) (body : L → Prog S) (w : W) (s : σ) (o : S.Mutex → Option W) :
    Thread S L → Ev S L → σ → (S.Mutex → Option W) → Thread S L → Prop
  | start (l) : Moves X body w s o .idle (.start l) s o (.run l (body l))
  | ret {l} : Moves X body w s o (.run l .ret) .sync s o .idle
  | act {l a k e r s'} : X a e s = some (r, s') →
      Moves X body w s o (.run l (.act a k)) (.did a r) s' o (.run l (k r))
  | lock {l m k} : o m = none → Moves X body w s o (.run l (.lock m k)) .sync s
      (Function.update o m (some w)) (.run l k)
  | unlock {l m k} : Moves X body w s o (.run l (.unlock m k)) .sync s
      (Function.update o m none) (.run l k)
  | signal {l cd k} : Moves X body w s o (.run l (.signal cd k)) .sync s o (.run l k)
  | broadcast {l cd k} : Moves X body w s o (.run l (.broadcast cd k)) .sync s o (.run l k)
  | wait {l cd m k} : Moves X body w s o (.run l (.wait cd m k)) .sync s
      (Function.update o m none) (.asleep l cd m k)
  | spurious {l cd m k} : Moves X body w s o (.asleep l cd m k) .sync s o (.woken l m k)
  | relock {l m k} : o m = none → Moves X body w s o (.woken l m k) .sync s
      (Function.update o m (some w)) (.run l k)
  | pass {l a b us cd m k e r s'} : X a e s = some (r, s') → b r = false →
      Moves X body w s o (.run l (.await a b us cd m k)) (.did a r) s' o (.run l (k r))
  | park {l a b us cd m k e r s'} : X a e s = some (r, s') → b r = true →
      Moves X body w s o (.run l (.await a b us cd m k)) (.did a r) s' o
        (.run l (.unlocks us (.wait cd m (.await a b us cd m k))))

theorem Step.moves {w : W} {c c' : Conf S σ L W} {ev : Ev S L} (h : Step X body w c ev c') :
    Moves X body w c.st c.owner (c.thr w) ev c'.st c'.owner (c'.thr w) := by
  cases h with
  | act ht hx | lock ht ho | unlock ht | wait ht | relock ht ho | pass ht hx hb | park ht hx hb =>
    show Moves _ _ _ _ _ _ _ _ _ ((c.set w _).thr w)
    rw [Conf.set_self, ht]; constructor <;> assumption
  | @signal _ cd k u l' m' p ht hu =>
    have hne : w ≠ u := fun he => by rw [← he, ht] at hu; cases hu
    rw [Conf.set_ne _ _ hne, Conf.set_self, ht]; exact .signal
  | start _ ht | ret ht | signalNone ht | broadcast ht | spurious ht =>
    rw [Conf.set_self, ht]; constructor

theorem Step.exec_did {w : W} {c c' : Conf S σ L W} {a : S.Act} {r : S.Ans a}
    (h : Step X body w c (.did a r) c') : ∃ e, X a e c.st = some (r, c'.st) := by
  cases h with
  | act _ hx | pass _ hx _ | park _ hx _ => exact ⟨_, hx⟩

theorem Step.nextAct_did {w : W} {c c' : Conf S σ L W} {a : S.Act} {r : S.Ans a}
    (h : Step X body w c (.did a r) c') : (c.thr w).nextAct = some a := by
  cases h with
  | act ht | pass ht | park ht => rw [ht]; rfl

/-- A thread about to perform an action may do so. -/
theorem Step.exists_did {w : W} {c : Conf S σ L W} {a : S.Act} (ha : (c.thr w).nextAct = some a) {e : E}
    {r : S.Ans a} {s : σ} (hx : X a e c.st = some (r, s)) : ∃ c', Step X body w c (.did a r) c' := by
  cases ht : c.thr w with
  | run l p =>
    rw [ht] at ha
    cases p with
    | act b k => cases ha; exact ⟨_, .act ht hx⟩
    | await b bl us cd m k =>
      cases ha
      cases hb : bl r with
      | true => exact ⟨_, .park ht hx hb⟩
      | false => exact ⟨_, .pass ht hx hb⟩
    | _ => cases ha
  | _ => rw [ht] at ha; cases ha

omit [DecidableEq W] [DecidableEq S.Cond] in
theorem Moves.task {w : W} {s s' : σ} {o o' : S.Mutex → Option W} {t t' : Thread S L} {ev : Ev S L}
    (h : Moves X body w s o t ev s' o' t') {l : L} (hl : t'.task = some l) :
    t.task = some l ∨ ev = .start l := by
  cases h with
  | start l' => cases hl; exact Or.inr rfl
  | ret => cases hl
  | _ => exact Or.inl hl

theorem Step.task_cases {w v : W} {c c' : Conf S σ L W} {ev : Ev S L} (h : Step X body w c ev c')
    {l : L} (hl : (c'.thr v).task = some l) : (c.thr v).task = some l ∨ ev = .start l := by
  by_cases hv : v = w
  · subst hv; exact h.moves.task hl
  · rcases h.other hv with he | ⟨l', cd, m, p, he, he'⟩
    · rw [he] at hl; exact Or.inl hl
    · rw [he'] at hl; rw [he]; exact Or.inl hl

/-- What holds of every task that is started holds of the tasks of all threads. -/
theorem Reach.task {ok : Conf S σ L W → W → Ev S L → Prop} {s₀ : σ} {c : Conf S σ L W} {T : L → Prop}
    (hT : ∀ c w l, ok c w (.start l) → T l) (h : Reach X body ok (Conf.init s₀) c) :
    ∀ {v l}, (c.thr v).task = some l → T l := by
  induction h with
  | init => intro v l hl; cases hl
  | step _ hst ho ih =>
    intro v l hl
    rcases hst.task_cases hl with hl | rfl
    · exact ih hl
    · exact hT _ _ l ho

theorem Step.asleep_other {w v : W} {c c' : Conf S σ L W} {ev : Ev S L} (h : Step X body w c ev c')
    (hv : v ≠ w) {l : L} {cd : S.Cond} {m : S.Mutex} {p : Prog S}
    (hp : c'.thr v = .asleep l cd m p) : c.thr v = .asleep l cd m p := by
  rcases h.other hv with h | ⟨_, _, _, _, _, h⟩
  · rw [← h, hp]
  · rw [hp] at h; cases h

/-! ## The next actions -/

omit [DecidableEq S.Mutex] [DecidableEq S.Cond] in
@[simp] theorem Prog.upcoming_unlocks {us : List S.Mutex} {p : Prog S} :
    (Prog.unlocks us p).upcoming = p.upcoming := by
  induction us with
  | nil => rfl
  | cons u us ih => exact ih

theorem Step.upcoming_other {w v : W} {c c' : Conf S σ L W} {ev : Ev S L}
    (h : Step X body w c ev c') (hv : v ≠ w) : (c'.thr v).upcoming = (c.thr v).upcoming := by
  rcases h.other hv with he | ⟨l, cd, m, p, he, he'⟩
  · rw [he]
  · rw [he, he']; rfl

theorem Step.upcoming_start {w : W} {c c' : Conf S σ L W} {l : L} (h : Step X body w c (.start l) c') :
    (c.thr w).upcoming = none ∧ (c'.thr w).upcoming = (body l).upcoming := by
  cases h with
  | start _ ht => exact ⟨by rw [ht]; rfl, by rw [Conf.set_self]; rfl⟩

omit [DecidableEq W] [DecidableEq S.Cond] in
/-- Only an action changes the next action of a thread. -/
theorem Moves.upcoming_sync {w : W} {s s' : σ} {o o' : S.Mutex → Option W} {t t' : Thread S L}
    (h : Moves X body w s o t .sync s' o' t') : t'.upcoming = t.upcoming := by
  cases h <;> rfl

theorem Step.upcoming_sync {w : W} {c c' : Conf S σ L W} (h : Step X body w c .sync c') :
    (c'.thr w).upcoming = (c.thr w).upcoming :=
  h.moves.upcoming_sync

/-- A step that is no action leaves the state as it is, and also what is seen of
    the next actions if a task that is started shows nothing. -/
theorem Step.quiet {α : Type} {f : Option S.Act → α} {w : W} {c c' : Conf S σ L W} {ev : Ev S L}
    (h : Step X body w c ev c') (hb : ∀ l, f (body l).upcoming = f none) :
    (∃ a r, ev = .did a r) ∨
      c'.st = c.st ∧ ∀ v, f (c'.thr v).upcoming = f (c.thr v).upcoming := by
  have hst : (∃ a r, ev = .did a r) ∨ c'.st = c.st := by
    rcases h.st_cases with he | ⟨a, _, r, he, _⟩
    · exact Or.inr he
    · exact Or.inl ⟨a, r, he⟩
  cases ev with
  | did a r => exact Or.inl ⟨a, r, rfl⟩
  | start l =>
    obtain ⟨h1, h2⟩ := h.upcoming_start
    refine hst.imp_right fun hst => ⟨hst, fun v => ?_⟩
    by_cases hv : v = w
    · rw [hv, h1, h2, hb]
    · rw [h.upcoming_other hv]
  | sync =>
    refine hst.imp_right fun hst => ⟨hst, fun v => ?_⟩
    by_cases hv : v = w
    · rw [hv, h.upcoming_sync]
    · rw [h.upcoming_other hv]

/-! ## Executing a schedule -/

/-- How thread `w` makes its next step: the task it starts, the environment of
    its action, the thread it signals. -/
inductive Choice (L E W : Type) where
  | start (l : L)
  | go (e : E)
  | pick (v : W)

/-- Execute a step of `w`. -/
def fire (X : Exec S σ E) (body : L → Prog S) (c : Conf S σ L W) (w : W) :
    Choice L E W → Option (Ev S L × Conf S σ L W)
  | .start l => match c.thr w with
    | .idle => some (.start l, c.set w (.run l (body l)))
    | _ => none
  | .pick v => match c.thr w with
    | .run l (.signal cd k) => match c.thr v with
      | .asleep l' cd' m p =>
        if cd' = cd then some (.sync, (c.set w (.run l k)).set v (.woken l' m p)) else none
      | _ => none
    | _ => none
  | .go e => match c.thr w with
    | .run _ .ret => some (.sync, c.set w .idle)
    | .run l (.act a k) => (X a e c.st).map fun x =>
        (.did a x.1, { c.set w (.run l (k x.1)) with st := x.2 })
    | .run l (.lock m k) => if (c.owner m).isNone then
        some (.sync, { c.set w (.run l k) with owner := Function.update c.owner m (some w) })
      else none
    | .run l (.unlock m k) =>
        some (.sync, { c.set w (.run l k) with owner := Function.update c.owner m none })
    | .run l (.broadcast cd k) =>
        some (.sync, { c with thr := fun v => (c.thr v).wake cd }.set w (.run l k))
    | .run l (.wait cd m k) => some (.sync,
        { c.set w (.asleep l cd m k) with owner := Function.update c.owner m none })
    | .woken l m k => if (c.owner m).isNone then
        some (.sync, { c.set w (.run l k) with owner := Function.update c.owner m (some w) })
      else none
    | .run l (.await a b us cd m k) => (X a e c.st).map fun x =>
        (.did a x.1, { c.set w (.run l (bif b x.1 then
          .unlocks us (.wait cd m (.await a b us cd m k)) else k x.1)) with st := x.2 })
    | _ => none

theorem fire_step {c c' : Conf S σ L W} {w : W} {ch : Choice L E W} {ev : Ev S L}
    (h : fire X body c w ch = some (ev, c')) : Step X body w c ev c' := by
  cases ch with
  | start l =>
    simp only [fire] at h
    split at h
    · cases h; exact .start l ‹_›
    · cases h
  | pick v =>
    simp only [fire] at h
    split at h
    · split at h
      · split at h
        · subst_vars; cases h; exact .signal ‹_› ‹_›
        · cases h
      · cases h
    · cases h
  | go e =>
    simp only [fire] at h
    split at h
    · cases h; exact .ret ‹_›
    · obtain ⟨⟨r, s⟩, hx, h⟩ := Option.map_eq_some_iff.1 h
      cases h; exact .act ‹_› hx
    · split at h
      · cases h; exact .lock ‹_› (Option.isNone_iff_eq_none.1 ‹_›)
      · cases h
    · cases h; exact .unlock ‹_›
    · cases h; exact .broadcast ‹_›
    · cases h; exact .wait ‹_›
    · split at h
      · cases h; exact .relock ‹_› (Option.isNone_iff_eq_none.1 ‹_›)
      · cases h
    · obtain ⟨⟨r, s⟩, hx, h⟩ := Option.map_eq_some_iff.1 h
      cases h
      cases hb : ‹S.Ans _ → Bool› r with
      | true => exact .park ‹_› hx hb
      | false => exact .pass ‹_› hx hb
    · cases h

/-- Run a schedule, the threads that move with their choices, by steps that
    satisfy `ok`. -/
def sched (X : Exec S σ E) (body : L → Prog S) (ok : Conf S σ L W → W → Ev S L → Bool) :
    List (W × Choice L E W) → Conf S σ L W → Option (Conf S σ L W)
  | [], c => some c
  | (w, ch) :: xs, c => (fire X body c w ch).bind fun y =>
      if ok c w y.1 then sched X body ok xs y.2 else none

theorem sched_reach {ok : Conf S σ L W → W → Ev S L → Bool} {c₀ c' : Conf S σ L W} :
    ∀ (xs : List (W × Choice L E W)) {c : Conf S σ L W},
      Reach X body (fun c w ev => ok c w ev = true) c₀ c → sched X body ok xs c = some c' →
        Reach X body (fun c w ev => ok c w ev = true) c₀ c'
  | [], c, hr, h => by cases h; exact hr
  | (w, ch) :: xs, c, hr, h => by
    obtain ⟨⟨ev, c₁⟩, h1, h2⟩ := Option.bind_eq_some_iff.1 h
    split at h2
    · exact sched_reach xs (.step hr (fire_step h1) ‹_›) h2
    · cases h2

end

end Threads
