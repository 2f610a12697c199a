/-
  What a group of threads can still do without new tasks.

  `Weighs allow κ p n` says that on every path through `p`, as long as the
  answers of its actions are allowed, the costs of its steps add up to at most
  `n`.  A sleep in a loop is paid for by the notification that ends it: a
  signal or a broadcast costs enough for another attempt of every thread.

  * `Step.loaded`: a step of a thread on its way pays its cost from the sum of
    what the threads weigh (`Loaded`).
  * `Reach.loaded`: a measure that no action raises by more than its cost is
    raised by at most that sum, where tasks that are started weigh nothing.
  * `Works` are the runs of the threads on their way, without new tasks and
    without spurious wake-ups; `Works.le` bounds their length.
-/
import FileStorage.Threads.Discipline
import FileStorage.Threads.Expand
import Mathlib.Algebra.BigOperators.Group.Finset.Piecewise
import Mathlib.Algebra.Order.BigOperators.Group.Finset

namespace Threads

variable {S T : Sig} {σ E L W : Type} {allow : (a : S.Act) → S.Ans a → Prop}

/-- What the steps of a program cost. -/
structure Costs (S : Sig) where
  act : S.Act → ℕ
  /-- an operation on a mutex, going to sleep or a return -/
  sync : ℕ
  /-- a signal or a broadcast -/
  notify : ℕ
  /-- the credit of a thread that is woken up -/
  again : ℕ

variable {κ : Costs S}

/-- The cost of a blocked attempt in a loop. -/
def Costs.attempt (κ : Costs S) (a : S.Act) (us : List S.Mutex) : ℕ :=
  κ.act a + us.length * κ.sync + κ.sync

/-- The costs of the steps that an embedded program makes. -/
def Costs.comap (i : Into S T) (κ : Costs T) : Costs S :=
  ⟨fun a => κ.act (i.act a), κ.sync, κ.notify, κ.again⟩

namespace Prog
variable {p : Prog S} {n n' : ℕ}

/-- On every path through the program the costs add up to at most `n`. -/
def Weighs (allow : (a : S.Act) → S.Ans a → Prop) (κ : Costs S) : Prog S → ℕ → Prop
  | .ret, n => κ.sync ≤ n
  | .act a k, n => κ.act a ≤ n ∧ ∀ r, allow a r → Weighs allow κ (k r) (n - κ.act a)
  | .lock _ k, n | .unlock _ k, n => κ.sync ≤ n ∧ Weighs allow κ k (n - κ.sync)
  | .signal _ k, n | .broadcast _ k, n => κ.notify ≤ n ∧ Weighs allow κ k (n - κ.notify)
  | .wait _ _ k, n => κ.sync ≤ n ∧ Weighs allow κ k (n - κ.sync + κ.again)
  | .await a _ us _ _ k, n => κ.attempt a us ≤ κ.again ∧ κ.attempt a us ≤ n ∧
      ∀ r, allow a r → Weighs allow κ (k r) (n - κ.attempt a us)

theorem Weighs.mono (hp : p.Weighs allow κ n) (hn : n ≤ n') : p.Weighs allow κ n' := by
  induction p generalizing n n' with
  | ret => exact hp.trans hn
  | act a k ih => exact ⟨hp.1.trans hn, fun r hr => ih r (hp.2 r hr) (Nat.sub_le_sub_right hn _)⟩
  | lock _ k ih | unlock _ k ih | signal _ k ih | broadcast _ k ih =>
    exact ⟨hp.1.trans hn, ih hp.2 (Nat.sub_le_sub_right hn _)⟩
  | wait _ _ k ih =>
    exact ⟨hp.1.trans hn, ih hp.2 (Nat.add_le_add_right (Nat.sub_le_sub_right hn _) _)⟩
  | await a b us c m k ih =>
    exact ⟨hp.1, hp.2.1.trans hn, fun r hr => ih r (hp.2.2 r hr) (Nat.sub_le_sub_right hn _)⟩

theorem Weighs.of_imp {allow' : (a : S.Act) → S.Ans a → Prop} (hp : p.Weighs allow κ n)
    (ha : ∀ a r, allow' a r → allow a r) : p.Weighs allow' κ n := by
  induction p generalizing n with
  | ret => exact hp
  | act a k ih => exact ⟨hp.1, fun r hr => ih r (hp.2 r (ha a r hr))⟩
  | lock _ k ih | unlock _ k ih | signal _ k ih | broadcast _ k ih | wait _ _ k ih =>
    exact ⟨hp.1, ih hp.2⟩
  | await a b us c m k ih => exact ⟨hp.1, hp.2.1, fun r hr => ih r (hp.2.2 r (ha a r hr))⟩

theorem weighs_ite {b : Prop} [Decidable b] {q : Prog S} :
    (if b then p else q).Weighs allow κ n ↔
      (b → p.Weighs allow κ n) ∧ (¬ b → q.Weighs allow κ n) := by
  split_ifs <;> simp [*]

/-- Where the steps are free every program weighs nothing. -/
theorem weighs_zero (ha : ∀ a, κ.act a = 0) (hs : κ.sync = 0) (hn : κ.notify = 0) :
    p.Weighs allow κ n := by
  induction p generalizing n with
  | ret => exact hs.le.trans (Nat.zero_le _)
  | act a k ih => exact ⟨(ha a).le.trans (Nat.zero_le _), fun r _ => ih r⟩
  | lock _ k ih | unlock _ k ih | wait _ _ k ih => exact ⟨hs.le.trans (Nat.zero_le _), ih⟩
  | signal _ k ih | broadcast _ k ih => exact ⟨hn.le.trans (Nat.zero_le _), ih⟩
  | await a b us c m k ih =>
    have hzero : κ.attempt a us = 0 := by simp [Costs.attempt, ha, hs]
    exact ⟨hzero.le.trans (Nat.zero_le _), hzero.le.trans (Nat.zero_le _), fun r _ => ih r⟩

/-- The way to a sleep weighs what it gives back and the sleep. -/
theorem weighs_unlocks {c : S.Cond} {m : S.Mutex} {us : List S.Mutex} :
    ∀ {n : ℕ}, us.length * κ.sync + κ.sync ≤ n →
      p.Weighs allow κ (n - (us.length * κ.sync + κ.sync) + κ.again) →
      (unlocks us (.wait c m p)).Weighs allow κ n := by
  induction us with
  | nil => exact fun hn hp => ⟨by simpa using hn, by simpa using hp⟩
  | cons u us ih =>
    intro n hn hp
    rw [List.length_cons, Nat.succ_mul] at hn hp
    refine ⟨by omega, ih (by omega) ?_⟩
    have he : n - κ.sync - (us.length * κ.sync + κ.sync) = n - (us.length * κ.sync + κ.sync + κ.sync) := by
      omega
    rwa [he]

/-- The embedding of programs keeps what they weigh. -/
theorem Weighs.expand {i : Into S T} {f : (a : S.Act) → (S.Ans a → Prog T) → Prog T} {q : Prog T}
    {allow' : (a : T.Act) → T.Ans a → Prop} {κ : Costs T}
    (ha : ∀ a r, allow' (i.act a) r → allow a (i.ans a r))
    (hq : ∀ n, κ.sync ≤ n → q.Weighs allow' κ n)
    (hf : ∀ a k n, κ.act (i.act a) ≤ n →
      (∀ r, allow a r → (k r).Weighs allow' κ (n - κ.act (i.act a))) → (f a k).Weighs allow' κ n) :
    ∀ {p : Prog S} {n}, p.Weighs allow (κ.comap i) n → (expand i f q p).Weighs allow' κ n := by
  intro p
  induction p with
  | ret => exact fun hp => hq _ hp
  | act a k ih => exact fun hp => hf a _ _ hp.1 fun r hr => ih r (hp.2 r hr)
  | lock m k ih | unlock m k ih => exact fun hp => ⟨hp.1, ih hp.2⟩
  | signal c k ih | broadcast c k ih => exact fun hp => ⟨hp.1, ih hp.2⟩
  | wait c m k ih => exact fun hp => ⟨hp.1, ih hp.2⟩
  | await a b us c m k ih =>
    intro n hp
    have he : κ.attempt (i.act a) (us.map i.mutex) = (κ.comap i).attempt a us := by
      rw [Costs.attempt, Costs.attempt, List.length_map]
      rfl
    unfold Prog.expand Weighs
    rw [he]
    exact ⟨hp.1, hp.2.1, fun r hr => ih _ (hp.2.2 _ (ha a r hr))⟩

end Prog

/-! ## Threads -/

/-- What the thread can still do weighs at most `n`. -/
def Thread.Weighs (allow : (a : S.Act) → S.Ans a → Prop) (κ : Costs S) : Thread S L → ℕ → Prop
  | .idle, _ => True
  | .run _ p, n => p.Weighs allow κ n
  | .asleep _ _ _ p, n => p.Weighs allow κ (n + κ.again)
  | .woken _ _ p, n => κ.sync ≤ n ∧ p.Weighs allow κ (n - κ.sync)

theorem Thread.Weighs.mono {t : Thread S L} {n n' : ℕ} (ht : t.Weighs allow κ n) (hn : n ≤ n') :
    t.Weighs allow κ n' := by
  cases t with
  | idle => trivial
  | run l p => exact Prog.Weighs.mono ht hn
  | asleep l c m p => exact Prog.Weighs.mono ht (Nat.add_le_add_right hn _)
  | woken l m p => exact ⟨ht.1.trans hn, ht.2.mono (Nat.sub_le_sub_right hn _)⟩

theorem Thread.Weighs.of_imp {allow' : (a : S.Act) → S.Ans a → Prop} {t : Thread S L} {n : ℕ}
    (ht : t.Weighs allow κ n) (ha : ∀ a r, allow' a r → allow a r) : t.Weighs allow' κ n := by
  cases t with
  | idle => trivial
  | run | asleep => exact Prog.Weighs.of_imp ht ha
  | woken => exact ⟨ht.1, ht.2.of_imp ha⟩

/-- A thread between two tasks weighs nothing. -/
theorem Thread.weighs_of_task {t : Thread S L} {n : ℕ}
    (ht : ∀ l, t.task = some l → t.Weighs allow κ n) : t.Weighs allow κ n := by
  cases t with
  | idle => trivial
  | run l | asleep l | woken l => exact ht l rfl

/-- What a thread weighs pays for its next action. -/
theorem Thread.Weighs.of_nextAct {t : Thread S L} {n : ℕ} (ht : t.Weighs allow κ n) {a : S.Act}
    (ha : t.nextAct = some a) : κ.act a ≤ n := by
  cases t with
  | run l p =>
    cases p with
    | act b k =>
      cases ha
      exact ht.1
    | await b bl us c m k =>
      cases ha
      have hle := ht.2.1
      unfold Costs.attempt at hle
      omega
    | _ => cases ha
  | _ => cases ha

/-- A thread that wakes up gets the credit for another attempt. -/
theorem Thread.Weighs.wake {l : L} {c : S.Cond} {m : S.Mutex} {p : Prog S} {n : ℕ}
    (ht : (Thread.asleep l c m p).Weighs allow κ n) :
    (Thread.woken l m p).Weighs allow κ (n + (κ.again + κ.sync)) := by
  refine ⟨by omega, ?_⟩
  have he : n + (κ.again + κ.sync) - κ.sync = n + κ.again := by omega
  rw [he]
  exact ht

/-- The thread is at a signal or a broadcast. -/
def Thread.notifying : Thread S L → Bool
  | .run _ (.signal _ _) | .run _ (.broadcast _ _) => true
  | _ => false

/-- What a step costs. -/
def Ev.cost (κ : Costs S) : Ev S L → ℕ
  | .start _ => 0
  | .did a _ => κ.act a
  | .sync => κ.sync

section
variable [DecidableEq W] [DecidableEq S.Mutex] [DecidableEq S.Cond] {X : Exec S σ E}
  {body : L → Prog S} {s₀ : σ} {c c' : Conf S σ L W} {v w : W} {ev : Ev S L}
  {ok : Conf S σ L W → W → Ev S L → Prop} {s s' : σ} {o o' : S.Mutex → Option W} {t t' : Thread S L}
  {n N : ℕ}

omit [DecidableEq W] [DecidableEq S.Cond] in
/-- A thread on its way pays for its step. -/
theorem Moves.weighs (h : Moves X body w s o t ev s' o' t') (ht : t.atRest = false)
    (ha : ∀ a e r, ev = .did a r → X a e s = some (r, s') → allow a r) (hw : t.Weighs allow κ n) :
    ∃ n', t'.Weighs allow κ n' ∧ n' + (if t.notifying then κ.notify else ev.cost κ) ≤ n := by
  cases h with
  | start | spurious => cases ht
  | ret =>
    refine ⟨0, trivial, ?_⟩
    rw [Nat.zero_add]
    exact hw
  | act hx => exact ⟨_, hw.2 _ (ha _ _ _ rfl hx), Nat.sub_add_cancel hw.1 |>.le⟩
  | lock | unlock => exact ⟨_, hw.2, Nat.sub_add_cancel hw.1 |>.le⟩
  | signal | broadcast => exact ⟨_, hw.2, Nat.sub_add_cancel hw.1 |>.le⟩
  | wait => exact ⟨_, hw.2, Nat.sub_add_cancel hw.1 |>.le⟩
  | relock => exact ⟨_, hw.2, Nat.sub_add_cancel hw.1 |>.le⟩
  | @pass l a b us cd m k e r s' hx =>
    obtain ⟨-, hn, hk⟩ := hw
    have hle : κ.act a ≤ κ.attempt a us := by unfold Costs.attempt; omega
    refine ⟨_, hk _ (ha _ _ _ rfl hx), ?_⟩
    show n - κ.attempt a us + κ.act a ≤ n
    omega
  | @park l a b us cd m k e r s' hx =>
    obtain ⟨hg, hn, -⟩ := id hw
    unfold Costs.attempt at hg hn
    refine ⟨n - κ.act a, Prog.weighs_unlocks (by omega) (Prog.Weighs.mono hw (by omega)), ?_⟩
    show n - κ.act a + κ.act a ≤ n
    omega

/-- Only a signal or a broadcast concerns other threads. -/
theorem Step.other_same (h : Step X body w c ev c') (hw : (c.thr w).notifying = false) (hv : v ≠ w) :
    c'.thr v = c.thr v := by
  cases h with
  | signal ht | broadcast ht => rw [ht] at hw; cases hw
  | _ => simp [Conf.set, hv]

variable [Fintype W]

/-- What the threads can still do weighs at most `N` together. -/
def Loaded (allow : (a : S.Act) → S.Ans a → Prop) (κ : Costs S) (c : Conf S σ L W) (N : ℕ) : Prop :=
  ∃ f : W → ℕ, (∀ w, (c.thr w).Weighs allow κ (f w)) ∧ ∑ w, f w ≤ N

omit [DecidableEq W] [DecidableEq S.Mutex] [DecidableEq S.Cond] in
theorem Loaded.mono (h : Loaded allow κ c n) (hn : n ≤ N) : Loaded allow κ c N := by
  obtain ⟨f, hf, hs⟩ := h
  exact ⟨f, hf, hs.trans hn⟩

/-- One thread weighs `n` now, and each of the others at most `x` more. -/
theorem sum_update_le (f : W → ℕ) (w : W) (n x : ℕ) :
    ∑ v, Function.update (fun v => f v + x) w n v + f w ≤ ∑ v, f v + n + Fintype.card W * x := by
  rw [Finset.sum_update_of_mem (Finset.mem_univ w), ← Finset.add_sum_erase _ f (Finset.mem_univ w),
    Finset.sdiff_singleton_eq_erase, Finset.sum_add_distrib,
    Finset.sum_const_nat fun _ _ => rfl]
  have hcard : (Finset.univ.erase w).card * x ≤ Fintype.card W * x :=
    Nat.mul_le_mul_right _ (Finset.card_le_univ _)
  omega

omit [Fintype W] in
/-- A step of a thread that weighs `n'` after it, where the threads that it wakes
    up weigh `x` more. -/
theorem Step.loaded_update (h : Step X body w c ev c') {f : W → ℕ}
    (hf : ∀ v, (c.thr v).Weighs allow κ (f v)) {n' x : ℕ} (hw : (c'.thr w).Weighs allow κ n')
    (hx : (c.thr w).notifying = true → κ.again + κ.sync ≤ x) (v : W) :
    (c'.thr v).Weighs allow κ (Function.update (fun v => f v + x) w n' v) := by
  by_cases hv : v = w
  · subst hv
    rw [Function.update_self]
    exact hw
  · rw [Function.update_of_ne hv]
    cases hn : (c.thr w).notifying with
    | false =>
      rw [h.other_same hn hv]
      exact (hf v).mono (Nat.le_add_right _ _)
    | true =>
      rcases h.other hv with he | ⟨l, cd, m, p, he, he'⟩
      · rw [he]
        exact (hf v).mono (Nat.le_add_right _ _)
      · have hfv := hf v
        rw [he] at hfv
        rw [he']
        exact hfv.wake.mono (Nat.add_le_add_left (hx hn) _)

/-- **A step is paid for.** -/
theorem Step.loaded (hκ : κ.sync + Fintype.card W * (κ.again + κ.sync) ≤ κ.notify)
    (h : Step X body w c ev c') (hw : (c.thr w).atRest = false)
    (ha : ∀ a e r, ev = .did a r → X a e c.st = some (r, c'.st) → allow a r)
    (hc : Loaded allow κ c N) : ∃ N', Loaded allow κ c' N' ∧ N' + ev.cost κ ≤ N := by
  obtain ⟨f, hf, hs⟩ := hc
  obtain ⟨n', hw', hn'⟩ := h.moves.weighs hw ha (hf w)
  cases hn : (c.thr w).notifying with
  | false =>
    rw [hn, if_neg Bool.false_ne_true] at hn'
    refine ⟨_, ⟨_, h.loaded_update (x := 0) hf hw' fun he => ?_, le_rfl⟩, ?_⟩
    · rw [hn] at he
      cases he
    · have := sum_update_le f w n' 0
      omega
  | true =>
    rw [hn, if_pos rfl] at hn'
    refine ⟨_, ⟨_, h.loaded_update (x := κ.again + κ.sync) hf hw' fun _ => le_rfl, le_rfl⟩, ?_⟩
    have hcost : ev.cost κ = κ.sync := by
      cases h with
      | signal | signalNone | broadcast => rfl
      | _ => simp_all [Thread.notifying]
    have := sum_update_le f w n' (κ.again + κ.sync)
    omega

/-- A task that is started, or a spurious wake-up, adds what it weighs. -/
theorem Step.loaded_rest (h : Step X body w c ev c') (hw : (c.thr w).atRest = true)
    (hb : ∀ l, ev = .start l → (body l).Weighs allow κ n) (hc : Loaded allow κ c N) :
    Loaded allow κ c' (N + n + (κ.again + κ.sync)) := by
  obtain ⟨f, hf, hs⟩ := hc
  have hnot : (c.thr w).notifying = true → κ.again + κ.sync ≤ 0 := fun hn => by
    cases ht : c.thr w with
    | idle | asleep => rw [ht] at hn; cases hn
    | run | woken => rw [ht] at hw; cases hw
  have hw' : (c'.thr w).Weighs allow κ (f w + n + (κ.again + κ.sync)) := by
    have hfw := hf w
    cases h with
    | start l =>
      rw [Conf.set_self]
      exact (hb l rfl).mono (by omega)
    | spurious ht =>
      rw [ht] at hfw
      rw [Conf.set_self]
      exact hfw.wake.mono (by omega)
    | _ => simp_all [Thread.atRest]
  refine ⟨_, h.loaded_update hf hw' hnot, ?_⟩
  have := sum_update_le f w (f w + n + (κ.again + κ.sync)) 0
  omega

/-! ## Runs -/

/-- **A measure over a run.**  Where the tasks that are started and the wake-ups
    weigh nothing, a measure that no action raises by more than its cost is
    raised by at most what the threads weigh at the beginning. -/
theorem Reach.loaded {m : σ → ℕ} {I : Conf S σ L W → Prop} {c₀ : Conf S σ L W}
    (hκ : κ.sync = 0 ∧ κ.again = 0)
    (hI : ∀ c w ev c', I c → Step X body w c ev c' → ok c w ev → I c')
    (ha : ∀ c w a e r s, I c → ok c w (.did a r) → X a e c.st = some (r, s) → allow a r)
    (hm : ∀ c w a e r s, I c → ok c w (.did a r) → X a e c.st = some (r, s) → m s ≤ m c.st + κ.act a)
    (hb : ∀ c w l, I c → ok c w (.start l) → (body l).Weighs allow κ 0)
    (h₀ : I c₀) (hc : Loaded allow κ c₀ N) (h : Reach X body ok c₀ c) :
    I c ∧ ∃ N', Loaded allow κ c N' ∧ m c.st + N' ≤ m c₀.st + N := by
  induction h with
  | init => exact ⟨h₀, N, hc, le_rfl⟩
  | @step c c' w ev _ hst ho ih =>
    obtain ⟨hi, N', hl, hle⟩ := ih
    refine ⟨hI _ _ _ _ hi hst ho, ?_⟩
    have hmeasure : m c'.st ≤ m c.st + ev.cost κ := by
      rcases hst.st_cases with he | ⟨a, e, r, rfl, hx⟩
      · rw [he]
        exact Nat.le_add_right _ _
      · exact hm _ _ _ _ _ _ hi ho hx
    cases hrest : (c.thr w).atRest with
    | false =>
      obtain ⟨N₁, hl₁, hle₁⟩ := hst.loaded (by rw [hκ.1, hκ.2]; simp) hrest
        (fun a e r he hx => ha _ _ _ _ _ _ hi (he ▸ ho) hx) hl
      exact ⟨N₁, hl₁, by omega⟩
    | true =>
      have hcost : ev.cost κ = 0 := by
        cases ev with
        | start => rfl
        | sync => exact hκ.1
        | did a r =>
          cases hst with
          | act ht | pass ht | park ht => rw [ht] at hrest; cases hrest
      have hl₁ := hst.loaded_rest (n := 0) hrest (fun l he => hb _ _ _ hi (he ▸ ho)) hl
      rw [hκ.1, hκ.2] at hl₁
      exact ⟨_, hl₁, by omega⟩

omit [Fintype W] in
/-- **One thread over a run.**  Where wake-ups weigh nothing, a thread in a task of
    `P` weighs at most `n` if this is so of the tasks that it starts. -/
theorem Reach.weighs {c₀ : Conf S σ L W} {P : L → Prop} {I : Conf S σ L W → Prop}
    (hκ : κ.sync = 0 ∧ κ.again = 0)
    (hI : ∀ c w ev c', I c → Step X body w c ev c' → ok c w ev → I c')
    (ha : ∀ c w a e r s, I c → ok c w (.did a r) → X a e c.st = some (r, s) → allow a r)
    (hb : ∀ c l, I c → ok c w (.start l) → P l → (body l).Weighs allow κ n) (h₀ : I c₀)
    (hw : ∀ l, (c₀.thr w).task = some l → P l → (c₀.thr w).Weighs allow κ n)
    (h : Reach X body ok c₀ c) : I c ∧ ∀ l, (c.thr w).task = some l → P l → (c.thr w).Weighs allow κ n := by
  induction h with
  | init => exact ⟨h₀, hw⟩
  | @step c c' v ev _ hst ho ih =>
    obtain ⟨hi, ih⟩ := ih
    refine ⟨hI _ _ _ _ hi hst ho, fun l hl hP => ?_⟩
    by_cases hv : w = v
    · subst hv
      rcases hst.task_cases hl with htask | rfl
      · cases hrest : (c.thr w).atRest with
        | false =>
          obtain ⟨n', hn', hle⟩ := hst.moves.weighs hrest
            (fun a e r he hx => ha _ _ _ _ _ _ hi (he ▸ ho) hx) (ih l htask hP)
          exact hn'.mono (by omega)
        | true =>
          have hold := ih l htask hP
          cases hst with
          | start _ ht =>
            rw [ht] at htask
            cases htask
          | spurious ht =>
            rw [ht] at hold
            rw [Conf.set_self]
            have hwake := hold.wake
            rw [hκ.1, hκ.2] at hwake
            exact hwake
          | _ => simp_all [Thread.atRest]
      · cases hst with
        | start _ ht =>
          rw [Conf.set_self]
          exact hb c l hi ho hP
    · rcases hst.other hv with he | ⟨l', cd, m, p, he, he'⟩
      · rw [he] at hl ⊢
        exact ih l hl hP
      · rw [he'] at hl ⊢
        have hold := ih l (by rw [he]; exact hl) hP
        rw [he] at hold
        have hwake := hold.wake
        rw [hκ.1, hκ.2] at hwake
        exact hwake

omit [Fintype W] in
/-- The runs of `n` steps from `c` by threads on their way, by steps that satisfy `ok`. -/
inductive Works (X : Exec S σ E) (body : L → Prog S) (ok : Conf S σ L W → W → Ev S L → Prop)
    (c : Conf S σ L W) : ℕ → Conf S σ L W → Prop
  | init : Works X body ok c 0 c
  | step {n w ev c₁ c₂} : Works X body ok c n c₁ → (c₁.thr w).atRest = false →
      Step X body w c₁ ev c₂ → ok c₁ w ev → Works X body ok c (n + 1) c₂

omit [Fintype W] in
theorem Works.reach (h : Works X body ok c n c') : Reach X body ok c c' := by
  induction h with
  | init => exact .init
  | step _ _ hst ho ih => exact .step ih hst ho

/-- **Runs without new tasks are bounded** by what the threads weigh. -/
theorem Works.le (hκ : κ.sync + Fintype.card W * (κ.again + κ.sync) ≤ κ.notify) (hs : 1 ≤ κ.sync)
    (ha : ∀ a, 1 ≤ κ.act a) (hall : ∀ a r, allow a r) (hc : Loaded allow κ c N)
    (h : Works X body ok c n c') : ∃ N', Loaded allow κ c' N' ∧ N' + n ≤ N := by
  induction h with
  | init => exact ⟨N, hc, le_rfl⟩
  | @step n w ev c₁ c₂ _ hrest hst _ ih =>
    obtain ⟨N₁, hl, hle⟩ := ih
    obtain ⟨N₂, hl₂, hle₂⟩ := hst.loaded hκ hrest (fun a _ r _ _ => hall a r) hl
    have hcost : 1 ≤ ev.cost κ := by
      cases ev with
      | start l =>
        cases hst with
        | start _ ht => rw [ht] at hrest; cases hrest
      | did a r => exact ha a
      | sync => exact hs
    exact ⟨N₂, hl₂, by omega⟩

/-- In every reachable configuration the threads have a finite load. -/
theorem Reach.exists_loaded {b : L → ℕ}
    (hκ : κ.sync + Fintype.card W * (κ.again + κ.sync) ≤ κ.notify) (hall : ∀ a r, allow a r)
    (hb : ∀ l, (body l).Weighs allow κ (b l)) (h : Reach X body ok (Conf.init s₀) c) :
    ∃ N, Loaded allow κ c N := by
  induction h with
  | init => exact ⟨_, fun _ => 0, fun _ => trivial, le_rfl⟩
  | @step c c' w ev _ hst _ ih =>
    obtain ⟨N, hl⟩ := ih
    cases hrest : (c.thr w).atRest with
    | false =>
      obtain ⟨N', hl', -⟩ := hst.loaded hκ hrest (fun a _ r _ _ => hall a r) hl
      exact ⟨N', hl'⟩
    | true =>
      cases ev with
      | start l => exact ⟨_, hst.loaded_rest (n := b l) hrest (fun l' he => by cases he; exact hb l) hl⟩
      | _ => exact ⟨_, hst.loaded_rest (n := 0) hrest (fun l' he => by cases he) hl⟩

end
end Threads
