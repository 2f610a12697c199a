/-
  Lock discipline: the mutexes that a thread owns while it runs.

  Two predicates on programs, each for one mutex `m`:

  * `Held guarded notify resume m h p`: a thread that owns `m` if and only if
    `h` performs the guarded actions, notifies the sleepers on the conditions
    `notify` and gives `m` back only while it owns it, and sleeps without it.
    With `resume` this holds across sleeps, else up to the next one.
  * `Gives allow m h p`: a thread that owns `m` at most if `h` owns it neither
    at the return nor while it sleeps, as long as the answers of its actions
    are allowed.

  Where every program has them both are invariants of the runs, whatever the
  other threads do (`Reach.held`, `Reach.gives`).
-/
import FileStorage.Threads.Shape
import Mathlib.Data.List.Nodup
import Mathlib.Data.Set.Insert

namespace Threads

variable {S : Sig} {σ E L W : Type} {guarded : S.Act → Prop}
  {notify : S.Cond → Prop} {resume : Prop}
  {allow : (a : S.Act) → S.Ans a → Prop} {m : S.Mutex}

namespace Prog
variable {h h' : Prop} {p : Prog S}

/-- A thread that owns `m` if and only if `h` respects the ownership of `m`. -/
def Held (guarded : S.Act → Prop) (notify : S.Cond → Prop) (resume : Prop) (m : S.Mutex) :
    Prop → Prog S → Prop
  | _, .ret => True
  | h, .act a k => (guarded a → h) ∧ ∀ r, Held guarded notify resume m h (k r)
  | h, .lock m' k => Held guarded notify resume m (m' = m ∨ h) k
  | h, .unlock m' k => (m' = m → h) ∧ Held guarded notify resume m (m' ≠ m ∧ h) k
  | h, .signal c k | h, .broadcast c k => (notify c → h) ∧ Held guarded notify resume m h k
  | h, .wait _ m' k => (h ↔ m' = m) ∧ (resume → Held guarded notify resume m h k)
  | h, .await a _ us _ m' k => (guarded a → h) ∧ (∀ r, Held guarded notify resume m h (k r)) ∧
      us.Nodup ∧ m' ∉ us ∧ (h ↔ m ∈ us ∨ m' = m) ∧ (resume → m ∉ us)

/-- A thread that owns `m` at most if `h` sleeps and returns without it. -/
def Gives (allow : (a : S.Act) → S.Ans a → Prop) (m : S.Mutex) : Prop → Prog S → Prop
  | h, .ret => ¬ h
  | h, .act a k => ∀ r, allow a r → Gives allow m h (k r)
  | h, .lock m' k => Gives allow m (m' = m ∨ h) k
  | h, .unlock m' k => Gives allow m (m' ≠ m ∧ h) k
  | h, .signal _ k | h, .broadcast _ k => Gives allow m h k
  | h, .wait _ m' k => (h → m' = m) ∧ Gives allow m (m' = m) k
  | h, .await a _ us _ m' k => (∀ r, allow a r → Gives allow m (m' = m ∨ h) (k r)) ∧
      (h → m ∈ us ∨ m' = m)

@[simp] theorem held_ite {b : Prop} [Decidable b] {q : Prog S} :
    (if b then p else q).Held guarded notify resume m h ↔
      (b → p.Held guarded notify resume m h) ∧ (¬ b → q.Held guarded notify resume m h) := by
  split_ifs <;> simp [*]

@[simp] theorem gives_ite {b : Prop} [Decidable b] {q : Prog S} :
    (if b then p else q).Gives allow m h ↔
      (b → p.Gives allow m h) ∧ (¬ b → q.Gives allow m h) := by
  split_ifs <;> simp [*]

theorem Held.congr (hp : Held guarded notify resume m h p) (hh : h ↔ h') : Held guarded notify resume m h' p :=
  propext hh ▸ hp

/-- The mutexes given back by hand are owned, and the last sleep is with `m` if
    it is still owned then. -/
theorem held_unlocks {c : S.Cond} {m' : S.Mutex} {us : List S.Mutex} :
    ∀ {h : Prop}, us.Nodup → m' ∉ us → (h ↔ m ∈ us ∨ m' = m) →
      (resume → m ∉ us ∧ Held guarded notify resume m h p) →
      Held guarded notify resume m h (unlocks us (.wait c m' p)) := by
  induction us with
  | nil =>
    intro h _ _ hh hr
    exact ⟨by simpa using hh, fun hres => (hr hres).2⟩
  | cons u us ih =>
    intro h hn hm' hh hr
    obtain ⟨hu, hn⟩ := List.nodup_cons.1 hn
    obtain ⟨hm'u, hm'⟩ := not_or.1 (List.mem_cons.not.1 hm')
    refine ⟨fun he => hh.2 (Or.inl (he ▸ List.mem_cons_self)), ih hn hm' ?_ fun hres => ?_⟩
    · -- `u` is not given back again, and the thread does not sleep with it
      by_cases he : u = m
      · subst he
        simp [hu, hm'u]
      · simp [he, hh, Ne.symm he]
    · obtain ⟨hmu, hp⟩ := hr hres
      obtain ⟨hne, hmu⟩ := not_or.1 (List.mem_cons.not.1 hmu)
      exact ⟨hmu, hp.congr (by simp [Ne.symm hne])⟩

/-- A thread on the way to its sleep with `m` owns `m`. -/
theorem Held.of_unlocks_wait {c : S.Cond} {us : List S.Mutex} :
    ∀ {h : Prop}, (unlocks us (.wait c m p)).Held guarded notify resume m h → h := by
  induction us with
  | nil => intro h hp; exact hp.1.2 rfl
  | cons u us ih => intro h hp; exact (ih hp.2).2

theorem Gives.mono (hp : Gives allow m h p) (hh : h' → h) : Gives allow m h' p := by
  induction p generalizing h h' with
  | ret => exact fun hx => hp (hh hx)
  | act a k ih => exact fun r hr => ih r (hp r hr) hh
  | lock m' k ih => exact ih hp (Or.imp_right hh)
  | unlock m' k ih => exact ih hp (And.imp_right hh)
  | signal c k ih => exact ih hp hh
  | broadcast c k ih => exact ih hp hh
  | wait c m' k => exact ⟨fun hx => hp.1 (hh hx), hp.2⟩
  | await a b us c m' k ih =>
    exact ⟨fun r hr => ih r (hp.1 r hr) (Or.imp_right hh), fun hx => hp.2 (hh hx)⟩

theorem Gives.of_imp {allow' : (a : S.Act) → S.Ans a → Prop} (hp : Gives allow m h p)
    (ha : ∀ a r, allow' a r → allow a r) : Gives allow' m h p := by
  induction p generalizing h with
  | ret => exact hp
  | act a k ih => exact fun r hr => ih r (hp r (ha a r hr))
  | lock m' k ih | unlock m' k ih => exact ih hp
  | signal c k ih | broadcast c k ih => exact ih hp
  | wait c m' k ih => exact ⟨hp.1, ih hp.2⟩
  | await a b us c m' k ih => exact ⟨fun r hr => ih r (hp.1 r (ha a r hr)), hp.2⟩

theorem gives_unlocks {c : S.Cond} {m' : S.Mutex} {us : List S.Mutex} :
    ∀ {h : Prop}, (h → m ∈ us ∨ m' = m) → Gives allow m (m' = m) p →
      Gives allow m h (unlocks us (.wait c m' p)) := by
  induction us with
  | nil => intro h hh hp; exact ⟨by simpa using hh, hp⟩
  | cons u us ih =>
    intro h hh hp
    refine ih (fun ⟨hne, hx⟩ => ?_) hp
    rcases hh hx with hx | hx
    · exact Or.inl ((List.mem_cons.1 hx).resolve_left (Ne.symm hne))
    · exact Or.inr hx

/-- A program that gives `m` back returns without it. -/
theorem Returns.gives {X : Exec S σ E} (ha : ∀ a e s r s', X a e s = some (r, s') → allow a r)
    {s : σ} {H H' : Set S.Mutex} (hr : Returns X p s H H') (hp : Gives allow m (m ∈ H) p) :
    m ∉ H' := by
  induction hr with
  | ret => exact hp
  | act hx _ ih => exact ih (hp _ (ha _ _ _ _ _ hx))
  | @lock m' k _ H _ _ ih =>
    have hk : Gives allow m (m' = m ∨ m ∈ H) k := hp
    exact ih (hk.mono fun hx => (Set.mem_insert_iff.1 hx).imp_left Eq.symm)
  | @unlock m' k _ H _ _ ih =>
    have hk : Gives allow m (m' ≠ m ∧ m ∈ H) k := hp
    exact ih (hk.mono fun hx => ⟨fun he => hx.2 he.symm, hx.1⟩)
  | signal _ ih | broadcast _ ih => exact ih hp
  | wait _ ih =>
    refine ih (hp.2.mono fun hx => ?_)
    rcases Set.mem_insert_iff.1 hx with he | hx
    · exact he.symm
    · exact hp.1 hx
  | pass hx _ _ ih => exact ih ((hp.1 _ (ha _ _ _ _ _ hx)).mono Or.inr)
  | park _ _ _ ih =>
    refine ih (gives_unlocks hp.2 ⟨fun r hr => (hp.1 r hr).mono ?_, Or.inr⟩)
    exact fun hx => Or.inl (hx.elim id id)

end Prog

/-! ## Owners -/

/-- The mutex that the thread gives back in its next step. -/
def Thread.givesBack : Thread S L → Option S.Mutex
  | .run _ (.unlock m _) | .run _ (.wait _ m _) => some m
  | _ => none

section
variable [DecidableEq W] [DecidableEq S.Mutex] [DecidableEq S.Cond] {X : Exec S σ E}
  {body : L → Prog S} {s₀ : σ} {c c' : Conf S σ L W} {v w : W} {ev : Ev S L}
  {ok : Conf S σ L W → W → Ev S L → Prop} {s s' : σ} {o o' : S.Mutex → Option W} {t t' : Thread S L}

/-- What a step of `w` does to the owner of `m`. -/
theorem Step.owner_cases (h : Step X body w c ev c') (m : S.Mutex) :
    c'.owner m = c.owner m ∨ c.owner m = none ∧ c'.owner m = some w ∨
      c'.owner m = none ∧ (c.thr w).givesBack = some m := by
  cases h with
  | @lock _ m' _ _ ho | @relock _ m' _ _ ho =>
    by_cases hm : m = m'
    · subst hm; exact Or.inr (Or.inl ⟨ho, by simp⟩)
    · exact Or.inl (by simp [hm])
  | @unlock _ m' k hw =>
    by_cases hm : m = m'
    · subst hm; exact Or.inr (Or.inr ⟨by simp, by rw [hw]; rfl⟩)
    · exact Or.inl (by simp [hm])
  | @wait _ cd m' k hw =>
    by_cases hm : m = m'
    · subst hm; exact Or.inr (Or.inr ⟨by simp, by rw [hw]; rfl⟩)
    · exact Or.inl (by simp [hm])
  | _ => exact Or.inl rfl

/-- No step of `w` makes another thread an owner. -/
theorem Step.owner_of_other (h : Step X body w c ev c') (hv : v ≠ w) (ho : c'.owner m = some v) :
    c.owner m = some v := by
  rcases h.owner_cases m with h | ⟨_, h⟩ | ⟨h, _⟩
  · rw [← h, ho]
  · rw [h] at ho; exact absurd (Option.some.inj ho).symm hv
  · rw [h] at ho; cases ho

/-- A step of `w` that gives back only what `w` owns leaves the other owners. -/
theorem Step.owner_other (h : Step X body w c ev c')
    (hw : (c.thr w).givesBack = some m → c.owner m = some w) (hv : v ≠ w) :
    c'.owner m = some v ↔ c.owner m = some v := by
  refine ⟨h.owner_of_other hv, fun ho => ?_⟩
  rcases h.owner_cases m with h | ⟨h, _⟩ | ⟨_, h⟩
  · rw [h, ho]
  · rw [h] at ho; cases ho
  · rw [hw h] at ho; exact absurd (Option.some.inj ho).symm hv

omit [DecidableEq W] [DecidableEq S.Cond] in
theorem owner_taken {m' : S.Mutex} :
    Function.update o m' (some w) m = some w ↔ m' = m ∨ o m = some w := by
  by_cases hm : m = m'
  · simp [hm]
  · simp [hm, Ne.symm hm]

omit [DecidableEq W] [DecidableEq S.Cond] in
theorem owner_freed {m' : S.Mutex} :
    Function.update o m' none m = some w ↔ m' ≠ m ∧ o m = some w := by
  by_cases hm : m = m'
  · simp [hm]
  · simp [hm, Ne.symm hm]

/-! ## The invariants -/

/-- The thread `t` respects `m`, which it owns if and only if `h`. -/
def Thread.Held (guarded : S.Act → Prop) (notify : S.Cond → Prop) (resume : Prop) (m : S.Mutex)
    (h : Prop) : Thread S L → Prop
  | .idle => True
  | .run _ p => p.Held guarded notify resume m h
  | .asleep _ _ m' p | .woken _ m' p => ¬ h ∧ (resume → p.Held guarded notify resume m (m' = m))

/-- The thread `t`, which owns `m` at most if `h`, owns it only while it runs. -/
def Thread.Gives (allow : (a : S.Act) → S.Ans a → Prop) (m : S.Mutex) (h : Prop) :
    Thread S L → Prop
  | .idle => ¬ h
  | .run _ p => p.Gives allow m h
  | .asleep _ _ m' p | .woken _ m' p => ¬ h ∧ p.Gives allow m (m' = m)

/-- The steps of `ok` leave the woken threads alone, unless `resume`. -/
def Resumes (resume : Prop) (ok : Conf S σ L W → W → Ev S L → Prop) : Prop :=
  ∀ ⦃c w ev⦄, ok c w ev → resume ∨ (c.thr w).isWoken = false

section
omit [DecidableEq W] [DecidableEq S.Mutex] [DecidableEq S.Cond]

@[simp] theorem Thread.held_run {h : Prop} {l : L} {p : Prog S} :
    (Thread.run l p).Held guarded notify resume m h ↔ p.Held guarded notify resume m h := Iff.rfl

@[simp] theorem Thread.gives_run {h : Prop} {l : L} {p : Prog S} :
    (Thread.run l p).Gives allow m h ↔ p.Gives allow m h := Iff.rfl

/-- A thread that respects `m` owns it at a guarded action. -/
theorem Thread.Held.of_nextAct {t : Thread S L} {h : Prop} (ht : t.Held guarded notify resume m h)
    {a : S.Act} (ha : t.nextAct = some a) (hg : guarded a) : h := by
  cases t with
  | run l p =>
    cases p with
    | act b k => cases ha; exact ht.1 hg
    | await b bl us cd m' k => cases ha; exact ht.1 hg
    | _ => cases ha
  | _ => cases ha

/-- A thread that respects `m` owns it when it gives it back. -/
theorem Thread.Held.of_givesBack {t : Thread S L} {h : Prop} (ht : t.Held guarded notify resume m h)
    (hm : t.givesBack = some m) : h := by
  cases t with
  | run l p =>
    cases p with
    | unlock m' k => cases hm; exact ht.1 rfl
    | wait cd m' k => cases hm; exact ht.1.2 rfl
    | _ => cases hm
  | _ => cases hm

theorem Thread.Gives.mono {t : Thread S L} {h h' : Prop} (ht : t.Gives allow m h) (hh : h' → h) :
    t.Gives allow m h' := by
  cases t with
  | idle => exact fun hx => ht (hh hx)
  | run l p => exact Prog.Gives.mono ht hh
  | asleep l cd m' p => exact ⟨fun hx => ht.1 (hh hx), ht.2⟩
  | woken l m' p => exact ⟨fun hx => ht.1 (hh hx), ht.2⟩

end

omit [DecidableEq W] [DecidableEq S.Cond] in
/-- A step of `w` keeps the discipline of `w`. -/
theorem Moves.held (h : Moves X body w s o t ev s' o' t')
    (hb : ∀ l, ev = .start l → t = .idle → (body l).Held guarded notify resume m (o m = some w))
    (hr : resume ∨ t.isWoken = false) (hw : t.Held guarded notify resume m (o m = some w)) :
    t'.Held guarded notify resume m (o' m = some w) := by
  cases h with
  | start l => exact hb l rfl rfl
  | ret => trivial
  | act => exact hw.2 _
  | lock ho => simpa [owner_taken, Prog.Held] using hw
  | unlock => simpa [owner_freed] using (Thread.held_run.1 hw).2
  | signal | broadcast => exact (Thread.held_run.1 hw).2
  | wait =>
    obtain ⟨ho, hk⟩ := Thread.held_run.1 hw
    exact ⟨fun h => (owner_freed.1 h).1 (ho.1 (owner_freed.1 h).2), fun hres => (hk hres).congr ho⟩
  | spurious => exact hw
  | relock ho =>
    have hk := hw.2 (hr.resolve_right fun hx => by cases hx)
    simpa [owner_taken, hw.1] using hk
  | pass => exact hw.2.1 _
  | park =>
    obtain ⟨hg, hk, hn, hm', hh, hres⟩ := Thread.held_run.1 hw
    exact Prog.held_unlocks hn hm' hh fun hx => ⟨hres hx, ⟨hg, hk, hn, hm', hh, hres⟩⟩

/-- A step of a thread that respects `m` keeps the discipline of all threads. -/
theorem Step.held (h : Step X body w c ev c')
    (hb : ∀ l, ev = .start l → c.thr w = .idle →
      (body l).Held guarded notify resume m (c.owner m = some w))
    (hr : resume ∨ (c.thr w).isWoken = false)
    (hc : ∀ v, (c.thr v).Held guarded notify resume m (c.owner m = some v)) (v : W) :
    (c'.thr v).Held guarded notify resume m (c'.owner m = some v) := by
  by_cases hv : v = w
  · subst hv; exact h.moves.held hb hr (hc v)
  · rw [propext (h.owner_other (hc w).of_givesBack hv)]
    rcases h.other hv with he | ⟨l, cd, m', p, he, he'⟩
    · rw [he]; exact hc v
    · have := hc v
      rw [he] at this; rw [he']; exact this

/-- **Exact ownership.**  Programs that respect the ownership of `m` do so in
    every interleaving. -/
theorem Reach.held (hb : ∀ h l, (body l).Held guarded notify resume m h) (hok : Resumes resume ok)
    (h : Reach X body ok (Conf.init s₀) c) (w : W) : (c.thr w).Held guarded notify resume m (c.owner m = some w) := by
  refine Reach.invariant
    (I := fun c => ∀ w, (c.thr w).Held guarded notify resume m (c.owner m = some w)) (fun _ => by trivial) ?_ h w
  intro c w ev c' _ hc hst ho
  exact hst.held (fun l _ _ => hb _ l) (hok ho) hc

omit [DecidableEq W] [DecidableEq S.Cond] in
/-- A step of `w` keeps what `w` owes to the others. -/
theorem Moves.gives (h : Moves X body w s o t ev s' o' t')
    (hb : ∀ l, ev = .start l → (body l).Gives allow m False)
    (ha : ∀ a e r s', ev = .did a r → X a e s = some (r, s') → allow a r)
    (hw : t.Gives allow m (o m = some w)) : t'.Gives allow m (o' m = some w) := by
  cases h with
  | start l => exact (hb l rfl).mono hw
  | ret | spurious => exact hw
  | act hx => exact hw _ (ha _ _ _ _ rfl hx)
  | lock ho => simpa [owner_taken, Prog.Gives] using hw
  | unlock => simpa [owner_freed, Prog.Gives] using hw
  | signal | broadcast => simpa [Prog.Gives] using hw
  | wait =>
    obtain ⟨ho, hk⟩ := Thread.gives_run.1 hw
    exact ⟨fun h => (owner_freed.1 h).1 (ho (owner_freed.1 h).2), hk⟩
  | relock ho => simpa [owner_taken, hw.1] using hw.2
  | pass hx => exact (hw.1 _ (ha _ _ _ _ rfl hx)).mono Or.inr
  | @park _ a b us cd m' k =>
    obtain ⟨hk, hh⟩ := Thread.gives_run.1 hw
    have hk' : (Prog.await a b us cd m' k).Gives allow m (m' = m) :=
      ⟨fun r hr => (hk r hr).mono fun hx => Or.inl (hx.elim id id), Or.inr⟩
    exact Prog.gives_unlocks hh hk'

/-- **Nothing kept.**  Programs that give `m` back own it, in every
    interleaving, only while they run. -/
theorem Reach.gives (hb : ∀ c w l, ok c w (.start l) → (body l).Gives allow m False)
    (ha : ∀ c w a e r s, ok c w (.did a r) → X a e c.st = some (r, s) → allow a r)
    (h : Reach X body ok (Conf.init s₀) c) (w : W) : (c.thr w).Gives allow m (c.owner m = some w) := by
  refine Reach.invariant (I := fun c => ∀ w, (c.thr w).Gives allow m (c.owner m = some w))
    (fun _ => by simp [Conf.init, Thread.Gives]) ?_ h w
  intro c w ev c' _ hc hst ho v
  by_cases hv : v = w
  · subst hv
    exact hst.moves.gives (fun l he => hb _ _ l (he ▸ ho)) (fun a e r s he => ha _ _ a e r s (he ▸ ho)) (hc v)
  · have hv' := (hc v).mono fun hx => hst.owner_of_other hv hx
    rcases hst.other hv with he | ⟨l, cd, m', p, he, he'⟩
    · rw [he]; exact hv'
    · rw [he] at hv'; rw [he']; exact hv'

/-- Where nothing is kept, the programs may rely on not owning `m` at their start. -/
theorem Reach.held_gives (hb : ∀ l, (body l).Held guarded notify resume m False)
    (hg : ∀ l, (body l).Gives (fun _ _ => True) m False) (hok : Resumes resume ok)
    (h : Reach X body ok (Conf.init s₀) c) (w : W) :
    (c.thr w).Held guarded notify resume m (c.owner m = some w) := by
  refine Reach.invariant
    (I := fun c => ∀ w, (c.thr w).Held guarded notify resume m (c.owner m = some w)) (fun _ => by trivial) ?_ h w
  intro c w ev c' hr hc hst ho
  refine hst.held (fun l _ hidle => (hb l).congr ?_) (hok ho) hc
  have hown := hr.gives (fun _ _ l _ => hg l) (fun _ _ _ _ _ _ _ _ => trivial) w
  rw [hidle] at hown
  exact ⟨False.elim, hown⟩

/-! ## Going to sleep -/

variable {A : L → (a : S.Act) → (S.Ans a → Prog S) → Prop}
  {P : L → (a : S.Act) → (S.Ans a → Bool) → List S.Mutex → S.Cond → S.Mutex → Prop}

omit [DecidableEq W] [DecidableEq S.Mutex] [DecidableEq S.Cond] in
/-- A thread on the way to its sleep on `cd` owns the mutex with which it will sleep. -/
theorem Thread.Held.of_parksOn {l : L} {p : Prog S} {h : Prop} {cd : S.Cond}
    (hh : (Thread.run l p).Held guarded notify resume m h) (hs : (Thread.run l p).Shaped A P)
    (hP : ∀ a b us m', P l a b us cd m' → m' = m) (hp : p.parksOn = some cd) : h := by
  rcases hs with hs | ⟨a, b, us, vs, cd', m', k, -, rfl, ha⟩
  · have hn := hs.parking
    rw [Prog.parking_eq, hp] at hn
    cases hn
  · rw [Prog.parksOn_unlocks] at hp
    cases hp
    obtain rfl := hP _ _ _ _ ha.1
    exact Prog.Held.of_unlocks_wait (Thread.held_run.1 hh)

omit [DecidableEq W] [DecidableEq S.Mutex] [DecidableEq S.Cond] in
/-- A thread on the way to its sleep owns the mutex with which it will sleep. -/
theorem Thread.Held.of_parking {l : L} {p : Prog S} {h : Prop}
    (hh : (Thread.run l p).Held guarded notify resume m h) (hs : (Thread.run l p).Shaped A P)
    (hP : ∀ a b us cd m', P l a b us cd m' → m' = m) (hp : p.parking = true) : h := by
  rw [Prog.parking_eq] at hp
  obtain ⟨cd, hcd⟩ := Option.isSome_iff_exists.1 hp
  exact hh.of_parksOn hs (fun a b us m' => hP a b us cd m') hcd

end
end Threads
