/-
  The form of the programs that threads run.

  `Shaped A P` says that a program sleeps only in loops `await` that satisfy
  `P`, and that `A` holds of its actions with what follows them.

  * `Reach.shaped` says which programs threads run then around their sleeps.
  * `Step.upcoming_did` says which action follows an action.
  * `Step.waiting` says that a thread goes to sleep after a blocked attempt only.
-/
import FileStorage.Threads.Conf

namespace Threads

variable {S : Sig} {σ E L W : Type}

namespace Prog
variable {p : Prog S}

/-- The program sleeps only in loops `await` that satisfy `P`, and `A` holds of
    its actions with what follows them. -/
def Shaped (A : (a : S.Act) → (S.Ans a → Prog S) → Prop)
    (P : (a : S.Act) → (S.Ans a → Bool) → List S.Mutex → S.Cond → S.Mutex → Prop) : Prog S → Prop
  | .ret => True
  | .act a k => A a k ∧ ∀ r, Shaped A P (k r)
  | .lock _ k | .unlock _ k | .signal _ k | .broadcast _ k => Shaped A P k
  | .wait _ _ _ => False
  | .await a b us c m k => P a b us c m ∧ A a k ∧ ∀ r, Shaped A P (k r)

/-- The program goes to sleep after giving mutexes back. -/
def parking : Prog S → Bool
  | .unlock _ k => parking k
  | .wait _ _ _ => true
  | _ => false

/-- The condition on which the program goes to sleep after giving mutexes back. -/
def parksOn : Prog S → Option S.Cond
  | .unlock _ k => parksOn k
  | .wait c _ _ => some c
  | _ => none

theorem parking_eq : ∀ p : Prog S, p.parking = p.parksOn.isSome
  | .unlock _ k => parking_eq k
  | .wait _ _ _ | .ret | .act _ _ | .lock _ _ | .signal _ _ | .broadcast _ _
  | .await _ _ _ _ _ _ => rfl

@[simp] theorem parksOn_unlocks {us : List S.Mutex} : (unlocks us p).parksOn = p.parksOn := by
  induction us with
  | nil => rfl
  | cons u us ih => exact ih

/-- A broadcast on `cd` comes before the next action of the program, and before
    any broadcast on one of `no`. -/
def notifies [DecidableEq S.Cond] (cd : S.Cond) (no : List S.Cond) : Prog S → Bool
  | .lock _ k | .unlock _ k | .signal _ k => notifies cd no k
  | .broadcast c k => decide (c ∉ no) && (decide (c = cd) || notifies cd no k)
  | _ => false

@[simp] theorem notifies_unlocks [DecidableEq S.Cond] {cd : S.Cond} {no : List S.Cond}
    {us : List S.Mutex} : (unlocks us p).notifies cd no = p.notifies cd no := by
  induction us with
  | nil => rfl
  | cons u us ih => exact ih

@[simp] theorem notifies_ite [DecidableEq S.Cond] {cd : S.Cond} {no : List S.Cond} {b : Prop}
    [Decidable b] {q : Prog S} : (if b then p else q).notifies cd no =
      if b then p.notifies cd no else q.notifies cd no := by
  split_ifs <;> rfl

section
variable {A : (a : S.Act) → (S.Ans a → Prog S) → Prop}
  {P : (a : S.Act) → (S.Ans a → Bool) → List S.Mutex → S.Cond → S.Mutex → Prop}

@[simp] theorem shaped_ite {b : Prop} [Decidable b] {q : Prog S} :
    (if b then p else q).Shaped A P ↔ (b → p.Shaped A P) ∧ (¬ b → q.Shaped A P) := by
  split_ifs <;> simp [*]

theorem Shaped.parking (h : p.Shaped A P) : p.parking = false := by
  induction p with
  | unlock m k ih => exact ih h
  | wait => exact absurd h id
  | _ => rfl

end

@[simp] theorem parking_unlocks {us : List S.Mutex} : (unlocks us p).parking = p.parking := by
  induction us with
  | nil => rfl
  | cons u us ih => exact ih

end Prog

/-! ## Sleeping -/

section
variable [DecidableEq W] [DecidableEq S.Mutex] [DecidableEq S.Cond] {X : Exec S σ E}
  {body : L → Prog S} {s₀ : σ} {c c' : Conf S σ L W} {v w : W} {ev : Ev S L}
  {ok : Conf S σ L W → W → Ev S L → Prop} {s s' : σ} {o o' : S.Mutex → Option W} {t t' : Thread S L}

omit [DecidableEq W] [DecidableEq S.Mutex] [DecidableEq S.Cond] in
/-- The program of the thread is shaped, or the thread is on the way to its
    sleep, asleep, or woken up in a shaped loop. -/
def Thread.Shaped (A : L → (a : S.Act) → (S.Ans a → Prog S) → Prop)
    (P : L → (a : S.Act) → (S.Ans a → Bool) → List S.Mutex → S.Cond → S.Mutex → Prop) :
    Thread S L → Prop
  | .idle => True
  | .run l p => p.Shaped (A l) (P l) ∨ ∃ a b us vs cd m k, vs <:+ us ∧
      p = .unlocks vs (.wait cd m (.await a b us cd m k)) ∧ (Prog.await a b us cd m k).Shaped (A l) (P l)
  | .asleep l cd m p => ∃ a b us k, p = .await a b us cd m k ∧ p.Shaped (A l) (P l)
  | .woken l m p => ∃ a b us cd k, p = .await a b us cd m k ∧ p.Shaped (A l) (P l)

variable {A : L → (a : S.Act) → (S.Ans a → Prog S) → Prop}
  {P : L → (a : S.Act) → (S.Ans a → Bool) → List S.Mutex → S.Cond → S.Mutex → Prop}

omit [DecidableEq W] [DecidableEq S.Mutex] [DecidableEq S.Cond] in
theorem Thread.Shaped.shaped {l : L} {p : Prog S} (h : (Thread.run l p).Shaped A P)
    (hp : p.parking = false) : p.Shaped (A l) (P l) := by
  rcases h with h | ⟨a, b, us, vs, cd, m, k, -, rfl, -⟩
  · exact h
  · rw [Prog.parking_unlocks] at hp; cases hp

omit [DecidableEq W] [DecidableEq S.Mutex] [DecidableEq S.Cond] in
theorem Thread.Shaped.cases {l : L} {p : Prog S} (h : (Thread.run l p).Shaped A P) :
    p.Shaped (A l) (P l) ∨ ∃ a b us cd m k, (Prog.await a b us cd m k).Shaped (A l) (P l) ∧
      (p = .wait cd m (.await a b us cd m k) ∨ ∃ u vs, u :: vs <:+ us ∧
        p = .unlock u (.unlocks vs (.wait cd m (.await a b us cd m k)))) := by
  rcases h with h | ⟨a, b, us, vs, cd, m, k, hvs, hp, ha⟩
  · exact Or.inl h
  · refine Or.inr ⟨a, b, us, cd, m, k, ha, ?_⟩
    cases vs with
    | nil => exact Or.inl hp
    | cons u vs => exact Or.inr ⟨u, vs, hvs, hp⟩

omit [DecidableEq W] [DecidableEq S.Cond] in
/-- A step keeps the form of the program of the thread. -/
theorem Moves.shaped (h : Moves X body w s o t ev s' o' t') (hb : ∀ l, (body l).Shaped (A l) (P l))
    (hw : t.Shaped A P) : t'.Shaped A P := by
  cases h with
  | start l => exact Or.inl (hb l)
  | ret => trivial
  | act => exact Or.inl ((hw.shaped rfl).2 _)
  | lock | signal | broadcast =>
    have hk := hw.shaped rfl
    exact Or.inl hk
  | unlock =>
    rcases hw.cases with h | ⟨a, b, us, cd, m', k', ha, hp | ⟨u, vs, hvs, hp⟩⟩
    · exact Or.inl h
    · cases hp
    · obtain ⟨rfl, rfl⟩ := Prog.unlock.inj hp
      exact Or.inr ⟨a, b, us, vs, cd, m', k', (List.suffix_cons _ vs).trans hvs, rfl, ha⟩
  | wait =>
    rcases hw.cases with h | ⟨a, b, us, cd, m, k, ha, hp | ⟨u, vs, -, hp⟩⟩
    · exact absurd h id
    · cases hp; exact ⟨a, b, us, k, rfl, ha⟩
    · cases hp
  | spurious =>
    obtain ⟨a, b, us, k, hp, ha⟩ := hw
    exact ⟨a, b, us, _, k, hp, ha⟩
  | relock =>
    obtain ⟨a, b, us, cd, k, rfl, ha⟩ := hw
    exact Or.inl ha
  | pass => exact Or.inl ((hw.shaped rfl).2.2 _)
  | park => exact Or.inr ⟨_, _, _, _, _, _, _, List.suffix_rfl, rfl, hw.shaped rfl⟩

/-- Programs that sleep in loops only do so in every interleaving. -/
theorem Reach.shaped (hb : ∀ l, (body l).Shaped (A l) (P l)) (h : Reach X body ok (Conf.init s₀) c) (w : W) :
    (c.thr w).Shaped A P := by
  refine Reach.invariant (I := fun c => ∀ w, (c.thr w).Shaped A P) (fun _ => by trivial) ?_ h w
  intro c w ev c' _ hc hst _ v
  by_cases hv : v = w
  · subst hv; exact hst.moves.shaped hb (hc v)
  · rcases hst.other hv with he | ⟨l, cd, m', p, he, he'⟩
    · rw [he]; exact hc v
    · have := hc v
      rw [he] at this; rw [he']
      obtain ⟨a, b, us, k, hp, ha⟩ := this
      exact ⟨a, b, us, cd, k, hp, ha⟩

omit [DecidableEq W] [DecidableEq S.Cond] in
/-- The actions that a thread performs are those of its program. -/
theorem Moves.did_shaped {a : S.Act} {r : S.Ans a} (h : Moves X body w s o t (.did a r) s' o' t')
    (hw : t.Shaped A P) : ∃ l k, t.task = some l ∧ A l a k := by
  cases h with
  | act => exact ⟨_, _, rfl, (hw.shaped rfl).1⟩
  | pass | park => exact ⟨_, _, rfl, (hw.shaped rfl).2.1⟩

theorem Step.did_shaped {a : S.Act} {r : S.Ans a} (h : Step X body w c (.did a r) c')
    (hw : (c.thr w).Shaped A P) : ∃ l k, (c.thr w).task = some l ∧ A l a k :=
  h.moves.did_shaped hw

omit [DecidableEq W] [DecidableEq S.Cond] in
/-- After an action a thread goes on with what follows it, or tries again in a
    loop. -/
theorem Moves.upcoming_did {a : S.Act} {r : S.Ans a} (h : Moves X body w s o t (.did a r) s' o' t')
    (hw : t.Shaped A P) : t.upcoming = some a ∧
      ((∃ l k, A l a k ∧ t'.upcoming = (k r).upcoming) ∨
        (∃ l b us cd m, P l a b us cd m) ∧ t'.upcoming = some a) := by
  cases h with
  | act => exact ⟨rfl, Or.inl ⟨_, _, (hw.shaped rfl).1, rfl⟩⟩
  | pass => exact ⟨rfl, Or.inl ⟨_, _, (hw.shaped rfl).2.1, rfl⟩⟩
  | park =>
    exact ⟨rfl, Or.inr ⟨⟨_, _, _, _, _, (hw.shaped rfl).1⟩, Prog.upcoming_unlocks⟩⟩

theorem Step.upcoming_did {a : S.Act} {r : S.Ans a} (h : Step X body w c (.did a r) c')
    (hw : (c.thr w).Shaped A P) : (c.thr w).upcoming = some a ∧
      ((∃ l k, A l a k ∧ (c'.thr w).upcoming = (k r).upcoming) ∨
        (∃ l b us cd m, P l a b us cd m) ∧ (c'.thr w).upcoming = some a) :=
  h.moves.upcoming_did hw

/-! ## Waiting -/

omit [DecidableEq W] [DecidableEq S.Mutex] [DecidableEq S.Cond] in
/-- The task for which the thread sleeps or goes to sleep. -/
def Thread.waiting : Thread S L → Option L
  | .asleep l _ _ _ => some l
  | .run l p => if p.parking then some l else none
  | _ => none

omit [DecidableEq W] [DecidableEq S.Mutex] in
/-- The thread broadcasts on `cd` before its next action, and before any
    broadcast on one of `no`. -/
def Thread.notifies (cd : S.Cond) (no : List S.Cond) : Thread S L → Bool
  | .run _ p => p.notifies cd no
  | _ => false

/-- The other threads broadcast as before. -/
theorem Step.notifies_other (h : Step X body w c ev c') (hv : v ≠ w) (cd : S.Cond)
    (no : List S.Cond) : (c'.thr v).notifies cd no = (c.thr v).notifies cd no := by
  rcases h.other hv with he | ⟨l, cd', m, p, he, he'⟩
  · rw [he]
  · rw [he, he']; rfl

omit [DecidableEq W] [DecidableEq S.Mutex] [DecidableEq S.Cond] in
/-- The task for which the thread sleeps or goes to sleep, with the condition. -/
def Thread.waits : Thread S L → Option (L × S.Cond)
  | .asleep l cd _ _ => some (l, cd)
  | .run l p => p.parksOn.map (l, ·)
  | _ => none

omit [DecidableEq W] [DecidableEq S.Mutex] [DecidableEq S.Cond] in
theorem Thread.waiting_eq (t : Thread S L) : t.waiting = t.waits.map Prod.fst := by
  cases t with
  | run l p =>
    rw [Thread.waiting, Thread.waits, Prog.parking_eq]
    cases p.parksOn <;> rfl
  | _ => rfl

omit [DecidableEq W] [DecidableEq S.Cond] in
/-- A thread starts to wait at a blocked attempt only. -/
theorem Moves.waits (h : Moves X body w s o t ev s' o' t') (hb : ∀ l, (body l).Shaped (A l) (P l))
    (hw : t.Shaped A P) {l : L} {cd : S.Cond} (hv : t'.waits = some (l, cd)) :
    t.waits = some (l, cd) ∨
      ∃ a b us m e r, P l a b us cd m ∧ X a e s = some (r, s') ∧ b r = true := by
  -- a thread whose program is shaped does not wait
  have hno : ∀ {l' p}, (Thread.run l' p).waits = some (l, cd) → p.Shaped (A l') (P l') → False :=
    fun hx hp => by
      have hn := hp.parking
      rw [Prog.parking_eq, Option.isSome_eq_false_iff, Option.isNone_iff_eq_none] at hn
      rw [Thread.waits, hn] at hx
      cases hx
  cases h with
  | start l => exact (hno hv (hb l)).elim
  | ret | spurious => cases hv
  | act => exact (hno hv ((hw.shaped rfl).2 _)).elim
  | lock | signal | broadcast =>
    have hk := hw.shaped rfl
    exact (hno hv hk).elim
  | unlock | wait => exact Or.inl hv
  | relock =>
    obtain ⟨a, b, us, cd, k, rfl, ha⟩ := hw
    exact (hno hv ha).elim
  | pass => exact (hno hv ((hw.shaped rfl).2.2 _)).elim
  | park hx hbr =>
    have hk := hw.shaped rfl
    rw [Thread.waits, Prog.parksOn_unlocks] at hv
    cases hv
    exact Or.inr ⟨_, _, _, _, _, _, hk.1, hx, hbr⟩

theorem Step.waits (h : Step X body w c ev c') (hb : ∀ l, (body l).Shaped (A l) (P l))
    (hw : (c.thr w).Shaped A P) {v : W} {l : L} {cd : S.Cond}
    (hv : (c'.thr v).waits = some (l, cd)) : (c.thr v).waits = some (l, cd) ∨
      ∃ a b us m e r, P l a b us cd m ∧ X a e c.st = some (r, c'.st) ∧ b r = true := by
  by_cases hvw : v = w
  · subst hvw; exact h.moves.waits hb hw hv
  · rcases h.other hvw with he | ⟨l, cd, m, p, -, he⟩
    · rw [he] at hv; exact Or.inl hv
    · rw [he] at hv; cases hv

theorem Step.waiting (h : Step X body w c ev c') (hb : ∀ l, (body l).Shaped (A l) (P l))
    (hw : (c.thr w).Shaped A P) {v : W} {l : L} (hv : (c'.thr v).waiting = some l) :
    (c.thr v).waiting = some l ∨ ∃ a b us cd m e r, P l a b us cd m ∧
      X a e c.st = some (r, c'.st) ∧ b r = true := by
  rw [Thread.waiting_eq, Option.map_eq_some_iff] at hv
  obtain ⟨⟨l, cd⟩, hv, rfl⟩ := hv
  rcases h.waits hb hw hv with hv | ⟨a, b, us, m, e, r, hP⟩
  · rw [Thread.waiting_eq, hv]
    exact Or.inl rfl
  · exact Or.inr ⟨a, b, us, cd, m, e, r, hP⟩

end
end Threads
