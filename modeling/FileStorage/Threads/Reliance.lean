/-
  Check, then use.

  Some actions of a task check a condition `Sure` on the state, others use it.
  A program relies on the condition if some path through it reaches a use
  before the next check.  `Reach.assured`: in runs in which a disturbing action
  is performed only while no other thread relies on its condition, a thread
  that relies on its condition may do so.

  `Secures` is what the programs have to satisfy: a check after which the
  program relies on the condition has established it, and the thread's own
  actions keep it.
-/
import FileStorage.Threads.Shape

namespace Threads

variable {S : Sig} {σ E L W : Type}

namespace Prog
variable {check use : S.Act → Prop}

/-- Some path through the program reaches a use before the next check. -/
def Relies (check use : S.Act → Prop) : Prog S → Prop
  | .ret => False
  | .act a k | .await a _ _ _ _ k => ¬ check a ∧ (use a ∨ ∃ r, Relies check use (k r))
  | .lock _ k | .unlock _ k | .signal _ k | .broadcast _ k | .wait _ _ k => Relies check use k

@[simp] theorem relies_unlocks {us : List S.Mutex} {p : Prog S} :
    (unlocks us p).Relies check use ↔ p.Relies check use := by
  induction us with
  | nil => rfl
  | cons u us ih => exact ih

/-- A check establishes the condition on which the program relies after it, and
    the other actions keep it. -/
def Secures (X : Exec S σ E) (I : σ → Prop) (check use : S.Act → Prop) (Sure : σ → Prop) (a : S.Act)
    (k : S.Ans a → Prog S) : Prop :=
  ∀ e s r s', I s → X a e s = some (r, s') → (k r).Relies check use → (check a ∨ Sure s) → Sure s'

end Prog

def Thread.Relies (check use : L → S.Act → Prop) : Thread S L → Prop
  | .idle => False
  | .run l p | .asleep l _ _ p | .woken l _ p => p.Relies (check l) (use l)

/-- The condition on which the thread relies holds in the state `s`. -/
def Thread.Assured (check use : L → S.Act → Prop) (Sure : L → σ → Prop) (s : σ) (t : Thread S L) :
    Prop :=
  ∀ l, t.task = some l → t.Relies check use → Sure l s

/-- The step is no disturbing action, or no other thread relies on its condition. -/
def Undisturbed (disturbs : S.Act → Prop) (check use : L → S.Act → Prop) (c : Conf S σ L W) (w : W) :
    Ev S L → Prop
  | .did a _ => disturbs a → ∀ v, v ≠ w → ¬ (c.thr v).Relies check use
  | _ => True

section
variable [DecidableEq W] [DecidableEq S.Mutex] [DecidableEq S.Cond] {X : Exec S σ E}
  {body : L → Prog S} {s₀ : σ} {c c' : Conf S σ L W} {v w : W} {ev : Ev S L}
  {ok : Conf S σ L W → W → Ev S L → Prop} {s s' : σ} {o o' : S.Mutex → Option W} {t t' : Thread S L}
  {check use : L → S.Act → Prop} {Sure : L → σ → Prop}
  {I : σ → Prop} {disturbs : S.Act → Prop}
  {A : L → (a : S.Act) → (S.Ans a → Prog S) → Prop}
  {P : L → (a : S.Act) → (S.Ans a → Bool) → List S.Mutex → S.Cond → S.Mutex → Prop}

omit [DecidableEq W] [DecidableEq S.Cond] in
/-- A step keeps the assurance of the thread. -/
theorem Moves.assured (h : Moves X body w s o t ev s' o' t') (hb : ∀ l, ¬ (body l).Relies (check l) (use l))
    (hA : ∀ l a k, A l a k → Prog.Secures X I (check l) (use l) (Sure l) a k)
    (hP : ∀ l a b us cd m, P l a b us cd m → check l a) (hI : I s)
    (hsh : t.Shaped A P) (hw : t.Assured check use Sure s) : t'.Assured check use Sure s' := by
  -- a thread that goes on with `k` after the action `a`
  have hdid : ∀ {l a k e r s'}, (¬ check l a → (∃ r, (k r).Relies (check l) (use l)) → Sure l s) →
      A l a k → X a e s = some (r, s') → (Thread.run l (k r)).Assured check use Sure s' := by
    intro l a k e r s' hbefore ha hx l' hl hr
    cases hl
    by_cases hc : check l a
    · exact hA l a k ha e s r s' hI hx hr (Or.inl hc)
    · exact hA l a k ha e s r s' hI hx hr (Or.inr (hbefore hc ⟨r, hr⟩))
  cases h with
  | start l => intro l' hl hr; cases hl; exact absurd hr (hb l)
  | ret => intro l' hl; cases hl
  | act hx => exact hdid (fun hn hr => hw _ rfl ⟨hn, Or.inr hr⟩) (hsh.shaped rfl).1 hx
  | pass hx => exact hdid (fun hn hr => hw _ rfl ⟨hn, Or.inr hr⟩) (hsh.shaped rfl).2.1 hx
  | park =>
    -- the blocked attempt was a check, and will be made again
    intro l' hl hr
    cases hl
    have hr' := Prog.relies_unlocks.1 hr
    exact absurd (hP _ _ _ _ _ _ (hsh.shaped rfl).1) hr'.1
  | _ => exact hw

/-- **Check, then use.**  A thread that relies on its condition may do so in all
    runs without disturbance. -/
theorem Reach.assured (hb : ∀ l, ¬ (body l).Relies (check l) (use l))
    (hsh : ∀ l, (body l).Shaped (A l) (P l))
    (hA : ∀ l a k, A l a k → Prog.Secures X I (check l) (use l) (Sure l) a k)
    (hP : ∀ l a b us cd m, P l a b us cd m → check l a)
    (hI : ∀ c, Reach X body ok (Conf.init s₀) c → I c.st)
    (hd : ∀ a e s r s' l, ¬ disturbs a → X a e s = some (r, s') → Sure l s → Sure l s')
    (hok : ∀ c w ev, ok c w ev → Undisturbed disturbs check use c w ev)
    (h : Reach X body ok (Conf.init s₀) c) (w : W) : (c.thr w).Assured check use Sure c.st := by
  refine Reach.invariant (I := fun c => ∀ w, (c.thr w).Assured check use Sure c.st)
    (fun _ l hl => by cases hl) ?_ h w
  intro c w ev c' hr hc hst ho v
  by_cases hv : v = w
  · subst hv; exact hst.moves.assured hb hA hP (hI c hr) (hr.shaped hsh v) (hc v)
  · -- another thread keeps its assurance if `w` does not disturb it
    have hv' : (c'.thr v).Relies check use → (c.thr v).Relies check use := by
      rcases hst.other hv with he | ⟨l, cd, m, p, he, he'⟩
      · rw [he]; exact id
      · rw [he, he']; exact id
    have htask : (c'.thr v).task = (c.thr v).task := by
      rcases hst.other hv with he | ⟨l, cd, m, p, he, he'⟩
      · rw [he]
      · rw [he, he']; rfl
    intro l hl hrel
    have hsure := hc v l (htask ▸ hl) (hv' hrel)
    rcases hst.st_cases with he | ⟨a, e, r, rfl, hx⟩
    · rw [he]; exact hsure
    · by_cases ha : disturbs a
      · exact absurd (hv' hrel) (hok _ _ _ ho ha v hv)
      · exact hd a e _ r _ l ha hx hsure

omit [DecidableEq W] [DecidableEq S.Mutex] [DecidableEq S.Cond] in
/-- A thread that sleeps or is woken up relies on nothing, as it checks again. -/
theorem Thread.Shaped.not_relies {t : Thread S L} (h : t.Shaped A P)
    (hP : ∀ l a b us cd m, P l a b us cd m → check l a) (ht : ∀ l p, t ≠ .run l p) :
    ¬ t.Relies check use := by
  cases t with
  | idle => exact id
  | run l p => exact absurd rfl (ht l p)
  | asleep l cd m p => obtain ⟨a, b, us, k, rfl, hs⟩ := h; exact fun hr => hr.1 (hP _ _ _ _ _ _ hs.1)
  | woken l m p => obtain ⟨a, b, us, cd, k, rfl, hs⟩ := h; exact fun hr => hr.1 (hP _ _ _ _ _ _ hs.1)

omit [DecidableEq W] [DecidableEq S.Mutex] [DecidableEq S.Cond] in
/-- A thread about to make a use. -/
theorem Thread.Assured.of_nextAct {t : Thread S L} {s : σ} (h : t.Assured check use Sure s) {l : L}
    {a : S.Act} (hl : t.task = some l) (ha : t.nextAct = some a) (hc : ¬ check l a) (hu : use l a) :
    Sure l s := by
  cases t with
  | run l' p =>
    cases hl
    cases p with
    | act b k => cases ha; exact h l rfl ⟨hc, Or.inl hu⟩
    | await b bl us cd m k => cases ha; exact h l rfl ⟨hc, Or.inl hu⟩
    | _ => cases ha
  | _ => cases ha

end

end Threads
