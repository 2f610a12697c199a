/-
  Runs with their histories.

  The history of a run is what the threads have done, the oldest first.  The
  typestates of a thread may then depend on the history: `view w h s` is what
  thread `w` alone changes, in the state `s` after the history `h`.

  * `Run.reach` and `Reach.exists_run`: the runs of the reachable configurations.
  * `Run.upholds`: programs that find the view that their actions need, and
    leave one from which the next task can start, do so in every interleaving.
  * `trace` executes a schedule and keeps the history.
-/
import FileStorage.Threads.Shape

namespace Threads

variable {S : Sig} {σ E L W V : Type}

namespace Prog
variable {need : S.Act → V → Prop} {next : (a : S.Act) → S.Ans a → V → V → Prop} {post : V → Prop}
  {v : V} {p : Prog S}

/-- Each action of the program finds the view that it needs, and its return
    leaves one that satisfies `post`. -/
def Upholds (need : S.Act → V → Prop) (next : (a : S.Act) → S.Ans a → V → V → Prop) (post : V → Prop) :
    V → Prog S → Prop
  | v, .ret => post v
  | v, .act a k => need a v ∧ ∀ r v', next a r v v' → Upholds need next post v' (k r)
  | v, .lock _ k | v, .unlock _ k | v, .signal _ k | v, .broadcast _ k | v, .wait _ _ k =>
    Upholds need next post v k
  | v, .await a _ _ _ _ k =>
    need a v ∧ ∀ r v', next a r v v' → v' = v ∧ Upholds need next post v (k r)

@[simp] theorem upholds_unlocks {us : List S.Mutex} :
    (unlocks us p).Upholds need next post v ↔ p.Upholds need next post v := by
  induction us with
  | nil => rfl
  | cons u us ih => exact ih

@[simp] theorem upholds_ite {b : Prop} [Decidable b] {q : Prog S} :
    (if b then p else q).Upholds need next post v ↔
      (b → p.Upholds need next post v) ∧ (¬ b → q.Upholds need next post v) := by
  split_ifs <;> simp [*]

theorem Upholds.of_upcoming {a : S.Act} (h : p.Upholds need next post v) (ha : p.upcoming = some a) :
    need a v := by
  induction p with
  | ret => cases ha
  | act | await => cases ha; exact h.1
  | lock _ _ ih | unlock _ _ ih | signal _ _ ih | broadcast _ _ ih | wait _ _ _ ih => exact ih h ha

end Prog

/-- What the thread still has to do upholds the typestates, and an idle thread
    has a view from which it can start. -/
def Thread.Upholds (need : L → S.Act → V → Prop) (next : (a : S.Act) → S.Ans a → V → V → Prop)
    (post : V → Prop) (v : V) : Thread S L → Prop
  | .idle => post v
  | .run l p | .asleep l _ _ p | .woken l _ p => p.Upholds (need l) next post v

theorem Thread.Upholds.of_upcoming {need : L → S.Act → V → Prop}
    {next : (a : S.Act) → S.Ans a → V → V → Prop} {post : V → Prop} {v : V} {t : Thread S L} {a : S.Act}
    (h : t.Upholds need next post v) (ha : t.upcoming = some a) : ∃ l, t.task = some l ∧ need l a v := by
  cases t with
  | idle => cases ha
  | run l | asleep l | woken l => exact ⟨l, rfl, Prog.Upholds.of_upcoming h ha⟩

section
variable [DecidableEq W] [DecidableEq S.Mutex] [DecidableEq S.Cond]

/-- The runs from `c₀` by steps that satisfy `ok`, with their histories. -/
inductive Run (X : Exec S σ E) (body : L → Prog S) (ok : Conf S σ L W → W → Ev S L → Prop)
    (c₀ : Conf S σ L W) : List (W × Ev S L) → Conf S σ L W → Prop
  | init : Run X body ok c₀ [] c₀
  | step {h c c' w ev} : Run X body ok c₀ h c → Step X body w c ev c' → ok c w ev →
      Run X body ok c₀ (h ++ [(w, ev)]) c'

variable {X : Exec S σ E} {body : L → Prog S} {ok : Conf S σ L W → W → Ev S L → Prop} {s₀ : σ}
  {c₀ c c' : Conf S σ L W} {h : List (W × Ev S L)} {w : W} {ev : Ev S L}

theorem Run.reach (hr : Run X body ok c₀ h c) : Reach X body ok c₀ c := by
  induction hr with
  | init => exact .init
  | step _ hst ho ih => exact .step ih hst ho

theorem Reach.exists_run (hr : Reach X body ok c₀ c) : ∃ h, Run X body ok c₀ h c := by
  induction hr with
  | init => exact ⟨[], .init⟩
  | step _ hst ho ih =>
    obtain ⟨h, hr⟩ := ih
    exact ⟨_, .step hr hst ho⟩

theorem Run.mono {ok' : Conf S σ L W → W → Ev S L → Prop} (hok : ∀ c w ev, ok c w ev → ok' c w ev)
    (hr : Run X body ok c₀ h c) : Run X body ok' c₀ h c := by
  induction hr with
  | init => exact .init
  | step _ hst ho ih => exact .step ih hst (hok _ _ _ ho)

/-! ## Typestates -/

omit [DecidableEq W] [DecidableEq S.Cond] in
/-- A step keeps the typestates of the thread. -/
theorem Moves.upholds {need : L → S.Act → V → Prop} {next : (a : S.Act) → S.Ans a → V → V → Prop}
    {post : V → Prop} {v v' : V} {s s' : σ} {o o' : S.Mutex → Option W} {t t' : Thread S L}
    (hm : Moves X body w s o t ev s' o' t')
    (hb : ∀ l, ev = .start l → post v → (body l).Upholds (need l) next post v)
    (hown : ∀ a r, ev = .did a r → next a r v v') (hquiet : (∀ a r, ev ≠ .did a r) → v' = v)
    (hw : t.Upholds need next post v) : t'.Upholds need next post v' := by
  cases hm with
  | start l =>
    rw [hquiet fun a r he => by cases he]
    exact hb l rfl hw
  | act => exact hw.2 _ _ (hown _ _ rfl)
  | pass =>
    obtain ⟨he, hk⟩ := hw.2 _ _ (hown _ _ rfl)
    rw [he]
    exact hk
  | park =>
    obtain ⟨he, -⟩ := hw.2 _ _ (hown _ _ rfl)
    rw [he]
    exact Prog.upholds_unlocks.2 hw
  | _ =>
    rw [hquiet fun a r he => by cases he]
    exact hw

/-- **Typestates that depend on the history.** -/
theorem Run.upholds (view : W → List (W × Ev S L) → σ → V) (need : W → L → S.Act → V → Prop)
    (next : W → (a : S.Act) → S.Ans a → V → V → Prop) (post : W → V → Prop)
    (hinit : ∀ w, post w (view w [] s₀))
    (hb : ∀ h c w l, ok c w (.start l) → post w (view w h c.st) →
      (body l).Upholds (need w l) (next w) (post w) (view w h c.st))
    (hown : ∀ h c w l a r c', Run X body ok (Conf.init s₀) h c → Step X body w c (.did a r) c' →
      ok c w (.did a r) → need w l a (view w h c.st) →
      next w a r (view w h c.st) (view w (h ++ [(w, .did a r)]) c'.st))
    (hother : ∀ h w u l a e s r s', u ≠ w → need w l a (view w h s) → X a e s = some (r, s') →
      view u (h ++ [(w, .did a r)]) s' = view u h s)
    (hquiet : ∀ h w u ev s, (∀ a r, ev ≠ .did a r) → view u (h ++ [(w, ev)]) s = view u h s)
    (hr : Run X body ok (Conf.init s₀) h c) (w : W) :
    (c.thr w).Upholds (need w) (next w) (post w) (view w h c.st) := by
  induction hr generalizing w with
  | init => exact hinit w
  | @step h c c' u ev hr hst ho ih =>
    have hsame : (∀ a r, ev ≠ .did a r) → view w (h ++ [(u, ev)]) c'.st = view w h c.st := by
      intro hne
      rcases hst.st_cases with he | ⟨a, e, r, he, -⟩
      · rw [he, hquiet h u w ev _ hne]
      · exact absurd he (hne a r)
    -- what `u` needs for its action
    have hneed : ∀ a r, ev = .did a r → ∃ l, need u l a (view u h c.st) := by
      rintro a r rfl
      obtain ⟨l, -, hn⟩ := (ih u).of_upcoming (a := a) (by cases hst with
        | act ht | pass ht | park ht => rw [ht]; rfl)
      exact ⟨l, hn⟩
    by_cases hw : w = u
    · subst hw
      refine hst.moves.upholds (fun l he => hb h c w l (he ▸ ho)) ?_ hsame (ih w)
      rintro a r rfl
      obtain ⟨l, hn⟩ := hneed a r rfl
      exact hown h c w l a r c' hr hst ho hn
    · have hview : view w (h ++ [(u, ev)]) c'.st = view w h c.st := by
        cases ev with
        | did a r =>
          obtain ⟨l, hn⟩ := hneed a r rfl
          obtain ⟨e, hx⟩ := hst.exec_did
          exact hother h u w l a e _ r _ hw hn hx
        | _ => exact hsame fun a r he => by cases he
      rw [hview]
      rcases hst.other hw with he | ⟨l, cd, m, p, he, he'⟩
      · rw [he]
        exact ih w
      · have hold := ih w
        rw [he] at hold
        rw [he']
        exact hold

/-! ## Executing a schedule -/

/-- Run a schedule by steps that satisfy `ok`, and add them to the history. -/
def trace (X : Exec S σ E) (body : L → Prog S) (ok : Conf S σ L W → W → Ev S L → Bool) :
    List (W × Choice L E W) → List (W × Ev S L) → Conf S σ L W →
      Option (List (W × Ev S L) × Conf S σ L W)
  | [], h, c => some (h, c)
  | (w, ch) :: xs, h, c => (fire X body c w ch).bind fun y =>
      if ok c w y.1 then trace X body ok xs (h ++ [(w, y.1)]) y.2 else none

theorem trace_run {ok : Conf S σ L W → W → Ev S L → Bool} {x : List (W × Ev S L) × Conf S σ L W}
    (xs : List (W × Choice L E W)) (hr : Run X body (fun c w ev => ok c w ev = true) c₀ h c)
    (hx : trace X body ok xs h c = some x) : Run X body (fun c w ev => ok c w ev = true) c₀ x.1 x.2 := by
  induction xs generalizing h c with
  | nil => cases hx; exact hr
  | cons y xs ih =>
    obtain ⟨⟨ev, c₁⟩, hfire, hx⟩ := Option.bind_eq_some_iff.1 hx
    split at hx
    · exact ih (.step hr (fire_step hfire) ‹_›) hx
    · cases hx

end

end Threads
