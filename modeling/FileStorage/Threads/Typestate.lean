/-
  Typestates: a part of the state that only the thread itself changes.

  `view w s` is the part of the state `s` that belongs to thread `w`.  A
  program obeys the typestates if each of its actions finds the view that it
  needs (`need`), where `next` says how an action may change the view.
  `Reach.obeys`: programs that obey at their start do so in every interleaving.
-/
import FileStorage.Threads.Run

namespace Threads

variable {S : Sig} {σ E L W V : Type}

namespace Prog
variable {need : S.Act → V → Prop} {next : (a : S.Act) → S.Ans a → V → V → Prop} {v : V} {p : Prog S}

/-- Each action of the program finds the view that it needs. -/
def Obeys (need : S.Act → V → Prop) (next : (a : S.Act) → S.Ans a → V → V → Prop) : V → Prog S → Prop
  | _, .ret => True
  | v, .act a k => need a v ∧ ∀ r v', next a r v v' → Obeys need next v' (k r)
  | v, .lock _ k | v, .unlock _ k | v, .signal _ k | v, .broadcast _ k | v, .wait _ _ k =>
    Obeys need next v k
  | v, .await a _ _ _ _ k => need a v ∧ ∀ r v', next a r v v' → v' = v ∧ Obeys need next v (k r)

@[simp] theorem obeys_ite {b : Prop} [Decidable b] {q : Prog S} :
    (if b then p else q).Obeys need next v ↔
      (b → p.Obeys need next v) ∧ (¬ b → q.Obeys need next v) := by
  split_ifs <;> simp [*]

theorem upholds_iff_obeys : p.Upholds need next (fun _ => True) v ↔ p.Obeys need next v := by
  induction p generalizing v with
  | ret => rfl
  | act a k ih | await a _ _ _ _ k ih => simp only [Upholds, Obeys, ih]
  | lock _ _ ih | unlock _ _ ih | signal _ _ ih | broadcast _ _ ih | wait _ _ _ ih => exact ih

end Prog

/-- What the thread still has to do obeys the typestates. -/
def Thread.Obeys (need : S.Act → V → Prop) (next : (a : S.Act) → S.Ans a → V → V → Prop) (v : V) :
    Thread S L → Prop
  | .idle => True
  | .run _ p | .asleep _ _ _ p | .woken _ _ p => p.Obeys need next v

theorem Thread.upholds_iff_obeys {need : S.Act → V → Prop}
    {next : (a : S.Act) → S.Ans a → V → V → Prop} {v : V} {t : Thread S L} :
    t.Upholds (fun _ => need) next (fun _ => True) v ↔ t.Obeys need next v := by
  cases t with
  | idle => rfl
  | run | asleep | woken => exact Prog.upholds_iff_obeys

theorem Thread.Obeys.of_upcoming {need : S.Act → V → Prop}
    {next : (a : S.Act) → S.Ans a → V → V → Prop} {v : V} {t : Thread S L} {a : S.Act}
    (h : t.Obeys need next v) (ha : t.upcoming = some a) : need a v := by
  obtain ⟨-, -, hn⟩ := (Thread.upholds_iff_obeys.2 h).of_upcoming ha
  exact hn

/-- **Typestates.**  Programs that obey at their start do so in every run. -/
theorem Reach.obeys [DecidableEq W] [DecidableEq S.Mutex] [DecidableEq S.Cond] {X : Exec S σ E}
    {body : L → Prog S} {s₀ : σ} {c : Conf S σ L W} {ok : Conf S σ L W → W → Ev S L → Prop}
    (view : W → σ → V) (need : W → S.Act → V → Prop)
    (next : W → (a : S.Act) → S.Ans a → V → V → Prop)
    (hb : ∀ c w l, ok c w (.start l) → (body l).Obeys (need w) (next w) (view w c.st))
    (hown : ∀ c w a r c', Reach X body ok (Conf.init s₀) c → Step X body w c (.did a r) c' →
      ok c w (.did a r) → need w a (view w c.st) → next w a r (view w c.st) (view w c'.st))
    (hother : ∀ w u a e s r s', u ≠ w → need w a (view w s) → X a e s = some (r, s') →
      view u s' = view u s)
    (h : Reach X body ok (Conf.init s₀) c) (w : W) :
    (c.thr w).Obeys (need w) (next w) (view w c.st) := by
  obtain ⟨hist, hr⟩ := h.exists_run
  refine Thread.upholds_iff_obeys.1 (hr.upholds (fun w _ s => view w s) (fun w _ => need w) next
    (fun _ _ => True) (fun _ => trivial) ?_ ?_ ?_ (fun _ _ _ _ _ _ => rfl) w)
  · exact fun _ c w l ho _ => Prog.upholds_iff_obeys.2 (hb c w l ho)
  · exact fun _ c w _ a r c' hr hst ho hn => hown c w a r c' hr.reach hst ho hn
  · exact fun _ w u _ a e s r s' hu hn hx => hother w u a e s r s' hu hn hx

end Threads
