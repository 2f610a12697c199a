/-
  Actions without a defined effect.

  * `definedOn dom X` executes the actions as `X`, except that an action that is
    not in `dom` leaves an arbitrary state.  Every execution by `X` is one of
    these (`Step.to_definedOn`).
  * `RunsWith X ok` are the executions of a program alone whose actions satisfy
    `ok`, a condition on the action and the state before it; `Reach` has such a
    condition for the interleaved executions.  Where all actions are in `dom`,
    the two executions are the same (`RunsWith.defined`, `Reach.defined`).
-/
import FileStorage.Threads.Conf

namespace Threads

variable {S : Sig} {σ E L W : Type} {dom ok : S.Act → σ → Prop} [∀ a s, Decidable (dom a s)]
  [∀ a s, Decidable (ok a s)] {X : Exec S σ E}

/-- Execution of actions that are defined on `dom` only: after another one the
    state is arbitrary. -/
def definedOn (dom : S.Act → σ → Prop) [∀ a s, Decidable (dom a s)] (X : Exec S σ E) :
    Exec S σ (E × σ) :=
  fun a e s => (X a e.1 s).map fun x => (x.1, if dom a s then x.2 else e.2)

theorem definedOn_eq {a : S.Act} {e : E × σ} {s : σ} (h : dom a s) : definedOn dom X a e s = X a e.1 s := by
  simp [definedOn, h]

/-- The state may be the one that `X` leaves. -/
theorem definedOn_self {a : S.Act} {e : E} {s : σ} {x : S.Ans a × σ} (h : X a e s = some x) :
    definedOn dom X a (e, x.2) s = some x := by
  simp [definedOn, h]

namespace Prog

/-! ## A program executed alone -/

/-- Execution that notes whether all actions so far have satisfied `ok`. -/
def noting (ok : S.Act → σ → Prop) [∀ a s, Decidable (ok a s)] (X : Exec S σ E) : Exec S (σ × Bool) E :=
  fun a e s => (X a e s.1).map fun x => (x.1, (x.2, s.2 && decide (ok a s.1)))

theorem noting_eq_some {a : S.Act} {e : E} {s s' : σ × Bool} {r : S.Ans a}
    (h : noting ok X a e s = some (r, s')) :
    X a e s.1 = some (r, s'.1) ∧ (s'.2 = true → s.2 = true ∧ ok a s.1) := by
  obtain ⟨x, hx, he⟩ := Option.map_eq_some_iff.1 h
  cases he
  exact ⟨hx, fun hb => by simpa using hb⟩

/-- An execution of a program alone whose actions satisfy `ok`. -/
def RunsWith (X : Exec S σ E) (ok : S.Act → σ → Prop) [∀ a s, Decidable (ok a s)] (p : Prog S) (s : σ)
    (t : List (Done S)) (o : Outcome) (s' : σ) : Prop :=
  Runs (noting ok X) p (s, true) t o (s', true)

section
variable {F : Type} {Y : Exec S σ F} {p : Prog S} {t : List (Done S)} {o : Outcome}
  (hXY : ∀ a e s r s', ok a s → X a e s = some (r, s') → ∃ e', Y a e' s = some (r, s'))
  (hno : ∀ a s, (∀ e, X a e s = none) → ∀ e, Y a e s = none)
include hXY hno

theorem Runs.of_noting {x y : σ × Bool} (h : Runs (noting ok X) p x t o y) :
    y.2 = true → x.2 = true ∧ Runs Y p x.1 t o y.1 := by
  -- an action that cannot be performed
  have hfails : ∀ {a} {s : σ × Bool}, (∀ e, noting ok X a e s = none) → ∀ e, Y a e s.1 = none :=
    fun hx => hno _ _ fun e => Option.map_eq_none_iff.1 (hx e)
  induction h with
  | ret => exact fun hb => ⟨hb, .ret⟩
  | act hx _ ih =>
    intro hb
    obtain ⟨hb₁, h₁⟩ := ih hb
    obtain ⟨hx, hok⟩ := noting_eq_some hx
    obtain ⟨e', hy⟩ := hXY _ _ _ _ _ (hok hb₁).2 hx
    exact ⟨(hok hb₁).1, .act hy h₁⟩
  | fails hx => exact fun hb => ⟨hb, .fails (hfails hx)⟩
  | lock _ ih => exact fun hb => (ih hb).imp_right .lock
  | unlock _ ih => exact fun hb => (ih hb).imp_right .unlock
  | signal _ ih => exact fun hb => (ih hb).imp_right .signal
  | broadcast _ ih => exact fun hb => (ih hb).imp_right .broadcast
  | wait => exact fun hb => ⟨hb, .wait⟩
  | park hx hp =>
    intro hb
    obtain ⟨hx, hok⟩ := noting_eq_some hx
    obtain ⟨e', hy⟩ := hXY _ _ _ _ _ (hok hb).2 hx
    exact ⟨(hok hb).1, .park hy hp⟩
  | pass hx hp _ ih =>
    intro hb
    obtain ⟨hb₁, h₁⟩ := ih hb
    obtain ⟨hx, hok⟩ := noting_eq_some hx
    obtain ⟨e', hy⟩ := hXY _ _ _ _ _ (hok hb₁).2 hx
    exact ⟨(hok hb₁).1, .pass hy hp h₁⟩
  | failsAwait hx => exact fun hb => ⟨hb, .failsAwait (hfails hx)⟩

/-- It is an execution by any `Y` that agrees with `X` where `ok` is satisfied. -/
theorem RunsWith.congr {s s' : σ} (h : RunsWith X ok p s t o s') : Runs Y p s t o s' :=
  (Runs.of_noting hXY hno h rfl).2

end

/-- **Defined executions.**  A program whose actions are all in `dom` does what
    it does by `X`. -/
theorem RunsWith.defined {p : Prog S} {s s' : σ} {t : List (Done S)} {o : Outcome}
    (h : RunsWith (definedOn dom X) dom p s t o s') : Runs X p s t o s' :=
  RunsWith.congr (fun _ e _ _ _ hd hx => ⟨e.1, by rwa [definedOn_eq hd] at hx⟩)
    (fun _ s hx e => Option.map_eq_none_iff.1 (hx (e, s))) h

end Prog

/-! ## Interleaved executions -/

section
variable [DecidableEq W] [DecidableEq S.Mutex] [DecidableEq S.Cond] {body : L → Prog S}
  {c c₀ c' : Conf S σ L W} {w : W} {ev : Ev S L}

/-- The action of the step is in `dom`. -/
def Ev.DefinedOn (dom : S.Act → σ → Prop) (s : σ) : Ev S L → Prop
  | .did a _ => dom a s
  | _ => True

/-- A step by `X` is one by `Y`, if its action may have the same effect by `Y`. -/
theorem Step.congr {F : Type} {Y : Exec S σ F} (h : Step X body w c ev c')
    (hXY : ∀ a r e s, ev = .did a r → X a e c.st = some (r, s) → ∃ e', Y a e' c.st = some (r, s)) :
    Step Y body w c ev c' := by
  cases h with
  | start l hw => exact .start l hw
  | ret hw => exact .ret hw
  | act hw hx =>
    obtain ⟨e', hy⟩ := hXY _ _ _ _ rfl hx
    exact .act hw hy
  | lock hw hm => exact .lock hw hm
  | unlock hw => exact .unlock hw
  | signal hw hv => exact .signal hw hv
  | signalNone hw hv => exact .signalNone hw hv
  | broadcast hw => exact .broadcast hw
  | wait hw => exact .wait hw
  | spurious hw => exact .spurious hw
  | relock hw hm => exact .relock hw hm
  | pass hw hx hb =>
    obtain ⟨e', hy⟩ := hXY _ _ _ _ rfl hx
    exact .pass hw hy hb
  | park hw hx hb =>
    obtain ⟨e', hy⟩ := hXY _ _ _ _ rfl hx
    exact .park hw hy hb

/-- Every step by `X` is one in which the actions outside `dom` do the same. -/
theorem Step.to_definedOn (h : Step X body w c ev c') : Step (definedOn dom X) body w c ev c' :=
  h.congr fun _ _ e s _ hx => ⟨(e, s), definedOn_self hx⟩

theorem Reach.to_definedOn {ok : Conf S σ L W → W → Ev S L → Prop} (h : Reach X body ok c₀ c) :
    Reach (definedOn dom X) body ok c₀ c := by
  induction h with
  | init => exact .init
  | step _ hst ho ih => exact .step ih hst.to_definedOn ho

/-- A step whose action is in `dom` is one by `X`. -/
theorem Step.defined (h : Step (definedOn dom X) body w c ev c') (hd : ev.DefinedOn dom c.st) :
    Step X body w c ev c' := by
  refine h.congr fun a r e s he hx => ?_
  subst he
  rw [definedOn_eq hd] at hx
  exact ⟨e.1, hx⟩

/-- **Defined runs.**  A run whose actions are all in `dom` is a run by `X`. -/
theorem Reach.defined {ok : Conf S σ L W → W → Ev S L → Prop}
    (hok : ∀ c w ev, ok c w ev → ev.DefinedOn dom c.st)
    (h : Reach (definedOn dom X) body ok c₀ c) : Reach X body ok c₀ c := by
  induction h with
  | init => exact .init
  | step _ hst ho ih => exact .step ih (hst.defined (hok _ _ _ ho)) ho

end

end Threads
