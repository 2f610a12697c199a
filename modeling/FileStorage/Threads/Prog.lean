/-
  Thread programs over shared state: atomic actions, mutexes and condition
  variables.

  A program is a tree.  An action is atomic and gives back an answer on which
  the rest of the program depends; `lock`, `unlock`, `signal`, `broadcast` and
  `wait` are the operations on mutexes and condition variables; `await` is the
  loop

      while (blocked (r = a())) { unlock each of us; wait on c with m }

  of a thread that cannot go on yet.

  * `Runs` is the meaning of a program executed alone, up to its return, to
    the first blocked attempt of an `await`, or to an action that cannot be
    performed; its trace lists the actions with their answers.
    `run` computes one such execution (`run_sound`).
  * `wp` is the weakest precondition for `Runs` (`wp_sound`, `wp_complete`).
  * `Budget cost n` bounds the cost of the actions of a program on every path
    (`Runs.budget`).
  * `Returns` follows the mutexes a thread holds, up to its return; here an
    `await` is resumed any number of times, each time in an arbitrary state.
-/
import Mathlib.Logic.Function.Basic
import Mathlib.Data.Set.Basic

namespace Threads

/-- A signature: the atomic actions with the types of their answers, the
    mutexes and the condition variables. -/
structure Sig where
  Act : Type
  Ans : Act → Type
  Mutex : Type
  Cond : Type

/-- Programs of a thread. -/
inductive Prog (S : Sig) : Type
  | ret
  | act (a : S.Act) (k : S.Ans a → Prog S)
  | lock (m : S.Mutex) (k : Prog S)
  | unlock (m : S.Mutex) (k : Prog S)
  | signal (c : S.Cond) (k : Prog S)
  | broadcast (c : S.Cond) (k : Prog S)
  | wait (c : S.Cond) (m : S.Mutex) (k : Prog S)
  | await (a : S.Act) (blocked : S.Ans a → Bool) (us : List S.Mutex) (c : S.Cond) (m : S.Mutex)
      (k : S.Ans a → Prog S)

/-- Atomic execution of the actions on states `σ`: the environment `E` settles
    what the state does not determine, `none` if the action cannot be performed. -/
abbrev Exec (S : Sig) (σ E : Type) : Type := (a : S.Act) → E → σ → Option (S.Ans a × σ)

/-- An action with its answer. -/
abbrev Done (S : Sig) : Type := (a : S.Act) × S.Ans a

namespace Prog
variable {S : Sig} {σ E : Type}

/-- `unlock` each of `us`, then go on with `k`. -/
def unlocks (us : List S.Mutex) (k : Prog S) : Prog S := us.foldr .unlock k

@[simp] theorem unlocks_nil (k : Prog S) : unlocks [] k = k := rfl

@[simp] theorem unlocks_cons (m : S.Mutex) (us : List S.Mutex) (k : Prog S) :
    unlocks (m :: us) k = .unlock m (unlocks us k) := rfl

/-! ## A program executed alone -/

/-- How the execution of a program ends. -/
inductive Outcome where
  /-- the program returned -/
  | returned
  /-- an attempt of an `await` was blocked -/
  | parked
  /-- an action could not be performed -/
  | stuck
  deriving DecidableEq, Repr

/-- Execution of a program alone. -/
inductive Runs (X : Exec S σ E) : Prog S → σ → List (Done S) → Outcome → σ → Prop
  | ret {s} : Runs X .ret s [] .returned s
  | act {a k e s r s₁ t o s'} : X a e s = some (r, s₁) → Runs X (k r) s₁ t o s' →
      Runs X (.act a k) s (⟨a, r⟩ :: t) o s'
  | fails {a k s} : (∀ e, X a e s = none) → Runs X (.act a k) s [] .stuck s
  | lock {m k s t o s'} : Runs X k s t o s' → Runs X (.lock m k) s t o s'
  | unlock {m k s t o s'} : Runs X k s t o s' → Runs X (.unlock m k) s t o s'
  | signal {c k s t o s'} : Runs X k s t o s' → Runs X (.signal c k) s t o s'
  | broadcast {c k s t o s'} : Runs X k s t o s' → Runs X (.broadcast c k) s t o s'
  | wait {c m k s} : Runs X (.wait c m k) s [] .parked s
  | park {a b us c m k e s r s'} : X a e s = some (r, s') → b r = true →
      Runs X (.await a b us c m k) s [⟨a, r⟩] .parked s'
  | pass {a b us c m k e s r s₁ t o s'} : X a e s = some (r, s₁) → b r = false →
      Runs X (k r) s₁ t o s' → Runs X (.await a b us c m k) s (⟨a, r⟩ :: t) o s'
  | failsAwait {a b us c m k s} : (∀ e, X a e s = none) →
      Runs X (.await a b us c m k) s [] .stuck s

theorem Runs.act_cases {X : Exec S σ E} {a : S.Act} {k : S.Ans a → Prog S} {s s' : σ}
    {t : List (Done S)} {o : Outcome} (h : Runs X (.act a k) s t o s') :
    (∃ e r s₁ t₁, X a e s = some (r, s₁) ∧ t = ⟨a, r⟩ :: t₁ ∧ Runs X (k r) s₁ t₁ o s') ∨
      (∀ e, X a e s = none) ∧ t = [] ∧ o = .stuck ∧ s' = s := by
  cases h with
  | act hx h => exact Or.inl ⟨_, _, _, _, hx, rfl, h⟩
  | fails hx => exact Or.inr ⟨hx, rfl, rfl, rfl⟩

/-- Execute a program alone, its actions in the environments of the list. -/
def run (X : Exec S σ E) : Prog S → List E → σ → Option (List (Done S) × Outcome × σ)
  | .ret, _, s => some ([], .returned, s)
  | .act a k, e :: es, s => (X a e s).bind fun x =>
      (run X (k x.1) es x.2).map fun y => (⟨a, x.1⟩ :: y.1, y.2)
  | .lock _ k, es, s | .unlock _ k, es, s | .signal _ k, es, s | .broadcast _ k, es, s => run X k es s
  | .wait _ _ _, _, s => some ([], .parked, s)
  | .await a b _ _ _ k, e :: es, s => (X a e s).bind fun x =>
      bif b x.1 then some ([⟨a, x.1⟩], .parked, x.2)
      else (run X (k x.1) es x.2).map fun y => (⟨a, x.1⟩ :: y.1, y.2)
  | _, [], _ => none

theorem run_sound {X : Exec S σ E} {p : Prog S} : ∀ {es : List E} {s : σ} {t : List (Done S)}
    {o : Outcome} {s' : σ}, run X p es s = some (t, o, s') → Runs X p s t o s' := by
  induction p with
  | ret => intro es s t o s' h; cases h; exact .ret
  | act a k ih =>
    intro es s t o s' h
    cases es with
    | nil => cases h
    | cons e es =>
      obtain ⟨⟨r, s₁⟩, hx, h⟩ := Option.bind_eq_some_iff.1 h
      obtain ⟨⟨t, o, s'⟩, h', he⟩ := Option.map_eq_some_iff.1 h
      cases he
      exact .act hx (ih r h')
  | lock m k ih => intro es s t o s' h; exact .lock (@ih es _ _ _ _ (by simpa [run] using h))
  | unlock m k ih => intro es s t o s' h; exact .unlock (@ih es _ _ _ _ (by simpa [run] using h))
  | signal c k ih => intro es s t o s' h; exact .signal (@ih es _ _ _ _ (by simpa [run] using h))
  | broadcast c k ih => intro es s t o s' h; exact .broadcast (@ih es _ _ _ _ (by simpa [run] using h))
  | wait c m k => intro es s t o s' h; cases es <;> cases h <;> exact .wait
  | await a b us c m k ih =>
    intro es s t o s' h
    cases es with
    | nil => cases h
    | cons e es =>
      obtain ⟨⟨r, s₁⟩, hx, h⟩ := Option.bind_eq_some_iff.1 h
      cases hb : b r with
      | true =>
        simp only [hb, cond_true] at h
        cases h; exact .park hx hb
      | false =>
        simp only [hb, cond_false] at h
        obtain ⟨⟨t, o, s'⟩, h', he⟩ := Option.map_eq_some_iff.1 h
        cases he
        exact .pass hx hb (ih r h')

/-- The weakest precondition of a program executed alone after the trace `t`. -/
def wp (X : Exec S σ E) (Q : List (Done S) → Outcome → σ → Prop) :
    Prog S → List (Done S) → σ → Prop
  | .ret, t, s => Q t .returned s
  | .act a k, t, s => (∀ e r s', X a e s = some (r, s') → wp X Q (k r) (t ++ [⟨a, r⟩]) s') ∧
      ((∀ e, X a e s = none) → Q t .stuck s)
  | .lock _ k, t, s | .unlock _ k, t, s | .signal _ k, t, s | .broadcast _ k, t, s => wp X Q k t s
  | .wait _ _ _, t, s => Q t .parked s
  | .await a b _ _ _ k, t, s =>
      (∀ e r s', X a e s = some (r, s') → if b r then Q (t ++ [⟨a, r⟩]) .parked s'
        else wp X Q (k r) (t ++ [⟨a, r⟩]) s') ∧
      ((∀ e, X a e s = none) → Q t .stuck s)

section
variable {X : Exec S σ E} {Q : List (Done S) → Outcome → σ → Prop} {k : Prog S}
  {t : List (Done S)} {s : σ}

@[simp] theorem wp_ret : wp X Q .ret t s ↔ Q t .returned s := Iff.rfl

@[simp] theorem wp_lock {m : S.Mutex} : wp X Q (.lock m k) t s ↔ wp X Q k t s := Iff.rfl

@[simp] theorem wp_unlock {m : S.Mutex} : wp X Q (.unlock m k) t s ↔ wp X Q k t s := Iff.rfl

@[simp] theorem wp_signal {c : S.Cond} : wp X Q (.signal c k) t s ↔ wp X Q k t s := Iff.rfl

@[simp] theorem wp_broadcast {c : S.Cond} : wp X Q (.broadcast c k) t s ↔ wp X Q k t s := Iff.rfl

end

theorem wp_sound {X : Exec S σ E} {Q : List (Done S) → Outcome → σ → Prop} {p : Prog S} {s : σ}
    {t' : List (Done S)} {o : Outcome} {s' : σ} (h : Runs X p s t' o s') :
    ∀ t, wp X Q p t s → Q (t ++ t') o s' := by
  induction h with
  | ret => intro t h; simpa [wp] using h
  | @act _ _ _ _ r _ _ _ _ hx _ ih =>
    intro t h
    have := ih _ (h.1 _ _ _ hx)
    simpa using this
  | fails hx => intro t h; simpa using h.2 hx
  | lock _ ih | unlock _ ih | signal _ ih | broadcast _ ih => intro t h; exact ih t h
  | wait => intro t h; simpa [wp] using h
  | park hx hb =>
    intro t h
    have := h.1 _ _ _ hx
    simpa [hb] using this
  | pass hx hb _ ih =>
    intro t h
    have := h.1 _ _ _ hx
    simp only [hb, Bool.false_eq_true, if_false] at this
    simpa using ih _ this
  | failsAwait hx => intro t h; simpa using h.2 hx

theorem wp_complete {X : Exec S σ E} {Q : List (Done S) → Outcome → σ → Prop} :
    ∀ (p : Prog S) (t : List (Done S)) (s : σ),
      (∀ t' o s', Runs X p s t' o s' → Q (t ++ t') o s') → wp X Q p t s := by
  intro p
  induction p with
  | ret => intro t s h; have := h _ _ _ .ret; simpa [wp] using this
  | act a k ih =>
    intro t s h
    refine ⟨fun e r s₁ hx => ih r _ _ fun t' o s' hr => ?_, fun hx => ?_⟩
    · simpa using h _ _ _ (.act hx hr)
    · simpa using h _ _ _ (.fails hx)
  | lock m k ih => intro t s h; exact ih t s fun t' o s' hr => h _ _ _ (.lock hr)
  | unlock m k ih => intro t s h; exact ih t s fun t' o s' hr => h _ _ _ (.unlock hr)
  | signal c k ih => intro t s h; exact ih t s fun t' o s' hr => h _ _ _ (.signal hr)
  | broadcast c k ih => intro t s h; exact ih t s fun t' o s' hr => h _ _ _ (.broadcast hr)
  | wait c m k => intro t s h; have := h _ _ _ .wait; simpa [wp] using this
  | await a b us c m k ih =>
    intro t s h
    refine ⟨fun e r s₁ hx => ?_, fun hx => ?_⟩
    · cases hb : b r with
      | true => simpa using h _ _ _ (.park hx hb)
      | false =>
        simp only [Bool.false_eq_true, if_false]
        exact ih r _ _ fun t' o s' hr => by simpa using h _ _ _ (.pass hx hb hr)
    · simpa using h _ _ _ (.failsAwait hx)

/-- **`wp` is the weakest precondition.** -/
theorem wp_iff {X : Exec S σ E} {Q : List (Done S) → Outcome → σ → Prop} {p : Prog S} {s : σ} :
    wp X Q p [] s ↔ ∀ t o s', Runs X p s t o s' → Q t o s' :=
  ⟨fun h _ _ _ hr => wp_sound hr [] h, fun h => wp_complete p [] s fun t o s' hr => h t o s' hr⟩

theorem wp_mono {X : Exec S σ E} {Q Q' : List (Done S) → Outcome → σ → Prop} {p : Prog S}
    {t : List (Done S)} {s : σ} (h : wp X Q p t s) (hQ : ∀ t o s, Q t o s → Q' t o s) :
    wp X Q' p t s :=
  wp_complete p t s fun _ _ _ hr => hQ _ _ _ (wp_sound hr t h)

/-- A property of states kept by every action is kept by the program. -/
theorem Runs.invariant {X : Exec S σ E} {I : σ → Prop}
    (hI : ∀ a e s r s', I s → X a e s = some (r, s') → I s') {p : Prog S} {s : σ}
    {t : List (Done S)} {o : Outcome} {s' : σ} (h : Runs X p s t o s') (hs : I s) : I s' := by
  induction h with
  | ret | fails | wait | failsAwait => exact hs
  | act hx _ ih | pass hx _ _ ih => exact ih (hI _ _ _ _ _ hs hx)
  | lock _ ih | unlock _ ih | signal _ ih | broadcast _ ih => exact ih hs
  | park hx _ => exact hI _ _ _ _ _ hs hx

/-- On every path through the program the costs of the actions add up to at most `n`. -/
def Budget (cost : S.Act → ℕ) : Prog S → ℕ → Prop
  | .ret, _ => True
  | .act a k, n => cost a ≤ n ∧ ∀ r, Budget cost (k r) (n - cost a)
  | .lock _ k, n | .unlock _ k, n | .signal _ k, n | .broadcast _ k, n | .wait _ _ k, n =>
    Budget cost k n
  | .await a _ _ _ _ k, n => cost a ≤ n ∧ ∀ r, Budget cost (k r) (n - cost a)

/-- A measure that no action raises by more than its cost is raised by a
    program within its budget. -/
theorem Runs.budget {X : Exec S σ E} {I : σ → Prop} {m : σ → ℕ} {cost : S.Act → ℕ}
    (hI : ∀ a e s r s', I s → X a e s = some (r, s') → I s' ∧ m s' ≤ m s + cost a) {p : Prog S}
    {s : σ} {t : List (Done S)} {o : Outcome} {s' : σ} (h : Runs X p s t o s') (hs : I s) :
    ∀ n, Budget cost p n → I s' ∧ m s' ≤ m s + n := by
  induction h with
  | ret | fails | wait | failsAwait => exact fun n _ => ⟨hs, Nat.le_add_right _ _⟩
  | act hx _ ih | pass hx _ _ ih =>
    intro n ⟨hc, hb⟩
    obtain ⟨h1, h2⟩ := hI _ _ _ _ _ hs hx
    obtain ⟨h3, h4⟩ := ih h1 _ (hb _)
    exact ⟨h3, by omega⟩
  | lock _ ih | unlock _ ih | signal _ ih | broadcast _ ih => exact fun n hb => ih hs n hb
  | park hx _ =>
    intro n ⟨hc, _⟩
    obtain ⟨h1, h2⟩ := hI _ _ _ _ _ hs hx
    exact ⟨h1, by omega⟩

/-! ## The mutexes held at the return -/

/-- `Returns X p s H H'`: a thread that runs `p` from the state `s` holding the
    mutexes `H` may return holding `H'`.  While it sleeps the state changes
    arbitrarily. -/
inductive Returns (X : Exec S σ E) : Prog S → σ → Set S.Mutex → Set S.Mutex → Prop
  | ret {s H} : Returns X .ret s H H
  | act {a k e s r s₁ H H'} : X a e s = some (r, s₁) → Returns X (k r) s₁ H H' →
      Returns X (.act a k) s H H'
  | lock {m k s H H'} : Returns X k s (insert m H) H' → Returns X (.lock m k) s H H'
  | unlock {m k s H H'} : Returns X k s (H \ {m}) H' → Returns X (.unlock m k) s H H'
  | signal {c k s H H'} : Returns X k s H H' → Returns X (.signal c k) s H H'
  | broadcast {c k s H H'} : Returns X k s H H' → Returns X (.broadcast c k) s H H'
  | wait {c m k s s₁ H H'} : Returns X k s₁ (insert m H) H' → Returns X (.wait c m k) s H H'
  | pass {a b us c m k e s r s₁ H H'} : X a e s = some (r, s₁) → b r = false →
      Returns X (k r) s₁ H H' → Returns X (.await a b us c m k) s H H'
  | park {a b us c m k e s r s₁ H H'} : X a e s = some (r, s₁) → b r = true →
      Returns X (unlocks us (.wait c m (.await a b us c m k))) s₁ H H' →
      Returns X (.await a b us c m k) s H H'

end Prog

end Threads
