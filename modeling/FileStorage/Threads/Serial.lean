/-
  Critical sections one after the other.

  A task that takes a mutex `m` once, performs its guarded actions while it
  owns it, and has no action left when it has given it back, may be executed
  as if it ran alone, from the moment it takes `m`.

  * `Screens X guarded R`: actions that are not guarded change nothing but what
    `R` does not see, and neither do they see it.
  * `Before`, `Inside`, `Still` are the programs of a task before, in and after
    its critical section.
  * `Serial` are the runs of tasks one after the other, each with its trace.
  * `Run.serial`: up to the first thread that comes back from a sleep every
    interleaving has the results of such a run.
-/
import FileStorage.Threads.Run
import FileStorage.Threads.Discipline

namespace Threads

variable {S : Sig} {σ E L W : Type} {guarded : S.Act → Prop} {R : σ → σ → Prop} {X : Exec S σ E}
  {m : S.Mutex}

/-- The actions that are not guarded do not touch the state up to `R`. -/
structure Screens (X : Exec S σ E) (guarded : S.Act → Prop) (R : σ → σ → Prop) : Prop where
  equiv : Equivalence R
  congr : ∀ {a e s r s' u}, R s u → X a e s = some (r, s') → ∃ u', X a e u = some (r, u') ∧ R s' u'
  quiet : ∀ {a e s r s'}, ¬ guarded a → X a e s = some (r, s') → R s s'
  blind : ∀ {a e s r s'}, ¬ guarded a → X a e s = some (r, s') → ∀ u, ∃ u', X a e u = some (r, u')

namespace Prog
variable {p q : Prog S} {t t' : List (Done S)} {s s₁ s₂ : σ}

/-! ## Programs executed in part -/

/-- `p` executed alone from `s` leads to `q` in the state `s₁` by the trace `t`. -/
inductive Leads (X : Exec S σ E) (p : Prog S) (s : σ) : List (Done S) → Prog S → σ → Prop
  | refl : Leads X p s [] p s
  | act {t a k e r s₁ s₂} : Leads X p s t (.act a k) s₁ → X a e s₁ = some (r, s₂) →
      Leads X p s (t ++ [⟨a, r⟩]) (k r) s₂
  | lock {t m k s₁} : Leads X p s t (.lock m k) s₁ → Leads X p s t k s₁
  | unlock {t m k s₁} : Leads X p s t (.unlock m k) s₁ → Leads X p s t k s₁
  | signal {t c k s₁} : Leads X p s t (.signal c k) s₁ → Leads X p s t k s₁
  | broadcast {t c k s₁} : Leads X p s t (.broadcast c k) s₁ → Leads X p s t k s₁
  | pass {t a b us c m k e r s₁ s₂} : Leads X p s t (.await a b us c m k) s₁ →
      X a e s₁ = some (r, s₂) → b r = false → Leads X p s (t ++ [⟨a, r⟩]) (k r) s₂

/-- A part of an execution with the rest of it. -/
theorem Leads.runs {o : Outcome} (h : Leads X p s t q s₁) :
    ∀ {t'}, Runs X q s₁ t' o s₂ → Runs X p s (t ++ t') o s₂ := by
  induction h with
  | refl => exact fun hr => hr
  | act _ hx ih =>
    intro t' hr
    rw [List.append_assoc]
    exact ih (.act hx hr)
  | lock _ ih => exact fun hr => ih (.lock hr)
  | unlock _ ih => exact fun hr => ih (.unlock hr)
  | signal _ ih => exact fun hr => ih (.signal hr)
  | broadcast _ ih => exact fun hr => ih (.broadcast hr)
  | pass _ hx hb ih =>
    intro t' hr
    rw [List.append_assoc]
    exact ih (.pass hx hb hr)

theorem Leads.congr (hR : Screens X guarded R) {u : σ} (hu : R s u) (h : Leads X p s t q s₁) :
    ∃ u₁, Leads X p u t q u₁ ∧ R s₁ u₁ := by
  induction h with
  | refl => exact ⟨u, .refl, hu⟩
  | act _ hx ih =>
    obtain ⟨u₁, h₁, hr⟩ := ih
    obtain ⟨u₂, hx', hr'⟩ := hR.congr hr hx
    exact ⟨u₂, .act h₁ hx', hr'⟩
  | lock _ ih =>
    obtain ⟨u₁, h₁, hr⟩ := ih
    exact ⟨u₁, .lock h₁, hr⟩
  | unlock _ ih =>
    obtain ⟨u₁, h₁, hr⟩ := ih
    exact ⟨u₁, .unlock h₁, hr⟩
  | signal _ ih =>
    obtain ⟨u₁, h₁, hr⟩ := ih
    exact ⟨u₁, .signal h₁, hr⟩
  | broadcast _ ih =>
    obtain ⟨u₁, h₁, hr⟩ := ih
    exact ⟨u₁, .broadcast h₁, hr⟩
  | pass _ hx hb ih =>
    obtain ⟨u₁, h₁, hr⟩ := ih
    obtain ⟨u₂, hx', hr'⟩ := hR.congr hr hx
    exact ⟨u₂, .pass h₁ hx' hb, hr'⟩

/-! ## The critical section -/

/-- The program performs no action any more, and gives `m` back only if it owns
    it (`own`). -/
def Still (m : S.Mutex) : Prop → Prog S → Prop
  | _, .ret => True
  | own, .unlock m' k => (m' = m → own) ∧ Still m (m' ≠ m ∧ own) k
  | own, .signal _ k | own, .broadcast _ k => Still m own k
  | own, .wait _ m' _ => m' = m → own
  | _, _ => False

/-- The program owns `m`, up to the point from which it is still. -/
def Inside (m : S.Mutex) : Prog S → Prop
  | .ret => True
  | .act _ k => ∀ r, Inside m (k r)
  | .lock m' k => m' ≠ m ∧ Inside m k
  | .unlock m' k => (m' = m → Still m False k) ∧ (m' ≠ m → Inside m k)
  | .signal _ k | .broadcast _ k => Inside m k
  | .wait _ _ _ => False
  | .await _ _ us _ m' k => us.Nodup ∧ m' ≠ m ∧ ∀ r, Inside m (k r)

/-- The program performs no guarded action before it takes `m`. -/
def Before (guarded : S.Act → Prop) (m : S.Mutex) : Prog S → Prop
  | .ret => True
  | .act a k => ¬ guarded a ∧ ∀ r, Before guarded m (k r)
  | .lock m' k => (m' = m → Inside m k) ∧ (m' ≠ m → Before guarded m k)
  | .unlock m' k => m' ≠ m ∧ Before guarded m k
  | .signal _ k | .broadcast _ k => Before guarded m k
  | .wait _ _ _ | .await _ _ _ _ _ _ => False

@[simp] theorem inside_ite {b : Prop} [Decidable b] :
    (if b then p else q).Inside m ↔ (b → p.Inside m) ∧ (¬ b → q.Inside m) := by
  split_ifs <;> simp [*]

theorem Still.congr {own own' : Prop} (hp : p.Still m own) (ho : own ↔ own') : p.Still m own' :=
  propext ho ▸ hp

/-- A still program returns or goes to sleep. -/
theorem Still.runs {own : Prop} (hp : p.Still m own) (s : σ) : ∃ o, Runs X p s [] o s := by
  induction p generalizing own with
  | ret => exact ⟨_, .ret⟩
  | unlock m' k ih =>
    obtain ⟨o, h⟩ := ih hp.2
    exact ⟨o, .unlock h⟩
  | signal c k ih =>
    obtain ⟨o, h⟩ := ih hp
    exact ⟨o, .signal h⟩
  | broadcast c k ih =>
    obtain ⟨o, h⟩ := ih hp
    exact ⟨o, .broadcast h⟩
  | wait c m' k => exact ⟨_, .wait⟩
  | act | lock | await => exact absurd hp id

/-- The way to a sleep is still. -/
theorem still_unlocks {c : S.Cond} {m' : S.Mutex} {us : List S.Mutex} (hm : m' ≠ m) :
    ∀ {own : Prop}, us.Nodup → (m ∈ us → own) → (unlocks us (.wait c m' p)).Still m own := by
  induction us with
  | nil => exact fun _ _ he => absurd he hm
  | cons u us ih =>
    intro own hn hown
    obtain ⟨hu, hn⟩ := List.nodup_cons.1 hn
    refine ⟨fun he => hown (he ▸ List.mem_cons_self), ih hn fun hmem => ⟨fun he => hu (he ▸ hmem), ?_⟩⟩
    exact hown (List.mem_cons_of_mem _ hmem)

end Prog

/-! ## Runs one after the other -/

/-- The tasks of a list, each with the thread that executes it and its trace, run
    one after the other. -/
inductive Serial (X : Exec S σ E) (body : L → Prog S) (s₀ : σ) : List (W × L × List (Done S)) → σ → Prop
  | nil : Serial X body s₀ [] s₀
  | snoc {ser s w l t o s'} : Serial X body s₀ ser s → Prog.Runs X (body l) s t o s' →
      Serial X body s₀ (ser ++ [(w, l, t)]) s'

/-- The action of an event. -/
def Ev.actions : Ev S L → List (Done S)
  | .did a r => [⟨a, r⟩]
  | _ => []

/-- The task of an event. -/
def Ev.tasks : Ev S L → List L
  | .start l => [l]
  | _ => []

@[simp] theorem Ev.actions_sync : (Ev.sync : Ev S L).actions = [] := rfl

@[simp] theorem Ev.tasks_sync : (Ev.sync : Ev S L).tasks = [] := rfl

section
variable [DecidableEq W]

/-- The actions of thread `w` with their answers. -/
def did (w : W) (h : List (W × Ev S L)) : List (Done S) :=
  h.flatMap fun x => if x.1 = w then x.2.actions else []

/-- The tasks that thread `w` has started. -/
def started (w : W) (h : List (W × Ev S L)) : List L :=
  h.flatMap fun x => if x.1 = w then x.2.tasks else []

/-- The traces of the tasks of thread `w`. -/
def traceOf (w : W) (ser : List (W × L × List (Done S))) : List (Done S) :=
  ser.flatMap fun x => if x.1 = w then x.2.2 else []

/-- The tasks of thread `w`. -/
def tasksOf (w : W) (ser : List (W × L × List (Done S))) : List L :=
  ser.flatMap fun x => if x.1 = w then [x.2.1] else []

variable {w v : W} {h : List (W × Ev S L)} {ev : Ev S L} {ser : List (W × L × List (Done S))} {l : L}
  {t : List (Done S)}

theorem did_snoc : did w (h ++ [(v, ev)]) = did w h ++ if v = w then ev.actions else [] := by
  simp [did]

theorem started_snoc : started w (h ++ [(v, ev)]) = started w h ++ if v = w then ev.tasks else [] := by
  simp [started]

theorem traceOf_snoc : traceOf w (ser ++ [(v, l, t)]) = traceOf w ser ++ if v = w then t else [] := by
  simp [traceOf]

theorem tasksOf_snoc : tasksOf w (ser ++ [(v, l, t)]) = tasksOf w ser ++ if v = w then [l] else [] := by
  simp [tasksOf]

end

section
variable {α : Type} [DecidableEq W]

/-- What belongs to thread `w`. -/
def proj (w : W) (l : List (W × α)) : List α := l.filterMap fun x => if x.1 = w then some x.2 else none

/-- Each element with the thread of its list. -/
def tagged (l : List (W × List α)) : List (W × α) := l.flatMap fun x => x.2.map fun a => (x.1, a)

theorem proj_append {w : W} {l₁ l₂ : List (W × α)} : proj w (l₁ ++ l₂) = proj w l₁ ++ proj w l₂ :=
  List.filterMap_append

/-- Two sequences in which each thread has the same part have the same elements. -/
theorem perm_of_proj {l₁ : List (W × α)} :
    ∀ {l₂}, (∀ w, proj w l₁ = proj w l₂) → l₁.Perm l₂ := by
  induction l₁ with
  | nil =>
    intro l₂ h
    cases l₂ with
    | nil => exact .nil
    | cons x l₂ => simpa [proj] using h x.1
  | cons x l₁ ih =>
    intro l₂ h
    have hx : proj x.1 l₂ = x.2 :: proj x.1 l₁ := by
      rw [← h x.1]
      simp [proj]
    obtain ⟨k₁, y, k₂, rfl, hk, hy, -⟩ := List.filterMap_eq_cons_iff.1 hx
    obtain rfl : y = x := by
      rw [Option.ite_none_right_eq_some] at hy
      exact Prod.ext hy.1 (Option.some.inj hy.2)
    refine (List.Perm.cons y (ih fun w => ?_)).trans List.perm_middle.symm
    -- the rest of the two sequences
    have hw := h w
    by_cases he : y.1 = w
    · subst he
      have hnil : proj y.1 k₁ = [] := List.filterMap_eq_nil_iff.2 hk
      rw [proj_append, hnil] at hw ⊢
      simpa [proj] using hw
    · rw [proj_append] at hw ⊢
      simpa [proj, he] using hw

theorem proj_tagged {w : W} {l : List (W × List α)} :
    proj w (tagged l) = l.flatMap fun x => if x.1 = w then x.2 else [] := by
  induction l with
  | nil => rfl
  | cons x l ih =>
    rw [tagged, List.flatMap_cons, proj_append, List.flatMap_cons, ← ih, proj]
    by_cases he : x.1 = w
    · simp [he, tagged]
    · simp [he, tagged]

/-- Where each thread has the same part of two sequences of lists, they have the
    same elements. -/
theorem perm_of_parts {l₁ l₂ : List (W × List α)}
    (h : ∀ w, (l₁.flatMap fun x => if x.1 = w then x.2 else []) =
      l₂.flatMap fun x => if x.1 = w then x.2 else []) :
    (l₁.flatMap (·.2)).Perm (l₂.flatMap (·.2)) := by
  have hsnd : ∀ l : List (W × List α), (tagged l).map (·.2) = l.flatMap (·.2) := fun l => by
    simp [tagged, List.map_flatMap, Function.comp_def]
  rw [← hsnd, ← hsnd]
  exact (perm_of_proj fun w => by rw [proj_tagged, proj_tagged, h]).map _

end

/-! ## The threads outside of a critical section -/

/-- The thread, which owns `m` if and only if `own`, is not in a critical section;
    it has executed the trace `t` of the tasks `ls` that are not yet accounted
    for. -/
def Thread.Outside (X : Exec S σ E) (guarded : S.Act → Prop) (R : σ → σ → Prop) (m : S.Mutex)
    (body : L → Prog S) (own : Prop) : Thread S L → List (Done S) → List L → Prop
  | .run l p, t, ls =>
    p.Before guarded m ∧ (∀ s, ∃ s', R s s' ∧ Prog.Leads X (body l) s t p s') ∧ ls = [l] ∨
      p.Still m own ∧ t = [] ∧ ls = []
  | _, t, ls => t = [] ∧ ls = []

/-- The thread is in the critical section of a task that it has begun in a state
    `s`; alone it would have reached its program in a state that is `R` to `s'`. -/
def Thread.Within (X : Exec S σ E) (R : σ → σ → Prop) (m : S.Mutex) (body : L → Prog S) (s s' : σ)
    (th : Thread S L) (t : List (Done S)) (ls : List L) : Prop :=
  ∃ l p s₁, th = .run l p ∧ p.Inside m ∧ Prog.Leads X (body l) s t p s₁ ∧ R s₁ s' ∧ ls = [l]

section
variable [DecidableEq W] [DecidableEq S.Mutex] [DecidableEq S.Cond]
  {body : L → Prog S} {s₀ : σ} {c c' : Conf S σ L W} {v w : W} {ev : Ev S L}
  {s s' : σ} {o o' : S.Mutex → Option W} {th th' : Thread S L} {t : List (Done S)} {ls : List L}
  {h : List (W × Ev S L)} {ser : List (W × L × List (Done S))}

omit [DecidableEq W] [DecidableEq S.Mutex] [DecidableEq S.Cond] in
theorem Thread.Outside.congr {own own' : Prop} (ht : th.Outside X guarded R m body own t ls)
    (ho : own ↔ own') : th.Outside X guarded R m body own' t ls := propext ho ▸ ht

omit [DecidableEq W] [DecidableEq S.Mutex] [DecidableEq S.Cond] in
/-- A thread outside gives `m` back only if it owns it. -/
theorem Thread.Outside.of_givesBack {own : Prop} (ht : th.Outside X guarded R m body own t ls)
    (hm : th.givesBack = some m) : own := by
  cases th with
  | run l p =>
    cases p with
    | unlock m' k =>
      cases hm
      rcases ht with ⟨hb, -⟩ | ⟨hs, -⟩
      · exact absurd rfl hb.1
      · exact hs.1 rfl
    | wait cd m' k =>
      cases hm
      rcases ht with ⟨hb, -⟩ | ⟨hs, -⟩
      · exact hb.elim
      · exact hs rfl
    | _ => cases hm
  | _ => cases hm

omit [DecidableEq W] [DecidableEq S.Cond] in
/-- A thread outside stays outside, or takes `m`, or returns from a task without
    a critical section. -/
theorem Moves.outside (hR : Screens X guarded R) (hb : ∀ l, (body l).Before guarded m)
    (hm : Moves X body w s o th ev s' o' th') (hwk : th.isWoken = false)
    (ht : th.Outside X guarded R m body (o m = some w) t ls) :
    (th'.Outside X guarded R m body (o' m = some w) (t ++ ev.actions) (ls ++ ev.tasks) ∧ R s s') ∨
    (o m = none ∧ o' m = some w ∧ ev.actions = [] ∧ ev.tasks = [] ∧ s' = s ∧
      ∀ u, th'.Within X R m body u u t ls) ∨
    (o' = o ∧ ev.actions = [] ∧ ev.tasks = [] ∧ s' = s ∧ th' = .idle ∧
      ∃ l, ls = [l] ∧ ∀ u, ∃ u', R u u' ∧ Prog.Runs X (body l) u t .returned u') := by
  have hrefl := hR.equiv.refl s
  cases hm with
  | start l =>
    obtain ⟨rfl, rfl⟩ := ht
    exact Or.inl ⟨Or.inl ⟨hb l, fun u => ⟨u, hR.equiv.refl u, .refl⟩, rfl⟩, hrefl⟩
  | spurious =>
    obtain ⟨rfl, rfl⟩ := ht
    exact Or.inl ⟨⟨rfl, rfl⟩, hrefl⟩
  | relock => cases hwk
  | ret =>
    rcases ht with ⟨-, hl, rfl⟩ | ⟨-, rfl, rfl⟩
    · refine Or.inr (Or.inr ⟨rfl, rfl, rfl, rfl, rfl, _, rfl, fun u => ?_⟩)
      obtain ⟨u', hu, hl⟩ := hl u
      have := hl.runs .ret
      rw [List.append_nil] at this
      exact ⟨u', hu, this⟩
    · exact Or.inl ⟨⟨rfl, rfl⟩, hrefl⟩
  | @act l a k e r s' hx =>
    rcases ht with ⟨hbe, hl, rfl⟩ | ⟨hs, -⟩
    · refine Or.inl ⟨Or.inl ⟨hbe.2 r, fun u => ?_, rfl⟩, hR.quiet hbe.1 hx⟩
      obtain ⟨u₁, hu, hl⟩ := hl u
      obtain ⟨u₂, hx₂⟩ := hR.blind hbe.1 hx u₁
      exact ⟨u₂, hR.equiv.trans hu (hR.quiet hbe.1 hx₂), .act hl hx₂⟩
    · exact absurd hs id
  | @lock l m' k hfree =>
    rcases ht with ⟨hbe, hl, rfl⟩ | ⟨hs, -⟩
    · by_cases he : m' = m
      · subst he
        refine Or.inr (Or.inl ⟨hfree, by simp, rfl, rfl, rfl, fun u => ?_⟩)
        obtain ⟨u', hu, hl⟩ := hl u
        exact ⟨l, k, u', rfl, hbe.1 rfl, .lock hl, hR.equiv.symm hu, rfl⟩
      · refine Or.inl ⟨?_, hrefl⟩
        rw [Ev.actions_sync, Ev.tasks_sync, List.append_nil, List.append_nil]
        refine Or.inl ⟨hbe.2 he, fun u => ?_, rfl⟩
        obtain ⟨u', hu, hl⟩ := hl u
        exact ⟨u', hu, .lock hl⟩
    · exact absurd hs id
  | @unlock l m' k =>
    refine Or.inl ⟨?_, hrefl⟩
    rw [Ev.actions_sync, Ev.tasks_sync, List.append_nil, List.append_nil]
    rcases ht with ⟨hbe, hl, rfl⟩ | ⟨hs, rfl, rfl⟩
    · refine Or.inl ⟨hbe.2, fun u => ?_, rfl⟩
      obtain ⟨u', hu, hl⟩ := hl u
      exact ⟨u', hu, .unlock hl⟩
    · exact Or.inr ⟨hs.2.congr owner_freed.symm, rfl, rfl⟩
  | signal =>
    refine Or.inl ⟨?_, hrefl⟩
    rw [Ev.actions_sync, Ev.tasks_sync, List.append_nil, List.append_nil]
    rcases ht with ⟨hbe, hl, rfl⟩ | ⟨hs, rfl, rfl⟩
    · refine Or.inl ⟨hbe, fun u => ?_, rfl⟩
      obtain ⟨u', hu, hl⟩ := hl u
      exact ⟨u', hu, .signal hl⟩
    · exact Or.inr ⟨hs, rfl, rfl⟩
  | broadcast =>
    refine Or.inl ⟨?_, hrefl⟩
    rw [Ev.actions_sync, Ev.tasks_sync, List.append_nil, List.append_nil]
    rcases ht with ⟨hbe, hl, rfl⟩ | ⟨hs, rfl, rfl⟩
    · refine Or.inl ⟨hbe, fun u => ?_, rfl⟩
      obtain ⟨u', hu, hl⟩ := hl u
      exact ⟨u', hu, .broadcast hl⟩
    · exact Or.inr ⟨hs, rfl, rfl⟩
  | wait =>
    rcases ht with ⟨hbe, -⟩ | ⟨-, rfl, rfl⟩
    · exact absurd hbe id
    · exact Or.inl ⟨⟨rfl, rfl⟩, hrefl⟩
  | pass | park =>
    rcases ht with ⟨hbe, -⟩ | ⟨hs, -⟩
    · exact absurd hbe id
    · exact absurd hs id

omit [DecidableEq W] [DecidableEq S.Cond] in
/-- A thread inside stays inside, or ends its critical section. -/
theorem Moves.within (hR : Screens X guarded R) (hm : Moves X body w s o th ev s' o' th')
    {s₁ : σ} (ho : o m = some w) (ht : th.Within X R m body s₁ s t ls) :
    (o' m = some w ∧ th'.Within X R m body s₁ s' (t ++ ev.actions) (ls ++ ev.tasks)) ∨
    th'.Outside X guarded R m body (o' m = some w) [] [] ∧ ∃ l out s₂, ls ++ ev.tasks = [l] ∧
      Prog.Runs X (body l) s₁ (t ++ ev.actions) out s₂ ∧ R s₂ s' := by
  obtain ⟨l, p, s₂, rfl, hin, hl, hr, rfl⟩ := ht
  cases hm with
  | ret =>
    refine Or.inr ⟨⟨rfl, rfl⟩, l, .returned, s₂, rfl, ?_, hr⟩
    exact hl.runs .ret
  | @act _ a k e r s' hx =>
    obtain ⟨s₃, hx', hr'⟩ := hR.congr (hR.equiv.symm hr) hx
    exact Or.inl ⟨ho, l, _, s₃, rfl, hin r, .act hl hx', hR.equiv.symm hr', rfl⟩
  | @lock _ m' k hfree =>
    refine Or.inl ⟨?_, l, k, s₂, rfl, hin.2, ?_, hr, rfl⟩
    · rw [Function.update_of_ne (Ne.symm hin.1)]
      exact ho
    · rw [Ev.actions_sync, List.append_nil]
      exact .lock hl
  | @unlock _ m' k =>
    by_cases he : m' = m
    · subst he
      have hstill : k.Still m' False := hin.1 rfl
      obtain ⟨out, hk⟩ := hstill.runs (X := X) s₂
      refine Or.inr ⟨Or.inr ⟨hstill.congr (by simp), rfl, rfl⟩, l, out, s₂, rfl, ?_, hr⟩
      exact hl.runs (.unlock hk)
    · refine Or.inl ⟨?_, l, k, s₂, rfl, hin.2 he, ?_, hr, rfl⟩
      · rw [Function.update_of_ne (Ne.symm he)]
        exact ho
      · rw [Ev.actions_sync, List.append_nil]
        exact .unlock hl
  | signal =>
    refine Or.inl ⟨ho, l, _, s₂, rfl, hin, ?_, hr, rfl⟩
    rw [Ev.actions_sync, List.append_nil]
    exact .signal hl
  | broadcast =>
    refine Or.inl ⟨ho, l, _, s₂, rfl, hin, ?_, hr, rfl⟩
    rw [Ev.actions_sync, List.append_nil]
    exact .broadcast hl
  | wait => exact absurd hin id
  | @pass _ a b us cd m' k e r s' hx hb =>
    obtain ⟨s₃, hx', hr'⟩ := hR.congr (hR.equiv.symm hr) hx
    exact Or.inl ⟨ho, l, _, s₃, rfl, hin.2.2 r, .pass hl hx' hb, hR.equiv.symm hr', rfl⟩
  | @park _ a b us cd m' k e r s' hx hb =>
    -- the blocked attempt ends the section, and the thread is on the way to its sleep
    obtain ⟨s₃, hx', hr'⟩ := hR.congr (hR.equiv.symm hr) hx
    refine Or.inr ⟨Or.inr ⟨Prog.still_unlocks hin.2.1 hin.1 fun _ => ho, rfl, rfl⟩, l, .parked, s₃, rfl,
      ?_, hR.equiv.symm hr'⟩
    exact hl.runs (.park hx' hb)

/-! ## The invariant -/

/-- The thread outside, with what it has done. -/
def Credited (X : Exec S σ E) (guarded : S.Act → Prop) (R : σ → σ → Prop) (m : S.Mutex)
    (body : L → Prog S) (h : List (W × Ev S L)) (ser : List (W × L × List (Done S)))
    (c : Conf S σ L W) (v : W) : Prop :=
  ∃ t ls, (c.thr v).Outside X guarded R m body (c.owner m = some v) t ls ∧
    did v h = traceOf v ser ++ t ∧ started v h = tasksOf v ser ++ ls

/-- The thread in its critical section, which it has begun after `ser`, with what
    it has done. -/
def Working (X : Exec S σ E) (R : σ → σ → Prop) (m : S.Mutex)
    (body : L → Prog S) (h : List (W × Ev S L)) (ser : List (W × L × List (Done S)))
    (c : Conf S σ L W) (s : σ) (w : W) : Prop :=
  c.owner m = some w ∧ ∃ t ls, (c.thr w).Within X R m body s c.st t ls ∧
    did w h = traceOf w ser ++ t ∧ started w h = tasksOf w ser ++ ls

/-- The critical sections so far have run one after the other; the last one may
    still be going on. -/
def Serialized (X : Exec S σ E) (guarded : S.Act → Prop) (R : σ → σ → Prop) (m : S.Mutex)
    (body : L → Prog S) (s₀ : σ) (h : List (W × Ev S L)) (c : Conf S σ L W) : Prop :=
  ∃ ser s, Serial X body s₀ ser s ∧
    (R s c.st ∧ (∀ v, Credited X guarded R m body h ser c v) ∨
      ∃ w, Working X R m body h ser c s w ∧ ∀ v, v ≠ w → Credited X guarded R m body h ser c v)

/-- A thread outside is not concerned by the step of another one. -/
theorem Credited.step_other (hv : Credited X guarded R m body h ser c v)
    (hst : Step X body w c ev c') (hne : v ≠ w)
    (hw : (c.thr w).givesBack = some m → c.owner m = some w) :
    Credited X guarded R m body (h ++ [(w, ev)]) ser c' v := by
  obtain ⟨t, ls, ht, hd, hs⟩ := hv
  refine ⟨t, ls, ?_, ?_, ?_⟩
  · rw [propext (hst.owner_other hw hne)]
    rcases hst.other hne with he | ⟨l, cd, m', p, he, he'⟩
    · rw [he]
      exact ht
    · rw [he] at ht
      rw [he']
      exact ht
  · rw [did_snoc, if_neg (Ne.symm hne), List.append_nil, hd]
  · rw [started_snoc, if_neg (Ne.symm hne), List.append_nil, hs]

omit [DecidableEq S.Mutex] [DecidableEq S.Cond] in
/-- Nor by a section of another one. -/
theorem Credited.snoc (hv : Credited X guarded R m body h ser c v) (hne : v ≠ w) (l : L)
    (u : List (Done S)) : Credited X guarded R m body h (ser ++ [(w, l, u)]) c v := by
  obtain ⟨t, ls, ht, hd, hs⟩ := hv
  refine ⟨t, ls, ht, ?_, ?_⟩
  · rw [traceOf_snoc, if_neg (Ne.symm hne), List.append_nil, hd]
  · rw [tasksOf_snoc, if_neg (Ne.symm hne), List.append_nil, hs]

omit [DecidableEq W] [DecidableEq S.Mutex] [DecidableEq S.Cond] in
/-- The state in which the section was begun and the one it has reached matter up
    to `R` only. -/
theorem Thread.Within.congr (hR : Screens X guarded R) {s₁ s₂ u₁ u₂ : σ} (hs : R s₁ s₂) (hu : R u₁ u₂)
    (ht : th.Within X R m body s₁ u₁ t ls) : th.Within X R m body s₂ u₂ t ls := by
  obtain ⟨l, p, s', he, hin, hl, hr, hls⟩ := ht
  obtain ⟨s'', hl', hr'⟩ := hl.congr hR hs
  exact ⟨l, p, s'', he, hin, hl', hR.equiv.trans (hR.equiv.symm hr') (hR.equiv.trans hr hu), hls⟩

/-- A thread inside is not concerned by the step of another one. -/
theorem Working.step_other (hR : Screens X guarded R) (hv : Working X R m body h ser c s v)
    (hst : Step X body w c ev c') (hne : v ≠ w)
    (hw : (c.thr w).givesBack = some m → c.owner m = some w) (hr : R c.st c'.st) :
    Working X R m body (h ++ [(w, ev)]) ser c' s v := by
  obtain ⟨ho, t, ls, ht, hd, hs⟩ := hv
  refine ⟨(hst.owner_other hw hne).2 ho, t, ls, ?_, ?_, ?_⟩
  · rcases hst.other hne with he | ⟨l, cd, m', p, he, -⟩
    · rw [he]
      exact ht.congr hR (hR.equiv.refl s) hr
    · obtain ⟨l', p', -, he', -⟩ := ht
      rw [he] at he'
      cases he'
  · rw [did_snoc, if_neg (Ne.symm hne), List.append_nil, hd]
  · rw [started_snoc, if_neg (Ne.symm hne), List.append_nil, hs]

omit [DecidableEq S.Mutex] [DecidableEq S.Cond] in
/-- Nor by a task of another one that has no section. -/
theorem Working.snoc (hR : Screens X guarded R) (hv : Working X R m body h ser c s v) (hne : v ≠ w)
    {s₁ : σ} (hs : R s s₁) (l : L) (u : List (Done S)) :
    Working X R m body h (ser ++ [(w, l, u)]) c s₁ v := by
  obtain ⟨ho, t, ls, ht, hd, hst⟩ := hv
  refine ⟨ho, t, ls, ht.congr hR hs (hR.equiv.refl _), ?_, ?_⟩
  · rw [traceOf_snoc, if_neg (Ne.symm hne), List.append_nil, hd]
  · rw [tasksOf_snoc, if_neg (Ne.symm hne), List.append_nil, hst]

section
variable (hR : Screens X guarded R) (hst : Step X body w c ev c')
include hR hst

/-- A step of a thread outside, when nobody is inside. -/
theorem Serialized.step_outside (hb : ∀ l, (body l).Before guarded m)
    (hwk : (c.thr w).isWoken = false) {s : σ} (hser : Serial X body s₀ ser s) (hs : R s c.st)
    (hacc : ∀ v, Credited X guarded R m body h ser c v) :
    Serialized X guarded R m body s₀ (h ++ [(w, ev)]) c' := by
  obtain ⟨t, ls, ht, hd, hl⟩ := hacc w
  have hback : (c.thr w).givesBack = some m → c.owner m = some w := fun hm => ht.of_givesBack hm
  have hothers : ∀ v, v ≠ w → Credited X guarded R m body (h ++ [(w, ev)]) ser c' v :=
    fun v hv => (hacc v).step_other hst hv hback
  have hdid : did w (h ++ [(w, ev)]) = traceOf w ser ++ (t ++ ev.actions) := by
    rw [did_snoc, if_pos rfl, hd, List.append_assoc]
  have hstarted : started w (h ++ [(w, ev)]) = tasksOf w ser ++ (ls ++ ev.tasks) := by
    rw [started_snoc, if_pos rfl, hl, List.append_assoc]
  rcases hst.moves.outside hR hb hwk ht with ⟨ht', hr⟩ | ⟨-, hown, ha, hta, he, hin⟩ |
    ⟨-, ha, hta, he, hidle, l, rfl, hrun⟩
  · -- the thread stays outside
    refine ⟨ser, s, hser, Or.inl ⟨hR.equiv.trans hs hr, fun v => ?_⟩⟩
    by_cases hv : v = w
    · subst hv
      exact ⟨_, _, ht', hdid, hstarted⟩
    · exact hothers v hv
  · -- it takes `m`
    rw [ha, List.append_nil] at hdid
    rw [hta, List.append_nil] at hstarted
    have hwithin : (c'.thr w).Within X R m body s c'.st t ls := by
      rw [he]
      exact (hin s).congr hR (hR.equiv.refl s) hs
    exact ⟨ser, s, hser, Or.inr ⟨w, ⟨hown, t, ls, hwithin, hdid, hstarted⟩, hothers⟩⟩
  · -- it returns from a task without a section
    rw [ha, List.append_nil] at hdid
    rw [hta, List.append_nil] at hstarted
    obtain ⟨s', hs', hr⟩ := hrun s
    refine ⟨ser ++ [(w, l, t)], s', .snoc hser hr, Or.inl ⟨?_, fun v => ?_⟩⟩
    · rw [he]
      exact hR.equiv.trans (hR.equiv.symm hs') hs
    · by_cases hv : v = w
      · subst hv
        refine ⟨[], [], ?_, ?_, ?_⟩
        · rw [hidle]
          exact ⟨rfl, rfl⟩
        · rw [hdid, traceOf_snoc, if_pos rfl, List.append_nil]
        · rw [hstarted, tasksOf_snoc, if_pos rfl, List.append_nil]
      · exact (hothers v hv).snoc hv l t

/-- A step of the thread inside. -/
theorem Serialized.step_inside {s : σ} (hser : Serial X body s₀ ser s)
    (hwork : Working X R m body h ser c s w)
    (hacc : ∀ v, v ≠ w → Credited X guarded R m body h ser c v) :
    Serialized X guarded R m body s₀ (h ++ [(w, ev)]) c' := by
  obtain ⟨ho, t, ls, ht, hd, hl⟩ := hwork
  have hothers : ∀ v, v ≠ w → Credited X guarded R m body (h ++ [(w, ev)]) ser c' v :=
    fun v hv => (hacc v hv).step_other hst hv fun _ => ho
  have hdid : did w (h ++ [(w, ev)]) = traceOf w ser ++ (t ++ ev.actions) := by
    rw [did_snoc, if_pos rfl, hd, List.append_assoc]
  have hstarted : started w (h ++ [(w, ev)]) = tasksOf w ser ++ (ls ++ ev.tasks) := by
    rw [started_snoc, if_pos rfl, hl, List.append_assoc]
  rcases hst.moves.within hR ho ht with ⟨ho', ht'⟩ | ⟨hout, l, out, s₂, hls, hrun, hr⟩
  · exact ⟨ser, s, hser, Or.inr ⟨w, ⟨ho', _, _, ht', hdid, hstarted⟩, hothers⟩⟩
  · rw [hls] at hstarted
    refine ⟨ser ++ [(w, l, t ++ ev.actions)], s₂, .snoc hser hrun, Or.inl ⟨hr, fun v => ?_⟩⟩
    by_cases hv : v = w
    · subst hv
      refine ⟨[], [], hout, ?_, ?_⟩
      · rw [hdid, traceOf_snoc, if_pos rfl, List.append_nil]
      · rw [hstarted, tasksOf_snoc, if_pos rfl, List.append_nil]
    · exact (hothers v hv).snoc hv _ _

/-- A step of a thread outside, when another one is inside. -/
theorem Serialized.step_beside (hb : ∀ l, (body l).Before guarded m)
    (hwk : (c.thr w).isWoken = false) {s : σ} (hser : Serial X body s₀ ser s) (hne : v ≠ w)
    (hwork : Working X R m body h ser c s v)
    (hacc : ∀ u, u ≠ v → Credited X guarded R m body h ser c u) :
    Serialized X guarded R m body s₀ (h ++ [(w, ev)]) c' := by
  obtain ⟨t, ls, ht, hd, hl⟩ := hacc w (Ne.symm hne)
  have hback : (c.thr w).givesBack = some m → c.owner m = some w := fun hm => ht.of_givesBack hm
  have hothers : ∀ u, u ≠ v → u ≠ w → Credited X guarded R m body (h ++ [(w, ev)]) ser c' u :=
    fun u hu huw => (hacc u hu).step_other hst huw hback
  have hdid : did w (h ++ [(w, ev)]) = traceOf w ser ++ (t ++ ev.actions) := by
    rw [did_snoc, if_pos rfl, hd, List.append_assoc]
  have hstarted : started w (h ++ [(w, ev)]) = tasksOf w ser ++ (ls ++ ev.tasks) := by
    rw [started_snoc, if_pos rfl, hl, List.append_assoc]
  rcases hst.moves.outside hR hb hwk ht with ⟨ht', hr⟩ | ⟨hfree, -⟩ |
    ⟨-, ha, hta, he, hidle, l, rfl, hrun⟩
  · refine ⟨ser, s, hser, Or.inr ⟨v, hwork.step_other hR hst hne hback hr, fun u hu => ?_⟩⟩
    by_cases huw : u = w
    · subst huw
      exact ⟨_, _, ht', hdid, hstarted⟩
    · exact hothers u hu huw
  · -- `m` is not free
    rw [hwork.1] at hfree
    cases hfree
  · -- it returns from a task without a section, which comes before the one that goes on
    rw [ha, List.append_nil] at hdid
    rw [hta, List.append_nil] at hstarted
    obtain ⟨s', hs', hr⟩ := hrun s
    have hsame : R c.st c'.st := by
      rw [he]
      exact hR.equiv.refl _
    refine ⟨ser ++ [(w, l, t)], s', .snoc hser hr,
      Or.inr ⟨v, (hwork.step_other hR hst hne hback hsame).snoc hR hne hs' l t, fun u hu => ?_⟩⟩
    by_cases huw : u = w
    · subst huw
      refine ⟨[], [], ?_, ?_, ?_⟩
      · rw [hidle]
        exact ⟨rfl, rfl⟩
      · rw [hdid, traceOf_snoc, if_pos rfl, List.append_nil]
      · rw [hstarted, tasksOf_snoc, if_pos rfl, List.append_nil]
    · exact (hothers u hu huw).snoc huw l t

end

/-! ## Runs -/

/-- In every run without a return from a sleep the critical sections run one
    after the other. -/
theorem Run.serialized (hR : Screens X guarded R) (hb : ∀ l, (body l).Before guarded m)
    (hr : Run X body (fun c w _ => (c.thr w).isWoken = false) (Conf.init s₀) h c) :
    Serialized X guarded R m body s₀ h c := by
  induction hr with
  | init => exact ⟨[], s₀, .nil, Or.inl ⟨hR.equiv.refl s₀, fun v => ⟨[], [], ⟨rfl, rfl⟩, rfl, rfl⟩⟩⟩
  | @step h c c' w ev _ hst hwk ih =>
    obtain ⟨ser, s, hser, ⟨hs, hacc⟩ | ⟨v, hwork, hacc⟩⟩ := ih
    · exact Serialized.step_outside hR hst hb hwk hser hs hacc
    · by_cases hne : v = w
      · subst hne
        exact Serialized.step_inside hR hst hser hwork hacc
      · exact Serialized.step_beside hR hst hb hwk hser hne hwork hacc

/-- **Serial runs.**  Up to the first return from a sleep, when no thread runs, the
    tasks have had the results of a run one after the other: the state is the one
    reached by it up to `R`, and each thread has executed its tasks in their
    order, with the same actions and the same answers. -/
theorem Run.serial (hR : Screens X guarded R) (hb : ∀ l, (body l).Before guarded m)
    (hr : Run X body (fun c w _ => (c.thr w).isWoken = false) (Conf.init s₀) h c)
    (hrest : ∀ w l p, c.thr w ≠ .run l p) : ∃ ser s, Serial X body s₀ ser s ∧ R s c.st ∧
      ∀ w, started w h = tasksOf w ser ∧ did w h = traceOf w ser := by
  obtain ⟨ser, s, hser, ⟨hs, hacc⟩ | ⟨v, ⟨-, t, ls, ⟨l, p, -, he, -⟩, -⟩, -⟩⟩ := hr.serialized hR hb
  · refine ⟨ser, s, hser, hs, fun w => ?_⟩
    obtain ⟨t, ls, ht, hd, hl⟩ := hacc w
    obtain ⟨rfl, rfl⟩ : t = [] ∧ ls = [] := by
      cases hw : c.thr w with
      | run l p => exact absurd hw (hrest w l p)
      | idle | asleep | woken =>
        rw [hw] at ht
        exact ht
    rw [List.append_nil] at hd hl
    exact ⟨hl, hd⟩
  · exact absurd he (hrest v l p)

omit [DecidableEq S.Mutex] [DecidableEq S.Cond] in
/-- The actions of the threads are those of their tasks, in another order. -/
theorem did_perm (hd : ∀ w, did w h = traceOf w ser) :
    (h.flatMap (·.2.actions)).Perm (ser.flatMap (·.2.2)) := by
  have hparts := @perm_of_parts W (Done S) _ (h.map fun x => (x.1, x.2.actions)) (ser.map fun x => (x.1, x.2.2))
  simp only [List.flatMap_map] at hparts
  exact hparts hd

end
end Threads
