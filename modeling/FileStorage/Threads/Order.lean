/-
  Lock order: when a group of threads cannot go on.

  `Ordered allow rank keep H p` says that a thread that owns at most the
  mutexes `H` takes further ones in the order of `rank`, and that it sleeps and
  returns with mutexes of `keep` only.  It may ask again for a mutex of `keep`
  that it has not given back.

  * `Reach.ordered`: programs with this property have it in every interleaving,
    whatever the other threads give back.
  * `Reach.goes_on`: if a thread is on its way then it can go on, or one that it
    waits for, unless an action cannot be performed, or a mutex of `keep` has
    been kept.
-/
import FileStorage.Threads.Discipline
import FileStorage.Threads.Expand
import Mathlib.Data.Set.Image
import Mathlib.Logic.Relation

namespace Threads

variable {S T : Sig} {σ E L W : Type} {allow : (a : S.Act) → S.Ans a → Prop} {rank : S.Mutex → ℕ}
  {keep : Set S.Mutex}

namespace Prog
variable {H H' : Set S.Mutex} {p : Prog S}

/-- A thread that owns at most `H` takes mutexes in the order of `rank`, and
    sleeps and returns with mutexes of `keep` only. -/
def Ordered (allow : (a : S.Act) → S.Ans a → Prop) (rank : S.Mutex → ℕ) (keep : Set S.Mutex) :
    Set S.Mutex → Prog S → Prop
  | H, .ret => H ⊆ keep
  | H, .act a k => ∀ r, allow a r → Ordered allow rank keep H (k r)
  | H, .lock m k => (∀ m' ∈ H, rank m' < rank m ∨ m' = m ∧ m ∈ keep) ∧
      Ordered allow rank keep (insert m H) k
  | H, .unlock m k => Ordered allow rank keep (H \ {m}) k
  | H, .signal _ k | H, .broadcast _ k => Ordered allow rank keep H k
  | H, .wait _ m k => (∀ m' ∈ H, m' = m ∨ m' ∈ keep ∧ rank m' < rank m) ∧
      Ordered allow rank keep (insert m H) k
  | H, .await a _ us _ m k => (∀ r, allow a r → Ordered allow rank keep (insert m H) (k r)) ∧
      ∀ m' ∈ H, m' ∈ us ∨ m' = m ∨ m' ∈ keep ∧ rank m' < rank m

@[simp] theorem ordered_ite {b : Prop} [Decidable b] {q : Prog S} :
    (if b then p else q).Ordered allow rank keep H ↔
      (b → p.Ordered allow rank keep H) ∧ (¬ b → q.Ordered allow rank keep H) := by
  split_ifs <;> simp [*]

theorem Ordered.mono (hp : p.Ordered allow rank keep H) (hH : H' ⊆ H) :
    p.Ordered allow rank keep H' := by
  induction p generalizing H H' with
  | ret => exact hH.trans hp
  | act a k ih => exact fun r hr => ih r (hp r hr) hH
  | lock m k ih => exact ⟨fun m' hm' => hp.1 m' (hH hm'), ih hp.2 (Set.insert_subset_insert hH)⟩
  | unlock m k ih => exact ih hp (Set.sdiff_subset_sdiff_left hH)
  | signal c k ih | broadcast c k ih => exact ih hp hH
  | wait c m k ih => exact ⟨fun m' hm' => hp.1 m' (hH hm'), ih hp.2 (Set.insert_subset_insert hH)⟩
  | await a b us c m k ih =>
    exact ⟨fun r hr => ih r (hp.1 r hr) (Set.insert_subset_insert hH), fun m' hm' => hp.2 m' (hH hm')⟩

/-- The way to a sleep is ordered if what is not given back may be kept. -/
theorem ordered_unlocks {c : S.Cond} {m : S.Mutex} {us : List S.Mutex} :
    ∀ {H : Set S.Mutex}, (∀ m' ∈ H, m' ∈ us ∨ m' = m ∨ m' ∈ keep ∧ rank m' < rank m) →
      p.Ordered allow rank keep (insert m H) →
      (unlocks us (.wait c m p)).Ordered allow rank keep H := by
  induction us with
  | nil => exact fun hH hp => ⟨fun m' hm' => (hH m' hm').resolve_left List.not_mem_nil, hp⟩
  | cons u us ih =>
    intro H hH hp
    refine ih (fun m' hm' => ?_) (hp.mono (Set.insert_subset_insert Set.sdiff_subset))
    rcases hH m' hm'.1 with hu | hm
    · exact Or.inl ((List.mem_cons.1 hu).resolve_left hm'.2)
    · exact Or.inr hm

/-- A loop in which the thread already owns the mutex of its sleep. -/
theorem Ordered.await_insert {a : S.Act} {b : S.Ans a → Bool} {us : List S.Mutex} {c : S.Cond}
    {m : S.Mutex} {k : S.Ans a → Prog S} (hp : (Prog.await a b us c m k).Ordered allow rank keep H) :
    (Prog.await a b us c m k).Ordered allow rank keep (insert m H) := by
  refine ⟨fun r hr => ?_, fun m' hm' => ?_⟩
  · rw [Set.insert_eq_of_mem (Set.mem_insert m H)]
    exact hp.1 r hr
  · rcases Set.mem_insert_iff.1 hm' with he | hm'
    · exact Or.inr (Or.inl he)
    · exact hp.2 m' hm'

/-- The embedding of programs keeps the order. -/
theorem Ordered.expand {i : Into S T} {f : (a : S.Act) → (S.Ans a → Prog T) → Prog T} {q : Prog T}
    {allow' : (a : T.Act) → T.Ans a → Prop} {rank' : T.Mutex → ℕ} {keep' : Set T.Mutex}
    (hi : Function.Injective i.mutex) (hr : ∀ m, rank' (i.mutex m) = rank m)
    (hk : ∀ m ∈ keep, i.mutex m ∈ keep') (ha : ∀ a r, allow' (i.act a) r → allow a (i.ans a r))
    (hq : ∀ H, H ⊆ keep' → q.Ordered allow' rank' keep' H)
    (hf : ∀ a k H, (∀ r, allow a r → (k r).Ordered allow' rank' keep' H) →
      (f a k).Ordered allow' rank' keep' H) :
    ∀ {p : Prog S} {H}, p.Ordered allow rank keep H →
      (expand i f q p).Ordered allow' rank' keep' (i.mutex '' H) := by
  -- an order between mutexes is one between their images
  have hlt : ∀ {m m'}, rank m' < rank m → rank' (i.mutex m') < rank' (i.mutex m) := fun h => by
    rw [hr, hr]
    exact h
  intro p
  induction p with
  | ret => exact fun hp => hq _ (Set.image_subset_iff.2 fun m hm => hk m (hp hm))
  | act a k ih => exact fun hp => hf a _ _ fun r hr => ih r (hp r hr)
  | lock m k ih =>
    refine fun hp => ⟨Set.forall_mem_image.2 fun m' hm' => ?_, ?_⟩
    · exact (hp.1 m' hm').imp hlt fun h => ⟨congrArg i.mutex h.1, hk m h.2⟩
    · rw [← Set.image_insert_eq]
      exact ih hp.2
  | unlock m k ih =>
    intro H hp
    show Ordered _ _ _ (i.mutex '' H \ {i.mutex m}) _
    rw [← Set.image_singleton, ← Set.image_sdiff hi]
    exact ih hp
  | signal c k ih | broadcast c k ih => exact fun hp => ih hp
  | wait c m k ih =>
    refine fun hp => ⟨Set.forall_mem_image.2 fun m' hm' => ?_, ?_⟩
    · exact (hp.1 m' hm').imp (congrArg i.mutex) fun h => ⟨hk m' h.1, hlt h.2⟩
    · rw [← Set.image_insert_eq]
      exact ih hp.2
  | await a b us c m k ih =>
    refine fun hp => ⟨fun r hr => ?_, Set.forall_mem_image.2 fun m' hm' => ?_⟩
    · rw [← Set.image_insert_eq]
      exact ih _ (hp.1 _ (ha a r hr))
    · rcases hp.2 m' hm' with h | h | h
      · exact Or.inl (List.mem_map_of_mem h)
      · exact Or.inr (Or.inl (congrArg i.mutex h))
      · exact Or.inr (Or.inr ⟨hk m' h.1, hlt h.2⟩)

end Prog

/-! ## The invariant -/

/-- The thread `t`, which owns the mutexes `H`, respects the order. -/
def Thread.Ordered (allow : (a : S.Act) → S.Ans a → Prop) (rank : S.Mutex → ℕ) (keep : Set S.Mutex)
    (H : Set S.Mutex) : Thread S L → Prop
  | .idle => H ⊆ keep
  | .run _ p => p.Ordered allow rank keep H
  | .asleep _ _ m p | .woken _ m p =>
    (∀ m' ∈ H, m' ∈ keep ∧ rank m' < rank m) ∧ p.Ordered allow rank keep (insert m H)

theorem Thread.Ordered.mono {t : Thread S L} {H H' : Set S.Mutex} (ht : t.Ordered allow rank keep H)
    (hH : H' ⊆ H) : t.Ordered allow rank keep H' := by
  cases t with
  | idle => exact hH.trans ht
  | run l p => exact Prog.Ordered.mono ht hH
  | asleep l cd m p | woken l m p =>
    exact ⟨fun m' hm' => ht.1 m' (hH hm'), ht.2.mono (Set.insert_subset_insert hH)⟩

/-- The mutexes of thread `w`. -/
def owns (o : S.Mutex → Option W) (w : W) : Set S.Mutex := {m | o m = some w}

/-- The mutex that the thread takes in its next step. -/
def Thread.wants : Thread S L → Option S.Mutex
  | .run _ (.lock m _) | .woken _ m _ => some m
  | _ => none

/-- Thread `w` waits for a mutex of `v`. -/
def WaitsOn (c : Conf S σ L W) (w v : W) : Prop := ∃ m, (c.thr w).wants = some m ∧ c.owner m = some v

/-- A mutex of `keep` is owned by a thread at rest, or by one that asks for it again. -/
def Retained (keep : Set S.Mutex) (c : Conf S σ L W) : Prop :=
  ∃ m ∈ keep, ∃ w, c.owner m = some w ∧ ((c.thr w).atRest = true ∨ (c.thr w).wants = some m)

section
variable [DecidableEq W] [DecidableEq S.Mutex] [DecidableEq S.Cond] {X : Exec S σ E}
  {body : L → Prog S} {s₀ : σ} {c c' : Conf S σ L W} {v w : W} {ev : Ev S L}
  {ok : Conf S σ L W → W → Ev S L → Prop} {s s' : σ} {o o' : S.Mutex → Option W} {t t' : Thread S L}

omit [DecidableEq W] [DecidableEq S.Cond] in
theorem owns_taken {m : S.Mutex} : owns (Function.update o m (some w)) w = insert m (owns o w) := by
  ext m'
  exact owner_taken.trans (or_congr_left eq_comm)

omit [DecidableEq W] [DecidableEq S.Cond] in
theorem owns_freed {m : S.Mutex} : owns (Function.update o m none) w = owns o w \ {m} := by
  ext m'
  exact owner_freed.trans (and_comm.trans (and_congr_right fun _ => ne_comm))

omit [DecidableEq W] [DecidableEq S.Cond] in
/-- A step of `w` keeps the order. -/
theorem Moves.ordered (h : Moves X body w s o t ev s' o' t')
    (hb : ∀ l, ev = .start l → (body l).Ordered allow rank keep keep)
    (ha : ∀ a e r s', ev = .did a r → X a e s = some (r, s') → allow a r)
    (hw : t.Ordered allow rank keep (owns o w)) : t'.Ordered allow rank keep (owns o' w) := by
  cases h with
  | start l => exact (hb l rfl).mono hw
  | ret | spurious | signal | broadcast => exact hw
  | unlock =>
    rw [owns_freed]
    exact hw
  | act hx => exact hw _ (ha _ _ _ _ rfl hx)
  | lock ho =>
    rw [owns_taken]
    exact hw.2
  | wait =>
    rw [owns_freed]
    refine ⟨fun m' hm' => (hw.1 m' hm'.1).resolve_left hm'.2, hw.2.mono ?_⟩
    exact Set.insert_subset_insert Set.sdiff_subset
  | relock ho =>
    rw [owns_taken]
    exact hw.2
  | pass hx => exact (hw.1 _ (ha _ _ _ _ rfl hx)).mono (Set.subset_insert _ _)
  | park => exact Prog.ordered_unlocks hw.2 (Prog.Ordered.await_insert hw)

/-- **The order of the mutexes.**  Programs that respect the order do so in every
    interleaving. -/
theorem Reach.ordered (hb : ∀ c w l, ok c w (.start l) → (body l).Ordered allow rank keep keep)
    (ha : ∀ c w a e r s, ok c w (.did a r) → X a e c.st = some (r, s) → allow a r)
    (h : Reach X body ok (Conf.init s₀) c) (w : W) :
    (c.thr w).Ordered allow rank keep (owns c.owner w) := by
  have hinit : ∀ w : W, (Thread.idle : Thread S L).Ordered allow rank keep (owns (fun _ => none) w) := by
    intro w m hm
    cases hm
  refine Reach.invariant (I := fun c => ∀ w, (c.thr w).Ordered allow rank keep (owns c.owner w)) hinit
    ?_ h w
  intro c w ev c' _ hc hst ho v
  by_cases hv : v = w
  · subst hv
    exact hst.moves.ordered (fun l he => hb _ _ l (he ▸ ho)) (fun a e r s he => ha _ _ a e r s (he ▸ ho)) (hc v)
  · have hv' := (hc v).mono fun m hm => hst.owner_of_other hv hm
    rcases hst.other hv with he | ⟨l, cd, m', p, he, he'⟩
    · rw [he]; exact hv'
    · rw [he] at hv'; rw [he']; exact hv'

/-! ## Progress -/

/-- Thread `w` is on its way and can make a step. -/
def Goes (X : Exec S σ E) (body : L → Prog S) (c : Conf S σ L W) (w : W) : Prop :=
  (c.thr w).atRest = false ∧ ∃ ev c', Step X body w c ev c'

/-- Thread `w` is at an action that cannot be performed. -/
def Stuck (X : Exec S σ E) (c : Conf S σ L W) (w : W) : Prop :=
  ∃ a, (c.thr w).nextAct = some a ∧ ∀ e, X a e c.st = none

/-- A thread on its way that does not take a mutex goes on. -/
theorem goes_or_stuck (hw : (c.thr w).atRest = false)
    (hm : ∀ m, (c.thr w).wants = some m → c.owner m = none) : Goes X body c w ∨ Stuck X c w := by
  by_cases hact : ∃ a, (c.thr w).nextAct = some a
  · obtain ⟨a, ha⟩ := hact
    by_cases hx : ∃ e r s, X a e c.st = some (r, s)
    · obtain ⟨e, r, s, hx⟩ := hx
      exact Or.inl ⟨hw, _, Step.exists_did ha hx⟩
    · refine Or.inr ⟨a, ha, fun e => Option.eq_none_iff_forall_ne_some.2 fun x he => hx ?_⟩
      exact ⟨e, x.1, x.2, he⟩
  · refine Or.inl ⟨hw, ?_⟩
    cases ht : c.thr w with
    | idle | asleep => rw [ht] at hw; cases hw
    | woken l m p => exact ⟨_, _, .relock ht (hm m (by rw [ht]; rfl))⟩
    | run l p =>
      cases p with
      | ret => exact ⟨_, _, .ret ht⟩
      | act a k => exact absurd ⟨a, by rw [ht]; rfl⟩ hact
      | lock m k => exact ⟨_, _, .lock ht (hm m (by rw [ht]; rfl))⟩
      | unlock m k => exact ⟨_, _, .unlock ht⟩
      | signal cd k =>
        by_cases hs : ∃ v l' m p, c.thr v = .asleep l' cd m p
        · obtain ⟨v, l', m, p, hv⟩ := hs
          exact ⟨_, _, .signal ht hv⟩
        · exact ⟨_, _, .signalNone ht fun v l' m p hv => hs ⟨v, l', m, p, hv⟩⟩
      | broadcast cd k => exact ⟨_, _, .broadcast ht⟩
      | wait cd m k => exact ⟨_, _, .wait ht⟩
      | await a b us cd m k => exact absurd ⟨a, by rw [ht]; rfl⟩ hact

/-- A thread that takes a mutex of another owner waits. -/
theorem waits_of_wants {m : S.Mutex} (hm : (c.thr w).wants = some m) (ho : c.owner m ≠ none) :
    ¬ (Goes X body c w ∨ Stuck X c w) := by
  rintro (⟨hrest, ev, c', hst⟩ | ⟨a, ha, -⟩)
  · cases hst with
    | lock ht hfree | relock ht hfree =>
      rw [ht] at hm
      cases hm
      exact ho hfree
    | _ => simp_all [Thread.wants]
  · cases ht : c.thr w with
    | run l p =>
      rw [ht] at hm ha
      cases p with
      | lock m k => cases ha
      | _ => cases hm
    | _ =>
      rw [ht] at ha
      cases ha

omit [DecidableEq W] [DecidableEq S.Mutex] [DecidableEq S.Cond] in
/-- A thread that owns `m` and asks for `m'` asks for a higher one, or asks for `m` again. -/
theorem Thread.Ordered.of_wants {H : Set S.Mutex} (ht : t.Ordered allow rank keep H) {m m' : S.Mutex}
    (hm : m ∈ H) (hw : t.wants = some m') : rank m < rank m' ∨ m = m' ∧ m' ∈ keep := by
  cases t with
  | run l p =>
    cases p with
    | lock m₁ k =>
      cases hw
      exact ht.1 m hm
    | _ => cases hw
  | woken l m₁ p =>
    cases hw
    exact Or.inl (ht.1 m hm).2
  | _ => cases hw

omit [DecidableEq W] [DecidableEq S.Mutex] [DecidableEq S.Cond] in
theorem Thread.Ordered.of_atRest {H : Set S.Mutex} (ht : t.Ordered allow rank keep H)
    (hr : t.atRest = true) : H ⊆ keep := by
  cases t with
  | idle => exact ht
  | asleep l cd m p => exact fun m' hm' => (ht.1 m' hm').1
  | _ => cases hr

/-- The owners of the mutexes that are waited for form an ascending chain. -/
theorem chain_ends {n : ℕ} (hn : ∀ m, rank m < n)
    (hc : ∀ w, (c.thr w).Ordered allow rank keep (owns c.owner w)) {m : S.Mutex}
    (hw : (c.thr w).wants = some m) :
    (∃ v, Relation.ReflTransGen (WaitsOn c) w v ∧ (Goes X body c v ∨ Stuck X c v)) ∨ Retained keep c := by
  -- on the distance of the rank to its bound
  induction hd : n - rank m using Nat.strong_induction_on generalizing w m with
  | _ d ih =>
    have hrest : (c.thr w).atRest = false := by
      cases ht : c.thr w with
      | idle | asleep => rw [ht] at hw; cases hw
      | run | woken => rfl
    cases ho : c.owner m with
    | none =>
      refine Or.inl ⟨w, .refl, goes_or_stuck hrest fun m' hm' => ?_⟩
      rw [hw] at hm'
      cases hm'
      exact ho
    | some v =>
      have hon : WaitsOn c w v := ⟨m, hw, ho⟩
      cases hv : (c.thr v).atRest with
      | true => exact Or.inr ⟨m, (hc v).of_atRest hv ho, v, ho, Or.inl hv⟩
      | false =>
        cases hm : (c.thr v).wants with
        | none =>
          exact Or.inl ⟨v, .single hon, goes_or_stuck hv fun m' hm' => by rw [hm] at hm'; cases hm'⟩
        | some m' =>
          rcases (hc v).of_wants ho hm with hlt | ⟨rfl, hk⟩
          · have := hn m
            refine (ih (n - rank m') (by omega) hm rfl).imp_left ?_
            rintro ⟨u, hu, hgo⟩
            exact ⟨u, .head hon hu, hgo⟩
          · exact Or.inr ⟨m, hk, v, ho, Or.inr hm⟩

/-- **Progress.**  If a thread is on its way then it can go on, or a thread that it
    waits for, or this one for, and so on; unless an action cannot be performed or
    a mutex has been kept. -/
theorem Reach.goes_on {n : ℕ} (hn : ∀ m, rank m < n)
    (hb : ∀ c w l, ok c w (.start l) → (body l).Ordered allow rank keep keep)
    (ha : ∀ c w a e r s, ok c w (.did a r) → X a e c.st = some (r, s) → allow a r)
    (h : Reach X body ok (Conf.init s₀) c) (hw : (c.thr w).atRest = false) :
    (∃ v, Relation.ReflTransGen (WaitsOn c) w v ∧ (Goes X body c v ∨ Stuck X c v)) ∨ Retained keep c := by
  cases hm : (c.thr w).wants with
  | none => exact Or.inl ⟨w, .refl, goes_or_stuck hw fun m hm' => by rw [hm] at hm'; cases hm'⟩
  | some m => exact chain_ends hn (fun v => h.ordered hb ha v) hm

end
end Threads
