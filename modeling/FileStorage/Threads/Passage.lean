/-
  Programs that come to a given step.

  `Passes quiet d C` says that a program performs quiet steps only until it
  comes to the step `d`, and that `C` holds of what it does from there on.
  `Runs.passage` cuts a run at this step.  `Runs.simulate` takes a run to
  another execution of the actions.
-/
import FileStorage.Threads.Prog

namespace Threads

namespace Prog
variable {S : Sig} {σ τ E : Type} {X : Exec S σ E} {quiet : Done S → Prop} {d : Done S}
  {C : Prog S → Prop} {p : Prog S} {s s' : σ} {t : List (Done S)} {o : Outcome}

/-- On every path the program performs quiet steps, and if it comes to the
    step `d` then `C` holds of the rest. -/
def Passes (quiet : Done S → Prop) (d : Done S) (C : Prog S → Prop) : Prog S → Prop
  | .ret | .wait _ _ _ => True
  | .act a k => ∀ r, ⟨a, r⟩ = d ∧ C (k r) ∨ ⟨a, r⟩ ≠ d ∧ quiet ⟨a, r⟩ ∧ Passes quiet d C (k r)
  | .lock _ k | .unlock _ k | .signal _ k | .broadcast _ k => Passes quiet d C k
  | .await a _ _ _ _ k => ∀ r, ⟨a, r⟩ ≠ d ∧ quiet ⟨a, r⟩ ∧ Passes quiet d C (k r)

@[simp] theorem passes_lock {m : S.Mutex} : (lock m p).Passes quiet d C ↔ p.Passes quiet d C := Iff.rfl

@[simp] theorem passes_ite {b : Prop} [Decidable b] {q : Prog S} :
    (if b then p else q).Passes quiet d C ↔
      (b → p.Passes quiet d C) ∧ (¬ b → q.Passes quiet d C) := by
  split_ifs <;> simp [*]

/-- An action that is quiet whatever its answer. -/
theorem Passes.act {a : S.Act} {k : S.Ans a → Prog S} (hd : a ≠ d.1) (hq : ∀ r, quiet ⟨a, r⟩)
    (hk : ∀ r, (k r).Passes quiet d C) : (Prog.act a k).Passes quiet d C := by
  refine fun r => Or.inr ⟨?_, hq r, hk r⟩
  rintro rfl
  exact hd rfl

/-- **A run that comes to the step `d`.**  Quiet steps keep the view `π` of the state. -/
theorem Runs.passage {π : σ → τ}
    (hπ : ∀ a e s r s', X a e s = some (r, s') → quiet ⟨a, r⟩ ∨ ⟨a, r⟩ = d → π s' = π s)
    (h : Runs X p s t o s') (hp : p.Passes quiet d C) (ht : d ∈ t) :
    ∃ t₁ t₂ q s₁, t = t₁ ++ d :: t₂ ∧ (∀ x ∈ t₁, quiet x) ∧ C q ∧ π s₁ = π s ∧ Runs X q s₁ t₂ o s' := by
  induction h with
  | ret | fails | wait | failsAwait => cases ht
  | @act a k e s r s₁ t o s' hx hr ih =>
    rcases hp r with ⟨hd, hC⟩ | ⟨hd, hq, hk⟩
    · exact ⟨[], t, k r, s₁, by rw [hd]; rfl, by simp, hC, hπ _ _ _ _ _ hx (Or.inr hd), hr⟩
    · obtain ⟨t₁, t₂, q, s₂, rfl, h1, h2, h3, h4⟩ := ih hk ((List.mem_cons.1 ht).resolve_left (Ne.symm hd))
      refine ⟨⟨a, r⟩ :: t₁, t₂, q, s₂, rfl, ?_, h2, h3.trans (hπ _ _ _ _ _ hx (Or.inl hq)), h4⟩
      rintro x (_ | ⟨_, hx⟩)
      exacts [hq, h1 x hx]
  | lock _ ih | unlock _ ih | signal _ ih | broadcast _ ih => exact ih hp ht
  | @park a b us c m k e s r s' hx hb =>
    exact absurd (List.mem_singleton.1 ht).symm (hp r).1
  | @pass a b us c m k e s r s₁ t o s' hx hb hr ih =>
    obtain ⟨hd, hq, hk⟩ := hp r
    obtain ⟨t₁, t₂, q, s₂, rfl, h1, h2, h3, h4⟩ := ih hk ((List.mem_cons.1 ht).resolve_left (Ne.symm hd))
    refine ⟨⟨a, r⟩ :: t₁, t₂, q, s₂, rfl, ?_, h2, h3.trans (hπ _ _ _ _ _ hx (Or.inl hq)), h4⟩
    rintro x (_ | ⟨_, hx⟩)
    exacts [hq, h1 x hx]

/-- A program whose actions cost nothing keeps what costless actions keep. -/
theorem Runs.costless {π : σ → τ} {cost : S.Act → ℕ}
    (hπ : ∀ a e s r s', X a e s = some (r, s') → cost a = 0 → π s' = π s)
    (h : Runs X p s t o s') (hp : p.Budget cost 0) : (∀ d ∈ t, cost d.1 = 0) ∧ π s' = π s := by
  induction h with
  | ret | fails | wait | failsAwait => exact ⟨by simp, rfl⟩
  | act hx _ ih | pass hx _ _ ih =>
    obtain ⟨hc, hb⟩ := hp
    have h0 := Nat.le_zero.1 hc
    obtain ⟨h1, h2⟩ := ih ((Nat.zero_sub _).symm ▸ hb _)
    exact ⟨List.forall_mem_cons.2 ⟨h0, h1⟩, h2.trans (hπ _ _ _ _ _ hx h0)⟩
  | lock _ ih | unlock _ ih | signal _ ih | broadcast _ ih => exact ih hp
  | park hx _ =>
    have h0 := Nat.le_zero.1 hp.1
    exact ⟨List.forall_mem_singleton.2 h0, hπ _ _ _ _ _ hx h0⟩

/-- A run of which no action fails is one of any execution that can follow it. -/
theorem Runs.simulate {F : Type} {Y : Exec S τ F} {π : σ → τ} {I : σ → Prop}
    (hI : ∀ a e s r s', I s → X a e s = some (r, s') → I s' ∧ ∃ f, Y a f (π s) = some (r, π s'))
    (h : Runs X p s t o s') (hs : I s) (ho : o ≠ .stuck) : Runs Y p (π s) t o (π s') := by
  induction h with
  | ret => exact .ret
  | fails | failsAwait => exact absurd rfl ho
  | act hx _ ih =>
    obtain ⟨hi, f, hy⟩ := hI _ _ _ _ _ hs hx
    exact .act hy (ih hi ho)
  | lock _ ih => exact .lock (ih hs ho)
  | unlock _ ih => exact .unlock (ih hs ho)
  | signal _ ih => exact .signal (ih hs ho)
  | broadcast _ ih => exact .broadcast (ih hs ho)
  | wait => exact .wait
  | park hx hb =>
    obtain ⟨-, f, hy⟩ := hI _ _ _ _ _ hs hx
    exact .park hy hb
  | pass hx hb _ ih =>
    obtain ⟨hi, f, hy⟩ := hI _ _ _ _ _ hs hx
    exact .pass hy hb (ih hi ho)

end Prog

end Threads
