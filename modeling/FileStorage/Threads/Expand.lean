/-
  Programs over a larger signature.

  `Into S T` embeds a signature into another one.  `expand` translates a
  program: an action becomes what `f` makes of it, the operations on mutexes
  and condition variables and the loops stay as they are, and after the last
  action comes `q`.  `expand_ind` is the rule for what holds of the result.
-/
import FileStorage.Threads.Shape

namespace Threads

/-- An embedding of signatures, with the answers going back. -/
structure Into (S T : Sig) where
  act : S.Act → T.Act
  ans : ∀ a, T.Ans (act a) → S.Ans a
  mutex : S.Mutex → T.Mutex
  cond : S.Cond → T.Cond

namespace Prog

variable {S T : Sig} (i : Into S T) (f : (a : S.Act) → (S.Ans a → Prog T) → Prog T) (q : Prog T)

/-- The program with each action translated by `f`, then `q`. -/
def expand : Prog S → Prog T
  | .ret => q
  | .act a k => f a fun r => expand (k r)
  | .lock m k => .lock (i.mutex m) (expand k)
  | .unlock m k => .unlock (i.mutex m) (expand k)
  | .signal c k => .signal (i.cond c) (expand k)
  | .broadcast c k => .broadcast (i.cond c) (expand k)
  | .wait c m k => .wait (i.cond c) (i.mutex m) (expand k)
  | .await a b us c m k => .await (i.act a) (fun r => b (i.ans a r)) (us.map i.mutex) (i.cond c)
      (i.mutex m) fun r => expand (k (i.ans a r))

variable {i f q} {Q : Prog T → Prop}
  {P : (a : S.Act) → (S.Ans a → Bool) → List S.Mutex → S.Cond → S.Mutex → Prop}
  {A : (a : S.Act) → (S.Ans a → Prog S) → Prop}

/-- What holds of `q` and is kept by every translated action, by every operation
    and by the loops holds of the translation of a shaped program. -/
theorem expand_ind {p : Prog S} (hp : p.Shaped A P) (hq : Q q)
    (hact : ∀ a k k', A a k' → (∀ r, Q (k r)) → Q (f a k))
    (hlock : ∀ m k, Q k → Q (.lock (i.mutex m) k)) (hunlock : ∀ m k, Q k → Q (.unlock (i.mutex m) k))
    (hsignal : ∀ c k, Q k → Q (.signal (i.cond c) k))
    (hbroadcast : ∀ c k, Q k → Q (.broadcast (i.cond c) k))
    (hawait : ∀ a b us c m k, P a b us c m → (∀ r, Q (k r)) →
      Q (.await (i.act a) (fun r => b (i.ans a r)) (us.map i.mutex) (i.cond c) (i.mutex m) k)) :
    Q (expand i f q p) := by
  induction p with
  | ret => exact hq
  | act a k ih => exact hact _ _ _ hp.1 fun r => ih r (hp.2 r)
  | lock m k ih => exact hlock _ _ (ih hp)
  | unlock m k ih => exact hunlock _ _ (ih hp)
  | signal c k ih => exact hsignal _ _ (ih hp)
  | broadcast c k ih => exact hbroadcast _ _ (ih hp)
  | wait => exact absurd hp id
  | await a b us c m k ih => exact hawait _ _ _ _ _ _ hp.1 fun r => ih _ (hp.2.2 _)

end Prog

end Threads
