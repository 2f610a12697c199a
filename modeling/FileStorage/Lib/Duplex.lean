/-
  Two peers joined by a duplex stream.

  A peer is a transition system whose steps are silent, send a message or take
  one.  A `Link` is two peers with the messages of both directions; a message
  sent arrives once, in order, at any time later.

  * `InStep`: from this start the peers can always go on, until both have
    finished and each has got exactly what the other has sent.
  * `Agree` compares the peers as if a message was sent and taken at once: one
    rule for each side that moves silently, and one for each direction.
  * `Agree.inStep`: peers that agree stay in step.  The invariant is that one
    of the peers, after the messages that are in flight to it, agrees with the
    other one (`Lag`).
-/
import Mathlib.Logic.Relation

namespace Duplex

/-- What a step does: nothing visible, or it sends or takes a message. -/
inductive Label (O I : Type) where
  | tau
  | snd (m : O)
  | rcv (m : I)

/-- A peer with states `α` that sends messages `O` and takes messages `I`. -/
structure Peer (α O I : Type) where
  step : α → Label O I → α → Prop
  /-- the peer has finished -/
  done : α → Prop
  /-- the peer has been killed -/
  dead : α → Prop

/-- One direction of the stream. -/
structure Chan (M : Type) where
  sent : List M
  got : List M

structure Link (α β U D : Type) where
  left : α
  right : β
  up : Chan U
  down : Chan D

variable {α β O I U D : Type}

/-! ## Peers -/

namespace Peer
variable (P : Peer α O I) (a : α)

/-- The peer can move, and moves silently. -/
def Quiet : Prop := (∃ a', P.step a .tau a') ∧ ∀ l a', P.step a l a' → l = .tau

/-- The peer can move, and sends. -/
def Sends : Prop := (∃ m a', P.step a (.snd m) a') ∧ ∀ l a', P.step a l a' → ∃ m, l = .snd m

/-- The peer moves by taking a message only. -/
def Receives : Prop := ∀ l a', P.step a l a' → ∃ m, l = .rcv m

/-- The peer has been killed. -/
def Killed : Prop := P.dead a ∧ ∀ l a', ¬ P.step a l a'

end Peer

/-! ## Links -/

/-- Nothing sent yet. -/
def Link.init (a : α) (b : β) : Link α β U D := ⟨a, b, ⟨[], []⟩, ⟨[], []⟩⟩

def Link.swap (c : Link α β U D) : Link β α D U := ⟨c.right, c.left, c.down, c.up⟩

/-- The messages `ms` are in flight. -/
def Chan.Flight {M : Type} (c : Chan M) (ms : List M) : Prop := c.sent = c.got ++ ms

variable (A : Peer α U D) (B : Peer β D U)

/-- One step of one of the peers. -/
inductive Step : Link α β U D → Link α β U D → Prop
  | left {a a' b u d} : A.step a .tau a' → Step ⟨a, b, u, d⟩ ⟨a', b, u, d⟩
  | leftSnd {a a' b u d m} : A.step a (.snd m) a' →
      Step ⟨a, b, u, d⟩ ⟨a', b, { u with sent := u.sent ++ [m] }, d⟩
  | leftRcv {a a' b u d m ms} : A.step a (.rcv m) a' → d.Flight (m :: ms) →
      Step ⟨a, b, u, d⟩ ⟨a', b, u, { d with got := d.got ++ [m] }⟩
  | right {a b b' u d} : B.step b .tau b' → Step ⟨a, b, u, d⟩ ⟨a, b', u, d⟩
  | rightSnd {a b b' u d m} : B.step b (.snd m) b' →
      Step ⟨a, b, u, d⟩ ⟨a, b', u, { d with sent := d.sent ++ [m] }⟩
  | rightRcv {a b b' u d m ms} : B.step b (.rcv m) b' → u.Flight (m :: ms) →
      Step ⟨a, b, u, d⟩ ⟨a, b', { u with got := u.got ++ [m] }, d⟩

/-- Both peers have finished and each has got exactly what the other has sent. -/
structure Settled (c : Link α β U D) : Prop where
  left : A.done c.left
  right : B.done c.right
  up : c.up.got = c.up.sent
  down : c.down.got = c.down.sent

/-- From the states `a` and `b` on, the peers can always go on until all is
    settled, unless one of them is killed. -/
def InStep (a : α) (b : β) : Prop :=
  ∀ c, Relation.ReflTransGen (Step A B) (.init a b) c →
    (∃ c', Step A B c c') ∨ A.dead c.left ∨ B.dead c.right ∨ Settled A B c

/-- Agreement of the states of two peers.  A peer may move silently around
    within a set `R` of states, as long as it agrees wherever it leaves `R`. -/
inductive Agree : α → β → Prop
  | done {a b} : A.done a → B.done b → A.Receives a → B.Receives b → Agree a b
  | killedLeft {a b} : A.Killed a → Agree a b
  | killedRight {a b} : B.Killed b → Agree a b
  | left {a b} (R : α → Prop) : R a → (∀ a, R a → A.Quiet a) →
      (∀ a a', R a → A.step a .tau a' → ¬ R a' → Agree a' b) → Agree a b
  | right {a b} (R : β → Prop) : R b → (∀ b, R b → B.Quiet b) →
      (∀ b b', R b → B.step b .tau b' → ¬ R b' → Agree a b') → Agree a b
  | up {a b} : A.Sends a → B.Receives b →
      (∀ m a', A.step a (.snd m) a' → ∃ b', B.step b (.rcv m) b') →
      (∀ m a' b', A.step a (.snd m) a' → B.step b (.rcv m) b' → Agree a' b') → Agree a b
  | down {a b} : A.Receives a → B.Sends b →
      (∀ m b', B.step b (.snd m) b' → ∃ a', A.step a (.rcv m) a') →
      (∀ m a' b', B.step b (.snd m) b' → A.step a (.rcv m) a' → Agree a' b') → Agree a b

/-- After the messages in flight to it the peer is in a state with `G`. -/
inductive Lag (G : α → Prop) : α → List D → Prop
  | sync {a} : G a → Lag G a []
  | killed {a ms} : A.Killed a → Lag G a ms
  | quiet {a m ms} (R : α → Prop) : R a → (∀ a, R a → A.Quiet a) →
      (∀ a a', R a → A.step a .tau a' → ¬ R a' → Lag G a' (m :: ms)) → Lag G a (m :: ms)
  | take {a m ms} : A.Receives a → (∃ a', A.step a (.rcv m) a') →
      (∀ a', A.step a (.rcv m) a' → Lag G a' ms) → Lag G a (m :: ms)

variable {A B} {a a' : α} {b b' : β}

/-! ## Symmetry -/

theorem Step.swap {c c' : Link α β U D} (h : Step A B c c') : Step B A c.swap c'.swap := by
  cases h with
  | left h => exact .right h
  | leftSnd h => exact .rightSnd h
  | leftRcv h hf => exact .rightRcv h hf
  | right h => exact .left h
  | rightSnd h => exact .leftSnd h
  | rightRcv h hf => exact .leftRcv h hf

theorem Agree.swap (h : Agree A B a b) : Agree B A b a := by
  induction h with
  | done h1 h2 h3 h4 => exact .done h2 h1 h4 h3
  | killedLeft h => exact .killedRight h
  | killedRight h => exact .killedLeft h
  | left R hR hq _ ih => exact .right R hR hq ih
  | right R hR hq _ ih => exact .left R hR hq ih
  | up hs hr hx _ ih => exact .down hr hs hx fun m b' a' ha hb => ih m a' b' ha hb
  | down hr hs hx _ ih => exact .up hs hr hx fun m b' a' hb ha => ih m a' b' hb ha

/-! ## Peers that lag behind -/

theorem Lag.agree (h : Lag A (Agree A B · b) a []) : Agree A B a b := by
  cases h with
  | sync h => exact h
  | killed h => exact .killedLeft h

/-- What a step sends, if it does not take a message. -/
def Label.out : Label O I → Option (List O)
  | .tau => some []
  | .snd m => some [m]
  | .rcv _ => none

/-- A step of the right peer: the left one now lags behind by what was sent. -/
theorem Agree.step_right {l : Label D U} {ds : List D} (h : Agree A B a b) (hs : B.step b l b')
    (hl : l.out = some ds) : Lag A (Agree A B · b') a ds := by
  induction h with
  | done _ _ _ hr | up _ hr =>
    obtain ⟨m, rfl⟩ := hr _ _ hs
    cases hl
  | killedLeft h => exact .killed h
  | killedRight h => exact absurd hs (h.2 _ _)
  | left R hR hq _ ih =>
    cases ds with
    | nil => exact .sync (.left R hR hq fun a a' ha hst hn => (ih a a' ha hst hn hs).agree)
    | cons m ms => exact .quiet R hR hq fun a a' ha hst hn => ih a a' ha hst hn hs
  | right R hR hq h =>
    obtain rfl := (hq _ hR).2 _ _ hs
    cases hl
    by_cases hb : R b'
    · exact .sync (.right R hb hq h)
    · exact .sync (h _ _ hR hs hb)
  | down hr hsnd hx h =>
    obtain ⟨m, rfl⟩ := hsnd.2 _ _ hs
    cases hl
    exact .take hr (hx m _ hs) fun a' ha => .sync (h m a' _ hs ha)

theorem Lag.step_right {l : Label D U} {ms ds : List D} (h : Lag A (Agree A B · b) a ms)
    (hs : B.step b l b') (hl : l.out = some ds) : Lag A (Agree A B · b') a (ms ++ ds) := by
  induction h with
  | sync h => exact h.step_right hs hl
  | killed h => exact .killed h
  | quiet R hR hq _ ih => exact .quiet R hR hq ih
  | take hr hx _ ih => exact .take hr hx ih

/-- A step of the peer that lags behind. -/
theorem Lag.step_left {G : α → Prop} {l : Label U D} {m : D} {ms : List D} (h : Lag A G a (m :: ms))
    (hs : A.step a l a') :
    l = .tau ∧ Lag A G a' (m :: ms) ∨ ∃ m', l = .rcv m' ∧ (m' = m → Lag A G a' ms) := by
  cases h with
  | killed h => exact absurd hs (h.2 _ _)
  | quiet R hR hq h =>
    obtain rfl := (hq _ hR).2 _ _ hs
    refine Or.inl ⟨rfl, ?_⟩
    by_cases ha : R a'
    · exact .quiet R ha hq h
    · exact h _ _ hR hs ha
  | take hr _ h =>
    obtain ⟨m', rfl⟩ := hr _ _ hs
    refine Or.inr ⟨m', rfl, ?_⟩
    rintro rfl
    exact h _ hs

/-! ## Runs -/

/-- The left peer lags behind, and the right one has got everything. -/
def Behind (A : Peer α U D) (B : Peer β D U) (c : Link α β U D) : Prop :=
  c.up.Flight [] ∧ ∃ ds, c.down.Flight ds ∧ Lag A (Agree A B · c.right) c.left ds

theorem Chan.Flight.unique {M : Type} {c : Chan M} {ms ms' : List M} (h : c.Flight ms)
    (h' : c.Flight ms') : ms = ms' :=
  List.append_cancel_left (h.symm.trans h')

theorem Chan.Flight.put {M : Type} {c : Chan M} {ms : List M} (h : c.Flight ms) (m : M) :
    ({ c with sent := c.sent ++ [m] } : Chan M).Flight (ms ++ [m]) := by
  show c.sent ++ [m] = c.got ++ (ms ++ [m])
  rw [h, List.append_assoc]

theorem Chan.Flight.take {M : Type} {c : Chan M} {m : M} {ms : List M} (h : c.Flight (m :: ms)) :
    ({ c with got := c.got ++ [m] } : Chan M).Flight ms := by
  show c.sent = c.got ++ [m] ++ ms
  rw [h, List.append_assoc]; rfl

/-- After a step one of the peers still lags behind. -/
theorem Behind.step {c c' : Link α β U D} (h : Behind A B c) (hs : Step A B c c') :
    Behind A B c' ∨ Behind B A c'.swap := by
  obtain ⟨hu, ds, hd, hlag⟩ := h
  cases hs with
  | @left a a' b u d hst =>
    cases ds with
    | nil => exact Or.inr ⟨hd, [], hu, hlag.agree.swap.step_right hst rfl⟩
    | cons m ms =>
      obtain ⟨-, h⟩ | ⟨m', hl, -⟩ := hlag.step_left hst
      · exact Or.inl ⟨hu, _, hd, h⟩
      · cases hl
  | @leftSnd a a' b u d m hst =>
    cases ds with
    | nil => exact Or.inr ⟨hd, [m], hu.put m, hlag.agree.swap.step_right hst rfl⟩
    | cons m' ms => obtain ⟨hl, -⟩ | ⟨_, hl, -⟩ := hlag.step_left hst <;> cases hl
  | @leftRcv a a' b u d m ms hst hf =>
    obtain rfl := hd.unique hf
    obtain ⟨hl, -⟩ | ⟨m', hl, h⟩ := hlag.step_left hst
    · cases hl
    · cases hl
      exact Or.inl ⟨hu, ms, hd.take, h rfl⟩
  | right hst =>
    have h := hlag.step_right hst rfl
    rw [List.append_nil] at h
    exact Or.inl ⟨hu, ds, hd, h⟩
  | @rightSnd a b b' u d m hst => exact Or.inl ⟨hu, ds ++ [m], hd.put m, hlag.step_right hst rfl⟩
  | rightRcv hst hf => cases hu.unique hf

/-- In agreement, and with nothing in flight, somebody can move or all is settled. -/
theorem Agree.progress {u : Chan U} {d : Chan D} (h : Agree A B a b) (hu : u.Flight [])
    (hd : d.Flight []) : (∃ c', Step A B ⟨a, b, u, d⟩ c') ∨ A.dead a ∨ B.dead b ∨
      Settled A B ⟨a, b, u, d⟩ := by
  cases h with
  | done h1 h2 =>
    have hu' : u.sent = u.got ++ [] := hu
    have hd' : d.sent = d.got ++ [] := hd
    rw [List.append_nil] at hu' hd'
    exact Or.inr (Or.inr (Or.inr ⟨h1, h2, hu'.symm, hd'.symm⟩))
  | killedLeft h => exact Or.inr (Or.inl h.1)
  | killedRight h => exact Or.inr (Or.inr (Or.inl h.1))
  | left R hR hq => obtain ⟨a', ha⟩ := (hq _ hR).1; exact Or.inl ⟨_, .left ha⟩
  | right R hR hq => obtain ⟨b', hb⟩ := (hq _ hR).1; exact Or.inl ⟨_, .right hb⟩
  | up hs => obtain ⟨m, a', ha⟩ := hs.1; exact Or.inl ⟨_, .leftSnd ha⟩
  | down _ hs => obtain ⟨m, b', hb⟩ := hs.1; exact Or.inl ⟨_, .rightSnd hb⟩

theorem Behind.progress {c : Link α β U D} (h : Behind A B c) :
    (∃ c', Step A B c c') ∨ A.dead c.left ∨ B.dead c.right ∨ Settled A B c := by
  obtain ⟨a, b, u, d⟩ := c
  obtain ⟨hu, ds, hd, hlag⟩ := h
  cases hlag with
  | sync h => exact h.progress hu hd
  | killed h => exact Or.inr (Or.inl h.1)
  | quiet R hR hq => obtain ⟨a', ha⟩ := (hq _ hR).1; exact Or.inl ⟨_, .left ha⟩
  | take _ hx => obtain ⟨a', ha⟩ := hx; exact Or.inl ⟨_, .leftRcv ha hd⟩

/-- **Peers that agree stay in step.** -/
theorem Agree.inStep (h : Agree A B a b) : InStep A B a b := by
  intro c hc
  have hinv : Behind A B c ∨ Behind B A c.swap := by
    induction hc with
    | refl => exact Or.inl ⟨rfl, [], rfl, .sync h⟩
    | tail _ hs ih =>
      rcases ih with ih | ih
      · exact ih.step hs
      · exact (ih.step hs.swap).symm
  rcases hinv with hinv | hinv
  · exact hinv.progress
  · rcases hinv.progress with ⟨c', hs⟩ | hd | hd | ⟨h1, h2, h3, h4⟩
    · exact Or.inl ⟨c'.swap, hs.swap⟩
    · exact Or.inr (Or.inr (Or.inl hd))
    · exact Or.inr (Or.inl hd)
    · exact Or.inr (Or.inr (Or.inr ⟨h2, h1, h4, h3⟩))

/-! ## Rules of agreement -/

/-- A silent step of the right peer. -/
theorem Agree.tau_right (hq : B.Quiet b) (h : ∀ b', B.step b .tau b' → Agree A B a b') :
    Agree A B a b :=
  .right (· = b) rfl (fun _ hb => hb ▸ hq) fun _ b' hb hs _ => h b' (hb ▸ hs)

/-- A silent step of the left peer. -/
theorem Agree.tau_left (hq : A.Quiet a) (h : ∀ a', A.step a .tau a' → Agree A B a' b) :
    Agree A B a b :=
  .left (· = a) rfl (fun _ ha => ha ▸ hq) fun _ a' ha hs _ => h a' (ha ▸ hs)

end Duplex
