/-
  Half-duplex protocols over a duplex stream.

  A `Protocol` says which messages may follow each other; in none of its states
  may both parties send.  The parties run on their own, and a message sent
  arrives once, in order, at any time later, so that they may be in different
  states of the protocol.

  * `Aligned`: the parties differ by the messages in flight, all of one
    direction.
  * `Aligned.step`: a party that sends what the protocol lets it send keeps
    this, and what it takes is what the protocol lets it expect.
  * `Conforms`: a peer that keeps to the protocol.
-/
import FileStorage.Lib.Duplex

namespace Duplex

/-- A protocol with states `Q` for a party that sends `O` and takes `I`. -/
structure Protocol (Q O I : Type) where
  up : Q → O → Q → Prop
  down : Q → I → Q → Prop
  turn : ∀ {q m q₁ m' q₂}, up q m q₁ → ¬ down q m' q₂

variable {Q O I α : Type}

/-- The protocol seen by the other party. -/
def Protocol.swap (P : Protocol Q O I) : Protocol Q I O := ⟨P.down, P.up, fun h h' => P.turn h' h⟩

/-- What a step of a party does to the messages in flight: `out` are those that
    it has sent, `inn` those sent to it. -/
def Label.Carries : Label O I → List O → List I → List O → List I → Prop
  | .tau, out, inn, out', inn' => out' = out ∧ inn' = inn
  | .snd m, out, inn, out', inn' => out' = out ++ [m] ∧ inn' = inn
  | .rcv m, out, inn, out', inn' => out' = out ∧ inn = m :: inn'

/-- The messages in flight after a step; `none` if it does not take the next one. -/
def Label.carry [DecidableEq I] : Label O I → List O → List I → Option (List O × List I)
  | .tau, out, inn => some (out, inn)
  | .snd m, out, inn => some (out ++ [m], inn)
  | .rcv _, _, [] => none
  | .rcv m, out, m' :: inn => if m' = m then some (out, inn) else none

theorem Label.carries_of_carry [DecidableEq I] {l : Label O I} {out : List O} {inn : List I}
    {x : List O × List I} (h : l.carry out inn = some x) : l.Carries out inn x.1 x.2 := by
  cases l with
  | tau | snd => cases h; exact ⟨rfl, rfl⟩
  | rcv m =>
    cases inn with
    | nil => cases h
    | cons m' inn =>
      rw [Label.carry] at h
      split at h
      · next hm =>
        cases h
        exact ⟨rfl, by rw [hm]⟩
      · cases h

/-- The messages `ms` lead from one state to the other. -/
inductive Leads {M : Type} (t : Q → M → Q → Prop) : Q → List M → Q → Prop
  | nil {q} : Leads t q [] q
  | cons {q m q₁ ms q₂} : t q m q₁ → Leads t q₁ ms q₂ → Leads t q (m :: ms) q₂

section
variable {M : Type} {t : Q → M → Q → Prop} {q q₁ q₂ : Q} {m : M} {ms : List M}

theorem Leads.snoc (h : Leads t q ms q₁) (hm : t q₁ m q₂) : Leads t q (ms ++ [m]) q₂ := by
  induction h with
  | nil => exact .cons hm .nil
  | cons h₁ _ ih => exact .cons h₁ (ih hm)

theorem Leads.of_nil (h : Leads t q [] q₁) : q₁ = q := by
  cases h
  rfl

/-- No message leads to a state that is the target of none. -/
theorem Leads.of_source (h : Leads t q ms q₁) (hq : ∀ q m, ¬ t q m q₁) : ms = [] ∧ q = q₁ := by
  induction h with
  | nil => exact ⟨rfl, rfl⟩
  | cons hm _ ih =>
    obtain ⟨-, rfl⟩ := ih hq
    exact absurd hm (hq _ _)

end

namespace Protocol
variable (P : Protocol Q O I)

/-- The state after a step of the party. -/
def Next (q : Q) : Label O I → Q → Prop
  | .tau, q' => q' = q
  | .snd m, q' => P.up q m q'
  | .rcv m, q' => P.down q m q'

/-- The party is in the state `q`, the other one in `q'`, and `out` and `inn` are
    in flight: these lead from the state of the one that is behind to that of
    the other one. -/
def Aligned (q q' : Q) (out : List O) (inn : List I) : Prop :=
  out = [] ∧ Leads P.down q inn q' ∨ inn = [] ∧ Leads P.up q' out q

variable {P} {q q' : Q} {out out' : List O} {inn inn' : List I}

theorem Aligned.refl : P.Aligned q q [] [] := Or.inl ⟨rfl, .nil⟩

theorem Aligned.swap (h : P.Aligned q q' out inn) : P.swap.Aligned q' q inn out := Or.symm h

/-- **A step of a party that keeps to the protocol.** -/
theorem Aligned.step {l : Label O I} (h : P.Aligned q q' out inn) (hl : l.Carries out inn out' inn')
    (hs : ∀ m, l = .snd m → ∃ q₁, P.up q m q₁) : ∃ q₁, P.Next q l q₁ ∧ P.Aligned q₁ q' out' inn' := by
  cases l with
  | tau =>
    obtain ⟨rfl, rfl⟩ := hl
    exact ⟨q, rfl, h⟩
  | snd m =>
    obtain ⟨rfl, rfl⟩ := hl
    obtain ⟨q₁, hm⟩ := hs m rfl
    refine ⟨q₁, hm, ?_⟩
    obtain ⟨rfl, hp⟩ | ⟨rfl, hp⟩ := h
    · -- nothing can be in flight to a party whose turn it is
      cases hp with
      | nil => exact Or.inr ⟨rfl, Leads.snoc .nil hm⟩
      | cons hd _ => exact absurd hd (P.turn hm)
    · exact Or.inr ⟨rfl, hp.snoc hm⟩
  | rcv m =>
    obtain ⟨rfl, rfl⟩ := hl
    obtain ⟨rfl, hp⟩ | ⟨hne, -⟩ := h
    · cases hp with
      | @cons _ _ q₁ _ _ hd hp => exact ⟨q₁, hd, Or.inl ⟨rfl, hp⟩⟩
    · cases hne

/-- What is in flight to a party is what the protocol lets it expect. -/
theorem Aligned.expected {m : I} (h : P.Aligned q q' out (m :: inn)) : ∃ q₁, P.down q m q₁ := by
  obtain ⟨-, hp⟩ | ⟨hne, -⟩ := h
  · cases hp with
    | cons hd _ => exact ⟨_, hd⟩
  · cases hne

/-- A party whose turn it is not, with nothing in flight to it, is not behind the
    other one. -/
theorem Aligned.ahead (h : P.Aligned q q' out []) : Leads P.up q' out q := by
  obtain ⟨rfl, hp⟩ | ⟨-, hp⟩ := h
  · rw [hp.of_nil]
    exact .nil
  · exact hp

/-- With nothing in flight the parties are in the same state. -/
theorem Aligned.same (h : P.Aligned q q' [] []) : q = q' := h.ahead.of_nil

/-- Where no message is expected, and none of one's own leads to, the parties
    are in the same state. -/
theorem Aligned.settled (h : P.Aligned q q' out inn) (hd : ∀ m q₁, ¬ P.down q m q₁)
    (hu : ∀ q₁ m, ¬ P.up q₁ m q) : out = [] ∧ inn = [] ∧ q' = q := by
  cases inn with
  | nil =>
    obtain ⟨hout, he⟩ := h.ahead.of_source hu
    exact ⟨hout, rfl, he⟩
  | cons m inn =>
    obtain ⟨q₁, hq⟩ := h.expected
    exact absurd hq (hd m q₁)

/-- A peer in a state with `J` sends what the protocol lets it send, and is in
    such a state after every step. -/
def Conforms (P : Protocol Q O I) (A : Peer α O I) (J : α → Q → Prop) : Prop :=
  ∀ a q l a', J a q → A.step a l a' →
    (∀ m, l = .snd m → ∃ q', P.up q m q') ∧ ∀ q', P.Next q l q' → J a' q'

end Protocol

end Duplex
