/-
  Networks that come to an end.

  * `Inv.goes_on`: a thread that can go on does so in the network, unless it
    reads and nothing is in flight to it.
  * `Proceeds.acc`: if the programs of the peers are finite, and the tasks of the
    threads bounded, then every run without spurious wake-ups is finite.
-/
import FileStorage.Threads.Network
import FileStorage.Threads.Order
import FileStorage.Threads.Potential
import Mathlib.Data.DFinsupp.WellFounded

namespace Threads

open Duplex

variable {S C : Sig} {σ τ E F L W Q G O I U D α : Type}

/-- The action can be performed without taking a message, or takes any of those
    that it reads. -/
def Able (X : Exec S σ E) (lab : Labels S E O I) (tells : (a : S.Act) → S.Ans a → Option (Label O I))
    (a : S.Act) (s : σ) : Prop :=
  (∃ e l r s', lab a e = some l ∧ X a e s = some (r, s') ∧ ∀ m, l ≠ .rcv m) ∨
    (∃ r m, tells a r = some (.rcv m)) ∧ ∀ r m, tells a r = some (.rcv m) →
      ∃ e r' s', lab a e = some (.rcv m) ∧ X a e s = some (r', s')

section
variable {X : Exec S σ E} {lab : Labels S E O I} {tells : (a : S.Act) → S.Ans a → Option (Label O I)}
  {a : S.Act} {s : σ}

theorem Able.silent (e : E) {r : S.Ans a} {s' : σ} (hl : lab a e = some .tau) (hx : X a e s = some (r, s')) :
    Able X lab tells a s :=
  Or.inl ⟨e, .tau, r, s', hl, hx, nofun⟩

/-- A block can be sent. -/
theorem Writes.able {V : Type} {m : List V → O} {buf : List V} {G : S.Ans a → Prop}
    (hw : Writes X lab m a buf G) : Able X lab tells a s := by
  obtain ⟨e, l, r, s', hl, hx⟩ := hw.can s
  refine Or.inl ⟨e, l, r, s', hl, hx, fun m' he => ?_⟩
  rw [hw.label e l hl] at he
  split at he <;> cases he

/-- A block can be taken. -/
theorem Reads.able {V : Type} {m : List V → I} {n : ℕ} {G : List V → S.Ans a → Prop}
    (hr : Reads X lab m a n G) (hn : ∃ buf : List V, buf.length = n)
    (htell : ∀ e l r s', lab a e = some l → X a e s = some (r, s') → tells a r = some l)
    (hrcv : ∀ r m', tells a r = some (.rcv m') → ∃ buf, m' = m buf ∧ buf.length = n) :
    Able X lab tells a s := by
  obtain ⟨buf, hlen⟩ := hn
  obtain ⟨e, r, s', hl, hx⟩ := hr.can buf s hlen
  by_cases h0 : n = 0
  · rw [if_pos h0] at hl
    exact .silent e hl hx
  · rw [if_neg h0] at hl
    refine Or.inr ⟨⟨r, _, htell _ _ _ _ hl hx⟩, fun r m' hm => ?_⟩
    obtain ⟨buf, rfl, hlen⟩ := hrcv r m' hm
    obtain ⟨e, r', s', hl, hx⟩ := hr.can buf s hlen
    rw [if_neg h0] at hl
    exact ⟨e, r', s', hl, hx⟩

end

/-- What is not a read is always possible. -/
theorem exists_carries {l : Label O I} (hl : ∀ m, l ≠ .rcv m) (out : List O) (inn : List I) :
    ∃ out', l.Carries out inn out' inn := by
  cases l with
  | tau => exact ⟨out, rfl, rfl⟩
  | snd m => exact ⟨out ++ [m], rfl, rfl⟩
  | rcv m => exact absurd rfl (hl m)

theorem carries_length {l : Label O I} {out out' : List O} {inn inn' : List I}
    (h : l.Carries out inn out' inn') : inn'.length ≤ inn.length ∧ ∀ m, l = .rcv m → inn'.length < inn.length := by
  cases l with
  | tau | snd =>
    obtain ⟨-, rfl⟩ := h
    exact ⟨le_rfl, fun m hm => by cases hm⟩
  | rcv m =>
    obtain ⟨-, rfl⟩ := h
    exact ⟨Nat.le_succ _, fun _ _ => Nat.lt_succ_self _⟩

/-- The steps of a finite program. -/
theorem speaks_wf [IsEmpty C.Mutex] [IsEmpty C.Cond] {X : Exec C τ F} {lab : Labels C F O I} :
    WellFounded fun c' c => ∃ l, (clientPeer X lab).step c l c' := by
  refine ⟨fun c => ?_⟩
  obtain ⟨p, s⟩ := c
  induction p generalizing s with
  | ret => exact ⟨_, fun c' ⟨l, h⟩ => by cases h⟩
  | act a k ih =>
    refine ⟨_, fun c' ⟨l, h⟩ => ?_⟩
    cases h with
    | act => exact ih _ _
  | lock m | unlock m | await _ _ _ _ m | wait _ m => exact isEmptyElim m
  | signal cd | broadcast cd => exact isEmptyElim cd

section
variable [DecidableEq W] [DecidableEq S.Mutex] [DecidableEq S.Cond] {X : Exec S σ E} {body : L → Prog S}
  {c c' : Conf S σ L W} {w : W} {ev : Ev S L}

theorem Step.idle_start {l : L} (h : Step X body w c (.start l) c') : c.thr w = .idle := by
  cases h with
  | start _ ht => exact ht

/-- A thread at rest that does not wake up starts a task. -/
theorem Step.starts (h : Step X body w c ev c') (hrest : (c.thr w).atRest = true)
    (hw : ∀ l cd m k, c.thr w ≠ .asleep l cd m k) : ∃ l, ev = .start l := by
  cases h with
  | start l => exact ⟨l, rfl⟩
  | spurious ht => exact absurd ht (hw _ _ _ _)
  | _ => simp_all [Thread.atRest]

end

namespace Network
variable [DecidableEq W] [DecidableEq S.Mutex] [DecidableEq S.Cond] {Y : System S σ E L α U D}
  {n n' : Network S σ L α U D W} {w : W} {P : W → Protocol Q U D} {M : W → Manners S Q G}
  {J : W → α → Q → Prop} {A : σ → (W → Q × G) → Prop} {p : W → Q} {v : W → Q × G} {lab : Labels S E D U}

/-! ## Progress -/

/-- A thread at an action that it can perform does so, or waits for a message. -/
theorem Inv.acts (h : Inv Y P M J A n p v) {a : S.Act} (ha : (n.server.thr w).nextAct = some a)
    (htell : ∀ e l r s', lab a e = some l → Y.exec a e n.server.st = some (r, s') → Y.tells a r = some l)
    (hx : Able Y.exec lab Y.tells a n.server.st) : (∃ e n', Step Y n w (some e) n') ∨
      n.up w = [] ∧ ∃ r m, Y.tells a r = some (.rcv m) := by
  rcases hx with ⟨e, l, r, s', hl, hx, hno⟩ | ⟨⟨r, m, hr⟩, hx⟩
  · obtain ⟨c', hst⟩ : ∃ c', Threads.Step Y.exec Y.body w n.server _ c' := Threads.Step.exists_did ha hx
    obtain ⟨ds, hc⟩ := exists_carries hno (n.down w) (n.up w)
    exact Or.inl ⟨_, _, .thread hst (htell _ _ _ _ hl hx) hc⟩
  · cases hu : n.up w with
    | nil => exact Or.inr ⟨rfl, r, m, hr⟩
    | cons m' us =>
      obtain ⟨r', hr'⟩ := h.reads_thread ha hr hu
      obtain ⟨e, r'', s', hl, hx⟩ := hx r' m' hr'
      obtain ⟨c', hst⟩ : ∃ c', Threads.Step Y.exec Y.body w n.server _ c' := Threads.Step.exists_did ha hx
      exact Or.inl ⟨_, _, .thread hst (htell _ _ _ _ hl hx) ⟨rfl, hu⟩⟩

/-- **A thread that can go on does so**, or waits for a message. -/
theorem Inv.goes_on (h : Inv Y P M J A n p v) (hw : Goes Y.exec Y.body n.server w)
    (htell : ∀ a e l r s', lab a e = some l → Y.exec a e n.server.st = some (r, s') → Y.tells a r = some l)
    (hable : ∀ a, (∃ e r s', Y.exec a e n.server.st = some (r, s')) →
      Able Y.exec lab Y.tells a n.server.st) :
    (∃ e n', Step Y n w (some e) n') ∨
      n.up w = [] ∧ ∃ a r m, (n.server.thr w).nextAct = some a ∧ Y.tells a r = some (.rcv m) := by
  obtain ⟨hrest, ev, c', hst⟩ := hw
  cases ev with
  | start l =>
    rw [hst.idle_start] at hrest
    cases hrest
  | sync => exact Or.inl ⟨_, _, .thread hst rfl ⟨rfl, rfl⟩⟩
  | did a r =>
    obtain ⟨e, hx⟩ := hst.exec_did
    have ha := hst.nextAct_did
    exact (h.acts ha (htell a) (hable a ⟨e, r, _, hx⟩)).imp_right fun ⟨hu, r, m, hr⟩ => ⟨hu, a, r, m, ha, hr⟩

/-! ## Termination -/

/-- A step that is not a spurious wake-up. -/
def Proceeds (Y : System S σ E L α U D) (n n' : Network S σ L α U D W) : Prop :=
  ∃ w ev, Step Y n w ev n' ∧ (ev.isSome → ∀ l cd m k, n.server.thr w ≠ .asleep l cd m k)

variable [Fintype W] {κ : Costs S} {b : L → ℕ}

omit [DecidableEq S.Mutex] [DecidableEq S.Cond] in
/-- The number of messages in flight to the threads, when one has fewer. -/
theorem sum_length_update (up : W → List U) (w : W) (us : List U) :
    (us.length ≤ (up w).length → ∑ u, (Function.update up w us u).length ≤ ∑ u, (up u).length) ∧
      (us.length < (up w).length → ∑ u, (Function.update up w us u).length < ∑ u, (up u).length) := by
  have hle : us.length ≤ (up w).length → ∀ u, (Function.update up w us u).length ≤ (up u).length := by
    intro h u
    by_cases hu : u = w
    · subst hu
      rwa [Function.update_self]
    · rw [Function.update_of_ne hu]
  refine ⟨fun h => Finset.sum_le_sum fun u _ => hle h u, fun h => ?_⟩
  refine Finset.sum_lt_sum (fun u _ => hle h.le u) ⟨w, Finset.mem_univ w, ?_⟩
  rwa [Function.update_self]

/-- **Every run comes to an end**, without spurious wake-ups: a step of a peer
    shortens its program, a task that is started takes a message, and any other
    step of a thread is paid for. -/
theorem Proceeds.acc (hκ : κ.sync + Fintype.card W * (κ.again + κ.sync) ≤ κ.notify) (hs : 1 ≤ κ.sync)
    (ha : ∀ a, 1 ≤ κ.act a) (hb : ∀ l, (Y.body l).Weighs (fun _ _ => True) κ (b l))
    (hpeer : WellFounded fun a' a => ∃ l, Y.peer.step a l a') (n : Network S σ L α U D W) (N : ℕ)
    (hN : Loaded (fun _ _ => True) κ n.server N) : Acc (fun n' n => Proceeds Y n n') n := by
  have hwf := Pi.Lex.wellFounded (WellOrderingRel (α := W)) fun _ : W => hpeer
  generalize hpn : n.peer = a
  induction a using hwf.induction generalizing n N with
  | _ a ihpeer =>
    generalize hk : ∑ w, (n.up w).length = k
    induction k using Nat.strong_induction_on generalizing n N with
    | _ k ihup =>
      induction N using Nat.strong_induction_on generalizing n with
      | _ N ihload =>
        refine ⟨_, fun n' ⟨w, ev, hst, hasleep⟩ => ?_⟩
        cases hst with
        | @peer l a' us ds hp hc =>
          refine ihpeer _ ⟨w, fun u hu => ?_, ?_⟩ _ N hN rfl
          · rw [← hpn]
            exact Function.update_of_ne (fun he => irrefl w (he ▸ hu)) _ _
          · rw [← hpn]
            refine ⟨l, ?_⟩
            show Y.peer.step _ _ (Function.update n.peer w a' w)
            rwa [Function.update_self]
        | @thread e c l us ds hst hl hc =>
          obtain ⟨hle, hlt⟩ := sum_length_update n.up w us
          cases hrest : (n.server.thr w).atRest with
          | true =>
            obtain ⟨i, rfl⟩ := hst.starts hrest (hasleep rfl)
            cases hl
            have hload := hst.loaded_rest (n := b i) hrest (fun i' he => Ev.start.inj he ▸ hb i) hN
            exact ihup _ (hk ▸ hlt ((carries_length hc).2 _ rfl)) _ _ hload hpn rfl
          | false =>
            obtain ⟨N', hload, hcost⟩ := hst.loaded hκ hrest (fun _ _ _ _ _ => trivial) hN
            have hpos : 1 ≤ e.cost κ := by
              cases e with
              | start i =>
                rw [hst.idle_start] at hrest
                cases hrest
              | did a r => exact ha a
              | sync => exact hs
            rcases (hle (carries_length hc).1).lt_or_eq with hless | heq
            · exact ihup _ (hk ▸ hless) _ _ hload hpn rfl
            · exact ihload N' (by omega) _ hload hpn (heq.trans hk)

end Network

end Threads
