/-
  Peers and a server: each thread of the server serves one peer over a duplex
  stream.

  A step of the whole is one of a peer or one of a thread, with what it sends
  or takes (`Label.Carries`); a thread starts a task by taking its request.
  `Reach` are the networks reached by steps whose events satisfy `ok`.

  * `Converses`: in whatever state of the protocol a program comes to an action,
    the protocol lets it send what it sends, and what it may get is of the kind
    that it reads; beside the protocol the program may rely on a ghost value.
  * `Reach.inv`: if the peers and the programs of the threads keep to the
    protocols, then they do so in every interleaving, whatever is in flight.
-/
import FileStorage.Lib.Protocol
import FileStorage.Threads.Dialogue
import FileStorage.Threads.Conf

namespace Threads

open Duplex

variable {S C : Sig} {σ τ E F L W Q G O I U D α : Type}

/-! ## Programs that keep to a protocol -/

/-- What the actions of a program need of the ghost value, how they change it,
    and in what state the program may return. -/
structure Manners (S : Sig) (Q G : Type) where
  need : S.Act → Q → G → Prop
  next : (a : S.Act) → S.Ans a → G → G → Prop
  post : Q → G → Prop

/-- The action fits into the state of the protocol: what it sends may be sent,
    and if it reads then it reads whatever may come. -/
structure Suits (P : Protocol Q O I) (tells : (a : S.Act) → S.Ans a → Option (Label O I)) (a : S.Act)
    (q : Q) : Prop where
  send : ∀ r m, tells a r = some (.snd m) → ∃ q', P.up q m q'
  turn : ∀ r m, tells a r = some (.rcv m) → ∃ m' q', P.down q m' q'
  read : ∀ r m, tells a r = some (.rcv m) → ∀ m' q', P.down q m' q' → ∃ r', tells a r' = some (.rcv m')

namespace Prog
variable {P : Protocol Q O I} {tells : (a : S.Act) → S.Ans a → Option (Label O I)} {M : Manners S Q G}
  {q : Q} {g : G} {p : Prog S}

/-- From the state `q` and the ghost value `g` on the program keeps to the protocol. -/
def Converses (P : Protocol Q O I) (tells : (a : S.Act) → S.Ans a → Option (Label O I))
    (M : Manners S Q G) : Q → G → Prog S → Prop
  | q, g, .ret => M.post q g
  | q, g, .act a k => Suits P tells a q ∧ M.need a q g ∧ ∀ r l q' g', tells a r = some l →
      P.Next q l q' → M.next a r g g' → Converses P tells M q' g' (k r)
  | q, g, .lock _ k | q, g, .unlock _ k | q, g, .signal _ k | q, g, .broadcast _ k
  | q, g, .wait _ _ k => Converses P tells M q g k
  | q, g, .await a b _ _ _ k => Suits P tells a q ∧ M.need a q g ∧ ∀ r l q' g', tells a r = some l →
      P.Next q l q' → M.next a r g g' →
        if b r then q' = q ∧ g' = g else Converses P tells M q' g' (k r)

@[simp] theorem converses_unlocks {us : List S.Mutex} :
    (unlocks us p).Converses P tells M q g ↔ p.Converses P tells M q g := by
  induction us with
  | nil => rfl
  | cons u us ih => exact ih

theorem Converses.of_upcoming {a : S.Act} (h : p.Converses P tells M q g) (ha : p.upcoming = some a) :
    Suits P tells a q ∧ M.need a q g := by
  induction p with
  | ret => cases ha
  | act | await => cases ha; exact ⟨h.1, h.2.1⟩
  | lock _ _ ih | unlock _ _ ih | signal _ _ ih | broadcast _ _ ih | wait _ _ _ ih => exact ih h ha

theorem Converses.lock {m : S.Mutex} (h : p.Converses P tells M q g) :
    (Prog.lock m p).Converses P tells M q g := h

theorem Converses.unlock {m : S.Mutex} (h : p.Converses P tells M q g) :
    (Prog.unlock m p).Converses P tells M q g := h

theorem Converses.broadcast {c : S.Cond} (h : p.Converses P tells M q g) :
    (Prog.broadcast c p).Converses P tells M q g := h

section
variable {a : S.Act} {k : S.Ans a → Prog S}

/-- A silent action. -/
theorem Converses.silent (ha : ∀ r l, tells a r = some l → l = .tau) (hn : M.need a q g)
    (h : ∀ r g', tells a r = some .tau → M.next a r g g' → (k r).Converses P tells M q g') :
    (Prog.act a k).Converses P tells M q g := by
  refine ⟨⟨fun r m hs => ?_, fun r m hs => ?_, fun r m hs => ?_⟩, hn, fun r l q' g' hl hq hx => ?_⟩
  · cases ha r _ hs
  · cases ha r _ hs
  · cases ha r _ hs
  · cases ha r l hl
    cases hq
    exact h r g' hl hx

/-- A loop of silent attempts. -/
theorem Converses.silentAwait {b : S.Ans a → Bool} {us : List S.Mutex} {c : S.Cond} {m : S.Mutex}
    (ha : ∀ r l, tells a r = some l → l = .tau) (hn : M.need a q g)
    (h : ∀ r g', M.next a r g g' → if b r then g' = g else (k r).Converses P tells M q g') :
    (Prog.await a b us c m k).Converses P tells M q g := by
  refine ⟨⟨fun r m hs => ?_, fun r m hs => ?_, fun r m hs => ?_⟩, hn, fun r l q' g' hl hq hx => ?_⟩
  · cases ha r _ hs
  · cases ha r _ hs
  · cases ha r _ hs
  · cases ha r l hl
    cases hq
    have hr := h r g' hx
    split_ifs at hr ⊢
    · exact ⟨rfl, hr⟩
    · exact hr

/-- An action that sends the message `m`. -/
theorem Converses.sends {m : O} (ha : ∀ r l, tells a r = some l → l = .snd m) (hm : ∃ q', P.up q m q')
    (hn : M.need a q g) (h : ∀ r q' g', tells a r = some (.snd m) → P.up q m q' → M.next a r g g' →
      (k r).Converses P tells M q' g') : (Prog.act a k).Converses P tells M q g := by
  refine ⟨⟨fun r m' hs => ?_, fun r m hs => ?_, fun r m hs => ?_⟩, hn, fun r l q' g' hl hq hx => ?_⟩
  · cases ha r _ hs
    exact hm
  · cases ha r _ hs
  · cases ha r _ hs
  · cases ha r l hl
    exact h r q' g' hl hq hx

/-- An action that reads, and takes whatever may come. -/
theorem Converses.reads (ha : ∀ r l, tells a r = some l → ∃ m, l = .rcv m) (hm : ∃ m q', P.down q m q')
    (hk : ∀ m q', P.down q m q' → ∃ r, tells a r = some (.rcv m)) (hn : M.need a q g)
    (h : ∀ r m q' g', tells a r = some (.rcv m) → P.down q m q' → M.next a r g g' →
      (k r).Converses P tells M q' g') : (Prog.act a k).Converses P tells M q g := by
  refine ⟨⟨fun r m hs => ?_, fun _ _ _ => hm, fun _ _ _ => hk⟩, hn, fun r l q' g' hl hq hx => ?_⟩
  · obtain ⟨m', he⟩ := ha r _ hs
    cases he
  · obtain ⟨m, rfl⟩ := ha r l hl
    exact h r m q' g' hl hq hx

end

/-- A program without a ghost value that keeps to a protocol makes a peer that does. -/
theorem Converses.conforms {P : Protocol Q O I} {M : Manners C Q Unit} {Y : Exec C τ F}
    {lab : Labels C F O I} {tells : (a : C.Act) → C.Ans a → Option (Label O I)}
    (hY : ∀ {a e l r t t'}, lab a e = some l → Y a e t = some (r, t') →
      tells a r = some l ∧ M.next a r () ()) :
    P.Conforms (clientPeer Y lab) fun c q => c.1.Converses P tells M q () := by
  intro c q l c' hc hst
  cases hst with
  | act hl hx =>
    obtain ⟨hs, hn⟩ := hY hl hx
    exact ⟨fun m he => hc.1.send _ m (he ▸ hs), fun q' hq => hc.2.2 _ _ _ _ hs hq hn⟩
  | pass hl hx hb =>
    obtain ⟨hs, hn⟩ := hY hl hx
    refine ⟨fun m he => hc.1.send _ m (he ▸ hs), fun q' hq => ?_⟩
    have hk := hc.2.2 _ _ _ _ hs hq hn
    rw [hb] at hk
    exact hk
  | park hl hx hb =>
    obtain ⟨hs, hn⟩ := hY hl hx
    refine ⟨fun m he => hc.1.send _ m (he ▸ hs), fun q' hq => ?_⟩
    have hk := hc.2.2 _ _ _ _ hs hq hn
    rw [hb] at hk
    rw [hk.1]
    exact hc
  | _ =>
    refine ⟨nofun, ?_⟩
    rintro _ rfl
    exact hc

end Prog

def Thread.Converses (P : Protocol Q O I) (tells : (a : S.Act) → S.Ans a → Option (Label O I))
    (M : Manners S Q G) (q : Q) (g : G) : Thread S L → Prop
  | .idle => M.post q g
  | .run _ p | .asleep _ _ _ p | .woken _ _ p => p.Converses P tells M q g

theorem Thread.Converses.of_upcoming {P : Protocol Q O I}
    {tells : (a : S.Act) → S.Ans a → Option (Label O I)} {M : Manners S Q G} {q : Q} {g : G}
    {t : Thread S L} {a : S.Act} (h : t.Converses P tells M q g) (ha : t.upcoming = some a) :
    Suits P tells a q ∧ M.need a q g := by
  cases t with
  | idle => cases ha
  | run | asleep | woken => exact Prog.Converses.of_upcoming h ha

theorem Thread.upcoming_of_nextAct {t : Thread S L} {a : S.Act} (h : t.nextAct = some a) :
    t.upcoming = some a := by
  cases t with
  | run l p =>
    cases p with
    | act | await => exact h
    | _ => cases h
  | _ => cases h

/-- What a step of a thread sends or takes. -/
def Ev.label (tells : (a : S.Act) → S.Ans a → Option (Label O I)) (req : L → I) :
    Ev S L → Option (Label O I)
  | .start l => some (.rcv (req l))
  | .did a r => tells a r
  | .sync => some .tau

section
variable [DecidableEq S.Mutex] [DecidableEq W] {X : Exec S σ E} {body : L → Prog S} {w : W}
  {s s' : σ} {o o' : S.Mutex → Option W} {t t' : Thread S L} {ev : Ev S L} {P : Protocol Q O I}
  {tells : (a : S.Act) → S.Ans a → Option (Label O I)} {M : Manners S Q G} {req : L → I}
  {q q' : Q} {g g' : G} {l : Label O I}

omit [DecidableEq W] in
/-- A step of a thread that keeps to the protocol. -/
theorem Moves.converses (h : Moves X body w s o t ev s' o' t') (ht : t.Converses P tells M q g)
    (hl : ev.label tells req = some l) (hq : P.Next q l q')
    (hb : ∀ i, ev = .start i → M.post q g → (body i).Converses P tells M q' g')
    (hown : ∀ a r, ev = .did a r → M.next a r g g') (hsync : ev = .sync → g' = g) :
    t'.Converses P tells M q' g' := by
  cases h with
  | start i => exact hb i rfl ht
  | act => exact ht.2.2 _ _ _ _ hl hq (hown _ _ rfl)
  | pass _ hx =>
    have hk := ht.2.2 _ _ _ _ hl hq (hown _ _ rfl)
    rw [hx] at hk
    exact hk
  | park _ hx =>
    have hk := ht.2.2 _ _ _ _ hl hq (hown _ _ rfl)
    rw [hx] at hk
    rw [hk.1, hk.2]
    exact Prog.converses_unlocks.2 ht
  | _ =>
    cases hl
    cases hq
    rw [hsync rfl]
    exact ht

end

/-! ## Networks -/

/-- What the peers and the threads do. -/
structure System (S : Sig) (σ E L α U D : Type) where
  exec : Exec S σ E
  body : L → Prog S
  tells : (a : S.Act) → S.Ans a → Option (Label D U)
  req : L → U
  peer : Peer α U D

/-- The server, its peers, and the messages in flight in both directions. -/
structure Network (S : Sig) (σ L α U D W : Type) where
  server : Conf S σ L W
  peer : W → α
  up : W → List U
  down : W → List D

variable [DecidableEq W] [DecidableEq S.Mutex] [DecidableEq S.Cond]

/-- A step of the peer `w`, or of its thread with an event. -/
inductive Network.Step (Y : System S σ E L α U D) :
    Network S σ L α U D W → W → Option (Ev S L) → Network S σ L α U D W → Prop
  | peer {n w l a us ds} : Y.peer.step (n.peer w) l a → l.Carries (n.up w) (n.down w) us ds →
      Network.Step Y n w none ⟨n.server, Function.update n.peer w a, Function.update n.up w us,
        Function.update n.down w ds⟩
  | thread {n w ev c l us ds} : Threads.Step Y.exec Y.body w n.server ev c →
      ev.label Y.tells Y.req = some l → l.Carries (n.down w) (n.up w) ds us →
      Network.Step Y n w (some ev) ⟨c, n.peer, Function.update n.up w us, Function.update n.down w ds⟩

/-- All threads idle, and nothing in flight. -/
def Network.init (s : σ) (a : W → α) : Network S σ L α U D W := ⟨Conf.init s, a, fun _ => [], fun _ => []⟩

/-- The networks reached by steps whose events satisfy `ok`. -/
inductive Network.Reach (Y : System S σ E L α U D) (ok : Conf S σ L W → W → Ev S L → Prop)
    (n₀ : Network S σ L α U D W) : Network S σ L α U D W → Prop
  | init : Network.Reach Y ok n₀ n₀
  | step {n w ev n'} : Network.Reach Y ok n₀ n → Network.Step Y n w ev n' →
      (∀ e, ev = some e → ok n.server w e) → Network.Reach Y ok n₀ n'

namespace Network
variable {Y : System S σ E L α U D} {ok : Conf S σ L W → W → Ev S L → Prop}
  {n₀ n n' : Network S σ L α U D W} {w : W} {ev : Option (Ev S L)}

/-- A run of the network is one of the server. -/
theorem Reach.server (h : Reach Y ok n₀ n) : Threads.Reach Y.exec Y.body ok n₀.server n.server := by
  induction h with
  | init => exact .init
  | step _ hst ho ih =>
    cases hst with
    | peer => exact ih
    | thread hst => exact .step ih hst (ho _ rfl)

theorem Reach.mono {ok' : Conf S σ L W → W → Ev S L → Prop} (hok : ∀ c w ev, ok c w ev → ok' c w ev)
    (h : Reach Y ok n₀ n) : Reach Y ok' n₀ n := by
  induction h with
  | init => exact .init
  | step _ hst ho ih => exact .step ih hst fun e he => hok _ _ _ (ho e he)

theorem Reach.trans (h : Reach Y ok n₀ n) (h' : Reach Y ok n n') : Reach Y ok n₀ n' := by
  induction h' with
  | init => exact h
  | step _ hst ho ih => exact .step ih hst ho

/-! ## The invariant -/

/-- The peers are in the states `p` of their protocols, the threads in the states
    and with the ghost values `v`. -/
structure Inv (Y : System S σ E L α U D) (P : W → Protocol Q U D) (M : W → Manners S Q G)
    (J : W → α → Q → Prop) (A : σ → (W → Q × G) → Prop) (n : Network S σ L α U D W) (p : W → Q)
    (v : W → Q × G) : Prop where
  peer : ∀ w, J w (n.peer w) (p w)
  thread : ∀ w, (n.server.thr w).Converses (P w).swap Y.tells (M w) (v w).1 (v w).2
  aligned : ∀ w, (P w).Aligned (p w) (v w).1 (n.up w) (n.down w)
  state : A n.server.st v

/-- What is to be shown of the programs: the peers and the tasks keep to the
    protocols, and what the actions do to the state agrees with what they do to
    the ghost values. -/
structure Keeps (Y : System S σ E L α U D) (ok : Conf S σ L W → W → Ev S L → Prop)
    (P : W → Protocol Q U D) (M : W → Manners S Q G) (J : W → α → Q → Prop)
    (A : σ → (W → Q × G) → Prop) : Prop where
  peer : ∀ w, (P w).Conforms Y.peer (J w)
  body : ∀ w l q g q', (M w).post q g → (P w).up q (Y.req l) q' →
    (Y.body l).Converses (P w).swap Y.tells (M w) q' g
  start : ∀ w l s v q', A s v → (P w).up (v w).1 (Y.req l) q' →
    A s (Function.update v w (q', (v w).2))
  act : ∀ c w a e r l v s' q', ok c w (.did a r) → A c.st v → (M w).need a (v w).1 (v w).2 →
    Y.exec a e c.st = some (r, s') → Y.tells a r = some l → (P w).swap.Next (v w).1 l q' →
    ∃ g', (M w).next a r (v w).2 g' ∧ A s' (Function.update v w (q', g'))

section
variable {P : W → Protocol Q U D} {M : W → Manners S Q G} {J : W → α → Q → Prop}
  {A : σ → (W → Q × G) → Prop} {p : W → Q} {v : W → Q × G} {c : Conf S σ L W} {e : Ev S L}

omit [DecidableEq W] [DecidableEq S.Mutex] [DecidableEq S.Cond] in
/-- A thread does what its typestate allows. -/
theorem Inv.need (h : Inv Y P M J A n p v) {a : S.Act} (ha : (n.server.thr w).upcoming = some a) :
    Suits (P w).swap Y.tells a (v w).1 ∧ (M w).need a (v w).1 (v w).2 :=
  (h.thread w).of_upcoming ha

/-- The state and the ghost values after a step of a thread. -/
theorem Inv.next (hk : Keeps Y ok P M J A) (h : Inv Y P M J A n p v)
    (hst : Threads.Step Y.exec Y.body w n.server e c) (ho : ok n.server w e) {l : Label D U} {q' : Q}
    (hl : e.label Y.tells Y.req = some l) (hq : (P w).swap.Next (v w).1 l q') :
    ∃ g', (∀ a r, e = .did a r → (M w).next a r (v w).2 g') ∧
      ((∀ a r, e ≠ .did a r) → g' = (v w).2) ∧ A c.st (Function.update v w (q', g')) := by
  cases e with
  | start i =>
    cases hl
    refine ⟨(v w).2, nofun, fun _ => rfl, ?_⟩
    rcases hst.st_cases with he | ⟨a, e, r, he, -⟩
    · rw [he]
      exact hk.start w i _ v q' h.state hq
    · cases he
  | sync =>
    cases hl
    cases hq
    refine ⟨(v w).2, nofun, fun _ => rfl, ?_⟩
    rcases hst.st_cases with he | ⟨a, e, r, he, -⟩
    · rw [he, Function.update_eq_self]
      exact h.state
    · cases he
  | did a r =>
    obtain ⟨e, hx⟩ := hst.exec_did
    have hup := Thread.upcoming_of_nextAct hst.nextAct_did
    obtain ⟨g', hn, hA⟩ := hk.act _ w a e r l v _ q' ho h.state (h.need hup).2 hx hl hq
    refine ⟨g', fun a' r' he => ?_, fun hne => absurd rfl (hne a r), hA⟩
    cases he
    exact hn

/-- **A step of the network.** -/
theorem Inv.step (hk : Keeps Y ok P M J A) (h : Inv Y P M J A n p v) (hst : Step Y n w ev n')
    (ho : ∀ e, ev = some e → ok n.server w e) : ∃ p' v', Inv Y P M J A n' p' v' := by
  cases hst with
  | @peer l a us ds hst hc =>
    obtain ⟨hs, hJ⟩ := hk.peer w _ _ _ _ (h.peer w) hst
    obtain ⟨q', hq, hal⟩ := (h.aligned w).step hc hs
    refine ⟨Function.update p w q', v, fun u => ?_, h.thread, fun u => ?_, h.state⟩
    · by_cases hu : u = w
      · subst hu
        simpa using hJ q' hq
      · simpa [hu] using h.peer u
    · by_cases hu : u = w
      · subst hu
        simpa using hal
      · simpa [hu] using h.aligned u
  | @thread e c l us ds hst hl hc =>
    -- the thread may send what it sends
    have hs : ∀ m, l = .snd m → ∃ q', (P w).swap.up (v w).1 m q' := by
      rintro m rfl
      cases e with
      | start i => cases hl
      | sync => cases hl
      | did a r =>
        exact (h.need (Thread.upcoming_of_nextAct hst.nextAct_did)).1.send r m hl
    obtain ⟨q', hq, hal⟩ := (h.aligned w).swap.step hc hs
    obtain ⟨g', hdid, hsame, hA⟩ := h.next hk hst (ho e rfl) hl hq
    refine ⟨p, Function.update v w (q', g'), h.peer, fun u => ?_, fun u => ?_, hA⟩
    · by_cases hu : u = w
      · subst hu
        rw [Function.update_self]
        refine hst.moves.converses (h.thread u) hl hq ?_ hdid fun he => hsame fun a r => ?_
        · rintro i rfl hpost
          cases hl
          rw [hsame fun a r => by simp]
          exact hk.body u i _ _ _ hpost hq
        · rw [he]
          simp
      · rw [Function.update_of_ne hu]
        rcases hst.other hu with he | ⟨i, cd, m, x, he, he'⟩
        · simpa [he] using h.thread u
        · have hu' := h.thread u
          rw [he] at hu'
          rw [he']
          exact hu'
    · by_cases hu : u = w
      · subst hu
        simp only [Function.update_self]
        exact hal.swap
      · simpa [hu] using h.aligned u

/-- **The protocols are kept in every interleaving.** -/
theorem Reach.inv (hk : Keeps Y ok P M J A) (h₀ : Inv Y P M J A n₀ p v) (h : Reach Y ok n₀ n) :
    ∃ p v, Inv Y P M J A n p v := by
  induction h with
  | init => exact ⟨p, v, h₀⟩
  | step _ hst ho ih =>
    obtain ⟨p, v, hi⟩ := ih
    exact hi.step hk hst ho

omit [DecidableEq W] [DecidableEq S.Mutex] [DecidableEq S.Cond] in
/-- What is in flight to a thread is of the kind that it reads. -/
theorem Inv.reads_thread (h : Inv Y P M J A n p v) {a : S.Act} (ha : (n.server.thr w).nextAct = some a)
    {r : S.Ans a} {m m' : U} (hr : Y.tells a r = some (.rcv m)) {us : List U} (hu : n.up w = m' :: us) :
    ∃ r', Y.tells a r' = some (.rcv m') := by
  have hal := (h.aligned w).swap
  rw [hu] at hal
  obtain ⟨q', hq⟩ := hal.expected
  exact (h.need (Thread.upcoming_of_nextAct ha)).1.read r m hr m' q' hq

end

/-! ## Executing a schedule -/

/-- Execute a step of a program. -/
def speak (X : Exec C τ F) (lab : Labels C F O I) : Prog C × τ → F → Option (Label O I × (Prog C × τ))
  | (.act a k, s), e => (lab a e).bind fun l => (X a e s).map fun x => (l, (k x.1, x.2))
  | _, _ => none

theorem speak_step {X : Exec C τ F} {lab : Labels C F O I} {c c' : Prog C × τ} {e : F} {l : Label O I}
    (h : speak X lab c e = some (l, c')) : (clientPeer X lab).step c l c' := by
  obtain ⟨p, s⟩ := c
  cases p with
  | act a k =>
    obtain ⟨l, hl, h⟩ := Option.bind_eq_some_iff.1 h
    obtain ⟨x, hx, h⟩ := Option.map_eq_some_iff.1 h
    cases h
    exact .act hl hx
  | _ => cases h

section
variable [DecidableEq U] [DecidableEq D] {move : α → F → Option (Label U D × α)} {env : Option D → F}
  {choice : Option U → Choice L E W} {allow : Ev S L → Bool}

/-- Execute a step of the peer `w`, or of its thread, in an environment for the
    first message in flight to it. -/
def fire (Y : System S σ E L α U D) (move : α → F → Option (Label U D × α)) (env : Option D → F)
    (choice : Option U → Choice L E W) (allow : Ev S L → Bool) (n : Network S σ L α U D W) (w : W) :
    Bool → Option (Network S σ L α U D W)
  | true => (move (n.peer w) (env (n.down w).head?)).bind fun x =>
      (x.1.carry (n.up w) (n.down w)).map fun y => ⟨n.server, Function.update n.peer w x.2,
        Function.update n.up w y.1, Function.update n.down w y.2⟩
  | false => (Threads.fire Y.exec Y.body n.server w (choice (n.up w).head?)).bind fun x =>
      (x.1.label Y.tells Y.req).bind fun l => (l.carry (n.down w) (n.up w)).bind fun y =>
        if allow x.1 then some ⟨x.2, n.peer, Function.update n.up w y.2, Function.update n.down w y.1⟩ else none

/-- Run a schedule: whether a peer or its thread moves. -/
def play (Y : System S σ E L α U D) (move : α → F → Option (Label U D × α)) (env : Option D → F)
    (choice : Option U → Choice L E W) (allow : Ev S L → Bool) :
    List (W × Bool) → Network S σ L α U D W → Option (Network S σ L α U D W)
  | [], n => some n
  | (w, b) :: xs, n => (fire Y move env choice allow n w b).bind (play Y move env choice allow xs)

theorem play_reach (hm : ∀ {a e l a'}, move a e = some (l, a') → Y.peer.step a l a')
    (hok : ∀ c w ev, allow ev = true → ok c w ev) :
    ∀ (xs : List (W × Bool)) {n n' : Network S σ L α U D W}, Reach Y ok n₀ n →
      play Y move env choice allow xs n = some n' → Reach Y ok n₀ n'
  | [], n, n', hr, h => by cases h; exact hr
  | (w, b) :: xs, n, n', hr, h => by
    obtain ⟨n₁, h1, h2⟩ := Option.bind_eq_some_iff.1 h
    refine play_reach hm hok xs ?_ h2
    cases b with
    | true =>
      obtain ⟨⟨l, a⟩, hx, h1⟩ := Option.bind_eq_some_iff.1 h1
      obtain ⟨y, hy, he⟩ := Option.map_eq_some_iff.1 h1
      cases he
      exact .step hr (.peer (hm hx) (Label.carries_of_carry hy)) fun e he => nomatch he
    | false =>
      obtain ⟨⟨ev, c⟩, hx, h1⟩ := Option.bind_eq_some_iff.1 h1
      obtain ⟨l, hl, h1⟩ := Option.bind_eq_some_iff.1 h1
      obtain ⟨y, hy, h1⟩ := Option.bind_eq_some_iff.1 h1
      split_ifs at h1 with ha
      cases h1
      refine .step hr (.thread (fire_step hx) hl (Label.carries_of_carry hy)) fun e he => ?_
      rw [← Option.some.inj he]
      exact hok _ _ _ ha

end

end Network

end Threads
