/-
  Programs as peers of a duplex stream.

  `Labels` says of an action, in its environment, what it sends or takes; the
  other operations of a program are silent.  While a thread waits on a
  condition variable the others may change the state (`later`).

  * `clientPeer` runs one program.
  * `serverPeer` takes requests and runs the program of each; when it returns
    the others may change the state before the next request.
  * An action that cannot be performed kills the peer.
-/
import FileStorage.Lib.Duplex
import FileStorage.Threads.Prog

namespace Threads

open Duplex

variable {S C : Sig} {σ τ E F O I R : Type}

/-- What an action sends or takes; `none` if it does not occur in the environment. -/
abbrev Labels (S : Sig) (E O I : Type) : Type := S.Act → E → Option (Label O I)

/-- A step of a program that shares its state with others. -/
inductive Speaks (X : Exec S σ E) (lab : Labels S E O I) (later : σ → σ → Prop) :
    Prog S × σ → Label O I → Prog S × σ → Prop
  | act {a k e l r s s'} : lab a e = some l → X a e s = some (r, s') →
      Speaks X lab later (.act a k, s) l (k r, s')
  | lock {m k s} : Speaks X lab later (.lock m k, s) .tau (k, s)
  | unlock {m k s} : Speaks X lab later (.unlock m k, s) .tau (k, s)
  | signal {c k s} : Speaks X lab later (.signal c k, s) .tau (k, s)
  | broadcast {c k s} : Speaks X lab later (.broadcast c k, s) .tau (k, s)
  | wait {c m k s s'} : later s s' → Speaks X lab later (.wait c m k, s) .tau (k, s')
  | pass {a b us c m k e l r s s'} : lab a e = some l → X a e s = some (r, s') → b r = false →
      Speaks X lab later (.await a b us c m k, s) l (k r, s')
  | park {a b us c m k e l r s s' s''} : lab a e = some l → X a e s = some (r, s') → b r = true →
      later s' s'' → Speaks X lab later (.await a b us c m k, s) l (.await a b us c m k, s'')

/-- One program. -/
def clientPeer (X : Exec C τ F) (lab : Labels C F O I) : Peer (Prog C × τ) O I where
  step := Speaks X lab (· = ·)
  done c := c.1 = .ret
  dead c := ∃ a k, c.1 = .act a k ∧ ∀ e, X a e c.2 = none

/-- A server that runs `body` for each request `req r`. -/
inductive Serves (X : Exec S σ E) (lab : Labels S E O I) (later : σ → σ → Prop) (req : R → I)
    (body : R → Prog S) : Option (Prog S) × σ → Label O I → Option (Prog S) × σ → Prop
  | accept {r s} : Serves X lab later req body (none, s) (.rcv (req r)) (some (body r), s)
  | run {p s l p' s'} : Speaks X lab later (p, s) l (p', s') →
      Serves X lab later req body (some p, s) l (some p', s')
  | finish {s s'} : later s s' → Serves X lab later req body (some .ret, s) .tau (none, s')

def serverPeer (X : Exec S σ E) (lab : Labels S E O I) (later : σ → σ → Prop) (req : R → I)
    (body : R → Prog S) : Peer (Option (Prog S) × σ) O I where
  step := Serves X lab later req body
  done c := c.1 = none
  dead c := ∃ a k, c.1 = some (.act a k) ∧ ∀ e, X a e c.2 = none

/-- All that the action may do is silent. -/
def Labels.Silent (lab : Labels S E O I) (a : S.Act) : Prop := ∀ e l, lab a e = some l → l = .tau

section
variable {X : Exec S σ E} {lab : Labels S E O I} {later : σ → σ → Prop} {req : R → I}
  {body : R → Prog S} {Y : Exec C τ F} {clab : Labels C F I O} {s : σ} {t : τ}
  {c : Prog C × τ} {a : S.Act} {k : S.Ans a → Prog S}

/-- Agreement of a client and a server. -/
abbrev InAccord (Y : Exec C τ F) (clab : Labels C F I O) (X : Exec S σ E) (lab : Labels S E O I)
    (later : σ → σ → Prop) (req : R → I) (body : R → Prog S) :
    Prog C × τ → Option (Prog S) × σ → Prop :=
  Agree (clientPeer Y clab) (serverPeer X lab later req body)

theorem Speaks.of_silent {l : Label O I} {p : Prog S × σ} (ha : lab.Silent a)
    (h : Speaks X lab later (.act a k, s) l p) :
    l = .tau ∧ ∃ e r s', lab a e = some .tau ∧ X a e s = some (r, s') ∧ p = (k r, s') := by
  cases h with
  | act hl hx =>
    obtain rfl := ha _ _ hl
    exact ⟨rfl, _, _, _, hl, hx, rfl⟩

/-! ## Rules for the server -/

/-- An operation without a choice. -/
theorem InAccord.sync {p q : Prog S}
    (hpq : ∀ l x, Speaks X lab later (p, s) l x ↔ l = .tau ∧ x = (q, s)) (hp : p ≠ .ret)
    (h : InAccord Y clab X lab later req body c (some q, s)) :
    InAccord Y clab X lab later req body c (some p, s) := by
  have hstep : ∀ l b', (serverPeer X lab later req body).step (some p, s) l b' →
      l = .tau ∧ b' = (some q, s) := by
    intro l b' hs
    cases hs with
    | run hs => obtain ⟨rfl, he⟩ := (hpq _ _).1 hs; cases he; exact ⟨rfl, rfl⟩
    | finish => exact absurd rfl hp
  refine .tau_right ⟨⟨_, .run ((hpq _ _).2 ⟨rfl, rfl⟩)⟩, fun l b' hs => (hstep l b' hs).1⟩ fun b' hs => ?_
  rw [(hstep _ _ hs).2]
  exact h

theorem InAccord.lock {m : S.Mutex} {q : Prog S}
    (h : InAccord Y clab X lab later req body c (some q, s)) :
    InAccord Y clab X lab later req body c (some (.lock m q), s) := by
  refine .sync (fun l x => ⟨fun hs => ?_, ?_⟩) nofun h
  · cases hs; exact ⟨rfl, rfl⟩
  · rintro ⟨rfl, rfl⟩; exact .lock

theorem InAccord.unlock {m : S.Mutex} {q : Prog S}
    (h : InAccord Y clab X lab later req body c (some q, s)) :
    InAccord Y clab X lab later req body c (some (.unlock m q), s) := by
  refine .sync (fun l x => ⟨fun hs => ?_, ?_⟩) nofun h
  · cases hs; exact ⟨rfl, rfl⟩
  · rintro ⟨rfl, rfl⟩; exact .unlock

theorem InAccord.broadcast {cd : S.Cond} {q : Prog S}
    (h : InAccord Y clab X lab later req body c (some q, s)) :
    InAccord Y clab X lab later req body c (some (.broadcast cd q), s) := by
  refine .sync (fun l x => ⟨fun hs => ?_, ?_⟩) nofun h
  · cases hs; exact ⟨rfl, rfl⟩
  · rintro ⟨rfl, rfl⟩; exact .broadcast

/-- The program returns. -/
theorem InAccord.ret (hl : ∃ s', later s s')
    (h : ∀ s', later s s' → InAccord Y clab X lab later req body c (none, s')) :
    InAccord Y clab X lab later req body c (some .ret, s) := by
  obtain ⟨s', hs'⟩ := hl
  refine .tau_right ⟨⟨_, .finish hs'⟩, fun l b' hs => ?_⟩ fun b' hs => ?_
  · cases hs with
    | run hs => cases hs
    | finish => rfl
  · cases hs with
    | run hs => cases hs
    | finish hs => exact h _ hs

/-- A silent action. -/
theorem InAccord.act (ha : lab.Silent a) (hx : ∃ e r s', lab a e = some .tau ∧ X a e s = some (r, s'))
    (h : ∀ e r s', lab a e = some .tau → X a e s = some (r, s') →
      InAccord Y clab X lab later req body c (some (k r), s')) :
    InAccord Y clab X lab later req body c (some (.act a k), s) := by
  obtain ⟨e, r, s', hl, hx⟩ := hx
  refine .tau_right ⟨⟨_, .run (.act hl hx)⟩, fun l b' hs => ?_⟩ fun b' hs => ?_
  · cases hs with
    | run hs => exact (hs.of_silent ha).1
  · cases hs with
    | run hs =>
      obtain ⟨-, e, r, s₁, hl, hx, he⟩ := hs.of_silent ha
      obtain ⟨rfl, rfl⟩ := Prod.mk.inj he
      exact h e r _ hl hx

/-- An action that cannot be performed kills the server. -/
theorem InAccord.crash (hx : ∀ e, X a e s = none) :
    InAccord Y clab X lab later req body c (some (.act a k), s) := by
  refine .killedRight ⟨⟨a, k, rfl, hx⟩, fun l b' hs => ?_⟩
  cases hs with
  | run hs => cases hs with
    | act _ h => rw [hx] at h; cases h

/-- A loop of silent attempts, from states that satisfy `J`. -/
theorem InAccord.await {b : S.Ans a → Bool} {us : List S.Mutex} {cd : S.Cond} {m : S.Mutex}
    (J : σ → Prop) (hs : J s) (ha : lab.Silent a)
    (hx : ∀ s, J s → ∃ e r s', lab a e = some .tau ∧ X a e s = some (r, s') ∧ ∃ s'', later s' s'')
    (hJ : ∀ e r s s' s'', J s → lab a e = some .tau → X a e s = some (r, s') → later s' s'' → J s'')
    (h : ∀ e r s s', J s → lab a e = some .tau → X a e s = some (r, s') → b r = false →
      InAccord Y clab X lab later req body c (some (k r), s')) :
    InAccord Y clab X lab later req body c (some (.await a b us cd m k), s) := by
  have hstep : ∀ {s l b'}, (serverPeer X lab later req body).step (some (.await a b us cd m k), s) l b' →
      l = .tau ∧ ∃ e r s', lab a e = some .tau ∧ X a e s = some (r, s') ∧
        (b r = false ∧ b' = (some (k r), s') ∨
          ∃ s'', later s' s'' ∧ b' = (some (.await a b us cd m k), s'')) := by
    intro s l b' hs
    cases hs with
    | run hs =>
      cases hs with
      | pass hl hx hb =>
        obtain rfl := ha _ _ hl
        exact ⟨rfl, _, _, _, hl, hx, Or.inl ⟨hb, rfl⟩⟩
      | park hl hx hb hs =>
        obtain rfl := ha _ _ hl
        exact ⟨rfl, _, _, _, hl, hx, Or.inr ⟨_, hs, rfl⟩⟩
  refine .right (fun d => ∃ s, J s ∧ d = (some (.await a b us cd m k), s)) ⟨s, hs, rfl⟩ ?_ ?_
  · rintro _ ⟨s, hs, rfl⟩
    refine ⟨?_, fun l b' hst => (hstep hst).1⟩
    obtain ⟨e, r, s', hl, hx, s'', hs''⟩ := hx s hs
    cases hb : b r with
    | false => exact ⟨_, .run (.pass hl hx hb)⟩
    | true => exact ⟨_, .run (.park hl hx hb hs'')⟩
  · rintro _ b' ⟨s, hs, rfl⟩ hst hn
    obtain ⟨-, e, r, s', hl, hx, ⟨hb, rfl⟩ | ⟨s'', hs'', rfl⟩⟩ := hstep hst
    · exact h e r s s' hs hl hx hb
    · exact absurd ⟨s'', hJ e r s s' s'' hs hl hx hs'', rfl⟩ hn

/-! ## Rules for the client -/

variable {d : Option (Prog S) × σ} {ca : C.Act} {ck : C.Ans ca → Prog C}

/-- A silent action of the client. -/
theorem InAccord.client (ha : clab.Silent ca)
    (hx : ∃ e r t', clab ca e = some .tau ∧ Y ca e t = some (r, t'))
    (h : ∀ e r t', clab ca e = some .tau → Y ca e t = some (r, t') →
      InAccord Y clab X lab later req body (ck r, t') d) :
    InAccord Y clab X lab later req body (.act ca ck, t) d := by
  obtain ⟨e, r, t', hl, hx⟩ := hx
  refine .tau_left ⟨⟨_, .act hl hx⟩, fun l a' hs => (hs.of_silent ha).1⟩ fun a' hs => ?_
  obtain ⟨-, e, r, t', hl, hx, he⟩ := hs.of_silent ha
  cases he
  exact h e r t' hl hx

/-- An action that cannot be performed kills the client. -/
theorem InAccord.killed (hx : ∀ e, Y ca e t = none) :
    InAccord Y clab X lab later req body (.act ca ck, t) d := by
  refine .killedLeft ⟨⟨ca, ck, rfl, hx⟩, fun l a' hs => ?_⟩
  cases hs with
  | act _ h => rw [hx] at h; cases h

/-- Client and server have finished. -/
theorem InAccord.done : InAccord Y clab X lab later req body (.ret, t) (none, s) := by
  refine Agree.done rfl rfl (fun l a' hs => ?_) fun l b' hs => ?_
  · cases hs
  · cases hs; exact ⟨_, rfl⟩

/-! ## Rules for messages -/

/-- The client sends a request to the idle server. -/
theorem InAccord.request {r : R} (hreq : ∀ r r', req r = req r' → r = r')
    (hl : ∀ e l, clab ca e = some l → l = .snd (req r))
    (hx : ∃ e x t', clab ca e = some (.snd (req r)) ∧ Y ca e t = some (x, t'))
    (h : ∀ e x t', clab ca e = some (.snd (req r)) → Y ca e t = some (x, t') →
      InAccord Y clab X lab later req body (ck x, t') (some (body r), s)) :
    InAccord Y clab X lab later req body (.act ca ck, t) (none, s) := by
  obtain ⟨e, x, t', he, hx⟩ := hx
  refine .up ⟨⟨_, _, .act he hx⟩, fun l a' hs => ?_⟩ (fun l b' hs => ?_) (fun m a' hs => ?_)
    fun m a' b' hs hb => ?_
  · cases hs with
    | act he hx => exact ⟨_, hl _ _ he⟩
  · cases hs; exact ⟨_, rfl⟩
  · cases hs with
    | act he hx =>
      cases hl _ _ he
      exact ⟨_, .accept⟩
  · cases hs with
    | act he hx =>
      cases hl _ _ he
      generalize hm : req r = m at hb
      cases hb with
      | accept =>
        obtain rfl := hreq _ _ hm
        exact h _ _ _ he hx

/-- The server sends, the client takes. -/
theorem InAccord.answer (hs : ∃ e m r s', lab a e = some (.snd m) ∧ X a e s = some (r, s'))
    (hsl : ∀ e l, lab a e = some l → ∃ m, l = .snd m)
    (hcl : ∀ e l, clab ca e = some l → ∃ m, l = .rcv m)
    (hx : ∀ e m r s', lab a e = some (.snd m) → X a e s = some (r, s') →
      ∃ f x t', clab ca f = some (.rcv m) ∧ Y ca f t = some (x, t'))
    (h : ∀ e m r s' f x t', lab a e = some (.snd m) → X a e s = some (r, s') →
      clab ca f = some (.rcv m) → Y ca f t = some (x, t') →
      InAccord Y clab X lab later req body (ck x, t') (some (k r), s')) :
    InAccord Y clab X lab later req body (.act ca ck, t) (some (.act a k), s) := by
  obtain ⟨e, m, r, s', he, hx'⟩ := hs
  refine .down (fun l a' hst => ?_) ⟨⟨_, _, .run (.act he hx')⟩, fun l b' hst => ?_⟩
    (fun m b' hst => ?_) fun m a' b' hst hst' => ?_
  · cases hst with
    | act he _ => exact hcl _ _ he
  · cases hst with
    | run hst => cases hst with
      | act he _ => exact hsl _ _ he
  · cases hst with
    | run hst => cases hst with
      | act he hxe =>
        obtain ⟨f, x, t', hf, hy⟩ := hx _ _ _ _ he hxe
        exact ⟨_, .act hf hy⟩
  · cases hst with
    | run hst => cases hst with
      | act he hxe => cases hst' with
        | act hf hy => exact h _ _ _ _ _ _ _ he hxe hf hy

/-- The client sends, the server takes. -/
theorem InAccord.deliver (hs : ∃ f m x t', clab ca f = some (.snd m) ∧ Y ca f t = some (x, t'))
    (hcl : ∀ e l, clab ca e = some l → ∃ m, l = .snd m)
    (hsl : ∀ e l, lab a e = some l → ∃ m, l = .rcv m)
    (hx : ∀ f m x t', clab ca f = some (.snd m) → Y ca f t = some (x, t') →
      ∃ e r s', lab a e = some (.rcv m) ∧ X a e s = some (r, s'))
    (h : ∀ e m r s' f x t', lab a e = some (.rcv m) → X a e s = some (r, s') →
      clab ca f = some (.snd m) → Y ca f t = some (x, t') →
      InAccord Y clab X lab later req body (ck x, t') (some (k r), s')) :
    InAccord Y clab X lab later req body (.act ca ck, t) (some (.act a k), s) := by
  obtain ⟨f, m, x, t', hf, hy⟩ := hs
  refine .up ⟨⟨_, _, .act hf hy⟩, fun l a' hst => ?_⟩ (fun l b' hst => ?_)
    (fun m a' hst => ?_) fun m a' b' hst hst' => ?_
  · cases hst with
    | act hf _ => exact hcl _ _ hf
  · cases hst with
    | run hst => cases hst with
      | act he _ => exact hsl _ _ he
  · cases hst with
    | act hf hy =>
      obtain ⟨e, r, s', he, hxe⟩ := hx _ _ _ _ hf hy
      exact ⟨_, .run (.act he hxe)⟩
  · cases hst with
    | act hf hy => cases hst' with
      | run hst' => cases hst' with
        | act he hxe => exact h _ _ _ _ _ _ _ he hxe hf hy

end

/-! ## Blocks

A block is sent as one message; of an empty block nothing is sent. -/

section
variable {V : Type} {X : Exec S σ E} {lab : Labels S E O I} {later : σ → σ → Prop} {req : R → I}
  {body : R → Prog S} {Y : Exec C τ F} {clab : Labels C F I O} {s : σ} {t : τ}
  {a : S.Act} {k : S.Ans a → Prog S} {ca : C.Act} {ck : C.Ans ca → Prog C} {buf : List V} {n : ℕ}

/-- The action sends the block `buf`, with an answer in `G`. -/
structure Writes (X : Exec S σ E) (lab : Labels S E O I) (m : List V → O) (a : S.Act)
    (buf : List V) (G : S.Ans a → Prop) : Prop where
  label : ∀ e l, lab a e = some l → l = if buf.length = 0 then .tau else .snd (m buf)
  can : ∀ s, ∃ e l x s', lab a e = some l ∧ X a e s = some (x, s')
  ans : ∀ e l x s s', lab a e = some l → X a e s = some (x, s') → s' = s ∧ G x

/-- The action takes a block of the length `n`, with an answer in `G` of the block. -/
structure Reads (X : Exec S σ E) (lab : Labels S E O I) (m : List V → I) (a : S.Act)
    (n : ℕ) (G : List V → S.Ans a → Prop) : Prop where
  label : ∀ e l, lab a e = some l → ∃ buf, buf.length = n ∧
    (l = if n = 0 then .tau else .rcv (m buf)) ∧ ∀ x s s', X a e s = some (x, s') → s' = s ∧ G buf x
  can : ∀ buf s, buf.length = n → ∃ e x s',
    lab a e = some (if n = 0 then .tau else .rcv (m buf)) ∧ X a e s = some (x, s')

/-- The server sends a block, the client takes it. -/
theorem InAccord.block_down {m : List V → O} {G : S.Ans a → Prop} {G' : List V → C.Ans ca → Prop}
    (hm : ∀ b b', m b = m b' → b = b') (hw : Writes X lab m a buf G) (hr : Reads Y clab m ca n G')
    (hn : buf.length = n) (h : ∀ x y, G x → G' buf y →
      InAccord Y clab X lab later req body (ck y, t) (some (k x), s)) :
    InAccord Y clab X lab later req body (.act ca ck, t) (some (.act a k), s) := by
  subst hn
  obtain ⟨e, l, x, s', he, hx⟩ := hw.can s
  obtain ⟨f, y, t', hf, hy⟩ := hr.can buf t rfl
  have hl := hw.label e l he
  by_cases h0 : buf.length = 0
  · rw [if_pos h0] at hl hf
    refine InAccord.act (fun e l he => (hw.label e l he).trans (if_pos h0)) ⟨e, x, s', hl ▸ he, hx⟩ ?_
    intro e x s' he hx
    obtain ⟨rfl, hG⟩ := hw.ans e _ x s s' he hx
    refine InAccord.client (fun f l hf => ?_) ⟨f, y, t', hf, hy⟩ fun f y t' hf hy => ?_
    · obtain ⟨b, -, hl, -⟩ := hr.label f l hf
      exact hl.trans (if_pos h0)
    · obtain ⟨b, hb, -, hans⟩ := hr.label f _ hf
      obtain ⟨rfl, hG'⟩ := hans y t t' hy
      rw [List.length_eq_zero_iff.1 h0] at h hb
      rw [List.length_eq_zero_iff.1 hb] at hG'
      exact h x y hG hG'
  · rw [if_neg h0] at hl hf
    refine InAccord.answer ⟨e, m buf, x, s', hl ▸ he, hx⟩
      (fun e l he => ⟨_, (hw.label e l he).trans (if_neg h0)⟩) (fun f l hf => ?_)
      (fun e m' x s' he hx => ?_) fun e m' x s' f y t' he hx hf hy => ?_
    · obtain ⟨b, -, hl, -⟩ := hr.label f l hf
      exact ⟨_, hl.trans (if_neg h0)⟩
    · have he' := (hw.label e _ he).trans (if_neg h0)
      cases he'
      exact ⟨f, y, t', hf, hy⟩
    · have he' := (hw.label e _ he).trans (if_neg h0)
      cases he'
      obtain ⟨rfl, hG⟩ := hw.ans e _ x s s' he hx
      obtain ⟨b, -, hl, hans⟩ := hr.label f _ hf
      obtain ⟨rfl, hG'⟩ := hans y t t' hy
      obtain rfl : buf = b := hm _ _ (Label.rcv.inj (hl.trans (if_neg h0)))
      exact h x y hG hG'

/-- The client sends a block, the server takes it. -/
theorem InAccord.block_up {m : List V → I} {G : C.Ans ca → Prop} {G' : List V → S.Ans a → Prop}
    (hm : ∀ b b', m b = m b' → b = b') (hw : Writes Y clab m ca buf G) (hr : Reads X lab m a n G')
    (hn : buf.length = n) (h : ∀ x y, G x → G' buf y →
      InAccord Y clab X lab later req body (ck x, t) (some (k y), s)) :
    InAccord Y clab X lab later req body (.act ca ck, t) (some (.act a k), s) := by
  subst hn
  obtain ⟨f, l, x, t', hf, hx⟩ := hw.can t
  obtain ⟨e, y, s', he, hy⟩ := hr.can buf s rfl
  have hl := hw.label f l hf
  by_cases h0 : buf.length = 0
  · rw [if_pos h0] at hl he
    refine InAccord.client (fun f l hf => (hw.label f l hf).trans (if_pos h0))
      ⟨f, x, t', hl ▸ hf, hx⟩ ?_
    intro f x t' hf hx
    obtain ⟨rfl, hG⟩ := hw.ans f _ x t t' hf hx
    refine InAccord.act (fun e l he => ?_) ⟨e, y, s', he, hy⟩ fun e y s' he hy => ?_
    · obtain ⟨b, -, hl, -⟩ := hr.label e l he
      exact hl.trans (if_pos h0)
    · obtain ⟨b, hb, -, hans⟩ := hr.label e _ he
      obtain ⟨rfl, hG'⟩ := hans y s s' hy
      rw [List.length_eq_zero_iff.1 h0] at h hb
      rw [List.length_eq_zero_iff.1 hb] at hG'
      exact h x y hG hG'
  · rw [if_neg h0] at hl he
    refine InAccord.deliver ⟨f, m buf, x, t', hl ▸ hf, hx⟩
      (fun f l hf => ⟨_, (hw.label f l hf).trans (if_neg h0)⟩) (fun e l he => ?_)
      (fun f m' x t' hf hx => ?_) fun e m' y s' f x t' he hy hf hx => ?_
    · obtain ⟨b, -, hl, -⟩ := hr.label e l he
      exact ⟨_, hl.trans (if_neg h0)⟩
    · have hf' := (hw.label f _ hf).trans (if_neg h0)
      cases hf'
      exact ⟨e, y, s', he, hy⟩
    · have hf' := (hw.label f _ hf).trans (if_neg h0)
      cases hf'
      obtain ⟨rfl, hG⟩ := hw.ans f _ x t t' hf hx
      obtain ⟨b, -, hl, hans⟩ := hr.label e _ he
      obtain ⟨rfl, hG'⟩ := hans y s s' hy
      obtain rfl : buf = b := hm _ _ (Label.rcv.inj (hl.trans (if_neg h0)))
      exact h x y hG hG'

end

end Threads
