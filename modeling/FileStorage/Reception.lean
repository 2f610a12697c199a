/-
  The reception of a file over a stream.

  The write controller, `writeFile` and `waitServerFile` receive contents with
  `readData`; the append controller and `appendToFile` call `read` once, and
  what it does not return stays in the stream.  `unbroken_iff` says that a file
  is received as it was sent if and only if it is read by `readData`, or
  delivered in one piece.
-/
import FileStorage.Expulsion
import FileStorage.Socket

namespace FileStorage

open Threads Prog

variable {cfg : Config} {s s' : Server} {r : Request} {t : List (Done workerSig)} {o : Outcome}
  {k k' : Socket} {body rest : List Byte} {counts : List ℤ}

/-! ## The reception of a body by a worker -/

/-- The step after which the client sends the body. -/
def bodyReady : Done workerSig := ⟨.write (respond 0 (str "Ready to receive file, client has lock")), true⟩

/-- `write_file_controller` from the ready response on. -/
def receiveWrite (request : Request) : Code :=
  .act (.readData request.fileSize) fun buf : List Byte × ℤ =>
  if buf.2 ≠ -1 then
    .act (.call (.writeVirtualFile request.filepath buf.1 request.fileSize)) fun res : ℤ =>
    .act (.write (if res ≠ -1 then respond 0 (str "File scritto correttamente!")
      else respond (-1) (str "Errore scrittura file"))) fun _ =>
    .unlock .fileQueueMutex .ret
  else .unlock .fileQueueMutex .ret

/-- `append_file_controller` from the ready response on. -/
def receiveAppend (request : Request) : Code :=
  .act (.read request.fileSize) fun buf : Option (List Byte) =>
  match buf with
  | some buf =>
    .act (.call (.appendVirtualFile request.filepath buf request.fileSize)) fun res : ℤ =>
    .act (.write (if res ≠ -1 then respond 0 (str "File scritto correttamente!")
      else respond (-1) (str "Errore scrittura file"))) fun _ =>
    .unlock .fileQueueMutex .ret
  | none => .unlock .fileQueueMutex .ret

def reception (request : Request) : Code :=
  if request.operation = .OP_WRITE_FILE then receiveWrite request else receiveAppend request

/-- The call of a write or append that stores a buffer. -/
def Request.storing (r : Request) (buf : List Byte) : Call :=
  if r.operation = .OP_WRITE_FILE then .writeVirtualFile r.filepath buf r.fileSize
  else .appendVirtualFile r.filepath buf r.fileSize

/-- The body is handed to the store as it was sent, and the next read starts
    behind it. -/
structure Intact (r : Request) (body rest : List Byte) (t : List (Done workerSig)) (k : Socket) :
    Prop where
  handed : ∃ d ∈ t, d.1 = .call (r.storing body)
  only : ∀ d ∈ t, ∀ buf, d.1 = .call (r.storing buf) → buf = body
  next : k.incoming = rest

/-- The action neither stores a buffer nor reads from the socket. -/
def Act.unread : Act → Bool
  | .call (.writeVirtualFile _ _ _) | .call (.appendVirtualFile _ _ _) | .readData _ | .read _ => false
  | _ => true

def Unread (d : Done workerSig) : Prop := d.1.unread = true

theorem storing_inj {buf buf' : List Byte} (h : r.storing buf = r.storing buf') : buf = buf' := by
  unfold Request.storing at h
  split_ifs at h <;> cases h <;> rfl

theorem Unread.not_storing {d : Done workerSig} (h : Unread d) (buf : List Byte) :
    d.1 ≠ .call (r.storing buf) := by
  intro he
  have hu : Act.unread (.call (r.storing buf)) = true := he ▸ h
  unfold Request.storing at hu
  split_ifs at hu <;> cases hu

section
variable {C : Code → Prop}

theorem unread_passes {a : Act} {k : a.Ans → Code} (ha : a.unread = true) (hd : a ≠ bodyReady.1)
    (hk : ∀ x, (k x).Passes Unread bodyReady C) : (Prog.act a k : Code).Passes Unread bodyReady C :=
  Passes.act hd (fun _ => ha) hk

theorem response_passes {x : Response} {k : Bool → Code} (hx : x.statusCode ≠ 0)
    (hk : ∀ ok, (k ok).Passes Unread bodyReady C) : (Prog.act (.write x) k : Code).Passes Unread bodyReady C := by
  refine unread_passes rfl ?_ hk
  intro h
  cases h
  exact hx rfl

theorem expulsion_passes {k : ℤ → Code} (hk : ∀ res, (k res).Passes Unread bodyReady C) :
    (expulsion r k).Passes Unread bodyReady C := by
  have hend : ∀ data : Ptr, Passes Unread bodyReady C (.act (.call (.deref data)) fun f : FileNode =>
      logRequest r 0 (i32 r.fileSize) (some f.pathname) <| .act (.call (.removeNode data)) k) := by
    intro data
    refine unread_passes rfl (by simp [bodyReady]) fun f => ?_
    refine unread_passes rfl (by simp [bodyReady]) fun _ => ?_
    exact unread_passes rfl (by simp [bodyReady]) hk
  refine unread_passes rfl (by simp [bodyReady]) fun data => ?_
  refine unread_passes rfl (by simp [bodyReady]) fun f => ?_
  refine response_passes (by simp) fun ok => ?_
  cases ok with
  | false => exact hend data
  | true => exact unread_passes rfl (by simp [bodyReady]) fun _ => hend data

/-- The ready response, after which `p` receives the body. -/
theorem ready_passes {p : Code} (hp : C p) :
    (Prog.act bodyReady.1 fun ok : Bool => if ok then p else .unlock .fileQueueMutex .ret : Code).Passes
      Unread bodyReady C := by
  intro ok
  cases ok with
  | true => exact Or.inl ⟨rfl, hp⟩
  | false => exact Or.inr ⟨by simp [bodyReady], rfl, trivial⟩

theorem writeFileBody_passes (hC : C (receiveWrite r)) : (writeFileBody r).Passes Unread bodyReady C := by
  refine unread_passes rfl (by simp [bodyReady]) fun res => passes_ite.2 ⟨fun _ => ready_passes hC, fun _ => ?_⟩
  exact response_passes (by simp [respond]) fun _ => trivial

theorem appendFileBody_passes (hC : C (receiveAppend r)) : (appendFileBody r).Passes Unread bodyReady C := by
  refine unread_passes rfl (by simp [bodyReady]) fun res => passes_ite.2 ⟨fun _ => ready_passes hC, fun _ => ?_⟩
  exact response_passes (by simp [respond]) fun _ => trivial

theorem storeBody_passes (hC : C (reception r)) : (storeBody r).Passes Unread bodyReady C := by
  unfold reception at hC
  unfold storeBody
  split_ifs at hC ⊢ with hw
  exacts [writeFileBody_passes hC, appendFileBody_passes hC]

theorem expelledBody_passes (hC : C (reception r)) (res : ℤ) :
    (expelledBody r res).Passes Unread bodyReady C := by
  unfold reception at hC
  unfold expelledBody
  split_ifs at hC ⊢ with hw hres
  · exact unread_passes rfl (by simp [bodyReady]) fun _ => writeFileBody_passes hC
  · exact writeFileBody_passes hC
  · exact appendFileBody_passes hC

end

/-- A write or append comes to its ready response before it reads the body, and
    not if the file is too big. -/
theorem controller_passes (h : r.operation = .OP_WRITE_FILE ∨ r.operation = .OP_APPEND_FILE) :
    (controller cfg r).Passes Unread bodyReady fun q => q = reception r ∧ ¬ r.tooBig cfg := by
  rw [controller_eq h, passes_lock]
  refine unread_passes rfl (by simp [bodyReady]) fun freeSpace => ?_
  rw [storeBranch]
  by_cases hb : r.tooBig cfg
  · rw [if_pos hb]
    exact response_passes (by simp [respond]) fun _ => trivial
  · rw [if_neg hb]
    refine passes_ite.2 ⟨fun _ => ?_, fun _ => ?_⟩
    · exact expulsion_passes fun res => expelledBody_passes ⟨rfl, hb⟩ res
    · exact unread_passes rfl (by simp [bodyReady]) fun _ => storeBody_passes ⟨rfl, hb⟩

/-- A run that comes to the ready response. -/
theorem reception_run {σ : Server × Socket}
    (h : r.operation = .OP_WRITE_FILE ∨ r.operation = .OP_APPEND_FILE)
    (hr : Runs (streamExec cfg) (controller cfg r) (s, k) t o σ) (ht : bodyReady ∈ t) :
    ¬ r.tooBig cfg ∧ ∃ t₁ t₂ s₁, t = t₁ ++ bodyReady :: t₂ ∧ (∀ d ∈ t₁, Unread d) ∧
      Runs (streamExec cfg) (reception r) (s₁, k) t₂ o σ := by
  -- what comes before the body leaves the socket alone
  have hdry : ∀ (a : Act) (e : Env) σ (x : a.Ans) σ', streamExec cfg a e σ = some (x, σ') →
      Unread ⟨a, x⟩ ∨ ⟨a, x⟩ = bodyReady → σ'.2 = σ.2 := by
    intro a e σ x σ' hx hu
    have ha : a.unread = true := by
      rcases hu with hu | hu
      · exact hu
      · cases hu; rfl
    refine (streamExec_dry hx ?_ ?_).2
    · rintro n rfl
      cases ha
    · rintro n rfl
      cases ha
  obtain ⟨t₁, t₂, q, ⟨s₁, k₁⟩, rfl, h1, ⟨rfl, hb⟩, rfl, h2⟩ :=
    hr.passage (π := Prod.snd) hdry (controller_passes h) ht
  exact ⟨hb, t₁, t₂, s₁, rfl, h1, h2⟩

/-- What comes before the body does not matter. -/
theorem intact_append {t₁ t₂ : List (Done workerSig)} (h : ∀ d ∈ t₁, Unread d) :
    Intact r body rest (t₁ ++ bodyReady :: t₂) k ↔ Intact r body rest t₂ k := by
  have hno : ∀ d ∈ t₁ ++ bodyReady :: t₂, ∀ buf, d.1 = .call (r.storing buf) → d ∈ t₂ := by
    intro d hd buf he
    rcases List.mem_append.1 hd with hd | hd
    · exact absurd he ((h d hd).not_storing buf)
    · rcases List.mem_cons.1 hd with rfl | hd
      · cases he
      · exact hd
  have hmem : ∀ d ∈ t₂, d ∈ t₁ ++ bodyReady :: t₂ := fun d hd =>
    List.mem_append_right _ (List.mem_cons_of_mem _ hd)
  constructor
  · rintro ⟨⟨d, hd, he⟩, honly, hnext⟩
    exact ⟨⟨d, hno d hd _ he, he⟩, fun d hd => honly d (hmem d hd), hnext⟩
  · rintro ⟨⟨d, hd, he⟩, honly, hnext⟩
    exact ⟨⟨d, hmem d hd, he⟩, fun d hd buf he => honly d (hno d hd buf he) buf he, hnext⟩

/-- A trace with one call that stores a buffer. -/
theorem intact_of_one (buf : List Byte) {d₁ d₂ d₃ : Done workerSig} (h₁ : ∀ n, d₁.1 ≠ .call n)
    (h₂ : d₂.1 = .call (r.storing buf)) (h₃ : ∀ n, d₃.1 ≠ .call n) :
    Intact r body rest [d₁, d₂, d₃] k ↔ buf = body ∧ k.incoming = rest := by
  constructor
  · rintro ⟨⟨d, hd, he⟩, -, hnext⟩
    simp only [List.mem_cons, List.not_mem_nil, or_false] at hd
    rcases hd with rfl | rfl | rfl
    · exact absurd he (h₁ _)
    · exact ⟨storing_inj (Act.call.inj (h₂.symm.trans he)), hnext⟩
    · exact absurd he (h₃ _)
  · rintro ⟨rfl, hnext⟩
    refine ⟨⟨d₂, by simp, h₂⟩, ?_, hnext⟩
    intro d hd buf' he
    simp only [List.mem_cons, List.not_mem_nil, or_false] at hd
    rcases hd with rfl | rfl | rfl
    · exact absurd he (h₁ _)
    · exact storing_inj (Act.call.inj (he.symm.trans h₂))
    · exact absurd he (h₃ _)

/-- The end of a reception: the call of the store and the final response. -/
theorem storing_runs {c : Call} {k' : Socket} {response : c.Ans → Response} {σ : Server × Socket}
    (hc : ∀ e s, ∃ x s', exec cfg (.call c) e s = some (x, s'))
    (hr : Runs (streamExec cfg) (.act (.call c) fun res =>
      .act (.write (response res)) fun _ => .unlock .fileQueueMutex .ret) (s, k') t o σ) :
    ∃ x ok, t = [⟨.call c, x⟩, ⟨.write (response x), ok⟩] ∧ σ.2 = k' := by
  let e₀ : Env := ⟨true, [], 0, NULL⟩
  obtain ⟨e, x, ⟨s₁, k₁⟩, t₁, hx, rfl, hr₁⟩ | ⟨hx, -⟩ := hr.act_cases
  · obtain ⟨-, rfl⟩ := streamExec_dry hx (by simp) (by simp)
    obtain ⟨e, ok, ⟨s₂, k₂⟩, t₂, hx, rfl, hr₂⟩ | ⟨hx, -⟩ := hr₁.act_cases
    · obtain ⟨-, rfl⟩ := streamExec_dry hx (by simp) (by simp)
      obtain _ | _ | _ | _ | hr₃ := hr₂
      cases hr₃
      exact ⟨x, ok, rfl, rfl⟩
    · exact absurd (hx e₀) (by simp [streamExec, exec])
  · obtain ⟨x, s', he⟩ := hc e₀ s
    exact absurd (hx e₀) (by simp [streamExec, he])

theorem receiveWrite_iff {σ : Server × Socket} (hw : r.operation = .OP_WRITE_FILE)
    (hn : 1 ≤ r.fileSize) (hmax : r.fileSize ≤ OBJECT_MAX) (hb : body.length = r.fileSize)
    (hd : Pieces r.fileSize counts)
    (hr : Runs (streamExec cfg) (receiveWrite r) (s, ⟨body ++ rest, counts⟩) t o σ) :
    Intact r body rest t σ.2 ↔ ∀ c ∈ counts, c ≤ INT_MAX := by
  have hread : ∀ e : Env, streamExec cfg (.readData r.fileSize) e (s, ⟨body ++ rest, counts⟩) =
      if ∀ c ∈ counts, c ≤ INT_MAX then some ((body, counts.getLastD e.unset), (s, ⟨rest, []⟩))
      else none := by
    intro e
    have hreq := readData_eq rest (calloc r.fileSize) e.unset
      (hb ▸ hmax) (hb ▸ hd) (by rw [length_calloc, hb])
    rw [hb] at hreq
    simp only [streamExec, hreq]
    split_ifs <;> rfl
  obtain ⟨e, x, s₁, t₁, hx, rfl, hr⟩ | ⟨hx, rfl, -⟩ := hr.act_cases
  · rw [hread] at hx
    split_ifs at hx with hall
    cases hx
    simp only [hd.getLastD_ne hn e.unset, ne_eq, not_false_eq_true, if_true] at hr
    obtain ⟨x, ok, rfl, hk⟩ := storing_runs (fun _ _ => ⟨_, _, rfl⟩) hr
    rw [intact_of_one body (by simp) (by rw [Request.storing, if_pos hw]) (by simp), hk]
    exact ⟨fun _ => hall, fun _ => ⟨rfl, rfl⟩⟩
  · constructor
    · rintro ⟨⟨d, hd, -⟩, -⟩
      cases hd
    · intro hall
      have := hx ⟨true, [], 0, NULL⟩
      rw [hread, if_pos hall] at this
      cases this

theorem receiveAppend_iff {σ : Server × Socket} (ha : r.operation = .OP_APPEND_FILE)
    (hn : 1 ≤ r.fileSize) (hb : body.length = r.fileSize) (hd : Pieces r.fileSize counts)
    (hr : Runs (streamExec cfg) (receiveAppend r) (s, ⟨body ++ rest, counts⟩) t o σ) :
    Intact r body rest t σ.2 ↔ counts = [(r.fileSize : ℤ)] := by
  obtain ⟨c, cs, rfl⟩ := hd.ne_nil hn
  rw [← hb] at hd
  have hread : ∀ e : Env, streamExec cfg (.read r.fileSize) e (s, ⟨body ++ rest, c :: cs⟩) =
      some (some (memcpy (calloc r.fileSize) 0 (body.take c.toNat)),
        (s, ⟨body.drop c.toNat ++ rest, cs⟩)) := by
    intro e
    have hc : c ≠ -1 := by have := hd.cons.1; omega
    have hreq := read_eq rest hd
    rw [hb] at hreq
    simp only [streamExec, hreq, Option.map_some, if_neg hc]
  obtain ⟨e, x, s₁, t₁, hx, rfl, hr⟩ | ⟨hx, rfl, -⟩ := hr.act_cases
  · rw [hread] at hx
    cases hx
    obtain ⟨x, ok, rfl, hk⟩ := storing_runs (fun _ _ => ⟨_, _, rfl⟩) hr
    rw [intact_of_one (memcpy (calloc r.fileSize) 0 (body.take c.toNat)) (by simp)
      (by rw [Request.storing, if_neg (by simp [ha])]) (by simp), hk, ← hb]
    exact read_whole_iff hd (by rw [length_calloc])
  · have := hx ⟨true, [], 0, NULL⟩
    rw [hread] at this
    cases this

/-- The condition under which the body of a request is received as it was sent. -/
def Request.Whole (r : Request) (counts : List ℤ) : Prop :=
  if r.operation = .OP_WRITE_FILE then ∀ c ∈ counts, c ≤ INT_MAX else counts = [(r.fileSize : ℤ)]

theorem intact_iff {σ : Server × Socket}
    (h : r.operation = .OP_WRITE_FILE ∨ r.operation = .OP_APPEND_FILE)
    (hn : 1 ≤ r.fileSize) (hb : body.length = r.fileSize) (hd : Pieces r.fileSize counts)
    (hr : Runs (streamExec cfg) (controller cfg r) (s, ⟨body ++ rest, counts⟩) t o σ) (ht : bodyReady ∈ t) :
    Intact r body rest t σ.2 ↔ r.Whole counts := by
  obtain ⟨hbig, t₁, t₂, s₁, rfl, h1, h2⟩ := reception_run h hr ht
  rw [intact_append h1, Request.Whole]
  rw [reception] at h2
  by_cases hw : r.operation = .OP_WRITE_FILE
  · rw [if_pos hw] at h2 ⊢
    have hmax : r.fileSize ≤ OBJECT_MAX := by
      have hlt := cfg.maxMemSize.toNat_lt
      have hle : r.fileSize ≤ cfg.maxMemSize.toNat := not_lt.1 fun hlt => hbig ⟨hw, hlt⟩
      unfold OBJECT_MAX
      omega
    exact receiveWrite_iff hw hn hmax hb hd h2
  · rw [if_neg hw] at h2 ⊢
    exact receiveAppend_iff (h.resolve_left hw) hn hb hd h2

/-! ## The reception of an expelled file by the client -/

/-- The response received, by the answer of an action. -/
def responded : Done clientSig → Option Response
  | ⟨.readResponse, response⟩ => response
  | _ => none

/-- The contents received, by the answer of an action. -/
def contents : Done clientSig → Option (List Byte)
  | ⟨.readData _, buf⟩ => some buf.1
  | ⟨.read _, buf⟩ => buf
  | _ => none

/-- The expelled file is received, and saved, as it was sent, and the next read
    starts behind it. -/
structure ReceivedIntact (content rest : List Byte) (t : List (Done clientSig)) (k : Socket) : Prop where
  received : ∃ d ∈ t, contents d = some content
  only : ∀ d ∈ t, ∀ buf, contents d = some buf → buf = content
  saved : ∀ d ∈ t, ∀ buf dirname fileName, d.1 = .saveFileDir buf dirname fileName → buf = content
  next : k.incoming = rest

/-- The actions that read or save contents. -/
def ClientAct.wet : ClientAct → ℕ
  | .readData _ | .read _ | .saveFileDir _ _ _ => 1
  | _ => 0

variable {u : List (Done clientSig)} {content : List Byte} {σ : Option ℤ × Socket} {res : Option ℤ}

theorem clientStreamExec_dry {a : ClientAct} {e : ClientEnv} {x : a.Ans} {σ σ' : Option ℤ × Socket}
    (h : clientStreamExec a e σ = some (x, σ')) (h₁ : ∀ n, a ≠ .readData n) (h₂ : ∀ n, a ≠ .read n) :
    σ'.2 = σ.2 := by
  cases a with
  | readData n => exact absurd rfl (h₁ n)
  | read n => exact absurd rfl (h₂ n)
  | _ =>
    simp only [clientStreamExec, Option.map_eq_some_iff, Prod.mk.injEq] at h
    obtain ⟨y, -, -, rfl⟩ := h
    rfl

theorem dry_contents {d : Done clientSig} (h : d.1.wet = 0) :
    contents d = none ∧ ∀ buf dirname fileName, d.1 ≠ .saveFileDir buf dirname fileName := by
  obtain ⟨a, x⟩ := d
  cases a with
  | readData | read | saveFileDir => cases h
  | _ => exact ⟨rfl, by simp⟩

/-- No response comes after the return. -/
theorem returning_runs {x : ℤ} (h : Runs clientStreamExec (returning x) (res, k) u o σ) :
    u.filterMap responded = [] := by
  obtain ⟨e, y, σ₂, u₂, hx, rfl, h₂⟩ | ⟨-, rfl, -⟩ := h.act_cases
  · cases h₂
    rfl
  · rfl

/-- The run of a function that sends a request, up to the first response. -/
theorem first_response {q : Request → Request} {kr : Option Response → ClientCode} {resp : Response}
    (hnone : kr none = returning (-1))
    (hr : Runs clientStreamExec (.act .newRequest fun request => .act (.write (q request)) fun ok : Bool =>
      if ok then .act .readResponse kr else returning (-1)) (res, k) u o σ)
    (hu : (u.filterMap responded).head? = some resp) :
    ∃ u₁ u₂ res', u = u₁ ++ u₂ ∧ (∀ d ∈ u₁, d.1.wet = 0) ∧
      Runs clientStreamExec (kr (some resp)) (res', k) u₂ o σ := by
  obtain ⟨e, request, ⟨r₁, k₁⟩, u₁, hx, rfl, hr₁⟩ | ⟨-, rfl, -⟩ := hr.act_cases
  swap
  · cases hu
  obtain rfl : k₁ = k := clientStreamExec_dry hx (by simp) (by simp)
  obtain ⟨e, ok, ⟨r₂, k₂⟩, u₂, hx, rfl, hr₂⟩ | ⟨-, rfl, -⟩ := hr₁.act_cases
  swap
  · cases hu
  obtain rfl : k₂ = k₁ := clientStreamExec_dry hx (by simp) (by simp)
  simp only [List.filterMap_cons, responded] at hu
  cases ok with
  | false =>
    rw [returning_runs hr₂] at hu
    cases hu
  | true =>
    obtain ⟨e, response, ⟨r₃, k₃⟩, u₃, hx, rfl, hr₃⟩ | ⟨-, rfl, -⟩ := hr₂.act_cases
    swap
    · cases hu
    obtain rfl : k₃ = k₂ := clientStreamExec_dry hx (by simp) (by simp)
    cases response with
    | none =>
      rw [hnone] at hr₃
      simp only [List.filterMap_cons, responded, returning_runs hr₃] at hu
      cases hu
    | some response =>
      simp only [List.filterMap_cons, responded, List.head?_cons, Option.some.injEq] at hu
      subst hu
      exact ⟨[_, _, _], u₃, r₃, rfl, by simp [ClientAct.wet], hr₃⟩

theorem returning_budget (x : ℤ) : (returning x).Budget ClientAct.wet 0 := ⟨le_rfl, fun _ => trivial⟩

theorem sendContent_budget (response : Response) :
    (sendContent content response returning).Budget ClientAct.wet 0 := by
  unfold sendContent
  split_ifs
  · exact returning_budget _
  · refine ⟨le_rfl, fun ok => ?_⟩
    cases ok
    · exact returning_budget _
    · exact ⟨le_rfl, fun _ => returning_budget _⟩

theorem sent_budget (content : List Byte) (response : Response) :
    (Prog.act .readResponse fun second : Option Response =>
      sendContent content (second.getD response) returning : ClientCode).Budget ClientAct.wet 0 :=
  ⟨le_rfl, fun _ => sendContent_budget _⟩

/-- What comes after the reception of the buffer `buf`: no other contents are
    received, and if any are saved it is the buffer. -/
structure Saves (buf : List Byte) (u : List (Done clientSig)) : Prop where
  contents : ∀ d ∈ u, contents d = none
  saved : ∀ d ∈ u, ∀ b dirname fileName, d.1 = .saveFileDir b dirname fileName → b = buf

theorem dry_runs {p : ClientCode} (hp : p.Budget ClientAct.wet 0)
    (hr : Runs clientStreamExec p (res, k) u o σ) : (∀ d ∈ u, d.1.wet = 0) ∧ σ.2 = k := by
  refine hr.costless (π := Prod.snd) (fun a e s x s' hx ha => clientStreamExec_dry hx ?_ ?_) hp
  · rintro n rfl
    cases ha
  · rintro n rfl
    cases ha

theorem saveExpelled_runs {buf : List Byte} {dirname : Option CString} {fileName : CString}
    {p : ClientCode} (hp : p.Budget ClientAct.wet 0)
    (hr : Runs clientStreamExec (saveExpelled buf dirname fileName p) (res, k) u o σ) :
    Saves buf u ∧ σ.2 = k := by
  -- the rest neither receives nor saves
  have hdry : ∀ {res₁ u₁}, Runs clientStreamExec p (res₁, k) u₁ o σ →
      (∀ d ∈ u₁, contents d = none ∧ ∀ b dirname fileName, d.1 ≠ .saveFileDir b dirname fileName) ∧
        σ.2 = k := by
    intro res₁ u₁ h
    obtain ⟨h1, h2⟩ := dry_runs hp h
    exact ⟨fun d hd => dry_contents (h1 d hd), h2⟩
  cases dirname with
  | none =>
    obtain ⟨h1, h2⟩ := hdry hr
    exact ⟨⟨fun d hd => (h1 d hd).1, fun d hd b dn f he => absurd he ((h1 d hd).2 b dn f)⟩, h2⟩
  | some dirname =>
    obtain ⟨e, x, ⟨r₁, k₁⟩, u₁, hx, rfl, hr₁⟩ | ⟨-, rfl, -, rfl⟩ := hr.act_cases
    · obtain rfl : k₁ = k := clientStreamExec_dry hx (by simp) (by simp)
      obtain ⟨h1, h2⟩ := hdry hr₁
      refine ⟨⟨?_, ?_⟩, h2⟩
      · exact List.forall_mem_cons.2 ⟨rfl, fun d hd => (h1 d hd).1⟩
      · refine List.forall_mem_cons.2 ⟨fun b dn f he => ?_, fun d hd b dn f he => ?_⟩
        · cases he
          rfl
        · exact absurd he ((h1 d hd).2 b dn f)
    · exact ⟨⟨by simp, by simp⟩, rfl⟩

theorem receivedIntact_iff {buf : List Byte} {u₁ u₂ : List (Done clientSig)} {d : Done clientSig}
    (h₁ : ∀ d ∈ u₁, d.1.wet = 0) (hd : contents d = some buf) (h₂ : Saves buf u₂) :
    ReceivedIntact content rest (u₁ ++ d :: u₂) k ↔ buf = content ∧ k.incoming = rest := by
  have hcont : ∀ d' ∈ u₁ ++ d :: u₂, ∀ b, contents d' = some b → b = buf := by
    intro d' hd' b he
    rcases List.mem_append.1 hd' with h | h
    · rw [(dry_contents (h₁ d' h)).1] at he
      cases he
    · rcases List.mem_cons.1 h with rfl | h
      · exact Option.some.inj (he.symm.trans hd)
      · rw [h₂.contents d' h] at he
        cases he
  have hsaved : ∀ d' ∈ u₁ ++ d :: u₂, ∀ b dn f, d'.1 = .saveFileDir b dn f → b = buf := by
    intro d' hd' b dn f he
    rcases List.mem_append.1 hd' with h | h
    · exact absurd he ((dry_contents (h₁ d' h)).2 b dn f)
    · rcases List.mem_cons.1 h with rfl | h
      · obtain ⟨a, x⟩ := d'
        obtain rfl : a = _ := he
        cases hd
      · exact h₂.saved d' h b dn f he
  constructor
  · rintro ⟨⟨d', hd', he⟩, -, -, hnext⟩
    exact ⟨(hcont d' hd' _ he).symm, hnext⟩
  · rintro ⟨rfl, hnext⟩
    exact ⟨⟨d, by simp, hd⟩, hcont, hsaved, hnext⟩

theorem writeFile_intact_iff {pid : ℤ} {disk : CString → Option LocalFile}
    {pathname dirname : Option CString} {resp : Response} (hone : resp.statusCode = 1)
    (hn : 1 ≤ content.length) (hmax : content.length ≤ OBJECT_MAX)
    (hsize : resp.fileSize = content.length) (hd : Pieces content.length counts)
    (hr : Runs clientStreamExec ((ApiCall.writeFile pathname dirname).code pid disk)
      (none, ⟨content ++ rest, counts⟩) u o σ) (hu : (u.filterMap responded).head? = some resp) :
    ReceivedIntact content rest u σ.2 ↔ ∀ c ∈ counts, c ≤ INT_MAX := by
  cases pathname with
  | none =>
    rw [returning_runs (x := -1) hr] at hu
    cases hu
  | some pathname =>
  simp only [ApiCall.code, writeFile] at hr
  cases hdisk : disk pathname with
  | none =>
    simp only [hdisk] at hr
    rw [returning_runs hr] at hu
    cases hu
  | some file =>
  simp only [hdisk] at hr
  obtain ⟨u₁, u₂, r₁, rfl, h1, h2⟩ := first_response rfl hr hu
  simp only [hone, if_true] at h2
  have hread : ∀ e : ClientEnv, clientStreamExec (.readData resp.fileSize) e
      (r₁, ⟨content ++ rest, counts⟩) =
      if ∀ c ∈ counts, c ≤ INT_MAX then some ((content, counts.getLastD e.unset), (r₁, ⟨rest, []⟩))
      else none := by
    intro e
    have hlen : (received content.length e.bytes).length = content.length := by
      simp [received]
    simp only [clientStreamExec, hsize, readData_eq rest _ e.unset hmax hd hlen]
    split_ifs <;> rfl
  obtain ⟨e, x, ⟨r₂, k₂⟩, u₃, hx, rfl, h3⟩ | ⟨hx, rfl, -⟩ := h2.act_cases
  · rw [hread] at hx
    split_ifs at hx with hall
    cases hx
    simp only [if_neg (hd.getLastD_ne hn e.unset)] at h3
    obtain ⟨h4, h5⟩ := saveExpelled_runs (sent_budget file.buffer resp) h3
    rw [receivedIntact_iff h1 rfl h4, h5]
    exact ⟨fun _ => hall, fun _ => ⟨rfl, rfl⟩⟩
  · constructor
    · rintro ⟨⟨d, hd, he⟩, -⟩
      rw [List.append_nil] at hd
      rw [(dry_contents (h1 d hd)).1] at he
      cases he
    · intro hall
      have := hx ⟨true, resp, [], 0, ⟨0, .OP_OPEN_FILE, [], 0, 0⟩⟩
      rw [hread, if_pos hall] at this
      cases this

theorem appendToFile_intact_iff {pid : ℤ} {disk : CString → Option LocalFile}
    {pathname dirname : Option CString} {buf : Option (List Byte)} {resp : Response}
    (hone : resp.statusCode = 1) (hn : 1 ≤ content.length)
    (hsize : resp.fileSize = content.length) (hd : Pieces content.length counts)
    (hr : Runs clientStreamExec ((ApiCall.appendToFile pathname buf dirname).code pid disk)
      (none, ⟨content ++ rest, counts⟩) u o σ) (hu : (u.filterMap responded).head? = some resp) :
    ReceivedIntact content rest u σ.2 ↔ counts = [(content.length : ℤ)] := by
  -- without a pathname and a buffer the function returns at once
  have hnull : Runs clientStreamExec (returning (-1)) (none, ⟨content ++ rest, counts⟩) u o σ → False := by
    intro hr
    rw [returning_runs hr] at hu
    cases hu
  cases pathname with
  | none => exact (hnull hr).elim
  | some pathname =>
  cases buf with
  | none => exact (hnull hr).elim
  | some buf =>
  simp only [ApiCall.code, appendToFile] at hr
  obtain ⟨u₁, u₂, r₁, rfl, h1, h2⟩ := first_response rfl hr hu
  simp only [hone, if_true] at h2
  obtain ⟨c, cs, rfl⟩ := hd.ne_nil hn
  have hlen : ∀ e : ClientEnv, (received content.length e.bytes).length = content.length := fun e => by
    simp [received]
  have hread : ∀ e : ClientEnv, clientStreamExec (.read resp.fileSize) e
      (r₁, ⟨content ++ rest, c :: cs⟩) =
      some (some (memcpy (received content.length e.bytes) 0 (content.take c.toNat)),
        (r₁, ⟨content.drop c.toNat ++ rest, cs⟩)) := by
    intro e
    have hc : c ≠ -1 := by have := hd.cons.1; omega
    simp only [clientStreamExec, hsize, read_eq rest hd, Option.map_some, if_neg hc]
  obtain ⟨e, x, ⟨r₂, k₂⟩, u₃, hx, rfl, h3⟩ | ⟨hx, rfl, -⟩ := h2.act_cases
  · rw [hread] at hx
    cases hx
    obtain ⟨h4, h5⟩ := saveExpelled_runs (sent_budget buf resp) h3
    rw [receivedIntact_iff h1 rfl h4, h5]
    exact read_whole_iff hd (hlen e)
  · have := hx ⟨true, resp, [], 0, ⟨0, .OP_OPEN_FILE, [], 0, 0⟩⟩
    rw [hread] at this
    cases this

/-! ## Independence of the pieces -/

/-- **When a file is received as it was sent.**  The body of a write, and the
    file that `writeFile` receives, if no count exceeds an `int`, in whatever
    pieces they are delivered; the body of an append, and the file that
    `appendToFile` receives, if and only if they are delivered in one piece. -/
theorem unbroken_iff (hn : 1 ≤ body.length) (hd : Pieces body.length counts) :
    (∀ (cfg : Config) (s : Server) (r : Request) (t : List (Done workerSig)) (o : Outcome)
      (σ : Server × Socket),
      r.operation = .OP_WRITE_FILE ∨ r.operation = .OP_APPEND_FILE → r.fileSize = body.length →
      Runs (streamExec cfg) (controller cfg r) (s, ⟨body ++ rest, counts⟩) t o σ → bodyReady ∈ t →
      (Intact r body rest t σ.2 ↔ r.Whole counts)) ∧
    (∀ (pid : ℤ) (disk : CString → Option LocalFile) (pathname dirname : Option CString)
      (buf : Option (List Byte)) (resp : Response) (u : List (Done clientSig)) (o : Outcome)
      (σ : Option ℤ × Socket),
      resp.statusCode = 1 → resp.fileSize = body.length → body.length ≤ OBJECT_MAX →
      (u.filterMap responded).head? = some resp →
      (Runs clientStreamExec ((ApiCall.writeFile pathname dirname).code pid disk)
          (none, ⟨body ++ rest, counts⟩) u o σ →
        (ReceivedIntact body rest u σ.2 ↔ ∀ c ∈ counts, c ≤ INT_MAX)) ∧
      (Runs clientStreamExec ((ApiCall.appendToFile pathname buf dirname).code pid disk)
          (none, ⟨body ++ rest, counts⟩) u o σ →
        (ReceivedIntact body rest u σ.2 ↔ counts = [(body.length : ℤ)]))) := by
  constructor
  · intro cfg s r t o σ h hb hr ht
    exact intact_iff h (hb ▸ hn) hb.symm (hb ▸ hd) hr ht
  · intro pid disk pathname dirname buf resp u o σ hone hsize hmax hu
    exact ⟨fun hr => writeFile_intact_iff hone hn hmax hsize hd hr hu,
      fun hr => appendToFile_intact_iff hone hn hsize hd hr hu⟩

/-- A file that its creator has locked. -/
def lockedStore : Server := (openVirtualFile ⟨8, 4⟩ Server.init [47, 97] (O_CREATE ||| O_LOCK) 1).2

def twoBytes (op : Operation) : Request := ⟨1, op, [47, 97], 0, 2⟩

/-- Two bytes arrive one by one. -/
theorem worker_split {op : Operation} (h : op = .OP_WRITE_FILE ∨ op = .OP_APPEND_FILE) :
    ∃ t σ, Runs (streamExec ⟨8, 4⟩) (controller ⟨8, 4⟩ (twoBytes op))
      (lockedStore, ⟨[5, 6] ++ [9], [1, 1]⟩) t .returned σ ∧ bodyReady ∈ t := by
  rcases h with rfl | rfl
  · refine ⟨_, _, @run_sound _ _ _ _ _ (.replicate 8 ⟨true, [], 0, NULL⟩) _ _ _ _ rfl, ?_⟩
    simp [bodyReady]
  · refine ⟨_, _, @run_sound _ _ _ _ _ (.replicate 8 ⟨true, [], 0, NULL⟩) _ _ _ _ rfl, ?_⟩
    simp [bodyReady]

theorem pieces_two : Pieces 2 [1, 1] := ⟨by simp, rfl⟩

/-- The expelled file that the client receives. -/
def expelledResponse : Response := ⟨1, 2, [], [47, 98]⟩

theorem client_split (call : ApiCall) (h : call = .writeFile (some [47, 97]) (some [100]) ∨
      call = .appendToFile (some [47, 97]) (some [7]) (some [100])) :
    ∃ u σ, Runs clientStreamExec (call.code 1 fun _ => some (.steady [7])) (none, ⟨[5, 6] ++ [9], [1, 1]⟩) u
      .returned σ ∧ (u.filterMap responded).head? = some expelledResponse := by
  rcases h with rfl | rfl
  · exact ⟨_, _, @run_sound _ _ _ _ _ (.replicate 10 ⟨true, expelledResponse, [], 0,
      twoBytes .OP_WRITE_FILE⟩) _ _ _ _ rfl, rfl⟩
  · exact ⟨_, _, @run_sound _ _ _ _ _ (.replicate 10 ⟨true, expelledResponse, [], 0,
      twoBytes .OP_WRITE_FILE⟩) _ _ _ _ rfl, rfl⟩

/-- The body of a write and the file that `writeFile` receives are intact. -/
theorem unbroken_split : (∃ t σ, Intact (twoBytes .OP_WRITE_FILE) [5, 6] [9] t σ) ∧
    ∃ u σ, ReceivedIntact [5, 6] [9] u σ := by
  obtain ⟨t, σ, hr, ht⟩ := worker_split (Or.inl rfl)
  obtain ⟨u, τ, hu, hresp⟩ := client_split _ (Or.inl rfl)
  have hbody := @unbroken_iff [5, 6] [9] [1, 1] (by decide) pieces_two
  have hserver := hbody.1 _ _ _ t _ σ (Or.inl rfl) rfl hr ht
  have hclient := (hbody.2 1 _ _ _ none expelledResponse u _ τ rfl rfl (by decide) hresp).1 hu
  exact ⟨⟨t, σ.2, hserver.2 (by simp [Request.Whole, twoBytes, INT_MAX])⟩, u, τ.2, hclient.2 (by decide)⟩

/-- The second byte of the append is left in the stream. -/
theorem not_unbroken_split : Pieces 2 [1, 1] ∧ ∃ t σ, Runs (streamExec ⟨8, 4⟩)
    (controller ⟨8, 4⟩ (twoBytes .OP_APPEND_FILE)) (lockedStore, ⟨[5, 6] ++ [9], [1, 1]⟩) t .returned σ ∧
      bodyReady ∈ t ∧ ¬ Intact (twoBytes .OP_APPEND_FILE) [5, 6] [9] t σ.2 := by
  obtain ⟨t, σ, hr, ht⟩ := worker_split (Or.inr rfl)
  refine ⟨pieces_two, t, σ, hr, ht, fun h => ?_⟩
  have hwhole := (intact_iff (Or.inr rfl) (by decide) rfl pieces_two hr ht).1 h
  simp [Request.Whole, twoBytes] at hwhole

end FileStorage
