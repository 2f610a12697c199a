/-
  The request for several files.

  `readn_file_controller` joins the names with commas and copies them into the
  message of the response, whatever their length; `readNFiles` splits the
  message with `strtok`, reads the files one by one and saves each under the end
  of its name, from the last `/` on.  `roundTrip_iff` says exactly when the
  client asks for the files that have been announced: if the names fit into the
  message, none of them is empty or contains a comma, and all but the last have
  a `/`.
-/
import FileStorage.Capacity
import FileStorage.Client
import FileStorage.Lib.Tokens

namespace FileStorage

open Threads Prog Tokens

/-- The size of `message` in a `Response`. -/
def MAX_MESSAGE_SIZE : ℕ := 100

/-- How many files are announced for a request of `N` files, or of all of them. -/
def announced (q : Queue FileNode) (N : ℤ) : ℕ :=
  if N < 0 then q.data.length else min N.toNat q.data.length

/-- Their names, in the order of the queue. -/
def announcedNames (q : Queue FileNode) (N : ℤ) : List CString :=
  (q.data.take (announced q N)).map (·.pathname)

/-- The responses that a controller sends. -/
def sent (t : List (Done workerSig)) : List Response :=
  t.filterMap fun d => match d.1 with
    | .write response => some response
    | _ => none

/-- The operations and pathnames of the requests that a client sends. -/
def asked (t : List (Done clientSig)) : List (Operation × CString) :=
  t.filterMap fun d => match d.1 with
    | .write request => some (request.operation, request.filepath)
    | _ => none

/-- The reads and writes succeed or fail, and what is received is zero. -/
def ClientEnv.zero (ok : Bool) : ClientEnv := ⟨ok, ⟨0, 0, [], []⟩, [], 0, ⟨0, .OP_OPEN_FILE, [], 0, 0⟩⟩

/-- The reply to a request of `N` files has the right count and a message that
    fits, and the client asks for the files that it names, in every run. -/
structure Announces (cfg : Config) (s : Server) (N : ℤ) (message : CString) : Prop where
  reply : ∀ r t o s', r.operation = .OP_READ_N_FILES → r.flags = BitVec.ofInt 32 N →
    Runs (exec cfg) (controller cfg r) s t o s' →
    o = .returned ∧ sent t = [respond (announced s.fileQueue N) message]
  fits : message.length + 1 ≤ MAX_MESSAGE_SIZE
  names : strtok message = announcedNames s.fileQueue N
  reads : ∀ pid dirname q r t o res, Runs clientExec (readNFiles pid N (some dirname) returning) none
    (⟨.newRequest, q⟩ :: ⟨.write r, true⟩ ::
      ⟨.readResponse, some (respond (announced s.fileQueue N) message)⟩ :: t) o res →
    r.operation = .OP_READ_N_FILES ∧ r.flags = BitVec.ofInt 32 N ∧
    asked t = (announcedNames s.fileQueue N).map (Operation.OP_READ_FILE, ·)

def RoundTrip (cfg : Config) (s : Server) (N : ℤ) : Prop := ∃ message, Announces cfg s N message

/-- The names, each with a separator or terminator, fit into the message, none is
    empty or contains a comma, and all but the last have a `/`. -/
structure Listable (names : List CString) : Prop where
  fits : (names.map List.length).sum + names.length ≤ MAX_MESSAGE_SIZE
  plain : ∀ n ∈ names, n ≠ [] ∧ 44 ∉ n
  slashed : ∀ n ∈ names.dropLast, 47 ∈ n

instance {names : List CString} : Decidable (Listable names) :=
  decidable_of_iff ((names.map List.length).sum + names.length ≤ MAX_MESSAGE_SIZE ∧
    (∀ n ∈ names, n ≠ [] ∧ 44 ∉ n) ∧ ∀ n ∈ names.dropLast, 47 ∈ n)
    ⟨fun h => ⟨h.1, h.2.1, h.2.2⟩, fun h => ⟨h.fits, h.plain, h.slashed⟩⟩

variable {cfg : Config} {s s' : Server} {r : Request} {t : List (Done workerSig)} {o : Outcome}
  {q : Queue FileNode} {N : ℤ}

/-! ## The list of the server -/

/-- The loop of `getNFileList` joins the names. -/
theorem foldl_addName (fs : List FileNode) (l : CString) :
    fs.foldl addName (some l) = some ([44].intercalate (l :: fs.map (·.pathname))) := by
  induction fs generalizing l with
  | nil => simp
  | cons f fs ih =>
    rw [List.foldl_cons, addName, ih]
    have hcomma : str "," = [44] := rfl
    cases fs with
    | nil => simp [hcomma]
    | cons g fs => simp [hcomma, List.intercalate_cons_cons]

theorem length_announcedNames : (announcedNames q N).length = announced q N := by
  rw [announcedNames, List.length_map, List.length_take, announced]
  split_ifs <;> omega

section
variable (hlen : q.len = q.data.length) (hne : q.data ≠ []) (h₀ : N ≠ 0)
  (h₁ : -2147483648 ≤ N) (h₂ : N ≤ INT_MAX)
include hlen hne h₀ h₁ h₂

/-- A short list has the names that are announced. -/
theorem getNFileList_eq (hk : announced q N ≤ MAX_MESSAGE_SIZE) :
    0 < announced q N ∧ getNFileList q N =
      (announced q N, some ([44].intercalate (announcedNames q N))) := by
  have hpos : 0 < q.data.length := List.length_pos_iff.2 hne
  unfold MAX_MESSAGE_SIZE at hk
  unfold INT_MAX at h₂
  -- the number of rounds of the loop
  have hN : (if N = -1 ∨ (q.len : ℤ) < u64 N then i32 q.len else N) = announced q N := by
    unfold announced at hk ⊢
    by_cases hneg : N < 0
    · rw [if_pos hneg] at hk ⊢
      have hu : (q.len : ℤ) < u64 N := by
        unfold u64
        omega
      rw [if_pos (Or.inr hu), hlen, i32_eq (by omega) (by omega)]
    · rw [if_neg hneg] at hk ⊢
      rw [u64_eq (by omega) (by omega)]
      split_ifs with h
      · rw [hlen, i32_eq (by omega) (by omega)]
        omega
      · omega
  have hk₀ : 0 < announced q N := by
    unfold announced
    split_ifs <;> omega
  refine ⟨hk₀, ?_⟩
  rw [getNFileList]
  simp only [hN]
  rw [u64_eq (by omega) (by omega), Int.toNat_natCast, announcedNames]
  cases hd : q.data.take (announced q N) with
  | nil =>
    rw [List.take_eq_nil_iff] at hd
    rcases hd with hd | hd
    · omega
    · exact absurd hd hne
  | cons f fs => rw [List.foldl_cons, addName, foldl_addName, List.map_cons]

end

/-- The run of `readn_file_controller` for a short list. -/
theorem readn_runs {k : ℕ} {message : CString} (hop : r.operation = .OP_READ_N_FILES)
    (hlist : getNFileList s.fileQueue r.flags.toInt = (k, some message)) (h₀ : 0 < k)
    (hk : k ≤ MAX_MESSAGE_SIZE) (h : Runs (exec cfg) (controller cfg r) s t o s') :
    o = .returned ∧ sent t = [respond k message] := by
  rw [controller, hop] at h
  simp only [readnFileController, logRequest] at h
  cases h with
  | fails hx => cases hx ⟨true, [], 0, NULL⟩
  | act hx h =>
    cases hx
    cases h with
    | lock h =>
      cases h with
      | fails hx => cases hx ⟨true, [], 0, NULL⟩
      | act hx h =>
        cases hx
        unfold MAX_MESSAGE_SIZE at hk
        have hst : i32 (getNFileList s.fileQueue r.flags.toInt).1 = k := by
          rw [hlist]
          exact i32_eq (by omega) (by omega)
        simp only [hlist, if_neg h₀.ne', readnFileBody] at h
        cases h with
        | fails hx => cases hx ⟨true, [], 0, NULL⟩
        | act hx h =>
          cases h with
          | unlock h =>
            cases h
            exact ⟨rfl, congrArg (fun st => [respond st message]) hst⟩

/-! ## The loop of the client -/

section
variable {cd cd' : Option ℤ} {u : List (Done clientSig)}

theorem asked_append (u u' : List (Done clientSig)) : asked (u ++ u') = asked u ++ asked u' :=
  List.filterMap_append

/-- Every run of `waitServerFile` goes on with what is to be done next. -/
theorem waitServerFile_runs {k : ℤ → List Byte → ClientCode}
    (h : Runs clientExec (waitServerFile k) cd u o cd') :
    ∃ u₁ u₂ res buf, u = u₁ ++ u₂ ∧ asked u₁ = [] ∧ Runs clientExec (k res buf) cd u₂ o cd' := by
  have e₀ : ClientEnv := .zero true
  simp only [waitServerFile] at h
  obtain ⟨e, response, s₁, u₁, hx, rfl, h₁⟩ | ⟨hx, -⟩ := h.act_cases
  swap; · cases hx e₀
  obtain rfl : s₁ = cd := by cases hx; rfl
  cases response with
  | none => exact ⟨[_], u₁, _, _, rfl, rfl, h₁⟩
  | some response =>
    dsimp only at h₁
    split_ifs at h₁
    · exact ⟨[_], u₁, _, _, rfl, rfl, h₁⟩
    · obtain ⟨e, buf, s₂, u₂, hx, rfl, h₂⟩ | ⟨hx, -⟩ := h₁.act_cases
      swap; · cases hx e₀
      obtain rfl : s₂ = s₁ := by cases hx; rfl
      split_ifs at h₂
      · exact ⟨[_, _], u₂, _, _, rfl, rfl, h₂⟩
      · exact ⟨[_, _], u₂, _, _, rfl, rfl, h₂⟩

/-- Every run of `readFile` sends one request. -/
theorem readFile_runs {pid : ℤ} {p : CString} {k : ℤ → List Byte → ClientCode}
    (h : Runs clientExec (readFile pid p k) cd u o cd') :
    ∃ u₁ u₂ res buf, u = u₁ ++ u₂ ∧ asked u₁ = [(Operation.OP_READ_FILE, p)] ∧
      Runs clientExec (k res buf) cd u₂ o cd' := by
  have e₀ : ClientEnv := .zero true
  simp only [readFile] at h
  obtain ⟨e, request, s₁, u₁, hx, rfl, h₁⟩ | ⟨hx, -⟩ := h.act_cases
  swap; · cases hx e₀
  obtain rfl : s₁ = cd := by cases hx; rfl
  obtain ⟨e', ok, s₂, u₂, hx', rfl, h₂⟩ | ⟨hx', -⟩ := h₁.act_cases
  swap; · cases hx' e₀
  obtain rfl : s₂ = s₁ := by cases hx'; rfl
  cases ok with
  | false => exact ⟨[_, _], u₂, _, _, rfl, rfl, h₂⟩
  | true =>
    obtain ⟨v, w, res, buf, rfl, hv, hk⟩ := waitServerFile_runs h₂
    refine ⟨_ :: _ :: v, w, res, buf, rfl, ?_, hk⟩
    exact congrArg (_ :: ·) hv

/-- The loop of `readNFiles` asks for the tokens in their order, if it can save
    each file before the last one. -/
theorem readTokens_runs {pid : ℤ} {dirname : CString} {res : ℤ} :
    ∀ {tokens : List CString} {cd u}, (∀ n ∈ tokens.dropLast, 47 ∈ n) →
    Runs clientExec (readTokens pid dirname (returning res) tokens) cd u o cd' →
    asked u = tokens.map (Operation.OP_READ_FILE, ·) := by
  have e₀ : ClientEnv := .zero true
  intro tokens
  induction tokens with
  | nil =>
    intro cd u _ h
    simp only [readTokens, returning] at h
    obtain ⟨e, _, s₁, u₁, hx, rfl, h₁⟩ | ⟨hx, -⟩ := h.act_cases
    swap; · cases hx e₀
    cases h₁
    rfl
  | cons token tokens ih =>
    intro cd u hslash h
    have htail : ∀ n ∈ tokens.dropLast, 47 ∈ n := by
      intro n hn
      cases tokens with
      | nil => cases hn
      | cons m tokens => exact hslash n (List.mem_cons_of_mem _ hn)
    rw [readTokens] at h
    obtain ⟨u₁, u₂, res', buf, rfl, hu₁, h₁⟩ := readFile_runs h
    rw [asked_append, hu₁, List.map_cons, List.singleton_append]
    -- what is asked for after the first token
    suffices hu₂ : asked u₂ = tokens.map (Operation.OP_READ_FILE, ·) by rw [hu₂]
    split_ifs at h₁
    · obtain ⟨e, _, s₁, u₃, hx, rfl, h₂⟩ | ⟨hx, rfl, -, -⟩ := h₁.act_cases
      · have hu₂ := ih htail h₂
        exact hu₂
      · -- the file cannot be saved: there is no `/`, so that it is the last one
        cases tokens with
        | nil => rfl
        | cons m tokens =>
          have hxe := hx e₀
          rw [clientExec, if_pos (hslash token (by simp))] at hxe
          cases hxe
    · exact ih htail h₁

/-- A request that cannot be sent. -/
theorem readFile_unsent (pid : ℤ) (p : CString) (k : ℤ → List Byte → ClientCode)
    (h : Runs clientExec (k (-1) []) cd u o cd') : ∃ u', Runs clientExec (readFile pid p k) cd u' o cd' ∧
      asked u' = (Operation.OP_READ_FILE, p) :: asked u := by
  let e := ClientEnv.zero false
  refine ⟨⟨.newRequest, e.request⟩ :: ⟨.write ⟨pid, .OP_READ_FILE, p, 0, 0⟩, false⟩ :: u, ?_, rfl⟩
  exact .act (e := e) rfl (.act (e := e) rfl h)

/-- A request that is answered with an empty file. -/
theorem readFile_empty (pid : ℤ) (p : CString) (k : ℤ → List Byte → ClientCode)
    (h : Runs clientExec (k 0 []) cd u o cd') : ∃ u', Runs clientExec (readFile pid p k) cd u' o cd' ∧
      asked u' = (Operation.OP_READ_FILE, p) :: asked u := by
  let e := ClientEnv.zero true
  refine ⟨⟨.newRequest, e.request⟩ :: ⟨.write ⟨pid, .OP_READ_FILE, p, 0, 0⟩, true⟩ ::
    ⟨.readResponse, some e.response⟩ :: ⟨.readData 0, ([], (0 : ℤ))⟩ :: u, ?_, rfl⟩
  exact .act (e := e) rfl (.act (e := e) rfl (.act (e := e) rfl (.act (e := e) rfl h)))

/-- The client is killed where it has read a file that it cannot save. -/
theorem readTokens_killed (pid : ℤ) (dirname : CString) (k : ClientCode) (l₁ l₂ : List CString)
    {n : CString} (hn : 47 ∉ n) : ∃ u, Runs clientExec (readTokens pid dirname k (l₁ ++ n :: l₂)) cd u .stuck cd ∧
      asked u = (l₁ ++ [n]).map (Operation.OP_READ_FILE, ·) := by
  induction l₁ with
  | nil =>
    have hsave : ∀ e : ClientEnv, clientExec (.saveFileDir [] dirname n) e cd = none :=
      fun e => by rw [clientExec, if_neg hn]
    have hcrash : Runs clientExec (.act (.saveFileDir [] dirname n) fun _ => readTokens pid dirname k l₂)
        cd [] .stuck cd := .fails hsave
    exact readFile_empty pid n (fun res buf => if res ≠ -1 then
      .act (.saveFileDir buf dirname n) fun _ => readTokens pid dirname k l₂
      else readTokens pid dirname k l₂) hcrash
  | cons token l₁ ih =>
    obtain ⟨u, h, hu⟩ := ih
    obtain ⟨u', h', hu'⟩ := readFile_unsent pid token (fun res buf => if res ≠ -1 then
      .act (.saveFileDir buf dirname token) fun _ => readTokens pid dirname k (l₁ ++ n :: l₂)
      else readTokens pid dirname k (l₁ ++ n :: l₂)) h
    exact ⟨u', h', by rw [hu', hu]; rfl⟩

end

/-! ## The round trip -/

/-- The reply to a request for the files and the further requests of the client. -/
theorem readNFiles_runs {pid : ℤ} {dirname : CString} {request r : Request} {response : Response}
    {u : List (Done clientSig)} {res : Option ℤ} (hst : response.statusCode ≠ -1)
    (hslash : ∀ n ∈ (strtok response.message).dropLast, 47 ∈ n)
    (h : Runs clientExec (readNFiles pid N (some dirname) returning) none
      (⟨.newRequest, request⟩ :: ⟨.write r, true⟩ :: ⟨.readResponse, some response⟩ :: u) o res) :
    r.operation = .OP_READ_N_FILES ∧ r.flags = BitVec.ofInt 32 N ∧
    asked u = (strtok response.message).map (Operation.OP_READ_FILE, ·) := by
  simp only [readNFiles] at h
  obtain ⟨_, _, s₁, u₁, -, hu, h₁⟩ | ⟨-, hu, -⟩ := h.act_cases
  swap; · cases hu
  cases hu
  obtain ⟨_, _, s₂, u₂, -, hu, h₂⟩ | ⟨-, hu, -⟩ := h₁.act_cases
  swap; · cases hu
  cases hu
  obtain ⟨_, _, s₃, u₃, -, hu, h₃⟩ | ⟨-, hu, -⟩ := h₂.act_cases
  swap; · cases hu
  cases hu
  simp only [if_neg hst] at h₃
  exact ⟨rfl, rfl, readTokens_runs hslash h₃⟩

/-- A client that asks for all files can save each before the last one. -/
theorem Announces.slashed {message : CString} (h : Announces cfg s N message) :
    ∀ n ∈ (announcedNames s.fileQueue N).dropLast, 47 ∈ n := by
  intro n hn
  by_contra hslash
  -- the names up to `n`, and those behind it
  obtain ⟨l₁, l₂, hl⟩ := List.mem_iff_append.1 hn
  have hne : announcedNames s.fileQueue N ≠ [] := fun hnil => by simp [hnil] at hn
  have hnames : announcedNames s.fileQueue N =
      l₁ ++ n :: (l₂ ++ [(announcedNames s.fileQueue N).getLast hne]) := by
    conv_lhs => rw [← List.dropLast_append_getLast hne, hl]
    simp
  obtain ⟨u, hrun, hu⟩ := readTokens_killed 0 [] (returning 0) l₁
    (l₂ ++ [(announcedNames s.fileQueue N).getLast hne]) hslash
  rw [← hnames, ← h.names] at hrun
  let response := respond (announced s.fileQueue N) message
  let e : ClientEnv := { ClientEnv.zero true with response := response }
  have hst : response.statusCode ≠ -1 := by simp only [response, respond]; omega
  have hread : Runs clientExec (readNFiles 0 N (some []) returning) none
      (⟨.newRequest, e.request⟩ :: ⟨.write ⟨0, .OP_READ_N_FILES, [], BitVec.ofInt 32 N, 0⟩, true⟩ ::
        ⟨.readResponse, some response⟩ :: u) .stuck none := by
    refine .act (e := e) rfl (.act (e := e) rfl (.act (e := e) rfl ?_))
    dsimp only
    rw [if_neg hst]
    exact hrun
  obtain ⟨-, -, hall⟩ := h.reads _ _ _ _ _ _ _ hread
  rw [hu, hnames] at hall
  have hlen := congrArg List.length hall
  simp at hlen

/-- The tokens of a message that fits are listable. -/
theorem Announces.listable {message : CString} (h : Announces cfg s N message) :
    Listable (announcedNames s.fileQueue N) := by
  have hsum : ((strtok message).map List.length).sum + (strtok message).length ≤
    message.length + 1 := sum_tokens_le
  rw [h.names] at hsum
  refine ⟨hsum.trans h.fits, fun n hn => ?_, h.slashed⟩
  rw [← h.names] at hn
  exact mem_tokens hn

/-- **When the client asks for the files that have been announced.** -/
theorem roundTrip_iff (hs : Reachable cfg s) (hne : s.fileQueue.data ≠ []) (h₀ : N ≠ 0)
    (h₁ : -2147483648 ≤ N) (h₂ : N ≤ INT_MAX) :
    RoundTrip cfg s N ↔ Listable (announcedNames s.fileQueue N) := by
  constructor
  · rintro ⟨message, h⟩
    exact h.listable
  · intro h
    have hk : announced s.fileQueue N ≤ MAX_MESSAGE_SIZE := by
      rw [← length_announcedNames]
      exact (Nat.le_add_left _ _).trans h.fits
    obtain ⟨hpos, hlist⟩ := getNFileList_eq hs.wf.len hne h₀ h₁ h₂ hk
    have hnames : strtok ([44].intercalate (announcedNames s.fileQueue N)) =
      announcedNames s.fileQueue N := tokens_intercalate_iff.2 h.plain
    have hint : (BitVec.ofInt 32 N).toInt = N := by
      unfold INT_MAX at h₂
      rw [BitVec.toInt_ofInt]
      exact i32_eq h₁ (by omega)
    refine ⟨[44].intercalate (announcedNames s.fileQueue N), fun r t o s' hop hN hr => ?_, ?_, hnames, ?_⟩
    · exact readn_runs hop (by rw [hN, hint, hlist]) hpos hk hr
    · have hne' : announcedNames s.fileQueue N ≠ [] := by
        rw [← List.length_pos_iff, length_announcedNames]
        exact hpos
      rw [length_intercalate hne']
      exact h.fits
    · intro pid dirname q r t o res hr
      have hread := readNFiles_runs (by simp only [respond]; omega)
        (by simpa only [respond, hnames] using h.slashed) hr
      simp only [respond, hnames] at hread
      exact hread

/-- A client has created a file. -/
def named (p : CString) : Server := (openVirtualFile ⟨8, 4⟩ Server.init p O_CREATE 1).2

/-- And another one. -/
def namedTwo (p p' : CString) : Server := (openVirtualFile ⟨8, 4⟩ (named p) p' O_CREATE 1).2

theorem named_reachable (p : CString) : Reachable ⟨8, 4⟩ (named p) := by
  have hx : exec ⟨8, 4⟩ (.call (.openVirtualFile p O_CREATE 1)) ⟨true, [], 0, NULL⟩ Server.init =
      some ((openVirtualFile ⟨8, 4⟩ Server.init p O_CREATE 1).1, named p) := by
    rw [exec, Call.exec, named]
  exact .step .init hx

theorem namedTwo_reachable (p p' : CString) : Reachable ⟨8, 4⟩ (namedTwo p p') := by
  have hx : exec ⟨8, 4⟩ (.call (.openVirtualFile p' O_CREATE 1)) ⟨true, [], 0, NULL⟩ (named p) =
      some ((openVirtualFile ⟨8, 4⟩ (named p) p' O_CREATE 1).1, namedTwo p p') := by
    rw [exec, Call.exec, namedTwo]
  exact (named_reachable p).step hx

theorem roundTrip_named : RoundTrip ⟨8, 4⟩ (namedTwo [47, 97] [98]) (-1) :=
  (roundTrip_iff (namedTwo_reachable _ _) (by decide) (by decide) (by decide) (by decide)).2 (by decide)

/-- A pathname of a hundred bytes does not fit, one with a comma is split, and after
    one without a `/` the client asks for no other. -/
theorem not_roundTrip_named :
    (Reachable ⟨8, 4⟩ (named (.replicate 100 97)) ∧ ¬ RoundTrip ⟨8, 4⟩ (named (.replicate 100 97)) 1) ∧
    (Reachable ⟨8, 4⟩ (named [47, 97, 44, 98]) ∧ ¬ RoundTrip ⟨8, 4⟩ (named [47, 97, 44, 98]) 1) ∧
    (Reachable ⟨8, 4⟩ (namedTwo [97] [98]) ∧ ¬ RoundTrip ⟨8, 4⟩ (namedTwo [97] [98]) (-1)) := by
  refine ⟨⟨named_reachable _, ?_⟩, ⟨named_reachable _, ?_⟩, namedTwo_reachable _ _, ?_⟩
  · rintro ⟨message, h⟩
    exact absurd h.listable (by decide +kernel)
  · rintro ⟨message, h⟩
    exact absurd h.listable (by decide)
  · rintro ⟨message, h⟩
    exact absurd h.listable (by decide)

end FileStorage
