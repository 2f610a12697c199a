/-
  The conversation of a client with its worker, and the clients' part in it.

  `talk` is the protocol: what may follow what, with the pathnames, sizes and
  contents of the messages.  Its state also bounds the files that the client
  holds: a client asks for a lock only if it holds no files but those of `L`.
  The requests are those that `main` of the client sends, all but to append and
  to close.

  * `talks_session`: a session keeps to the protocol in all that it sends, reads
    what may come, and saves only contents that are genuine.
-/
import FileStorage.Session
import FileStorage.InStep
import FileStorage.Authority
import FileStorage.Threads.Network

namespace FileStorage

open Threads Duplex

/-! ## The protocol -/

/-- Where a client and its worker are in a request. -/
inductive Stage where
  | between
  | asked (r : Request)
  /-- the contents of a file, of `n` bytes, are to be sent to the client -/
  | fetching (p : CString) (n : ℕ)
  /-- likewise those of an expelled file -/
  | expelling (p : CString) (n : ℕ) (r : Request)
  /-- the second answer to a write -/
  | again (r : Request)
  /-- the contents of a file are to be sent to the worker -/
  | receiving (r : Request)
  | stored (r : Request)

/-- The state of a conversation: the stage, and a bound for the files that the
    client holds. -/
structure Talk where
  stage : Stage
  held : Set CString

/-- The requests of a session: it opens files with `O_LOCK` only. -/
def Request.inSession (r : Request) : Prop :=
  match r.operation with
  | .OP_APPEND_FILE | .OP_CLOSE_FILE | .unknown _ => False
  | .OP_OPEN_FILE => r.flags.has O_LOCK
  | _ => True

/-- The files that a client may hold after it has opened one: without `O_CREATE`
    this fails only if the file does not exist. -/
def opened (flags : Flags) (p : CString) (status : ℤ) (H : Set CString) : Set CString :=
  if status = 0 then insert p H else if flags.has O_CREATE then H else H \ {p}

/-- The files that the client may hold after the answer to a request. -/
def Request.held (r : Request) (status : ℤ) (H : Set CString) : Set CString :=
  match r.operation with
  | .OP_LOCK_FILE => if status = 0 then insert r.filepath H else H
  | .OP_OPEN_FILE => opened r.flags r.filepath status H
  | .OP_UNLOCK_FILE | .OP_DELETE_FILE => H \ {r.filepath}
  | _ => H

/-- No bytes are not sent. -/
def Stage.body (p : CString) (n : ℕ) : Stage := if n = 0 then .between else .fetching p n

def Stage.content (r : Request) : Stage := if r.fileSize = 0 then .stored r else .receiving r

section
variable (genuine : CString → List Byte → Prop) (pid : ℤ) (L : Set CString)

/-- Some contents of the file have the size. -/
def SizeOf (p : CString) (n : ℕ) : Prop := ∃ buf, buf.length = n ∧ genuine p buf

/-- What the client may send. -/
inductive Talk.Up : Talk → ToServer → Talk → Prop
  | request {r H} : r.clientId = pid → r.inSession → (r.asksLock → H ⊆ L) →
      (r.operation = .OP_WRITE_FILE → SizeOf genuine r.filepath r.fileSize) →
      Talk.Up ⟨.between, H⟩ (.request r) ⟨.asked r, H⟩
  | content {r H buf} : buf.length = r.fileSize → buf ≠ [] → genuine r.filepath buf →
      Talk.Up ⟨.receiving r, H⟩ (.bytes buf) ⟨.stored r, H⟩

/-- What the worker may send. -/
inductive Talk.Down : Talk → ToClient → Talk → Prop
  | answer {r H x} : r.operation ≠ .OP_READ_FILE → r.operation ≠ .OP_WRITE_FILE →
      Talk.Down ⟨.asked r, H⟩ (.response x) ⟨.between, r.held x.statusCode H⟩
  | refused {r H x} : r.operation = .OP_READ_FILE ∨ r.operation = .OP_WRITE_FILE → x.statusCode = -1 →
      Talk.Down ⟨.asked r, H⟩ (.response x) ⟨.between, H⟩
  | found {r H x} : r.operation = .OP_READ_FILE → x.statusCode ≠ -1 → SizeOf genuine r.filepath x.fileSize →
      Talk.Down ⟨.asked r, H⟩ (.response x) ⟨.body r.filepath x.fileSize, H⟩
  | ready {r H x} : r.operation = .OP_WRITE_FILE → x.statusCode = 0 →
      Talk.Down ⟨.asked r, H⟩ (.response x) ⟨.content r, H⟩
  | expels {r H x} : r.operation = .OP_WRITE_FILE → x.statusCode = 1 → x.fileSize ≠ 0 →
      SizeOf genuine x.fileName x.fileSize →
      Talk.Down ⟨.asked r, H⟩ (.response x) ⟨.expelling x.fileName x.fileSize r, H⟩
  | body {p n H buf} : buf.length = n → buf ≠ [] → genuine p buf →
      Talk.Down ⟨.fetching p n, H⟩ (.bytes buf) ⟨.between, H⟩
  | expelled {p n r H buf} : buf.length = n → buf ≠ [] → genuine p buf →
      Talk.Down ⟨.expelling p n r, H⟩ (.bytes buf) ⟨.again r, H⟩
  | refusedAgain {r H x} : x.statusCode = -1 → Talk.Down ⟨.again r, H⟩ (.response x) ⟨.between, H⟩
  | readyAgain {r H x} : x.statusCode = 0 → Talk.Down ⟨.again r, H⟩ (.response x) ⟨.content r, H⟩
  | done {r H x} : Talk.Down ⟨.stored r, H⟩ (.response x) ⟨.between, H⟩

/-- The protocol of the client `pid`. -/
def talk : Protocol Talk ToServer ToClient where
  up := Talk.Up genuine pid L
  down := Talk.Down genuine
  turn hu hd := by cases hu <;> cases hd

end

section
variable {genuine : CString → List Byte → Prop} {pid : ℤ} {L : Set CString} {q q' : Talk}

/-- Who sends what between two requests: the client, a request of its own. -/
theorem Talk.Up.between {m : ToServer} (h : Talk.Up genuine pid L q m q') :
    (∃ r, m = .request r ∧ r.clientId = pid) ∨ ∃ r, q.stage = .receiving r := by
  cases h with
  | request hid => exact .inl ⟨_, rfl, hid⟩
  | content => exact .inr ⟨_, rfl⟩

theorem Talk.Up.stage {m : ToServer} (h : Talk.Up genuine pid L q m q') : q'.stage ≠ .between := by
  cases h <;> nofun

theorem Talk.Down.stage {m : ToClient} (h : Talk.Down genuine q m q') : q.stage ≠ .between := by
  cases h <;> nofun

end

/-- What a client's action sends or takes. -/
def clientTells : (a : ClientAct) → a.Ans → Option (Label ToServer ToClient)
  | .write request, ok => if ok then some (.snd (.request request)) else none
  | .readResponse, response => response.map fun response => .rcv (.response response)
  | .writeBytes buf, ok => if ok then some (sends .bytes buf) else none
  | .readData size, x => takes .bytes size x.1
  | .read size, buf => buf.bind fun buf => takes .bytes size buf
  | _, _ => some .tau

/-- The client saves contents with `saves`, and ends between two requests with
    files of `left` only.  `readData` gets what it asks for, and `saveFileDir`
    kills the client unless there is a `/`. -/
def clientManners (saves : CString → List Byte → Prop) (left : Set CString) :
    Manners clientSig Talk Unit where
  need a _ _ := match a with
    | .saveFileDir buf _ fileName => 47 ∈ fileName → saves fileName buf
    | _ => True
  next a r _ _ := match a, r with
    | .readData size, x => x.1.length = size ∧ (size ≠ 0 → x.2 ≠ -1)
    | .saveFileDir _ _ fileName, _ => 47 ∈ fileName
    | _, _ => True
  post q _ := q.stage = .between ∧ q.held ⊆ left

variable {genuine : CString → List Byte → Prop} {pid : ℤ} {L left H : Set CString}
  {saves : CString → List Byte → Prop} {q : Talk} {r : Request} {p : CString} {buf : List Byte} {n : ℕ}

/-- A program of the client keeps to the protocol. -/
abbrev Talks (genuine : CString → List Byte → Prop) (pid : ℤ) (L : Set CString)
    (saves : CString → List Byte → Prop) (left : Set CString) (q : Talk) (p : ClientCode) : Prop :=
  p.Converses (talk genuine pid L) clientTells (clientManners saves left) q ()

/-! ## The actions of a client -/

section
variable {k : ClientCode}

theorem talks_newRequest {k : Request → ClientCode}
    (h : ∀ r, Talks genuine pid L saves left q (k r)) :
    Talks genuine pid L saves left q (.act .newRequest k) :=
  .silent (fun _ _ hl => (Option.some.inj hl).symm) trivial fun r _ _ _ => h r

/-- `saveFileDir`, also where it kills the client. -/
theorem talks_save {dirname : CString} (hs : 47 ∈ p → saves p buf)
    (h : Talks genuine pid L saves left q k) :
    Talks genuine pid L saves left q (.act (.saveFileDir buf dirname p) fun _ => k) :=
  .silent (fun _ _ hl => (Option.some.inj hl).symm) hs fun _ _ _ _ => h

theorem clientTells_write {ok : Bool} {l : Label ToServer ToClient} (hl : clientTells (.write r) ok = some l) :
    ok = true ∧ l = .snd (.request r) := by
  rw [clientTells] at hl
  split_ifs at hl with hok
  exact ⟨hok, (Option.some.inj hl).symm⟩

theorem talks_request {k : Bool → ClientCode} (hid : r.clientId = pid) (hop : r.inSession)
    (hask : r.asksLock → H ⊆ L) (hsize : r.operation = .OP_WRITE_FILE → SizeOf genuine r.filepath r.fileSize)
    (h : Talks genuine pid L saves left ⟨.asked r, H⟩ (k true)) :
    Talks genuine pid L saves left ⟨.between, H⟩ (.act (.write r) k) := by
  refine .sends (fun _ _ hl => (clientTells_write hl).2) ⟨_, .request hid hop hask hsize⟩ trivial
    fun ok q' _ hl hq _ => ?_
  obtain ⟨rfl, -⟩ := clientTells_write hl
  cases hq
  exact h

/-- The client reads a response when only a response may come. -/
theorem talks_response {k : Option Response → ClientCode} (hturn : ∃ m q', Talk.Down genuine q m q')
    (hkind : ∀ m q', Talk.Down genuine q m q' → ∃ x, m = .response x)
    (h : ∀ x q', Talk.Down genuine q (.response x) q' → Talks genuine pid L saves left q' (k (some x))) :
    Talks genuine pid L saves left q (.act .readResponse k) := by
  have htells : ∀ x l, clientTells .readResponse x = some l → ∃ y, x = some y ∧ l = .rcv (.response y) := by
    intro x l hl
    obtain ⟨y, hy, hl⟩ := Option.map_eq_some_iff.1 hl
    exact ⟨y, hy, hl.symm⟩
  refine .reads (fun x l hl => ?_) hturn (fun m q' hm => ?_) trivial fun x m q' _ hl hq _ => ?_
  · obtain ⟨y, -, hl⟩ := htells x l hl
    exact ⟨_, hl⟩
  · obtain ⟨y, rfl⟩ := hkind m q' hm
    exact ⟨some y, rfl⟩
  · obtain ⟨y, rfl, he⟩ := htells x _ hl
    cases he
    exact h y q' hq

/-- The client sends the contents of a file, or nothing. -/
theorem talks_content {k : Bool → ClientCode} (hn : buf.length = r.fileSize) (hg : genuine r.filepath buf)
    (h : Talks genuine pid L saves left ⟨.stored r, H⟩ (k true)) :
    Talks genuine pid L saves left ⟨.content r, H⟩ (.act (.writeBytes buf) k) := by
  have htells : ∀ ok l, clientTells (.writeBytes buf) ok = some l → ok = true ∧ l = sends .bytes buf := by
    intro ok l hl
    rw [clientTells] at hl
    split_ifs at hl with hok
    exact ⟨hok, (Option.some.inj hl).symm⟩
  by_cases h0 : buf.length = 0
  · have hl : sends (I := ToClient) ToServer.bytes buf = .tau := if_pos h0
    have hstage : Stage.content r = .stored r := if_pos (hn.symm.trans h0)
    rw [hstage]
    refine .silent (fun ok l hs => (htells ok l hs).2.trans hl) trivial fun ok _ hs _ => ?_
    obtain ⟨rfl, -⟩ := htells ok _ hs
    exact h
  · have hl : sends (I := ToClient) ToServer.bytes buf = .snd (.bytes buf) := if_neg h0
    have hstage : Stage.content r = .receiving r := if_neg fun he => h0 (hn.trans he)
    rw [hstage]
    refine .sends (fun ok l hs => (htells ok l hs).2.trans hl)
      ⟨_, .content hn (fun he => h0 (he ▸ rfl)) hg⟩ trivial fun ok q' _ hs hq _ => ?_
    obtain ⟨rfl, -⟩ := htells ok _ hs
    cases hq
    exact h

/-- The client reads `n` bytes when only so many may come. -/
theorem talks_bytes {k : List Byte × ℤ → ClientCode} (hn : n ≠ 0) (hturn : ∃ m q', Talk.Down genuine q m q')
    (hkind : ∀ m q', Talk.Down genuine q m q' → ∃ buf, m = .bytes buf ∧ buf.length = n)
    (h : ∀ x q', Talk.Down genuine q (.bytes x.1) q' → x.2 ≠ -1 → Talks genuine pid L saves left q' (k x)) :
    Talks genuine pid L saves left q (.act (.readData n) k) := by
  have htells : ∀ (x : List Byte × ℤ) l, clientTells (.readData n) x = some l → l = .rcv (.bytes x.1) := by
    intro x l hl
    rw [clientTells, takes, if_neg hn] at hl
    split_ifs at hl
    exact (Option.some.inj hl).symm
  refine .reads (fun x l hl => ⟨_, htells x l hl⟩) hturn (fun m q' hm => ?_) trivial fun x m q' _ hl hq hx => ?_
  · obtain ⟨buf, rfl, hlen⟩ := hkind m q' hm
    exact ⟨(buf, 0), by rw [clientTells, takes_self hlen, if_neg hn]⟩
  · cases htells x _ hl
    exact h x q' hq (hx.2 hn)

/-- Reading no bytes is silent. -/
theorem talks_noBytes {k : List Byte × ℤ → ClientCode}
    (h : ∀ z, Talks genuine pid L saves left q (k ([], z))) :
    Talks genuine pid L saves left q (.act (.readData 0) k) := by
  refine .silent (fun _ _ hl => (Option.some.inj hl).symm) trivial fun x _ _ hx => ?_
  have hnil : x.1 = [] := List.length_eq_zero_iff.1 hx.1
  rw [show x = ([], x.2) from Prod.ext hnil rfl]
  exact h x.2

end

/-! ## The functions of the client -/

section
variable {k : ℤ → ClientCode}

/-- The client gets the contents of a file. -/
theorem talks_body {k : List Byte × ℤ → ClientCode} (hnil : ∀ p, genuine p [])
    (hsize : SizeOf genuine p n) (hk : ∀ z buf, genuine p buf →
      Talks genuine pid L saves left ⟨.between, H⟩ (k (buf, z))) :
    Talks genuine pid L saves left ⟨.body p n, H⟩ (.act (.readData n) k) := by
  by_cases h0 : n = 0
  · rw [h0]
    exact talks_noBytes fun z => hk z [] (hnil p)
  · have hstage : Stage.body p n = .fetching p n := if_neg h0
    obtain ⟨buf, hlen, hg⟩ := hsize
    have hne : buf ≠ [] := fun he => h0 (by rw [← hlen, he]; rfl)
    rw [hstage]
    refine talks_bytes h0 ⟨_, _, .body hlen hne hg⟩ (fun m q' hm => ?_) fun x q' hx _ => ?_
    · cases hm with
      | body hlen => exact ⟨_, rfl, hlen⟩
    · cases hx with
      | body _ _ hg => exact hk x.2 x.1 hg

theorem talks_openFile {flags : Flags} (hlock : flags.has O_LOCK) (hH : H ⊆ L)
    (hk : ∀ status, Talks genuine pid L saves left ⟨.between, opened flags p status H⟩ (k status)) :
    Talks genuine pid L saves left ⟨.between, H⟩ (openFile pid p flags k) := by
  refine talks_newRequest fun r => talks_request rfl hlock (fun _ => hH) nofun ?_
  refine talks_response ⟨.response (respond 0 []), _, .answer nofun nofun⟩ (fun m q' hm => ?_)
    fun x q' hx => ?_
  · cases hm <;> exact ⟨_, rfl⟩
  · cases hx with
    | answer => exact hk _
    | refused hop => exact absurd hop (by simp)
    | found hop | ready hop | expels hop => cases hop

theorem talks_sendPath {op : Operation} (hop : op = .OP_LOCK_FILE ∨ op = .OP_UNLOCK_FILE ∨ op = .OP_DELETE_FILE)
    (hH : op = .OP_LOCK_FILE → H ⊆ L)
    (hk : ∀ status res (r : Request), r.operation = op → r.filepath = p →
      Talks genuine pid L saves left ⟨.between, r.held status H⟩ (k res)) :
    Talks genuine pid L saves left ⟨.between, H⟩ (sendPath op pid (some p) k) := by
  have hread : op ≠ .OP_READ_FILE := by rcases hop with rfl | rfl | rfl <;> nofun
  have hwrite : op ≠ .OP_WRITE_FILE := by rcases hop with rfl | rfl | rfl <;> nofun
  refine talks_newRequest fun r => talks_request rfl ?_ (fun hask => ?_) (fun ho => absurd ho hwrite) ?_
  · rcases hop with rfl | rfl | rfl <;> trivial
  · rcases hask with hl | ⟨ho, -⟩
    · exact hH hl
    · change op = _ at ho
      rcases hop with rfl | rfl | rfl <;> cases ho
  · refine talks_response ⟨.response (respond 0 []), _, .answer hread hwrite⟩ (fun m q' hm => ?_)
      fun x q' hx => ?_
    · cases hm <;> exact ⟨_, rfl⟩
    · cases hx with
      | answer => exact hk _ _ _ rfl rfl
      | refused ho => exact absurd ho (not_or.2 ⟨hread, hwrite⟩)
      | found ho => exact absurd ho hread
      | ready ho | expels ho => exact absurd ho hwrite

theorem talks_lockFile (hH : H ⊆ L)
    (hk : ∀ H' res, H' ⊆ insert p H → Talks genuine pid L saves left ⟨.between, H'⟩ (k res)) :
    Talks genuine pid L saves left ⟨.between, H⟩ (lockFile pid (some p) k) := by
  refine talks_sendPath (.inl rfl) (fun _ => hH) fun status res r hop hp => hk _ res ?_
  rw [Request.held, hop, hp]
  dsimp only
  split_ifs
  · exact subset_rfl
  · exact Set.subset_insert _ _

theorem talks_unlockFile (hk : ∀ res, Talks genuine pid L saves left ⟨.between, H \ {p}⟩ (k res)) :
    Talks genuine pid L saves left ⟨.between, H⟩ (unlockFile pid (some p) k) := by
  refine talks_sendPath (.inr (.inl rfl)) nofun fun status res r hop hp => ?_
  rw [Request.held, hop, hp]
  exact hk res

theorem talks_removeFile (hk : ∀ res, Talks genuine pid L saves left ⟨.between, H \ {p}⟩ (k res)) :
    Talks genuine pid L saves left ⟨.between, H⟩ (removeFile pid (some p) k) := by
  refine talks_sendPath (.inr (.inr rfl)) nofun fun status res r hop hp => ?_
  rw [Request.held, hop, hp]
  exact hk res

/-- The contents read are genuine. -/
theorem talks_readFile {k : ℤ → List Byte → ClientCode} (hnil : ∀ p, genuine p [])
    (hk : ∀ res buf, (res ≠ -1 → genuine p buf) →
      Talks genuine pid L saves left ⟨.between, H⟩ (k res buf)) :
    Talks genuine pid L saves left ⟨.between, H⟩ (readFile pid p k) := by
  refine talks_newRequest fun r => talks_request rfl trivial (fun hask => ?_) nofun ?_
  · rcases hask with hl | ⟨ho, -⟩
    · cases hl
    · cases ho
  · refine talks_response ⟨.response (respond (-1) []), _, .refused (.inl rfl) rfl⟩ (fun m q' hm => ?_)
      fun x q' hx => ?_
    · cases hm <;> exact ⟨_, rfl⟩
    · cases hx with
      | answer ho => exact absurd rfl ho
      | refused _ hx =>
        show Talks _ _ _ _ _ _ (if x.statusCode = -1 then _ else _)
        rw [if_pos hx]
        exact hk _ _ fun h => absurd rfl h
      | found _ hx hsize =>
        show Talks _ _ _ _ _ _ (if x.statusCode = -1 then _ else _)
        rw [if_neg hx]
        refine talks_body hnil hsize fun z buf hg => ?_
        show Talks _ _ _ _ _ _ (if z ≠ -1 then _ else _)
        split_ifs
        · exact hk _ _ fun _ => hg
        · exact hk _ _ fun h => absurd rfl h
      | ready ho | expels ho => cases ho

/-- The client sends the contents if the worker is ready, and gets its answer. -/
theorem talks_sendContent {content : List Byte} {x : Response} (hn : content.length = r.fileSize)
    (hg : genuine r.filepath content)
    (hq : x.statusCode = -1 ∧ q = ⟨.between, H⟩ ∨ x.statusCode = 0 ∧ q = ⟨.content r, H⟩)
    (hk : ∀ res, Talks genuine pid L saves left ⟨.between, H⟩ (k res)) :
    Talks genuine pid L saves left q (sendContent content x k) := by
  unfold sendContent
  obtain ⟨hx, rfl⟩ | ⟨hx, rfl⟩ := hq
  · rw [if_pos hx]
    exact hk _
  · rw [if_neg (by rw [hx]; decide)]
    refine talks_content hn hg (talks_response ⟨.response x, _, .done⟩ (fun m q' hm => ?_) fun y q' hy => ?_)
    · cases hm with
      | done => exact ⟨_, rfl⟩
    · cases hy with
      | done => exact hk _

theorem talks_saveExpelled {dirname : Option CString} {k : ClientCode} (hs : 47 ∈ p → saves p buf)
    (hk : Talks genuine pid L saves left q k) :
    Talks genuine pid L saves left q (saveExpelled buf dirname p k) := by
  cases dirname with
  | none => exact hk
  | some dirname => exact talks_save hs hk

theorem talks_writeFile {disk : CString → Option LocalFile} {dirname : Option CString}
    (hdisk : ∀ file, disk p = some file → genuine p file.buffer)
    (hsaves : ∀ p buf, genuine p buf → saves p buf)
    (hk : ∀ res, Talks genuine pid L saves left ⟨.between, H⟩ (k res)) :
    Talks genuine pid L saves left ⟨.between, H⟩ (writeFile pid disk (some p) dirname k) := by
  unfold writeFile
  dsimp only
  cases hp : disk p with
  | none => exact hk _
  | some file =>
    have hg := hdisk file hp
    refine talks_newRequest fun r => talks_request rfl trivial (fun hask => ?_)
      (fun _ => ⟨file.buffer, file.length_buffer, hg⟩) ?_
    · rcases hask with hl | ⟨ho, -⟩
      · cases hl
      · cases ho
    · refine talks_response ⟨.response (respond (-1) []), _, .refused (.inr rfl) rfl⟩ (fun m q' hm => ?_)
        fun x q' hx => ?_
      · cases hm <;> exact ⟨_, rfl⟩
      · show Talks _ _ _ _ _ _ (if x.statusCode = 1 then _ else _)
        cases hx with
        | answer _ ho => exact absurd rfl ho
        | found ho => cases ho
        | refused _ hx =>
          rw [if_neg (by rw [hx]; decide)]
          exact talks_sendContent (r := ⟨pid, .OP_WRITE_FILE, p, r.flags, file.size⟩)
            file.length_buffer hg (.inl ⟨hx, rfl⟩) hk
        | ready _ hx =>
          rw [if_neg (by rw [hx]; decide)]
          exact talks_sendContent file.length_buffer hg (.inr ⟨hx, rfl⟩) hk
        | expels _ hx hne hsize =>
          -- the expelled file, and the second answer
          obtain ⟨buf, hlen, hgb⟩ := hsize
          have hbuf : buf ≠ [] := fun he => hne (by rw [← hlen, he]; rfl)
          rw [if_pos hx]
          refine talks_bytes hne ⟨_, _, .expelled hlen hbuf hgb⟩ (fun m q' hm => ?_) fun y q' hy hy2 => ?_
          · cases hm with
            | expelled hlen => exact ⟨_, rfl, hlen⟩
          · show Talks _ _ _ _ _ _ (if y.2 = -1 then _ else _)
            rw [if_neg hy2]
            cases hy with
            | expelled _ _ hgy =>
              refine talks_saveExpelled (fun _ => hsaves _ _ hgy) (talks_response
                ⟨.response (respond (-1) []), _, .refusedAgain rfl⟩ (fun m q' hm => ?_) fun z q' hz => ?_)
              · cases hm <;> exact ⟨_, rfl⟩
              · cases hz with
                | refusedAgain hz =>
                  exact talks_sendContent (r := ⟨pid, .OP_WRITE_FILE, p, r.flags, file.size⟩)
                    file.length_buffer hg (.inl ⟨hz, rfl⟩) hk
                | readyAgain hz => exact talks_sendContent file.length_buffer hg (.inr ⟨hz, rfl⟩) hk

theorem talks_readTokens {dirname : CString} {k : ClientCode} {tokens : List CString}
    (hnil : ∀ p, genuine p []) (hsaves : ∀ p buf, genuine p buf → saves p buf)
    (hk : Talks genuine pid L saves left ⟨.between, H⟩ k) :
    Talks genuine pid L saves left ⟨.between, H⟩ (readTokens pid dirname k tokens) := by
  induction tokens with
  | nil => exact hk
  | cons token tokens ih =>
    refine talks_readFile hnil fun res buf hg => ?_
    split_ifs with hres
    · exact talks_save (fun _ => hsaves _ _ (hg hres)) ih
    · exact ih

theorem talks_readNFiles {N : ℤ} {dirname : Option CString} (hnil : ∀ p, genuine p [])
    (hsaves : ∀ p buf, genuine p buf → saves p buf)
    (hk : ∀ res, Talks genuine pid L saves left ⟨.between, H⟩ (k res)) :
    Talks genuine pid L saves left ⟨.between, H⟩ (readNFiles pid N dirname k) := by
  cases dirname with
  | none => exact hk _
  | some dirname =>
    refine talks_newRequest fun r => talks_request rfl trivial (fun hask => ?_) nofun ?_
    · rcases hask with hl | ⟨ho, -⟩
      · cases hl
      · cases ho
    · refine talks_response ⟨.response (respond 0 []), _, .answer nofun nofun⟩ (fun m q' hm => ?_)
        fun x q' hx => ?_
      · cases hm <;> exact ⟨_, rfl⟩
      · cases hx with
        | answer =>
          show Talks _ _ _ _ _ _ (if x.statusCode = -1 then _ else _)
          split_ifs
          · exact hk _
          · exact talks_readTokens hnil hsaves (hk _)
        | refused ho => exact absurd ho (by simp)
        | found ho | ready ho | expels ho => cases ho

end

/-! ## Sessions -/

/-- Nothing, or what some client reads from its local file, at some time: the
    contents of the file, cut off at the size that it had when the client asked for
    it, or with zeros up to this size. -/
def Genuine {W : Type} (hosts : W → Host) (p : CString) (buf : List Byte) : Prop :=
  buf = [] ∨ ∃ w clock file, (hosts w).disk clock p = some file ∧ file.buffer = buf

/-- If the files do not change while they are sent, these are their contents. -/
theorem genuine_steady {W : Type} {hosts : W → Host} {p : CString} {buf : List Byte}
    (h : ∀ w clock p file, (hosts w).disk clock p = some file → ∃ contents, file = .steady contents) :
    Genuine hosts p buf ↔ buf = [] ∨ ∃ w clock, (hosts w).disk clock p = some (.steady buf) := by
  refine or_congr_right ⟨?_, ?_⟩
  · rintro ⟨w, clock, file, hf, rfl⟩
    obtain ⟨contents, rfl⟩ := h w clock p file hf
    exact ⟨w, clock, by rw [LocalFile.buffer_steady, hf]⟩
  · rintro ⟨w, clock, hf⟩
    exact ⟨w, clock, _, hf, LocalFile.buffer_steady buf⟩

/-- The contents belong to the file of this name, or to that which `realpath`
    makes of it. -/
def Host.Saves (host : Host) (genuine : CString → List Byte → Prop) (name : CString) (buf : List Byte) :
    Prop := ∃ p, (p = name ∨ ∃ clock old, p = host.realpath clock name old) ∧ genuine p buf

/-- The file that `-r` reads is the one whose name it takes for the copy. -/
def Job.Proper (host : Host) : Job → Prop
  | .fetch abspath token _ => ∃ clock old, abspath = host.realpath clock token old
  | _ => True

/-- The jobs of a loop. -/
theorem mem_eachToken {host : Host} {job : Vars → CString → Job} {tokens : List CString} {v : Vars} {j : Job}
    (h : j ∈ (eachToken host job v tokens).1) :
    ∃ (v : Vars) (token : CString), j = job (v.resolve host token) token := by
  induction tokens generalizing v with
  | nil => cases h
  | cons token tokens ih =>
    rcases List.mem_cons.1 h with rfl | h
    · exact ⟨v, token, rfl⟩
    · exact ih h

theorem Opt.jobs_proper {host : Host} {v v' : Vars} {opt : Opt} {js : List Job}
    (h : opt.jobs host v = some (js, v')) : ∀ j ∈ js, j.Proper host := by
  have hloop : ∀ {job : Vars → CString → Job} {tokens}, eachToken host job v tokens = (js, v') →
      (∀ (v : Vars) token, (job (v.resolve host token) token).Proper host) → ∀ j ∈ js, j.Proper host := by
    intro job tokens he hjob j hj
    obtain ⟨v, token, rfl⟩ := mem_eachToken (show j ∈ (eachToken host job v tokens).1 by rw [he]; exact hj)
    exact hjob v token
  cases opt with
  | h => cases h
  | w optarg =>
    simp only [Opt.jobs] at h
    cases hf : fileNames host v (strtok optarg) with
    | none =>
      rw [hf] at h
      cases h
      simp [Job.Proper]
    | some tokens =>
      rw [hf] at h
      exact hloop (Option.some.inj h) fun _ _ => trivial
  | W | l | u | c => exact hloop (Option.some.inj h) fun _ _ => trivial
  | r => exact hloop (Option.some.inj h) fun v token => ⟨_, _, rfl⟩
  | t optarg =>
    simp only [Opt.jobs] at h
    split_ifs at h
    cases h
    simp
  | D | d | p | unknown => cases h; simp
  | R => cases h; simp [Job.Proper]

theorem jobs_proper {host : Host} {v : Vars} {opts : List Opt} : ∀ j ∈ jobs host v opts, j.Proper host := by
  induction opts generalizing v with
  | nil => exact fun j hj => absurd hj List.not_mem_nil
  | cons opt opts ih =>
    rw [jobs]
    cases h : opt.jobs host v with
    | none => exact fun j hj => absurd hj List.not_mem_nil
    | some x => exact List.forall_mem_append.2 ⟨Opt.jobs_proper h, ih⟩

section
variable {host : Host} {k : ClientCode} {held : List CString} {j : Job} {status : ℤ} {flags : Flags}

theorem opened_subset : opened flags p status H ⊆ insert p H := by
  unfold opened
  split_ifs
  · exact subset_rfl
  · exact Set.subset_insert _ _
  · exact Set.sdiff_subset.trans (Set.subset_insert _ _)

theorem opened_fails (h : status ≠ 0) : opened flags p status H ⊆ H := by
  rw [opened, if_neg h]
  split_ifs
  · exact subset_rfl
  · exact Set.sdiff_subset

theorem talks_killed : Talks genuine pid L saves left q killed :=
  .silent (fun _ _ hl => (Option.some.inj hl).symm) (fun h => absurd h List.not_mem_nil) fun _ _ _ h =>
    absurd h List.not_mem_nil

/-- The files of a list. -/
abbrev files (held : List CString) : Set CString := {p | p ∈ held}

theorem files_filter : files (held.filter (· ≠ p)) = files held \ {p} := by
  ext p'
  simp [files]

/-- **A job keeps to the protocol**, and leaves the client with files of `j.left`. -/
theorem talks_job (hnil : ∀ p, genuine p [])
    (hdisk : ∀ clock p file, host.disk clock p = some file → genuine p file.buffer)
    (hj : j.Proper host) (hH : H ⊆ files held) (hL : files held ⊆ L)
    (hk : ∀ H', H' ⊆ files (j.left held) →
      Talks genuine host.pid L (host.Saves genuine) left ⟨.between, H'⟩ k) :
    Talks genuine host.pid L (host.Saves genuine) left ⟨.between, H⟩ (j.code host k) := by
  have hsaves : ∀ p buf, genuine p buf → host.Saves genuine p buf := fun p buf hg => ⟨p, .inl rfl, hg⟩
  have hgone : ∀ {p H'}, H' ⊆ insert p H → H' \ {p} ⊆ files held \ {p} := by
    intro p H' hH'
    refine (Set.sdiff_subset_sdiff_left hH').trans ?_
    rw [Set.insert_sdiff_of_mem _ (Set.mem_singleton p)]
    exact Set.sdiff_subset_sdiff_left hH
  cases j with
  | upload clock abspath expFileDir =>
    rw [Job.code]
    refine talks_openFile (by decide) (hH.trans hL) fun status => ?_
    by_cases hst : status ≠ -1
    · rw [if_pos hst]
      refine talks_writeFile (hdisk clock abspath) hsaves fun _ => talks_unlockFile fun _ => hk _ ?_
      exact (hgone opened_subset).trans Set.sdiff_subset
    · rw [if_neg hst]
      exact hk _ ((opened_fails fun h0 => hst (by rw [h0]; decide)).trans hH)
  | fetch abspath token destFolder =>
    rw [Job.left, files_filter] at hk
    rw [Job.code]
    refine talks_openFile (by decide) (hH.trans hL) fun status => ?_
    by_cases hst : status ≠ -1
    · rw [if_pos hst]
      refine talks_readFile hnil fun res buf hg => ?_
      have hopened : opened O_LOCK abspath status H ⊆ insert abspath H := opened_subset
      have hunlock := fun (_ : ℤ) => hk _ (hgone hopened)
      split_ifs with hres
      · cases destFolder with
        | none => exact talks_killed
        | some dirname =>
          obtain ⟨clock, old, rfl⟩ := hj
          exact talks_save (fun _ => ⟨_, .inr ⟨clock, old, rfl⟩, hg hres⟩) (talks_unlockFile hunlock)
      · exact talks_unlockFile hunlock
    · rw [if_neg hst]
      have hopen : opened O_LOCK abspath status H = H \ {abspath} :=
        if_neg fun h0 => hst (by rw [h0]; decide)
      rw [hopen]
      exact hk _ (hgone (Set.subset_insert _ _))
  | readN N destFolder => exact talks_readNFiles hnil hsaves fun _ => hk _ hH
  | lock abspath =>
    refine talks_lockFile (hH.trans hL) fun H' _ hH' => hk _ fun p hp => List.mem_cons.2 ?_
    exact (Set.mem_insert_iff.1 (hH' hp)).imp id fun h => hH h
  | unlock abspath =>
    rw [Job.left, files_filter] at hk
    exact talks_unlockFile fun _ => hk _ (hgone (Set.subset_insert _ _))
  | remove abspath =>
    rw [Job.left, files_filter] at hk
    rw [Job.code]
    exact talks_lockFile (hH.trans hL) fun H' _ hH' => talks_removeFile fun _ => hk _ (hgone hH')
  | killed => exact talks_killed

/-- Jobs that lock files of `L` only. -/
theorem talks_jobs (hnil : ∀ p, genuine p [])
    (hdisk : ∀ clock p file, host.disk clock p = some file → genuine p file.buffer) {js : List Job}
    (hproper : ∀ j ∈ js, j.Proper host) (hlock : ∀ p, .lock p ∈ js → p ∈ L) (hH : H ⊆ files held)
    (hL : files held ⊆ L) :
    Talks genuine host.pid L (host.Saves genuine) (files (js.foldl Job.left held)) ⟨.between, H⟩
      (js.foldr (fun j k => j.code host k) .ret) := by
  induction js generalizing held H with
  | nil => exact ⟨rfl, hH⟩
  | cons j js ih =>
    obtain ⟨hj, hproper⟩ := List.forall_mem_cons.1 hproper
    refine talks_job hnil hdisk hj hH hL fun H' hH' => ih hproper
      (fun p hp => hlock p (List.mem_cons_of_mem _ hp)) hH' fun p hp => ?_
    cases j with
    | lock p' =>
      rcases List.mem_cons.1 hp with rfl | hp
      · exact hlock p List.mem_cons_self
      · exact hL hp
    | fetch | unlock | remove => exact hL (List.mem_of_mem_filter hp)
    | upload | readN | killed => exact hL hp

/-- **A session keeps to the protocol.**  It asks for locks only while it holds
    files of its options `-l`, and ends with files of `locksLeft`. -/
theorem talks_session (hnil : ∀ p, genuine p [])
    (hdisk : ∀ clock p file, host.disk clock p = some file → genuine p file.buffer) (opts : List Opt) :
    Talks genuine host.pid (files (lockedBy host opts)) (host.Saves genuine)
      (files (locksLeft host opts)) ⟨.between, ∅⟩ (session host opts) :=
  talks_jobs hnil hdisk jobs_proper (fun _ hp => List.mem_filterMap.2 ⟨_, hp, rfl⟩) (Set.empty_subset _)
    fun _ hp => absurd hp List.not_mem_nil

end

end FileStorage
