/-
  The log file, written by `logRequest` of `logger.c`.

  A call of `logRequest` writes its line with several `fprintf`, and takes no
  mutex for them; some controllers call it before they take
  `file_queue_mutex`.  Here the controllers are executed with these calls, each
  `fprintf` an atomic append.  `unmixed` says when the log file consists of
  whole lines: if no call writes its date while another one is in the middle
  of its line.
-/
import FileStorage.Locking
import FileStorage.Threads.Expand
import Mathlib.Data.List.Permutation

namespace FileStorage

open Threads Prog

namespace Logger

/-! ## The lines -/

/-- The header written by `loggerInit`. -/
def header : CString :=
  str "datetime,client-id,thread-id,operation,file-target,read-byte,write-byte,replaced-file,connections\n"

/-- The conversions `%d` and `%lu`. -/
def decimal (x : ℤ) : CString :=
  (if x < 0 then str "-" else []) ++ (Nat.toDigits 10 x.natAbs).map fun c => UInt8.ofNat c.toNat

/-- The names of the operations in the log, none for an unknown one. -/
def operationName (request : Request) : Option CString :=
  match request.operation with
  | .OP_OPEN_FILE => some (if request.flags.has O_LOCK then str "OPEN_FILE_LOCK" else str "OPEN_FILE")
  | .OP_WRITE_FILE => some (str "WRITE_FILE")
  | .OP_READ_FILE => some (str "READ_FILE")
  | .OP_DELETE_FILE => some (str "DELETE_FILE")
  | .OP_APPEND_FILE => some (str "APPEND_FILE")
  | .OP_CLOSE_FILE => some (str "CLOSE_FILE")
  | .OP_LOCK_FILE => some (str "LOCK_FILE")
  | .OP_UNLOCK_FILE => some (str "UNLOCK_FILE")
  | .OP_READ_N_FILES => some (str "READ_N_FILES")
  | .unknown _ => none

/-- A call of `logRequest`, with the formatted time and the id of the thread. -/
structure LogCall where
  time : CString
  self : ℕ
  record : LogRecord
  deriving DecidableEq, Repr

/-- The successive `fprintf` of a call. -/
inductive Piece where
  | dateTime
  | operation
  | fields
  | replacedFile
  | connections
  deriving DecidableEq, Repr

/-- The text of a piece; `n` is the number of connections. -/
def LogCall.text (l : LogCall) (n : ℤ) : Piece → CString
  | .dateTime => l.time
  | .operation => match operationName l.record.request with
    | some name => str "," ++ name ++ str ","
    | none => []
  | .fields => decimal l.record.request.clientId ++ str "," ++ decimal l.self ++ str "," ++
      l.record.request.filepath ++ str "," ++ decimal l.record.readByte ++ str "," ++
      decimal l.record.writeByte
  | .replacedFile => str "," ++ l.record.replacedFile.getD (str "null")
  | .connections => str "," ++ decimal n ++ str "\n"

/-- The text before a piece. -/
def LogCall.before (l : LogCall) : Piece → CString
  | .dateTime => []
  | .operation => l.text 0 .dateTime
  | .fields => l.text 0 .dateTime ++ l.text 0 .operation
  | .replacedFile => l.text 0 .dateTime ++ l.text 0 .operation ++ l.text 0 .fields
  | .connections =>
    l.text 0 .dateTime ++ l.text 0 .operation ++ l.text 0 .fields ++ l.text 0 .replacedFile

/-- The line of a call. -/
def LogCall.line (l : LogCall) (n : ℤ) : CString := l.before .connections ++ l.text n .connections

/-! ## The programs -/

inductive Act where
  /-- any other action of a controller -/
  | act (a : FileStorage.Act)
  /-- `strftime` of the current time -/
  | strftime
  | fprintf (l : LogCall) (p : Piece)
  deriving DecidableEq

@[reducible] def Act.Ans : Act → Type
  | .act a => a.Ans
  | .strftime => CString
  | .fprintf _ _ => Unit

abbrev sig : Sig := ⟨Act, Act.Ans, Mutex, Cond⟩

abbrev Code : Type := Prog sig

structure State where
  server : Server
  logFile : CString
  /-- the calls that have written their lines, with the number of connections -/
  written : List (LogCall × ℤ)

def State.init : State := ⟨Server.init, header, []⟩

structure Env extends FileStorage.Env where
  time : CString
  /-- the result of `getNumConnections` -/
  connections : ℤ

def exec (cfg : Config) : Exec sig State Env
  | .act a, e, s => (FileStorage.exec cfg a e.toEnv s.server).map fun x =>
      (x.1, { s with server := x.2 })
  | .strftime, e, s => some (e.time, s)
  | .fprintf l p, e, s => some ((), { s with
      logFile := s.logFile ++ l.text e.connections p
      written := if p = .connections then s.written ++ [(l, e.connections)] else s.written })

def logRequest (self : ℕ) (record : LogRecord) (k : Code) : Code :=
  .act .strftime fun time : CString =>
  .act (.fprintf ⟨time, self, record⟩ .dateTime) fun _ =>
  let rest : Code :=
    .act (.fprintf ⟨time, self, record⟩ .fields) fun _ =>
    .act (.fprintf ⟨time, self, record⟩ .replacedFile) fun _ =>
    .act (.fprintf ⟨time, self, record⟩ .connections) fun _ => k
  if (operationName record.request).isSome then
    .act (.fprintf ⟨time, self, record⟩ .operation) fun _ => rest
  else rest

/-- The controllers with their calls of `logRequest`. -/
def logging (self : ℕ) : (a : FileStorage.Act) → (a.Ans → Code) → Code
  | .log record, k => logRequest self record (k ())
  | a, k => .act (.act a) k

def into : Into workerSig sig := ⟨.act, fun _ r => r, id, id⟩

/-- A worker serves a request; `self` are the ids of the threads. -/
def body {W : Type} (cfg : Config) (self : W → ℕ) (l : W × Request) : Code :=
  expand into (logging (self l.1)) .ret (controller cfg l.2)

/-- A worker serves its own requests. -/
def plays {W : Type} [DecidableEq W] (w : W) : Ev sig (W × Request) → Bool
  | .start l => l.1 = w
  | _ => true

variable {cfg : Config} {W : Type} {c c' : Conf sig State (W × Request) W} {self : W → ℕ}

/-! ## Whole lines -/

/-- The call whose line has been begun, with its next piece. -/
def midLine : Option Act → Option (LogCall × Piece)
  | some (.fprintf l p) => if p = .dateTime then none else some (l, p)
  | _ => none

/-- The call that the thread is in the middle of. -/
def inLine (t : Thread sig (W × Request)) : Option (LogCall × Piece) := midLine t.upcoming

/-- The lines of calls. -/
def lines (ls : List (LogCall × ℤ)) : CString := ls.flatMap fun x => x.1.line x.2

/-- When no call is in the middle of its line, the log file is the header and
    the lines of the calls, each one as a whole. -/
def Unmixed (c : Conf sig State (W × Request) W) : Prop :=
  (∀ w, inLine (c.thr w) = none) →
    ∃ ls, ls.Perm c.st.written ∧ c.st.logFile = header ++ lines ls

/-- A call writes its date only when no other one is in the middle of its line. -/
def WritesAlone (c : Conf sig State (W × Request) W) : Ev sig (W × Request) → Prop
  | .did (.fprintf _ .dateTime) _ => ∀ w, inLine (c.thr w) = none
  | _ => True

/-- What follows an action: after a piece comes the next one. -/
def Follows : (a : Act) → (a.Ans → Code) → Prop
  | .fprintf l p, k => if p = .connections then midLine (k ()).upcoming = none
      else ∃ p', midLine (k ()).upcoming = some (l, p') ∧ l.before p' = l.before p ++ l.text 0 p
  | _, k => ∀ r, midLine (k r).upcoming = none

/-- The workers wait in a loop around a call on the store. -/
def CallLoop (a : Act) (_ : a.Ans → Bool) (_ : List Mutex) (_ : Cond) (_ : Mutex) : Prop :=
  ∃ x, a = .act (.call x)

/-- The program follows the pieces, and does not begin in the middle of a line. -/
def Lined (p : Code) : Prop := p.Shaped Follows CallLoop ∧ midLine p.upcoming = none

theorem logRequest_lined {n : ℕ} {record : LogRecord} {k : Code} (hk : Lined k) :
    Lined (logRequest n record k) := by
  refine ⟨⟨fun _ => rfl, fun time => ?_⟩, rfl⟩
  -- the pieces from the fields on
  have hrest : Shaped (S := sig) Follows CallLoop (.act (.fprintf ⟨time, n, record⟩ .fields) fun _ =>
      .act (.fprintf ⟨time, n, record⟩ .replacedFile) fun _ =>
      .act (.fprintf ⟨time, n, record⟩ .connections) fun _ => k) :=
    ⟨⟨.replacedFile, rfl, rfl⟩, fun _ => ⟨⟨.connections, rfl, rfl⟩, fun _ => ⟨hk.2, fun _ => hk.1⟩⟩⟩
  cases hop : operationName record.request with
  | none =>
    refine ⟨⟨.fields, rfl, ?_⟩, fun _ => hrest⟩
    simp [LogCall.before, LogCall.text, hop]
  | some name => exact ⟨⟨.operation, rfl, rfl⟩, fun _ => ⟨⟨.fields, rfl, rfl⟩, fun _ => hrest⟩⟩

theorem body_lined (l : W × Request) : Lined (body cfg self l) := by
  refine expand_ind (controller_shaped l.2) ⟨trivial, rfl⟩ ?_ ?_ ?_ ?_ ?_ ?_
  · intro a k k' _ hk
    cases a with
    | log record => exact logRequest_lined (hk ())
    | _ => exact ⟨⟨fun r => (hk r).2, fun r => (hk r).1⟩, rfl⟩
  · exact fun _ _ hk => hk
  · exact fun _ _ hk => hk
  · exact fun _ _ hk => hk
  · exact fun _ _ hk => hk
  · intro a b us cd m k hP hk
    have hcall : ∃ x, a = .call x := by cases hP <;> exact ⟨_, rfl⟩
    obtain ⟨x, rfl⟩ := hcall
    exact ⟨⟨⟨x, rfl⟩, fun r => (hk r).2, fun r => (hk r).1⟩, rfl⟩

/-- At most one call is in the middle of its line, and the log file ends with
    what it has written. -/
structure OneLine (c : Conf sig State (W × Request) W) : Prop where
  one : ∀ u v, (inLine (c.thr u)).isSome → (inLine (c.thr v)).isSome → u = v
  none : (∀ w, inLine (c.thr w) = none) → c.st.logFile = header ++ lines c.st.written
  some : ∀ w l p, inLine (c.thr w) = some (l, p) →
    c.st.logFile = header ++ lines c.st.written ++ l.before p

theorem oneLine_congr (hi : OneLine c) (hall : ∀ w, inLine (c'.thr w) = inLine (c.thr w))
    (h1 : c'.st.logFile = c.st.logFile) (h2 : c'.st.written = c.st.written) : OneLine c' := by
  constructor
  · simp only [hall]
    exact hi.one
  · simp only [hall, h1, h2]
    exact hi.none
  · simp only [hall, h1, h2]
    exact hi.some

/-- Only `w` may be in the middle of its line. -/
theorem oneLine_of_only {w : W} (hn : ∀ u, u ≠ w → inLine (c.thr u) = none)
    (h1 : inLine (c.thr w) = none → c.st.logFile = header ++ lines c.st.written)
    (h2 : ∀ l p, inLine (c.thr w) = some (l, p) →
      c.st.logFile = header ++ lines c.st.written ++ l.before p) : OneLine c := by
  have hw : ∀ u, (inLine (c.thr u)).isSome → u = w := fun u hu => by
    by_contra hne
    rw [hn u hne] at hu
    cases hu
  constructor
  · intro u v hu hv
    rw [hw u hu, hw v hv]
  · exact fun hall => h1 (hall w)
  · intro u l p hu
    obtain rfl := hw u (by rw [hu]; rfl)
    exact h2 l p hu

/-- Before a worker writes a piece the others are in no line, and the log file
    ends with the pieces before. -/
theorem oneLine_before (hi : OneLine c) {w : W} {l : LogCall} {p : Piece}
    (hup : (c.thr w).upcoming = some (.fprintf l p))
    (ha : p = .dateTime → ∀ u, inLine (c.thr u) = none) :
    (∀ u, u ≠ w → inLine (c.thr u) = none) ∧
      c.st.logFile = header ++ lines c.st.written ++ l.before p := by
  by_cases hp : p = .dateTime
  · refine ⟨fun u _ => ha hp u, ?_⟩
    rw [hi.none (ha hp), hp, LogCall.before, List.append_nil]
  · have hw : inLine (c.thr w) = some (l, p) := by rw [inLine, hup, midLine, if_neg hp]
    refine ⟨fun u hu => ?_, hi.some w l p hw⟩
    by_contra hne
    exact hu (hi.one u w (Option.ne_none_iff_isSome.1 hne) (by rw [hw]; rfl))

section
variable [DecidableEq W] {w : W} {ev : Ev sig (W × Request)}

/-- A step of a worker keeps the lines whole. -/
theorem step_oneLine (hst : Step (exec cfg) (body cfg self) w c ev c')
    (hs : (c.thr w).Shaped (fun _ => Follows) (fun _ => CallLoop)) (ha : WritesAlone c ev)
    (hi : OneLine c) : OneLine c' := by
  rcases hst.quiet (f := midLine) (fun l => (body_lined l).2) with ⟨a, r, rfl⟩ | ⟨hst', hall⟩
  · obtain ⟨e, hx⟩ := hst.exec_did
    obtain ⟨hup, hk⟩ := hst.upcoming_did hs
    have hother : ∀ u, u ≠ w → inLine (c'.thr u) = inLine (c.thr u) := fun u hu =>
      congrArg midLine (hst.upcoming_other hu)
    -- an action outside of the lines
    have hsame : midLine (some a) = none → (∀ k, Follows a k → midLine (k r).upcoming = none) →
        (∀ u, inLine (c'.thr u) = inLine (c.thr u)) := by
      intro h1 h2 u
      by_cases hu : u = w
      · subst hu
        rw [inLine, inLine, hup, h1]
        rcases hk with ⟨-, k, hk, hup'⟩ | ⟨-, hup'⟩
        · rw [hup', h2 k hk]
        · rw [hup', h1]
      · exact hother u hu
    generalize hs' : c'.st = s' at hx
    cases a with
    | act a =>
      obtain ⟨y, -, hy⟩ := Option.map_eq_some_iff.1 hx
      cases hy
      exact oneLine_congr hi (hsame rfl fun k hk => by rw [hk]) (by rw [hs']) (by rw [hs'])
    | strftime =>
      cases hx
      exact oneLine_congr hi (hsame rfl fun k hk => by rw [hk]) (by rw [hs']) (by rw [hs'])
    | fprintf l p =>
      obtain ⟨-, k, hk, hup'⟩ := hk.resolve_right fun h => by
        obtain ⟨⟨_, _, _, _, _, _, h⟩, -⟩ := h
        cases h
      obtain rfl := (Prod.mk.inj (Option.some.inj hx)).2
      have ha' : p = .dateTime → ∀ u, inLine (c.thr u) = none := fun hp => by
        subst hp
        exact ha
      obtain ⟨hn, hlog⟩ := oneLine_before hi hup ha'
      have hn' : ∀ u, u ≠ w → inLine (c'.thr u) = none := fun u hu => by rw [hother u hu, hn u hu]
      by_cases hp : p = .connections
      · subst hp
        rw [Follows, if_pos rfl] at hk
        have hnone : inLine (c'.thr w) = none := by rw [inLine, hup', hk]
        refine oneLine_of_only hn' (fun _ => ?_) fun l' p' h => by rw [hnone] at h; cases h
        rw [hs']
        simp only [if_true, hlog, lines, List.flatMap_append, List.flatMap_cons, List.flatMap_nil,
          List.append_nil, LogCall.line, List.append_assoc]
      · rw [Follows, if_neg hp] at hk
        obtain ⟨p', hp', hbefore⟩ := hk
        have hsome : inLine (c'.thr w) = some (l, p') := by rw [inLine, hup', hp']
        refine oneLine_of_only hn' (fun h => by rw [hsome] at h; cases h) fun l' q h => ?_
        rw [hsome] at h
        cases h
        have htext : l.text e.connections p = l.text 0 p := by cases p <;> first | rfl | exact absurd rfl hp
        rw [hs']
        simp only [if_neg hp, hlog, hbefore, htext, List.append_assoc]
  · exact oneLine_congr hi hall (by rw [hst']) (by rw [hst'])

end

/-- **The log file.**  In runs in which a call writes its date only when no other
    one is in the middle of its line, the log file has the lines of all calls,
    each one as a whole. -/
theorem unmixed [DecidableEq W] (h : Reach (exec cfg) (body cfg self)
    (fun c w ev => plays w ev = true ∧ WritesAlone c ev) (Conf.init State.init) c) : Unmixed c := by
  have hone : OneLine c := by
    refine Reach.invariant (I := OneLine) ⟨?_, fun _ => (List.append_nil _).symm, ?_⟩ ?_ h
    · intro u v hu
      cases hu
    · intro w l p hw
      cases hw
    · intro c w ev c' hr hi hst ho
      exact step_oneLine hst (hr.shaped (fun l => (body_lined l).1) w) ho.2 hi
  exact fun hn => ⟨c.st.written, List.Perm.refl _, hone.none hn⟩

/-- `WritesAlone` for two workers. -/
def writesAlone (c : Conf sig State (Fin 2 × Request) (Fin 2)) : Ev sig (Fin 2 × Request) → Bool
  | .did (.fprintf _ .dateTime) _ => ∀ w, inLine (c.thr w) = none
  | _ => true

theorem writesAlone_sound {c : Conf sig State (Fin 2 × Request) (Fin 2)} {ev : Ev sig (Fin 2 × Request)}
    (h : writesAlone c ev = true) : WritesAlone c ev := by
  cases ev with
  | did a r =>
    cases a with
    | fprintf l p =>
      cases p with
      | dateTime => exact (of_decide_eq_true h : ∀ w, inLine (c.thr w) = none)
      | _ => trivial
    | _ => trivial
  | _ => trivial

/-- Worker `w` begins to serve a close request and writes the date. -/
def entering (w : Fin 2) : List (Fin 2 × Choice (Fin 2 × Request) Env (Fin 2)) :=
  (w, .start (w, ⟨w + 1, .OP_CLOSE_FILE, [47, 97], 0, 0⟩)) ::
    .replicate 2 (w, .go ⟨⟨true, [], 0, NULL⟩, [57, 58, 48], 2⟩)

/-- The rest of the line. -/
def leaving (w : Fin 2) : List (Fin 2 × Choice (Fin 2 × Request) Env (Fin 2)) :=
  .replicate 4 (w, .go ⟨⟨true, [], 0, NULL⟩, [], 2⟩)

theorem unmixed_twice : ∃ c : Conf sig State (Fin 2 × Request) (Fin 2),
    c.st.written.length = 2 ∧ Unmixed c := by
  obtain ⟨c, hc, hlen⟩ : ∃ c ∈ sched (exec ⟨8, 4⟩) (body ⟨8, 4⟩ fun w : Fin 2 => w + 100)
      (fun c w ev => plays w ev && writesAlone c ev)
      (entering 0 ++ leaving 0 ++ entering 1 ++ leaving 1) (Conf.init State.init),
      c.st.written.length = 2 := by decide +kernel
  have hr : Reach (exec ⟨8, 4⟩) (body ⟨8, 4⟩ fun w : Fin 2 => w + 100)
      (fun c w ev => (plays w ev && writesAlone c ev) = true) (Conf.init State.init) c :=
    sched_reach _ .init hc
  refine ⟨c, hlen, unmixed (hr.mono fun c w ev h => ?_)⟩
  obtain ⟨hp, ha⟩ := Bool.and_eq_true_iff.1 h
  exact ⟨hp, writesAlone_sound ha⟩

/-- Two workers write their dates one after the other. -/
theorem not_unmixed : ∃ c : Conf sig State (Fin 2 × Request) (Fin 2),
    Reach (exec ⟨8, 4⟩) (body ⟨8, 4⟩ fun w : Fin 2 => w + 100) (fun _ w ev => plays w ev = true)
      (Conf.init State.init) c ∧ c.st.written.length = 2 ∧ ¬ Unmixed c := by
  obtain ⟨c, hc, hlen, h0, h1, hls⟩ : ∃ c ∈ sched (exec ⟨8, 4⟩) (body ⟨8, 4⟩ fun w : Fin 2 => w + 100)
      (fun _ w ev => plays w ev) (entering 0 ++ entering 1 ++ leaving 0 ++ leaving 1)
      (Conf.init State.init), c.st.written.length = 2 ∧ inLine (c.thr 0) = none ∧
      inLine (c.thr 1) = none ∧ ∀ ls ∈ c.st.written.permutations', c.st.logFile ≠ header ++ lines ls := by
    decide +kernel
  refine ⟨c, sched_reach _ .init hc, hlen, fun h => ?_⟩
  obtain ⟨ls, hperm, hlog⟩ := h (Fin.forall_fin_two.2 ⟨h0, h1⟩)
  exact hls ls (List.mem_permutations'.2 hperm) hlog

end Logger

end FileStorage
