/-
  `main` of the client, from the connection on: what it does for its options.

  The calls of an option are determined by the arguments and the local files
  (`jobs`); which requests they send depends on the answers of the server.
  `abspath` is one array for all calls of `realpath`, which may leave anything
  in it.  The local files change during the session, also by what it saves:
  `Host` gives them for every point of time.

  * `session`: the program of the client;
  * `locksLeft`: the files that it may hold when it has ended.
-/
import FileStorage.ConfigFile
import FileStorage.DirList
import FileStorage.Client

namespace FileStorage

open Threads

open ConfigFile (strtol cstr)

/-! ## Options -/

/-- The options after `-f`, as `getopt` gives them. -/
inductive Opt where
  | h
  | w (optarg : CString)
  | W (optarg : CString)
  | D (optarg : CString)
  | d (optarg : CString)
  | r (optarg : CString)
  | R (optarg : Option CString)
  | t (optarg : CString)
  | l (optarg : CString)
  | u (optarg : CString)
  | c (optarg : CString)
  | p
  /-- any other character -/
  | unknown
  deriving DecidableEq, Repr

/-- Where the client runs.  The local files, the paths and the output of `find`
    depend on the time. -/
structure Host where
  pid : ℤ
  /-- the contents of `abspath` at the beginning -/
  uninit : CString
  disk : ℕ → CString → Option LocalFile
  /-- what `realpath` leaves in an array that held the second string -/
  realpath : ℕ → CString → CString → CString
  popen : ℕ → CString → Option (List Byte)

/-- The variables of `main`, and the time. -/
structure Vars where
  expFileDir : Option CString
  destFolder : Option CString
  abspath : CString
  clock : ℕ
  deriving DecidableEq, Repr

def Vars.init (host : Host) : Vars := ⟨none, none, host.uninit, 0⟩

def atoi (s : CString) : ℤ := i32 (strtol s)

/-! ## Jobs -/

/-- What `main` does in a round of its loops. -/
inductive Job where
  /-- the round of `-w` and `-W` -/
  | upload (clock : ℕ) (abspath : CString) (expFileDir : Option CString)
  /-- the round of `-r` -/
  | fetch (abspath token : CString) (destFolder : Option CString)
  | readN (N : ℤ) (destFolder : Option CString)
  | lock (abspath : CString)
  | unlock (abspath : CString)
  /-- the round of `-c` -/
  | remove (abspath : CString)
  /-- the client is killed -/
  | killed
  deriving DecidableEq, Repr

/-- An action that cannot be performed. -/
def killed : ClientCode := .act (.saveFileDir [] [] []) fun _ => .ret

/-- `saveFileDir(buff, size, destFolder, token)`, which takes the length of
    `destFolder`. -/
def saveToFolder (buff : List Byte) (destFolder : Option CString) (token : CString) (k : ClientCode) :
    ClientCode :=
  match destFolder with
  | some dirname => .act (.saveFileDir buff dirname token) fun _ => k
  | none => killed

/-- The program of a job, then `k`. -/
def Job.code (host : Host) (k : ClientCode) : Job → ClientCode
  | .upload clock abspath expFileDir =>
    openFile host.pid abspath (O_CREATE ||| O_LOCK) fun res =>
    if res ≠ -1 then
      writeFile host.pid (host.disk clock) (some abspath) expFileDir fun _ =>
      unlockFile host.pid (some abspath) fun _ => k
    else k
  | .fetch abspath token destFolder =>
    openFile host.pid abspath O_LOCK fun res =>
    if res ≠ -1 then
      readFile host.pid abspath fun res buff =>
      if res ≠ -1 then
        saveToFolder buff destFolder token <|
        unlockFile host.pid (some abspath) fun _ => k
      else unlockFile host.pid (some abspath) fun _ => k
    else k
  | .readN N destFolder => readNFiles host.pid N destFolder fun _ => k
  | .lock abspath => lockFile host.pid (some abspath) fun _ => k
  | .unlock abspath => unlockFile host.pid (some abspath) fun _ => k
  | .remove abspath =>
    lockFile host.pid (some abspath) fun _ =>
    removeFile host.pid (some abspath) fun _ => k
  | .killed => FileStorage.killed

/-! ## The loops -/

section
variable (host : Host)

/-- `realpath(token, abspath)`; a round takes time. -/
def Vars.resolve (v : Vars) (token : CString) : Vars :=
  { v with abspath := host.realpath v.clock token v.abspath, clock := v.clock + 1 }

/-- A loop over tokens, with the job of a round. -/
def eachToken (job : Vars → CString → Job) : Vars → List CString → List Job × Vars
  | v, [] => ([], v)
  | v, token :: tokens =>
    let v := v.resolve host token
    let (ts, last) := eachToken job v tokens
    (job v token :: ts, last)

/-- The names that the loop of `-w` finds with `strtok`: where there is no list it
    goes on with the rest of the argument.  `none` where memory is misused. -/
def listed (args : List CString) : (result : ListResult) → result ≠ .outOfFuel → Option (List CString)
  | .returned (some fileList), _ => (string fileList).map strtok
  | .returned none, _ => some (args.drop 2)
  | .undefined, _ => none
  | .outOfFuel, h => absurd rfl h

/-- The file list of `-w`, of which the argument has the pieces `args`. -/
def fileNames (v : Vars) (args : List CString) : Option (List CString) :=
  match args with
  | [] => none
  | dir :: args' =>
    let maxFile := match args' with
      | token :: _ => atoi token
      | [] => -1
    listed args (getFileListFromDir (host.popen v.clock) dir maxFile) getFileListFromDir_ends

/-- The loop of `-w` and `-W`. -/
def uploads (v : Vars) (tokens : List CString) : List Job × Vars :=
  eachToken host (fun v _ => .upload v.clock v.abspath v.expFileDir) v tokens

/-- An option, `none` where it ends the program. -/
def Opt.jobs (v : Vars) : Opt → Option (List Job × Vars)
  | .h => none
  | .w optarg =>
    match fileNames host v (strtok optarg) with
    | some tokens => some (uploads host v tokens)
    | none => some ([.killed], v)
  | .W optarg => some (uploads host v (strtok optarg))
  | .D optarg => some ([], { v with expFileDir := some optarg })
  | .d optarg => some ([], { v with destFolder := some optarg })
  | .r optarg => some (eachToken host (fun v token => .fetch v.abspath token v.destFolder) v (strtok optarg))
  | .R optarg =>
    let numFiles := match optarg with
      | some optarg => atoi optarg
      | none => 0
    some ([.readN (if numFiles = 0 then -1 else numFiles) v.destFolder], v)
  | .t optarg => if atoi optarg < 0 then none else some ([], v)
  | .l optarg => some (eachToken host (fun v _ => .lock v.abspath) v (strtok optarg))
  | .u optarg => some (eachToken host (fun v _ => .unlock v.abspath) v (strtok optarg))
  | .c optarg => some (eachToken host (fun v _ => .remove v.abspath) v (strtok optarg))
  | .p | .unknown => some ([], v)

def jobs : Vars → List Opt → List Job
  | _, [] => []
  | v, opt :: opts =>
    match opt.jobs host v with
    | some (ts, v) => ts ++ jobs v opts
    | none => []

/-- The program of a client with these options. -/
def session (opts : List Opt) : ClientCode :=
  (jobs host (.init host) opts).foldr (fun job k => job.code host k) .ret

/-! ## Locks -/

/-- The files that the client may hold after a job. -/
def Job.left (held : List CString) : Job → List CString
  | .lock p => p :: held
  | .fetch p _ _ | .unlock p | .remove p => held.filter (· ≠ p)
  | .upload _ _ _ | .readN _ _ | .killed => held

/-- The files that the client may hold at its end. -/
def locksLeft (opts : List Opt) : List CString := (jobs host (.init host) opts).foldl Job.left []

/-- The files of the options `-l`. -/
def lockedBy (opts : List Opt) : List CString := (jobs host (.init host) opts).filterMap fun
  | .lock p => some p
  | _ => none

end

theorem foldl_left {js : List Job} {held : List CString} {p : CString} (h : p ∈ js.foldl Job.left held) :
    p ∈ held ∨ .lock p ∈ js := by
  induction js generalizing held with
  | nil => exact Or.inl h
  | cons j js ih =>
    obtain hp | hp := ih h
    · cases j with
      | lock p' =>
        rcases List.mem_cons.1 hp with rfl | hp
        · exact Or.inr List.mem_cons_self
        · exact Or.inl hp
      | fetch | unlock | remove => exact Or.inl (List.mem_of_mem_filter hp)
      | upload | readN | killed => exact Or.inl hp
    · exact Or.inr (List.mem_cons_of_mem _ hp)

/-- A client ends with files that it has locked by an option `-l`. -/
theorem locksLeft_subset {host : Host} {opts : List Opt} {p : CString} (h : p ∈ locksLeft host opts) :
    p ∈ lockedBy host opts :=
  List.mem_filterMap.2 ⟨_, (foldl_left h).resolve_left List.not_mem_nil, rfl⟩

end FileStorage
