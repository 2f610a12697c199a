/-
  The atomic actions of a worker: the calls on the store, the log, and the
  reads and writes on the socket of its client.

  What the state does not determine comes from an environment: whether a write
  or read on the socket fails, the bytes received, and the values of variables
  read before they are set.

  * `exec` is what an action does if it completes, and keeps inside the blocks of
    memory that it writes to.
  * `execHeap` is the same for all actions: one that is not `InBounds` overwrites
    the blocks behind, and leaves an arbitrary state.
-/
import FileStorage.Store
import FileStorage.Threads.Undefined

namespace FileStorage

open Threads

structure Response where
  statusCode : ℤ
  fileSize : ℕ
  message : CString
  fileName : CString
  deriving DecidableEq, Repr

/-- A zeroed response with the status code and message set. -/
def respond (statusCode : ℤ) (message : CString) : Response := ⟨statusCode, 0, message, []⟩

/-- The calls on `fileQueue`. -/
inductive Call where
  | getFreeSpace
  | expelFile (requiredSpace : ℤ)
  /-- read the fields of a node through its pointer -/
  | deref (node : Ptr)
  | removeNode (node : Ptr)
  | hasFileLock (pathname : CString) (clientId : ℤ)
  | openVirtualFile (pathname : CString) (flags : Flags) (clientId : ℤ)
  | readVirtualFile (pathname : CString)
  | writeVirtualFile (pathname : CString) (buf : List Byte) (size : ℕ)
  | appendVirtualFile (pathname : CString) (buf : List Byte) (size : ℕ)
  | lockVirtualFile (pathname : CString) (clientId : ℤ)
  | unlockVirtualFile (pathname : CString) (clientId : ℤ)
  | deleteVirtualFile (pathname : CString) (clientId : ℤ)
  | closeVirtualFile (pathname : CString) (clientId : ℤ)
  | getNFileList (N : ℤ)
  deriving DecidableEq

@[reducible] def Call.Ans : Call → Type
  | .expelFile _ => Ptr
  | .deref _ => FileNode
  | .readVirtualFile _ => Option (List Byte × ℕ)
  | .getNFileList _ => ℕ × Option CString
  | _ => ℤ

/-- The actions of a worker. -/
inductive Act where
  | call (c : Call)
  | log (record : LogRecord)
  | incNumFileReplacement
  /-- `write(fd, response, sizeof(Response))` -/
  | write (response : Response)
  /-- `write(fd, buf, |buf|)` -/
  | writeBytes (buf : List Byte)
  /-- `readData(fd, buf, size)` -/
  | readData (size : ℕ)
  /-- `read(fd, buf, size)` -/
  | read (size : ℕ)
  /-- the process is killed by an access to a null pointer -/
  | crash
  deriving DecidableEq

/-- The answers: for `write` and `writeBytes` whether the result differs from
    `-1`; for `readData` the buffer and the result; for `read` the buffer, if
    the result differs from `-1`. -/
@[reducible] def Act.Ans : Act → Type
  | .call c => c.Ans
  | .log _ | .incNumFileReplacement | .crash => Unit
  | .write _ | .writeBytes _ => Bool
  | .readData _ => List Byte × ℤ
  | .read _ => Option (List Byte)

inductive Mutex where
  | fileQueueMutex
  | fileLockMutex
  deriving DecidableEq, Repr

inductive Cond where
  | fileLockCond
  deriving DecidableEq, Repr

/-- The signature of the workers' programs. -/
abbrev workerSig : Sig := ⟨Act, Act.Ans, Mutex, Cond⟩

/-- What the state does not determine. -/
structure Env where
  /-- the write or read succeeds -/
  ok : Bool
  /-- the bytes received -/
  bytes : List Byte
  /-- the value of an unset integer -/
  unset : ℤ
  /-- the value of an unset pointer -/
  unsetPtr : Ptr

/-- A buffer of `size` zero bytes after the reception of `bytes`. -/
def received (size : ℕ) (bytes : List Byte) : List Byte := (bytes ++ calloc size).take size

def Call.exec (cfg : Config) (e : Env) (s : Server) : (c : Call) → Option (c.Ans × Server)
  | .getFreeSpace => some (FileStorage.getFreeSpace cfg s.fileQueue, s)
  | .expelFile n => some (FileStorage.expelFile cfg e.unsetPtr s.fileQueue n, s)
  | .deref node => (s.fileQueue.deref node).map fun f => (f, s)
  | .removeNode node =>
    let (res, queue) := FileStorage.removeNode s.fileQueue node
    some (res, { s with fileQueue := queue })
  | .hasFileLock p c => some (FileStorage.hasFileLock s.fileQueue p c, s)
  | .openVirtualFile p flags c => some (FileStorage.openVirtualFile cfg s p flags c)
  | .readVirtualFile p => some (FileStorage.readVirtualFile s.fileQueue p, s)
  | .writeVirtualFile p buf size => some (FileStorage.writeVirtualFile s p buf size)
  | .appendVirtualFile p buf size => some (FileStorage.appendVirtualFile s p buf size)
  | .lockVirtualFile p c =>
    let (res, queue) := FileStorage.lockVirtualFile s.fileQueue p c
    some (res, { s with fileQueue := queue })
  | .unlockVirtualFile p c =>
    let (res, queue) := FileStorage.unlockVirtualFile s.fileQueue p c
    some (res, { s with fileQueue := queue })
  | .deleteVirtualFile p c =>
    let (res, queue) := FileStorage.deleteVirtualFile s.fileQueue p c
    some (res, { s with fileQueue := queue })
  | .closeVirtualFile p c =>
    let (res, queue) := FileStorage.closeVirtualFile e.unset s.fileQueue p c
    some (res, { s with fileQueue := queue })
  | .getNFileList N => some (FileStorage.getNFileList s.fileQueue N, s)

/-- Atomic execution of an action that completes.  `readData` reads until the
    buffer is full and returns the count of its last `read`, or an unset variable
    if there was none. -/
def exec (cfg : Config) : Exec workerSig Server Env
  | .call c, e, s => c.exec cfg e s
  | .log record, _, s => some ((), { s with log := s.log ++ [record] })
  | .incNumFileReplacement, _, s => some ((), { s with stats :=
      { s.stats with numFileReplacement := i32 (s.stats.numFileReplacement + 1) } })
  | .write _, e, s => some (e.ok, s)
  | .writeBytes _, e, s => some (e.ok, s)
  | .readData size, e, s =>
    some ((received size e.bytes, if size = 0 then e.unset else e.unset % size + 1), s)
  | .read size, e, s => some (if e.ok then some (received size e.bytes) else none, s)
  | .crash, _, _ => none

/-- The transfers on the socket.  A worker is at one of them until the client has
    done its part.  If the client closes the connection instead, a write ends the
    process by `SIGPIPE`, and `readData` reads without end. -/
def Act.transfers : Act → Bool
  | .write _ | .writeBytes _ | .readData _ | .read _ => true
  | _ => false

/-! ## Actions that run past a block -/

/-- The bytes of a `Response` from `message` on: 100 of this field, 4096 of
    `fileName`, and the padding. -/
def MESSAGE_ROOM : ℕ := 4200

/-- The bytes that an action writes stay inside their block.  `appendVirtualFile`
    copies the new data to an offset that leaves room for as many as there are in
    the file; the list of `getNFileList` goes to the message of a `Response` by
    `strcpy`. -/
def InBounds : Act → Server → Prop
  | .call (.appendVirtualFile p _ size), s =>
    ∀ f ∈ getFileNode s.fileQueue p, f.isOpen = true → f.file ≠ none → size ≤ f.size
  | .call (.getNFileList N), s => ∀ l ∈ (getNFileList s.fileQueue N).2, l.length < MESSAGE_ROOM
  | _, _ => True

instance (a : Act) (s : Server) : Decidable (InBounds a s) := by
  unfold InBounds
  split <;> infer_instance

/-- Execution on the memory of the process. -/
def execHeap (cfg : Config) : Exec workerSig Server (Env × Server) := definedOn InBounds (exec cfg)

end FileStorage
