/-
  The file store: `fileStorage.c` with the capacity functions of `utils.c` and
  the counters of `statistic.c`.

  A `FileNode` is identified by its address, and the C code reaches a node by
  its pointer: `getFileNode` finds the first node with a given pathname, a
  write through the pointer changes the node with its address.  An address is
  never handed out twice.

  The functions that only read or change the queue take the queue; those that
  also allocate or count take the whole state.  `allocateMemory` succeeds (it
  ends the process otherwise).
-/
import FileStorage.Queue

namespace FileStorage

abbrev Ptr := ℕ

def NULL : Ptr := 0

structure Config where
  maxMemSize : UInt32
  maxFile : UInt32

structure FileNode where
  /-- the address of the node -/
  addr : Ptr
  pathname : CString
  /-- the buffer with the contents, `none` for a null pointer -/
  file : Option (List Byte)
  size : ℕ
  /-- the client that holds the lock, `0` for none -/
  clientId : ℤ
  isOpen : Bool
  deriving DecidableEq, Repr

/-- The counters of `statistic.c`. -/
structure Stats where
  maxNumFile : ℤ
  maxFileStorageSize : ℤ
  numFileReplacement : ℤ
  deriving DecidableEq, Repr

def statInit : Stats := ⟨0, 0, 0⟩

/-! ## Requests and flags (`common.h`) -/

inductive Operation where
  | OP_OPEN_FILE
  | OP_WRITE_FILE
  | OP_READ_FILE
  | OP_DELETE_FILE
  | OP_APPEND_FILE
  | OP_CLOSE_FILE
  | OP_LOCK_FILE
  | OP_UNLOCK_FILE
  | OP_READ_N_FILES
  /-- any other integer -/
  | unknown (n : ℤ)
  deriving DecidableEq, Repr

abbrev Flags := BitVec 32

def O_CREATE : Flags := 0x01
def O_LOCK : Flags := 0x02

/-- `(flags & f) == f` -/
def Flags.has (flags f : Flags) : Bool := flags &&& f == f

structure Request where
  clientId : ℤ
  operation : Operation
  filepath : CString
  flags : Flags
  fileSize : ℕ
  deriving DecidableEq, Repr

/-- The arguments of a `logRequest` call. -/
structure LogRecord where
  request : Request
  readByte : ℤ
  writeByte : ℤ
  replacedFile : Option CString
  deriving DecidableEq, Repr

/-- The state that the workers share. -/
structure Server where
  fileQueue : Queue FileNode
  stats : Stats
  log : List LogRecord
  /-- the address of the next node to be allocated -/
  brk : Ptr
  deriving DecidableEq, Repr

/-- The state when the workers start. -/
def Server.init : Server := ⟨initQueue, statInit, [], 1⟩

/-! ## Functions on the queue -/

def findFileNode (queue : Queue FileNode) (pathname : CString) : ℤ :=
  if queue.data.any (·.pathname = pathname) then 0 else -1

/-- The node a call of `getFileNode` points to. -/
def getFileNode (queue : Queue FileNode) (pathname : CString) : Option FileNode :=
  queue.data.find? (·.pathname = pathname)

/-- Write through the pointer `p` to a node. -/
def Queue.modify (queue : Queue FileNode) (p : Ptr) (f : FileNode → FileNode) : Queue FileNode :=
  { queue with data := queue.data.map fun n => if n.addr = p then f n else n }

/-- The node at the address `p`, if it is one of the queue. -/
def Queue.deref (queue : Queue FileNode) (p : Ptr) : Option FileNode :=
  queue.data.find? (·.addr = p)

/-- One round of the loops that sum up the sizes in an `int`. -/
def addSize (size : ℤ) (fileNode : FileNode) : ℤ := i32 (u64 (u64 size + fileNode.size))

def getStorageSize (queue : Queue FileNode) : ℤ := queue.data.foldl addSize 0

def removeNode (queue : Queue FileNode) (node : Ptr) : ℤ × Queue FileNode :=
  if node = NULL then (-1, queue)
  else if queue.data.any (·.addr = node) then
    (0, ⟨queue.data.eraseP (·.addr = node), queue.len - 1⟩)
  else (-1, queue)

def getFreeSpace (cfg : Config) (queue : Queue FileNode) : ℤ :=
  let size := queue.data.foldl addSize 0
  i32 (u32 (cfg.maxMemSize.toNat - u32 size))

/-- `freeSpace + fileNode->size >= requiredSpace`, the test of `expelFile`. -/
def makesRoom (freeSpace requiredSpace : ℤ) (fileNode : FileNode) : Bool :=
  u64 requiredSpace ≤ u64 (u64 freeSpace + fileNode.size)

/-- `expelFile`: the local pointer is `unset` unless some node passes the test. -/
def expelFile (cfg : Config) (unset : Ptr) (queue : Queue FileNode) (requiredSpace : ℤ) : Ptr :=
  match queue.data.find? (makesRoom (getFreeSpace cfg queue) requiredSpace) with
  | some fileNode => fileNode.addr
  | none => unset

def hasFileLock (queue : Queue FileNode) (pathname : CString) (clientId : ℤ) : ℤ :=
  match getFileNode queue pathname with
  | none => -1
  | some fileNode => if fileNode.clientId = clientId then 0 else -1

/-- One round of the loop of `getNFileList`. -/
def addName (fileList : Option CString) (fileNode : FileNode) : Option CString :=
  match fileList with
  | some l => some (l ++ str "," ++ fileNode.pathname)
  | none => some fileNode.pathname

/-- `getNFileList`: the number of files and their names, joined by commas. -/
def getNFileList (queue : Queue FileNode) (N : ℤ) : ℕ × Option CString :=
  let N := if N = -1 ∨ (queue.len : ℤ) < u64 N then i32 queue.len else N
  ((u64 N).toNat, (queue.data.take N.toNat).foldl addName none)

/-! ## Functions on files -/

def lockVirtualFile (queue : Queue FileNode) (pathname : CString) (clientId : ℤ) :
    ℤ × Queue FileNode :=
  match getFileNode queue pathname with
  | none => (-1, queue)
  | some file =>
    if !file.isOpen then (-1, queue)
    else if file.clientId = clientId then (0, queue)
    else if file.clientId = 0 then
      (0, queue.modify file.addr fun f => { f with clientId := clientId })
    else (-2, queue)

def unlockVirtualFile (queue : Queue FileNode) (pathname : CString) (clientId : ℤ) :
    ℤ × Queue FileNode :=
  match getFileNode queue pathname with
  | none => (-1, queue)
  | some file =>
    if !file.isOpen then (-1, queue)
    else if file.clientId = clientId then
      (0, queue.modify file.addr fun f => { f with clientId := 0 })
    else if file.clientId = 0 then (0, queue)
    else (-1, queue)

def deleteVirtualFile (queue : Queue FileNode) (pathname : CString) (clientId : ℤ) :
    ℤ × Queue FileNode :=
  match getFileNode queue pathname with
  | none => (-1, queue)
  | some file =>
    if !file.isOpen then (-1, queue)
    else if file.clientId = clientId then
      let (res, queue') := removeNode queue file.addr
      if res = 0 then (0, queue') else (-1, queue')
    else (-1, queue)

/-- `closeVirtualFile`: when the file gets closed, the local `status` that is
    returned has not been set. -/
def closeVirtualFile (unset : ℤ) (queue : Queue FileNode) (pathname : CString) (clientId : ℤ) :
    ℤ × Queue FileNode :=
  match getFileNode queue pathname with
  | none => (-1, queue)
  | some file =>
    if !file.isOpen then (0, queue)
    else if file.clientId = clientId then
      (unset, queue.modify file.addr fun f => { f with isOpen := false })
    else (-1, queue)

/-- `readVirtualFile`: the buffer and its size; `none` for the result `-1`. -/
def readVirtualFile (queue : Queue FileNode) (pathname : CString) : Option (List Byte × ℕ) :=
  match getFileNode queue pathname with
  | none => none
  | some file =>
    if !file.isOpen then none
    else some (memcpy (calloc file.size) 0 ((file.file.getD []).take file.size), file.size)

/-- The end of `writeVirtualFile` and `appendVirtualFile`: the high-water mark
    of the stored bytes. -/
def Server.recordSize (s : Server) : Server :=
  let actualSize := getStorageSize s.fileQueue
  if s.stats.maxFileStorageSize < actualSize then
    { s with stats := { s.stats with maxFileStorageSize := actualSize } }
  else s

def writeVirtualFile (s : Server) (pathname : CString) (buf : List Byte) (size : ℕ) : ℤ × Server :=
  match getFileNode s.fileQueue pathname with
  | none => (-1, s.recordSize)
  | some file =>
    if !file.isOpen then (-1, s)
    else
      let queue := s.fileQueue.modify file.addr fun f =>
        { f with file := some (memcpy (calloc size) 0 (buf.take size)), size := size }
      (0, { s with fileQueue := queue }.recordSize)

/-- The buffer of an append to a file with the buffer `old`: the new data are
    copied to the offset `size`, past the end of the block if they are longer than
    the old ones. -/
def appendBuffer (old : List Byte) (oldSize : ℕ) (buf : List Byte) (size : ℕ) : List Byte :=
  let tmp := calloc (oldSize + size)
  let tmp := memcpy tmp 0 (old.take oldSize)
  memcpy tmp size (buf.take size)

/-- `appendVirtualFile`, as long as the new data stay inside their block (see
    `InBounds`). -/
def appendVirtualFile (s : Server) (pathname : CString) (buf : List Byte) (size : ℕ) : ℤ × Server :=
  match getFileNode s.fileQueue pathname with
  | none => (-1, s.recordSize)
  | some file =>
    if !file.isOpen then (-1, s)
    else
      let queue := s.fileQueue.modify file.addr fun f => match f.file with
        | none => { f with file := some (memcpy (calloc size) 0 (buf.take size)), size := size }
        | some old => { f with file := some (appendBuffer old f.size buf size), size := f.size + size }
      (0, { s with fileQueue := queue }.recordSize)

/-- The node that `openVirtualFile` creates. -/
def newNode (addr : Ptr) (pathname : CString) (flags : Flags) (clientId : ℤ) : FileNode where
  addr := addr
  pathname := pathname
  file := none
  size := 0
  clientId := if flags.has O_LOCK then clientId else 0
  isOpen := true

/-- The high-water mark of the number of files, after a `push`. -/
def Server.recordLen (s : Server) : Server :=
  if u64 s.stats.maxNumFile < s.fileQueue.len then
    { s with stats := { s.stats with maxNumFile := i32 s.fileQueue.len } }
  else s

def openVirtualFile (cfg : Config) (s : Server) (pathname : CString) (flags : Flags)
    (clientId : ℤ) : ℤ × Server :=
  let found := findFileNode s.fileQueue pathname
  if found ≠ -1 ∧ flags.has O_CREATE then (-1, s)
  else if found = -1 ∧ flags.has O_LOCK ∧ ¬ flags.has O_CREATE then (-1, s)
  else if found = 0 then
    if flags.has O_LOCK then
      let (status, queue) := lockVirtualFile s.fileQueue pathname clientId
      (status, { s with fileQueue := queue })
    else (0, s)
  else if s.fileQueue.len = cfg.maxFile.toNat then (-1, s)
  else
    let (res, queue) := push s.fileQueue (newNode s.brk pathname flags clientId)
    let s := { s with fileQueue := queue, brk := s.brk + 1 }
    if res ≠ 0 then (0, s.recordLen) else (-1, s)

end FileStorage
