/-
  The functions of `fileStorage.c` on a memory, with `getFreeSpace` and
  `expelFile` of `utils.c`.

  In `Store` the files are values in the sequence of a queue.  Here the nodes of
  the queue, the `FileNode`s and the buffers with the contents are blocks, which
  the functions allocate, follow by their pointers and free as in the C code.
  An access through a pointer to no allocated block fails, and so does one past
  the end of a block, the release of such a pointer, and the use of a pointer
  that has not been set.  Addresses may be handed out again.

  The buffers that the callers pass, and the strings, are values.
-/
import FileStorage.Teardown

namespace FileStorage

open LinkedList

/-- A `FileNode` in memory. -/
structure FileBlock where
  pathname : CString
  file : Ptr
  size : ℕ
  clientId : ℤ
  isOpen : Bool
  deriving DecidableEq, Repr

/-- The memory of the server with its `fileQueue`, whose `heap` has the nodes,
    and the counters. -/
structure Memory where
  fileQueue : LinkedQueue
  files : Finmap fun _ : Ptr => FileBlock
  buffers : Finmap fun _ : Ptr => List Byte
  stats : Stats

/-- `calloc`: some address that is not in use. -/
structure Allocator where
  addr : Memory → Ptr
  ne_null : ∀ m, addr m ≠ NULL
  fresh : ∀ m, addr m ∉ m.fileQueue.heap ∧ addr m ∉ m.files ∧ addr m ∉ m.buffers

/-- As the allocator of nodes. -/
def Allocator.malloc (al : Allocator) (m : Memory) : Malloc where
  addr heap := al.addr { m with fileQueue := { m.fileQueue with heap := heap } }
  ne_null _ := al.ne_null _
  fresh _ := (al.fresh _).1

namespace Memory

/-! ## Blocks -/

/-- Write a `FileNode`. -/
def setFile (m : Memory) (p : Ptr) (f : FileBlock) : Memory := { m with files := m.files.insert p f }

@[simp] theorem setFile_stats (m : Memory) (p : Ptr) (f : FileBlock) : (m.setFile p f).stats = m.stats := rfl

/-- `safeFree` of a `FileNode`. -/
def freeFile (m : Memory) (p : Ptr) : Option Memory :=
  if p = NULL then some m
  else if p ∈ m.files then some { m with files := Finmap.erase p m.files }
  else none

/-- `allocateMemory(1, size)`. -/
def allocateBuffer (al : Allocator) (m : Memory) (size : ℕ) : Ptr × Memory :=
  (al.addr m, { m with buffers := m.buffers.insert (al.addr m) (calloc size) })

/-- `safeFree` of a buffer. -/
def freeBuffer (m : Memory) (p : Ptr) : Option Memory :=
  if p = NULL then some m
  else if p ∈ m.buffers then some { m with buffers := Finmap.erase p m.buffers }
  else none

/-- Read `size` bytes. -/
def load (m : Memory) (p : Ptr) (size : ℕ) : Option (List Byte) :=
  if size = 0 then some []
  else do
    let b ← m.buffers.lookup p
    if size ≤ b.length then some (b.take size) else none

/-- `memcpy(p + off, bytes, |bytes|)`. -/
def copy (m : Memory) (p : Ptr) (off : ℕ) (bytes : List Byte) : Option Memory := do
  let b ← m.buffers.lookup p
  if off + bytes.length ≤ b.length then
    some { m with buffers := m.buffers.insert p (memcpy b off bytes) }
  else none

/-! ## The loops over the queue -/

/-- The loop `while ((node = node->next) != NULL)`, at most `fuel` times.  A
    round reads the `FileNode` of the node and its address, and says whether the
    loop goes on. -/
def walk {α : Type} (m : Memory) (round : α → Ptr → FileBlock → α × Bool) : ℕ → Ptr → α → Option α
  | 0, _, _ => none
  | fuel + 1, node, x => do
    let n ← m.fileQueue.heap.lookup node
    if n.next = NULL then some x
    else
      let t ← m.fileQueue.heap.lookup n.next
      let f ← m.files.lookup t.data
      let y := round x t.data f
      if y.2 then walk m round fuel n.next y.1 else some y.1

/-- The loop from `queue->head` on; there is at most one round for each node. -/
def loop {α : Type} (m : Memory) (round : α → Ptr → FileBlock → α × Bool) (x : α) : Option α :=
  m.walk round m.fileQueue.heap.keys.card m.fileQueue.head x

def findFileNode (m : Memory) (pathname : CString) : Option ℤ :=
  m.loop (fun x _ f => if f.pathname = pathname then (0, false) else (x, true)) (-1)

def getFileNode (m : Memory) (pathname : CString) : Option Ptr :=
  m.loop (fun x p f => if f.pathname = pathname then (p, false) else (x, true)) NULL

/-- One round of the loops that sum up the sizes. -/
def addBlock (size : ℤ) (f : FileBlock) : ℤ := i32 (u64 (u64 size + f.size))

def getStorageSize (m : Memory) : Option ℤ := m.loop (fun size _ f => (addBlock size f, true)) 0

def getFreeSpace (cfg : Config) (m : Memory) : Option ℤ := do
  let size ← m.loop (fun size _ f => (addBlock size f, true)) 0
  some (i32 (u32 (cfg.maxMemSize.toNat - u32 size)))

/-- `expelFile`; the inner `none` is the pointer that has not been set. -/
def expelFile (cfg : Config) (m : Memory) (requiredSpace : ℤ) : Option (Option Ptr) := do
  let freeSpace ← m.getFreeSpace cfg
  m.loop (fun x p f =>
    if u64 requiredSpace ≤ u64 (u64 freeSpace + f.size) then (some p, false) else (x, true)) none

/-- One round of the loop of `getNFileList`. -/
def appendName (fileList : Option CString) (pathname : CString) : Option CString :=
  match fileList with
  | some l => some (l ++ str "," ++ pathname)
  | none => some pathname

/-- `getNFileList`: the loop counts its rounds and stops before round `N`. -/
def getNFileList (m : Memory) (N : ℤ) : Option (ℕ × Option CString) := do
  let N := if N = -1 ∨ (m.fileQueue.len : ℤ) < u64 N then i32 m.fileQueue.len else N
  if 0 < N then
    let x ← m.loop (fun x _ f => ((x.1 + 1, appendName x.2 f.pathname), decide (x.1 + 1 < N)))
      ((0 : ℤ), none)
    some ((u64 N).toNat, x.2)
  else some ((u64 N).toNat, none)

/-! ## Functions on files -/

/-- `removeNode`: the node is unlinked and freed, then its buffer and its
    `FileNode`. -/
def removeNode (m : Memory) (node : Ptr) : Option (ℤ × Memory) := do
  let (res, q) ← m.fileQueue.removeNode node
  let m := { m with fileQueue := q }
  if res = 0 then
    let f ← m.files.lookup node
    let m ← m.freeBuffer f.file
    let m ← m.freeFile node
    some (0, m)
  else some (res, m)

def hasFileLock (m : Memory) (pathname : CString) (clientId : ℤ) : Option ℤ := do
  let fileNode ← m.getFileNode pathname
  if fileNode = NULL then some (-1)
  else
    let f ← m.files.lookup fileNode
    some (if f.clientId = clientId then 0 else -1)

def lockVirtualFile (m : Memory) (pathname : CString) (clientId : ℤ) : Option (ℤ × Memory) := do
  let file ← m.getFileNode pathname
  if file = NULL then some (-1, m)
  else
    let f ← m.files.lookup file
    if !f.isOpen then some (-1, m)
    else if f.clientId = clientId then some (0, m)
    else if f.clientId = 0 then some (0, m.setFile file { f with clientId := clientId })
    else some (-2, m)

def unlockVirtualFile (m : Memory) (pathname : CString) (clientId : ℤ) : Option (ℤ × Memory) := do
  let file ← m.getFileNode pathname
  if file = NULL then some (-1, m)
  else
    let f ← m.files.lookup file
    if !f.isOpen then some (-1, m)
    else if f.clientId = clientId then some (0, m.setFile file { f with clientId := 0 })
    else if f.clientId = 0 then some (0, m)
    else some (-1, m)

def deleteVirtualFile (m : Memory) (pathname : CString) (clientId : ℤ) : Option (ℤ × Memory) := do
  let file ← m.getFileNode pathname
  if file = NULL then some (-1, m)
  else
    let f ← m.files.lookup file
    if !f.isOpen then some (-1, m)
    else if f.clientId = clientId then
      let (res, m) ← m.removeNode file
      some (if res = 0 then 0 else -1, m)
    else some (-1, m)

/-- `closeVirtualFile`; `unset` is the value of `status` when it is not set. -/
def closeVirtualFile (unset : ℤ) (m : Memory) (pathname : CString) (clientId : ℤ) :
    Option (ℤ × Memory) := do
  let file ← m.getFileNode pathname
  if file = NULL then some (-1, m)
  else
    let f ← m.files.lookup file
    if !f.isOpen then some (0, m)
    else if f.clientId = clientId then some (unset, m.setFile file { f with isOpen := false })
    else some (-1, m)

/-- `readVirtualFile`: the pointer to a new buffer and its size; `none` for the
    result `-1`. -/
def readVirtualFile (al : Allocator) (m : Memory) (pathname : CString) :
    Option (Option (Ptr × ℕ) × Memory) := do
  let file ← m.getFileNode pathname
  if file = NULL then some (none, m)
  else
    let f ← m.files.lookup file
    if !f.isOpen then some (none, m)
    else
      let (buf, m) := m.allocateBuffer al f.size
      let bytes ← m.load f.file f.size
      let m ← m.copy buf 0 bytes
      some (some (buf, f.size), m)

/-- The end of `writeVirtualFile` and `appendVirtualFile`. -/
def recordSize (m : Memory) : Option Memory := do
  let actualSize ← m.getStorageSize
  if m.stats.maxFileStorageSize < actualSize then
    some { m with stats := { m.stats with maxFileStorageSize := actualSize } }
  else some m

/-- `file->file = allocateMemory(1, size)`, `memcpy(file->file, buf, size)` and
    `file->size = size`; `f` is what the `FileNode` held before. -/
def fill (al : Allocator) (m : Memory) (file : Ptr) (f : FileBlock) (buf : List Byte) : Option Memory := do
  let (p, m) := m.allocateBuffer al buf.length
  let m := m.setFile file { f with file := p }
  let m ← m.copy p 0 buf
  some (m.setFile file { f with file := p, size := buf.length })

def writeVirtualFile (al : Allocator) (m : Memory) (pathname : CString) (buf : List Byte) :
    Option (ℤ × Memory) := do
  let file ← m.getFileNode pathname
  if file = NULL then
    let m ← m.recordSize
    some (-1, m)
  else
    let f ← m.files.lookup file
    if !f.isOpen then some (-1, m)
    else
      let m ← m.freeBuffer f.file
      let m ← m.fill al file f buf
      let m ← m.recordSize
      some (0, m)

/-- The lines of `appendVirtualFile` for a file that has a buffer. -/
def grow (al : Allocator) (m : Memory) (file : Ptr) (f : FileBlock) (buf : List Byte) : Option Memory := do
  let (tmp, m) := m.allocateBuffer al (f.size + buf.length)
  let old ← m.load f.file f.size
  let m ← m.copy tmp 0 old
  -- the new contents go to `tmp + size`, with the size of these
  let m ← m.copy tmp buf.length buf
  let m := m.setFile file { f with size := f.size + buf.length }
  let m ← m.freeBuffer f.file
  some (m.setFile file { f with file := tmp, size := f.size + buf.length })

def appendVirtualFile (al : Allocator) (m : Memory) (pathname : CString) (buf : List Byte) :
    Option (ℤ × Memory) := do
  let file ← m.getFileNode pathname
  if file = NULL then
    let m ← m.recordSize
    some (-1, m)
  else
    let f ← m.files.lookup file
    if !f.isOpen then some (-1, m)
    else
      let m ← if f.file = NULL then m.fill al file f buf else m.grow al file f buf
      let m ← m.recordSize
      some (0, m)

/-- The `FileNode` that `openVirtualFile` creates. -/
def newBlock (pathname : CString) (flags : Flags) (clientId : ℤ) : FileBlock where
  pathname := pathname
  file := NULL
  size := 0
  clientId := if flags.has O_LOCK then clientId else 0
  isOpen := true

def openVirtualFile (al : Allocator) (cfg : Config) (m : Memory) (pathname : CString) (flags : Flags)
    (clientId : ℤ) : Option (ℤ × Memory) := do
  let found ← m.findFileNode pathname
  if found ≠ -1 ∧ flags.has O_CREATE then some (-1, m)
  else if found = -1 ∧ flags.has O_LOCK ∧ ¬ flags.has O_CREATE then some (-1, m)
  else if found = 0 then
    if flags.has O_LOCK then m.lockVirtualFile pathname clientId else some (0, m)
  else if m.fileQueue.len = cfg.maxFile.toNat then some (-1, m)
  else
    let node := al.addr m
    let m := m.setFile node (newBlock pathname flags clientId)
    let (res, q) ← m.fileQueue.push (al.malloc m) node
    let m := { m with fileQueue := q }
    if res ≠ 0 then
      if u64 m.stats.maxNumFile < m.fileQueue.len then
        some (0, { m with stats := { m.stats with maxNumFile := i32 m.fileQueue.len } })
      else some (0, m)
    else some (-1, m)

/-! ## The callers -/

/-- What `sendFileToClient` does with the memory: the bytes that it writes on the
    socket, and the buffer freed afterwards. -/
def sendFileToClient (al : Allocator) (m : Memory) (pathname : CString) :
    Option (Option (List Byte × ℕ) × Memory) := do
  let (res, m) ← m.readVirtualFile al pathname
  match res with
  | none => some (none, m)
  | some (buf, size) =>
    let bytes ← m.load buf size
    let m ← m.freeBuffer buf
    some (some (bytes, size), m)

/-- The replacement of a file, as the controllers make it: `expelFile`, the
    fields and bytes that `sendBufferFileToClient` writes, `removeNode`. -/
def expel (cfg : Config) (m : Memory) (requiredSpace : ℤ) : Option ((CString × List Byte) × Memory) := do
  let data ← m.expelFile cfg requiredSpace
  let data ← data
  let f ← m.files.lookup data
  let bytes ← m.load f.file f.size
  let (_, m) ← m.removeNode data
  some ((f.pathname, bytes), m)

/-! ## The end -/

/-- The rounds of `deleteFileQueue`, at most `fuel`. -/
def deleteFileLoop : ℕ → Memory → Option Memory
  | 0, _ => none
  | fuel + 1, m =>
    let tmp := m.fileQueue.head
    if tmp = NULL then some m
    else do
      let n ← m.fileQueue.heap.lookup tmp
      let m ← if n.data = NULL then some m
        else do
          let f ← m.files.lookup n.data
          let m ← m.freeBuffer f.file
          m.freeFile n.data
      let q := m.fileQueue
      deleteFileLoop fuel { m with fileQueue := { q with heap := Finmap.erase tmp q.heap, head := n.next } }

/-- `deleteFileQueue`: there is a round for each node. -/
def deleteFileQueue (m : Memory) : Option Memory := deleteFileLoop (m.fileQueue.heap.keys.card + 1) m

end Memory

end FileStorage
