/-
  The controllers of `controller.c` with the functions of `utils.c` that send
  a file, as programs of a worker, and the `switch` of `worker` that calls
  them.

  A program performs the calls on the store, the operations on
  `file_queue_mutex`, `file_lock_mutex` and `file_lock_cond`, and the reads and
  writes on the socket in the order of the source.
-/
import FileStorage.Actions

namespace FileStorage

open Threads

/-- The programs of a worker. -/
abbrev Code : Type := Prog workerSig

def logRequest (request : Request) (readByte writeByte : ℤ) (replacedFile : Option CString)
    (k : Code) : Code :=
  .act (.log ⟨request, readByte, writeByte, replacedFile⟩) fun _ => k

/-! ## Sending a file -/

/-- `sendFileToClient`, with its result given to `k`. -/
def sendFileToClient (pathname : CString) (statusCode : ℤ) (k : ℤ → Code) : Code :=
  .act (.call (.readVirtualFile pathname)) fun res : Option (List Byte × ℕ) =>
  match res with
  | some (buf, size) =>
    .act (.write ⟨statusCode, size, str "Ready to send file", pathname⟩) fun ok : Bool =>
    if ok then
      .act (.writeBytes buf) fun ok : Bool => k (if ok then i32 size else -1)
    else k (-1)
  | none =>
    .act (.write (respond (-1) (str "Errore, impossibile leggere il file"))) fun _ => k (-1)

/-- `sendBufferFileToClient`, then `k`. -/
def sendBufferFileToClient (file : Ptr) (statusCode : ℤ) (k : Code) : Code :=
  .act (.call (.deref file)) fun f : FileNode =>
  .act (.write ⟨statusCode, f.size, str "Ready to send file", f.pathname⟩) fun ok : Bool =>
  if ok then .act (.writeBytes ((f.file.getD []).take f.size)) fun _ => k
  else k

/-! ## The controllers -/

def openFileController (request : Request) : Code :=
  logRequest request 0 0 none <|
  .lock .fileQueueMutex <|
  .lock .fileLockMutex <|
  .await (.call (.openVirtualFile request.filepath request.flags request.clientId))
    (fun status : ℤ => status = -2) [.fileQueueMutex] .fileLockCond .fileLockMutex
    fun status : ℤ =>
  .unlock .fileLockMutex <|
  .act (.write (if status = 0 then respond 0 (str "File opened!")
    else respond (-1) (str "Impossibile aprire il file!"))) fun _ =>
  .unlock .fileQueueMutex .ret

/-- `append_file_controller`, from the lock check on. -/
def appendFileBody (request : Request) : Code :=
  .act (.call (.hasFileLock request.filepath request.clientId)) fun res : ℤ =>
  if res = 0 then
    .act (.write (respond 0 (str "Ready to receive file, client has lock"))) fun ok : Bool =>
    if ok then
      .act (.read request.fileSize) fun buf : Option (List Byte) =>
      match buf with
      | some buf =>
        .act (.call (.appendVirtualFile request.filepath buf request.fileSize)) fun res : ℤ =>
        .act (.write (if res ≠ -1 then respond 0 (str "File scritto correttamente!")
          else respond (-1) (str "Errore scrittura file"))) fun _ =>
        .unlock .fileQueueMutex .ret
      | none => .unlock .fileQueueMutex .ret
    else .unlock .fileQueueMutex .ret
  else
    .act (.write (respond (-1) (str "The client doesnt have lock, aborting"))) fun _ =>
    .unlock .fileQueueMutex .ret

def appendFileController (request : Request) : Code :=
  .lock .fileQueueMutex <|
  .act (.call .getFreeSpace) fun freeSpace : ℤ =>
  if u64 freeSpace < request.fileSize then
    .act (.call (.expelFile (i32 request.fileSize))) fun data : Ptr =>
    sendBufferFileToClient data 1 <|
    .act (.call (.deref data)) fun f : FileNode =>
    logRequest request 0 (i32 request.fileSize) (some f.pathname) <|
    .act (.call (.removeNode data)) fun _ =>
    appendFileBody request
  else
    logRequest request 0 (i32 request.fileSize) none <|
    appendFileBody request

def readFileController (request : Request) : Code :=
  .lock .fileQueueMutex <|
  sendFileToClient request.filepath 0 fun rbyte =>
  if rbyte = 0 then
    logRequest request rbyte 0 none <|
    .unlock .fileQueueMutex .ret
  else .unlock .fileQueueMutex .ret

def deleteFileController (request : Request) : Code :=
  logRequest request 0 0 none <|
  .lock .fileQueueMutex <|
  .act (.call (.deleteVirtualFile request.filepath request.clientId)) fun res : ℤ =>
  .act (.write (if res = 0 then respond 0 (str "File eliminato correttamente!")
    else respond 0 (str "Errore eliminazione file"))) fun _ =>
  .unlock .fileQueueMutex .ret

/-- `write_file_controller`, from the lock check on. -/
def writeFileBody (request : Request) : Code :=
  .act (.call (.hasFileLock request.filepath request.clientId)) fun res : ℤ =>
  if res = 0 then
    .act (.write (respond 0 (str "Ready to receive file, client has lock"))) fun ok : Bool =>
    if ok then
      .act (.readData request.fileSize) fun buf : List Byte × ℤ =>
      if buf.2 ≠ -1 then
        .act (.call (.writeVirtualFile request.filepath buf.1 request.fileSize)) fun res : ℤ =>
        .act (.write (if res ≠ -1 then respond 0 (str "File scritto correttamente!")
          else respond (-1) (str "Errore scrittura file"))) fun _ =>
        .unlock .fileQueueMutex .ret
      else .unlock .fileQueueMutex .ret
    else .unlock .fileQueueMutex .ret
  else
    .act (.write (respond (-1) (str "The client doesnt have lock, aborting"))) fun _ =>
    .unlock .fileQueueMutex .ret

def writeFileController (cfg : Config) (request : Request) : Code :=
  .lock .fileQueueMutex <|
  .act (.call .getFreeSpace) fun freeSpace : ℤ =>
  if cfg.maxMemSize.toNat < request.fileSize then
    -- this exit does not give `file_queue_mutex` back
    .act (.write (respond (-1) (str "The file is too big for the server"))) fun _ => .ret
  else if u64 freeSpace < request.fileSize then
    .act (.call (.expelFile (i32 request.fileSize))) fun data : Ptr =>
    sendBufferFileToClient data 1 <|
    .act (.call (.deref data)) fun f : FileNode =>
    logRequest request 0 (i32 request.fileSize) (some f.pathname) <|
    .act (.call (.removeNode data)) fun res : ℤ =>
    if res ≠ -1 then .act .incNumFileReplacement fun _ => writeFileBody request
    else writeFileBody request
  else
    logRequest request 0 (i32 request.fileSize) none <|
    writeFileBody request

def closeFileController (request : Request) : Code :=
  logRequest request 0 0 none <|
  .lock .fileQueueMutex <|
  .act (.call (.closeVirtualFile request.filepath request.clientId)) fun res : ℤ =>
  .act (.write (if res = 0 then respond 0 (str "File chiuso correttamente!")
    else respond 0 (str "Errore chiusura file"))) fun _ =>
  .unlock .fileQueueMutex .ret

def lockFileController (request : Request) : Code :=
  logRequest request 0 0 none <|
  .lock .fileQueueMutex <|
  .lock .fileLockMutex <|
  .await (.call (.lockVirtualFile request.filepath request.clientId))
    (fun status : ℤ => status = -2) [.fileQueueMutex] .fileLockCond .fileLockMutex
    fun status : ℤ =>
  .unlock .fileLockMutex <|
  .act (.write (if status = 0 then respond 0 (str "Lock correttamente acquisito sul file!")
    else respond (-1) (str "Impossible acquisire il lock sul file"))) fun _ =>
  .unlock .fileQueueMutex .ret

def unlockFileController (request : Request) : Code :=
  logRequest request 0 0 none <|
  .lock .fileQueueMutex <|
  .act (.call (.unlockVirtualFile request.filepath request.clientId)) fun res : ℤ =>
  if res = 0 then
    .lock .fileLockMutex <|
    .broadcast .fileLockCond <|
    .unlock .fileLockMutex <|
    .act (.write (respond 0 (str "Unlock eseguito con successo!"))) fun _ =>
    .unlock .fileQueueMutex .ret
  else
    .act (.write (respond (-1) (str "Impossible effettuare unlock"))) fun _ =>
    .unlock .fileQueueMutex .ret

/-- `readn_file_controller` from `strcpy(response->message, fileList)` on. -/
def readnFileBody (statusCode : ℤ) (fileList : Option CString) : Code :=
  match fileList with
  | some fileList =>
    .act (.write (respond statusCode fileList)) fun _ =>
    .unlock .fileQueueMutex .ret
  | none => .act .crash fun _ => .ret

def readnFileController (request : Request) : Code :=
  logRequest request 0 0 none <|
  .lock .fileQueueMutex <|
  .act (.call (.getNFileList request.flags.toInt)) fun res : ℕ × Option CString =>
  if res.1 = 0 then
    .act (.write (respond (-1) (str "0 file da leggere"))) fun ok : Bool =>
    -- this exit does not give `file_queue_mutex` back
    if ok then .ret else readnFileBody (-1) res.2
  else readnFileBody (i32 res.1) res.2

/-- The `switch` of `worker`. -/
def controller (cfg : Config) (request : Request) : Code :=
  match request.operation with
  | .OP_OPEN_FILE => openFileController request
  | .OP_APPEND_FILE => appendFileController request
  | .OP_READ_FILE => readFileController request
  | .OP_DELETE_FILE => deleteFileController request
  | .OP_WRITE_FILE => writeFileController cfg request
  | .OP_CLOSE_FILE => closeFileController request
  | .OP_LOCK_FILE => lockFileController request
  | .OP_UNLOCK_FILE => unlockFileController request
  | .OP_READ_N_FILES => readnFileController request
  | .unknown _ => .ret

end FileStorage
