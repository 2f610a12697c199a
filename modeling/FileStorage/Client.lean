/-
  The client API of `serverApi.c`, with `waitServerFile` and `saveFileDir` of
  the client's `utils.c`, as programs.

  A function takes what is to be done with its result.  `pid` is the process
  id, `disk` the local files (`none` if one cannot be opened).  A local file may
  change between the request, which has its size, and the moment in which its
  contents are read.  The pathnames fit into a `Request`; what a function does
  not set of its local `Request` is arbitrary (`newRequest`).
-/
import FileStorage.Actions

namespace FileStorage

open Threads

/-- The actions of a client. -/
inductive ClientAct where
  /-- a local variable `request`, not yet set -/
  | newRequest
  /-- `write(fd_socket, &request, sizeof(Request))` -/
  | write (request : Request)
  /-- `read(fd_socket, &response, sizeof(Response))` -/
  | readResponse
  /-- `write(fd_socket, buf, |buf|)` -/
  | writeBytes (buf : List Byte)
  /-- `readData(fd_socket, buf, size)` -/
  | readData (size : ℕ)
  /-- `read(fd_socket, buf, size)` -/
  | read (size : ℕ)
  /-- `saveFileDir(buf, |buf|, dirname, fileName)` -/
  | saveFileDir (buf : List Byte) (dirname fileName : CString)
  /-- the API function returns `res` -/
  | returns (res : ℤ)

/-- The answers, as for the actions of a worker; for `readResponse` the
    response, if the result differs from `-1`. -/
@[reducible] def ClientAct.Ans : ClientAct → Type
  | .newRequest => Request
  | .write _ | .writeBytes _ => Bool
  | .readResponse => Option Response
  | .readData _ => List Byte × ℤ
  | .read _ => Option (List Byte)
  | .saveFileDir _ _ _ | .returns _ => Unit

/-- The signature of the client's programs, which have one thread. -/
abbrev clientSig : Sig := ⟨ClientAct, ClientAct.Ans, Empty, Empty⟩

abbrev ClientCode : Type := Prog clientSig

/-- What the client does not determine. -/
structure ClientEnv where
  /-- the write or read succeeds -/
  ok : Bool
  /-- the response received -/
  response : Response
  /-- the bytes received -/
  bytes : List Byte
  /-- the value of an unset integer -/
  unset : ℤ
  /-- the value of an unset request -/
  request : Request

/-- Execution of an action; the state is the result of the API function, once
    it has returned.  `saveFileDir` takes the part of `fileName` from the last
    `/` on and is killed if there is none. -/
def clientExec : Exec clientSig (Option ℤ) ClientEnv
  | .newRequest, e, s => some (e.request, s)
  | .write _, e, s | .writeBytes _, e, s => some (e.ok, s)
  | .readResponse, e, s => some (if e.ok then some e.response else none, s)
  | .readData size, e, s =>
    some ((received size e.bytes, if size = 0 then e.unset else e.unset % size + 1), s)
  | .read size, e, s => some (if e.ok then some (received size e.bytes) else none, s)
  | .saveFileDir _ _ fileName, _, s => if 47 ∈ fileName then some ((), s) else none
  | .returns res, _, _ => some ((), some res)

/-! ## The functions -/

/-- `sendRequest`; its callers do not look at the response. -/
def sendRequest (request : Request) (k : ℤ → ClientCode) : ClientCode :=
  .act (.write request) fun ok : Bool =>
  if ok then
    .act .readResponse fun response : Option Response =>
    if response.isSome then k 0 else k (-1)
  else k (-1)

def openFile (pid : ℤ) (pathname : CString) (flags : Flags) (k : ℤ → ClientCode) : ClientCode :=
  .act .newRequest fun request : Request =>
  .act (.write { request with
    clientId := pid, operation := .OP_OPEN_FILE, flags := flags, filepath := pathname }) fun ok : Bool =>
  if ok then
    .act .readResponse fun response : Option Response =>
    match response with
    | some response => k response.statusCode
    | none => k (-1)
  else k (-1)

/-- `waitServerFile`; `k` also gets the buffer. -/
def waitServerFile (k : ℤ → List Byte → ClientCode) : ClientCode :=
  .act .readResponse fun response : Option Response =>
  match response with
  | some response =>
    if response.statusCode = -1 then k (-1) []
    else
      .act (.readData response.fileSize) fun buf : List Byte × ℤ =>
      if buf.2 ≠ -1 then k 0 buf.1 else k (-1) buf.1
  | none => k (-1) []

def readFile (pid : ℤ) (pathname : CString) (k : ℤ → List Byte → ClientCode) : ClientCode :=
  .act .newRequest fun request : Request =>
  .act (.write { request with
    operation := .OP_READ_FILE, filepath := pathname, clientId := pid, flags := 0 }) fun ok : Bool =>
  if ok then waitServerFile k else k (-1) []

/-- `if(dirname != NULL) saveFileDir(...)`, then `k`. -/
def saveExpelled (buf : List Byte) (dirname : Option CString) (fileName : CString)
    (k : ClientCode) : ClientCode :=
  match dirname with
  | some dirname => .act (.saveFileDir buf dirname fileName) fun _ => k
  | none => k

/-- A local file that `writeFile` has opened. -/
structure LocalFile where
  /-- the size that `ftell` finds, before the request -/
  size : ℕ
  /-- the contents that `fread` finds, after the answers -/
  contents : List Byte
  deriving DecidableEq, Repr

/-- What is read into a buffer of `size` zero bytes. -/
def LocalFile.buffer (file : LocalFile) : List Byte := received file.size file.contents

/-- A file that does not change in between. -/
def LocalFile.steady (contents : List Byte) : LocalFile := ⟨contents.length, contents⟩

@[simp] theorem LocalFile.length_buffer (file : LocalFile) : file.buffer.length = file.size := by
  simp [buffer, received]

@[simp] theorem LocalFile.buffer_steady (contents : List Byte) : (steady contents).buffer = contents := by
  simp [buffer, steady, received]

/-- `writeFile` and `appendToFile` from `if(response.statusCode == -1)` on. -/
def sendContent (content : List Byte) (response : Response) (k : ℤ → ClientCode) : ClientCode :=
  if response.statusCode = -1 then k (-1)
  else
    .act (.writeBytes content) fun ok : Bool =>
    if ok then
      -- if the read fails the response stays as it was
      .act .readResponse fun final : Option Response => k (final.getD response).statusCode
    else k (-1)

def writeFile (pid : ℤ) (disk : CString → Option LocalFile) (pathname dirname : Option CString)
    (k : ℤ → ClientCode) : ClientCode :=
  match pathname with
  | none => k (-1)
  | some pathname =>
  match disk pathname with
  | none => k (-1)
  | some file =>
    .act .newRequest fun request : Request =>
    .act (.write { request with
      operation := .OP_WRITE_FILE, filepath := pathname, clientId := pid,
      fileSize := file.size }) fun ok : Bool =>
    if ok then
      .act .readResponse fun response : Option Response =>
      match response with
      | some response =>
        if response.statusCode = 1 then
          .act (.readData response.fileSize) fun buf : List Byte × ℤ =>
          if buf.2 = -1 then k (-1)
          else
            saveExpelled buf.1 dirname response.fileName <|
            .act .readResponse fun second : Option Response =>
            sendContent file.buffer (second.getD response) k
        else sendContent file.buffer response k
      | none => k (-1)
    else k (-1)

def appendToFile (pid : ℤ) (pathname : Option CString) (buf : Option (List Byte))
    (dirname : Option CString) (k : ℤ → ClientCode) : ClientCode :=
  match pathname, buf with
  | some pathname, some buf =>
    .act .newRequest fun request : Request =>
    .act (.write { request with
      operation := .OP_APPEND_FILE, filepath := pathname, clientId := pid,
      fileSize := buf.length }) fun ok : Bool =>
    if ok then
      .act .readResponse fun response : Option Response =>
      match response with
      | some response =>
        if response.statusCode = 1 then
          .act (.read response.fileSize) fun buf2 : Option (List Byte) =>
          saveExpelled (buf2.getD []) dirname response.fileName <|
          .act .readResponse fun second : Option Response =>
          sendContent buf (second.getD response) k
        else sendContent buf response k
      | none => k (-1)
    else k (-1)
  | _, _ => k (-1)

/-- `lockFile`, `unlockFile`, `removeFile` and `closeFile`. -/
def sendPath (op : Operation) (pid : ℤ) (pathname : Option CString) (k : ℤ → ClientCode) :
    ClientCode :=
  match pathname with
  | none => k (-1)
  | some pathname =>
    .act .newRequest fun request : Request =>
    sendRequest { request with operation := op, filepath := pathname, clientId := pid } k

def lockFile : ℤ → Option CString → (ℤ → ClientCode) → ClientCode := sendPath .OP_LOCK_FILE

def unlockFile : ℤ → Option CString → (ℤ → ClientCode) → ClientCode := sendPath .OP_UNLOCK_FILE

def removeFile : ℤ → Option CString → (ℤ → ClientCode) → ClientCode := sendPath .OP_DELETE_FILE

def closeFile : ℤ → Option CString → (ℤ → ClientCode) → ClientCode := sendPath .OP_CLOSE_FILE

/-- The tokens that `strtok(message, ",")` finds. -/
def strtok (message : CString) : List CString := (message.splitOn 44).filter (· ≠ [])

/-- The loop of `readNFiles`. -/
def readTokens (pid : ℤ) (dirname : CString) (k : ClientCode) : List CString → ClientCode
  | [] => k
  | token :: tokens =>
    readFile pid token fun res buf =>
    if res ≠ -1 then
      .act (.saveFileDir buf dirname token) fun _ => readTokens pid dirname k tokens
    else readTokens pid dirname k tokens

def readNFiles (pid N : ℤ) (dirname : Option CString) (k : ℤ → ClientCode) : ClientCode :=
  match dirname with
  | none => k (-1)
  | some dirname =>
    .act .newRequest fun request : Request =>
    .act (.write { request with
      operation := .OP_READ_N_FILES, clientId := pid, flags := BitVec.ofInt 32 N }) fun ok : Bool =>
    if ok then
      .act .readResponse fun response : Option Response =>
      match response with
      | some response =>
        if response.statusCode = -1 then k (-1)
        else readTokens pid dirname (k 0) (strtok response.message)
      | none => k (-1)
    else k (-1)

/-! ## The calls -/

/-- A call of an API function; a pointer that the function tests may be null. -/
inductive ApiCall where
  | openFile (pathname : CString) (flags : Flags)
  | readFile (pathname : CString)
  | writeFile (pathname dirname : Option CString)
  | appendToFile (pathname : Option CString) (buf : Option (List Byte)) (dirname : Option CString)
  | lockFile (pathname : Option CString)
  | unlockFile (pathname : Option CString)
  | removeFile (pathname : Option CString)
  | closeFile (pathname : Option CString)
  | readNFiles (N : ℤ) (dirname : Option CString)

/-- The function returns. -/
def returning (res : ℤ) : ClientCode := .act (.returns res) fun _ => .ret

def ApiCall.code (pid : ℤ) (disk : CString → Option LocalFile) : ApiCall → ClientCode
  | .openFile pathname flags => FileStorage.openFile pid pathname flags returning
  | .readFile pathname => FileStorage.readFile pid pathname fun res _ => returning res
  | .writeFile pathname dirname => FileStorage.writeFile pid disk pathname dirname returning
  | .appendToFile pathname buf dirname => FileStorage.appendToFile pid pathname buf dirname returning
  | .lockFile pathname => FileStorage.lockFile pid pathname returning
  | .unlockFile pathname => FileStorage.unlockFile pid pathname returning
  | .removeFile pathname => FileStorage.removeFile pid pathname returning
  | .closeFile pathname => FileStorage.closeFile pid pathname returning
  | .readNFiles N dirname => FileStorage.readNFiles pid N dirname returning

end FileStorage
