/-
  `readConfig` of `config.c`, and the rounds of its loop.

  The loop runs until `feof`.  A round reads a line into `buf`, cuts it with
  `strtok` and copies the first two pieces to `key` and `value`; these keep
  what an earlier round has left in them when a line has fewer pieces.  A copy
  that exceeds its array, and the use of a local variable that nothing has been
  stored in, are undefined.

  * `round_again`: a second round on the same buffer changes nothing, which is
    what the last round does after a final newline;
  * `readConfig_bytes`: on a file of lines shorter than 1000 bytes the loop
    ends, after one round for every line.
-/
import FileStorage.CTypes
import FileStorage.Lib.Tokens

namespace FileStorage.ConfigFile

open Tokens

/-! ## Strings in arrays -/

/-- The string at the start of a block: the bytes before the first zero. -/
def cstr (block : List Byte) : CString := block.takeWhile (· ≠ 0)

/-- An array `char a[n]`. -/
structure Chars (n : ℕ) where
  bytes : List Byte
  length_bytes : bytes.length = n
  deriving DecidableEq

def Chars.zeros (n : ℕ) : Chars n := ⟨calloc n, length_calloc n⟩

/-- `strcpy` to an array of `n` characters. -/
def strcpy (n : ℕ) (src : CString) : Option CString := if src.length < n then some src else none

/-- `strncpy(dst, src, k)`, which fills up with zeros and sets no terminator. -/
def strncpy {n : ℕ} (dst : Chars n) (src : CString) (k : ℕ) : Option (Chars n) :=
  if k ≤ n then
    some ⟨memcpy dst.bytes 0 ((src ++ calloc (k - src.length)).take k),
      (length_memcpy _ _ _).trans dst.length_bytes⟩
  else none

/-- The part of a string before the newline, of the length `strcspn(s, "\n")`. -/
def untilNewline (s : CString) : CString := s.takeWhile (· ≠ 10)

def isspace (b : Byte) : Bool := b = 32 ∨ (9 ≤ b ∧ b ≤ 13)

def isdigit (b : Byte) : Bool := 48 ≤ b ∧ b ≤ 57

/-- The number that a string of digits begins with. -/
def digits (s : CString) : ℕ := (s.takeWhile isdigit).foldl (fun n b => 10 * n + (b.toNat - 48)) 0

/-- `strtol(s, NULL, 10)`, with the limits of `long`. -/
def strtol (s : CString) : ℤ :=
  match s.dropWhile isspace with
  | [] => 0
  | b :: rest =>
    if b = 45 then max (-digits rest) (-9223372036854775808)
    else if b = 43 then min (digits rest) 9223372036854775807
    else min (digits (b :: rest)) 9223372036854775807

/-! ## The configuration -/

/-- `Config`. -/
structure Config where
  socketPath : Chars 100
  threadWorkers : ℤ
  maxMemSize : ℤ
  maxFile : ℤ
  logFile : Chars 255
  deriving DecidableEq

/-- The zeroed `Config`. -/
def Config.zero : Config := ⟨.zeros 100, 0, 0, 0, .zeros 255⟩

/-- The local variables, `none` before anything is stored, and the argument.
    `buf` is the string in the buffer. -/
structure Frame where
  buf : Option CString
  key : Option CString
  value : Option CString
  serverConfig : Config
  deriving DecidableEq

/-! ## The file -/

/-- The file from its position on, and the end-of-file flag. -/
structure Stream where
  rest : List Byte
  eof : Bool

/-- The bytes up to the first newline, with it. -/
def throughNewline (b : List Byte) : List Byte :=
  b.takeWhile (· ≠ 10) ++ (b.dropWhile (· ≠ 10)).take 1

/-- `fgets(buf, n, fp)`: at most `n - 1` bytes, up to a newline.  `none` is
    `NULL`, when the file has no byte left; the flag is set when the file ends
    before the line or the buffer. -/
def fgets (n : ℕ) (fp : Stream) : Option (List Byte) × Stream :=
  let text := throughNewline (fp.rest.take (n - 1))
  (if text = [] then none else some text,
    ⟨fp.rest.drop text.length, fp.eof || (10 ∉ text ∧ text.length < n - 1)⟩)

/-! ## The loop -/

/-- What `strtok` leaves of the string: it ends after its first token. -/
def firstToken (buf : CString) : CString :=
  buf.takeWhile (· = 58) ++ (buf.dropWhile (· = 58)).takeWhile (· ≠ 58)

/-- The loop over the tokens of a line. -/
def takeTokens : ℕ → List CString → Frame → Option Frame
  | _, [], s => some s
  | i, token :: rest, s =>
    if i = 0 then
      (strcpy 50 token).bind fun key => takeTokens (i + 1) rest { s with key := some key }
    else if i = 1 then
      (strcpy 50 token).bind fun value => takeTokens (i + 1) rest { s with value := some value }
    else takeTokens (i + 1) rest s

/-- The comparisons of the key, with the assignments. -/
def assign (key value : Option CString) (c : Config) : Option Config :=
  key.bind fun key =>
    if key = str "socket-path" then
      value.bind fun v => (strncpy c.socketPath v (untilNewline v).length).map fun b =>
        { c with socketPath := b }
    else if key = str "thread-workers" then
      value.map fun v => { c with threadWorkers := u32 (strtol v) }
    else if key = str "max-mem-size" then
      value.map fun v => { c with maxMemSize := u32 (strtol v) }
    else if key = str "max-file" then
      value.map fun v => { c with maxFile := u32 (strtol v) }
    else if key = str "log-file" then
      value.bind fun v => (strncpy c.logFile v (untilNewline v).length).map fun b =>
        { c with logFile := b }
    else some c

/-- A round of the loop after `fgets`. -/
def round (s : Frame) : Option Frame :=
  s.buf.bind fun buf =>
    (takeTokens 0 (tokens 58 buf) { s with buf := some (firstToken buf) }).bind fun s =>
      (assign s.key s.value s.serverConfig).map fun c => { s with serverConfig := c }

inductive Result where
  | outOfFuel
  | undefined
  | returned (result : ℤ) (serverConfig : Config)
  deriving DecidableEq

/-- The loop; a line that cannot be read leaves the buffer as it is. -/
def readLoop : ℕ → Stream → Frame → Result
  | 0, _, _ => .outOfFuel
  | n + 1, fp, s =>
    if fp.eof then .returned 0 s.serverConfig
    else
      let (line, fp) := fgets 1000 fp
      match round { s with buf := (line.map cstr).or s.buf } with
      | none => .undefined
      | some s => readLoop n fp s

/-- `readConfig`, with the contents of the configuration file, `none` if it
    cannot be opened. -/
def readConfig (file : Option (List Byte)) (serverConfig : Config) : Result :=
  match file with
  | some bytes => readLoop (bytes.length + 2) ⟨bytes, false⟩ ⟨none, none, none, serverConfig⟩
  | none => .returned (-1) serverConfig

/-! ## A round -/

variable {s s' : Frame} {ts : List CString} {c c' : Config}

theorem takeTokens_add_two (i : ℕ) : takeTokens (i + 2) ts s = some s := by
  induction ts generalizing i with
  | nil => rfl
  | cons t ts ih =>
    rw [takeTokens, if_neg (by omega), if_neg (by omega)]
    exact ih (i + 1)

/-- The first two tokens are copied, where they fit. -/
theorem takeTokens_eq : takeTokens 0 ts s =
    if ∀ t ∈ ts.take 2, t.length < 50 then
      some { s with key := ts[0]?.or s.key, value := ts[1]?.or s.value }
    else none := by
  rcases ts with _ | ⟨t, _ | ⟨u, ts⟩⟩
  · rfl
  · by_cases ht : t.length < 50
    · simp [takeTokens, strcpy, ht]
    · simp [takeTokens, strcpy, ht]
  · by_cases ht : t.length < 50
    · by_cases hu : u.length < 50
      · simp [takeTokens, strcpy, ht, hu, takeTokens_add_two]
      · simp [takeTokens, strcpy, ht, hu]
    · simp [takeTokens, strcpy, ht]

inductive PathSetting where
  | socketPath
  | logFile
  deriving DecidableEq

inductive NumberSetting where
  | threadWorkers
  | maxMemSize
  | maxFile
  deriving DecidableEq

/-- The settings of the server. -/
inductive Setting where
  | path (p : PathSetting)
  | number (m : NumberSetting)
  deriving DecidableEq

def Setting.name : Setting → CString
  | .path .socketPath => str "socket-path"
  | .number .threadWorkers => str "thread-workers"
  | .number .maxMemSize => str "max-mem-size"
  | .number .maxFile => str "max-file"
  | .path .logFile => str "log-file"

/-- The setting with the name `key`. -/
def named (key : CString) : Option Setting :=
  [.path .socketPath, .number .threadWorkers, .number .maxMemSize, .number .maxFile, .path .logFile].find?
    (·.name = key)

theorem named_eq_some {key : CString} {x : Setting} : named key = some x ↔ key = x.name := by
  constructor
  · intro h
    unfold named at h
    have hname := List.find?_some h
    exact (of_decide_eq_true hname).symm
  · rintro rfl
    rcases x with (_ | _) | (_ | _ | _) <;> decide

/-- The assignment to a setting. -/
def Config.put (c : Config) (v : CString) : Setting → Option Config
  | .path .socketPath =>
    (strncpy c.socketPath v (untilNewline v).length).map fun b => { c with socketPath := b }
  | .path .logFile => (strncpy c.logFile v (untilNewline v).length).map fun b => { c with logFile := b }
  | .number .threadWorkers => some { c with threadWorkers := u32 (strtol v) }
  | .number .maxMemSize => some { c with maxMemSize := u32 (strtol v) }
  | .number .maxFile => some { c with maxFile := u32 (strtol v) }

theorem assign_eq {key value : Option CString} : assign key value c =
    key.bind fun key => (named key).elim (some c) fun x => value.bind fun v => c.put v x := by
  cases key with
  | none => rfl
  | some key =>
    rw [assign, Option.bind_some, Option.bind_some]
    split_ifs with h₁ h₂ h₃ h₄ h₅
    · rw [(named_eq_some (x := .path .socketPath)).2 h₁]
      rfl
    · rw [(named_eq_some (x := .number .threadWorkers)).2 h₂, Option.map_eq_bind]
      rfl
    · rw [(named_eq_some (x := .number .maxMemSize)).2 h₃, Option.map_eq_bind]
      rfl
    · rw [(named_eq_some (x := .number .maxFile)).2 h₄, Option.map_eq_bind]
      rfl
    · rw [(named_eq_some (x := .path .logFile)).2 h₅]
      rfl
    · have hnone : named key = none := by
        rw [Option.eq_none_iff_forall_ne_some]
        intro x hx
        rw [named_eq_some] at hx
        rcases x with (_ | _) | (_ | _ | _)
        exacts [h₁ hx, h₅ hx, h₂ hx, h₃ hx, h₄ hx]
      rw [hnone]
      rfl

theorem memcpy_again (dst src : List Byte) : memcpy (memcpy dst 0 src) 0 src = memcpy dst 0 src := by
  have hlen := length_memcpy dst 0 src
  have hdrop : (memcpy dst 0 src).drop (0 + src.length) = dst.drop (0 + src.length) := by
    by_cases h : src.length ≤ dst.length
    · simp only [memcpy, List.take_zero, List.nil_append, Nat.sub_zero, Nat.zero_add, List.take_of_length_le h]
      exact List.drop_left
    · rw [List.drop_eq_nil_of_le (by omega), List.drop_eq_nil_of_le (by omega)]
  rw [memcpy, hdrop, hlen]
  rfl

theorem strncpy_again {n k : ℕ} {d d' : Chars n} {v : CString} (h : strncpy d v k = some d') :
    strncpy d' v k = some d' := by
  unfold strncpy at h ⊢
  split_ifs at h ⊢ with hk
  rw [Option.some.injEq] at h
  subst h
  rw [Option.some.injEq, Chars.mk.injEq]
  exact memcpy_again _ _

theorem Config.put_again {v : CString} {x : Setting} (h : c.put v x = some c') : c'.put v x = some c' := by
  rcases x with (_ | _) | (_ | _ | _)
  · obtain ⟨b, hb, rfl⟩ := Option.map_eq_some_iff.1 h
    exact Option.map_eq_some_iff.2 ⟨b, strncpy_again hb, rfl⟩
  · obtain ⟨b, hb, rfl⟩ := Option.map_eq_some_iff.1 h
    exact Option.map_eq_some_iff.2 ⟨b, strncpy_again hb, rfl⟩
  all_goals
    rw [Config.put, Option.some.injEq] at h
    subst h
    rfl

theorem assign_again {key value : Option CString} (h : assign key value c = some c') :
    assign key value c' = some c' := by
  rw [assign_eq] at h ⊢
  obtain ⟨k, rfl, hk⟩ := Option.bind_eq_some_iff.1 h
  rw [Option.bind_some]
  cases hx : named k with
  | none => rfl
  | some x =>
    rw [hx, Option.elim_some] at hk
    obtain ⟨v, rfl, hv⟩ := Option.bind_eq_some_iff.1 hk
    exact Config.put_again hv

/-- What a round does with the string in the buffer. -/
theorem round_eq_some {buf : CString} {key value : Option CString} :
    round ⟨some buf, key, value, c⟩ = some s' ↔ (∀ t ∈ (tokens 58 buf).take 2, t.length < 50) ∧
      ∃ c', assign ((tokens 58 buf)[0]?.or key) ((tokens 58 buf)[1]?.or value) c = some c' ∧
        s' = ⟨some (firstToken buf), (tokens 58 buf)[0]?.or key, (tokens 58 buf)[1]?.or value, c'⟩ := by
  rw [round, Option.bind_some, takeTokens_eq]
  split_ifs with h
  · rw [Option.bind_some, Option.map_eq_some_iff]
    constructor
    · rintro ⟨c, hc, rfl⟩
      exact ⟨h, c, hc, rfl⟩
    · rintro ⟨-, c, hc, rfl⟩
      exact ⟨c, hc, rfl⟩
  · exact ⟨fun h' => absurd h' (by simp), fun h' => absurd h'.1 h⟩

/-- **A round on a buffer that has been cut** changes the buffer at most. -/
theorem round_again (h : round s = some s') : ∃ buf, round s' = some { s' with buf := buf } := by
  obtain ⟨b, key, value, c₀⟩ := s
  obtain ⟨buf, rfl, -⟩ := Option.bind_eq_some_iff.1 h
  obtain ⟨hshort, c, hc, rfl⟩ := round_eq_some.1 h
  have hcut : tokens 58 (firstToken buf) = (tokens 58 buf).take 1 := tokens_cut
  refine ⟨some (firstToken (firstToken buf)), round_eq_some.2 ⟨?_, c, ?_⟩⟩
  · intro t ht
    rw [hcut, List.take_take] at ht
    exact hshort t (List.take_subset_take_left _ (by omega) ht)
  · have hkey : ((tokens 58 buf).take 1)[0]?.or ((tokens 58 buf)[0]?.or key) = (tokens 58 buf)[0]?.or key := by
      cases tokens 58 buf <;> rfl
    have hvalue : ((tokens 58 buf).take 1)[1]? = none := by
      cases tokens 58 buf <;> rfl
    rw [hcut, hkey, hvalue, Option.none_or]
    exact ⟨assign_again hc, rfl⟩

/-! ## The rounds on a file -/

/-- A line without its newline, and if it has one. -/
structure Line where
  text : List Byte
  ended : Bool
  deriving DecidableEq

def Line.bytes (r : Line) : List Byte := r.text ++ if r.ended then [10] else []

/-- A file of lines shorter than 1000 bytes, with their newlines.  `last` is
    what follows the last newline. -/
structure TextFile where
  lines : List (List Byte)
  last : List Byte
  lines_noNewline : ∀ ℓ ∈ lines, 10 ∉ ℓ
  last_noNewline : 10 ∉ last
  lines_short : ∀ ℓ ∈ lines, ℓ.length + 1 < 1000
  last_short : last.length < 1000

def TextFile.bytes (f : TextFile) : List Byte := (f.lines.map (· ++ [10])).flatten ++ f.last

/-- The lines in a list of lines and what follows them. -/
def linesOf (lines : List (List Byte)) (last : List Byte) : List Line :=
  lines.map (⟨·, true⟩) ++ if last = [] then [] else [⟨last, false⟩]

/-- The rounds on lines. -/
def rounds (s : Frame) (rs : List Line) : Option Frame :=
  rs.foldlM (fun s r => round { s with buf := some (cstr r.bytes) }) s

theorem throughNewline_append {ℓ rest : List Byte} (h : 10 ∉ ℓ) :
    throughNewline (ℓ ++ 10 :: rest) = ℓ ++ [10] := by
  rw [throughNewline, takeWhile_of_not_mem h, dropWhile_of_not_mem h]
  simp

theorem throughNewline_self {ℓ : List Byte} (h : 10 ∉ ℓ) : throughNewline ℓ = ℓ := by
  have hdrop := dropWhile_of_not_mem h []
  rw [List.append_nil] at hdrop
  rw [throughNewline, takeWhile_self h, hdrop]
  exact List.append_nil ℓ

theorem fgets_line {ℓ rest : List Byte} (h : 10 ∉ ℓ) (hlen : ℓ.length + 1 < 1000) :
    fgets 1000 ⟨ℓ ++ [10] ++ rest, false⟩ = (some (ℓ ++ [10]), ⟨rest, false⟩) := by
  have hle : (ℓ ++ [10]).length ≤ 1000 - 1 := by
    rw [List.length_append, List.length_singleton]
    omega
  have htake : (ℓ ++ [10] ++ rest).take (1000 - 1) =
      ℓ ++ 10 :: rest.take (1000 - 1 - (ℓ ++ [10]).length) := by
    rw [List.take_append, List.take_of_length_le hle, List.append_assoc, List.singleton_append]
  simp only [fgets, htake, throughNewline_append h, List.drop_left]
  simp

theorem fgets_last {ℓ : List Byte} (h : 10 ∉ ℓ) (hlen : ℓ.length < 1000) :
    fgets 1000 ⟨ℓ, false⟩ = (if ℓ = [] then none else some ℓ, ⟨[], decide (ℓ.length < 999)⟩) := by
  have htake : ℓ.take (1000 - 1) = ℓ := List.take_of_length_le (by omega)
  simp only [fgets, htake, throughNewline_self h, List.drop_length]
  simp [h]

variable {lines : List (List Byte)} {last : List Byte} {n : ℕ}

theorem readLoop_succ (fp : Stream) (h : fp.eof = false) : readLoop (n + 1) fp s =
    (round { s with buf := ((fgets 1000 fp).1.map cstr).or s.buf }).elim .undefined
      (readLoop n (fgets 1000 fp).2) := by
  simp only [readLoop, h]
  cases round { s with buf := ((fgets 1000 fp).1.map cstr).or s.buf } <;> rfl

theorem readLoop_eof (fp : Stream) (h : fp.eof = true) :
    readLoop (n + 1) fp s = .returned 0 s.serverConfig := by
  rw [readLoop, if_pos h]

/-- The round after a final newline works on the buffer of the round before. -/
theorem readLoop_end (hs : ∃ buf, round s = some { s with buf := buf }) :
    readLoop (n + 2) ⟨[], false⟩ s = .returned 0 s.serverConfig := by
  obtain ⟨buf, hs⟩ := hs
  rw [readLoop_succ _ rfl, fgets_last List.not_mem_nil (by decide), if_pos rfl, Option.map_none, Option.none_or,
    hs]
  exact readLoop_eof _ rfl

theorem rounds_cons (r : Line) (rs : List Line) : rounds s (r :: rs) =
    (round { s with buf := some (cstr r.bytes) }).bind fun s' => rounds s' rs :=
  List.foldlM_cons

/-- The loop on a file without newline. -/
theorem readLoop_last (h : 10 ∉ last) (hlen : last.length < 1000) (hn : last.length + 2 ≤ n)
    (hs : last = [] → ∃ buf, round s = some { s with buf := buf }) :
    readLoop n ⟨last, false⟩ s =
      (rounds s (linesOf [] last)).elim .undefined fun s' => .returned 0 s'.serverConfig := by
  obtain ⟨n, rfl⟩ : ∃ k, n = k + 2 := ⟨n - 2, by omega⟩
  by_cases hlast : last = []
  · subst hlast
    exact readLoop_end (hs rfl)
  · have hrows : linesOf [] last = [⟨last, false⟩] := if_neg hlast
    rw [hrows, rounds_cons, readLoop_succ _ rfl, fgets_last h hlen, if_neg hlast]
    rw [show Line.bytes ⟨last, false⟩ = last from List.append_nil last]
    cases hr : round { s with buf := some (cstr last) } with
    | none => simp [hr]
    | some s' =>
      rw [Option.map_some, Option.some_or, hr]
      -- the flag is set, except if the buffer is full
      by_cases hfull : last.length < 999
      · exact readLoop_eof _ (decide_eq_true hfull)
      · obtain ⟨n, rfl⟩ : ∃ k, n = k + 1 := ⟨n - 1, by omega⟩
        have hflag : decide (last.length < 999) = false := decide_eq_false hfull
        rw [hflag]
        exact readLoop_end (round_again hr)

/-- **The loop makes one round for every line** of the file. -/
theorem readLoop_lines (hℓ : ∀ ℓ ∈ lines, 10 ∉ ℓ ∧ ℓ.length + 1 < 1000) (h : 10 ∉ last)
    (hlen : last.length < 1000) (hn : lines.length + last.length + 2 ≤ n)
    (hs : lines = [] → last = [] → ∃ buf, round s = some { s with buf := buf }) :
    readLoop n ⟨(lines.map (· ++ [10])).flatten ++ last, false⟩ s =
      (rounds s (linesOf lines last)).elim .undefined fun s' => .returned 0 s'.serverConfig := by
  induction lines generalizing n s with
  | nil => exact readLoop_last h hlen (by simpa using hn) (hs rfl)
  | cons ℓ lines ih =>
    obtain ⟨n, rfl⟩ : ∃ k, n = k + 1 := ⟨n - 1, by omega⟩
    obtain ⟨⟨hno, hshort⟩, hℓ⟩ := List.forall_mem_cons.1 hℓ
    have hrows : linesOf (ℓ :: lines) last = ⟨ℓ, true⟩ :: linesOf lines last := rfl
    rw [hrows, rounds_cons, readLoop_succ _ rfl, List.map_cons, List.flatten_cons, List.append_assoc,
      fgets_line hno hshort]
    rw [show Line.bytes ⟨ℓ, true⟩ = ℓ ++ [10] from rfl]
    cases hr : round { s with buf := some (cstr (ℓ ++ [10])) } with
    | none => simp [hr]
    | some s' =>
      rw [Option.map_some, Option.some_or, hr]
      refine ih hℓ ?_ fun _ _ => round_again hr
      rw [List.length_cons] at hn
      omega

/-- The frame at the start. -/
def Frame.start (c : Config) : Frame := ⟨none, none, none, c⟩

def TextFile.rows (f : TextFile) : List Line := linesOf f.lines f.last

/-- **`readConfig` on a file that is not empty** goes through its lines, and
    ends. -/
theorem readConfig_bytes {f : TextFile} (hf : f.rows ≠ []) :
    readConfig (some f.bytes) c =
      (rounds (.start c) f.rows).elim .undefined fun s => .returned 0 s.serverConfig := by
  refine readLoop_lines (fun ℓ hℓ => ⟨f.lines_noNewline ℓ hℓ, f.lines_short ℓ hℓ⟩) f.last_noNewline
    f.last_short ?_ ?_
  · have hlines := length_le_terminated 10 f.lines
    rw [TextFile.bytes, List.length_append]
    omega
  · intro hlines hlast
    exact absurd (by rw [TextFile.rows, linesOf, hlines, hlast]; rfl) hf

/-- On the empty file it uses the buffer without anything in it. -/
theorem readConfig_nil {f : TextFile} (hf : f.rows = []) : readConfig (some f.bytes) c = .undefined := by
  have hlines : f.lines = [] := List.map_eq_nil_iff.1 (List.append_eq_nil_iff.1 hf).1
  have hlast : f.last = [] := by
    by_contra hne
    rw [TextFile.rows, linesOf, if_neg hne] at hf
    exact List.cons_ne_nil _ _ (List.append_eq_nil_iff.1 hf).2
  rw [TextFile.bytes, hlines, hlast]
  rfl

end FileStorage.ConfigFile
