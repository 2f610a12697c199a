/-
  The script `statistiche.sh`, on the log files that `logRequest` writes.

  The script counts the lines with the name of an operation anywhere in them
  (`grep -c`), and goes through the lines with `read` for the bytes and the
  replaced files, which it takes from the fields between commas.

  * `statistiche_eq`: what the script prints for a log file;
  * `agrees_iff`: when it is what has been logged.
-/
import FileStorage.Decimal
import FileStorage.Lib.Tokens

namespace FileStorage.Statistiche

open Tokens Logger

/-! ## The commands of the shell -/

/-- The lines of a file, the last one also without newline. -/
def fileLines (file : CString) : List CString :=
  let ls := file.splitOn 10
  if ls.getLast? = some [] then ls.dropLast else ls

/-- `grep pat -c file`, for a pattern of plain characters. -/
def grepCount (pat file : CString) : ℕ := (fileLines file).countP fun ℓ => pat <:+: ℓ

/-- What `read` takes from its input: the characters up to a newline, each with
    a mark if a backslash quotes it, and the rest of the input, `none` if there
    was no newline.  The first argument tells that a backslash came before. -/
def readLine : Bool → CString → List (Byte × Bool) × Option CString
  | _, [] => ([], none)
  | true, b :: s => if b = 10 then readLine false s else (readLine false s).map ((b, true) :: ·) id
  | false, b :: s =>
    if b = 10 then ([], some s)
    else if b = 92 then readLine true s
    else (readLine false s).map ((b, false) :: ·) id

/-- `read line` with the default `IFS`: blanks around the line are removed. -/
def trim (cs : List (Byte × Bool)) : List (Byte × Bool) :=
  let blank := fun c => c = ((32 : Byte), false) ∨ c = ((9 : Byte), false)
  ((cs.dropWhile fun c => blank c).reverse.dropWhile fun c => blank c).reverse

/-- `read line` with a comma as `IFS`: a comma that ends the only field is
    removed. -/
def lastField (cs : List (Byte × Bool)) : List (Byte × Bool) :=
  if cs.getLast? = some (44, false) ∧ cs.count (44, false) = 1 then cs.dropLast else cs

/-- `read -a array <<< "$line"` with a comma as `IFS`. -/
def fields (line : CString) : List CString :=
  let fs := ((readLine false (line ++ [10])).1.splitOn (44, false)).map fun f => f.map Prod.fst
  if fs.getLast? = some [] then fs.dropLast else fs

/-- A sum in the arithmetic of the shell. -/
def i64 (x : ℤ) : ℤ := Int.bmod x 18446744073709551616

/-- A string of digits. -/
def allDigits (s : CString) : Bool := s.all fun b => 48 ≤ b ∧ b ≤ 57

/-- The value of a variable in `$((...))`: a decimal numeral, as `printf` writes
    it; the empty string counts as `0`. -/
def value (s : CString) : Option ℤ :=
  if s = [] then some 0
  else if s.head? = some 45 then
    if s.tail ≠ [] ∧ allDigits s.tail then some (-digitsValue s.tail) else none
  else if allDigits s then some (digitsValue s) else none

/-! ## The script -/

/-- The variables of the loop; `comma` tells that `IFS` has been set. -/
structure Vars where
  i : ℕ
  comma : Bool
  totalByteRead : ℤ
  totalByteWrite : ℤ
  contExpelled : ℤ
  deriving DecidableEq, Repr

/-- A round of the loop after the header. -/
def round (line : CString) (s : Vars) : Option Vars :=
  let array := fields line
  let bRead := array[5]?.getD []
  let bWrite := array[6]?.getD []
  let replaced := array[7]?.getD []
  (if str "WRITE" <:+: line then (value bWrite).map fun b => i64 (s.totalByteWrite + b)
    else some s.totalByteWrite).bind fun totalByteWrite =>
  (if str "READ" <:+: line ∨ str "READ_N" <:+: line then (value bRead).map fun b => i64 (s.totalByteRead + b)
    else some s.totalByteRead).map fun totalByteRead =>
  { s with
    comma := true
    totalByteRead := totalByteRead
    totalByteWrite := totalByteWrite
    contExpelled := if replaced ≠ str "null" then s.contExpelled + 1 else s.contExpelled }

/-- `while read line`; a last line without newline is not processed. -/
def loop : ℕ → CString → Vars → Option Vars
  | 0, _, _ => none
  | n + 1, input, s =>
    match readLine false input with
    | (_, none) => some s
    | (cs, some rest) =>
      let line := (if s.comma then lastField cs else trim cs).map Prod.fst
      let s := { s with i := s.i + 1 }
      if s.i = 1 then loop n rest s else (round line s).bind (loop n rest)

/-- The numbers that the script prints. -/
structure Printed where
  contRead : ℕ
  contNRead : ℕ
  contWrite : ℕ
  contLock : ℕ
  contUnlock : ℕ
  contClose : ℕ
  contOpenLock : ℕ
  contOpen : ℕ
  totalByteRead : ℤ
  totalByteWrite : ℤ
  contExpelled : ℤ
  deriving DecidableEq, Repr

def statistiche (file : CString) : Option Printed :=
  (loop (file.length + 1) file ⟨0, false, 0, 0, 0⟩).map fun s => {
    contRead := grepCount (str "READ_FILE") file
    contNRead := grepCount (str "READ_N_FILE") file
    contWrite := grepCount (str "WRITE_FILE") file
    contLock := grepCount (str "LOCK_FILE") file
    contUnlock := grepCount (str "UNLOCK_FILE") file
    contClose := grepCount (str "CLOSE_FILE") file
    contOpenLock := grepCount (str "OPEN_FILE_LOCK") file
    contOpen := grepCount (str "OPEN_FILE") file
    totalByteRead := s.totalByteRead
    totalByteWrite := s.totalByteWrite
    contExpelled := s.contExpelled }

/-! ## The lines of the log -/

/-- A byte that separates nothing and quotes nothing. -/
@[reducible] def Clean (b : Byte) : Prop := b ≠ 44 ∧ b ≠ 10 ∧ b ≠ 92 ∧ b ≠ 32 ∧ b ≠ 9

/-- The words that a pathname must not contain. -/
def words : List CString := [str "READ", str "WRITE", str "LOCK_FILE", str "OPEN_FILE", str "CLOSE_FILE"]

/-- A pathname without comma, newline, backslash or blank, and without the
    names that the script looks for. -/
structure Plain (p : CString) : Prop where
  clean : ∀ b ∈ p, Clean b
  noWord : ∀ w ∈ words, ¬ w <:+: p

/-- A call with plain pathnames; `strftime` writes digits with `/`, `-` and `:`. -/
structure Logged (l : LogCall) : Prop where
  time : ∀ b ∈ l.time, 45 ≤ b ∧ b ≤ 58
  filepath : Plain l.record.request.filepath
  replacedFile : ∀ p ∈ l.record.replacedFile, Plain p

/-- The fields of a line. -/
def lineFields (l : LogCall) (n : ℤ) : List CString :=
  (match operationName l.record.request with
    | some name => [l.time, name, decimal l.record.request.clientId]
    | none => [l.time ++ decimal l.record.request.clientId]) ++
  [decimal l.self, l.record.request.filepath, decimal l.record.readByte, decimal l.record.writeByte,
    l.record.replacedFile.getD (str "null"), decimal n]

variable {l : LogCall} {n x : ℤ} {f ℓ : CString} {b : Byte}

theorem forall_of_all {s : CString} {p : Byte → Prop} [DecidablePred p] (h : s.all (fun b => p b) = true) :
    ∀ b ∈ s, p b :=
  fun b hb => of_decide_eq_true (List.all_eq_true.1 h b hb)

theorem line_eq : l.line n = [44].intercalate (lineFields l n) ++ [10] := by
  have hcomma : str "," = [44] := rfl
  have hnewline : str "\n" = [10] := rfl
  cases hop : operationName l.record.request with
  | none => simp [LogCall.line, LogCall.before, LogCall.text, lineFields, hop, hcomma, hnewline, List.intercalate]
  | some name =>
    simp [LogCall.line, LogCall.before, LogCall.text, lineFields, hop, hcomma, hnewline, List.intercalate]

theorem decimal_neg (h : x < 0) : decimal x = 45 :: decimal (x.natAbs : ℤ) := by
  rw [decimal_natCast, decimal, if_pos h]
  rfl

theorem decimal_digits {k : ℕ} (hb : b ∈ decimal k) : 48 ≤ b ∧ b ≤ 57 := by
  have h := mem_decimal hb
  exact ⟨UInt8.le_iff_toNat_le.2 h.1, UInt8.le_iff_toNat_le.2 h.2⟩

theorem allDigits_decimal {k : ℕ} : allDigits (decimal k) = true :=
  List.all_eq_true.2 fun _ hb => decide_eq_true (decimal_digits hb)

theorem decimal_bytes (hb : b ∈ decimal x) : 45 ≤ b ∧ b ≤ 57 := by
  have h45 : (45 : Byte) ≤ 48 := by decide
  rcases lt_or_ge x 0 with hx | hx
  · rw [decimal_neg hx] at hb
    rcases List.mem_cons.1 hb with rfl | hb
    · decide
    · exact ⟨UInt8.le_trans h45 (decimal_digits hb).1, (decimal_digits hb).2⟩
  · obtain ⟨k, rfl⟩ := Int.eq_ofNat_of_zero_le hx
    exact ⟨UInt8.le_trans h45 (decimal_digits hb).1, (decimal_digits hb).2⟩

theorem decimal_ne_empty : decimal x ≠ [] := by
  rcases lt_or_ge x 0 with hx | hx
  · rw [decimal_neg hx]
    exact List.cons_ne_nil _ _
  · obtain ⟨k, rfl⟩ := Int.eq_ofNat_of_zero_le hx
    exact decimal_ne_nil

/-- **The numeral of a number has its value** in the arithmetic of the shell. -/
theorem value_decimal : value (decimal x) = some x := by
  rw [value, if_neg decimal_ne_empty]
  rcases lt_or_ge x 0 with hx | hx
  · rw [decimal_neg hx, List.head?_cons, if_pos rfl, List.tail_cons,
      if_pos ⟨decimal_ne_nil, allDigits_decimal⟩, digitsValue_decimal, Option.some.injEq]
    omega
  · obtain ⟨k, rfl⟩ := Int.eq_ofNat_of_zero_le hx
    have hhead : (decimal (k : ℤ)).head? ≠ some 45 := by
      intro h
      have h48 := (decimal_digits (List.mem_of_head? h)).1
      exact absurd h48 (by decide)
    rw [if_neg hhead, if_pos allDigits_decimal, digitsValue_decimal]

theorem clean_of_le (h : 45 ≤ b ∧ b ≤ 58) : Clean b := by
  refine ⟨?_, ?_, ?_, ?_, ?_⟩ <;> rintro rfl <;> exact absurd h (by decide)

/-- The names of the operations. -/
def operationNames : List CString :=
  [str "OPEN_FILE_LOCK", str "OPEN_FILE", str "WRITE_FILE", str "READ_FILE", str "DELETE_FILE",
    str "APPEND_FILE", str "CLOSE_FILE", str "LOCK_FILE", str "UNLOCK_FILE", str "READ_N_FILES"]

theorem operationName_mem {request : Request} {name : CString} (h : operationName request = some name) :
    name ∈ operationNames := by
  unfold operationName at h
  split at h
  · cases h
    split_ifs <;> decide
  all_goals
    cases h
    try decide

theorem lineFields_clean (h : Logged l) (hf : f ∈ lineFields l n) (hb : b ∈ f) : Clean b := by
  have hnames : ∀ w ∈ operationNames, (w.all fun c => Clean c) = true := by decide
  have h57 : (57 : Byte) ≤ 58 := by decide
  have hdecimal : ∀ {x : ℤ}, b ∈ decimal x → Clean b := fun hb =>
    clean_of_le ⟨(decimal_bytes hb).1, UInt8.le_trans (decimal_bytes hb).2 h57⟩
  have hreplaced : b ∈ l.record.replacedFile.getD (str "null") → Clean b := by
    cases hr : l.record.replacedFile with
    | none =>
      exact forall_of_all (by decide) b
    | some p => exact (h.replacedFile p hr).clean b
  rcases List.mem_append.1 hf with hf | hf
  · cases hop : operationName l.record.request with
    | none =>
      rw [hop] at hf
      rw [List.mem_singleton.1 hf] at hb
      rcases List.mem_append.1 hb with hb | hb
      · exact clean_of_le (h.time b hb)
      · exact hdecimal hb
    | some name =>
      rw [hop] at hf
      simp only [List.mem_cons, List.not_mem_nil, or_false] at hf
      rcases hf with rfl | rfl | rfl
      · exact clean_of_le (h.time b hb)
      · exact forall_of_all (hnames f (operationName_mem hop)) b hb
      · exact hdecimal hb
  · simp only [List.mem_cons, List.not_mem_nil, or_false] at hf
    rcases hf with rfl | rfl | rfl | rfl | rfl | rfl
    · exact hdecimal hb
    · exact h.filepath.clean b hb
    · exact hdecimal hb
    · exact hdecimal hb
    · exact hreplaced hb
    · exact hdecimal hb

/-! ## Finding the operation -/

/-- What the script looks for. -/
def patterns : List CString :=
  [str "READ_FILE", str "READ_N_FILE", str "WRITE_FILE", str "LOCK_FILE", str "UNLOCK_FILE", str "CLOSE_FILE",
    str "OPEN_FILE", str "OPEN_FILE_LOCK", str "WRITE", str "READ", str "READ_N"]

variable {pat : CString}

/-- Every pattern has a capital letter. -/
theorem not_infix_low (hp : pat ∈ patterns) (hf : ∀ b ∈ f, b ≤ 58 ∨ 90 < b) : ¬ pat <:+: f := by
  have hcapital : ∀ p ∈ patterns, (p.any fun b => ¬ (b ≤ 58 ∨ 90 < b)) = true := by decide
  intro h
  obtain ⟨b, hb, hb'⟩ := List.any_eq_true.1 (hcapital pat hp)
  exact of_decide_eq_true hb' (hf b (h.subset hb))

theorem not_infix_plain (hp : pat ∈ patterns) (hf : Plain f) : ¬ pat <:+: f := by
  have hword : ∀ p ∈ patterns, ∃ w ∈ words, w <:+: p := by decide
  intro h
  obtain ⟨w, hw, hwp⟩ := hword pat hp
  exact hf.noWord w hw (hwp.trans h)

/-- **What the script looks for is found in the name of the operation** and
    nowhere else in a line. -/
theorem infix_line (h : Logged l) (hp : pat ∈ patterns) :
    pat <:+: [44].intercalate (lineFields l n) ↔
      ∃ name, operationName l.record.request = some name ∧ pat <:+: name := by
  have hplain : ∀ p ∈ patterns, 44 ∉ p ∧ p ≠ [] := by decide
  obtain ⟨hcomma, hne⟩ := hplain pat hp
  have hdecimal : ∀ {x : ℤ}, ¬ pat <:+: decimal x := fun {x} =>
    not_infix_low hp fun b hb => .inl (UInt8.le_trans (decimal_bytes hb).2 (by decide))
  have htime : ¬ pat <:+: l.time := not_infix_low hp fun b hb => .inl (h.time b hb).2
  have hreplaced : ¬ pat <:+: l.record.replacedFile.getD (str "null") := by
    cases hr : l.record.replacedFile with
    | none => exact not_infix_low hp (forall_of_all (by decide))
    | some p => exact not_infix_plain hp (h.replacedFile p hr)
  have hpath := not_infix_plain hp h.filepath
  rw [infix_intercalate_iff hcomma hne]
  cases hop : operationName l.record.request with
  | none =>
    have hfirst : ¬ pat <:+: l.time ++ decimal l.record.request.clientId := by
      refine not_infix_low hp fun b hb => ?_
      rcases List.mem_append.1 hb with hb | hb
      · exact .inl (h.time b hb).2
      · exact .inl (UInt8.le_trans (decimal_bytes hb).2 (by decide))
    simp [lineFields, hop, hfirst, hdecimal, hpath, hreplaced]
  | some name => simp [lineFields, hop, htime, hdecimal, hpath, hreplaced]

/-! ## Reading the lines -/

/-- A line without its newline. -/
def lineText (x : LogCall × ℤ) : CString := [44].intercalate (lineFields x.1 x.2)

def headerText : CString :=
  str "datetime,client-id,thread-id,operation,file-target,read-byte,write-byte,replaced-file,connections"

variable {ls : List (LogCall × ℤ)} {xs : List CString} {rest : CString}

/-- The log file of a sequence of calls. -/
theorem file_eq : header ++ lines ls = ((headerText :: ls.map lineText).map (· ++ [10])).flatten := by
  have hheader : header = headerText ++ [10] := by decide +kernel
  have hlines : lines ls = ((ls.map lineText).map (· ++ [10])).flatten := by
    induction ls with
    | nil => rfl
    | cons x ls ih =>
      rw [lines] at ih ⊢
      rw [List.flatMap_cons, ih, line_eq]
      rfl
  rw [hheader, hlines]
  rfl

theorem fileLines_eq (h : ∀ ℓ ∈ xs, 10 ∉ ℓ) : fileLines ((xs.map (· ++ [10])).flatten) = xs := by
  have hsplit : ((xs.map (· ++ [10])).flatten).splitOn (10 : Byte) = xs ++ [[]] := by
    induction xs with
    | nil => rfl
    | cons ℓ xs ih =>
      obtain ⟨hℓ, h⟩ := List.forall_mem_cons.1 h
      rw [List.map_cons, List.flatten_cons, List.append_assoc, List.singleton_append,
        List.splitOn_append_cons_self_of_not_mem hℓ, ih h, List.cons_append]
  rw [fileLines, hsplit]
  simp

theorem readLine_plain (h : ∀ b ∈ ℓ, b ≠ 10 ∧ b ≠ 92) :
    readLine false (ℓ ++ 10 :: rest) = (ℓ.map (·, false), some rest) := by
  induction ℓ with
  | nil => rfl
  | cons b ℓ ih =>
    obtain ⟨hb, h⟩ := List.forall_mem_cons.1 h
    rw [List.cons_append, readLine, if_neg hb.1, if_neg hb.2, ih h]
    rfl

theorem trim_plain (h : ∀ b ∈ ℓ, b ≠ 32 ∧ b ≠ 9) : trim (ℓ.map (·, false)) = ℓ.map (·, false) := by
  have hkeep : ∀ cs : List (Byte × Bool), (∀ c ∈ cs, c.1 ≠ 32 ∧ c.1 ≠ 9) →
      cs.dropWhile (fun c => c = ((32 : Byte), false) ∨ c = ((9 : Byte), false)) = cs := by
    intro cs hcs
    cases cs with
    | nil => rfl
    | cons c cs =>
      have hc := hcs c List.mem_cons_self
      refine List.dropWhile_cons_of_neg ?_
      rw [decide_eq_true_iff]
      rintro (rfl | rfl)
      · exact hc.1 rfl
      · exact hc.2 rfl
  have hmap : ∀ c ∈ ℓ.map (·, false), c.1 ≠ 32 ∧ c.1 ≠ 9 := by
    intro c hc
    obtain ⟨b, hb, rfl⟩ := List.mem_map.1 hc
    exact h b hb
  simp only [trim]
  rw [hkeep _ hmap, hkeep _ fun c hc => hmap c (List.mem_reverse.1 hc), List.reverse_reverse]

theorem lastField_plain (h : ℓ.getLast? ≠ some 44) : lastField (ℓ.map (·, false)) = ℓ.map (·, false) := by
  refine if_neg fun hlast => h ?_
  rw [List.getLast?_map, Option.map_eq_some_iff] at hlast
  obtain ⟨⟨b, hb, heq⟩, -⟩ := hlast
  cases heq
  exact hb

theorem fields_intercalate (h : ∀ f ∈ xs, ∀ b ∈ f, Clean b) (hlast : xs.getLast? ≠ some []) (hne : xs ≠ []) :
    fields ([44].intercalate xs) = xs := by
  have hread : readLine false ([44].intercalate xs ++ [10]) =
      (([44].intercalate xs).map (·, false), some []) := by
    refine readLine_plain fun b hb => ?_
    rcases mem_intercalate hb with rfl | ⟨f, hf, hb⟩
    · decide
    · exact ⟨(h f hf b hb).2.1, (h f hf b hb).2.2.1⟩
  have hsplit : (([44].intercalate xs).map fun b => (b, false)).splitOn ((44 : Byte), false) =
      xs.map fun f => f.map (·, false) := by
    rw [map_intercalate]
    refine List.splitOn_intercalate _ (fun g hg => ?_) (by simpa using hne)
    obtain ⟨f, hf, rfl⟩ := List.mem_map.1 hg
    intro hmem
    obtain ⟨b, hb, heq⟩ := List.mem_map.1 hmem
    cases heq
    exact (h f hf 44 hb).1 rfl
  have hfst : (xs.map fun f => f.map fun b => (b, false)).map (fun f => f.map Prod.fst) = xs := by
    simp [Function.comp_def]
  rw [fields, hread, hsplit, hfst, if_neg hlast]

/-! ## The operations found -/

/-- What is looked for, in the name of the operation. -/
def found (pat : CString) (request : Request) : Bool := (operationName request).any fun name => pat <:+: name

/-- The operations that each pattern finds; `lock` is the flag `O_LOCK`. -/
def finds : List (CString × (Operation → Bool → Bool)) :=
  [(str "READ_FILE", fun op _ => op = .OP_READ_FILE),
    (str "READ_N_FILE", fun op _ => op = .OP_READ_N_FILES),
    (str "WRITE_FILE", fun op _ => op = .OP_WRITE_FILE),
    (str "LOCK_FILE", fun op _ => op = .OP_LOCK_FILE ∨ op = .OP_UNLOCK_FILE),
    (str "UNLOCK_FILE", fun op _ => op = .OP_UNLOCK_FILE),
    (str "CLOSE_FILE", fun op _ => op = .OP_CLOSE_FILE),
    (str "OPEN_FILE", fun op _ => op = .OP_OPEN_FILE),
    (str "OPEN_FILE_LOCK", fun op lock => op = .OP_OPEN_FILE ∧ lock),
    (str "WRITE", fun op _ => op = .OP_WRITE_FILE),
    (str "READ", fun op _ => op = .OP_READ_FILE ∨ op = .OP_READ_N_FILES),
    (str "READ_N", fun op _ => op = .OP_READ_N_FILES)]

/-- **Each pattern finds the operations of the table.** -/
theorem found_eq (request : Request) :
    ∀ x ∈ finds, found x.1 request = x.2 request.operation (request.flags.has O_LOCK) := by
  unfold found operationName
  cases request.operation with
  | OP_OPEN_FILE => cases request.flags.has O_LOCK <;> decide
  | unknown k =>
    intro x hx
    simp only [finds, List.mem_cons, List.not_mem_nil, or_false] at hx
    rcases hx with rfl | rfl | rfl | rfl | rfl | rfl | rfl | rfl | rfl | rfl | rfl <;> rfl
  | _ => cases request.flags.has O_LOCK <;> decide

theorem found_iff {request : Request} :
    found pat request = true ↔ ∃ name, operationName request = some name ∧ pat <:+: name := by
  cases h : operationName request <;> simp [found, h]

variable {y : LogCall × ℤ}

theorem lineText_bytes (h : Logged y.1) (hb : b ∈ lineText y) : b ≠ 10 ∧ b ≠ 92 ∧ b ≠ 32 ∧ b ≠ 9 := by
  rcases mem_intercalate hb with rfl | ⟨f, hf, hb⟩
  · decide
  · exact (lineFields_clean h hf hb).2

theorem headerText_bytes : ∀ b ∈ headerText, (b ≠ 10 ∧ b ≠ 92) ∧ (b ≤ 58 ∨ 90 < b) :=
  forall_of_all (by decide +kernel)

theorem grepCount_file (h : ∀ x ∈ ls, Logged x.1) (hp : pat ∈ patterns) :
    grepCount pat (header ++ lines ls) = ls.countP fun x => found pat x.1.record.request := by
  have hlines : ∀ ℓ ∈ headerText :: ls.map lineText, 10 ∉ ℓ := by
    refine List.forall_mem_cons.2 ⟨fun hmem => (headerText_bytes 10 hmem).1.1 rfl, fun ℓ hℓ hmem => ?_⟩
    obtain ⟨x, hx, rfl⟩ := List.mem_map.1 hℓ
    exact (lineText_bytes (h x hx) hmem).1 rfl
  have hfirst : ¬ pat <:+: headerText := not_infix_low hp fun b hb => (headerText_bytes b hb).2
  rw [grepCount, file_eq, fileLines_eq hlines, List.countP_cons_of_neg (by simpa using hfirst), List.countP_map]
  refine List.countP_congr fun x hx => ?_
  rw [Function.comp_apply, decide_eq_true_iff, found_iff]
  exact infix_line (h x hx) hp

theorem grepCount_finds (h : ∀ x ∈ ls, Logged x.1) {p : CString × (Operation → Bool → Bool)} (hp : p ∈ finds) :
    grepCount p.1 (header ++ lines ls) =
      ls.countP fun x => p.2 x.1.record.request.operation (x.1.record.request.flags.has O_LOCK) := by
  have hpatterns : ∀ p ∈ finds, p.1 ∈ patterns := by decide
  rw [grepCount_file h (hpatterns p hp)]
  exact List.countP_congr fun x _ => by rw [found_eq _ p hp]

/-- The script takes the line for one with a replaced file. -/
def expels (l : LogCall) : Bool :=
  l.record.replacedFile.getD (str "null") ≠ str "null" ∨ operationName l.record.request = none

/-- A round of the loop on the line of a call. -/
def after (s : Vars) (x : LogCall × ℤ) : Vars where
  i := s.i + 1
  comma := true
  totalByteRead := if found (str "READ") x.1.record.request ∨ found (str "READ_N") x.1.record.request then
    i64 (s.totalByteRead + x.1.record.readByte) else s.totalByteRead
  totalByteWrite := if found (str "WRITE") x.1.record.request then
    i64 (s.totalByteWrite + x.1.record.writeByte) else s.totalByteWrite
  contExpelled := if expels x.1 then s.contExpelled + 1 else s.contExpelled

theorem lineFields_last : (lineFields l n).getLast? = some (decimal n) := by
  simp [lineFields]

/-- **A round on the line of a call** reads back what the call has logged. -/
theorem round_line (h : Logged y.1) (s : Vars) :
    round (lineText y) { s with i := s.i + 1 } = some (after s y) := by
  have hfields : fields (lineText y) = lineFields y.1 y.2 := by
    refine fields_intercalate (fun f hf b hb => lineFields_clean h hf hb) ?_ ?_
    · rw [lineFields_last, ne_eq, Option.some.injEq]
      exact decimal_ne_empty
    · exact List.append_ne_nil_of_right_ne_nil _ (List.cons_ne_nil _ _)
  have hfound : ∀ p ∈ patterns, (p <:+: lineText y ↔ found p y.1.record.request = true) :=
    fun p hp => (infix_line h hp).trans found_iff.symm
  rw [round, hfields, after]
  simp only [hfound (str "WRITE") (by decide), hfound (str "READ") (by decide),
    hfound (str "READ_N") (by decide)]
  cases hop : operationName y.1.record.request with
  | none =>
    -- without operation there is no field for the replaced file
    have hnone : ∀ p, found p y.1.record.request = false := fun p => by rw [found, hop]; rfl
    have hlen : (lineFields y.1 y.2)[7]? = none := by simp [lineFields, hop]
    have hnull : ¬ str "null" = [] := by decide
    simp [hnone, hlen, expels, hop, hnull]
  | some name =>
    have hread : (lineFields y.1 y.2)[5]? = some (decimal y.1.record.readByte) := by simp [lineFields, hop]
    have hwrite : (lineFields y.1 y.2)[6]? = some (decimal y.1.record.writeByte) := by simp [lineFields, hop]
    have hreplaced : (lineFields y.1 y.2)[7]? = some (y.1.record.replacedFile.getD (str "null")) := by
      simp [lineFields, hop]
    simp only [hread, hwrite, hreplaced, Option.getD_some, value_decimal, Option.map_some, expels, hop,
      ← apply_ite some, Option.bind_some]
    simp

/-! ## The loop -/

theorem lineText_last : (lineText y).getLast? ≠ some 44 := by
  obtain ⟨fs, hfs⟩ := List.getLast?_eq_some_iff.1 (lineFields_last (l := y.1) (n := y.2))
  have hne : fs ≠ [] := by
    rintro rfl
    have hlen := congrArg List.length hfs
    cases hop : operationName y.1.record.request <;> simp [lineFields, hop] at hlen
  rw [lineText, hfs, intercalate_concat hne]
  rcases List.eq_nil_or_concat' (decimal y.2) with hnil | ⟨ds, d, hd⟩
  · exact absurd hnil decimal_ne_empty
  · have hle : 45 ≤ d := (decimal_bytes (x := y.2) (hd ▸ List.mem_append_right ds List.mem_cons_self)).1
    rw [hd, ← List.cons_append, ← List.append_assoc, List.getLast?_concat, ne_eq, Option.some.injEq]
    rintro rfl
    exact absurd hle (by decide)

theorem loop_line (h : Logged y.1) {s : Vars} (hs : s.i ≠ 0) {k : ℕ} :
    loop (k + 1) (lineText y ++ [10] ++ rest) s = loop k rest (after s y) := by
  have hread : readLine false (lineText y ++ [10] ++ rest) = ((lineText y).map (·, false), some rest) := by
    rw [List.append_assoc, List.singleton_append]
    exact readLine_plain fun b hb => ⟨(lineText_bytes h hb).1, (lineText_bytes h hb).2.1⟩
  have hline : (if s.comma then lastField ((lineText y).map (·, false))
      else trim ((lineText y).map (·, false))) = (lineText y).map (·, false) := by
    rw [lastField_plain lineText_last, trim_plain fun b hb => (lineText_bytes h hb).2.2, ite_self]
  have hfst : ((lineText y).map fun b => (b, false)).map Prod.fst = lineText y := by simp [Function.comp_def]
  simp only [loop, hread, hline, hfst, round_line h, Option.bind_some]
  exact if_neg (by omega)

theorem loop_lines (h : ∀ x ∈ ls, Logged x.1) {s : Vars} (hs : s.i ≠ 0) {k : ℕ} (hk : ls.length < k) :
    loop k ((ls.map lineText).map (· ++ [10])).flatten s = some (ls.foldl after s) := by
  obtain ⟨k, rfl⟩ : ∃ m, k = m + 1 := ⟨k - 1, by omega⟩
  induction ls generalizing s k with
  | nil => rfl
  | cons x ls ih =>
    obtain ⟨hx, h⟩ := List.forall_mem_cons.1 h
    rw [List.length_cons] at hk
    obtain ⟨k, rfl⟩ : ∃ m, k = m + 1 := ⟨k - 1, by omega⟩
    rw [List.map_cons, List.map_cons, List.flatten_cons, loop_line hx hs]
    exact ih h (Nat.succ_ne_zero _) k (by omega)

/-- **What the script prints for a log file.** -/
theorem statistiche_eq (h : ∀ x ∈ ls, Logged x.1) : statistiche (header ++ lines ls) = some {
    contRead := ls.countP fun x => x.1.record.request.operation = .OP_READ_FILE
    contNRead := ls.countP fun x => x.1.record.request.operation = .OP_READ_N_FILES
    contWrite := ls.countP fun x => x.1.record.request.operation = .OP_WRITE_FILE
    contLock := ls.countP fun x =>
      x.1.record.request.operation = .OP_LOCK_FILE ∨ x.1.record.request.operation = .OP_UNLOCK_FILE
    contUnlock := ls.countP fun x => x.1.record.request.operation = .OP_UNLOCK_FILE
    contClose := ls.countP fun x => x.1.record.request.operation = .OP_CLOSE_FILE
    contOpenLock := ls.countP fun x =>
      x.1.record.request.operation = .OP_OPEN_FILE ∧ x.1.record.request.flags.has O_LOCK
    contOpen := ls.countP fun x => x.1.record.request.operation = .OP_OPEN_FILE
    totalByteRead := (ls.foldl after ⟨1, false, 0, 0, 0⟩).totalByteRead
    totalByteWrite := (ls.foldl after ⟨1, false, 0, 0, 0⟩).totalByteWrite
    contExpelled := (ls.foldl after ⟨1, false, 0, 0, 0⟩).contExpelled } := by
  have hcount := @grepCount_finds _ h
  have hloop : loop ((header ++ lines ls).length + 1) (header ++ lines ls) ⟨0, false, 0, 0, 0⟩ =
      some (ls.foldl after ⟨1, false, 0, 0, 0⟩) := by
    have hlen := length_le_terminated 10 (headerText :: ls.map lineText)
    rw [List.length_cons, List.length_map] at hlen
    rw [List.map_cons, List.flatten_cons, List.append_assoc, List.singleton_append] at hlen
    rw [file_eq, loop, List.map_cons, List.flatten_cons, List.append_assoc, List.singleton_append,
      readLine_plain fun b hb => (headerText_bytes b hb).1]
    exact loop_lines h Nat.one_ne_zero hlen
  rw [statistiche, hloop, Option.map_some, Option.some.injEq, Printed.mk.injEq]
  exact ⟨hcount (List.getElem_mem (l := finds) (n := 0) (by decide)),
    hcount (List.getElem_mem (l := finds) (n := 1) (by decide)),
    hcount (List.getElem_mem (l := finds) (n := 2) (by decide)),
    hcount (List.getElem_mem (l := finds) (n := 3) (by decide)),
    hcount (List.getElem_mem (l := finds) (n := 4) (by decide)),
    hcount (List.getElem_mem (l := finds) (n := 5) (by decide)),
    hcount (List.getElem_mem (l := finds) (n := 7) (by decide)),
    hcount (List.getElem_mem (l := finds) (n := 6) (by decide)), rfl, rfl, rfl⟩

/-! ## The sums -/

theorem i64_eq_iff {x y : ℤ} : i64 x = y ↔
    -9223372036854775808 ≤ y ∧ y ≤ 9223372036854775807 ∧
      x % 18446744073709551616 = y % 18446744073709551616 := by
  unfold i64
  rw [Int.bmod_def]
  split <;> omega

theorem i64_add {x y : ℤ} : i64 (i64 x + y) = i64 (x + y) := by
  have h := (i64_eq_iff (x := x)).1 rfl
  have h' := (i64_eq_iff (x := x + y)).1 rfl
  rw [i64_eq_iff]
  omega

/-- The sum of the values that the records of the operations `q` have for `v`. -/
def total (q : Operation → Bool) (v : LogRecord → ℤ) (ls : List (LogCall × ℤ)) : ℤ :=
  ls.foldr (fun x t => if q x.1.record.request.operation then v x.1.record + t else t) 0

def isRead (op : Operation) : Bool := op = .OP_READ_FILE
def isReadN (op : Operation) : Bool := op = .OP_READ_N_FILES
def isWrite (op : Operation) : Bool := op = .OP_WRITE_FILE

theorem total_cons {q : Operation → Bool} {v : LogRecord → ℤ} : total q v (y :: ls) =
    if q y.1.record.request.operation then v y.1.record + total q v ls else total q v ls := rfl

theorem found_write (request : Request) : found (str "WRITE") request = isWrite request.operation :=
  found_eq request _ (List.getElem_mem (l := finds) (n := 8) (by decide))

theorem found_read (request : Request) : (found (str "READ") request ∨ found (str "READ_N") request) ↔
    isRead request.operation ∨ isReadN request.operation := by
  have hread := found_eq request _ (List.getElem_mem (l := finds) (n := 9) (by decide))
  have hreadN := found_eq request _ (List.getElem_mem (l := finds) (n := 10) (by decide))
  simp only [finds, List.getElem_cons_succ, List.getElem_cons_zero] at hread hreadN
  rw [hread, hreadN]
  simp [isRead, isReadN]

/-- A sum that every round adds to, in 64 bits. -/
theorem foldl_total {sum : Vars → ℤ} {q : Operation → Bool} {v : LogRecord → ℤ}
    (hsum : ∀ s x, sum (after s x) =
      if q x.1.record.request.operation then i64 (sum s + v x.1.record) else sum s)
    {s : Vars} {t : ℤ} (hs : sum s = i64 t) : sum (ls.foldl after s) = i64 (t + total q v ls) := by
  induction ls generalizing s t with
  | nil => simpa [total] using hs
  | cons x ls ih =>
    rw [List.foldl_cons, total_cons]
    split_ifs with hx
    · have hstep : sum (after s x) = i64 (t + v x.1.record) := by rw [hsum, if_pos hx, hs, i64_add]
      rw [ih hstep, Int.add_assoc]
    · have hstep : sum (after s x) = i64 t := by rw [hsum, if_neg hx, hs]
      exact ih hstep

/-- The sum over two kinds of operations. -/
theorem total_or {p q : Operation → Bool} {v : LogRecord → ℤ} (h : ∀ op, p op = true → q op = false) :
    total (fun op => p op || q op) v ls = total p v ls + total q v ls := by
  induction ls with
  | nil => rfl
  | cons x ls ih =>
    simp only [total_cons, ih]
    cases hp : p x.1.record.request.operation with
    | false =>
      rw [Bool.false_or, if_neg Bool.false_ne_true]
      split_ifs
      · omega
      · rfl
    | true =>
      rw [h _ hp, Bool.or_false, if_pos rfl, if_pos rfl, if_neg Bool.false_ne_true]
      omega

/-- The sum of the bytes written. -/
theorem foldl_write {s : Vars} {t : ℤ} (hs : s.totalByteWrite = i64 t) :
    (ls.foldl after s).totalByteWrite = i64 (t + total isWrite (·.writeByte) ls) := by
  refine @foldl_total _ Vars.totalByteWrite isWrite (·.writeByte) (fun s x => ?_) _ _ hs
  simp only [after, found_write]

/-- The sum of the bytes read, with those of the records of `READ_N_FILES`. -/
theorem foldl_read {s : Vars} {t : ℤ} (hs : s.totalByteRead = i64 t) :
    (ls.foldl after s).totalByteRead =
      i64 (t + (total isRead (·.readByte) ls + total isReadN (·.readByte) ls)) := by
  have hread : ∀ op, isRead op = true → isReadN op = false := by
    intro op hop
    rw [of_decide_eq_true hop]
    rfl
  rw [← total_or hread]
  refine @foldl_total _ Vars.totalByteRead (fun op => isRead op || isReadN op) (·.readByte)
    (fun s x => ?_) _ _ hs
  simp only [after, found_read, Bool.or_eq_true]

theorem foldl_expelled {s : Vars} :
    (ls.foldl after s).contExpelled = s.contExpelled + (ls.countP fun x => expels x.1 : ℕ) := by
  induction ls generalizing s with
  | nil => simp
  | cons x ls ih =>
    rw [List.foldl_cons, ih, List.countP_cons]
    by_cases hx : expels x.1
    · simp [after, hx]
      omega
    · simp [after, hx]

/-- A replaced file called `null`, which the script does not count. -/
def Null (l : LogCall) : Prop :=
  l.record.replacedFile = some (str "null") ∧ operationName l.record.request ≠ none

/-- A record of an unknown operation without replaced file, which it counts. -/
def Nameless (l : LogCall) : Prop := l.record.replacedFile = none ∧ operationName l.record.request = none

instance (l : LogCall) : Decidable (Null l) := inferInstanceAs (Decidable (_ ∧ _))
instance (l : LogCall) : Decidable (Nameless l) := inferInstanceAs (Decidable (_ ∧ _))

theorem countP_expels : (ls.countP fun x => expels x.1) + (ls.countP fun x => Null x.1) =
    (ls.countP fun x => x.1.record.replacedFile.isSome) + ls.countP fun x => Nameless x.1 := by
  induction ls with
  | nil => rfl
  | cons x ls ih =>
    simp only [List.countP_cons]
    have hone : (if expels x.1 then 1 else 0) + (if decide (Null x.1) then 1 else 0) =
        (if x.1.record.replacedFile.isSome then 1 else 0) + if decide (Nameless x.1) then 1 else 0 := by
      by_cases hop : operationName x.1.record.request = none
      · by_cases hr : x.1.record.replacedFile = none
        · simp [expels, Null, Nameless, hop, hr]
        · simp [expels, Null, Nameless, hop, hr, Option.isSome_iff_ne_none]
      · cases hr : x.1.record.replacedFile with
        | none => simp [expels, Null, Nameless, hop, hr]
        | some p => by_cases hp : p = str "null" <;> simp [expels, Null, Nameless, hop, hr, hp]
    omega

/-! ## The statistics -/

/-- What has been logged. -/
def logged (ls : List (LogCall × ℤ)) : Printed where
  contRead := ls.countP fun x => x.1.record.request.operation = .OP_READ_FILE
  contNRead := ls.countP fun x => x.1.record.request.operation = .OP_READ_N_FILES
  contWrite := ls.countP fun x => x.1.record.request.operation = .OP_WRITE_FILE
  contLock := ls.countP fun x => x.1.record.request.operation = .OP_LOCK_FILE
  contUnlock := ls.countP fun x => x.1.record.request.operation = .OP_UNLOCK_FILE
  contClose := ls.countP fun x => x.1.record.request.operation = .OP_CLOSE_FILE
  contOpenLock := ls.countP fun x =>
    x.1.record.request.operation = .OP_OPEN_FILE ∧ x.1.record.request.flags.has O_LOCK
  contOpen := ls.countP fun x => x.1.record.request.operation = .OP_OPEN_FILE
  totalByteRead := total isRead (·.readByte) ls
  totalByteWrite := total isWrite (·.writeByte) ls
  contExpelled := ls.countP fun x => x.1.record.replacedFile.isSome

/-- The script prints what has been logged. -/
def Agrees (ls : List (LogCall × ℤ)) : Prop := statistiche (header ++ lines ls) = some (logged ls)

/-- A sum that the arithmetic of the shell can hold. -/
def Fits (x : ℤ) : Prop := -9223372036854775808 ≤ x ∧ x ≤ 9223372036854775807

theorem countP_lock : (ls.countP fun x =>
      x.1.record.request.operation = .OP_LOCK_FILE ∨ x.1.record.request.operation = .OP_UNLOCK_FILE) =
    (ls.countP fun x => x.1.record.request.operation = .OP_LOCK_FILE) +
      ls.countP fun x => x.1.record.request.operation = .OP_UNLOCK_FILE := by
  induction ls with
  | nil => rfl
  | cons x ls ih =>
    simp only [List.countP_cons]
    rw [ih]
    cases x.1.record.request.operation <;> simp <;> omega

/-- **The script agrees with the log** if and only if no unlock has been logged,
    the replaced files are recognised, no bytes have been read by
    `READ_N_FILES`, and the sums fit. -/
theorem agrees_iff (h : ∀ x ∈ ls, Logged x.1) : Agrees ls ↔
    (∀ x ∈ ls, x.1.record.request.operation ≠ .OP_UNLOCK_FILE) ∧
      (ls.countP fun x => Null x.1) = (ls.countP fun x => Nameless x.1) ∧
      total isReadN (·.readByte) ls % 18446744073709551616 = 0 ∧
      Fits (total isRead (·.readByte) ls) ∧ Fits (total isWrite (·.writeByte) ls) := by
  have hexpels := @countP_expels ls
  have hwrite := @foldl_write ls ⟨1, false, 0, 0, 0⟩ 0 (by decide)
  have hread := @foldl_read ls ⟨1, false, 0, 0, 0⟩ 0 (by decide)
  have hunlock : (ls.countP fun x => x.1.record.request.operation = .OP_UNLOCK_FILE) = 0 ↔
      ∀ x ∈ ls, x.1.record.request.operation ≠ .OP_UNLOCK_FILE := by
    simp
  rw [Agrees, statistiche_eq h, Option.some.injEq, logged, Printed.mk.injEq, ← hunlock, countP_lock,
    foldl_expelled, hwrite, hread, Int.zero_add, Int.zero_add, i64_eq_iff, i64_eq_iff, Fits, Fits]
  simp only [true_and, Int.zero_add, Nat.add_eq_left, and_true]
  constructor
  · rintro ⟨hu, ⟨hr₁, hr₂, hr⟩, hw, he⟩
    exact ⟨hu, by omega, by omega, ⟨hr₁, hr₂⟩, hw⟩
  · rintro ⟨hu, hn, hr, ⟨hr₁, hr₂⟩, hw⟩
    exact ⟨hu, ⟨hr₁, hr₂, by omega⟩, hw, by omega⟩

/-- A call for the file `/srv/a`. -/
def call (op : Operation) (readByte writeByte : ℤ) : LogCall :=
  ⟨str "16/02/2022-10:00:00", 1, ⟨⟨77, op, str "/srv/a", 0, 0⟩, readByte, writeByte, none⟩⟩

theorem plain_target : Plain (str "/srv/a") := ⟨forall_of_all (by decide), by decide⟩

theorem logged_call (op : Operation) (readByte writeByte : ℤ) : Logged (call op readByte writeByte) where
  time := @forall_of_all (str "16/02/2022-10:00:00") _ _ (by decide)
  filepath := plain_target
  replacedFile p hp := by cases hp

theorem agrees_lock : Agrees
    [(call .OP_WRITE_FILE 0 12, 1), (call .OP_READ_FILE 12 0, 2), (call .OP_LOCK_FILE 0 0, 1)] :=
  (agrees_iff (by simp [logged_call])).2
    ⟨by decide, by decide, by decide, ⟨by decide, by decide⟩, ⟨by decide, by decide⟩⟩

/-- An unlock is counted as a lock. -/
theorem not_agrees_unlock : ¬ Agrees [(call .OP_UNLOCK_FILE 0 0, 1)] := by
  intro h
  have heq := (@statistiche_eq [(call .OP_UNLOCK_FILE 0 0, 1)] (by simp [logged_call])).symm.trans h
  have hlock := congrArg Printed.contLock (Option.some.inj heq)
  exact absurd hlock (by decide)

end FileStorage.Statistiche
