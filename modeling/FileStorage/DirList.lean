/-
  `getFileListFromDir` of the client's `utils.c`.

  It reads the output of `find`, a line for each file, and joins the lines with
  commas; the list is allocated anew for every line.  The counter is tested
  after a line has been added, and counted up afterwards.

  * `getFileListFromDir_ends`: the loop ends, whatever the output;
  * `getFileListFromDir_eq`: the list that it returns, for every output of `find`
    and every limit;
  * `listsFiles_iff`: the limits for which it is the list that the options of the
    client document.
-/
import FileStorage.ConfigFile

namespace FileStorage

open Tokens

open ConfigFile (Stream fgets cstr untilNewline)

/-! ## Strings on the heap -/

/-- The string at the start of a block, if it has a terminator. -/
def string (block : List Byte) : Option CString := if 0 ∈ block then some (cstr block) else none

/-- Writing to a block at an offset. -/
def writeAt (block : List Byte) (off : ℕ) (src : List Byte) : Option (List Byte) :=
  if off + src.length ≤ block.length then some (memcpy block off src) else none

/-- `strcat`, or `strncat` of the whole string `src`. -/
def strcat (block : List Byte) (src : CString) : Option (List Byte) :=
  (string block).bind fun s => writeAt block s.length (src ++ [0])

/-! ## The function -/

/-- A round of the loop, up to the test of the counter: the list with one more
    line, `none` where memory outside of a block is used. -/
def addFile (fileList : Option (List Byte)) (output : CString) : Option (List Byte) :=
  match fileList with
  | none => writeAt (calloc (output.length + 1)) 0 output
  | some fileList =>
    (string fileList).bind fun s =>
    (writeAt (calloc (s.length + 1)) 0 s).bind fun tmp =>
    (string tmp).bind fun s =>
    (writeAt (calloc (s.length + output.length + 2)) 0 s).bind fun fileList =>
    (strcat fileList [44]).bind fun fileList => strcat fileList output

inductive ListResult where
  | outOfFuel
  | undefined
  | returned (fileList : Option (List Byte))
  deriving DecidableEq

/-- The loop; `cont` counts the lines, if there is a limit. -/
def readNames (maxFile : ℤ) : ℕ → Stream → Option (List Byte) → ℤ → ListResult
  | 0, _, _, _ => .outOfFuel
  | n + 1, fp, fileList, cont =>
    match fgets 1000 fp with
    | (none, _) => .returned fileList
    | (some line, fp) =>
      match addFile fileList (untilNewline (cstr line)) with
      | none => .undefined
      | some fileList =>
        if cont = maxFile then .returned (some fileList)
        else readNames maxFile n fp (some fileList) (if maxFile ≠ -1 then i32 (cont + 1) else cont)

/-- `getFileListFromDir`.  `popen` gives the output of a command, `none` if it
    cannot be run; the command is built in an array of 255 bytes. -/
def getFileListFromDir (popen : CString → Option (List Byte)) (dirname : CString) (maxFile : ℤ) :
    ListResult :=
  let command := str "find " ++ dirname ++ str " -type f"
  if command.length < 255 then
    match popen command with
    | some output => readNames maxFile (output.length + 1) ⟨output, false⟩ none 0
    | none => .returned none
  else .undefined

/-! ## The end of the loop -/

/-- `fgets` takes a byte, or finds the end. -/
theorem fgets_shorter {n : ℕ} {fp fp' : Stream} {line : List Byte} (h : fgets n fp = (some line, fp')) :
    fp'.rest.length < fp.rest.length := by
  obtain ⟨hline, rfl⟩ := Prod.mk.inj h
  have hnil : ConfigFile.throughNewline (fp.rest.take (n - 1)) ≠ [] := fun hnil => by
    rw [if_pos hnil] at hline
    cases hline
  have hpos := List.length_pos_iff.2 hnil
  have hle : (ConfigFile.throughNewline (fp.rest.take (n - 1))).length ≤ fp.rest.length := by
    have happ : ∀ b : List Byte, (ConfigFile.throughNewline b).length ≤ b.length := fun b => by
      have hb := congrArg List.length (List.takeWhile_append_dropWhile (p := (· ≠ (10 : Byte))) (l := b))
      rw [List.length_append] at hb
      rw [ConfigFile.throughNewline, List.length_append, List.length_take]
      omega
    refine (happ _).trans ?_
    rw [List.length_take]
    exact min_le_right _ _
  rw [List.length_drop]
  omega

/-- The loop of `getFileListFromDir` ends. -/
theorem readNames_ends {maxFile : ℤ} (n : ℕ) (fp : Stream) (fileList : Option (List Byte)) (cont : ℤ)
    (hn : fp.rest.length < n) : readNames maxFile n fp fileList cont ≠ .outOfFuel := by
  induction n generalizing fp fileList cont with
  | zero => exact absurd hn (Nat.not_lt_zero _)
  | succ n ih =>
    unfold readNames
    split
    · exact fun h => by cases h
    · next line fp' hline =>
      have hless := fgets_shorter hline
      split
      · exact fun h => by cases h
      · split_ifs
        · exact fun h => by cases h
        · exact ih _ _ _ (by omega)
        · exact ih _ _ _ (by omega)

theorem getFileListFromDir_ends {popen : CString → Option (List Byte)} {dirname : CString} {maxFile : ℤ} :
    getFileListFromDir popen dirname maxFile ≠ .outOfFuel := by
  unfold getFileListFromDir
  dsimp only
  split_ifs
  · cases popen _ with
    | none => exact fun h => by cases h
    | some output => exact readNames_ends _ _ _ _ (Nat.lt_succ_self _)
  · exact fun h => by cases h

/-! ## The list -/

/-- The output of `find`: lines shorter than 999 bytes. -/
structure FindOutput where
  lines : List CString
  noNewline : ∀ ℓ ∈ lines, 10 ∉ ℓ
  noZero : ∀ ℓ ∈ lines, 0 ∉ ℓ
  short : ∀ ℓ ∈ lines, ℓ.length < 999

def FindOutput.bytes (f : FindOutput) : List Byte := (f.lines.map (· ++ [10])).flatten

/-- The names, joined with commas, and a terminator; `NULL` for no names. -/
def listOf (names : List CString) : Option (List Byte) :=
  if names = [] then none else some ([44].intercalate names ++ [0])

variable {s t : CString} {names lines : List CString} {n : ℕ}

theorem cstr_terminated (h : 0 ∉ s) (rest : List Byte) : cstr (s ++ 0 :: rest) = s := by
  rw [cstr, takeWhile_of_not_mem h]
  simp

theorem string_terminated (h : 0 ∉ s) (rest : List Byte) : string (s ++ 0 :: rest) = some s := by
  rw [string, if_pos (by simp), cstr_terminated h]

theorem drop_calloc (n k : ℕ) : (calloc n).drop k = calloc (n - k) := List.drop_replicate

/-- Copying a string to a new block of zeros. -/
theorem writeAt_calloc (h : s.length ≤ n) :
    writeAt (calloc n) 0 s = some (s ++ calloc (n - s.length)) := by
  have hfit : 0 + s.length ≤ (calloc n).length := by
    rw [length_calloc]
    omega
  have htake : s.take (n - 0) = s := List.take_of_length_le h
  rw [writeAt, if_pos hfit, memcpy, drop_calloc, length_calloc, Nat.zero_add, htake]
  rfl

theorem strcat_terminated (h : 0 ∉ s) {k : ℕ} (hk : t.length < k) :
    strcat (s ++ calloc k) t = some (s ++ t ++ calloc (k - t.length)) := by
  obtain ⟨k, rfl⟩ : ∃ m, k = m + 1 := ⟨k - 1, by omega⟩
  have hstring : string (s ++ calloc (k + 1)) = some s := string_terminated h _
  have hfit : s.length + (t ++ [0]).length ≤ (s ++ calloc (k + 1)).length := by
    simp only [List.length_append, length_calloc, List.length_cons, List.length_nil]
    omega
  have hzero : calloc (k + 1 - t.length) = [0] ++ calloc (k - t.length) := by
    rw [show k + 1 - t.length = k - t.length + 1 by omega]
    rfl
  rw [strcat, hstring, Option.bind_some, writeAt, if_pos hfit, memcpy, List.take_left,
    List.take_of_length_le (by omega), ← List.drop_drop, List.drop_left, drop_calloc, hzero]
  simp only [List.length_append, List.length_cons, List.length_nil, List.append_assoc,
    show k + 1 - (t.length + (0 + 1)) = k - t.length by omega]

theorem addFile_none : addFile none s = some (s ++ [0]) := by
  rw [addFile, writeAt_calloc (by omega), Nat.add_sub_cancel_left]
  rfl

theorem addFile_some (hs : 0 ∉ s) :
    addFile (some (s ++ [0])) t = some (s ++ 44 :: t ++ [0]) := by
  have hcomma : 0 ∉ s ++ [44] := by
    simp [hs]
  have htmp : string (s ++ calloc 1) = some s := string_terminated hs []
  have hsize : s.length + t.length + 2 - s.length = t.length + 2 := by omega
  have hone : t.length + 2 - ([44] : CString).length = t.length + 1 := by rw [List.length_singleton]; omega
  simp only [addFile, string_terminated hs, Option.bind_some]
  rw [writeAt_calloc (by omega), Nat.add_sub_cancel_left, Option.bind_some, htmp, Option.bind_some,
    writeAt_calloc (by omega), hsize, Option.bind_some, strcat_terminated hs (by simp), hone, Option.bind_some,
    strcat_terminated hcomma (by omega), Nat.add_sub_cancel_left, List.append_assoc s]
  rfl

/-! ## The loop -/

theorem not_mem_intercalate (h : ∀ ℓ ∈ names, 0 ∉ ℓ) : 0 ∉ [(44 : Byte)].intercalate names := by
  intro hmem
  rcases mem_intercalate hmem with hzero | ⟨ℓ, hℓ, hzero⟩
  · exact absurd hzero (by decide)
  · exact h ℓ hℓ hzero

theorem addFile_listOf (h : ∀ ℓ ∈ names, 0 ∉ ℓ) : addFile (listOf names) t = listOf (names ++ [t]) := by
  have hne : names ++ [t] ≠ [] := List.append_ne_nil_of_right_ne_nil _ (List.cons_ne_nil _ _)
  by_cases hnames : names = []
  · subst hnames
    rw [listOf, if_pos rfl, addFile_none, listOf, if_neg hne, List.nil_append, List.intercalate_singleton]
  · rw [listOf, if_neg hnames, addFile_some (not_mem_intercalate h), listOf, if_neg hne,
      intercalate_concat hnames]

/-- A round of the loop. -/
theorem readNames_line {cont maxFile : ℤ} {rest : List Byte} (h : ∀ ℓ ∈ names, 0 ∉ ℓ)
    (ht : 10 ∉ t ∧ 0 ∉ t ∧ t.length < 999) :
    readNames maxFile (n + 1) ⟨t ++ [10] ++ rest, false⟩ (listOf names) cont =
      if cont = maxFile then .returned (listOf (names ++ [t]))
      else readNames maxFile n ⟨rest, false⟩ (listOf (names ++ [t]))
        (if maxFile ≠ -1 then i32 (cont + 1) else cont) := by
  have hline : untilNewline (cstr (t ++ [10])) = t := by
    rw [cstr, takeWhile_of_not_mem ht.2.1, untilNewline, takeWhile_of_not_mem ht.1]
    simp
  have hlist : ∃ block, listOf (names ++ [t]) = some block :=
    ⟨_, if_neg (List.append_ne_nil_of_right_ne_nil _ (List.cons_ne_nil _ _))⟩
  obtain ⟨block, hblock⟩ := hlist
  have hadd : addFile (listOf names) t = some block := (addFile_listOf h).trans hblock
  simp only [readNames, ConfigFile.fgets_line ht.1 (by omega), hline, hadd, hblock]

/-- The loop at the end of the output. -/
theorem readNames_nil {cont maxFile : ℤ} : readNames maxFile (n + 1) ⟨[], false⟩ (listOf names) cont =
    .returned (listOf names) := rfl

/-- **Without limit the loop lists all lines.** -/
theorem readNames_all (names : List CString) (hlines : ∀ ℓ ∈ lines, 10 ∉ ℓ ∧ 0 ∉ ℓ ∧ ℓ.length < 999)
    (hnames : ∀ ℓ ∈ names, 0 ∉ ℓ) (hn : lines.length < n) :
    readNames (-1) n ⟨(lines.map (· ++ [10])).flatten, false⟩ (listOf names) 0 =
      .returned (listOf (names ++ lines)) := by
  obtain ⟨n, rfl⟩ : ∃ m, n = m + 1 := ⟨n - 1, by omega⟩
  induction lines generalizing names n with
  | nil => rw [List.append_nil]; exact readNames_nil
  | cons ℓ lines ih =>
    obtain ⟨hℓ, hlines⟩ := List.forall_mem_cons.1 hlines
    rw [List.length_cons] at hn
    obtain ⟨n, rfl⟩ : ∃ m, n = m + 1 := ⟨n - 1, by omega⟩
    have hnames' : ∀ m ∈ names ++ [ℓ], 0 ∉ m :=
      List.forall_mem_append.2 ⟨hnames, List.forall_mem_singleton.2 hℓ.2.1⟩
    rw [List.map_cons, List.flatten_cons, readNames_line hnames hℓ, if_neg (by decide), if_neg (by simp),
      ih _ hlines hnames' n (by omega), List.append_assoc, List.singleton_append]

/-- **With a limit it lists one line more**: when `m` lines are left of the
    limit, it takes `m + 1`. -/
theorem readNames_limit (k m : ℕ) (names : List CString) (hmax : k + m ≤ INT_MAX)
    (hlines : ∀ ℓ ∈ lines, 10 ∉ ℓ ∧ 0 ∉ ℓ ∧ ℓ.length < 999) (hnames : ∀ ℓ ∈ names, 0 ∉ ℓ)
    (hn : lines.length < n) :
    readNames ((k + m : ℕ) : ℤ) n ⟨(lines.map (· ++ [10])).flatten, false⟩ (listOf names) k =
      .returned (listOf (names ++ lines.take (m + 1))) := by
  obtain ⟨n, rfl⟩ : ∃ m, n = m + 1 := ⟨n - 1, by omega⟩
  induction lines generalizing names n k m with
  | nil => rw [List.take_nil, List.append_nil]; exact readNames_nil
  | cons ℓ lines ih =>
    obtain ⟨hℓ, hlines⟩ := List.forall_mem_cons.1 hlines
    rw [List.length_cons] at hn
    obtain ⟨n, rfl⟩ : ∃ m, n = m + 1 := ⟨n - 1, by omega⟩
    have hnames' : ∀ m ∈ names ++ [ℓ], 0 ∉ m :=
      List.forall_mem_append.2 ⟨hnames, List.forall_mem_singleton.2 hℓ.2.1⟩
    rw [List.map_cons, List.flatten_cons, readNames_line hnames hℓ, List.take_succ_cons]
    cases m with
    | zero => rw [if_pos (by rw [Nat.add_zero]), List.take_zero]
    | succ m =>
      have hcont : i32 ((k : ℤ) + 1) = ((k + 1 : ℕ) : ℤ) := by
        have hlt : k + 1 ≤ 2147483647 := by unfold INT_MAX at hmax; omega
        rw [i32_eq (by omega) (by omega)]
        rfl
      have hk : k + (m + 1) = k + 1 + m := by omega
      rw [if_neg (by omega), if_pos (by omega), hcont, hk, ih _ _ _ (by omega) hlines hnames' n (by omega),
        List.append_assoc, List.singleton_append]

/-! ## The limits -/

variable {f : FindOutput} {dirname : CString} {maxFile : ℤ}

/-- The lines that the options document: all with the limits `-1` and `0`, at
    most `n` with the limit `n ≥ 1`. -/
def wanted (maxFile : ℤ) (lines : List CString) : List CString :=
  if maxFile = -1 ∨ maxFile = 0 then lines else lines.take maxFile.toNat

/-- `getFileListFromDir` returns the lines that are wanted, joined with commas
    and terminated in the block. -/
def ListsFiles (f : FindOutput) (dirname : CString) (maxFile : ℤ) : Prop :=
  ∃ block, getFileListFromDir (fun _ => some f.bytes) dirname maxFile = .returned (some block) ∧
    string block = some ([44].intercalate (wanted maxFile f.lines))

theorem lines_plain {ℓ : CString} (hℓ : ℓ ∈ f.lines) : 10 ∉ ℓ ∧ 0 ∉ ℓ ∧ ℓ.length < 999 :=
  ⟨f.noNewline ℓ hℓ, f.noZero ℓ hℓ, f.short ℓ hℓ⟩

theorem length_command : (str "find " ++ dirname ++ str " -type f").length = dirname.length + 13 := by
  have h₁ : (str "find ").length = 5 := rfl
  have h₂ : (str " -type f").length = 8 := rfl
  rw [List.length_append, List.length_append, h₁, h₂]
  omega

/-- What is returned, for the limits that mean something. -/
theorem getFileListFromDir_eq (h₁ : -1 ≤ maxFile) (h₂ : maxFile ≤ INT_MAX) (hdir : dirname.length < 242) :
    getFileListFromDir (fun _ => some f.bytes) dirname maxFile =
      .returned (listOf (if maxFile = -1 then f.lines else f.lines.take (maxFile.toNat + 1))) := by
  have hfuel : f.lines.length < f.bytes.length + 1 := Nat.lt_succ_of_le (length_le_terminated 10 f.lines)
  have hlines : ∀ ℓ ∈ f.lines, 10 ∉ ℓ ∧ 0 ∉ ℓ ∧ ℓ.length < 999 := fun ℓ hℓ => lines_plain hℓ
  rw [getFileListFromDir, if_pos (by rw [length_command]; omega)]
  split_ifs with hall
  · subst hall
    exact readNames_all [] hlines (fun _ h => absurd h List.not_mem_nil) hfuel
  · have hlimit : maxFile = ((0 + maxFile.toNat : ℕ) : ℤ) := by omega
    have hrun := readNames_limit 0 maxFile.toNat [] (by omega) hlines
      (fun _ h => absurd h List.not_mem_nil) hfuel
    rw [← hlimit] at hrun
    exact hrun

theorem joined_iff {more : List CString} (hne : names ≠ []) (hpre : names <+: more) :
    [(44 : Byte)].intercalate names = [44].intercalate more ↔ names = more :=
  ⟨intercalate_prefix_inj hne hpre, congrArg _⟩

theorem take_eq_take_succ_iff : lines.take n = lines.take (n + 1) ↔ lines.length ≤ n := by
  constructor
  · intro h
    have hlen := congrArg List.length h
    rw [List.length_take, List.length_take] at hlen
    omega
  · intro h
    rw [List.take_of_length_le h, List.take_of_length_le (by omega)]

/-- A list that is returned holds the names joined. -/
theorem listOf_string (h : ∀ ℓ ∈ names, 0 ∉ ℓ) {joined : CString} :
    (∃ block, listOf names = some block ∧ string block = some joined) ↔
      names ≠ [] ∧ [44].intercalate names = joined := by
  by_cases hnames : names = []
  · rw [listOf, if_pos hnames]
    refine iff_of_false ?_ fun h => h.1 hnames
    rintro ⟨block, ⟨⟩, -⟩
  · rw [listOf, if_neg hnames, and_iff_right hnames]
    constructor
    · rintro ⟨block, ⟨⟩, hstring⟩
      rw [string_terminated (not_mem_intercalate h)] at hstring
      exact Option.some.inj hstring
    · rintro rfl
      exact ⟨_, rfl, string_terminated (not_mem_intercalate h) []⟩

/-- **The list is the one documented** if and only if `find` gives a line, the
    command fits, and the limit is `-1` or not below the number of lines, where
    the limit `0` counts as `1`. -/
theorem listsFiles_iff (h₁ : -1 ≤ maxFile) (h₂ : maxFile ≤ INT_MAX) :
    ListsFiles f dirname maxFile ↔ dirname.length < 242 ∧ f.lines ≠ [] ∧
      (maxFile = -1 ∨ f.lines.length ≤ max 1 maxFile) := by
  by_cases hdir : dirname.length < 242
  · have hzero : ∀ ℓ ∈ (if maxFile = -1 then f.lines else f.lines.take (maxFile.toNat + 1)), 0 ∉ ℓ := by
      intro ℓ hℓ
      split_ifs at hℓ
      · exact f.noZero ℓ hℓ
      · exact f.noZero ℓ (List.mem_of_mem_take hℓ)
    simp only [ListsFiles, getFileListFromDir_eq h₁ h₂ hdir, ListResult.returned.injEq, listOf_string hzero,
      and_iff_right hdir]
    by_cases hall : maxFile = -1
    · simp [hall, wanted]
    · have hnil : f.lines.take (maxFile.toNat + 1) ≠ [] ↔ f.lines ≠ [] := by simp
      rw [if_neg hall, or_iff_right hall, hnil]
      refine and_congr_right fun hne => ?_
      by_cases hone : maxFile = 0
      · have hwanted : wanted maxFile f.lines = f.lines := if_pos (.inr hone)
        rw [hwanted, joined_iff (hnil.2 hne) (List.take_prefix _ _), List.take_eq_self_iff]
        omega
      · have hwanted : wanted maxFile f.lines = f.lines.take maxFile.toNat := if_neg (not_or.2 ⟨hall, hone⟩)
        have hpos : f.lines.take maxFile.toNat ≠ [] := by
          rw [ne_eq, List.take_eq_nil_iff, not_or]
          exact ⟨by omega, hne⟩
        rw [hwanted, eq_comm, joined_iff hpos (List.take_prefix_take_left (Nat.le_succ _)),
          take_eq_take_succ_iff]
        omega
  · refine iff_of_false ?_ fun h => hdir h.1
    rintro ⟨block, hblock, -⟩
    rw [getFileListFromDir, if_neg (by rw [length_command]; omega)] at hblock
    cases hblock

/-- A directory with two files. -/
def twoFiles : FindOutput where
  lines := [str "test/a", str "test/b"]
  noNewline := by decide
  noZero := by decide
  short := by decide

theorem listsFiles_two : ListsFiles twoFiles (str "test") 2 :=
  (listsFiles_iff (by decide) (by decide)).2 ⟨by decide, by decide, .inr (by decide)⟩

/-- With the limit `1` both files are listed. -/
theorem not_listsFiles_one : ¬ ListsFiles twoFiles (str "test") 1 := by
  rintro ⟨block, hblock, hstring⟩
  have hrun : getFileListFromDir (fun _ => some twoFiles.bytes) (str "test") 1 =
      .returned (some (str "test/a,test/b" ++ [0])) := by
    decide
  obtain rfl := Option.some.inj (ListResult.returned.inj (hrun.symm.trans hblock))
  exact absurd hstring (by decide)

end FileStorage
