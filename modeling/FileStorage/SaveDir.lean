/-
  `saveFileDir` of the client's `utils.c`, on the local files.

  A file that the server sends is saved under the end of its pathname, from the
  last `/` on, appended to the name of the directory; without a `/` the client
  dereferences the null pointer of `strrchr`.

  * `runs_disk`: the local files after a run of a client are made by its calls
    of `saveFileDir`;
  * `allSaved_iff`: all files received are kept if and only if every pathname
    has a `/` and no two have the same base name.
-/
import FileStorage.Client
import Mathlib.Logic.Function.Basic

namespace FileStorage

open Threads Prog

/-! ## The functions -/

/-- The contents of the local files, by path. -/
abbrev Disk : Type := CString → Option (List Byte)

/-- `strrchr`: the string from the last `c` on, `none` without `c`. -/
def strrchr (s : CString) (c : Byte) : Option CString :=
  if c ∈ s then some (c :: (s.reverse.takeWhile (· ≠ c)).reverse) else none

/-- `getFileNameFromPath`; the result of its `realpath` is not used. -/
def getFileNameFromPath (path : Option CString) : Option CString := path.bind fun path => strrchr path 47

/-- `saveFile`, where `opens` tells if `fopen(pathname, "w")` succeeds.  The
    result of `fwrite` is never negative. -/
def saveFile (opens : CString → Bool) (pathname : CString) (buf : List Byte) (disk : Disk) : ℤ × Disk :=
  if opens pathname then (0, Function.update disk pathname (some buf)) else (-1, disk)

/-- The path that `saveFileDir` writes to, `none` where it crashes. -/
def localPath (dirname fileName : CString) : Option CString :=
  (getFileNameFromPath (some fileName)).map fun name => dirname ++ name

def saveFileDir (opens : CString → Bool) (buf : List Byte) (dirname fileName : CString) (disk : Disk) :
    Option (ℤ × Disk) :=
  (localPath dirname fileName).map fun path => saveFile opens path buf disk

/-- A file received from the server. -/
structure Received where
  fileName : CString
  contents : List Byte
  deriving DecidableEq, Repr

/-- `saveFileDir` for one file after the other, into the same directory. -/
def saveAll (opens : CString → Bool) (dirname : CString) (files : List Received) (disk : Disk) : Option Disk :=
  files.foldlM (fun disk f => (saveFileDir opens f.contents dirname f.fileName disk).map Prod.snd) disk

/-- All files are kept: every call of `saveFileDir` is defined, every file is
    found with its contents in its local file, and no two are written to the
    same path. -/
def AllSaved (opens : CString → Bool) (dirname : CString) (files : List Received) (disk : Disk) : Prop :=
  (∃ disk', saveAll opens dirname files disk = some disk' ∧
      ∀ f ∈ files, ∃ path, localPath dirname f.fileName = some path ∧ disk' path = some f.contents) ∧
    files.Pairwise fun f g => localPath dirname f.fileName ≠ localPath dirname g.fileName

/-! ## Runs of a client -/

/-- Execution of a client's actions on its local files. -/
def clientDiskExec (opens : CString → Bool) : Exec clientSig (Option ℤ × Disk) ClientEnv
  | .saveFileDir buf dirname fileName, _, s =>
    (saveFileDir opens buf dirname fileName s.2).map fun x => ((), (s.1, x.2))
  | .newRequest, e, s => (clientExec .newRequest e s.1).map fun x => (x.1, (x.2, s.2))
  | .write request, e, s => (clientExec (.write request) e s.1).map fun x => (x.1, (x.2, s.2))
  | .readResponse, e, s => (clientExec .readResponse e s.1).map fun x => (x.1, (x.2, s.2))
  | .writeBytes buf, e, s => (clientExec (.writeBytes buf) e s.1).map fun x => (x.1, (x.2, s.2))
  | .readData size, e, s => (clientExec (.readData size) e s.1).map fun x => (x.1, (x.2, s.2))
  | .read size, e, s => (clientExec (.read size) e s.1).map fun x => (x.1, (x.2, s.2))
  | .returns res, e, s => (clientExec (.returns res) e s.1).map fun x => (x.1, (x.2, s.2))

/-- The file that an action saves, with its directory. -/
def saving : Done clientSig → Option (CString × Received)
  | ⟨.saveFileDir buf dirname fileName, _⟩ => some (dirname, ⟨fileName, buf⟩)
  | _ => none

variable {opens : CString → Bool} {dirname fileName : CString} {files : List Received} {disk disk' : Disk}
  {p : ClientCode} {s s' : Option ℤ × Disk} {t : List (Done clientSig)} {o : Outcome}

theorem strrchr_isSome {s : CString} {c : Byte} : (strrchr s c).isSome ↔ c ∈ s := by
  unfold strrchr
  split_ifs with h
  · simp [h]
  · simp [h]

theorem localPath_isSome : (localPath dirname fileName).isSome ↔ 47 ∈ fileName := by
  rw [localPath, Option.isSome_map]
  exact strrchr_isSome

/-- Two local paths are the same if the pathnames agree from the last `/` on. -/
theorem localPath_inj {name : CString} :
    localPath dirname fileName = localPath dirname name ↔ strrchr fileName 47 = strrchr name 47 :=
  (Option.map_injective (List.append_right_injective dirname)).eq_iff

theorem clientDiskExec_eq {a : ClientAct} {e : ClientEnv} {r : a.Ans} {s s₁ : Option ℤ × Disk}
    (h : clientDiskExec opens a e s = some (r, s₁)) :
    saving ⟨a, r⟩ = none ∧ s₁.2 = s.2 ∨ ∃ x, saving ⟨a, r⟩ = some x ∧
      (saveFileDir opens x.2.contents x.1 x.2.fileName s.2).map Prod.snd = some s₁.2 := by
  cases a with
  | saveFileDir buf dirname fileName =>
    rw [clientDiskExec, Option.map_eq_some_iff] at h
    obtain ⟨x, hx, heq⟩ := h
    cases heq
    exact .inr ⟨_, rfl, by rw [hx]; rfl⟩
  | newRequest | write | readResponse | writeBytes | readData | read | returns =>
    rw [clientDiskExec, Option.map_eq_some_iff] at h
    obtain ⟨x, -, heq⟩ := h
    cases heq
    exact .inl ⟨rfl, rfl⟩

/-- One more action of a trace. -/
theorem saveAll_step {a : ClientAct} {e : ClientEnv} {r : a.Ans} {s₁ : Option ℤ × Disk}
    (hx : clientDiskExec opens a e s = some (r, s₁))
    (ht : ∀ x ∈ (⟨a, r⟩ :: t : List (Done clientSig)).filterMap saving, x.1 = dirname) :
    saveAll opens dirname (((⟨a, r⟩ :: t : List (Done clientSig)).filterMap saving).map Prod.snd) s.2 =
      saveAll opens dirname ((t.filterMap saving).map Prod.snd) s₁.2 := by
  obtain ⟨hnone, hsame⟩ | ⟨x, hsome, hsave⟩ := clientDiskExec_eq hx
  · rw [List.filterMap_cons_none hnone, hsame]
  · rw [List.filterMap_cons_some hsome] at ht ⊢
    rw [ht x List.mem_cons_self] at hsave
    rw [List.map_cons, saveAll, List.foldlM_cons, hsave]
    rfl

/-- **The local files after a run** are those that `saveFileDir` leaves for the
    files of the trace. -/
theorem runs_disk (h : Runs (clientDiskExec opens) p s t o s') (ht : ∀ x ∈ t.filterMap saving, x.1 = dirname) :
    saveAll opens dirname ((t.filterMap saving).map Prod.snd) s.2 = some s'.2 := by
  have htail : ∀ {d : Done clientSig} {t : List (Done clientSig)},
      (∀ x ∈ (d :: t).filterMap saving, x.1 = dirname) → ∀ x ∈ t.filterMap saving, x.1 = dirname :=
    fun h x hx => h x (((List.sublist_cons_self _ _).filterMap saving).subset hx)
  induction h with
  | ret | fails | wait | failsAwait => rfl
  | act hx _ ih | pass hx _ _ ih => exact (saveAll_step hx ht).trans (ih (htail ht))
  | lock _ ih | unlock _ ih | signal _ ih | broadcast _ ih => exact ih ht
  | park hx _ => exact saveAll_step hx ht

theorem saveAll_cons {f : Received} {path : CString} (hp : localPath dirname f.fileName = some path) :
    saveAll opens dirname (f :: files) disk =
      saveAll opens dirname files (saveFile opens path f.contents disk).2 := by
  rw [saveAll, List.foldlM_cons, saveFileDir, hp]
  rfl

/-- With a `/` in every pathname no call crashes. -/
theorem saveAll_defined (h : ∀ f ∈ files, 47 ∈ f.fileName) :
    ∃ disk', saveAll opens dirname files disk = some disk' := by
  induction files generalizing disk with
  | nil => exact ⟨disk, rfl⟩
  | cons f files ih =>
    obtain ⟨hf, hfiles⟩ := List.forall_mem_cons.1 h
    obtain ⟨path, hp⟩ := Option.isSome_iff_exists.1 (localPath_isSome.2 hf)
    rw [saveAll_cons hp]
    exact ih hfiles

/-- A path that no file is written to keeps its contents. -/
theorem saveAll_other {path : CString} (h : saveAll opens dirname files disk = some disk')
    (hpath : ∀ f ∈ files, localPath dirname f.fileName ≠ some path) : disk' path = disk path := by
  induction files generalizing disk with
  | nil =>
    cases h
    rfl
  | cons f files ih =>
    obtain ⟨hf, hfiles⟩ := List.forall_mem_cons.1 hpath
    cases hp : localPath dirname f.fileName with
    | none =>
      rw [saveAll, List.foldlM_cons, saveFileDir, hp] at h
      cases h
    | some p =>
      rw [saveAll_cons hp] at h
      rw [ih h hfiles, saveFile]
      split_ifs
      · exact Function.update_of_ne (fun hne => hf (by rw [hp, hne])) _ _
      · rfl

/-- **Files with different local paths are all kept.** -/
theorem saveAll_kept (ho : ∀ f ∈ files, ∀ path, localPath dirname f.fileName = some path → opens path)
    (h : saveAll opens dirname files disk = some disk')
    (hdiff : files.Pairwise fun f g => localPath dirname f.fileName ≠ localPath dirname g.fileName)
    (hslash : ∀ f ∈ files, 47 ∈ f.fileName) :
    ∀ f ∈ files, ∃ path, localPath dirname f.fileName = some path ∧ disk' path = some f.contents := by
  induction files generalizing disk with
  | nil => exact fun f hf => absurd hf List.not_mem_nil
  | cons f files ih =>
    obtain ⟨hof, ho⟩ := List.forall_mem_cons.1 ho
    obtain ⟨hf, hslash⟩ := List.forall_mem_cons.1 hslash
    obtain ⟨hfst, hdiff⟩ := List.pairwise_cons.1 hdiff
    obtain ⟨path, hp⟩ := Option.isSome_iff_exists.1 (localPath_isSome.2 hf)
    rw [saveAll_cons hp] at h
    refine List.forall_mem_cons.2 ⟨⟨path, hp, ?_⟩, ih ho h hdiff hslash⟩
    -- the files after it are written elsewhere
    have hother : ∀ g ∈ files, localPath dirname g.fileName ≠ some path :=
      fun g hg heq => hfst g hg (hp.trans heq.symm)
    rw [saveAll_other h hother, saveFile, if_pos (hof path hp)]
    exact Function.update_self _ _ _

/-- **All files received are kept** if and only if every pathname has a `/` and
    no two agree from the last one on. -/
theorem allSaved_iff (ho : ∀ f ∈ files, ∀ path, localPath dirname f.fileName = some path → opens path) :
    AllSaved opens dirname files disk ↔ (∀ f ∈ files, 47 ∈ f.fileName) ∧
      files.Pairwise fun f g => strrchr f.fileName 47 ≠ strrchr g.fileName 47 := by
  simp only [AllSaved, ne_eq, localPath_inj]
  refine and_congr_left fun hdiff => ?_
  constructor
  · rintro ⟨disk', -, hkept⟩ f hf
    obtain ⟨path, hp, -⟩ := hkept f hf
    exact localPath_isSome.1 (Option.isSome_of_eq_some hp)
  · intro hslash
    obtain ⟨disk', h⟩ := saveAll_defined hslash
    refine ⟨disk', h, saveAll_kept ho h ?_ hslash⟩
    simpa only [ne_eq, localPath_inj] using hdiff

/-- `fopen(path, "w")` fails on a directory. -/
def notDir (path : CString) : Bool := path.getLast? ≠ some 47

theorem allSaved_two : AllSaved notDir (str "down") [⟨str "/srv/a.txt", [1]⟩, ⟨str "/srv/b.txt", [2, 3]⟩]
    fun _ => none :=
  (allSaved_iff (by decide)).2 ⟨by decide, by decide⟩

/-- Of two files with the same base name the second replaces the first. -/
theorem not_allSaved_same : ¬ AllSaved notDir (str "down")
    [⟨str "/srv/a/notes.txt", [1]⟩, ⟨str "/srv/b/notes.txt", [2]⟩] fun _ => none := by
  rintro ⟨-, hdiff⟩
  exact absurd hdiff (by decide)

end FileStorage
