/-
  The append law.

  `appendVirtualFile` copies the new bytes to the offset `size`, the number of
  new bytes, where the old contents end only if both have the same length.

  * `shift_eq_iff`: when the misplaced copy makes no difference.
  * `appendLaw_iff`: when an append, and a sequence of appends, gives the
    concatenation and stays inside the new block.
-/
import FileStorage.Failure
import FileStorage.Refinement

namespace FileStorage

variable {cfg : Config} {s : Server} {p : CString} {f : FileNode} {new : List Byte}

/-! ## The law -/

/-- The copies of an append to `f` into the new block, with their offsets. -/
def appendCopies (f : FileNode) (buf : List Byte) (size : ℕ) : List (ℕ × List Byte) :=
  match f.file with
  | none => [(0, buf.take size)]
  | some old => [(0, old.take f.size), (size, buf.take size)]

/-- The law of an append of `new` to the file `p` with the node `f`: if it
    succeeds, then the contents are the concatenation, the copies stay inside the
    new block, and the other files are the same. -/
def AppendLaw (s : Server) (p : CString) (f : FileNode) (new : List Byte) : Prop :=
  let s' := (appendVirtualFile s p new new.length).2
  (appendVirtualFile s p new new.length).1 = 0 →
    (∃ f', getFileNode s'.fileQueue p = some f' ∧ f'.content = f.content ++ new ∧
      f'.size = f.content.length + new.length) ∧
    (∀ c ∈ appendCopies f new new.length, c.1 + c.2.length ≤ f.content.length + new.length) ∧
    ∀ p', p' ≠ p → getFileNode s'.fileQueue p' = getFileNode s.fileQueue p'

/-- The store after a sequence of appends to `p`. -/
def appendAll (s : Server) (p : CString) (pieces : List (List Byte)) : Server :=
  pieces.foldl (fun s new => (appendVirtualFile s p new new.length).2) s

/-- Each append of the sequence obeys the law, and the file then reads as the
    concatenation of the pieces. -/
def AppendLaws (s : Server) (p : CString) (f : FileNode) (pieces : List (List Byte)) : Prop :=
  (∀ l new l' f', pieces = l ++ new :: l' → getFileNode (appendAll s p l).fileQueue p = some f' →
    AppendLaw (appendAll s p l) p f' new) ∧
  readVirtualFile (appendAll s p pieces).fileQueue p =
    some (f.content ++ pieces.flatten, (f.content ++ pieces.flatten).length)

/-- The offset is right, or it does not matter: there is no buffer yet; or no new
    byte; or as many as there are already; or fewer, all of them zero, and so are
    the old bytes in their place. -/
def PlacedRight (file : Option (List Byte)) (new : List Byte) : Prop :=
  ∀ old, file = some old → new = [] ∨ new.length = old.length ∨
    (new.length < old.length ∧ (∀ b ∈ new, b = 0) ∧ ∀ b ∈ (old.drop new.length).take new.length, b = 0)

/-- The same for each append of a sequence. -/
def AllPlacedRight : Option (List Byte) → List (List Byte) → Prop
  | _, [] => True
  | file, new :: pieces => PlacedRight file new ∧ AllPlacedRight (some (file.getD [] ++ new)) pieces

/-! ## The misplaced copy -/

/-- A list written at the start of `x` followed by as many `z` gives `x` followed
    by the list only if all that moves is `z`. -/
theorem shift_eq_iff {α : Type} {z : α} {x l : List α} (hx : x ≠ []) :
    l ++ (x ++ List.replicate l.length z).drop l.length = x ++ l ↔
      (∀ b ∈ l, b = z) ∧ ∀ b ∈ x.take l.length, b = z := by
  have hpos : 0 < x.length := List.length_pos_iff.2 hx
  constructor
  · intro h
    have hget : ∀ i : ℕ, (l ++ (x ++ List.replicate l.length z).drop l.length)[i]? = (x ++ l)[i]? :=
      fun i => by rw [h]
    -- from the end of the list, in steps of the length of `x`
    have hl : ∀ n j, l.length - j ≤ n → j < l.length → l[j]? = some z := by
      intro n
      induction n with
      | zero => intro j hj hlt; omega
      | succ n ih =>
        intro j hj hlt
        have hij := hget (j + x.length)
        rw [List.getElem?_append_right (Nat.le_add_left _ _), Nat.add_sub_cancel] at hij
        by_cases hend : j + x.length < l.length
        · rw [List.getElem?_append_left hend] at hij
          rw [← hij]
          exact ih _ (by omega) hend
        · rw [List.getElem?_append_right (by omega), List.getElem?_drop,
            List.getElem?_append_right (by omega), List.getElem?_replicate, if_pos (by omega)] at hij
          exact hij.symm
    constructor
    · intro b hb
      obtain ⟨j, hj⟩ := List.mem_iff_getElem?.1 hb
      have hlt : j < l.length := (List.getElem?_eq_some_iff.1 hj).1
      exact Option.some.inj (hj.symm.trans (hl _ j le_rfl hlt))
    · intro b hb
      obtain ⟨j, hj⟩ := List.mem_iff_getElem?.1 hb
      have hlt := (List.getElem?_eq_some_iff.1 hj).1
      rw [List.length_take] at hlt
      have hij := hget j
      rw [List.getElem?_append_left (by omega), List.getElem?_append_left (by omega),
        hl _ j le_rfl (by omega)] at hij
      rw [List.getElem?_take_of_lt (by omega), ← hij] at hj
      exact (Option.some.inj hj).symm
  · rintro ⟨hl, hx⟩
    obtain ⟨n, hn⟩ : ∃ n, l.length = n := ⟨_, rfl⟩
    obtain rfl : l = List.replicate n z := List.eq_replicate_iff.2 ⟨hn, hl⟩
    rw [List.length_replicate] at hx ⊢
    by_cases hlen : n ≤ x.length
    · have htake : x.take n = List.replicate n z :=
        List.eq_replicate_iff.2 ⟨by rw [List.length_take]; omega, hx⟩
      rw [← List.take_append_drop n x, htake]
      simp
    · rw [List.take_of_length_le (by omega)] at hx
      obtain ⟨d, hd⟩ : ∃ d, x.length = d := ⟨_, rfl⟩
      obtain rfl : x = List.replicate d z := List.eq_replicate_iff.2 ⟨hd, hx⟩
      rw [List.replicate_append_replicate, List.drop_replicate, List.replicate_append_replicate,
        Nat.add_sub_cancel, Nat.add_comm]

/-- Within the block, the copy gives the concatenation if and only if it is
    placed right. -/
theorem appendBuffer_eq_iff {old : List Byte} (hle : new.length ≤ old.length) :
    appendBuffer old old.length new new.length = old ++ new ↔ PlacedRight (some old) new := by
  have hfirst : memcpy (calloc (old.length + new.length)) 0 old = old ++ calloc new.length := by
    simp [memcpy, calloc]
  have hbuf : appendBuffer old old.length new new.length =
      old.take new.length ++ (new ++ (old.drop new.length ++ calloc new.length).drop new.length) := by
    rw [appendBuffer, List.take_length, List.take_length, hfirst, memcpy,
      List.take_append_of_le_length hle, List.append_assoc, ← List.drop_drop,
      List.drop_append_of_le_length hle, List.take_of_length_le (l := new) (by simpa using hle)]
  have hsplit : old ++ new = old.take new.length ++ (old.drop new.length ++ new) := by
    rw [← List.append_assoc, List.take_append_drop]
  rw [hbuf, hsplit, List.append_cancel_left_eq, PlacedRight]
  obtain hlt | heq := hle.lt_or_eq
  · have hne : old.drop new.length ≠ [] := by simpa using hlt
    rw [calloc, shift_eq_iff hne]
    constructor
    · rintro ⟨h₁, h₂⟩ _ ⟨⟩
      exact Or.inr (Or.inr ⟨hlt, h₁, h₂⟩)
    · intro h
      obtain rfl | he | ⟨-, h₁, h₂⟩ := h old rfl
      · simp
      · omega
      · exact ⟨h₁, h₂⟩
  · have hdrop : old.drop new.length = [] := List.drop_eq_nil_of_le heq.ge
    rw [hdrop, calloc]
    simp only [List.nil_append, List.drop_replicate, Nat.sub_self, List.replicate_zero,
      List.append_nil, true_iff]
    rintro _ ⟨⟩
    exact Or.inr (Or.inl heq)

/-! ## When the law holds -/

/-- The node after an append. -/
def appended (new : List Byte) (f : FileNode) : FileNode :=
  match f.file with
  | none => { f with file := some (memcpy (calloc new.length) 0 (new.take new.length)), size := new.length }
  | some old => { f with file := some (appendBuffer old f.size new new.length), size := f.size + new.length }

theorem appended_keeps : Keeps (appended new) :=
  ⟨fun f => by cases h : f.file <;> simp [appended, h], fun f => by cases h : f.file <;> simp [appended, h]⟩

@[simp] theorem appended_isOpen : (appended new f).isOpen = f.isOpen := by
  cases h : f.file <;> simp [appended, h]

theorem appended_size (h : f.size = f.content.length) :
    (appended new f).size = f.content.length + new.length := by
  cases hf : f.file with
  | none => simp [appended, hf, FileNode.content]
  | some old => simp [appended, hf, h]

theorem appended_file (h : f.size = f.content.length) (hp : PlacedRight f.file new) :
    (appended new f).file = some (f.content ++ new) := by
  cases hf : f.file with
  | none => simp [appended, hf, FileNode.content, memcpy_calloc]
  | some old =>
    rw [FileNode.content, hf, Option.getD_some] at h ⊢
    rw [hf] at hp
    have hle : new.length ≤ old.length := by
      obtain rfl | heq | ⟨hlt, -⟩ := hp old rfl
      · exact Nat.zero_le _
      · exact heq.le
      · exact hlt.le
    simp only [appended, hf, h, (appendBuffer_eq_iff hle).2 hp]

section
variable (hf : getFileNode s.fileQueue p = some f) (ho : f.isOpen)
include hf ho

theorem appendVirtualFile_open : appendVirtualFile s p new new.length =
    (0, Server.recordSize { s with fileQueue := s.fileQueue.modify f.addr (appended new) }) := by
  simp only [appendVirtualFile, hf, ho, Bool.not_true, Bool.false_eq_true, if_false]
  rfl

theorem getFileNode_append (hs : s.WF cfg) (p' : CString) :
    getFileNode (appendVirtualFile s p new new.length).2.fileQueue p' =
      if p' = p then some (appended new f) else getFileNode s.fileQueue p' := by
  rw [appendVirtualFile_open hf ho, recordSize_queue,
    getFileNode_modify appended_keeps hs.toWF (getFileNode_mem hf), getFileNode_pathname hf]

theorem appendLaw_iff (hs : s.WF cfg) : AppendLaw s p f new ↔ PlacedRight f.file new := by
  have hsize : f.size = f.content.length := hs.size f (getFileNode_mem hf)
  constructor
  · intro h
    obtain ⟨⟨f', hf', hc, -⟩, hin, -⟩ := h (by rw [appendVirtualFile_open hf ho])
    rw [getFileNode_append hf ho hs, if_pos rfl] at hf'
    cases hf'
    cases hfile : f.file with
    | none => exact fun _ h => by cases h
    | some old =>
      have hcont : f.content = old := by rw [FileNode.content, hfile, Option.getD_some]
      rw [hcont] at hsize hin hc
      -- the second copy is inside the block
      have hle : new.length ≤ old.length := by
        have := hin (new.length, new.take new.length) (by simp [appendCopies, hfile])
        simp only [List.take_length] at this
        omega
      refine (appendBuffer_eq_iff hle).1 ?_
      rw [← hc, FileNode.content, appended, hfile, hsize, Option.getD_some]
  · intro h _
    refine ⟨⟨appended new f, ?_, ?_, appended_size hsize⟩, ?_, fun p' hp' => ?_⟩
    · rw [getFileNode_append hf ho hs, if_pos rfl]
    · rw [FileNode.content, appended_file hsize h, Option.getD_some]
    · intro c hc
      rw [appendCopies] at hc
      split at hc
      · obtain rfl := List.mem_singleton.1 hc
        simp
      · rename_i old hfile
        have hcont : f.content = old := by rw [FileNode.content, hfile, Option.getD_some]
        rw [hcont]
        simp only [List.mem_cons, List.not_mem_nil, or_false] at hc
        rcases hc with rfl | rfl
        · simp only [List.length_take]
          omega
        · simp only [List.take_length]
          rcases h old hfile with rfl | he | ⟨hlt, -⟩
          · simp
          · omega
          · omega
    · rw [getFileNode_append hf ho hs, if_neg hp']

end

theorem appendLaws_nil (hs : s.WF cfg) (hf : getFileNode s.fileQueue p = some f) (ho : f.isOpen) :
    AppendLaws s p f [] := by
  refine ⟨fun l new l' f' h => by simp at h, ?_⟩
  rw [appendAll, List.foldl_nil, readVirtualFile_eq hs.toWF, view, hf, Option.bind_some, if_pos ho,
    Option.map_some, List.flatten_nil, List.append_nil]

/-- The first append of a sequence. -/
theorem appendLaws_cons {pieces : List (List Byte)} (f₁ : FileNode)
    (hf : getFileNode s.fileQueue p = some f) (hc : f₁.content = f.content ++ new) : AppendLaws s p f (new :: pieces) ↔
      AppendLaw s p f new ∧ AppendLaws (appendVirtualFile s p new new.length).2 p f₁ pieces := by
  have hall : ∀ l, appendAll s p (new :: l) = appendAll (appendVirtualFile s p new new.length).2 p l :=
    fun l => rfl
  constructor
  · rintro ⟨hlaw, hread⟩
    refine ⟨hlaw [] new pieces f rfl hf, fun l n l' f' he hl => ?_, ?_⟩
    · exact hlaw (new :: l) n l' f' (by rw [he]; rfl) hl
    · rw [hall, List.flatten_cons, ← List.append_assoc, ← hc] at hread
      exact hread
  · rintro ⟨hfirst, hlaw, hread⟩
    refine ⟨fun l n l' f' he hl => ?_, ?_⟩
    · cases l with
      | nil =>
        cases he
        obtain rfl : f = f' := Option.some.inj (hf.symm.trans hl)
        exact hfirst
      | cons x l =>
        obtain ⟨rfl, hpieces⟩ := List.cons_eq_cons.1 he
        exact hlaw l n l' f' hpieces hl
    · rw [hall, List.flatten_cons, ← List.append_assoc, ← hc]
      exact hread

theorem appendLaws_all_iff (pieces : List (List Byte)) : ∀ {s : Server} {f : FileNode}, s.WF cfg →
    getFileNode s.fileQueue p = some f → f.isOpen →
    (AppendLaws s p f pieces ↔ AllPlacedRight f.file pieces) := by
  induction pieces with
  | nil => intro s f hs hf ho; exact ⟨fun _ => trivial, fun _ => appendLaws_nil hs hf ho⟩
  | cons new pieces ih =>
    intro s f hs hf ho
    have hsize : f.size = f.content.length := hs.size f (getFileNode_mem hf)
    have hs₁ : (appendVirtualFile s p new new.length).2.WF cfg :=
      Call.exec_wf hs (show Call.exec cfg ⟨true, [], 0, 0⟩ s (.appendVirtualFile p new new.length) =
        some _ from rfl)
    have hf₁ : getFileNode (appendVirtualFile s p new new.length).2.fileQueue p =
        some (appended new f) := by rw [getFileNode_append hf ho hs, if_pos rfl]
    -- an append that obeys the law leaves the concatenation
    have hstep : PlacedRight f.file new → (AppendLaws s p f (new :: pieces) ↔
        AppendLaw s p f new ∧ AllPlacedRight (some (f.content ++ new)) pieces) := by
      intro hp
      have hfile := appended_file hsize hp
      rw [appendLaws_cons (appended new f) hf (by rw [FileNode.content, hfile, Option.getD_some]),
        ih hs₁ hf₁ (by rwa [appended_isOpen]), hfile]
    constructor
    · intro h
      have hlaw := h.1 [] new pieces f rfl hf
      have hp := (appendLaw_iff hf ho hs).1 hlaw
      exact ⟨hp, ((hstep hp).1 h).2⟩
    · rintro ⟨hp, hrest⟩
      exact (hstep hp).2 ⟨(appendLaw_iff hf ho hs).2 hp, hrest⟩

/-- **When appends concatenate.** -/
theorem appendLaws_iff (hs : Reachable cfg s) (hf : getFileNode s.fileQueue p = some f)
    (ho : f.isOpen) : (∀ new, AppendLaw s p f new ↔ PlacedRight f.file new) ∧
      ∀ pieces, AppendLaws s p f pieces ↔ AllPlacedRight f.file pieces :=
  ⟨fun _ => appendLaw_iff hf ho hs.wf, fun pieces => appendLaws_all_iff pieces hs.wf hf ho⟩

/-- As many bytes as there are already. -/
theorem appendLaws_crowded :
    AppendLaw crowded [47, 97] ⟨1, [47, 97], some [1, 2, 3, 4, 5], 5, 1, true⟩ [6, 7, 8, 9, 10] :=
  ((appendLaws_iff crowded_reachable rfl rfl).1 [6, 7, 8, 9, 10]).2 fun _ h => by
    cases h
    exact Or.inr (Or.inl rfl)

/-- One byte after five overwrites the second one. -/
theorem not_appendLaw_crowded : Reachable ⟨8, 4⟩ crowded ∧ ∃ f,
    getFileNode crowded.fileQueue [47, 97] = some f ∧ f.isOpen ∧ f.content = [1, 2, 3, 4, 5] ∧
    ¬ AppendLaw crowded [47, 97] f [6] := by
  refine ⟨crowded_reachable, _, rfl, rfl, rfl, fun h => ?_⟩
  obtain ⟨⟨f', hf', hc, -⟩, -⟩ := h (by decide)
  have he : getFileNode (appendVirtualFile crowded [47, 97] [6] 1).2.fileQueue [47, 97] =
      some ⟨1, [47, 97], some [1, 6, 3, 4, 5, 0], 6, 1, true⟩ := by decide
  cases he.symm.trans hf'
  exact absurd hc (by decide)

end FileStorage
