/-
  Buffers in the memory: the functions that write, extend, read and create files
  do to it what those of `Store` do to the store.

  The new contents of an append fit the new buffer if they are not longer than
  the old ones (`Holds.grow`).
-/
import FileStorage.Ownership

namespace FileStorage

open LinkedList Footprint

namespace Memory

variable {base m m' : Memory} {os l₁ l₂ : List Owned} {o o' : Owned} {s : Server} {cfg : Config}
  {al : Allocator} {p : CString}

/-! ## Contents -/

theorem copy_eq (m : Memory) {p : Ptr} {b : List Byte} (off : ℕ) (bytes : List Byte) (hl : m.buffers.lookup p = some b)
    (hle : off + bytes.length ≤ b.length) :
    m.copy p off bytes = some { m with buffers := m.buffers.insert p (memcpy b off bytes) } := by
  rw [copy, hl, Option.bind_eq_bind, Option.bind_some, if_pos hle]

theorem copy_past (m : Memory) {p : Ptr} {b : List Byte} (off : ℕ) (bytes : List Byte) (hl : m.buffers.lookup p = some b)
    (hlt : b.length < off + bytes.length) : m.copy p off bytes = none := by
  rw [copy, hl, Option.bind_eq_bind, Option.bind_some, if_neg (by omega)]

theorem lookup_fresh {B : Type} {M : Finmap fun _ : Ptr => B} {p q : Ptr} {b c : B} (hp : p ∉ M)
    (hl : M.lookup q = some b) : (M.insert p c).lookup q = some b := by
  have hne : q ≠ p := fun he => hp (he ▸ Finmap.mem_of_lookup_eq_some hl)
  rw [Finmap.lookup_insert_of_ne _ hne, hl]

theorem insert_null {B : Type} {M : Finmap fun _ : Ptr => B} {p : Ptr} {b : B} (hp : p ≠ NULL)
    (hM : NULL ∉ M) : NULL ∉ M.insert p b := by
  rw [Finmap.mem_insert, not_or]
  exact ⟨hp.symm, hM⟩

/-- The contents of a file can be read, also when there are other buffers besides. -/
theorem Holds.load (h : Holds base m os) (ho : o ∈ os) (hsize : o.f.size = o.f.content.length) (m₁ : Memory)
    (hm : ∀ p b, m.buffers.lookup p = some b → m₁.buffers.lookup p = some b) :
    m₁.load o.block.file o.f.size = some ((o.f.file.getD []).take o.f.size) := by
  cases hf : o.f.file with
  | none =>
    rw [FileNode.content, hf] at hsize
    have h0 : o.f.size = 0 := hsize
    rw [Memory.load, if_pos h0, h0, List.take_zero]
  | some b =>
    rw [FileNode.content, hf] at hsize
    have hlen : o.f.size = b.length := hsize
    have hfile : o.block.file = o.buf := by
      rw [Owned.block, hf]
      rfl
    rw [Memory.load, hfile]
    split_ifs with h0
    · rw [h0, List.take_zero]
    · rw [hm _ _ (h.buffer ho hf).1, Option.bind_eq_bind, Option.bind_some, if_pos (Nat.le_of_eq hlen)]
      rfl

/-- **A file gets a new buffer** with new contents; the old one is not there any
    more. -/
theorem Holds.fill (h : Holds base m (l₁ ++ o :: l₂)) {B : Finmap fun _ : Ptr => List Byte}
    (hB : Owns base.buffers B (l₁.filterMap Owned.buffer ++ l₂.filterMap Owned.buffer)) (hB0 : NULL ∉ B)
    (al : Allocator) (buf : List Byte) :
    ∃ q m', Memory.fill al { m with buffers := B } o.file o.block buf = some m' ∧
      m'.fileQueue = m.fileQueue ∧ m'.stats = m.stats ∧
      Holds base m' (l₁ ++ { o with
        buf := q
        f := { o.f with file := some (memcpy (calloc buf.length) 0 buf), size := buf.length } } :: l₂) := by
  let q := al.addr { m with buffers := B }
  have hfiles := h.files
  rw [List.map_append, List.map_cons] at hfiles
  have hcopy : (B.insert q (calloc buf.length)).lookup q = some (calloc buf.length) := Finmap.lookup_insert B
  refine ⟨q, { m with
    files := (m.files.insert o.file { o.block with file := q }).insert o.file
      { o.block with file := q, size := buf.length }
    buffers := (B.insert q (calloc buf.length)).insert q (memcpy (calloc buf.length) 0 buf) }, ?_, rfl, rfl, ?_⟩
  · have hc := copy_eq (Memory.setFile { m with buffers := B.insert q (calloc buf.length) } o.file
      { o.block with file := q }) 0 buf hcopy (by simp)
    exact Option.bind_eq_some_iff.2 ⟨_, hc, rfl⟩
  · constructor
    · have hl := h.linked
      rw [List.map_append, List.map_cons] at hl ⊢
      exact hl
    · have hn := h.nodes
      rw [List.map_append, List.map_cons] at hn ⊢
      exact hn
    · rw [List.map_append, List.map_cons]
      exact (hfiles.write _ _).write _ _
    · rw [List.filterMap_append, List.filterMap_cons]
      exact (hB.alloc _ _ (al.fresh { m with buffers := B }).2.2).write _ _
    · have hfile := h.file_ne_null (o := o) (by simp)
      exact insert_null hfile (insert_null hfile h.null_files)
    · exact insert_null (al.ne_null _) (insert_null (al.ne_null _) hB0)

/-- **A file with contents gets a larger buffer**, if the new contents are not
    longer than the old ones; otherwise they go past its end. -/
theorem Holds.grow (h : Holds base m (l₁ ++ o :: l₂)) {old : List Byte} (hf : o.f.file = some old)
    (hsize : o.f.size = o.f.content.length) (al : Allocator) (buf : List Byte) :
    (buf.length ≤ o.f.size → ∃ q m', m.grow al o.file o.block buf = some m' ∧
      m'.fileQueue = m.fileQueue ∧ m'.stats = m.stats ∧ Holds base m' (l₁ ++ { o with
        buf := q
        f := { o.f with
          file := some (appendBuffer old o.f.size buf buf.length)
          size := o.f.size + buf.length } } :: l₂)) ∧
    (o.f.size < buf.length → m.grow al o.file o.block buf = none) := by
  have ho : o ∈ l₁ ++ o :: l₂ := by simp
  have hfile : o.block.file = o.buf := by
    rw [Owned.block, hf]
    rfl
  obtain ⟨hbuf, hnull⟩ := h.buffer ho hf
  let q := al.addr m
  have hq : q ∉ m.buffers := (al.fresh m).2.2
  have hne : o.buf ≠ q := fun he => hq (he ▸ Finmap.mem_of_lookup_eq_some hbuf)
  -- the new buffer, with the old contents
  let B₁ := m.buffers.insert q (calloc (o.f.size + buf.length))
  let b₁ := memcpy (calloc (o.f.size + buf.length)) 0 (old.take o.f.size)
  let B₂ := B₁.insert q b₁
  have hlen : b₁.length = o.f.size + buf.length := by rw [length_memcpy, length_calloc]
  have hload : Memory.load { m with buffers := B₁ } o.block.file o.f.size = some (old.take o.f.size) := by
    have hl := h.load ho hsize { m with buffers := B₁ } fun _ _ hp => lookup_fresh hq hp
    rwa [hf] at hl
  have hcopy : Memory.copy { m with buffers := B₁ } q 0 (old.take o.f.size) =
      some { m with buffers := B₂ } :=
    copy_eq { m with buffers := B₁ } 0 _ (Finmap.lookup_insert _) (by
      rw [length_calloc, List.length_take]
      omega)
  have hlook : B₂.lookup q = some b₁ := Finmap.lookup_insert _
  have hgrow : m.grow al o.file o.block buf = (Memory.copy { m with buffers := B₂ } q buf.length buf).bind
      fun m => ((m.setFile o.file { o.block with size := o.f.size + buf.length }).freeBuffer o.block.file).bind
      fun m => some (m.setFile o.file { o.block with file := q, size := o.f.size + buf.length }) :=
    (congrArg (Option.bind · _) hload).trans (congrArg (Option.bind · _) hcopy)
  refine ⟨fun hle => ?_, fun hlt => ?_⟩
  · let B₃ := B₂.insert q (memcpy b₁ buf.length buf)
    let F := m.files.insert o.file { o.block with size := o.f.size + buf.length }
    have hcopy₂ : Memory.copy { m with buffers := B₂ } q buf.length buf = some { m with buffers := B₃ } :=
      copy_eq { m with buffers := B₂ } buf.length buf hlook (by omega)
    have hold : B₃.lookup o.buf = some old := by
      rw [Finmap.lookup_insert_of_ne _ hne, Finmap.lookup_insert_of_ne _ hne, Finmap.lookup_insert_of_ne _ hne]
      exact hbuf
    have hfree : Memory.freeBuffer { m with files := F, buffers := B₃ } o.block.file =
        some { m with files := F, buffers := Finmap.erase o.buf B₃ } := by
      rw [hfile, Memory.freeBuffer, if_neg hnull, if_pos (Finmap.mem_of_lookup_eq_some hold)]
    refine ⟨q, { m with
      files := F.insert o.file { o.block with file := q, size := o.f.size + buf.length }
      buffers := Finmap.erase o.buf B₃ }, ?_, rfl, rfl, ?_⟩
    · rw [hgrow, hcopy₂]
      exact congrArg (Option.bind · _) hfree
    · have hfiles := h.files
      rw [List.map_append, List.map_cons] at hfiles
      have hb := h.buffers
      rw [List.filterMap_append, List.filterMap_cons, Owned.buffer, hf, Option.map_some] at hb
      have hown := ((hb.alloc _ (calloc (o.f.size + buf.length)) hq).write _ b₁).write _
        (memcpy b₁ buf.length buf)
      rw [List.append_cons] at hown
      constructor
      · have hl := h.linked
        rw [List.map_append, List.map_cons] at hl ⊢
        exact hl
      · have hn := h.nodes
        rw [List.map_append, List.map_cons] at hn ⊢
        exact hn
      · rw [List.map_append, List.map_cons]
        exact (hfiles.write _ _).write _ _
      · rw [List.filterMap_append, List.filterMap_cons, Owned.buffer, Option.map_some, appendBuffer,
          List.take_length]
        have hown' := hown.free _
        rw [List.append_assoc, List.singleton_append] at hown'
        exact hown'
      · have h0 := h.file_ne_null ho
        exact insert_null h0 (insert_null h0 h.null_files)
      · have h0 := al.ne_null m
        rw [Finmap.mem_erase]
        exact fun hm => insert_null h0 (insert_null h0 (insert_null h0 h.null_buffers)) hm.2
  · rw [hgrow, copy_past { m with buffers := B₂ } buf.length buf hlook (by omega)]
    rfl

/-- The last part of a write: the high-water mark. -/
theorem Implements.recordSize (h : Implements base m s) :
    ∃ m', m.recordSize = some m' ∧ Implements base m' s.recordSize := by
  obtain ⟨os, hh, hs, hl, hst⟩ := h
  have hsum : m.getStorageSize = some (FileStorage.getStorageSize s.fileQueue) := sum_eq hh hs
  rw [Memory.recordSize, hsum, Option.bind_eq_bind, Option.bind_some, Server.recordSize, hst]
  by_cases hlt : m.stats.maxFileStorageSize < FileStorage.getStorageSize s.fileQueue
  · simp only [if_pos hlt]
    exact ⟨_, rfl, os, ⟨hh.linked, hh.nodes, hh.files, hh.buffers, hh.null_files, hh.null_buffers⟩, hs, hl, rfl⟩
  · simp only [if_neg hlt]
    exact ⟨m, rfl, os, hh, hs, hl, hst⟩

/-- The store with the new contents of a file. -/
theorem Holds.implements_filled (hh : Holds base m' (l₁ ++ o' :: l₂)) (hs : Stores s (l₁ ++ o :: l₂))
    (hl : s.fileQueue.len = m'.fileQueue.len) (hst : s.stats = m'.stats) (hwf : s.fileQueue.WF)
    {g : FileNode → FileNode} (hg : o'.f = g o.f) :
    Implements base m' { s with fileQueue := s.fileQueue.modify o.f.addr g } := by
  refine ⟨_, hh, ?_, hl, hst⟩
  show (s.fileQueue.modify o.f.addr g).data = _
  rw [modify_split hs hwf, List.map_append, List.map_append, List.map_cons, List.map_cons, hg]

/-- `appendVirtualFile` of the store, on an open file: the change of its node. -/
theorem appendVirtualFile_modify {f : FileNode} (hf : FileStorage.getFileNode s.fileQueue p = some f)
    (hopen : f.isOpen = true) (buf : List Byte) :
    ∃ g, FileStorage.appendVirtualFile s p buf buf.length =
        (0, Server.recordSize { s with fileQueue := s.fileQueue.modify f.addr g }) ∧
      (f.file = none → g f = { f with
        file := some (memcpy (calloc buf.length) 0 buf)
        size := buf.length }) ∧
      ∀ old, f.file = some old → g f = { f with
        file := some (appendBuffer old f.size buf buf.length)
        size := f.size + buf.length } := by
  -- the change is read off the definition
  refine ⟨?change, ?result, ?_, ?_⟩
  case result =>
    rw [FileStorage.appendVirtualFile, hf]
    simp only [hopen, Bool.not_true, Bool.false_eq_true, if_false]
    rfl
  · intro hnone
    simp only [hnone, List.take_length]
  · intro old hold
    simp only [hold]

theorem appendVirtualFile_eq (h : Implements base m s) (hwf : s.fileQueue.WF) (al : Allocator) (p : CString)
    (buf : List Byte) :
    ((∀ f, FileStorage.getFileNode s.fileQueue p = some f → f.isOpen = true → f.file ≠ none →
        buf.length ≤ f.size) →
      ∃ m', m.appendVirtualFile al p buf = some ((FileStorage.appendVirtualFile s p buf buf.length).1, m') ∧
        Implements base m' (FileStorage.appendVirtualFile s p buf buf.length).2) ∧
    (∀ f, FileStorage.getFileNode s.fileQueue p = some f → f.isOpen = true → f.file ≠ none →
      f.size < buf.length → m.appendVirtualFile al p buf = none) := by
  obtain ⟨os, hh, hs, hl, hst⟩ := id h
  rcases hh.find hs p with ⟨hn, hm⟩ | ⟨l₁, o, l₂, rfl, hn, hm, h0, hlook⟩
  · obtain ⟨m', hr, h'⟩ := h.recordSize
    simp only [Memory.appendVirtualFile, FileStorage.appendVirtualFile, hn, hm, Option.bind_eq_bind,
      Option.bind_some, if_true, hr]
    exact ⟨fun _ => ⟨m', rfl, h'⟩, fun f hf => by cases hf⟩
  · have hsize := hwf.size o.f (getFileNode_mem hn)
    by_cases hopen : (!o.f.isOpen) = true
    · simp only [Memory.appendVirtualFile, FileStorage.appendVirtualFile, hn, hm, Option.bind_eq_bind,
        Option.bind_some, if_neg h0, hlook, if_pos hopen]
      refine ⟨fun _ => ⟨m, rfl, h⟩, fun f hf ho => ?_⟩
      obtain rfl := Option.some.inj hf
      rw [ho] at hopen
      cases hopen
    · obtain ⟨g, hstore, hnone, hsome⟩ := appendVirtualFile_modify hn (by simpa using hopen) buf
      simp only [Memory.appendVirtualFile, hstore, hn, hm, Option.bind_eq_bind, Option.bind_some, if_neg h0,
        hlook, if_neg hopen]
      rcases Option.eq_none_or_eq_some o.f.file with hf | ⟨old, hf⟩
      · have hnull : o.block.file = NULL := by
          rw [Owned.block, hf]
          rfl
        have hB := hh.buffers
        rw [List.filterMap_append, List.filterMap_cons, Owned.buffer, hf] at hB
        obtain ⟨q, m₁, hfill, hq₁, hst₁, hh₁⟩ := hh.fill hB hh.null_buffers al buf
        obtain ⟨m', hr, h'⟩ := (hh₁.implements_filled hs (by rw [hl, hq₁]) (by rw [hst, hst₁]) hwf
          (hnone hf).symm).recordSize
        refine ⟨fun _ => ⟨m', ?_, h'⟩, fun f he _ hne => ?_⟩
        · rw [if_pos hnull]
          simp only [hfill, Option.bind_some, hr]
        · obtain rfl := Option.some.inj he
          exact absurd hf hne
      · have hbuf : o.block.file ≠ NULL := by
          rw [Owned.block, hf]
          exact (hh.buffer (o := o) (by simp) hf).2
        obtain ⟨hgrow, hpast⟩ := hh.grow hf hsize al buf
        refine ⟨fun hle => ?_, fun f he _ _ hlt => ?_⟩
        · obtain ⟨q, m₁, hfill, hq₁, hst₁, hh₁⟩ :=
            hgrow (hle o.f rfl (by simpa using hopen) (by rw [hf]; exact Option.some_ne_none old))
          obtain ⟨m', hr, h'⟩ := (hh₁.implements_filled hs (by rw [hl, hq₁]) (by rw [hst, hst₁]) hwf
            (hsome old hf).symm).recordSize
          refine ⟨m', ?_, h'⟩
          rw [if_neg hbuf]
          simp only [hfill, Option.bind_some, hr]
        · obtain rfl := Option.some.inj he
          rw [if_neg hbuf, hpast hlt]
          rfl

theorem writeVirtualFile_eq (h : Implements base m s) (hwf : s.fileQueue.WF) (buf : List Byte) :
    ∃ m', m.writeVirtualFile al p buf = some ((FileStorage.writeVirtualFile s p buf buf.length).1, m') ∧
      Implements base m' (FileStorage.writeVirtualFile s p buf buf.length).2 := by
  obtain ⟨os, hh, hs, hl, hst⟩ := id h
  rcases hh.find hs p with ⟨hn, hm⟩ | ⟨l₁, o, l₂, rfl, hn, hm, h0, hlook⟩
  · obtain ⟨m', hr, h'⟩ := h.recordSize
    simp only [Memory.writeVirtualFile, FileStorage.writeVirtualFile, hn, hm, Option.bind_eq_bind,
      Option.bind_some, if_true, hr]
    exact ⟨m', rfl, h'⟩
  · simp only [Memory.writeVirtualFile, FileStorage.writeVirtualFile, hn, hm, Option.bind_eq_bind,
      Option.bind_some, if_neg h0, hlook]
    by_cases hopen : (!o.f.isOpen) = true
    · simp only [if_pos hopen]
      exact ⟨m, rfl, h⟩
    · simp only [if_neg hopen]
      obtain ⟨B, hfree, hB, hB0⟩ := hh.freeBuffer m rfl
      obtain ⟨q, m₁, hfill, hq₁, hst₁, hh₁⟩ := hh.fill hB hB0 al buf
      obtain ⟨m', hr, h'⟩ := (hh₁.implements_filled (g := fun f => { f with
        file := some (memcpy (calloc buf.length) 0 (buf.take buf.length)), size := buf.length }) hs
        (by rw [hl, hq₁]) (by rw [hst, hst₁]) hwf (by rw [List.take_length])).recordSize
      simp only [hfree, Option.bind_some, hfill, hr]
      exact ⟨m', rfl, h'⟩

theorem load_eq {q : Ptr} {b : List Byte} {size : ℕ} (hl : m.buffers.lookup q = some b) (hle : size ≤ b.length) :
    m.load q size = some (b.take size) := by
  rw [Memory.load]
  split_ifs with h0
  · rw [h0, List.take_zero]
  · rw [hl, Option.bind_eq_bind, Option.bind_some, if_pos hle]

theorem sendFileToClient_eq (h : Implements base m s) (hwf : s.fileQueue.WF) :
    ∃ m', m.sendFileToClient al p = some (FileStorage.readVirtualFile s.fileQueue p, m') ∧
      Implements base m' s := by
  obtain ⟨os, hh, hs, hl, hst⟩ := id h
  rcases hh.find hs p with ⟨hn, hm⟩ | ⟨l₁, o, l₂, rfl, hn, hm, h0, hlook⟩
  · simp only [Memory.sendFileToClient, Memory.readVirtualFile, FileStorage.readVirtualFile, hn, hm]
    exact ⟨m, rfl, h⟩
  · by_cases hopen : (!o.f.isOpen) = true
    · simp only [Memory.sendFileToClient, Memory.readVirtualFile, FileStorage.readVirtualFile, hn, hm,
        Option.bind_eq_bind, Option.bind_some, if_neg h0, hlook, if_pos hopen]
      exact ⟨m, rfl, h⟩
    · have ho : o ∈ l₁ ++ o :: l₂ := by simp
      have hsize := hwf.size o.f (getFileNode_mem hn)
      let q := al.addr m
      have hq : q ∉ m.buffers := (al.fresh m).2.2
      let b := memcpy (calloc o.f.size) 0 ((o.f.file.getD []).take o.f.size)
      have hlen : b.length = o.f.size := by rw [length_memcpy, length_calloc]
      let B₁ := m.buffers.insert q (calloc o.f.size)
      let B₂ := B₁.insert q b
      have hload : Memory.load { m with buffers := B₁ } o.block.file o.f.size =
          some ((o.f.file.getD []).take o.f.size) :=
        hh.load ho hsize _ fun _ _ hp => lookup_fresh hq hp
      have hcopy : Memory.copy { m with buffers := B₁ } q 0 ((o.f.file.getD []).take o.f.size) =
          some { m with buffers := B₂ } :=
        copy_eq { m with buffers := B₁ } 0 _ (Finmap.lookup_insert _) (by
          rw [length_calloc, List.length_take]
          omega)
      have hread : m.readVirtualFile al p = some (some (q, o.f.size), { m with buffers := B₂ }) := by
        simp only [Memory.readVirtualFile, hm, Option.bind_eq_bind, Option.bind_some, if_neg h0, hlook,
          if_neg hopen]
        exact (congrArg (Option.bind · _) hload).trans (congrArg (Option.bind · _) hcopy)
      -- the buffer is read back, and freed
      have hback : Memory.load { m with buffers := B₂ } q o.f.size = some b := by
        rw [load_eq (m := { m with buffers := B₂ }) (Finmap.lookup_insert _) (Nat.le_of_eq hlen.symm),
          ← hlen, List.take_length]
      have hfree : Memory.freeBuffer { m with buffers := B₂ } q =
          some { m with buffers := Finmap.erase q B₂ } := by
        rw [Memory.freeBuffer, if_neg (al.ne_null m), if_pos]
        exact Finmap.mem_of_lookup_eq_some (Finmap.lookup_insert B₁)
      refine ⟨{ m with buffers := Finmap.erase q B₂ }, ?_, l₁ ++ o :: l₂, ?_, hs, hl, hst⟩
      · simp only [Memory.sendFileToClient, hread, Option.bind_eq_bind, Option.bind_some, hback, hfree,
          FileStorage.readVirtualFile, hn, if_neg hopen]
        rfl
      · refine ⟨hh.linked, hh.nodes, hh.files, ?_, hh.null_files, ?_⟩
        · exact ((hh.buffers.alloc [] _ hq).write [] _).free []
        · rw [Finmap.mem_erase]
          have h1 := al.ne_null m
          exact fun hm => insert_null h1 (insert_null h1 hh.null_buffers) hm.2

/-- A file is replaced. -/
theorem expel_eq (h : Implements base m s) (hwf : s.WF cfg) {n : ℤ} {f : FileNode}
    (hf : s.fileQueue.data.find? (makesRoom (FileStorage.getFreeSpace cfg s.fileQueue) n) = some f) :
    ∃ m', m.expel cfg n = some ((f.pathname, (f.file.getD []).take f.size), m') ∧
      Implements base m' { s with fileQueue := (FileStorage.removeNode s.fileQueue f.addr).2 } := by
  obtain ⟨os, hh, hs, -⟩ := id h
  have hexp := expelFile_eq hh hs cfg n
  rw [hs, List.find?_map] at hf
  obtain ⟨o, hfind, rfl⟩ := Option.map_eq_some_iff.1 hf
  have hfind : (os.find? fun o => makesRoom (FileStorage.getFreeSpace cfg s.fileQueue) n o.f) = some o := hfind
  have ho := List.mem_of_find?_eq_some hfind
  have hmem : o.f ∈ s.fileQueue.data := by
    rw [hs]
    exact List.mem_map_of_mem ho
  rw [hfind] at hexp
  obtain ⟨m', hq, h'⟩ := h.removeNode hwf.toWF (Nat.ne_of_gt (hwf.addr _ hmem).1) hh hs ho
  refine ⟨m', ?_, h'⟩
  simp only [Memory.expel, hexp, Option.bind_eq_bind, Option.bind_some, Option.map_some, hh.lookup ho,
    hh.load ho (hwf.size _ hmem) m fun _ _ hp => hp, hq]

/-- No file can be replaced: the pointer has not been set. -/
theorem expel_unset (h : Implements base m s) {n : ℤ}
    (hf : s.fileQueue.data.find? (makesRoom (FileStorage.getFreeSpace cfg s.fileQueue) n) = none) :
    m.expel cfg n = none := by
  obtain ⟨os, hh, hs, -⟩ := h
  have hexp := expelFile_eq hh hs cfg n
  rw [hs, List.find?_map] at hf
  have hfind : (os.find? fun o => makesRoom (FileStorage.getFreeSpace cfg s.fileQueue) n o.f) = none :=
    Option.map_eq_none_iff.1 hf
  rw [hfind] at hexp
  rw [Memory.expel, hexp]
  rfl

/-! ## A new file -/

/-- The new file is the last one of the queue. -/
theorem create_eq (h : Implements base m s) (al : Allocator) (pathname : CString) (flags : Flags) (c : ℤ) :
    ∃ q', (m.setFile (al.addr m) (newBlock pathname flags c)).fileQueue.push
        (al.malloc (m.setFile (al.addr m) (newBlock pathname flags c))) (al.addr m) =
          some ((FileStorage.push s.fileQueue (newNode s.brk pathname flags c)).1, q') ∧
      q'.len = s.fileQueue.len + 1 ∧
      Implements base { m.setFile (al.addr m) (newBlock pathname flags c) with fileQueue := q' }
        { s with
          fileQueue := (FileStorage.push s.fileQueue (newNode s.brk pathname flags c)).2
          brk := s.brk + 1 } := by
  obtain ⟨os, hh, hs, hl, hst⟩ := h
  have hfresh := al.fresh m
  have h0 := al.ne_null m
  obtain ⟨q', hq, hl'⟩ := LinkedQueue.push_linked
    (al.malloc (m.setFile (al.addr m) (newBlock pathname flags c))) hh.linked h0
  have hnodes := LinkedQueue.push_owned hh.linked hh.nodes h0 hq
  have hlen : (os.map Owned.cell).length = s.fileQueue.len := by rw [hl, hh.linked.len]
  have hlen' : q'.len = s.fileQueue.len + 1 := by
    rw [hl'.len, List.length_append, hlen]
    rfl
  let o : Owned := ⟨(al.malloc (m.setFile (al.addr m) (newBlock pathname flags c))).addr m.fileQueue.heap,
    al.addr m, NULL, newNode s.brk pathname flags c⟩
  refine ⟨q', ?_, hlen', os ++ [o], ?_, ?_, hlen'.symm, hst⟩
  · have hres : (FileStorage.push s.fileQueue (newNode s.brk pathname flags c)).1 =
        i32 ↑((os.map Owned.cell).length + 1) := by
      rw [hlen, FileStorage.push]
    rw [hres]
    exact hq
  · constructor
    · rw [List.map_append]
      exact hl'
    · rw [List.map_append]
      exact hnodes
    · have hf := hh.files
      rw [← List.append_nil (os.map Owned.entry)] at hf
      rw [List.map_append]
      exact hf.alloc _ _ hfresh.2.1
    · have hb : [o].filterMap Owned.buffer = [] := rfl
      rw [List.filterMap_append, hb, List.append_nil]
      exact hh.buffers
    · exact insert_null h0 hh.null_files
    · exact hh.null_buffers
  · show s.fileQueue.data ++ [_] = _
    rw [hs, List.map_append]
    rfl

/-- There are less than `2^32` files. -/
theorem push_ne_zero (hwf : s.WF cfg) (hne : s.fileQueue.len ≠ cfg.maxFile.toNat) (n : FileNode) :
    (FileStorage.push s.fileQueue n).1 ≠ 0 := by
  have hcap := hwf.cap
  have hlt := cfg.maxFile.toNat_lt
  rw [FileStorage.push, i32, Int.bmod_def]
  push_cast
  split <;> omega

/-- `openVirtualFile` in the memory, when it creates a file. -/
theorem openVirtualFile_create {flags : Flags} {c r : ℤ} {q' : LinkedQueue}
    (hfound : m.findFileNode p = some (-1)) (hlock : ¬ (flags.has O_LOCK = true ∧ ¬ flags.has O_CREATE = true))
    (hfull : m.fileQueue.len ≠ cfg.maxFile.toNat)
    (hq : (m.setFile (al.addr m) (newBlock p flags c)).fileQueue.push
      (al.malloc (m.setFile (al.addr m) (newBlock p flags c))) (al.addr m) = some (r, q')) (hr : r ≠ 0) :
    m.openVirtualFile al cfg p flags c = some (0, { m.setFile (al.addr m) (newBlock p flags c) with
      fileQueue := q'
      stats := if u64 m.stats.maxNumFile < q'.len then { m.stats with maxNumFile := i32 q'.len }
        else m.stats }) := by
  rw [Memory.openVirtualFile, hfound, Option.bind_eq_bind, Option.bind_some, if_neg (fun h => h.1 rfl),
    if_neg (fun h => hlock h.2), if_neg (by decide), if_neg hfull]
  simp only [hq, Option.bind_eq_bind, Option.bind_some, if_pos hr, setFile_stats]
  by_cases hlt : u64 m.stats.maxNumFile < q'.len
  · rw [if_pos hlt]
    exact if_pos hlt
  · rw [if_neg hlt]
    exact if_neg hlt

theorem openVirtualFile_eq (h : Implements base m s) (hwf : s.WF cfg) (flags : Flags) (c : ℤ) :
    ∃ m', m.openVirtualFile al cfg p flags c = some ((FileStorage.openVirtualFile cfg s p flags c).1, m') ∧
      Implements base m' (FileStorage.openVirtualFile cfg s p flags c).2 := by
  obtain ⟨os, hh, hs, hl, hst⟩ := id h
  have hfound := findFileNode_eq (p := p) hh hs
  rw [FileStorage.findFileNode_eq] at hfound
  rcases hh.find hs p with ⟨hn, hm⟩ | ⟨l₁, o, l₂, rfl, hn, hm, h0, hlook⟩
  · rw [hn, Option.isSome_none, if_neg Bool.false_ne_true] at hfound
    rw [openVirtualFile_none hwf hn]
    by_cases hlock : flags.has O_LOCK = true ∧ ¬ flags.has O_CREATE = true
    · rw [if_pos hlock, Memory.openVirtualFile, hfound, Option.bind_eq_bind, Option.bind_some,
        if_neg (fun h => h.1 rfl), if_pos ⟨rfl, hlock⟩]
      exact ⟨m, rfl, h⟩
    rw [if_neg hlock]
    by_cases hfull : s.fileQueue.len = cfg.maxFile.toNat
    · rw [if_pos hfull, Memory.openVirtualFile, hfound, Option.bind_eq_bind, Option.bind_some,
        if_neg (fun h => h.1 rfl), if_neg (fun h => hlock h.2), if_neg (by decide), if_pos (hl ▸ hfull)]
      exact ⟨m, rfl, h⟩
    obtain ⟨q', hq, -, os', hh', hs', hl', hst'⟩ := create_eq h al p flags c
    rw [if_neg hfull, openVirtualFile_create hfound hlock (hl ▸ hfull) hq (push_ne_zero hwf hfull _)]
    refine ⟨_, rfl, os', ⟨hh'.linked, hh'.nodes, hh'.files, hh'.buffers, hh'.null_files, hh'.null_buffers⟩, ?_⟩
    have hpush : (FileStorage.push s.fileQueue (newNode s.brk p flags c)).2.len = q'.len := hl'
    rw [Server.recordLen, ← hst]
    simp only [hpush]
    split_ifs with hlt
    · exact ⟨hs', hl', rfl⟩
    · exact ⟨hs', hl', rfl⟩
  · rw [hn, Option.isSome_some, if_pos rfl] at hfound
    rw [openVirtualFile_some hn, Memory.openVirtualFile, hfound, Option.bind_eq_bind, Option.bind_some]
    by_cases hcreate : flags.has O_CREATE = true
    · rw [if_pos hcreate, if_pos ⟨by decide, hcreate⟩]
      exact ⟨m, rfl, h⟩
    rw [if_neg hcreate, if_neg (fun h => hcreate h.2), if_neg (fun h => absurd h.1 (by decide)), if_pos rfl]
    by_cases hlock : flags.has O_LOCK = true
    · rw [if_pos hlock, if_pos hlock]
      exact lockVirtualFile_eq h hwf.toWF c
    · rw [if_neg hlock, if_neg hlock]
      exact ⟨m, rfl, h⟩

end Memory

end FileStorage
