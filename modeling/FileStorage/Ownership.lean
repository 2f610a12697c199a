/-
  What the memory owns for the files of a store.

  There are, for each file, a node of the queue, a `FileNode` and a buffer
  (`Owned`); `Holds` says that these, the sentinel and what was there before are
  all of the memory.  A loop over the queue is a loop over the files
  (`loop_eq`).  The functions that read, change fields or remove a file do to
  the memory what those of `Store` do to the store.
-/
import FileStorage.Effects
import FileStorage.Memory

namespace FileStorage

open LinkedList Footprint

namespace Memory

/-- A file of the store, and where it is in memory. -/
structure Owned where
  node : Ptr
  file : Ptr
  /-- the address of the contents, if there are any -/
  buf : Ptr
  f : FileNode

namespace Owned

def cell (o : Owned) : Ptr × Ptr := (o.node, o.file)

abbrev block (o : Owned) : FileBlock where
  pathname := o.f.pathname
  file := if o.f.file.isSome then o.buf else NULL
  size := o.f.size
  clientId := o.f.clientId
  isOpen := o.f.isOpen

def entry (o : Owned) : Ptr × FileBlock := (o.file, o.block)

def buffer (o : Owned) : Option (Ptr × List Byte) := o.f.file.map fun b => (o.buf, b)

end Owned

/-- The files in memory, and the blocks of `base`. -/
structure Holds (base m : Memory) (os : List Owned) : Prop where
  linked : m.fileQueue.Linked (os.map Owned.cell)
  nodes : m.fileQueue.Owned base.fileQueue.heap (os.map Owned.cell)
  files : Owns base.files m.files (os.map Owned.entry)
  buffers : Owns base.buffers m.buffers (os.filterMap Owned.buffer)
  null_files : NULL ∉ m.files
  null_buffers : NULL ∉ m.buffers

/-- The memory implements the state of the store. -/
def Implements (base m : Memory) (s : Server) : Prop :=
  ∃ os, Holds base m os ∧ s.fileQueue.data = os.map Owned.f ∧ s.fileQueue.len = m.fileQueue.len ∧
    s.stats = m.stats

variable {base m m' : Memory} {os l₁ l₂ : List Owned} {o o' : Owned} {s : Server} {cfg : Config}
  {al : Allocator} {p : CString}

theorem Holds.lookup (h : Holds base m os) (ho : o ∈ os) : m.files.lookup o.file = some o.block :=
  h.files.lookup o.entry (List.mem_map_of_mem ho)

theorem Holds.file_ne_null (h : Holds base m os) (ho : o ∈ os) : o.file ≠ NULL := by
  intro he
  exact h.null_files (he ▸ Finmap.mem_of_lookup_eq_some (h.lookup ho))

theorem Holds.buffer (h : Holds base m os) (ho : o ∈ os) {b : List Byte} (hb : o.f.file = some b) :
    m.buffers.lookup o.buf = some b ∧ o.buf ≠ NULL := by
  have hm : (o.buf, b) ∈ os.filterMap Owned.buffer :=
    List.mem_filterMap.2 ⟨o, ho, by rw [Owned.buffer, hb, Option.map_some]⟩
  refine ⟨h.buffers.lookup _ hm, fun he => h.null_buffers ?_⟩
  exact he ▸ h.buffers.mem hm

/-! ## The loops -/

/-- A loop over a list, up to the round that ends it. -/
def untilStop {α β : Type} (round : α → β → α × Bool) : α → List β → α
  | x, [] => x
  | x, b :: bs =>
    let y := round x b
    if y.2 then untilStop round y.1 bs else y.1

theorem walk_eq {α : Type} {round : α → Ptr → FileBlock → α × Bool} {fuel : ℕ} {node d : Ptr} {x : α}
    (hp : Path m.fileQueue.heap node ((node, d) :: os.map Owned.cell) NULL) (hn : NULL ∉ m.fileQueue.heap)
    (hf : ∀ o ∈ os, m.files.lookup o.file = some o.block) (hfuel : os.length < fuel) :
    m.walk round fuel node x = some (untilStop (fun x o => round x o.file o.block) x os) := by
  induction os generalizing fuel node d x with
  | nil =>
    obtain ⟨fuel, rfl⟩ := Nat.exists_eq_succ_of_ne_zero (Nat.ne_of_gt hfuel)
    obtain ⟨-, next, hl, rfl⟩ := hp
    rw [walk, hl]
    rfl
  | cons o os ih =>
    obtain ⟨fuel, rfl⟩ := Nat.exists_eq_succ_of_ne_zero (Nat.ne_of_gt (Nat.zero_lt_of_lt hfuel))
    obtain ⟨-, next, hl, hp⟩ := hp
    obtain ⟨rfl, next', hl', hp'⟩ := hp
    have hne : o.node ≠ NULL := by
      intro he
      exact hn (he ▸ Finmap.mem_of_lookup_eq_some hl')
    have hrest := ih (x := (round x o.file o.block).1) ⟨rfl, next', hl', hp'⟩
      (fun o ho => hf o (List.mem_cons_of_mem _ ho)) (Nat.lt_of_succ_lt_succ hfuel)
    rw [walk, hl]
    have hlo : m.fileQueue.heap.lookup o.node = some ⟨o.file, next'⟩ := hl'
    simp only [Owned.cell, Option.bind_eq_bind, Option.bind_some, if_neg hne, hlo,
      hf o List.mem_cons_self, untilStop]
    split
    · exact hrest
    · rfl

/-- **A loop over the queue** is a loop over the files. -/
theorem loop_eq (h : Holds base m os) {α : Type} (round : α → Ptr → FileBlock → α × Bool) (x : α) :
    m.loop round x = some (untilStop (fun x o => round x o.file o.block) x os) := by
  obtain ⟨d, hp⟩ := h.linked.path
  have hcard := hp.length_le h.linked.nodup
  rw [List.length_cons, List.length_map] at hcard
  exact walk_eq hp h.linked.null (fun o ho => h.lookup ho) hcard

/-- A loop that never ends before the list does. -/
theorem untilStop_foldl {α β : Type} (step : α → β → α) (x : α) (bs : List β) :
    untilStop (fun x b => (step x b, true)) x bs = bs.foldl step x := by
  induction bs generalizing x with
  | nil => rfl
  | cons b bs ih => exact ih _

/-- A loop that looks for the first element with a property. -/
theorem untilStop_find {α β : Type} {q : β → Prop} [DecidablePred q] {r : β → α} {x : α} (bs : List β) :
    untilStop (fun x b => if q b then (r b, false) else (x, true)) x bs =
      ((bs.find? fun b => q b).map r).getD x := by
  induction bs with
  | nil => rfl
  | cons b bs ih =>
    by_cases hb : q b
    · simp [untilStop, hb]
    · simp [untilStop, hb, ih]

/-- A loop that counts its rounds and stops before round `n`. -/
theorem untilStop_take {α β : Type} (step : α → β → α) (n : ℕ) (k : ℤ) (x : α) (bs : List β) (hn : 0 < n) :
    (untilStop (fun x b => ((x.1 + 1, step x.2 b), decide (x.1 + 1 < k + n))) (k, x) bs).2 =
      (bs.take n).foldl step x := by
  induction bs generalizing n k x with
  | nil => rw [List.take_nil]; rfl
  | cons b bs ih =>
    obtain ⟨n, rfl⟩ := Nat.exists_eq_succ_of_ne_zero (Nat.ne_of_gt hn)
    rw [List.take_succ_cons, List.foldl_cons, untilStop]
    by_cases h0 : n = 0
    · subst h0
      simp
    · have hgo : k + 1 < k + (n.succ : ℕ) := by omega
      have hk : k + ((n.succ : ℕ) : ℤ) = k + 1 + n := by omega
      simp only [hgo, decide_true, if_true]
      rw [hk]
      exact ih n (k + 1) (step x b) (Nat.pos_of_ne_zero h0)

/-! ## The functions that read -/

/-- The files are those of the store. -/
abbrev Stores (s : Server) (os : List Owned) : Prop := s.fileQueue.data = os.map Owned.f

theorem Stores.getFileNode (hs : Stores s os) :
    FileStorage.getFileNode s.fileQueue p = (os.find? (·.f.pathname = p)).map Owned.f := by
  rw [FileStorage.getFileNode, hs, List.find?_map]
  rfl

theorem getFileNode_eq (h : Holds base m os) :
    m.getFileNode p = some (((os.find? (·.f.pathname = p)).map Owned.file).getD NULL) :=
  (loop_eq h _ _).trans (congrArg some (untilStop_find (q := fun o : Owned => o.f.pathname = p) os))

/-- What the lookup of a pathname finds. -/
theorem Holds.find (h : Holds base m os) (hs : Stores s os) (p : CString) :
    (FileStorage.getFileNode s.fileQueue p = none ∧ m.getFileNode p = some NULL) ∨
    ∃ l₁ o l₂, os = l₁ ++ o :: l₂ ∧ FileStorage.getFileNode s.fileQueue p = some o.f ∧
      m.getFileNode p = some o.file ∧ o.file ≠ NULL ∧ m.files.lookup o.file = some o.block := by
  rw [hs.getFileNode, getFileNode_eq h]
  cases hf : os.find? (·.f.pathname = p) with
  | none => exact Or.inl ⟨rfl, rfl⟩
  | some o =>
    have ho := List.mem_of_find?_eq_some hf
    obtain ⟨l₁, l₂, he⟩ := List.append_of_mem ho
    exact Or.inr ⟨l₁, o, l₂, he, rfl, rfl, h.file_ne_null ho, h.lookup ho⟩

theorem findFileNode_eq (h : Holds base m os) (hs : Stores s os) :
    m.findFileNode p = some (FileStorage.findFileNode s.fileQueue p) := by
  have hloop : m.findFileNode p = some (((os.find? (·.f.pathname = p)).map fun _ => 0).getD (-1)) :=
    (loop_eq h _ _).trans (congrArg some (untilStop_find (q := fun o : Owned => o.f.pathname = p) os))
  rw [hloop, FileStorage.findFileNode_eq, hs.getFileNode]
  cases os.find? (·.f.pathname = p) <;> rfl

theorem sum_eq (h : Holds base m os) (hs : Stores s os) :
    m.loop (fun size _ f => (addBlock size f, true)) 0 =
      some (FileStorage.getStorageSize s.fileQueue) := by
  rw [loop_eq h, untilStop_foldl (fun x (o : Owned) => addBlock x o.block), FileStorage.getStorageSize, hs,
    List.foldl_map]
  rfl

theorem getFreeSpace_eq (h : Holds base m os) (hs : Stores s os) :
    m.getFreeSpace cfg = some (FileStorage.getFreeSpace cfg s.fileQueue) := by
  rw [Memory.getFreeSpace, sum_eq h hs]
  rfl

theorem expelFile_eq (h : Holds base m os) (hs : Stores s os) (cfg : Config) (n : ℤ) :
    m.expelFile cfg n = some ((os.find? fun o =>
      makesRoom (FileStorage.getFreeSpace cfg s.fileQueue) n o.f).map Owned.file) := by
  rw [Memory.expelFile, getFreeSpace_eq h hs, Option.bind_eq_bind, Option.bind_some, loop_eq h]
  refine congrArg some ((untilStop_find (q := fun o : Owned =>
    u64 n ≤ u64 (u64 (FileStorage.getFreeSpace cfg s.fileQueue) + o.f.size)) os).trans ?_)
  show _ = (os.find? fun o => decide _).map Owned.file
  cases os.find? _ <;> rfl

theorem getNFileList_eq (h : Holds base m os) (hs : Stores s os) (hl : s.fileQueue.len = m.fileQueue.len)
    {N : ℤ} : m.getNFileList N = some (FileStorage.getNFileList s.fileQueue N) := by
  simp only [Memory.getNFileList, FileStorage.getNFileList, hl, hs]
  generalize (if N = -1 ∨ (m.fileQueue.len : ℤ) < u64 N then i32 m.fileQueue.len else N) = n
  split
  · have hn : ((n.toNat : ℕ) : ℤ) = n := Int.toNat_of_nonneg (by omega)
    have htake := untilStop_take (fun x (o : Owned) => appendName x o.block.pathname) n.toNat 0 none os (by omega)
    rw [hn, zero_add] at htake
    rw [loop_eq h, Option.bind_eq_bind, Option.bind_some, htake, ← List.map_take, List.foldl_map]
    rfl
  · have h0 : n.toNat = 0 := by omega
    rw [h0]
    rfl

/-! ## A change of the fields of a file -/

theorem Holds.distinct (h : Holds base m os) : (os.map Owned.file).Nodup := by
  have hn := h.files.nodup
  rwa [List.map_map] at hn

/-- The block of one file is written. -/
theorem Holds.setFile (h : Holds base m (l₁ ++ o :: l₂)) (hc : o'.cell = o.cell) (hb : o'.buffer = o.buffer) :
    Holds base (m.setFile o.file o'.block) (l₁ ++ o' :: l₂) := by
  have hcells : (l₁ ++ o' :: l₂).map Owned.cell = (l₁ ++ o :: l₂).map Owned.cell := by
    rw [List.map_append, List.map_append, List.map_cons, List.map_cons, hc]
  have hbufs : (l₁ ++ o' :: l₂).filterMap Owned.buffer = (l₁ ++ o :: l₂).filterMap Owned.buffer := by
    rw [List.filterMap_append, List.filterMap_append, List.filterMap_cons, List.filterMap_cons, hb]
  have hfile : o'.file = o.file := congrArg Prod.snd hc
  have hentry : o'.entry = (o.file, o'.block) := by rw [Owned.entry, hfile]
  constructor
  · rw [hcells]
    exact h.linked
  · rw [hcells]
    exact h.nodes
  · have hf := h.files
    rw [List.map_append, List.map_cons] at hf ⊢
    rw [hentry]
    exact hf.write _ _
  · rw [hbufs]
    exact h.buffers
  · rw [Memory.setFile, Finmap.mem_insert, not_or]
    exact ⟨(h.file_ne_null (by simp)).symm, h.null_files⟩
  · exact h.null_buffers

/-- A write through the pointer to a node, where the addresses are distinct. -/
theorem modify_split {g : FileNode → FileNode} (hs : Stores s (l₁ ++ o :: l₂)) (hwf : s.fileQueue.WF) :
    (s.fileQueue.modify o.f.addr g).data = (l₁ ++ { o with f := g o.f } :: l₂).map Owned.f := by
  have hn := hwf.addrs
  have hd : s.fileQueue.data = l₁.map Owned.f ++ o.f :: l₂.map Owned.f := by rw [hs]; simp
  rw [hd, List.map_append, List.map_cons, List.nodup_middle, List.nodup_cons, List.mem_append, not_or] at hn
  have hother : ∀ l : List FileNode, o.f.addr ∉ l.map (·.addr) →
      (l.map fun n => if n.addr = o.f.addr then g n else n) = l := by
    intro l hl
    refine (List.map_congr_left fun n hn => if_neg fun he => hl ?_).trans (List.map_id l)
    exact he ▸ List.mem_map_of_mem hn
  rw [Queue.modify, hd, List.map_append, List.map_cons, hother _ hn.1.1, hother _ hn.1.2]
  simp

/-- **A change of fields** that leaves the contents. -/
theorem Holds.modify {g : FileNode → FileNode} (h : Holds base m (l₁ ++ o :: l₂))
    (hs : Stores s (l₁ ++ o :: l₂)) (hl : s.fileQueue.len = m.fileQueue.len) (hst : s.stats = m.stats)
    (hwf : s.fileQueue.WF) (hg : (g o.f).file = o.f.file) :
    Implements base (m.setFile o.file { o with f := g o.f : Owned }.block)
      { s with fileQueue := s.fileQueue.modify o.f.addr g } := by
  refine ⟨l₁ ++ { o with f := g o.f } :: l₂, h.setFile rfl ?_, modify_split hs hwf, hl, hst⟩
  rw [Owned.buffer, Owned.buffer, hg]

theorem lockVirtualFile_eq (h : Implements base m s) (hwf : s.fileQueue.WF) (c : ℤ) :
    ∃ m', m.lockVirtualFile p c = some ((FileStorage.lockVirtualFile s.fileQueue p c).1, m') ∧
      Implements base m' { s with fileQueue := (FileStorage.lockVirtualFile s.fileQueue p c).2 } := by
  obtain ⟨os, hh, hs, hl, hst⟩ := id h
  rcases hh.find hs p with ⟨hn, hm⟩ | ⟨l₁, o, l₂, rfl, hn, hm, h0, hlook⟩
  · simp only [Memory.lockVirtualFile, FileStorage.lockVirtualFile, hn, hm]
    exact ⟨m, rfl, h⟩
  · simp only [Memory.lockVirtualFile, FileStorage.lockVirtualFile, hn, hm, Option.bind_eq_bind,
      Option.bind_some, if_neg h0, hlook]
    by_cases hopen : (!o.f.isOpen) = true
    · simp only [if_pos hopen]
      exact ⟨m, rfl, h⟩
    · simp only [if_neg hopen]
      by_cases hc : o.f.clientId = c
      · simp only [if_pos hc]
        exact ⟨m, rfl, h⟩
      · simp only [if_neg hc]
        by_cases hfree : o.f.clientId = 0
        · simp only [if_pos hfree]
          exact ⟨_, rfl, hh.modify (g := fun f => { f with clientId := c }) hs hl hst hwf rfl⟩
        · simp only [if_neg hfree]
          exact ⟨m, rfl, h⟩

theorem unlockVirtualFile_eq (h : Implements base m s) (hwf : s.fileQueue.WF) (c : ℤ) :
    ∃ m', m.unlockVirtualFile p c = some ((FileStorage.unlockVirtualFile s.fileQueue p c).1, m') ∧
      Implements base m' { s with fileQueue := (FileStorage.unlockVirtualFile s.fileQueue p c).2 } := by
  obtain ⟨os, hh, hs, hl, hst⟩ := id h
  rcases hh.find hs p with ⟨hn, hm⟩ | ⟨l₁, o, l₂, rfl, hn, hm, h0, hlook⟩
  · simp only [Memory.unlockVirtualFile, FileStorage.unlockVirtualFile, hn, hm]
    exact ⟨m, rfl, h⟩
  · simp only [Memory.unlockVirtualFile, FileStorage.unlockVirtualFile, hn, hm, Option.bind_eq_bind,
      Option.bind_some, if_neg h0, hlook]
    by_cases hopen : (!o.f.isOpen) = true
    · simp only [if_pos hopen]
      exact ⟨m, rfl, h⟩
    · simp only [if_neg hopen]
      by_cases hc : o.f.clientId = c
      · simp only [if_pos hc]
        exact ⟨_, rfl, hh.modify (g := fun f => { f with clientId := 0 }) hs hl hst hwf rfl⟩
      · simp only [if_neg hc]
        by_cases hfree : o.f.clientId = 0
        · simp only [if_pos hfree]
          exact ⟨m, rfl, h⟩
        · simp only [if_neg hfree]
          exact ⟨m, rfl, h⟩

theorem closeVirtualFile_eq (h : Implements base m s) (hwf : s.fileQueue.WF) (unset c : ℤ) :
    ∃ m', m.closeVirtualFile unset p c = some ((FileStorage.closeVirtualFile unset s.fileQueue p c).1, m') ∧
      Implements base m' { s with fileQueue := (FileStorage.closeVirtualFile unset s.fileQueue p c).2 } := by
  obtain ⟨os, hh, hs, hl, hst⟩ := id h
  rcases hh.find hs p with ⟨hn, hm⟩ | ⟨l₁, o, l₂, rfl, hn, hm, h0, hlook⟩
  · simp only [Memory.closeVirtualFile, FileStorage.closeVirtualFile, hn, hm]
    exact ⟨m, rfl, h⟩
  · simp only [Memory.closeVirtualFile, FileStorage.closeVirtualFile, hn, hm, Option.bind_eq_bind,
      Option.bind_some, if_neg h0, hlook]
    by_cases hopen : (!o.f.isOpen) = true
    · simp only [if_pos hopen]
      exact ⟨m, rfl, h⟩
    · simp only [if_neg hopen]
      by_cases hc : o.f.clientId = c
      · simp only [if_pos hc]
        exact ⟨_, rfl, hh.modify (g := fun f => { f with isOpen := false }) hs hl hst hwf rfl⟩
      · simp only [if_neg hc]
        exact ⟨m, rfl, h⟩

theorem hasFileLock_eq (h : Holds base m os) (hs : Stores s os) (c : ℤ) :
    m.hasFileLock p c = some (FileStorage.hasFileLock s.fileQueue p c) := by
  rcases h.find hs p with ⟨hn, hm⟩ | ⟨l₁, o, l₂, rfl, hn, hm, h0, hlook⟩
  · simp only [Memory.hasFileLock, FileStorage.hasFileLock, hn, hm]
    rfl
  · simp only [Memory.hasFileLock, FileStorage.hasFileLock, hn, hm, Option.bind_eq_bind, Option.bind_some,
      if_neg h0, hlook]

/-! ## The removal of a file -/

/-- The buffer of one file is freed, if there is one. -/
theorem freeBuffer_owns {L : List (Ptr × List Byte)}
    (hb : Owns base.buffers m.buffers (L ++ (o :: l₂).filterMap Owned.buffer)) (h0 : NULL ∉ m.buffers) :
    ∃ B, m.freeBuffer o.block.file = some { m with buffers := B } ∧
      Owns base.buffers B (L ++ l₂.filterMap Owned.buffer) ∧ NULL ∉ B := by
  rw [List.filterMap_cons, Owned.buffer] at hb
  rw [Memory.freeBuffer, Owned.block]
  cases hf : o.f.file with
  | none =>
    rw [hf] at hb
    exact ⟨m.buffers, rfl, hb, h0⟩
  | some b =>
    rw [hf, Option.map_some] at hb
    have hmem : o.buf ∈ m.buffers := hb.mem (x := (o.buf, b)) (by simp)
    have hne : o.buf ≠ NULL := fun he => h0 (he ▸ hmem)
    refine ⟨Finmap.erase o.buf m.buffers, ?_, hb.free L, ?_⟩
    · rw [Option.isSome_some, if_pos rfl, if_neg hne, if_pos hmem]
    · rw [Finmap.mem_erase]
      exact fun hm => h0 hm.2

theorem Holds.freeBuffer (h : Holds base m (l₁ ++ o :: l₂)) (m₁ : Memory) (he : m₁.buffers = m.buffers) :
    ∃ B, m₁.freeBuffer o.block.file = some { m₁ with buffers := B } ∧
      Owns base.buffers B (l₁.filterMap Owned.buffer ++ l₂.filterMap Owned.buffer) ∧ NULL ∉ B := by
  have hb := h.buffers
  have h0 := h.null_buffers
  rw [List.filterMap_append, ← he] at hb
  rw [← he] at h0
  exact freeBuffer_owns hb h0

theorem Holds.removeNode (h : Holds base m os) (ho : o ∈ os) :
    ∃ l₁ l₂ m', os = l₁ ++ o :: l₂ ∧ m.removeNode o.file = some (0, m') ∧ Holds base m' (l₁ ++ l₂) ∧
      m'.fileQueue.len = m.fileQueue.len - 1 ∧ m'.stats = m.stats := by
  have hsnd : (os.map Owned.cell).map Prod.snd = os.map Owned.file := by rw [List.map_map]; rfl
  have hnull : NULL ∉ (os.map Owned.cell).map Prod.snd := by
    rw [hsnd]
    intro hm
    obtain ⟨x, hx, he⟩ := List.mem_map.1 hm
    exact h.file_ne_null hx he
  rcases LinkedQueue.removeNode_linked o.file h.linked hnull with
    ⟨hno, -⟩ | ⟨pre, a, post, q', hcells, -, hq, hl⟩
  · exact absurd (by rw [hsnd]; exact List.mem_map_of_mem ho) hno
  · obtain ⟨l₁, k, rfl, rfl, hk⟩ := List.map_eq_append_iff.1 hcells
    obtain ⟨x, l₂, rfl, hx, rfl⟩ := List.map_eq_cons_iff.1 hk
    -- the node with this `FileNode` is the one of the file
    obtain rfl : x = o :=
      List.inj_on_of_nodup_map h.distinct (by simp) ho (congrArg Prod.snd hx)
    have hlink := h.linked
    have hnode := h.nodes
    rw [List.map_append, List.map_cons, hx] at hlink hnode
    obtain ⟨B, hfree, hB, hB0⟩ := h.freeBuffer { m with fileQueue := q' } rfl
    refine ⟨l₁, l₂, { m with fileQueue := q', files := Finmap.erase x.file m.files, buffers := B }, rfl, ?_,
      ?_, ?_, rfl⟩
    · have hmem : x.file ∈ m.files := Finmap.mem_of_lookup_eq_some (h.lookup ho)
      simp only [Memory.removeNode, hq, Option.bind_eq_bind, Option.bind_some, if_true, h.lookup ho, hfree,
        Memory.freeFile, if_neg (h.file_ne_null ho), if_pos hmem]
    · constructor
      · rw [List.map_append]
        exact hl
      · rw [List.map_append]
        exact LinkedQueue.removeNode_owned hlink hnode hq hl
      · have hf := h.files
        rw [List.map_append, List.map_cons] at hf
        rw [List.map_append]
        exact hf.free _
      · rw [List.filterMap_append]
        exact hB
      · rw [Finmap.mem_erase]
        exact fun hm => h.null_files hm.2
      · exact hB0
    · have h1 := hl.len
      have h2 := hlink.len
      simp only [List.length_append, List.length_cons] at h1 h2
      show q'.len = m.fileQueue.len - 1
      omega

/-- **The removal of a file** from both. -/
theorem Implements.removeNode (h : Implements base m s) (hwf : s.fileQueue.WF) (h0 : o.f.addr ≠ NULL)
    (hh : Holds base m os) (hs : Stores s os) (ho : o ∈ os) :
    ∃ m', m.removeNode o.file = some ((FileStorage.removeNode s.fileQueue o.f.addr).1, m') ∧
      Implements base m' { s with fileQueue := (FileStorage.removeNode s.fileQueue o.f.addr).2 } := by
  obtain ⟨-, -, -, hl, hst⟩ := h
  obtain ⟨l₁, l₂, m', rfl, hq, hh', hl', hst'⟩ := hh.removeNode ho
  have hmem : o.f ∈ s.fileQueue.data := by
    rw [hs]
    exact List.mem_map_of_mem ho
  have hn := hwf.addrs
  have hd : s.fileQueue.data = l₁.map Owned.f ++ o.f :: l₂.map Owned.f := by rw [hs]; simp
  rw [hd, List.map_append, List.map_cons, List.nodup_middle, List.nodup_cons, List.mem_append, not_or] at hn
  have hkeep : ∀ l : List FileNode, o.f.addr ∉ l.map (·.addr) → l.filter (·.addr ≠ o.f.addr) = l := by
    intro l hl
    refine List.filter_eq_self.2 fun n hn => decide_eq_true fun he => hl ?_
    exact he ▸ List.mem_map_of_mem hn
  rw [removeNode_data hwf hmem h0]
  refine ⟨m', hq, l₁ ++ l₂, hh', ?_, ?_, hst.trans hst'.symm⟩
  · show s.fileQueue.data.filter (·.addr ≠ o.f.addr) = _
    rw [hd, List.filter_append, List.filter_cons_of_neg (by simp), hkeep _ hn.1.1, hkeep _ hn.1.2,
      List.map_append]
  · show s.fileQueue.len - 1 = m'.fileQueue.len
    rw [hl', hl]

theorem deleteVirtualFile_eq (h : Implements base m s) (hwf : s.WF cfg) (c : ℤ) :
    ∃ m', m.deleteVirtualFile p c = some ((FileStorage.deleteVirtualFile s.fileQueue p c).1, m') ∧
      Implements base m' { s with fileQueue := (FileStorage.deleteVirtualFile s.fileQueue p c).2 } := by
  obtain ⟨os, hh, hs, -⟩ := id h
  rcases hh.find hs p with ⟨hn, hm⟩ | ⟨l₁, o, l₂, rfl, hn, hm, h0, hlook⟩
  · simp only [Memory.deleteVirtualFile, FileStorage.deleteVirtualFile, hn, hm]
    exact ⟨m, rfl, h⟩
  · simp only [Memory.deleteVirtualFile, FileStorage.deleteVirtualFile, hn, hm, Option.bind_eq_bind,
      Option.bind_some, if_neg h0, hlook]
    by_cases hopen : (!o.f.isOpen) = true
    · simp only [if_pos hopen]
      exact ⟨m, rfl, h⟩
    · simp only [if_neg hopen]
      by_cases hc : o.f.clientId = c
      · simp only [if_pos hc]
        have haddr := (hwf.addr o.f (getFileNode_mem hn)).1
        obtain ⟨m', hq, h'⟩ := h.removeNode hwf.toWF (Nat.ne_of_gt haddr) hh hs (o := o) (by simp)
        rw [hq]
        by_cases hr : (FileStorage.removeNode s.fileQueue o.f.addr).1 = 0
        · simp only [Option.bind_some, if_pos hr]
          exact ⟨m', rfl, h'⟩
        · simp only [Option.bind_some, if_neg hr]
          exact ⟨m', rfl, h'⟩
      · simp only [if_neg hc]
        exact ⟨m, rfl, h⟩

end Memory

end FileStorage
