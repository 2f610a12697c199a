/-
  The memory over the life of the file queue.

  * `Op.exec_iff`: an operation ends without a bad access if and only if it is
    safe on the store, and then memory and store do the same; an append is safe
    if it is `InBounds` (`append_inBounds_iff`).
  * `storage_safe`: so it is for any sequence of operations; after
    `deleteFileQueue` the memory is what it was before `initQueue`.
-/
import FileStorage.Buffers

namespace FileStorage

open LinkedList Footprint

namespace Memory

variable {base m m' : Memory} {os l₂ : List Owned} {o : Owned} {s : Server} {cfg : Config}
  {al : Allocator} {p : CString}

/-! ## The operations -/

/-- The calls that the controllers make. -/
inductive Op where
  | getFreeSpace
  | expel (requiredSpace : ℤ)
  | hasFileLock (pathname : CString) (clientId : ℤ)
  | openVirtualFile (pathname : CString) (flags : Flags) (clientId : ℤ)
  | sendFileToClient (pathname : CString)
  | writeVirtualFile (pathname : CString) (buf : List Byte)
  | appendVirtualFile (pathname : CString) (buf : List Byte)
  | lockVirtualFile (pathname : CString) (clientId : ℤ)
  | unlockVirtualFile (pathname : CString) (clientId : ℤ)
  | deleteVirtualFile (pathname : CString) (clientId : ℤ)
  | closeVirtualFile (unset : ℤ) (pathname : CString) (clientId : ℤ)
  | getNFileList (N : ℤ)

inductive Res where
  | int (n : ℤ)
  | file (content : Option (List Byte × ℕ))
  | expelled (pathname : CString) (bytes : List Byte)
  | list (size : ℕ) (fileList : Option CString)
  deriving DecidableEq, Repr

/-- An operation on the memory. -/
def Op.exec (al : Allocator) (cfg : Config) : Op → Memory → Option (Res × Memory)
  | .getFreeSpace, m => (m.getFreeSpace cfg).map fun n => (.int n, m)
  | .expel n, m => (m.expel cfg n).map fun x => (.expelled x.1.1 x.1.2, x.2)
  | .hasFileLock p c, m => (m.hasFileLock p c).map fun n => (.int n, m)
  | .openVirtualFile p flags c, m => (m.openVirtualFile al cfg p flags c).map fun x => (.int x.1, x.2)
  | .sendFileToClient p, m => (m.sendFileToClient al p).map fun x => (.file x.1, x.2)
  | .writeVirtualFile p buf, m => (m.writeVirtualFile al p buf).map fun x => (.int x.1, x.2)
  | .appendVirtualFile p buf, m => (m.appendVirtualFile al p buf).map fun x => (.int x.1, x.2)
  | .lockVirtualFile p c, m => (m.lockVirtualFile p c).map fun x => (.int x.1, x.2)
  | .unlockVirtualFile p c, m => (m.unlockVirtualFile p c).map fun x => (.int x.1, x.2)
  | .deleteVirtualFile p c, m => (m.deleteVirtualFile p c).map fun x => (.int x.1, x.2)
  | .closeVirtualFile unset p c, m => (m.closeVirtualFile unset p c).map fun x => (.int x.1, x.2)
  | .getNFileList N, m => (m.getNFileList N).map fun x => (.list x.1 x.2, m)

/-- The operation on the store. -/
def Op.onStore (cfg : Config) : Op → Server → Res × Server
  | .getFreeSpace, s => (.int (FileStorage.getFreeSpace cfg s.fileQueue), s)
  | .expel n, s =>
    match s.fileQueue.deref (FileStorage.expelFile cfg NULL s.fileQueue n) with
    | some f => (.expelled f.pathname ((f.file.getD []).take f.size),
        { s with fileQueue := (FileStorage.removeNode s.fileQueue f.addr).2 })
    | none => (.int (-1), s)
  | .hasFileLock p c, s => (.int (FileStorage.hasFileLock s.fileQueue p c), s)
  | .openVirtualFile p flags c, s =>
    (.int (FileStorage.openVirtualFile cfg s p flags c).1, (FileStorage.openVirtualFile cfg s p flags c).2)
  | .sendFileToClient p, s => (.file (FileStorage.readVirtualFile s.fileQueue p), s)
  | .writeVirtualFile p buf, s => (.int (FileStorage.writeVirtualFile s p buf buf.length).1,
      (FileStorage.writeVirtualFile s p buf buf.length).2)
  | .appendVirtualFile p buf, s => (.int (FileStorage.appendVirtualFile s p buf buf.length).1,
      (FileStorage.appendVirtualFile s p buf buf.length).2)
  | .lockVirtualFile p c, s => (.int (FileStorage.lockVirtualFile s.fileQueue p c).1,
      { s with fileQueue := (FileStorage.lockVirtualFile s.fileQueue p c).2 })
  | .unlockVirtualFile p c, s => (.int (FileStorage.unlockVirtualFile s.fileQueue p c).1,
      { s with fileQueue := (FileStorage.unlockVirtualFile s.fileQueue p c).2 })
  | .deleteVirtualFile p c, s => (.int (FileStorage.deleteVirtualFile s.fileQueue p c).1,
      { s with fileQueue := (FileStorage.deleteVirtualFile s.fileQueue p c).2 })
  | .closeVirtualFile unset p c, s => (.int (FileStorage.closeVirtualFile unset s.fileQueue p c).1,
      { s with fileQueue := (FileStorage.closeVirtualFile unset s.fileQueue p c).2 })
  | .getNFileList N, s => (.list (FileStorage.getNFileList s.fileQueue N).1
      (FileStorage.getNFileList s.fileQueue N).2, s)

/-- An append to a file with contents is no longer than these, and a file is
    replaced only if there is one that makes room. -/
def Op.Safe (cfg : Config) (s : Server) : Op → Prop
  | .appendVirtualFile p buf => ∀ f, FileStorage.getFileNode s.fileQueue p = some f → f.isOpen = true →
      f.file ≠ none → buf.length ≤ f.size
  | .expel n => ∃ f ∈ s.fileQueue.data, makesRoom (FileStorage.getFreeSpace cfg s.fileQueue) n f = true
  | _ => True

theorem Op.onStore_wf (hwf : s.WF cfg) (op : Op) : (op.onStore cfg s).2.WF cfg := by
  have hcall : ∀ (e : Env) (call : Call) {r : call.Ans} {s' : Server},
      call.exec cfg e s = some (r, s') → s'.WF cfg := fun _ _ _ _ => Call.exec_wf hwf
  have e : Env := ⟨true, [], 0, NULL⟩
  cases op with
  | expel n =>
    rw [Op.onStore]
    split
    · next f hf => exact hcall e (.removeNode f.addr) rfl
    · exact hwf
  | openVirtualFile p flags c => exact hcall e (.openVirtualFile p flags c) rfl
  | writeVirtualFile p buf => exact hcall e (.writeVirtualFile p buf buf.length) rfl
  | appendVirtualFile p buf => exact hcall e (.appendVirtualFile p buf buf.length) rfl
  | lockVirtualFile p c => exact hcall e (.lockVirtualFile p c) rfl
  | unlockVirtualFile p c => exact hcall e (.unlockVirtualFile p c) rfl
  | deleteVirtualFile p c => exact hcall e (.deleteVirtualFile p c) rfl
  | closeVirtualFile unset p c => exact hcall ⟨true, [], unset, NULL⟩ (.closeVirtualFile p c) rfl
  | _ => exact hwf

/-- **A step.**  If the operation is safe, memory and store do the same;
    otherwise there is a bad access. -/
theorem Op.exec_iff (h : Implements base m s) (hwf : s.WF cfg) (al : Allocator) (op : Op) :
    (op.Safe cfg s → ∃ m', op.exec al cfg m = some ((op.onStore cfg s).1, m') ∧
      Implements base m' (op.onStore cfg s).2) ∧
    (¬ op.Safe cfg s → op.exec al cfg m = none) := by
  obtain ⟨os, hh, hs, hl, hst⟩ := id h
  -- an operation that is always safe
  have hsafe : ∀ {α : Type} {r : α → Res} {x : Option (α × Memory)} {a : α} {s' : Server} {P : Prop}, P →
      (∃ m', x = some (a, m') ∧ Implements base m' s') →
      (P → ∃ m', (x.map fun y => (r y.1, y.2)) = some (r a, m') ∧ Implements base m' s') ∧
      (¬ P → (x.map fun y => (r y.1, y.2)) = none) := by
    rintro α r x a s' P hP ⟨m', rfl, h'⟩
    exact ⟨fun _ => ⟨m', rfl, h'⟩, fun hno => absurd hP hno⟩
  cases op with
  | getFreeSpace =>
    refine ⟨fun _ => ⟨m, ?_, h⟩, fun hno => absurd trivial hno⟩
    rw [Op.exec, getFreeSpace_eq hh hs]
    rfl
  | hasFileLock p c =>
    refine ⟨fun _ => ⟨m, ?_, h⟩, fun hno => absurd trivial hno⟩
    rw [Op.exec, hasFileLock_eq hh hs]
    rfl
  | getNFileList N =>
    refine ⟨fun _ => ⟨m, ?_, h⟩, fun hno => absurd trivial hno⟩
    rw [Op.exec, getNFileList_eq hh hs hl]
    rfl
  | expel n =>
    cases hf : s.fileQueue.data.find? (makesRoom (FileStorage.getFreeSpace cfg s.fileQueue) n) with
    | none =>
      refine ⟨?_, fun _ => ?_⟩
      · rintro ⟨f, hmem, hroom⟩
        exact absurd hroom (List.find?_eq_none.1 hf f hmem)
      · rw [Op.exec, expel_unset h hf]
        rfl
    | some f =>
      have hmem := List.mem_of_find?_eq_some hf
      obtain ⟨m', hq, h'⟩ := expel_eq h hwf hf
      refine ⟨fun _ => ?_, fun hno => absurd ⟨f, hmem, List.find?_some hf⟩ hno⟩
      have hexp : FileStorage.expelFile cfg NULL s.fileQueue n = f.addr := by
        rw [FileStorage.expelFile, hf]
      rw [Op.exec, Op.onStore, hexp, hwf.toWF.deref_of_mem hmem, hq]
      exact ⟨m', rfl, h'⟩
  | openVirtualFile p flags c => exact hsafe trivial (openVirtualFile_eq h hwf flags c)
  | sendFileToClient p => exact hsafe trivial (sendFileToClient_eq h hwf.toWF)
  | writeVirtualFile p buf => exact hsafe trivial (writeVirtualFile_eq h hwf.toWF buf)
  | appendVirtualFile p buf =>
    obtain ⟨hok, hpast⟩ := appendVirtualFile_eq h hwf.toWF al p buf
    refine ⟨fun hle => ?_, fun hno => ?_⟩
    · obtain ⟨m', hq, h'⟩ := hok hle
      rw [Op.exec, hq]
      exact ⟨m', rfl, h'⟩
    · simp only [Op.Safe, not_forall, not_le] at hno
      obtain ⟨f, hf, hopen, hne, hlt⟩ := hno
      rw [Op.exec, hpast f hf hopen hne hlt]
      rfl
  | lockVirtualFile p c => exact hsafe trivial (lockVirtualFile_eq h hwf.toWF c)
  | unlockVirtualFile p c => exact hsafe trivial (unlockVirtualFile_eq h hwf.toWF c)
  | deleteVirtualFile p c => exact hsafe trivial (deleteVirtualFile_eq h hwf c)
  | closeVirtualFile unset p c => exact hsafe trivial (closeVirtualFile_eq h hwf.toWF unset c)

/-- An append has a defined effect on the memory if and only if it is `InBounds`. -/
theorem append_inBounds_iff (h : Implements base m s) (hwf : s.WF cfg) (al : Allocator) (p : CString)
    (buf : List Byte) : (Op.appendVirtualFile p buf).exec al cfg m ≠ none ↔
      InBounds (.call (.appendVirtualFile p buf buf.length)) s := by
  obtain ⟨hok, hpast⟩ := Op.exec_iff h hwf al (.appendVirtualFile p buf)
  refine ⟨fun hne => by_contra fun hno => hne (hpast hno), fun hin => ?_⟩
  obtain ⟨m', hx, -⟩ := hok hin
  simp [hx]

/-! ## Runs -/

/-- A sequence of operations on the memory. -/
def Op.execAll (al : Allocator) (cfg : Config) : List Op → Memory → Option (List Res × Memory)
  | [], m => some ([], m)
  | op :: ops, m => do
    let x ← op.exec al cfg m
    let y ← execAll al cfg ops x.2
    some (x.1 :: y.1, y.2)

/-- The results on the store. -/
def Op.results (cfg : Config) : List Op → Server → List Res
  | [], _ => []
  | op :: ops, s => (op.onStore cfg s).1 :: results cfg ops (op.onStore cfg s).2

/-- Each operation is safe where it is performed. -/
def Op.AllSafe (cfg : Config) : List Op → Server → Prop
  | [], _ => True
  | op :: ops, s => op.Safe cfg s ∧ AllSafe cfg ops (op.onStore cfg s).2

/-- **A run.** -/
theorem Op.execAll_iff (h : Implements base m s) (hwf : s.WF cfg) (al : Allocator) (ops : List Op) :
    (Op.AllSafe cfg ops s → ∃ m' s', Op.execAll al cfg ops m = some (Op.results cfg ops s, m') ∧
      Implements base m' s') ∧
    (¬ Op.AllSafe cfg ops s → Op.execAll al cfg ops m = none) := by
  induction ops generalizing m s with
  | nil => exact ⟨fun _ => ⟨m, s, rfl, h⟩, fun hno => absurd trivial hno⟩
  | cons op ops ih =>
    obtain ⟨hok, hbad⟩ := Op.exec_iff h hwf al op
    by_cases hsafe : op.Safe cfg s
    · obtain ⟨m₁, hq, h₁⟩ := hok hsafe
      obtain ⟨hrun, hstop⟩ := ih h₁ (Op.onStore_wf hwf op)
      simp only [Op.execAll, hq, Option.bind_eq_bind, Option.bind_some, Op.AllSafe, hsafe, true_and]
      refine ⟨fun hall => ?_, fun hno => ?_⟩
      · obtain ⟨m', s', hq', h'⟩ := hrun hall
        rw [hq']
        exact ⟨m', s', rfl, h'⟩
      · rw [hstop hno]
        rfl
    · refine ⟨fun hall => absurd hall.1 hsafe, fun _ => ?_⟩
      rw [Op.execAll, hbad hsafe]
      rfl

/-! ## `deleteFileQueue` -/

/-- The blocks are those of `base`. -/
structure Released (base m : Memory) : Prop where
  heap : m.fileQueue.heap = base.fileQueue.heap
  files : m.files = base.files
  buffers : m.buffers = base.buffers

/-- **The rounds of `deleteFileQueue`**, after the one for the sentinel. -/
theorem deleteFileLoop_eq {fuel : ℕ} {ns : List (Ptr × Node Ptr Ptr)}
    (hp : Path m.fileQueue.heap m.fileQueue.head (os.map Owned.cell) NULL) (hn : NULL ∉ m.fileQueue.heap)
    (ho : Owns base.fileQueue.heap m.fileQueue.heap ns)
    (hns : (ns.map LinkedQueue.cellOf).Perm (os.map Owned.cell))
    (hf : Owns base.files m.files (os.map Owned.entry)) (hf0 : NULL ∉ m.files)
    (hb : Owns base.buffers m.buffers (os.filterMap Owned.buffer)) (hb0 : NULL ∉ m.buffers)
    (hfuel : os.length < fuel) : ∃ m', deleteFileLoop fuel m = some m' ∧ Released base m' := by
  induction fuel generalizing m os ns with
  | zero => omega
  | succ fuel ih =>
    cases os with
    | nil =>
      have hhead : m.fileQueue.head = NULL := hp
      obtain rfl : ns = [] := List.map_eq_nil_iff.1 hns.eq_nil
      exact ⟨m, if_pos hhead, ho.eq_base, hf.eq_base, hb.eq_base⟩
    | cons o os =>
      obtain ⟨hhead, next, hl, hp⟩ := hp
      have hhead : m.fileQueue.head = o.node := hhead
      have hl : m.fileQueue.heap.lookup o.node = some ⟨o.file, next⟩ := hl
      have hnode : o.node ≠ NULL := fun he => hn (he ▸ Finmap.mem_of_lookup_eq_some hl)
      have hlook : m.files.lookup o.file = some o.block := hf.lookup o.entry List.mem_cons_self
      have hfile : o.file ≠ NULL := fun he => hf0 (he ▸ Finmap.mem_of_lookup_eq_some hlook)
      obtain ⟨B, hfree, hB, hB0⟩ := freeBuffer_owns (L := []) hb hb0
      have hfreeFile : Memory.freeFile { m with buffers := B } o.file =
          some { m with files := Finmap.erase o.file m.files, buffers := B } := by
        rw [Memory.freeFile, if_neg hfile, if_pos (Finmap.mem_of_lookup_eq_some hlook)]
      -- the node
      have hnodup := (LinkedQueue.map_fst_perm hns).nodup_iff.1 ho.nodup
      rw [List.map_cons, List.map_cons, List.nodup_cons] at hnodup
      obtain ⟨k₁, x, k₂, rfl, hx, hrest⟩ := LinkedQueue.exists_node hns
      have hfreeNode := ho.free k₁
      rw [show x.1 = o.node from congrArg Prod.fst hx] at hfreeNode
      have hrec := ih (m := { m with
          fileQueue := { m.fileQueue with heap := Finmap.erase o.node m.fileQueue.heap, head := next }
          files := Finmap.erase o.file m.files
          buffers := B }) (hp.erase hnodup.1) (by
            rw [Finmap.mem_erase]
            exact fun hm => hn hm.2) hfreeNode hrest (hf.free []) (by
            rw [Finmap.mem_erase]
            exact fun hm => hf0 hm.2) hB hB0 (Nat.lt_of_succ_lt_succ hfuel)
      rw [deleteFileLoop]
      have hhead0 : m.fileQueue.head ≠ NULL := hhead ▸ hnode
      have hlhead : m.fileQueue.heap.lookup m.fileQueue.head = some ⟨o.file, next⟩ := hhead ▸ hl
      simp only [if_neg hhead0, hlhead, Option.bind_eq_bind, Option.bind_some, if_neg hfile, hlook, hfree,
        hfreeFile]
      rw [hhead]
      exact hrec

/-- **`deleteFileQueue`** gives back all the blocks of the queue. -/
theorem deleteFileQueue_eq (h : Holds base m os) : ∃ m', m.deleteFileQueue = some m' ∧ Released base m' := by
  obtain ⟨ns, ho, hns⟩ := h.nodes
  obtain ⟨d, hp⟩ := h.linked.path
  have hcard := hp.length_le h.linked.nodup
  have hnodup := h.linked.nodup
  obtain ⟨-, next, hl, hp⟩ := hp
  have hl : m.fileQueue.heap.lookup m.fileQueue.head = some ⟨d, next⟩ := hl
  have h0 : m.fileQueue.head ≠ NULL := h.linked.ne_null List.mem_cons_self
  -- the first round finds the sentinel, which has no data
  obtain ⟨k₁, x, k₂, rfl, hx, hrest⟩ := LinkedQueue.exists_node hns
  have hx1 : x.1 = m.fileQueue.head := congrArg Prod.fst hx
  have hd : d = NULL := by
    have hlx := ho.lookup x (by simp)
    rw [hx1, hl] at hlx
    rw [LinkedQueue.cellOf, ← Option.some.inj hlx] at hx
    exact congrArg Prod.snd hx
  have hfree := ho.free k₁
  rw [hx1] at hfree
  rw [List.nodup_cons] at hnodup
  rw [List.length_cons, List.length_map] at hcard
  obtain ⟨m', hq, h'⟩ := deleteFileLoop_eq (m := { m with
      fileQueue := { m.fileQueue with heap := Finmap.erase m.fileQueue.head m.fileQueue.heap, head := next } })
    (hp.erase hnodup.1) (by
      rw [Finmap.mem_erase]
      exact fun hm => h.linked.null hm.2) hfree hrest h.files h.null_files h.buffers h.null_buffers hcard
  refine ⟨m', ?_, h'⟩
  rw [deleteFileQueue, deleteFileLoop]
  simp only [if_neg h0, hl, Option.bind_eq_bind, Option.bind_some, if_pos hd]
  exact hq

/-! ## The life of the queue -/

/-- The memory after `initQueue` and `statInit`. -/
def init (al : Allocator) (base : Memory) : Memory :=
  { base with fileQueue := LinkedQueue.initQueue (al.malloc base) base.fileQueue.heap, stats := statInit }

theorem init_implements (h : NULL ∉ base.fileQueue.heap) (hf : NULL ∉ base.files) (hb : NULL ∉ base.buffers) :
    Implements base (init al base) Server.init :=
  ⟨[], ⟨LinkedQueue.initQueue_linked h, LinkedQueue.initQueue_owned, .init, .init, hf, hb⟩, rfl, rfl, rfl⟩

/-- **The storage and its memory.**  Whatever the operations are, and whichever
    addresses `calloc` gives: there is no bad access if and only if each of them is
    safe on the store; then the results are those of the store, and after
    `deleteFileQueue` the blocks are those from before `initQueue`. -/
theorem storage_safe (al : Allocator) (cfg : Config) (base : Memory) (h : NULL ∉ base.fileQueue.heap)
    (hf : NULL ∉ base.files) (hb : NULL ∉ base.buffers) (ops : List Op) :
    ((Op.execAll al cfg ops (init al base)).isSome = true ↔ Op.AllSafe cfg ops Server.init) ∧
    ∀ rs m, Op.execAll al cfg ops (init al base) = some (rs, m) → rs = Op.results cfg ops Server.init ∧
      ∃ m', m.deleteFileQueue = some m' ∧ Released base m' := by
  obtain ⟨hok, hbad⟩ := Op.execAll_iff (init_implements h hf hb) (.init cfg) al ops
  by_cases hsafe : Op.AllSafe cfg ops Server.init
  · obtain ⟨m, s, hq, os, hh, -⟩ := hok hsafe
    rw [hq]
    refine ⟨⟨fun _ => hsafe, fun _ => rfl⟩, fun rs m' he => ?_⟩
    obtain ⟨rfl, rfl⟩ := Prod.mk.inj (Option.some.inj he)
    exact ⟨rfl, deleteFileQueue_eq hh⟩
  · rw [hbad hsafe]
    exact ⟨⟨fun hno => absurd hno Bool.false_ne_true, fun hs => absurd hs hsafe⟩, fun _ _ he => by cases he⟩

/-- The address after the largest one. -/
def firstFree : Allocator where
  addr m := (m.fileQueue.heap.keys ∪ m.files.keys ∪ m.buffers.keys).sup id + 1
  ne_null _ := Nat.succ_ne_zero _
  fresh m := by
    have hnot : (m.fileQueue.heap.keys ∪ m.files.keys ∪ m.buffers.keys).sup id + 1 ∉
        m.fileQueue.heap.keys ∪ m.files.keys ∪ m.buffers.keys := fun hm =>
      Nat.not_succ_le_self _ (Finset.le_sup (f := id) hm)
    refine ⟨fun hm => hnot ?_, fun hm => hnot ?_, fun hm => hnot ?_⟩
    · exact Finset.mem_union_left _ (Finset.mem_union_left _ (Finmap.mem_keys.2 hm))
    · exact Finset.mem_union_left _ (Finset.mem_union_right _ (Finmap.mem_keys.2 hm))
    · exact Finset.mem_union_right _ (Finmap.mem_keys.2 hm)

/-- No blocks. -/
def empty : Memory := ⟨⟨∅, NULL, NULL, 0⟩, ∅, ∅, statInit⟩

/-- A file is written, extended, read and deleted; another one is created. -/
def session : List Op :=
  [.openVirtualFile [47, 97] (O_CREATE ||| O_LOCK) 1, .writeVirtualFile [47, 97] [1, 2, 3],
    .appendVirtualFile [47, 97] [4, 5], .sendFileToClient [47, 97], .deleteVirtualFile [47, 97] 1,
    .openVirtualFile [47, 98] O_CREATE 2]

theorem storage_safe_session : ∃ m m',
    Op.execAll firstFree ⟨64, 4⟩ session (init firstFree empty) =
      some ([.int 0, .int 0, .int 0, .file (some ([1, 2, 4, 5, 0], 5)), .int 0, .int 0], m) ∧
    m.deleteFileQueue = some m' ∧ Released empty m' := by
  have hsome : (Op.execAll firstFree ⟨64, 4⟩ session (init firstFree empty)).isSome = true := by
    decide +kernel
  obtain ⟨⟨rs, m⟩, hq⟩ := Option.isSome_iff_exists.1 hsome
  obtain ⟨rfl, m', hd, hr⟩ := (storage_safe firstFree ⟨64, 4⟩ empty Finmap.notMem_empty Finmap.notMem_empty
    Finmap.notMem_empty session).2 rs m hq
  exact ⟨m, m', hq, hd, hr⟩

end Memory

end FileStorage
