/-
  Well-formed queues, and what the functions of the store do to them.

  In a well-formed queue the pathnames and the addresses of the nodes are
  distinct and each size is the length of the buffer.  There `getFileNode`
  determines the queue up to the order of its nodes, and the effect of each
  function is given by the lookups after it.
-/
import FileStorage.Store
import FileStorage.Lib.Keyed

namespace FileStorage

/-- The contents of a file: the bytes of its buffer. -/
def FileNode.content (f : FileNode) : List Byte := f.file.getD []

/-- The number of stored bytes. -/
def Queue.total (q : Queue FileNode) : ℕ := (q.data.map (·.size)).sum

structure Queue.WF (q : Queue FileNode) : Prop where
  names : (q.data.map (·.pathname)).Nodup
  addrs : (q.data.map (·.addr)).Nodup
  len : q.len = q.data.length
  size : ∀ f ∈ q.data, f.size = f.content.length

/-- A well-formed state: moreover the addresses of the nodes have been handed
    out, and there are at most `max_file` nodes. -/
structure Server.WF (cfg : Config) (s : Server) : Prop extends s.fileQueue.WF where
  addr : ∀ f ∈ s.fileQueue.data, NULL < f.addr ∧ f.addr < s.brk
  brk : NULL < s.brk
  cap : s.fileQueue.len ≤ cfg.maxFile.toNat

theorem Server.WF.init (cfg : Config) : Server.init.WF cfg where
  names := List.nodup_nil
  addrs := List.nodup_nil
  len := rfl
  size := by simp [Server.init, initQueue]
  addr := by simp [Server.init, initQueue]
  brk := Nat.one_pos
  cap := Nat.zero_le _

variable {q : Queue FileNode} {p p' : CString} {f : FileNode}

/-! ## Finding a node -/

theorem getFileNode_eq : getFileNode q p = Keyed.lookup (·.pathname) q.data p := rfl

theorem deref_eq {a : Ptr} : q.deref a = Keyed.lookup (·.addr) q.data a := rfl

theorem getFileNode_mem (h : getFileNode q p = some f) : f ∈ q.data := Keyed.lookup_mem h

theorem getFileNode_pathname (h : getFileNode q p = some f) : f.pathname = p := Keyed.lookup_key h

theorem findFileNode_eq : findFileNode q p = if (getFileNode q p).isSome then 0 else -1 := by
  simp [findFileNode, getFileNode, List.find?_isSome]

namespace Queue.WF

theorem getFileNode_iff (h : q.WF) : getFileNode q p = some f ↔ f ∈ q.data ∧ f.pathname = p :=
  Keyed.lookup_iff h.names

theorem getFileNode_of_mem (h : q.WF) (hf : f ∈ q.data) : getFileNode q f.pathname = some f :=
  h.getFileNode_iff.2 ⟨hf, rfl⟩

theorem deref_of_mem (h : q.WF) (hf : f ∈ q.data) : q.deref f.addr = some f :=
  Keyed.lookup_of_mem h.addrs hf

theorem eq_of_addr (h : q.WF) {g : FileNode} (hf : f ∈ q.data) (hg : g ∈ q.data)
    (ha : f.addr = g.addr) : f = g :=
  Keyed.eq_of_key h.addrs hf hg ha

end Queue.WF

/-! ## Writing through a pointer -/

section modify
variable {g : FileNode → FileNode}

/-- A change of a node that keeps its pathname and address. -/
structure Keeps (g : FileNode → FileNode) : Prop where
  pathname : ∀ f, (g f).pathname = f.pathname
  addr : ∀ f, (g f).addr = f.addr

variable (hg : Keeps g)
include hg

theorem getFileNode_modify (hq : q.WF) (hf : f ∈ q.data) :
    getFileNode (q.modify f.addr g) p = if p = f.pathname then some (g f) else getFileNode q p := by
  have hk : ∀ n : FileNode, (if n.addr = f.addr then g n else n).pathname = n.pathname := fun n => by
    split_ifs; exacts [hg.pathname n, rfl]
  rw [getFileNode_eq, Queue.modify, Keyed.lookup_map hk, ← getFileNode_eq]
  split_ifs with hp
  · simp [hp, hq.getFileNode_of_mem hf]
  · cases hn : getFileNode q p with
    | none => rfl
    | some n =>
      have hne : n.addr ≠ f.addr := fun ha => hp (by
        rw [← hq.eq_of_addr (getFileNode_mem hn) hf ha, getFileNode_pathname hn])
      simp [hne]

/-- The file itself after a change of its node. -/
theorem getFileNode_modified (hq : q.WF) (hf : getFileNode q p = some f) :
    getFileNode (q.modify f.addr g) p = some (g f) := by
  rw [getFileNode_modify hg hq (getFileNode_mem hf), getFileNode_pathname hf, if_pos rfl]

omit hg in
theorem mem_modify (hq : q.WF) (hf : f ∈ q.data) {n : FileNode} :
    n ∈ (q.modify f.addr g).data ↔ n = g f ∨ n ∈ q.data ∧ n.addr ≠ f.addr := by
  simp only [Queue.modify, List.mem_map]
  constructor
  · rintro ⟨m, hm, rfl⟩
    split_ifs with ha
    · exact Or.inl (by rw [hq.eq_of_addr hm hf ha])
    · exact Or.inr ⟨hm, ha⟩
  · rintro (rfl | ⟨hn, ha⟩)
    · exact ⟨f, hf, by simp⟩
    · exact ⟨n, hn, by simp [ha]⟩

theorem WF_modify (hq : q.WF) (hf : f ∈ q.data) (hs : (g f).size = (g f).content.length) :
    (q.modify f.addr g).WF where
  names := by
    have : (q.modify f.addr g).data.map (·.pathname) = q.data.map (·.pathname) :=
      Keyed.map_key_map fun n => by split_ifs; exacts [hg.pathname n, rfl]
    rw [this]; exact hq.names
  addrs := by
    have : (q.modify f.addr g).data.map (·.addr) = q.data.map (·.addr) :=
      Keyed.map_key_map fun n => by split_ifs; exacts [hg.addr n, rfl]
    rw [this]; exact hq.addrs
  len := by simp [Queue.modify, hq.len]
  size n hn := by
    rcases (mem_modify hq hf).1 hn with rfl | ⟨hn, -⟩
    exacts [hs, hq.size n hn]

end modify

/-! ## Removing and adding a node -/

theorem removeNode_data (hq : q.WF) (hf : f ∈ q.data) (h0 : f.addr ≠ NULL) :
    removeNode q f.addr = (0, ⟨q.data.filter (·.addr ≠ f.addr), q.len - 1⟩) := by
  have hany : q.data.any (·.addr = f.addr) = true := List.any_eq_true.2 ⟨f, hf, by simp⟩
  have he : q.data.eraseP (·.addr = f.addr) = q.data.filter (·.addr ≠ f.addr) :=
    Keyed.eraseP_eq_filter (k := FileNode.addr) hq.addrs
  simp only [removeNode, h0, if_false, hany, if_true, he]

theorem length_filter_addr (hq : q.WF) (hf : f ∈ q.data) :
    (q.data.filter (·.addr ≠ f.addr)).length = q.data.length - 1 := by
  have he : q.data.eraseP (·.addr = f.addr) = q.data.filter (·.addr ≠ f.addr) :=
    Keyed.eraseP_eq_filter (k := FileNode.addr) hq.addrs
  rw [← he]
  exact List.length_eraseP_of_mem hf (by simp)

theorem getFileNode_remove (hq : q.WF) (hf : f ∈ q.data) (h0 : f.addr ≠ NULL) :
    getFileNode (removeNode q f.addr).2 p = if p = f.pathname then none else getFileNode q p := by
  rw [removeNode_data hq hf h0]
  exact Keyed.lookup_filter_ne hq.names hq.addrs hf

/-- The removal of a node leaves the others. -/
theorem getFileNode_remove_ne (hq : q.WF) (hf : getFileNode q p = some f) {a : Ptr} (ha : f.addr ≠ a) :
    getFileNode (removeNode q a).2 p = some f := by
  by_cases h0 : a = NULL
  · rw [removeNode, if_pos h0]; exact hf
  · by_cases hn : ∃ n ∈ q.data, n.addr = a
    · obtain ⟨n, hn, rfl⟩ := hn
      rw [getFileNode_remove hq hn h0, if_neg, hf]
      rintro rfl
      rw [hq.getFileNode_of_mem hn] at hf
      exact ha (Option.some.inj hf ▸ rfl)
    · have hany : ¬ (q.data.any (·.addr = a) = true) := by simpa using hn
      rw [removeNode, if_neg h0, if_neg hany]; exact hf

theorem mem_remove (hq : q.WF) (hf : f ∈ q.data) (h0 : f.addr ≠ NULL) {n : FileNode} :
    n ∈ (removeNode q f.addr).2.data ↔ n ∈ q.data ∧ n.addr ≠ f.addr := by
  rw [removeNode_data hq hf h0]; simp [List.mem_filter]

theorem WF_remove (hq : q.WF) (hf : f ∈ q.data) (h0 : f.addr ≠ NULL) :
    (removeNode q f.addr).2.WF := by
  rw [removeNode_data hq hf h0]
  have hsub := List.filter_sublist (l := q.data) (p := fun n => decide (n.addr ≠ f.addr))
  exact {
    names := hq.names.sublist (hsub.map _)
    addrs := hq.addrs.sublist (hsub.map _)
    len := by rw [length_filter_addr hq hf, hq.len]
    size := fun n hn => hq.size n (List.mem_of_mem_filter hn) }

/-- The node leaves room for its bytes. -/
theorem total_remove (hq : q.WF) (hf : f ∈ q.data) (h0 : f.addr ≠ NULL) :
    (removeNode q f.addr).2.total + f.size = q.total := by
  have he : q.data.eraseP (·.addr = f.addr) = q.data.filter (·.addr ≠ f.addr) :=
    Keyed.eraseP_eq_filter (k := FileNode.addr) hq.addrs
  obtain ⟨n, l₁, l₂, -, hn, hd, he'⟩ := List.exists_of_eraseP (p := fun n => decide (n.addr = f.addr))
    hf (by simp)
  have hnf : n = f := hq.eq_of_addr (by rw [hd]; simp) hf (by simpa using hn)
  rw [removeNode_data hq hf h0, Queue.total, Queue.total, ← he, he', hd, hnf]
  simp; omega

theorem push_lookup {n : FileNode} (h : getFileNode q n.pathname = none) :
    getFileNode (push q n).2 p = if p = n.pathname then some n else getFileNode q p :=
  Keyed.lookup_append (Keyed.lookup_eq_none.1 h)

theorem WF_push (hq : q.WF) {n : FileNode} (h : getFileNode q n.pathname = none)
    (ha : ∀ f ∈ q.data, f.addr ≠ n.addr) (hs : n.size = n.content.length) : (push q n).2.WF where
  names := Keyed.nodup_append hq.names (Keyed.lookup_eq_none.1 h)
  addrs := Keyed.nodup_append hq.addrs ha
  len := by simp [push, hq.len]
  size f hf := by
    rcases List.mem_append.1 hf with hf | hf
    · exact hq.size f hf
    · rw [List.mem_singleton.1 hf]; exact hs

/-! ## Stored bytes -/

theorem foldl_addSize (l : List FileNode) (n : ℤ) :
    i32 (l.foldl addSize n) = i32 (n + (l.map (·.size)).sum) := by
  induction l generalizing n with
  | nil => simp
  | cons f l ih =>
    rw [List.foldl_cons, ih, addSize, List.map_cons, List.sum_cons]
    simp only [i32_u64, i32_u64_add, i32_i32_add]
    push_cast
    rw [add_assoc]

theorem foldl_addSize_zero (l : List FileNode) :
    l.foldl addSize 0 = i32 ((l.map (·.size)).sum : ℕ) := by
  have h0 : i32 0 = 0 := rfl
  have hb : i32 (l.foldl addSize 0) = l.foldl addSize 0 := by
    rcases List.eq_nil_or_concat l with rfl | ⟨l, f, rfl⟩
    · rfl
    · rw [List.concat_eq_append, List.foldl_append, List.foldl_cons, List.foldl_nil, addSize]
      exact i32_eq (i32_bounds _).1 (i32_bounds _).2
  rw [← hb, foldl_addSize, zero_add]

/-- `getStorageSize` is the number of stored bytes, as an `int`. -/
theorem getStorageSize_eq : getStorageSize q = i32 q.total := foldl_addSize_zero _

/-- `getFreeSpace` is the capacity that is left, as an `int`. -/
theorem getFreeSpace_eq (cfg : Config) : getFreeSpace cfg q = i32 (cfg.maxMemSize.toNat - q.total) := by
  simp only [getFreeSpace, foldl_addSize_zero, i32_u32, i32_sub_u32, i32_sub_i32, Queue.total]

theorem total_modify {g : FileNode → FileNode} (hq : q.WF) (hf : f ∈ q.data) :
    (q.modify f.addr g).total + f.size = q.total + (g f).size := by
  obtain ⟨l₁, l₂, hd⟩ := List.append_of_mem hf
  have hn := hq.addrs
  rw [hd, List.map_append, List.map_cons, List.nodup_append, List.nodup_cons] at hn
  have h₁ : ∀ n ∈ l₁, n.addr ≠ f.addr := fun n hn' =>
    hn.2.2 _ (List.mem_map_of_mem hn') _ List.mem_cons_self
  have h₂ : ∀ n ∈ l₂, n.addr ≠ f.addr := fun n hn' he =>
    hn.2.1.1 (he ▸ List.mem_map_of_mem hn')
  have hm : ∀ l : List FileNode, (∀ n ∈ l, n.addr ≠ f.addr) →
      (l.map fun n => if n.addr = f.addr then g n else n) = l := fun l hl =>
    (List.map_congr_left fun n hn' => if_neg (hl n hn')).trans (List.map_id l)
  simp only [Queue.total, Queue.modify, hd, List.map_append, List.map_cons, if_true, hm _ h₁, hm _ h₂,
    List.sum_append, List.sum_cons]
  omega

end FileStorage
