/-
  `deleteQueue` of `queue.c`, and the nodes that a linked queue owns.

  The heap of a queue may hold blocks of others.  `Owned base q cells` says that
  the heap of the queue is `base` with the nodes of the queue besides it; the
  operations keep this.

  * `deleteQueue_owned`: `deleteQueue` ends, and gives back exactly the nodes of
    the queue.
  * `deleteQueue_run`: so it does after any sequence of operations, and the heap
    is the one before `initQueue`.
-/
import FileStorage.Lib.Footprint
import FileStorage.LinkedQueue

namespace FileStorage

open LinkedList Footprint

namespace LinkedQueue

variable {q q' : LinkedQueue} {cells pre post : List (Ptr × Ptr)} {malloc : Malloc} {data node : Ptr}
  {base heap : Heap Ptr Ptr} {ns : List (Ptr × Node Ptr Ptr)}

/-- The rounds of `deleteQueue`, at most `fuel`: the heap afterwards. -/
def deleteLoop : ℕ → Heap Ptr Ptr → Ptr → Option (Heap Ptr Ptr)
  | 0, _, _ => none
  | fuel + 1, heap, head =>
    if head = NULL then some heap
    else do
      let n ← heap.lookup head
      deleteLoop fuel (Finmap.erase head heap) n.next

/-- `deleteQueue`: the loop makes a round for each node. -/
def deleteQueue (q : LinkedQueue) : Option (Heap Ptr Ptr) :=
  deleteLoop (q.heap.keys.card + 1) q.heap q.head

/-! ## The nodes of a queue -/

/-- The cell of a node. -/
def cellOf (x : Ptr × Node Ptr Ptr) : Ptr × Ptr := (x.1, x.2.data)

/-- The heap is `base` with the sentinel and the nodes of the cells. -/
def Owned (base : Heap Ptr Ptr) (q : LinkedQueue) (cells : List (Ptr × Ptr)) : Prop :=
  ∃ ns, Owns base q.heap ns ∧ (ns.map cellOf).Perm ((q.head, NULL) :: cells)

/-- The node of one of the cells. -/
theorem exists_node {c : Ptr × Ptr} (h : (ns.map cellOf).Perm (c :: cells)) :
    ∃ l₁ x l₂, ns = l₁ ++ x :: l₂ ∧ cellOf x = c ∧ ((l₁ ++ l₂).map cellOf).Perm cells := by
  obtain ⟨x, hx, rfl⟩ := List.mem_map.1 (h.mem_iff.2 List.mem_cons_self)
  obtain ⟨l₁, l₂, rfl⟩ := List.append_of_mem hx
  refine ⟨l₁, x, l₂, rfl, rfl, ?_⟩
  rw [List.map_append, List.map_cons] at h
  rw [List.map_append]
  exact (List.perm_middle.symm.trans h).cons_inv

theorem map_fst_perm (h : (ns.map cellOf).Perm cells) : (ns.map Prod.fst).Perm (cells.map Prod.fst) := by
  have hm := h.map Prod.fst
  rwa [List.map_map] at hm

theorem initQueue_owned : (initQueue malloc base).Owned base [] :=
  ⟨[(malloc.addr base, ⟨NULL, NULL⟩)], Owns.init.alloc [] _ (malloc.fresh base), List.Perm.refl _⟩

/-- The pointer to the next node of one node changes, and the cells do not. -/
theorem redirect_owns {prec : Ptr} {p : Node Ptr Ptr} (next : Ptr) (ho : Owns base heap ns)
    (hp : heap.lookup prec = some p) (hm : prec ∈ ns.map Prod.fst) :
    ∃ ns', Owns base (heap.insert prec { p with next := next }) ns' ∧ ns'.map cellOf = ns.map cellOf := by
  obtain ⟨x, hx, rfl⟩ := List.mem_map.1 hm
  obtain ⟨l₁, l₂, rfl⟩ := List.append_of_mem hx
  have hxp : x.2 = p := Option.some.inj ((ho.lookup x hx).symm.trans hp)
  refine ⟨_, ho.write l₁ _, ?_⟩
  rw [List.map_append, List.map_append, List.map_cons, List.map_cons, cellOf, cellOf, hxp]

theorem push_owned (h : q.Linked cells) (ho : q.Owned base cells) (hd : data ≠ NULL) {r : ℤ}
    (hq : q.push malloc data = some (r, q')) : q'.Owned base (cells ++ [(malloc.addr q.heap, data)]) := by
  obtain ⟨ns, ho, hcells⟩ := ho
  rw [push, if_neg hd, Option.map_eq_some_iff] at hq
  obtain ⟨t, ht, he⟩ := hq
  obtain ⟨-, rfl⟩ := Prod.mk.inj he
  have hnew : Owns base (q.heap.insert (malloc.addr q.heap) ⟨data, NULL⟩)
      (ns ++ [(malloc.addr q.heap, ⟨data, NULL⟩)]) := by
    rw [← List.append_nil ns] at ho
    exact ho.alloc ns _ (malloc.fresh q.heap)
  have htail : q.tail ∈ (ns ++ [(malloc.addr q.heap, (⟨data, NULL⟩ : Node Ptr Ptr))]).map Prod.fst := by
    rw [List.map_append, List.mem_append, (map_fst_perm hcells).mem_iff, h.tail]
    refine Or.inl ?_
    rcases List.eq_nil_or_concat cells with rfl | ⟨cs, c, rfl⟩
    · exact List.mem_cons_self
    · rw [List.concat_eq_append, last_addr]
      simp
  obtain ⟨ns', ho', hcells'⟩ := redirect_owns (malloc.addr q.heap) hnew ht htail
  refine ⟨ns', ho', ?_⟩
  rw [hcells', List.map_append]
  exact hcells.append_right _

/-- A node is unlinked and freed, as `pop` and `removeNode` do. -/
theorem Owned.unlink (pre post : List (Ptr × Ptr)) {a d prec next e : Ptr} {p : Node Ptr Ptr} (ho : q.Owned base (pre ++ (a, d) :: post))
    (hprec : prec ∈ q.head :: (pre ++ (a, d) :: post).map Prod.fst) (hp : q.heap.lookup prec = some p)
    (he : e ∈ q.head :: (pre ++ (a, d) :: post).map Prod.fst)
    (hheap : q'.heap = Finmap.erase e (q.heap.insert prec { p with next := next }))
    (hhead : q'.head = q.head) (h' : q'.Linked (pre ++ post)) : q'.Owned base (pre ++ post) := by
  obtain ⟨ns, ho, hcells⟩ := ho
  -- what is still linked has not been freed
  have hea : e = a := by
    have hno : e ∉ q'.head :: (pre ++ post).map Prod.fst := by
      intro hm
      have hme := h'.mem hm
      rw [hheap] at hme
      exact Finmap.notMem_erase_self hme
    rw [hhead] at hno
    rw [List.map_append, List.map_cons] at he
    rw [List.map_append] at hno
    have hperm : (pre.map Prod.fst ++ a :: post.map Prod.fst).Perm
        (a :: (pre.map Prod.fst ++ post.map Prod.fst)) := List.perm_middle
    rcases List.mem_cons.1 he with rfl | he
    · exact absurd List.mem_cons_self hno
    · rcases List.mem_cons.1 (hperm.mem_iff.1 he) with rfl | he
      · rfl
      · exact absurd (List.mem_cons_of_mem _ he) hno
  subst hea
  obtain ⟨ns', ho', hcells'⟩ := redirect_owns next ho hp ((map_fst_perm hcells).mem_iff.2 hprec)
  rw [← hcells'] at hcells
  have hperm : (ns'.map cellOf).Perm ((e, d) :: (q.head, NULL) :: (pre ++ post)) :=
    hcells.trans ((List.perm_middle.cons _).trans (List.Perm.swap _ _ _))
  obtain ⟨l₁, x, l₂, rfl, hx, hrest⟩ := exists_node hperm
  have hx1 : x.1 = e := congrArg Prod.fst hx
  refine ⟨l₁ ++ l₂, ?_, by rwa [hhead]⟩
  rw [hheap, ← hx1]
  exact ho'.free l₁

theorem pop_owned {a d : Ptr} (ho : q.Owned base ((a, d) :: cells)) (h : q.Linked ((a, d) :: cells)) {x : Ptr}
    (hq : q.pop = some (x, q')) (h' : q'.Linked cells) : q'.Owned base cells := by
  rw [pop, Option.bind_eq_bind, Option.bind_eq_some_iff] at hq
  obtain ⟨s, hs, hq⟩ := hq
  rw [Option.bind_eq_some_iff] at hq
  obtain ⟨n, hn, hq⟩ := hq
  obtain ⟨-, rfl⟩ := Prod.mk.inj (Option.some.inj hq)
  obtain ⟨d₀, hp⟩ := h.path
  obtain ⟨-, next, hl, hnext, -⟩ := hp
  have hsn : s.next = a := by
    have hl' : q.heap.lookup q.head = some ⟨d₀, next⟩ := hl
    rw [hs] at hl'
    rw [Option.some.inj hl']
    exact hnext
  exact Owned.unlink [] cells ho List.mem_cons_self hs (by rw [hsn]; simp) rfl rfl h'

/-- A round of `removeNode` that finds the node. -/
theorem removeLoop_cases {fuel : ℕ} {prec : Ptr} {r : ℤ} (hf : Follows q.heap q.head prec)
    (hq : q.removeLoop node fuel prec = some (r, q')) : r = -1 ∨ q'.head = q.head ∧
      ∃ prec p t, Follows q.heap q.head prec ∧ q.heap.lookup prec = some p ∧ q.heap.lookup p.next = some t ∧
        q'.heap = Finmap.erase p.next (q.heap.insert prec { p with next := t.next }) := by
  induction fuel generalizing prec with
  | zero => cases hq
  | succ fuel ih =>
    rw [removeLoop, Option.bind_eq_bind, Option.bind_eq_some_iff] at hq
    obtain ⟨p, hp, hq⟩ := hq
    by_cases hnull : p.next = NULL
    · simp only [hnull, if_true, Option.some.injEq, Prod.mk.injEq] at hq
      exact Or.inl hq.1.symm
    · simp only [if_neg hnull, Option.bind_eq_some_iff] at hq
      obtain ⟨t, ht, hq⟩ := hq
      by_cases hd : t.data = node
      · rw [if_pos hd] at hq
        obtain ⟨-, rfl⟩ := Prod.mk.inj (Option.some.inj hq)
        exact Or.inr ⟨rfl, prec, p, t, hf, hp, ht, rfl⟩
      · rw [if_neg hd] at hq
        exact ih (hf.next hp) hq

theorem removeNode_owned {a : Ptr} (h : q.Linked (pre ++ (a, node) :: post))
    (ho : q.Owned base (pre ++ (a, node) :: post)) (hq : q.removeNode node = some (0, q'))
    (h' : q'.Linked (pre ++ post)) : q'.Owned base (pre ++ post) := by
  obtain ⟨d, hp⟩ := h.path
  have hcell : ∀ {x}, Follows q.heap q.head x → x ∈ q.heap →
      x ∈ q.head :: (pre ++ (a, node) :: post).map Prod.fst := by
    intro x hx hmem
    rcases hp.follows h.null hx with rfl | hx
    · exact absurd hmem h.null
    · exact hx
  rw [removeNode] at hq
  split at hq
  · cases hq
  · rcases removeLoop_cases .refl hq with h0 | ⟨hhead, prec, p, t, hf, hlp, hlt, hheap⟩
    · cases h0
    · exact ho.unlink pre post (hcell hf (Finmap.mem_of_lookup_eq_some hlp)) hlp
        (hcell (hf.next hlp) (Finmap.mem_of_lookup_eq_some hlt)) hheap hhead h'

/-! ## `deleteQueue` -/

/-- **The rounds of `deleteQueue`**, from a node on. -/
theorem deleteLoop_owned {p : Ptr} {fuel : ℕ} (hp : Path heap p cells NULL) (hn : NULL ∉ heap)
    (ho : Owns base heap ns) (hns : (ns.map cellOf).Perm cells) (hfuel : cells.length < fuel) :
    deleteLoop fuel heap p = some base := by
  induction fuel generalizing heap p cells ns with
  | zero => omega
  | succ fuel ih =>
    cases cells with
    | nil =>
      obtain rfl : p = NULL := hp
      obtain rfl : ns = [] := List.map_eq_nil_iff.1 hns.eq_nil
      rw [deleteLoop, if_pos rfl, ho.eq_base]
    | cons c cells =>
      obtain ⟨rfl, next, hl, hp⟩ := hp
      have hc : c.1 ≠ NULL := by
        intro he
        exact hn (he ▸ Finmap.mem_of_lookup_eq_some hl)
      have hnodup := (map_fst_perm hns).nodup_iff.1 ho.nodup
      rw [List.map_cons, List.nodup_cons] at hnodup
      obtain ⟨l₁, x, l₂, rfl, hx, hrest⟩ := exists_node hns
      have hfree := ho.free l₁
      rw [show x.1 = c.1 from congrArg Prod.fst hx] at hfree
      rw [deleteLoop, if_neg hc, hl]
      refine ih (hp.erase hnodup.1) ?_ hfree hrest (Nat.lt_of_succ_lt_succ hfuel)
      rw [Finmap.mem_erase]
      exact fun hm => hn hm.2

theorem deleteQueue_owned (h : q.Linked cells) (ho : q.Owned base cells) : q.deleteQueue = some base := by
  obtain ⟨ns, ho, hns⟩ := ho
  obtain ⟨d, hp⟩ := h.path
  -- the sentinel has no data
  obtain rfl : d = NULL := by
    obtain ⟨l₁, x, l₂, rfl, hx, -⟩ := exists_node hns
    have hlx := ho.lookup x (by simp)
    obtain ⟨-, next, hl, -⟩ := hp
    rw [show x.1 = q.head from congrArg Prod.fst hx] at hlx
    rw [cellOf, Option.some.inj (hlx.symm.trans hl)] at hx
    exact congrArg Prod.snd hx
  exact deleteLoop_owned hp h.null ho hns (Nat.lt_succ_of_le (hp.length_le h.nodup))

/-- A step of a sequence of operations. -/
theorem Op.exec_owned {op : Op} (h : q.Linked cells) (ho : q.Owned base cells)
    (h0 : NULL ∉ cells.map Prod.snd) (ha : op.Allowed (cells.map Prod.snd)) :
    ∃ res q' cells', op.exec q = some (res, q') ∧ q'.Linked cells' ∧ q'.Owned base cells' ∧
      cells'.map Prod.snd = (op.onSeq (cells.map Prod.snd)).2 ∧ NULL ∉ cells'.map Prod.snd := by
  cases op with
  | push data malloc =>
    obtain ⟨q', hq, hl⟩ := push_linked malloc h ha
    refine ⟨_, q', _, by rw [Op.exec, hq]; rfl, hl, push_owned h ho ha hq, List.map_append, ?_⟩
    rw [List.map_append, List.mem_append, not_or]
    exact ⟨h0, by simpa using Ne.symm ha⟩
  | pop =>
    obtain ⟨⟨a, d⟩, cells, rfl⟩ : ∃ c cs, cells = c :: cs :=
      List.exists_cons_of_ne_nil fun he => ha (by rw [he]; rfl)
    obtain ⟨q', hq, hl⟩ := pop_linked h
    exact ⟨_, q', cells, by rw [Op.exec, hq]; rfl, hl, pop_owned ho h hq hl, rfl,
      fun hm => h0 (List.mem_cons_of_mem _ hm)⟩
  | removeNode node =>
    rcases removeNode_linked node h h0 with ⟨hno, hq⟩ | ⟨pre, a, post, q', rfl, hno, hq, hl⟩
    · refine ⟨_, q, cells, by rw [Op.exec, hq]; rfl, h, ho, ?_, h0⟩
      rw [Op.onSeq, if_neg hno]
    · have hmem : node ∈ (pre ++ (a, node) :: post).map Prod.snd := by simp
      refine ⟨_, q', _, by rw [Op.exec, hq]; rfl, hl, removeNode_owned h ho hq hl, ?_, ?_⟩
      · rw [Op.onSeq, if_pos hmem, List.map_append, List.map_append, List.map_cons]
        exact (erase_first hno).symm
      · rw [List.map_append, List.mem_append] at h0 ⊢
        exact fun hm => h0 (hm.imp_right (List.mem_cons_of_mem _))

/-- A sequence of operations. -/
def execAll (q : LinkedQueue) (ops : List Op) : Option LinkedQueue :=
  ops.foldlM (fun q op => (op.exec q).map Prod.snd) q

theorem execAll_owned {ops : List Op} (h : q.Linked cells) (ho : q.Owned base cells)
    (h0 : NULL ∉ cells.map Prod.snd) (ha : Throughout Op.Allowed (cells.map Prod.snd) ops) :
    ∃ q' cells', q.execAll ops = some q' ∧ q'.Linked cells' ∧ q'.Owned base cells' := by
  induction ops generalizing q cells with
  | nil => exact ⟨q, cells, rfl, h, ho⟩
  | cons op ops ih =>
    obtain ⟨res, q₁, cells₁, hq, hl, ho₁, hcells, hn⟩ := Op.exec_owned h ho h0 ha.1
    obtain ⟨q', cells', hrun, hl', ho'⟩ := ih hl ho₁ hn (by rw [hcells]; exact ha.2)
    refine ⟨q', cells', ?_, hl', ho'⟩
    rw [execAll, List.foldlM_cons, hq]
    exact hrun

/-- **`deleteQueue` after any sequence of operations** gives back all that the
    queue has allocated, and nothing else. -/
theorem deleteQueue_run {ops : List Op} (hheap : NULL ∉ heap) (ha : Throughout Op.Allowed [] ops) :
    ∃ q', (initQueue malloc heap).execAll ops = some q' ∧ q'.deleteQueue = some heap := by
  obtain ⟨q', cells, hrun, hl, ho⟩ :=
    execAll_owned (initQueue_linked hheap) initQueue_owned List.not_mem_nil ha
  exact ⟨q', hrun, deleteQueue_owned hl ho⟩

/-- Three connections are queued, one is taken. -/
theorem deleteQueue_refill : ∃ q', (initQueue firstFree ∅).execAll
      [.push 5 firstFree, .push 6 firstFree, .pop, .push 7 firstFree] = some q' ∧
    q'.deleteQueue = some ∅ :=
  deleteQueue_run Finmap.notMem_empty (by simp [Throughout, Op.Allowed, Op.onSeq, NULL])

end LinkedQueue

end FileStorage
