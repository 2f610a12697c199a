/-
  The queue of `queue.c` on a heap of nodes, with `removeNode` of
  `fileStorage.c`.

  Elsewhere a queue is the sequence of its data with its length (`Queue`).
  Here its nodes are allocated, linked and freed as in the C code, with the
  sentinel and the stored tail pointer.  A read or write through a pointer to
  no allocated node fails.  The blocks that the data point to are not part of
  this heap.

  * `push_linked`, `pop_linked` and `removeNode_linked`: what the functions do
    to the cells of the queue.
  * `push_queue`, `pop_queue` and `removeNode_queue`: they implement those of
    `Queue` and `Store`.
  * `implements_iff`: over any sequence of operations they implement a
    sequence, as long as the length fits the `int` that `push` returns.
-/
import Mathlib.Order.Lattice.Nat
import FileStorage.Store
import FileStorage.Lib.LinkedList

namespace FileStorage

open LinkedList

/-! ## The functions -/

/-- The allocation of a node: some address that is not in use. -/
structure Malloc where
  addr : Heap Ptr Ptr → Ptr
  ne_null : ∀ heap, addr heap ≠ NULL
  fresh : ∀ heap, addr heap ∉ heap

structure LinkedQueue where
  heap : Heap Ptr Ptr
  head : Ptr
  tail : Ptr
  len : ℕ

namespace LinkedQueue

def initQueue (malloc : Malloc) (heap : Heap Ptr Ptr) : LinkedQueue :=
  let head := malloc.addr heap
  ⟨heap.insert head ⟨NULL, NULL⟩, head, head, 0⟩

def push (malloc : Malloc) (q : LinkedQueue) (data : Ptr) : Option (ℤ × LinkedQueue) :=
  if data = NULL then some (-1, q)
  else
    let n := malloc.addr q.heap
    let heap := q.heap.insert n ⟨data, NULL⟩
    (heap.lookup q.tail).map fun t =>
      (i32 ↑(q.len + 1), ⟨heap.insert q.tail { t with next := n }, q.head, n, q.len + 1⟩)

def pop (q : LinkedQueue) : Option (Ptr × LinkedQueue) := do
  let s ← q.heap.lookup q.head
  let n ← q.heap.lookup s.next
  let heap := q.heap.insert q.head { s with next := n.next }
  let tail := if n.next = NULL then q.head else q.tail
  some (n.data, ⟨Finmap.erase s.next heap, q.head, tail, q.len - 1⟩)

/-- The loop of `removeNode`, with at most `fuel` rounds; at the start of a
    round `prec` is `tmp`. -/
def removeLoop (q : LinkedQueue) (node : Ptr) : ℕ → Ptr → Option (ℤ × LinkedQueue)
  | 0, _ => none
  | fuel + 1, prec => do
    let p ← q.heap.lookup prec
    let tmp := p.next
    if tmp = NULL then some (-1, q)
    else
      let t ← q.heap.lookup tmp
      if t.data = node then
        let tail := if q.tail = tmp then prec else q.tail
        let heap := q.heap.insert prec { p with next := t.next }
        some (0, ⟨Finmap.erase tmp heap, q.head, tail, q.len - 1⟩)
      else removeLoop q node fuel tmp

/-- `removeNode`: the loop makes at most one round for each node. -/
def removeNode (q : LinkedQueue) (node : Ptr) : Option (ℤ × LinkedQueue) :=
  if node = NULL then some (-1, q) else q.removeLoop node q.heap.keys.card q.head

/-! ## The cells of a queue -/

/-- The queue has these cells after its sentinel. -/
structure Linked (q : LinkedQueue) (cells : List (Ptr × Ptr)) : Prop where
  path : ∃ d, Path q.heap q.head ((q.head, d) :: cells) NULL
  nodup : (q.head :: cells.map Prod.fst).Nodup
  null : NULL ∉ q.heap
  tail : q.tail = (cells.map Prod.fst).getLastD q.head
  len : q.len = cells.length

variable {q : LinkedQueue} {cells : List (Ptr × Ptr)} {malloc : Malloc} {data node : Ptr}

theorem initQueue_linked {heap : Heap Ptr Ptr} (h : NULL ∉ heap) : (initQueue malloc heap).Linked [] where
  path := ⟨NULL, rfl, NULL, Finmap.lookup_insert _, rfl⟩
  nodup := List.nodup_singleton _
  null := by
    rw [initQueue, Finmap.mem_insert, not_or]
    exact ⟨(malloc.ne_null heap).symm, h⟩
  tail := rfl
  len := rfl

/-- The cells with the sentinel: the last one is the tail. -/
theorem Linked.concat (h : q.Linked cells) : ∃ d cs c, (q.head, d) :: cells = cs ++ [c] ∧
    Path q.heap q.head (cs ++ [c]) NULL ∧ c.1 = q.tail := by
  obtain ⟨d, hp⟩ := h.path
  rcases List.eq_nil_or_concat cells with rfl | ⟨cs, c, rfl⟩
  · exact ⟨d, [], (q.head, d), rfl, hp, h.tail.symm⟩
  · rw [List.concat_eq_append] at hp
    refine ⟨d, (q.head, d) :: cs, c, by simp, hp, ?_⟩
    rw [h.tail]
    simp

theorem Linked.mem (h : q.Linked cells) {a : Ptr} (ha : a ∈ q.head :: cells.map Prod.fst) : a ∈ q.heap := by
  obtain ⟨d, hp⟩ := h.path
  exact hp.mem (by simpa using ha)

theorem Linked.ne_null (h : q.Linked cells) {a : Ptr} (ha : a ∈ q.head :: cells.map Prod.fst) : a ≠ NULL := by
  rintro rfl
  exact h.null (h.mem ha)

/-- **`push` appends a cell.** -/
theorem push_linked (malloc : Malloc) (h : q.Linked cells) (hd : data ≠ NULL) :
    ∃ q', q.push malloc data = some (i32 ↑(cells.length + 1), q') ∧
      q'.Linked (cells ++ [(malloc.addr q.heap, data)]) := by
  obtain ⟨d, cs, c, hcs, hp, hc⟩ := h.concat
  let n := malloc.addr q.heap
  have hn : n ∉ q.heap := malloc.fresh q.heap
  have haddr : (cs ++ [c]).map Prod.fst = q.head :: cells.map Prod.fst := by
    rw [← hcs]
    rfl
  have hnodup : ((cs ++ [c]).map Prod.fst).Nodup := haddr ▸ h.nodup
  have hcn : c.1 ∉ cs.map Prod.fst := by
    rw [List.map_append, List.nodup_append] at hnodup
    exact fun hm => hnodup.2.2 _ hm _ (by simp) rfl
  have hnc : n ∉ (cs ++ [c]).map Prod.fst := fun hm => hn (h.mem (haddr ▸ hm))
  -- the tail is read after the allocation
  have hlookup : (q.heap.insert n ⟨data, NULL⟩).lookup q.tail = some ⟨c.2, NULL⟩ := by
    have hne : q.tail ≠ n := by
      rintro he
      exact hnc (by rw [← he, ← hc]; simp)
    rw [Finmap.lookup_insert_of_ne _ hne, ← hc]
    exact (path_concat.1 hp).2
  refine ⟨⟨(q.heap.insert n ⟨data, NULL⟩).insert q.tail ⟨c.2, n⟩, q.head, n, q.len + 1⟩, ?_, ?_⟩
  · simp only [push, if_neg hd]
    rw [hlookup, Option.map_some, h.len]
  · constructor
    · refine ⟨d, ?_⟩
      rw [← List.cons_append, hcs, path_concat]
      refine ⟨?_, ?_⟩
      · rw [← hc]
        exact (hp.insert hnc).redirect hcn
      · have hne : n ≠ q.tail := by
          rintro he
          exact hnc (by rw [he, ← hc]; simp)
        rw [Finmap.lookup_insert_of_ne _ hne, Finmap.lookup_insert]
    · rw [List.map_append, List.map_singleton, ← List.cons_append, List.nodup_append]
      refine ⟨h.nodup, List.nodup_singleton _, fun a ha b hb => ?_⟩
      rw [List.mem_singleton.1 hb]
      rintro rfl
      exact hn (h.mem ha)
    · rw [Finmap.mem_insert, Finmap.mem_insert, not_or, not_or]
      refine ⟨?_, (malloc.ne_null q.heap).symm, h.null⟩
      rw [← hc]
      exact (h.ne_null (haddr ▸ (by simp : c.1 ∈ (cs ++ [c]).map Prod.fst))).symm
    · simp [n]
    · simp [h.len]

theorem last_addr {cs : List (Ptr × Ptr)} {c : Ptr × Ptr} {x : Ptr} :
    ((cs ++ [c]).map Prod.fst).getLastD x = c.1 := by simp

/-- The cell `(a, d)` is taken out: its predecessor, in which the pointer to the
    next cell changes, and the queue afterwards. -/
theorem Linked.unlink (pre post : List (Ptr × Ptr)) {a d : Ptr} (h : q.Linked (pre ++ (a, d) :: post)) :
    ∃ dp next, q.heap.lookup ((pre.map Prod.fst).getLastD q.head) = some ⟨dp, a⟩ ∧
      q.heap.lookup a = some ⟨d, next⟩ ∧ (next = NULL ↔ post = []) ∧ (q.tail = a ↔ post = []) ∧
      Linked ⟨Finmap.erase a (q.heap.insert ((pre.map Prod.fst).getLastD q.head) ⟨dp, next⟩), q.head,
        if post = [] then (pre.map Prod.fst).getLastD q.head else q.tail, q.len - 1⟩ (pre ++ post) := by
  obtain ⟨d₀, hp⟩ := h.path
  -- the predecessor
  obtain ⟨cs, c, hcs, hc⟩ : ∃ cs c, (q.head, d₀) :: pre = cs ++ [c] ∧
      c.1 = (pre.map Prod.fst).getLastD q.head := by
    rcases List.eq_nil_or_concat pre with rfl | ⟨l, c, rfl⟩
    · exact ⟨[], (q.head, d₀), rfl, rfl⟩
    · exact ⟨(q.head, d₀) :: l, c, by simp, by simp⟩
  rw [← List.cons_append, hcs, path_append] at hp
  obtain ⟨m, hp₁, rfl, next, hl, hp₂⟩ := hp
  have hnodup := h.nodup
  have haddr : q.head :: (pre ++ (m, d) :: post).map Prod.fst =
      (cs ++ [c]).map Prod.fst ++ m :: post.map Prod.fst := by
    rw [← hcs]
    simp
  rw [haddr, List.nodup_append, List.nodup_cons] at hnodup
  obtain ⟨hn₁, ⟨hm, hn₂⟩, hdisj⟩ := hnodup
  have hm₁ : m ∉ (cs ++ [c]).map Prod.fst := fun hmem => hdisj _ hmem _ List.mem_cons_self rfl
  have hc₁ : c.1 ∉ cs.map Prod.fst := by
    rw [List.map_append, List.nodup_append] at hn₁
    exact fun hmem => hn₁.2.2 _ hmem _ (by simp) rfl
  have hc₂ : c.1 ∉ post.map Prod.fst := fun hmem =>
    hdisj c.1 (by simp) c.1 (List.mem_cons_of_mem _ hmem) rfl
  rw [← hc]
  refine ⟨c.2, next, (path_concat.1 hp₁).2, hl, ?_, ?_, ?_⟩
  · cases post with
    | nil => exact ⟨fun _ => rfl, fun _ => hp₂⟩
    | cons c' post =>
      refine ⟨fun hnull => ?_, fun he => by cases he⟩
      have hne : c'.1 ≠ NULL := h.ne_null (by rw [haddr]; simp)
      exact absurd (hp₂.1.symm.trans hnull) hne
  · rw [h.tail]
    rcases List.eq_nil_or_concat post with rfl | ⟨l, c', rfl⟩
    · simp
    · rw [List.concat_eq_append] at hm ⊢
      rw [← List.cons_append, ← List.append_assoc, last_addr]
      refine ⟨fun he => absurd ?_ hm, fun he => by simp at he⟩
      simp [he]
  · have hpath : Path (Finmap.erase m (q.heap.insert c.1 ⟨c.2, next⟩)) q.head
        ((cs ++ [c]) ++ post) NULL :=
      path_append.2 ⟨next, (hp₁.redirect hc₁).erase hm₁, (hp₂.insert hc₂).erase hm⟩
    constructor
    · refine ⟨d₀, ?_⟩
      rw [← List.cons_append, hcs]
      exact hpath
    · refine h.nodup.sublist ?_
      rw [List.map_append, List.map_append, List.map_cons]
      exact ((List.Sublist.refl _).append (List.sublist_cons_self _ _)).cons_cons _
    · rw [Finmap.mem_erase, Finmap.mem_insert, not_and_or, not_or]
      have hne : c.1 ≠ NULL := h.ne_null (by rw [haddr]; simp)
      exact Or.inr ⟨hne.symm, h.null⟩
    · rcases List.eq_nil_or_concat post with rfl | ⟨l, c', rfl⟩
      · rw [if_pos rfl, List.append_nil]
        exact hc
      · rw [List.concat_eq_append, if_neg (by simp), h.tail, List.concat_eq_append, ← List.cons_append,
          ← List.append_assoc, ← List.append_assoc, last_addr, last_addr]
    · rw [h.len]
      simp

/-- **`pop` takes off the first cell.** -/
theorem pop_linked {a d : Ptr} (h : q.Linked ((a, d) :: cells)) :
    ∃ q', q.pop = some (d, q') ∧ q'.Linked cells := by
  obtain ⟨dp, next, hl₁, hl₂, hnull, -, h'⟩ := Linked.unlink [] cells h
  refine ⟨_, ?_, h'⟩
  have hif : (if next = NULL then q.head else q.tail) = if cells = [] then q.head else q.tail :=
    if_congr hnull rfl rfl
  rw [pop, show q.heap.lookup q.head = _ from hl₁, Option.bind_eq_bind, Option.bind_some, hl₂]
  simp only [Option.bind_some, hif]
  rfl

/-- The loop of `removeNode`, after the cells before `prec`. -/
theorem removeLoop_linked (fuel : ℕ) (pre rest : List (Ptr × Ptr)) (h : q.Linked (pre ++ rest))
    (hno : node ∉ pre.map Prod.snd) (hfuel : rest.length < fuel) :
    (node ∉ rest.map Prod.snd ∧
      q.removeLoop node fuel ((pre.map Prod.fst).getLastD q.head) = some (-1, q)) ∨
    ∃ pre' a post q', rest = pre' ++ (a, node) :: post ∧ node ∉ pre'.map Prod.snd ∧
      q.removeLoop node fuel ((pre.map Prod.fst).getLastD q.head) = some (0, q') ∧
      q'.Linked (pre ++ pre' ++ post) := by
  induction fuel generalizing pre rest with
  | zero => omega
  | succ fuel ih =>
    cases rest with
    | nil =>
      obtain ⟨d, cs, c, hcs, hp, hc⟩ := h.concat
      have hprec : (pre.map Prod.fst).getLastD q.head = c.1 := by
        rw [hc, h.tail, List.append_nil]
      refine Or.inl ⟨by simp, ?_⟩
      rw [removeLoop, hprec, (path_concat.1 hp).2]
      rfl
    | cons c rest =>
      obtain ⟨a, d⟩ := c
      obtain ⟨dp, next, hl₁, hl₂, hnull, htail, h'⟩ := Linked.unlink pre rest h
      have ha : a ≠ NULL := h.ne_null (by simp)
      by_cases hd : d = node
      · subst hd
        refine Or.inr ⟨[], a, rest, _, rfl, by simp, ?_, by rw [List.append_nil]; exact h'⟩
        rw [removeLoop, hl₁]
        simp only [Option.bind_eq_bind, Option.bind_some, if_neg ha, hl₂, if_true, htail]
      · have hstep : q.removeLoop node (fuel + 1) ((pre.map Prod.fst).getLastD q.head) =
            q.removeLoop node fuel a := by
          rw [removeLoop, hl₁]
          simp only [Option.bind_eq_bind, Option.bind_some, if_neg ha, hl₂, if_neg hd]
        have hlast : ((pre ++ [(a, d)]).map Prod.fst).getLastD q.head = a := last_addr
        have hno' : node ∉ (pre ++ [(a, d)]).map Prod.snd := by
          simp only [List.map_append, List.mem_append, not_or]
          exact ⟨hno, by simpa using Ne.symm hd⟩
        rw [hstep]
        have hrec := ih (pre ++ [(a, d)]) rest (by rwa [List.append_assoc]) hno'
          (by rw [List.length_cons] at hfuel; omega)
        rw [hlast] at hrec
        rcases hrec with ⟨h1, h2⟩ | ⟨pre', b, post, q', rfl, h1, h2, h3⟩
        · refine Or.inl ⟨?_, h2⟩
          rw [List.map_cons, List.mem_cons, not_or]
          exact ⟨Ne.symm hd, h1⟩
        · refine Or.inr ⟨(a, d) :: pre', b, post, q', rfl, ?_, h2, ?_⟩
          · rw [List.map_cons, List.mem_cons, not_or]
            exact ⟨Ne.symm hd, h1⟩
          · simpa using h3

/-- **`removeNode` takes out the first cell with the given data.** -/
theorem removeNode_linked (node : Ptr) (h : q.Linked cells) (hnull : NULL ∉ cells.map Prod.snd) :
    (node ∉ cells.map Prod.snd ∧ q.removeNode node = some (-1, q)) ∨
    ∃ pre a post q', cells = pre ++ (a, node) :: post ∧ node ∉ pre.map Prod.snd ∧
      q.removeNode node = some (0, q') ∧ q'.Linked (pre ++ post) := by
  by_cases h0 : node = NULL
  · subst h0
    exact Or.inl ⟨hnull, if_pos rfl⟩
  · rw [removeNode, if_neg h0]
    obtain ⟨d, hp⟩ := h.path
    have hcard := hp.length_le h.nodup
    exact removeLoop_linked _ [] cells h (by simp) (Nat.lt_of_succ_le (by simpa using hcard))

/-! ## The queues of the other modules -/

/-- The queue has the data and the length of `s`. -/
def Refines (q : LinkedQueue) (s : Queue Ptr) : Prop :=
  ∃ cells, q.Linked cells ∧ cells.map Prod.snd = s.data ∧ q.len = s.len

variable {s s' : Queue Ptr}

theorem push_queue (h : q.Refines s) (hd : data ≠ NULL) :
    ∃ q', q.push malloc data = some ((FileStorage.push s data).1, q') ∧
      q'.Refines (FileStorage.push s data).2 := by
  obtain ⟨cells, hl, hdata, hlen⟩ := h
  obtain ⟨q', hq, hl'⟩ := push_linked malloc hl hd
  have hcells : cells.length = s.len := hl.len.symm.trans hlen
  refine ⟨q', ?_, _, hl', ?_, ?_⟩
  · rw [hq, hcells, FileStorage.push]
  · simp [FileStorage.push, hdata]
  · simp [FileStorage.push, hl'.len, hcells]

theorem pop_queue (h : q.Refines s) (hp : FileStorage.pop s = some (data, s')) :
    ∃ q', q.pop = some (data, q') ∧ q'.Refines s' := by
  obtain ⟨cells, hl, hdata, hlen⟩ := h
  rw [pop_data hp] at hdata
  obtain ⟨⟨a, d⟩, cells, rfl, rfl, hcells⟩ := List.map_eq_cons_iff.1 hdata
  obtain ⟨q', hq, hl'⟩ := pop_linked hl
  refine ⟨q', hq, cells, hl', hcells, ?_⟩
  have hs' : s'.len = s.len - 1 := by
    unfold FileStorage.pop at hp
    split at hp
    · cases hp
    · cases hp
      rfl
  rw [hs', ← hlen, hl.len, hl'.len]
  rfl

/-- The first occurrence. -/
theorem erase_first {pre post : List Ptr} (h : node ∉ pre) :
    (pre ++ node :: post).erase node = pre ++ post := by
  rw [List.erase_append_right _ h, List.erase_cons_head]

theorem removeNode_queue {s : Queue FileNode} (h : q.Refines ⟨s.data.map (·.addr), s.len⟩)
    (hnull : ∀ f ∈ s.data, f.addr ≠ NULL) :
    ∃ q', q.removeNode node = some ((FileStorage.removeNode s node).1, q') ∧
      q'.Refines ⟨(FileStorage.removeNode s node).2.data.map (·.addr), (FileStorage.removeNode s node).2.len⟩ := by
  obtain ⟨cells, hl, hdata, hlen⟩ := h
  have hdata : cells.map Prod.snd = s.data.map (·.addr) := hdata
  have hlen : q.len = s.len := hlen
  have hnull' : NULL ∉ cells.map Prod.snd := by
    rw [hdata]
    rintro hm
    obtain ⟨f, hf, h0⟩ := List.mem_map.1 hm
    exact hnull f hf h0
  have hany : (s.data.any (·.addr = node) = true) ↔ node ∈ cells.map Prod.snd := by
    rw [hdata, List.any_eq_true, List.mem_map]
    simp
  rcases removeNode_linked node hl hnull' with ⟨hno, hq⟩ | ⟨pre, a, post, q', rfl, hno, hq, hl'⟩
  · have hr : FileStorage.removeNode s node = (-1, s) := by
      rw [FileStorage.removeNode, if_neg (mt hany.1 hno), ite_self]
    rw [hr]
    exact ⟨q, hq, cells, hl, hdata, hlen⟩
  · have hmem : node ∈ (pre ++ (a, node) :: post).map Prod.snd := by simp
    have h0 : node ≠ NULL := by
      rintro rfl
      exact hnull' hmem
    have hr : FileStorage.removeNode s node =
        (0, ⟨s.data.eraseP (·.addr = node), s.len - 1⟩) := by
      rw [FileStorage.removeNode, if_neg h0, if_pos (hany.2 hmem)]
    have herase : (s.data.eraseP (·.addr = node)).map (·.addr) = (s.data.map (·.addr)).erase node := by
      have hp : (fun f : FileNode => decide (f.addr = node)) = (· == node) ∘ (·.addr) := by
        funext f
        simp [beq_eq_decide]
      rw [hp, ← List.eraseP_map]
      exact (List.erase_eq_eraseP' node _).symm
    rw [hr]
    refine ⟨q', hq, pre ++ post, hl', ?_, ?_⟩
    · show (pre ++ post).map Prod.snd = (s.data.eraseP _).map _
      rw [herase, ← hdata, List.map_append, List.map_append, List.map_cons, erase_first hno]
    · have hl₂ := hl.len
      have hl₃ := hl'.len
      simp only [List.length_append, List.length_cons] at hl₂ hl₃ ⊢
      omega

/-! ## The sequence -/

inductive Op where
  | push (data : Ptr) (malloc : Malloc)
  | pop
  | removeNode (node : Ptr)

inductive Res where
  | int (n : ℤ)
  | data (p : Ptr)
  deriving DecidableEq, Repr

def Op.exec : Op → LinkedQueue → Option (Res × LinkedQueue)
  | .push data malloc, q => (q.push malloc data).map fun x => (.int x.1, x.2)
  | .pop, q => q.pop.map fun x => (.data x.1, x.2)
  | .removeNode node, q => (q.removeNode node).map fun x => (.int x.1, x.2)

/-- What the operations are meant to do with a sequence. -/
def Op.onSeq : Op → List Ptr → Res × List Ptr
  | .push data _, xs => (.int ↑(xs.length + 1), xs ++ [data])
  | .pop, xs => (.data (xs.headD NULL), xs.tail)
  | .removeNode node, xs => if node ∈ xs then (.int 0, xs.erase node) else (.int (-1), xs)

/-- The callers push no null pointer, and pop only when there is an element. -/
def Op.Allowed (xs : List Ptr) : Op → Prop
  | .push data _ => data ≠ NULL
  | .pop => xs ≠ []
  | .removeNode _ => True

/-- The length after a `push` fits an `int`. -/
def Op.Fits (xs : List Ptr) : Op → Prop
  | .push _ _ => xs.length < INT_MAX
  | _ => True

/-- A property of the operations, each on the sequence before it. -/
def Throughout (P : List Ptr → Op → Prop) : List Ptr → List Op → Prop
  | _, [] => True
  | xs, op :: ops => P xs op ∧ Throughout P (op.onSeq xs).2 ops

/-- The queue holds the sequence, and no freed node can be reached. -/
structure Represents (q : LinkedQueue) (xs : List Ptr) : Prop where
  cells : ∃ cells, q.Linked cells ∧ cells.map Prod.snd = xs
  reached : ∀ a, Follows q.heap q.head a → a = NULL ∨ a ∈ q.heap

/-- Each operation returns what it is meant to return, and the queue holds the
    sequence before and after it. -/
def Implements : LinkedQueue → List Ptr → List Op → Prop
  | q, xs, [] => q.Represents xs
  | q, xs, op :: ops => q.Represents xs ∧
      ∃ q', op.exec q = some ((op.onSeq xs).1, q') ∧ Implements q' (op.onSeq xs).2 ops

variable {xs : List Ptr} {op : Op} {ops : List Op}

theorem Linked.represents (h : q.Linked cells) : q.Represents (cells.map Prod.snd) where
  cells := ⟨cells, h, rfl⟩
  reached a ha := by
    obtain ⟨d, hp⟩ := h.path
    exact (hp.follows h.null ha).imp_right hp.mem

theorem i32_succ_eq {n : ℕ} : i32 ↑(n + 1) = ((n + 1 : ℕ) : ℤ) ↔ n < INT_MAX := by
  unfold INT_MAX
  constructor
  · intro h
    have := (i32_bounds ((n + 1 : ℕ) : ℤ)).2
    omega
  · intro h
    exact i32_eq (by omega) (by omega)

/-- **A step.**  The sequence is always right, the result if it fits. -/
theorem Represents.step (h : q.Represents xs) (h0 : NULL ∉ xs) (ha : op.Allowed xs) :
    ∃ res q', op.exec q = some (res, q') ∧ q'.Represents (op.onSeq xs).2 ∧ NULL ∉ (op.onSeq xs).2 ∧
      (res = (op.onSeq xs).1 ↔ op.Fits xs) := by
  obtain ⟨cells, hl, rfl⟩ := h.cells
  cases op with
  | push data malloc =>
    obtain ⟨q', hq, hl'⟩ := push_linked malloc hl ha
    have hr := hl'.represents
    rw [List.map_append] at hr
    refine ⟨_, q', by rw [Op.exec, hq]; rfl, hr, ?_, ?_⟩
    · simp only [Op.onSeq, List.mem_append, List.mem_singleton, not_or]
      exact ⟨h0, Ne.symm ha⟩
    · simp only [Op.onSeq, Op.Fits, Res.int.injEq, List.length_map]
      exact i32_succ_eq
  | pop =>
    obtain ⟨c, cells, rfl⟩ : ∃ c cs, cells = c :: cs :=
      List.exists_cons_of_ne_nil fun he => ha (by rw [he]; rfl)
    obtain ⟨q', hq, hl'⟩ := pop_linked hl
    refine ⟨_, q', by rw [Op.exec, hq]; rfl, hl'.represents, ?_, ?_⟩
    · exact fun hm => h0 (List.mem_cons_of_mem _ hm)
    · exact ⟨fun _ => trivial, fun _ => rfl⟩
  | removeNode node =>
    rcases removeNode_linked node hl h0 with ⟨hno, hq⟩ | ⟨pre, a, post, q', rfl, hno, hq, hl'⟩
    · refine ⟨_, q, by rw [Op.exec, hq]; rfl, ?_, ?_, ?_⟩
      · rw [Op.onSeq, if_neg hno]
        exact hl.represents
      · rwa [Op.onSeq, if_neg hno]
      · rw [Op.onSeq, if_neg hno]
        exact ⟨fun _ => trivial, fun _ => rfl⟩
    · have hmem : node ∈ (pre ++ (a, node) :: post).map Prod.snd := by simp
      have hr := hl'.represents
      have herase : ((pre ++ (a, node) :: post).map Prod.snd).erase node = (pre ++ post).map Prod.snd := by
        rw [List.map_append, List.map_cons, List.map_append]
        exact erase_first hno
      refine ⟨_, q', by rw [Op.exec, hq]; rfl, ?_, ?_, ?_⟩
      · rw [Op.onSeq, if_pos hmem, herase]
        exact hr
      · rw [Op.onSeq, if_pos hmem]
        exact fun hm => h0 (List.mem_of_mem_erase hm)
      · rw [Op.onSeq, if_pos hmem]
        exact ⟨fun _ => trivial, fun _ => rfl⟩

/-- Over a sequence of operations. -/
theorem Represents.keeps_iff (h : q.Represents xs) (h0 : NULL ∉ xs)
    (ha : Throughout Op.Allowed xs ops) :
    Implements q xs ops ↔ Throughout Op.Fits xs ops := by
  induction ops generalizing q xs with
  | nil => exact ⟨fun _ => trivial, fun _ => h⟩
  | cons op ops ih =>
    obtain ⟨res, q', hq, hr, hn, hres⟩ := h.step h0 ha.1
    have hrec := ih hr hn ha.2
    constructor
    · rintro ⟨-, q'', hq'', himp⟩
      rw [hq] at hq''
      obtain ⟨hres', rfl⟩ := Prod.mk.inj (Option.some.inj hq'')
      exact ⟨hres.1 hres', hrec.1 himp⟩
    · rintro ⟨hfits, hrest⟩
      exact ⟨h, q', by rw [hq, hres.2 hfits], hrec.2 hrest⟩

/-- **The linked queue implements a sequence**, whatever operations are performed,
    if and only if the length after each `push` fits its result. -/
theorem implements_iff {heap : Heap Ptr Ptr} (hheap : NULL ∉ heap)
    (ha : Throughout Op.Allowed [] ops) :
    Implements (initQueue malloc heap) [] ops ↔ Throughout Op.Fits [] ops :=
  (initQueue_linked hheap).represents.keeps_iff (by simp) ha

/-- The address after the largest one. -/
def firstFree : Malloc where
  addr heap := heap.keys.sup id + 1
  ne_null _ := Nat.succ_ne_zero _
  fresh _ h :=
    Nat.not_succ_le_self _ (Finset.le_sup (f := id) (Finmap.mem_keys.2 h))

/-- The last element is removed, and another one pushed. -/
theorem implements_refill : Implements (initQueue firstFree ∅) []
    [.push 5 firstFree, .push 6 firstFree, .removeNode 6, .push 7 firstFree, .pop, .pop] :=
  (implements_iff (Finmap.notMem_empty) (by simp [Throughout, Op.Allowed, Op.onSeq, NULL])).2
    (by simp [Throughout, Op.Fits, Op.onSeq, INT_MAX])

theorem throughout_push {P : List Ptr → Op → Prop} (n : ℕ)
    (h : Throughout P xs (List.replicate n (.push data malloc))) :
    ∀ k < n, P (xs ++ List.replicate k data) (.push data malloc) := by
  induction n generalizing xs with
  | zero =>
    intro k hk
    omega
  | succ n ih =>
    intro k hk
    cases k with
    | zero => rw [List.replicate_zero, List.append_nil]; exact h.1
    | succ k =>
      have := ih h.2 k (by omega)
      rwa [Op.onSeq, List.append_assoc, List.singleton_append, ← List.replicate_succ] at this

theorem allowed_push (hd : data ≠ NULL) (n : ℕ) :
    Throughout Op.Allowed xs (List.replicate n (.push data malloc)) := by
  induction n generalizing xs with
  | zero => trivial
  | succ n ih => exact ⟨hd, ih⟩

/-- The `push` to `2^31 - 1` elements returns a negative number. -/
theorem not_implements_push : Throughout Op.Allowed [] (List.replicate 2147483648 (.push 1 firstFree)) ∧
    ¬ Implements (initQueue firstFree ∅) [] (List.replicate 2147483648 (.push 1 firstFree)) := by
  have hallowed : Throughout Op.Allowed [] (List.replicate 2147483648 (.push 1 firstFree)) :=
    allowed_push Nat.one_ne_zero _
  refine ⟨hallowed, fun h => ?_⟩
  have hfits := ((initQueue_linked Finmap.notMem_empty).represents.keeps_iff (by simp) hallowed).1 h
  have hlast : (List.replicate INT_MAX 1).length < INT_MAX :=
    throughout_push _ hfits INT_MAX (by unfold INT_MAX; omega)
  rw [List.length_replicate] at hlast
  exact lt_irrefl _ hlast

end LinkedQueue

end FileStorage
