/-
  The expulsion of a file by a write or append.

  Both controllers ask `getFreeSpace` and, if the new bytes do not fit, expel
  one file, the first that passes the test of `expelFile` (`victim`), before
  they check the lock.

  * `expulsion_runs` is the inversion of the expulsion: it fails on a pointer
    that is not a node, else it sends, logs and removes the node and goes on.
  * `makesRoom_exact`: within the capacity, the test of `expelFile` is exact.
-/
import FileStorage.Controllers
import FileStorage.Effects
import Mathlib.Algebra.Order.BigOperators.Group.List
import Mathlib.Algebra.Order.Group.Nat

namespace FileStorage

open Threads Prog

variable {cfg : Config} {s : Server} {q : Queue FileNode} {r : Request} {f : FileNode}

/-! ## Requests that need an expulsion -/

/-- The request is refused because its file is larger than the whole store. -/
def Request.tooBig (cfg : Config) (r : Request) : Prop :=
  r.operation = .OP_WRITE_FILE ∧ cfg.maxMemSize.toNat < r.fileSize

/-- The controller of the request calls `expelFile`. -/
def NeedsExpulsion (cfg : Config) (q : Queue FileNode) (r : Request) : Prop :=
  (r.operation = .OP_WRITE_FILE ∨ r.operation = .OP_APPEND_FILE) ∧ ¬ r.tooBig cfg ∧
    u64 (getFreeSpace cfg q) < r.fileSize

instance : Decidable (r.tooBig cfg) := inferInstanceAs (Decidable (_ ∧ _))

instance : Decidable (NeedsExpulsion cfg q r) := inferInstanceAs (Decidable (_ ∧ _ ∧ _))

/-- The first node that passes the test of `expelFile`. -/
def victim (cfg : Config) (q : Queue FileNode) (requiredSpace : ℤ) : Option FileNode :=
  q.data.find? (makesRoom (getFreeSpace cfg q) requiredSpace)

theorem victim_mem {n : ℤ} (h : victim cfg q n = some f) : f ∈ q.data :=
  List.mem_of_find?_eq_some h

theorem expelFile_eq {n : ℤ} {u : Ptr} (h : victim cfg q n = some f) :
    expelFile cfg u q n = f.addr := by
  rw [victim] at h
  rw [expelFile, h]

theorem expelFile_unset {n : ℤ} {u : Ptr} (h : victim cfg q n = none) :
    expelFile cfg u q n = u := by
  rw [victim] at h
  rw [expelFile, h]

theorem size_le_total (hf : f ∈ q.data) : f.size ≤ q.total :=
  List.single_le_sum (by simp) _ (List.mem_map_of_mem hf)

/-- While the stored bytes fit, `getFreeSpace` is exact. -/
theorem getFreeSpace_exact (hM : cfg.maxMemSize.toNat ≤ INT_MAX)
    (ht : q.total ≤ cfg.maxMemSize.toNat) :
    getFreeSpace cfg q = cfg.maxMemSize.toNat - q.total := by
  unfold INT_MAX at hM
  rw [getFreeSpace_eq, i32_eq (by omega) (by omega)]

/-- While the stored bytes fit, the test of `expelFile` is exact. -/
theorem makesRoom_exact (hM : cfg.maxMemSize.toNat ≤ INT_MAX)
    (ht : q.total ≤ cfg.maxMemSize.toNat) {n : ℕ} (hn : n ≤ INT_MAX) (hf : f.size ≤ q.total) :
    makesRoom (getFreeSpace cfg q) (i32 n) f = true ↔
      q.total - f.size + n ≤ cfg.maxMemSize.toNat := by
  unfold INT_MAX at hM hn
  rw [makesRoom, getFreeSpace_exact hM ht, i32_eq (by omega) (by omega),
    u64_eq (x := (n : ℤ)) (by omega) (by omega), u64_eq (x := (_ : ℤ) - _) (by omega) (by omega),
    u64_eq (by omega) (by omega), decide_eq_true_eq]
  omega

/-! ## The expulsion in the controllers -/

/-- What the write and append controllers do to expel a file, then `k` with the
    result of `removeNode`. -/
def expulsion (r : Request) (k : ℤ → Code) : Code :=
  .act (.call (.expelFile (i32 r.fileSize))) fun data : Ptr =>
  sendBufferFileToClient data 1 <|
  .act (.call (.deref data)) fun f : FileNode =>
  logRequest r 0 (i32 r.fileSize) (some f.pathname) <|
  .act (.call (.removeNode data)) k

/-- A write or append from the lock check on. -/
def storeBody (r : Request) : Code :=
  if r.operation = .OP_WRITE_FILE then writeFileBody r else appendFileBody r

/-- A write or append after `removeNode`, with its result. -/
def expelledBody (r : Request) (res : ℤ) : Code :=
  if r.operation = .OP_WRITE_FILE then
    if res ≠ -1 then .act .incNumFileReplacement fun _ => writeFileBody r else writeFileBody r
  else appendFileBody r

/-- A write or append after `getFreeSpace`, with its result. -/
def storeBranch (cfg : Config) (r : Request) (freeSpace : ℤ) : Code :=
  if r.tooBig cfg then
    .act (.write (respond (-1) (str "The file is too big for the server"))) fun _ => .ret
  else if u64 freeSpace < r.fileSize then expulsion r (expelledBody r)
  else logRequest r 0 (i32 r.fileSize) none (storeBody r)

/-- The two controllers that expel. -/
theorem controller_eq (h : r.operation = .OP_WRITE_FILE ∨ r.operation = .OP_APPEND_FILE) :
    controller cfg r = .lock .fileQueueMutex (.act (.call .getFreeSpace) (storeBranch cfg r)) := by
  obtain hw | ha := h
  · have he : expelledBody r = fun res =>
        if res ≠ -1 then .act .incNumFileReplacement fun _ => writeFileBody r else writeFileBody r := by
      funext res; rw [expelledBody, if_pos hw]
    have hb : storeBranch cfg r = fun freeSpace => if cfg.maxMemSize.toNat < r.fileSize then
          .act (.write (respond (-1) (str "The file is too big for the server"))) fun _ => .ret
        else if u64 freeSpace < r.fileSize then expulsion r (expelledBody r)
        else logRequest r 0 (i32 r.fileSize) none (writeFileBody r) := by
      funext freeSpace
      simp only [storeBranch, storeBody, Request.tooBig, hw, true_and, if_true]
    rw [controller, hw, hb, he]
    rfl
  · have he : expelledBody r = fun _ => appendFileBody r := by
      funext res; rw [expelledBody, if_neg (by simp [ha])]
    have hb : storeBranch cfg r = fun freeSpace =>
        if u64 freeSpace < r.fileSize then expulsion r (expelledBody r)
        else logRequest r 0 (i32 r.fileSize) none (appendFileBody r) := by
      funext freeSpace
      simp only [storeBranch, storeBody, Request.tooBig, ha, reduceCtorEq, false_and, if_false]
    rw [controller, ha, hb, he]
    rfl

/-- The runs of a write or append. -/
theorem store_runs (h : r.operation = .OP_WRITE_FILE ∨ r.operation = .OP_APPEND_FILE)
    {t : List (Done workerSig)} {o : Outcome} {s' : Server} :
    Runs (exec cfg) (controller cfg r) s t o s' ↔
      ∃ t', t = ⟨.call .getFreeSpace, getFreeSpace cfg s.fileQueue⟩ :: t' ∧
        Runs (exec cfg) (storeBranch cfg r (getFreeSpace cfg s.fileQueue)) s t' o s' := by
  rw [controller_eq h]
  constructor
  · rintro (_ | _ | _ | hr)
    obtain ⟨_, x, s₁, t₁, hx, rfl, hr'⟩ | ⟨hx, -⟩ := hr.act_cases
    swap; · cases hx ⟨true, [], 0, NULL⟩
    obtain ⟨rfl, rfl⟩ := Prod.mk.inj (Option.some.inj hx)
    exact ⟨t₁, rfl, hr'⟩
  · rintro ⟨t', rfl, hr⟩
    exact .lock (.act (e := ⟨true, [], 0, NULL⟩) rfl hr)

theorem needsExpulsion_iff (h : r.operation = .OP_WRITE_FILE ∨ r.operation = .OP_APPEND_FILE)
    (hb : ¬ r.tooBig cfg) : NeedsExpulsion cfg q r ↔ u64 (getFreeSpace cfg q) < r.fileSize := by
  simp [NeedsExpulsion, h, hb]

/-- The actions of an expulsion of `f`; `sent` tells if the response and the
    contents could be sent. -/
def expulsionTrace (r : Request) (f : FileNode) (sent : Bool × Bool) : List (Done workerSig) :=
  [⟨.call (.expelFile (i32 r.fileSize)), f.addr⟩, ⟨.call (.deref f.addr), f⟩,
    ⟨.write ⟨1, f.size, str "Ready to send file", f.pathname⟩, sent.1⟩] ++
  (if sent.1 then [⟨.writeBytes ((f.file.getD []).take f.size), sent.2⟩] else []) ++
  [⟨.call (.deref f.addr), f⟩, ⟨.log ⟨r, 0, i32 r.fileSize, some f.pathname⟩, ()⟩,
    ⟨.call (.removeNode f.addr), (0 : ℤ)⟩]

/-- The state after the expulsion of `f`. -/
def expelled (s : Server) (r : Request) (f : FileNode) : Server :=
  { s with fileQueue := (removeNode s.fileQueue f.addr).2,
           log := s.log ++ [⟨r, 0, i32 r.fileSize, some f.pathname⟩] }

theorem expelled_wf (hs : s.WF cfg) : (expelled s r f).WF cfg := by
  have h : Server.WF cfg { s with fileQueue := (removeNode s.fileQueue f.addr).2 } :=
    Call.exec_wf hs (show Call.exec cfg ⟨true, [], 0, 0⟩ s (.removeNode f.addr) = some _ from rfl)
  exact ⟨h.toWF, h.addr, h.brk, h.cap⟩

theorem deref_some {a : Ptr} (h : q.deref a = some f) : f ∈ q.data ∧ f.addr = a := by
  rw [deref_eq] at h
  exact ⟨Keyed.lookup_mem h, Keyed.lookup_key (k := FileNode.addr) h⟩

/-- **Inversion of an expulsion.** -/
theorem expulsion_runs {k : ℤ → Code} {t : List (Done workerSig)} {o : Outcome} {s' : Server}
    (hs : s.WF cfg) (h : Runs (exec cfg) (expulsion r k) s t o s') :
    ∃ u, (s.fileQueue.deref (expelFile cfg u s.fileQueue (i32 r.fileSize)) = none ∧
        t = [⟨.call (.expelFile (i32 r.fileSize)),
          expelFile cfg u s.fileQueue (i32 r.fileSize)⟩] ∧ o = .stuck ∧ s' = s) ∨
      ∃ f ∈ s.fileQueue.data, expelFile cfg u s.fileQueue (i32 r.fileSize) = f.addr ∧
        ∃ sent t', t = expulsionTrace r f sent ++ t' ∧ Runs (exec cfg) (k 0) (expelled s r f) t' o s' := by
  have e₀ : Env := ⟨true, [], 0, 0⟩
  obtain ⟨e, p, s₁, t₁, hx, rfl, h⟩ | ⟨hx, -⟩ := h.act_cases
  swap; · cases hx e₀
  obtain ⟨rfl, rfl⟩ := Prod.mk.inj (Option.some.inj hx)
  refine ⟨e.unsetPtr, ?_⟩
  obtain ⟨_, f, s₁, t₁, hx, rfl, h⟩ | ⟨hx, rfl, rfl, rfl⟩ := h.act_cases
  swap; · exact Or.inl ⟨Option.map_eq_none_iff.1 (hx e₀), rfl, rfl, rfl⟩
  obtain ⟨f', hf, he⟩ := Option.map_eq_some_iff.1 hx
  obtain ⟨rfl, rfl⟩ := Prod.mk.inj he
  obtain ⟨hmem, ha⟩ := deref_some hf
  have h0 : f'.addr ≠ NULL := Nat.pos_iff_ne_zero.1 (hs.addr f' hmem).1
  rw [← ha] at h hf ⊢
  refine Or.inr ⟨f', hmem, rfl, ?_⟩
  -- the end of the expulsion, after the response and the contents
  have hend : ∀ {t₁}, Runs (exec cfg) (.act (.call (.deref f'.addr)) fun f : FileNode =>
      logRequest r 0 (i32 r.fileSize) (some f.pathname) <|
      .act (.call (.removeNode f'.addr)) k) s t₁ o s' →
      ∃ t', t₁ = [⟨.call (.deref f'.addr), f'⟩,
        ⟨.log ⟨r, 0, i32 r.fileSize, some f'.pathname⟩, ()⟩,
        ⟨.call (.removeNode f'.addr), (0 : ℤ)⟩] ++ t' ∧
        Runs (exec cfg) (k 0) (expelled s r f') t' o s' := by
    intro t₁ h
    obtain ⟨_, g, s₁, t₁, hx, rfl, h⟩ | ⟨hx, -⟩ := h.act_cases
    swap; · exact absurd (hx e₀) (by simp [exec, Call.exec, hf])
    obtain ⟨g', hg, he⟩ := Option.map_eq_some_iff.1 hx
    obtain ⟨rfl, rfl⟩ := Prod.mk.inj he
    obtain rfl : f' = g' := Option.some.inj (hf.symm.trans hg)
    obtain ⟨_, _, s₁, t₁, hx, rfl, h⟩ | ⟨hx, -⟩ := h.act_cases
    swap; · cases hx e₀
    obtain ⟨-, rfl⟩ := Prod.mk.inj (Option.some.inj hx)
    obtain ⟨_, res, s₁, t₁, hx, rfl, h⟩ | ⟨hx, -⟩ := h.act_cases
    swap; · cases hx e₀
    have hx' : ((removeNode s.fileQueue f'.addr).1, expelled s r f') = (res, s₁) :=
      Option.some.inj hx
    obtain ⟨rfl, rfl⟩ := Prod.mk.inj hx'
    rw [removeNode_data hs.toWF hmem h0] at h ⊢
    exact ⟨_, rfl, h⟩
  obtain ⟨_, ok, s₁, t₁, hx, rfl, h⟩ | ⟨hx, -⟩ := h.act_cases
  swap; · cases hx e₀
  obtain ⟨-, rfl⟩ := Prod.mk.inj (Option.some.inj hx)
  cases ok with
  | false =>
    obtain ⟨t', rfl, h'⟩ := hend h
    exact ⟨(false, false), t', rfl, h'⟩
  | true =>
    obtain ⟨_, ok, s₁, t₁, hx, rfl, h⟩ | ⟨hx, -⟩ := h.act_cases
    swap; · cases hx e₀
    obtain ⟨-, rfl⟩ := Prod.mk.inj (Option.some.inj hx)
    obtain ⟨t', rfl, h'⟩ := hend h
    exact ⟨(true, ok), t', rfl, h'⟩

/-- The run of an expulsion of which nothing fails. -/
theorem expulsion_run {k : ℤ → Code} {t : List (Done workerSig)} {o : Outcome} {s' : Server} {u : Ptr}
    (hs : s.WF cfg) (hf : f ∈ s.fileQueue.data)
    (he : expelFile cfg u s.fileQueue (i32 r.fileSize) = f.addr)
    (h : Runs (exec cfg) (k 0) (expelled s r f) t o s') :
    Runs (exec cfg) (expulsion r k) s (expulsionTrace r f (true, true) ++ t) o s' := by
  have h0 : f.addr ≠ NULL := Nat.pos_iff_ne_zero.1 (hs.addr f hf).1
  have hd : s.fileQueue.deref f.addr = some f := hs.toWF.deref_of_mem hf
  let e₀ : Env := ⟨true, [], 0, u⟩
  have hexpel : exec cfg (.call (.expelFile (i32 r.fileSize))) e₀ s = some (f.addr, s) := by
    simp [exec, Call.exec, he, e₀]
  have hderef : exec cfg (.call (.deref f.addr)) e₀ s = some (f, s) := by simp [exec, Call.exec, hd]
  have hremove : ∀ log, exec cfg (.call (.removeNode f.addr)) e₀ { s with log := log } =
      some ((0 : ℤ), { s with log := log, fileQueue := (removeNode s.fileQueue f.addr).2 }) := fun log => by
    simp [exec, Call.exec, removeNode_data hs.toWF hf h0]
  have hwrite : ∀ x, exec cfg (.write x) e₀ s = some (true, s) := fun _ => rfl
  have hbytes : ∀ x, exec cfg (.writeBytes x) e₀ s = some (true, s) := fun _ => rfl
  exact .act hexpel <| .act hderef <| .act (hwrite _) <| .act (hbytes _) <| .act hderef <|
    .act (e := e₀) rfl <| .act (hremove _) h

/-- The run of an expulsion that reads through an unset null pointer. -/
theorem expulsion_null {k : ℤ → Code} (hs : s.WF cfg)
    (hv : victim cfg s.fileQueue (i32 r.fileSize) = none) :
    Runs (exec cfg) (expulsion r k) s [⟨.call (.expelFile (i32 r.fileSize)), NULL⟩] .stuck s := by
  have hexpel : exec cfg (.call (.expelFile (i32 r.fileSize))) ⟨true, [], 0, NULL⟩ s =
      some (NULL, s) := by simp [exec, Call.exec, expelFile_unset hv]
  refine .act hexpel (.fails fun e => ?_)
  have hd : s.fileQueue.deref NULL = none := by
    rw [deref_eq, Keyed.lookup_eq_none]
    exact fun f hf => Nat.pos_iff_ne_zero.1 (hs.addr f hf).1
  simp [exec, Call.exec, hd]

end FileStorage
